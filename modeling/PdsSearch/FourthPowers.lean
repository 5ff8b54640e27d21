import PdsSearch.MachineError

/-!
# How far the L4 error fits in an `int`

The fourth powers of the deviations are added up in an `int`.  Over a group
table this stays in range, and is then the exact sum, exactly when the sum does

    L4Exact T S ↔ fourthPowers T S < 2 ^ 31                          (l4Exact_iff)
    (every set of order n has L4Exact) ↔ n ≤ 75                      (l4_exact_iff)

Out of range the value can be anything: in order 512 the set of all nonidentity
elements has deviations `-256` only, and `256⁴` wraps to `0`  (l4_wraps_to_zero).
-/

namespace PdsSearch

open Checked GroupRing MachineInt PartialDifferenceSet

variable {d : Dims}

/-- Parameters and a set that the search may be given. -/
structure Admissible (d : Dims) (S : List Int) : Prop where
  k : 1 ≤ d.k ∧ d.k ≤ d.n - 1
  lam : 0 ≤ d.lam ∧ d.lam ≤ d.k
  mu : 0 ≤ d.mu ∧ d.mu ≤ d.k
  length : S.length = d.k
  nodup : S.Nodup
  values : ∀ x ∈ S, 1 ≤ x ∧ x < d.n

/-- The histogram of products, in machine integers. -/
def checkedHistogram (n : Nat) (ct : List (List Int)) (S : List Int) : List CheckedInt :=
  (histogram Int n ct S).map fun x : Int => (x : CheckedInt)

/-- Neither method of `L4_error` leaves the range on the histogram of `S`; both give the exact
error, which vanishes only on partial difference sets. -/
def L4Exact (T : GroupTable d.n) (S : List Int) : Prop :=
  ∃ err : Int, Fits err ∧ error d T.ct S (l4Error : ErrorCalc Int) = .ok err ∧
    l4Error.efs d S (checkedHistogram d.n T.ct S) = .ok (err : CheckedInt) ∧
    (∀ isMember, Indicates d.n S isMember →
      l4Error.efsFromMember isMember d (checkedHistogram d.n T.ct S) = .ok (err : CheckedInt)) ∧
    0 ≤ err ∧ (err = 0 ↔ IsRegularPDS (T.toFinset S) d.k d.lam d.mu)

/-- The fourth powers of what the number of products `a * b = x` is off its target. -/
def fourthPowers (T : Table d.n) (S : List Int) : Int :=
  ∑ x : T.Elem, dev T (fun x => decide (T.idx x ∈ S)) (fun x => (productCount T.ct S (T.idx x) : Int)) x ^ 4

/-! ## Deviations in a group -/

section
variable {T : GroupTable d.n}

theorem count_bounds (c : Candidate T.toTable) (x : T.Elem) :
    0 ≤ (c.square Int).coeff x ∧ (c.square Int).coeff x ≤ d.k := by
  have h := coeff_formal_mul_le c.nodup x
  rwa [c.length_eq] at h

/-- Counts and targets lie between `0` and `k`. -/
theorem abs_dev_le (hlam : 0 ≤ d.lam ∧ d.lam ≤ d.k) (hmu : 0 ≤ d.mu ∧ d.mu ≤ d.k)
    (c : Candidate T.toTable) (x : T.Elem) :
    |dev T.toTable c.member (fun x => (c.square Int).coeff x) x| ≤ d.k := by
  have hx := count_bounds c x
  rw [abs_le]
  simp only [dev, Int.cast_id]
  split
  · omega
  · split
    · omega
    · omega

/-- Deviations in another ring are those over the integers. -/
theorem dev_intCast {α : Type} [CommRing α] [LT α] [DecidableLT α] (c : Candidate T.toTable)
    (x : T.Elem) : dev T.toTable c.member (fun x => (c.square α).coeff x) x =
      ((dev T.toTable c.member (fun x => (c.square Int).coeff x) x : Int) : α) := by
  simp only [dev, ← productCount_eq]
  split
  · push_cast
    rfl
  · split
    · push_cast
      rfl
    · push_cast
      rfl

theorem fourthPowers_eq (c : Candidate T.toTable) : fourthPowers T.toTable (T.ints c.xs) =
    ∑ x : T.Elem, dev T.toTable c.member (fun x => (c.square Int).coeff x) x ^ 4 := by
  have hcount : (fun x : T.Elem => (productCount T.ct (T.ints c.xs) (T.idx x) : Int)) =
      fun x => (c.square Int).coeff x := by
    funext x
    exact productCount_eq c x
  have hmem : (fun x : T.Elem => decide (T.idx x ∈ T.ints c.xs)) = c.member := by
    funext x
    exact decide_eq_decide.2 (T.idx_mem_ints x c.xs)
  unfold fourthPowers
  rw [hcount, hmem]

/-- **The whole group.**  All nonidentity elements together have `n - 2` products at each of them
and `n - 1` at the identity. -/
theorem coeff_nonId {R : Type} [CommRing R] (x : T.Elem) :
    (formal R T.nonId * formal R T.nonId).coeff x =
      (d.n : R) - 2 + if x = 1 then 1 else 0 := by
  let all : List T.Elem := (List.finRange d.n : List (Fin d.n))
  have hnd : all.Nodup := List.nodup_finRange d.n
  have hall : ∀ x, x ∈ all := List.mem_finRange
  have hperm : ((1 :: ([] : List T.Elem)) ++ T.nonId).Perm all :=
    List.Perm.of_eq (T.zero_cons_nonId T.pos)
  have hlen : all.length = d.n := List.length_finRange
  rw [coeff_complement_sq hnd hall hperm, hlen]
  simp

/-- A candidate of `n - 1` elements has them all. -/
theorem perm_nonId_of_full (c : Candidate T.toTable) (hk : d.k = d.n - 1) :
    c.xs.Perm T.nonId := by
  have hsub : c.xs.Subperm T.nonId :=
    List.subperm_of_subset c.nodup fun x hx => (T.mem_nonId x).2 (c.nonId x hx)
  apply hsub.perm_of_length_le
  rw [T.length_nonId, c.length_eq, hk]

theorem dev_full (c : Candidate T.toTable) (hk : d.k = d.n - 1) (x : T.Elem) :
    dev T.toTable c.member (fun x => (c.square Int).coeff x) x =
      if x = 1 then 0 else d.lam - (d.n - 2) := by
  have hn := T.pos
  have hperm := perm_nonId_of_full c hk
  have hsq : (c.square Int).coeff x = (d.n : Int) - 2 + if x = 1 then 1 else 0 := by
    unfold Candidate.square
    rw [formal_perm hperm, coeff_nonId]
  have hidx := T.idx_ne_zero x
  simp only [dev, Int.cast_id, hsq]
  by_cases hx : x = 1
  · rw [if_pos (by tauto), if_pos hx, if_pos hx]
    omega
  · have hmem : c.member x = true := decide_eq_true (hperm.mem_iff.2 ((T.mem_nonId x).2 (hidx.2 hx)))
    rw [if_neg (hidx.2 hx), if_neg hx, if_pos hmem, if_neg hx]
    omega

/-- Of the whole group, exactly. -/
theorem fourthPowers_full (c : Candidate T.toTable) (hk : d.k = d.n - 1) :
    fourthPowers T.toTable (T.ints c.xs) = (d.n - 1) * (d.lam - (d.n - 2)) ^ 4 := by
  have hn := T.pos
  have hone : T.zero hn = (1 : T.Elem) := rfl
  have hrest : (T.nonId.map fun x : T.Elem => (if x = 1 then 0 else d.lam - (d.n - 2)) ^ 4) =
      T.nonId.map fun _ => (d.lam - (d.n - 2)) ^ 4 := by
    apply List.map_congr_left
    intro x hx
    rw [if_neg ((T.idx_ne_zero x).1 ((T.mem_nonId x).1 hx))]
  rw [fourthPowers_eq]
  simp only [dev_full c hk]
  rw [T.sum_elem hn, hrest, hone, if_pos rfl, List.map_const', List.sum_replicate, T.length_nonId,
    nsmul_eq_mul]
  have hcast : ((d.n - 1 : Nat) : Int) = (d.n : Int) - 1 := by omega
  rw [hcast]
  ring

/-- Up to order 75 no deviation is above 73. -/
theorem fourthPowers_small (hn : d.n ≤ 75) (c : Candidate T.toTable) (hk : d.k ≤ d.n - 1)
    (hk1 : 1 ≤ d.k) (hlam : 0 ≤ d.lam ∧ d.lam ≤ d.k) (hmu : 0 ≤ d.mu ∧ d.mu ≤ d.k) :
    fourthPowers T.toTable (T.ints c.xs) < 2 ^ 31 := by
  have hdev : ∀ x, |dev T.toTable c.member (fun x => (c.square Int).coeff x) x| ≤ 73 := by
    intro x
    by_cases hfull : d.k = d.n - 1
    · rw [dev_full c hfull, abs_le]
      split
      · omega
      · omega
    · have := abs_dev_le hlam hmu c x
      omega
  have hterm : ∀ x, dev T.toTable c.member (fun x => (c.square Int).coeff x) x ^ 4 ≤ 73 ^ 4 := by
    intro x
    have h := pow_le_pow_left₀ (abs_nonneg _) (hdev x) 4
    rwa [Even.pow_abs (by decide)] at h
  have hcard : (Finset.univ : Finset T.Elem).card = d.n := Fintype.card_fin d.n
  have hsum := Finset.sum_le_card_nsmul Finset.univ _ _ fun x (_ : x ∈ Finset.univ) => hterm x
  rw [hcard, nsmul_eq_mul] at hsum
  rw [fourthPowers_eq]
  omega

/-! ## Machine integers -/

theorem Admissible.exists_candidate {S : List Int} (h : Admissible d S) (T : Table d.n) :
    ∃ c : Candidate T, T.ints c.xs = S :=
  Candidate.exists_of_list T S h.length h.nodup h.values

/-- The histogram of a candidate, cell by cell. -/
theorem checkedHistogram_eq (c : Candidate T.toTable) : checkedHistogram d.n T.ct (T.ints c.xs) =
    T.tab fun x => (((c.square Int).coeff x : Int) : CheckedInt) := by
  unfold checkedHistogram
  rw [histogram_ints]
  exact T.map_tab _ _

/-- Numbers up to 512 fit. -/
theorem Admissible.dimsFit {S : List Int} (h : Admissible d S) (hn : d.n < 2 ^ 31) : DimsFit d := by
  have hk := h.k
  have hlam := h.lam
  have hmu := h.mu
  unfold DimsFit Fits
  omega

/-- **What the two methods compute**: the sum of the fourth powers, over exact integers and, as
far as it fits, over machine integers. -/
theorem l4_eq_fourthPowers (hn : d.n < 2 ^ 31) (c : Candidate T.toTable)
    (h : Admissible d (T.ints c.xs)) :
    error d T.ct (T.ints c.xs) (l4Error : ErrorCalc Int) = .ok (fourthPowers T.toTable (T.ints c.xs)) ∧
    l4Error.efs d (T.ints c.xs) (checkedHistogram d.n T.ct (T.ints c.xs)) =
      .ok ((fourthPowers T.toTable (T.ints c.xs) : Int) : CheckedInt) ∧
    l4Error.efsFromMember (T.tab c.member) d (checkedHistogram d.n T.ct (T.ints c.xs)) =
      .ok ((fourthPowers T.toTable (T.ints c.xs) : Int) : CheckedInt) := by
  obtain ⟨hM, hC⟩ := measures_l4 (T := T.toTable) (h.dimsFit hn) T.pos
  have hsum : errFold T.toTable (fun error t : Int => error + t) (fun t => (t * t) * (t * t)) T.pos
      (dev T.toTable c.member fun x => (c.square Int).coeff x) =
      fourthPowers T.toTable (T.ints c.xs) := by
    rw [fourthPowers_eq, errFold_add]
    apply Finset.sum_congr rfl
    intro x _
    rw [cabs_int, abs_mul_abs_self]
    ring
  have hfits : ∀ x, Fits ((c.square Int).coeff x) := by
    intro x
    have hx := count_bounds c x
    have hk := h.k
    unfold Fits
    omega
  rw [checkedHistogram_eq, error_candidate hM, hC.efs c.xs _ c.nodup c.nonId hfits,
    hC.efsFromMember _ _ hfits, ← hsum]
  exact ⟨rfl, rfl, rfl⟩

/-- **One input**: the error is exact when the sum fits, and only then. -/
theorem l4Exact_iff {S : List Int} (hn : d.n < 2 ^ 31) (h : Admissible d S) :
    L4Exact T S ↔ fourthPowers T.toTable S < 2 ^ 31 := by
  obtain ⟨c, rfl⟩ := h.exists_candidate T.toTable
  obtain ⟨herr, hefs, hmember⟩ := l4_eq_fourthPowers hn c h
  have hnonneg : 0 ≤ fourthPowers T.toTable (T.ints c.xs) := by
    rw [fourthPowers_eq]
    apply Finset.sum_nonneg
    intro x _
    exact Even.pow_nonneg (by decide) _
  constructor
  · rintro ⟨err, hfit, herr', -⟩
    rw [herr] at herr'
    rw [Except.ok.inj herr']
    exact hfit.2
  · intro hlt
    refine ⟨_, ⟨by omega, hlt⟩, herr, hefs, ?_, hnonneg, ?_⟩
    · intro isMember hmem
      rw [(indicates_ints_iff c.xs isMember).1 hmem]
      exact hmember
    · rw [← error_zero_iff c l4Error (by simp [calculators]), herr]
      constructor
      · intro h0
        rw [h0]
      · exact Except.ok.inj

/-- All nonidentity elements. -/
def wholeGroup (n : Nat) : List Int := (List.range' 1 (n - 1)).map fun i : Nat => (i : Int)

theorem admissible_wholeGroup {n : Nat} (h2 : 2 ≤ n) (lam mu : Int)
    (hlam : 0 ≤ lam ∧ lam ≤ (n - 1 : Nat)) (hmu : 0 ≤ mu ∧ mu ≤ (n - 1 : Nat)) :
    Admissible ⟨n, n - 1, lam, mu⟩ (wholeGroup n) where
  k := ⟨by show 1 ≤ n - 1; omega, le_rfl⟩
  lam := hlam
  mu := hmu
  length := by
    unfold wholeGroup
    rw [List.length_map, List.length_range']
  nodup := List.Nodup.map (fun i j h => by exact_mod_cast h) (List.nodup_range' ..)
  values := by
    intro x hx
    obtain ⟨i, hi, rfl⟩ := List.mem_map.1 hx
    have := List.mem_range'_1.1 hi
    show 1 ≤ (i : Int) ∧ (i : Int) < n
    omega

end

/-! ## Top theorems -/

/-- **The L4 error in an `int`.**  For a group of order up to 512: the value is exact, and no value
on the way out of range, exactly when the sum of the fourth powers is below `2³¹`; and this is so
for every choice of parameters and set exactly when the order is at most 75. -/
theorem l4_exact_iff {n : Nat} (T : GroupTable n) (h2 : 2 ≤ n) (h512 : n ≤ 512) :
    (∀ k lam mu S, Admissible ⟨n, k, lam, mu⟩ S → (L4Exact (d := ⟨n, k, lam, mu⟩) T S ↔
      fourthPowers (d := ⟨n, k, lam, mu⟩) T.toTable S < 2 ^ 31)) ∧
    ((∀ k lam mu S, Admissible ⟨n, k, lam, mu⟩ S → L4Exact (d := ⟨n, k, lam, mu⟩) T S) ↔ n ≤ 75) := by
  have hiff : ∀ k lam mu S, Admissible ⟨n, k, lam, mu⟩ S → (L4Exact (d := ⟨n, k, lam, mu⟩) T S ↔
      fourthPowers (d := ⟨n, k, lam, mu⟩) T.toTable S < 2 ^ 31) := fun k lam mu S h =>
    l4Exact_iff (by show n < 2 ^ 31; omega) h
  refine ⟨hiff, ?_⟩
  constructor
  · intro hall
    -- all nonidentity elements, and no product wanted
    have hS := admissible_wholeGroup h2 0 0 ⟨le_rfl, Int.natCast_nonneg _⟩ ⟨le_rfl, Int.natCast_nonneg _⟩
    have hexact := (hiff _ _ _ _ hS).1 (hall _ _ _ _ hS)
    obtain ⟨c, hc⟩ := hS.exists_candidate T.toTable
    rw [← hc, fourthPowers_full c rfl] at hexact
    by_contra hn
    have h74 : (74 : Int) ≤ (n : Int) - 2 := by omega
    have hpow : (74 : Int) ^ 4 ≤ ((n : Int) - 2) ^ 4 := pow_le_pow_left₀ (by norm_num) h74 4
    have hmul : (75 : Int) * 74 ^ 4 ≤ ((n : Int) - 1) * ((n : Int) - 2) ^ 4 :=
      mul_le_mul (by omega) hpow (by norm_num) (by omega)
    have heven : ((0 : Int) - ((n : Int) - 2)) ^ 4 = ((n : Int) - 2) ^ 4 := by ring
    simp only [heven] at hexact
    omega
  · intro hn k lam mu S h
    rw [hiff k lam mu S h]
    obtain ⟨c, rfl⟩ := h.exists_candidate T.toTable
    exact fourthPowers_small hn c h.k.2 h.k.1 h.lam h.mu

/-- Orders 5 and 76. -/
theorem l4_exact_iff_cyclic : L4Exact (d := ⟨5, 2, 0, 1⟩) (cyclicTable 5) [1, 4] ∧
    ¬ ∀ k lam mu S, Admissible ⟨76, k, lam, mu⟩ S →
      L4Exact (d := ⟨76, k, lam, mu⟩) (cyclicTable 76) S :=
  ⟨((l4_exact_iff (cyclicTable 5) (by decide) (by decide)).1 2 0 1 [1, 4] ⟨by decide, by decide,
      by decide, rfl, by decide, by decide⟩).2 (by decide),
    fun h => absurd ((l4_exact_iff (cyclicTable 76) (by decide) (by decide)).2.1 h) (by decide)⟩

/-- **A wrapped error.**  In the cyclic group of order 512 the set of all nonidentity elements, asked
for 254 products at each of them, overflows; an `int` that wraps holds `0`, the mark of a partial
difference set, which the set is not. -/
theorem l4_wraps_to_zero :
    Admissible ⟨512, 511, 254, 0⟩ (wholeGroup 512) ∧
    ¬ L4Exact (d := ⟨512, 511, 254, 0⟩) (cyclicTable 512) (wholeGroup 512) ∧
    l4Error.efs ⟨512, 511, 254, 0⟩ (wholeGroup 512)
      (checkedHistogram 512 (cyclicTable 512).ct (wholeGroup 512)) = .ok .overflow ∧
    error ⟨512, 511, 254, 0⟩ (cyclicTable 512).ct (wholeGroup 512) (l4Error : ErrorCalc WrapInt) = .ok 0 ∧
    ¬ IsRegularPDS ((cyclicTable 512).toFinset (wholeGroup 512)) 511 254 0 := by
  have hS : Admissible ⟨512, 511, 254, 0⟩ (wholeGroup 512) :=
    admissible_wholeGroup (by decide) 254 0 (by decide) (by decide)
  refine ⟨hS, ?_⟩
  obtain ⟨c, hc⟩ := hS.exists_candidate (cyclicTable 512).toTable
  rw [← hc] at hS ⊢
  have hfull : (511 : Nat) = 512 - 1 := by norm_num
  have hsum := fourthPowers_full (d := ⟨512, 511, 254, 0⟩) (T := cyclicTable 512) c hfull
  obtain ⟨herr, hefs, -⟩ := l4_eq_fourthPowers (d := ⟨512, 511, 254, 0⟩) (T := cyclicTable 512) (by decide) c hS
  rw [hsum] at herr hefs
  refine ⟨?_, ?_, ?_, ?_⟩
  · rw [l4Exact_iff (by decide) hS, hsum]
    decide
  · rw [hefs]
    decide
  · have hM := measures_with (α := WrapInt) (d := ⟨512, 511, 254, 0⟩) (cyclicTable 512).toTable
      (fun error t => error + t) (fun t => (t * t) * (t * t)) add_right_comm (cyclicTable 512).pos
    -- every term is the fourth power of 0 or of 256
    have hterm : ∀ x : (cyclicTable 512).Elem, (fun t : WrapInt => (t * t) * (t * t))
        (cabs (dev (d := ⟨512, 511, 254, 0⟩) (cyclicTable 512).toTable c.member
          (fun x => (c.square WrapInt).coeff x) x)) = 0 := by
      intro x
      rw [dev_intCast c x, dev_full (d := ⟨512, 511, 254, 0⟩) (T := cyclicTable 512) c hfull]
      split
      · decide
      · decide
    refine (error_candidate hM c).trans ?_
    unfold Candidate.err
    rw [errFold_add, Finset.sum_eq_zero fun x _ => hterm x]
  · rw [← error_zero_iff (d := ⟨512, 511, 254, 0⟩) (T := cyclicTable 512) c l4Error (by simp [calculators]), herr]
    decide

end PdsSearch
