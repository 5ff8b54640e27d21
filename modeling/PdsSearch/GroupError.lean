import PdsSearch.Scan
import PdsSearch.Lib.PartialDifferenceSet

/-!
# What the error means in a group

For the table of a group the deviations vanish exactly on the partial
difference sets:

    search = .ok ⟨S, err, _⟩ → err = error S ∧ (err = 0 ↔ IsRegularPDS S)    (search_finds_pds)
    error S = 0 ↔ the Cayley graph of S is strongly regular        (error_zero_iff_srg)
    error (complement of S) = error S                               (error_compl)
-/

namespace PdsSearch

open Checked GroupRing PartialDifferenceSet

variable {d : Dims}

/-! ## Lemmas -/

theorem Table.toFinset_ints {n : Nat} (T : Table n) (xs : List T.Elem) :
    T.toFinset (T.ints xs) = xs.toFinset := by
  ext x
  rw [T.mem_toFinset, T.idx_mem_ints, List.mem_toFinset]

section
variable {T : GroupTable d.n}

theorem Candidate.one_notMem (c : Candidate T.toTable) : 1 ∉ c.xs.toFinset := by
  intro h
  exact c.nonId 1 (List.mem_toFinset.1 h) T.idx_one

theorem Candidate.card (c : Candidate T.toTable) : c.xs.toFinset.card = d.k := by
  rw [List.toFinset_card_of_nodup c.nodup, c.length_eq]

/-- The histogram counts the products of the set. -/
theorem Candidate.coeff_square {α : Type} [CommRing α] (c : Candidate T.toTable) (x : T.Elem) :
    (c.square α).coeff x = (products c.xs.toFinset x : α) :=
  coeff_formal_mul_of_nodup c.nodup x

/-- **No deviation**: the set is a partial difference set. -/
theorem Candidate.dev_eq_zero_iff (c : Candidate T.toTable) :
    (∀ x, dev T.toTable c.member (fun x => (c.square Int).coeff x) x = 0) ↔
      IsRegularPDS c.xs.toFinset d.k d.lam d.mu := by
  rw [isRegularPDS_iff_products _ _ c.card c.one_notMem]
  rw [c.dev_eq_zero_iff_coeff T.pos]
  simp only [c.coeff_square, T.mem_nonId, T.idx_ne_zero]
  constructor
  · rintro ⟨hone, hrest⟩
    refine ⟨hone, ?_, ?_⟩
    · intro x hx
      have hxc := List.mem_toFinset.1 hx
      rw [hrest x ((T.idx_ne_zero x).1 (c.nonId x hxc)), if_pos hxc]
    · intro x hx1 hx
      rw [hrest x hx1, if_neg fun h => hx (List.mem_toFinset.2 h)]
  · rintro ⟨hone, hlam, hmu⟩
    refine ⟨hone, ?_⟩
    intro x hx1
    by_cases hx : x ∈ c.xs
    · rw [if_pos hx, hlam x (List.mem_toFinset.2 hx)]
    · rw [if_neg hx, hmu x hx1 fun h => hx (List.mem_toFinset.1 h)]

/-- **The error vanishes exactly on the partial difference sets.** -/
theorem error_zero_iff (c : Candidate T.toTable) (e : ErrorCalc Int) (he : e ∈ calculators) :
    error d T.ct (T.ints c.xs) e = .ok 0 ↔
      IsRegularPDS (T.toFinset (T.ints c.xs)) d.k d.lam d.mu := by
  obtain ⟨norm, hM, -, hzero⟩ := exists_norm_int T.toTable T.pos e he
  rw [error_candidate hM, T.toFinset_ints, ← c.dev_eq_zero_iff]
  constructor
  · intro h
    exact (hzero _).1 (Except.ok.inj h)
  · intro h
    exact congrArg Except.ok ((hzero _).2 h)

end

/-! ## The pair returned -/

section
variable {α : Type} [CommRing α]

/-- The error of a candidate is `0` exactly when its set is a partial difference set. -/
def Detects (T : GroupTable d.n) (e : ErrorCalc α) : Prop :=
  ∀ (c : Candidate T.toTable) (err : α), error d T.ct (T.ints c.xs) e = .ok err →
    (err = 0 ↔ IsRegularPDS (T.toFinset (T.ints c.xs)) d.k d.lam d.mu)

/-- Exact errors always do. -/
theorem detects_int (T : GroupTable d.n) {e : ErrorCalc Int} (he : e ∈ calculators) : Detects T e := by
  intro c err h
  rw [← error_zero_iff c e he, h]
  constructor
  · intro h0
    rw [h0]
  · exact Except.ok.inj

/-- What a search promises: `S` is a set of `k` nonidentity elements, `err` is its error, and
the error vanishes exactly on the partial difference sets. -/
structure IsResult (T : GroupTable d.n) (e : ErrorCalc α) (S : List Int) (err : α) : Prop where
  length : S.length = d.k
  nodup : S.Nodup
  values : ∀ x ∈ S, 1 ≤ x ∧ x ≤ (d.n : Int) - 1
  error : error d T.ct S e = .ok err
  zero : err = 0 ↔ IsRegularPDS (T.toFinset S) d.k d.lam d.mu

theorem Candidate.isResult {T : GroupTable d.n} (c : Candidate T.toTable) {e : ErrorCalc α}
    (he : Detects T e) {err : α} (h : PdsSearch.error d T.ct (T.ints c.xs) e = .ok err) :
    IsResult T e (T.ints c.xs) err where
  length := by rw [T.length_ints, c.length_eq]
  nodup := (T.nodup_ints _).2 c.nodup
  values := by
    intro x hx
    have := c.ints_bounds x hx
    omega
  error := h
  zero := he c err h

end

/-- **Both searches return a set with its own error.**  Whenever the start set is found they
return `k` distinct nonidentity elements and the error of these, which is `0` exactly when they
are a regular partial difference set. -/
theorem search_finds_pds (T : GroupTable d.n) (hk : 1 ≤ d.k) (hkn : d.k ≤ d.n - 1)
    (e : ErrorCalc Int) (he : e ∈ calculators) (o : ArgOrder) (rs : Nat → Nat) (fuel pos : Nat)
    (r : List Int × List Bool × Nat)
    (hsel : selectStartSet fuel d rs pos (List.replicate d.k (-1)) (List.replicate d.n false) = .ok r) :
    (∃ out, Returns (fun fuel => search fuel o d T.ct rs pos e) out ∧ IsResult T e out.set out.err) ∧
    ∃ out, Returns (fun fuel => searchOld fuel o d T.ct rs pos e) out ∧
      IsResult T e out.set out.err := by
  have hn : 1 < d.n := by omega
  obtain ⟨norm, hM⟩ := exists_norm T.toTable (by omega) e he
  obtain ⟨S, isMember, pos'⟩ := r
  obtain ⟨c, rfl, rfl⟩ := selectStartSet_ok T.toTable rs (by omega) fuel pos _ _ _ hsel
  obtain ⟨start, hdraw⟩ := exists_start (d := d) o rs pos' hk hn
  have hret : ∀ v : Variant, ∃ out, Returns (fun fuel => Prod.fst <$> localSearch v fuel o d T.ct rs pos e)
      out ∧ IsResult T e out.set out.err := by
    intro v
    obtain ⟨tr, c', es, -, -, hret⟩ :=
      localSearch_complete v o rs hM hk hn hsel fun r => (hdraw r).1
    exact ⟨_, hret.map Prod.fst, c'.isResult (detects_int T he) (error_candidate hM c')⟩
  exact ⟨hret .new, hret .old⟩

/-- Two elements of the cyclic group of order 5, from the start set `{1, 2}`. -/
theorem search_finds_pds_cyclic :
    (∃ out, Returns (fun fuel => search fuel .leftFirst ⟨5, 2, 0, 1⟩ (cyclicTable 5).ct id 0 l1Error)
      out ∧ IsResult (d := ⟨5, 2, 0, 1⟩) (cyclicTable 5) l1Error out.set out.err) ∧
    ∃ out, Returns (fun fuel => searchOld fuel .leftFirst ⟨5, 2, 0, 1⟩ (cyclicTable 5).ct id 0 l1Error)
      out ∧ IsResult (d := ⟨5, 2, 0, 1⟩) (cyclicTable 5) l1Error out.set out.err :=
  search_finds_pds (d := ⟨5, 2, 0, 1⟩) (cyclicTable 5) (by decide) (by decide) l1Error
    (by simp [calculators]) .leftFirst id 5 0 ([1, 2], [false, true, true, false, false], 2) rfl

/-! ## Strongly regular graphs -/

/-- **A new strongly regular graph.**  The error of `k` distinct nonidentity elements is `0`
exactly when `y = x * s` is a simple graph on the group, strongly regular with the
parameters asked for. -/
theorem error_zero_iff_srg (T : GroupTable d.n) (S : List Int) (hlen : S.length = d.k)
    (hnd : S.Nodup) (hS : ∀ x ∈ S, 1 ≤ x ∧ x < d.n) (hlam : 0 ≤ d.lam) (hmu : 0 ≤ d.mu)
    (e : ErrorCalc Int) (he : e ∈ calculators) :
    error d T.ct S e = .ok 0 ↔ ∃ (Γ : SimpleGraph T.Elem) (_ : DecidableRel Γ.Adj),
      IsCayley Γ (T.toFinset S) ∧ Γ.IsSRGWith d.n d.k d.lam.toNat d.mu.toNat := by
  obtain ⟨c, rfl⟩ := Candidate.exists_of_list T.toTable S hlen hnd hS
  have hcard : Fintype.card T.Elem = d.n := Fintype.card_fin d.n
  have h := isRegularPDS_iff_srg (k := d.k) d.lam.toNat d.mu.toNat c.card c.one_notMem
  rw [Int.toNat_of_nonneg hlam, Int.toNat_of_nonneg hmu, hcard] at h
  rw [error_zero_iff c e he, T.toFinset_ints, h]

/-- The pentagon. -/
theorem error_zero_iff_srg_pentagon :
    ∃ (Γ : SimpleGraph (cyclicTable 5).Elem) (_ : DecidableRel Γ.Adj),
      IsCayley Γ ((cyclicTable 5).toFinset [1, 4]) ∧ Γ.IsSRGWith 5 2 0 1 :=
  (error_zero_iff_srg (d := ⟨5, 2, 0, 1⟩) (cyclicTable 5) [1, 4] (by decide) (by decide) (by decide)
    (by decide) (by decide) l1Error (by simp [calculators])).1 rfl

/-! ## Complements -/

/-- The parameters of the complement. -/
@[reducible] def Dims.compl (d : Dims) : Dims where
  n := d.n
  k := d.n - 1 - d.k
  lam := d.n - 2 - 2 * d.k + d.mu
  mu := d.n - 2 * d.k + d.lam

/-- The identity, a set and its complement are all elements. -/
theorem perm_compl {T : GroupTable d.n} (c : Candidate T.toTable)
    (c' : Candidate (d := d.compl) T.toTable) (h : ∀ x, x ∈ c'.xs ↔ x ≠ 1 ∧ x ∉ c.xs)
    {all : List T.Elem} (hnd : all.Nodup) (hall : ∀ x, x ∈ all) :
    ((1 :: c.xs) ++ c'.xs).Perm all := by
  have hone : 1 ∉ c.xs := fun h1 => c.nonId 1 h1 T.idx_one
  rw [List.perm_ext_iff_of_nodup _ hnd]
  · intro y
    rw [List.mem_append, List.mem_cons, h]
    have := hall y
    tauto
  · rw [List.nodup_append']
    refine ⟨List.nodup_cons.2 ⟨hone, c.nodup⟩, c'.nodup, ?_⟩
    intro y hy hy'
    obtain ⟨hy1, hyc⟩ := (h y).1 hy'
    rcases List.mem_cons.1 hy with rfl | hy
    · exact hy1 rfl
    · exact hyc hy

/-- **The deviations of the complement** are those of the set. -/
theorem dev_compl {α : Type} [CommRing α] [LinearOrder α] {T : GroupTable d.n}
    (c : Candidate T.toTable) (c' : Candidate (d := d.compl) T.toTable)
    (h : ∀ x, x ∈ c'.xs ↔ x ≠ 1 ∧ x ∉ c.xs) (x : T.Elem) :
    dev (d := d.compl) T.toTable c'.member (fun x => (c'.square α).coeff x) x =
      dev T.toTable c.member (fun x => (c.square α).coeff x) x := by
  let all : List T.Elem := (List.finRange d.n : List (Fin d.n))
  have hnd : all.Nodup := List.nodup_finRange d.n
  have hall : ∀ x, x ∈ all := List.mem_finRange
  have hone : 1 ∉ c.xs := fun h1 => c.nonId 1 h1 T.idx_one
  have hperm : ((1 :: c.xs) ++ c'.xs).Perm all := perm_compl c c' h hnd hall
  have hn : all.length = d.n := List.length_finRange
  have hk : (d.compl.k : Int) = d.n - 1 - d.k := by
    have hlen := hperm.length_eq
    rw [List.length_append, List.length_cons, c.length_eq, c'.length_eq, hn] at hlen
    omega
  have hsq := coeff_complement_sq (R := α) hnd hall hperm x
  rw [hn, c.length_eq] at hsq
  unfold dev Candidate.square Candidate.member
  simp only [hsq, decide_eq_true_eq, h]
  by_cases hx1 : T.idx x = 0
  · -- the identity: `k' - (k' + p - k)`
    have hx : x = 1 := by
      by_contra hne
      exact (T.idx_ne_zero x).2 hne hx1
    rw [if_pos hx1, if_pos hx1, if_pos hx, if_neg (hx ▸ hone), hk]
    push_cast
    ring
  · have hx : x ≠ 1 := (T.idx_ne_zero x).1 hx1
    rw [if_neg hx1, if_neg hx1, if_neg hx]
    by_cases hxc : x ∈ c.xs
    · -- an element of the set is outside of the complement
      rw [if_neg (fun hx' => hx'.2 hxc), if_pos hxc, if_pos hxc]
      push_cast
      ring
    · rw [if_pos ⟨hx, hxc⟩, if_neg hxc, if_neg hxc]
      push_cast
      ring

/-- The sizes of a set of nonidentity elements and of its complement. -/
theorem length_compl {n : Nat} (hn : 0 < n) {S S' : List Int} (hnd : S.Nodup)
    (hS : ∀ x ∈ S, 1 ≤ x ∧ x < n) (hnd' : S'.Nodup)
    (hS' : ∀ x, x ∈ S' ↔ (1 ≤ x ∧ x < n) ∧ x ∉ S) : S'.length = n - 1 - S.length := by
  have hall : (S ++ S').toFinset = Finset.Ico (1 : Int) n := by
    ext x
    rw [List.mem_toFinset, List.mem_append, hS', Finset.mem_Ico]
    have := hS x
    tauto
  have happ : (S ++ S').Nodup := by
    rw [List.nodup_append']
    exact ⟨hnd, hnd', fun x hx hx' => ((hS' x).1 hx').2 hx⟩
  have hcard := List.toFinset_card_of_nodup happ
  rw [hall, Int.card_Ico, List.length_append] at hcard
  omega

/-- **The complement law.**  The nonidentity elements outside of a set have, for the complementary
parameters, exactly the error of the set; so they are a partial difference set when it is. -/
theorem error_compl (T : GroupTable d.n) (S S' : List Int) (hlen : S.length = d.k) (hnd : S.Nodup)
    (hS : ∀ x ∈ S, 1 ≤ x ∧ x < d.n) (hnd' : S'.Nodup)
    (hS' : ∀ x, x ∈ S' ↔ (1 ≤ x ∧ x < d.n) ∧ x ∉ S) (e : ErrorCalc Int) (he : e ∈ calculators) :
    error d.compl T.ct S' e = error d T.ct S e ∧
    (IsRegularPDS (T.toFinset S) d.k d.lam d.mu ↔
      IsRegularPDS (T.toFinset S') d.compl.k d.compl.lam d.compl.mu) := by
  have hlen' : S'.length = d.compl.k := by rw [length_compl T.pos hnd hS hnd' hS', hlen]
  obtain ⟨c, rfl⟩ := Candidate.exists_of_list T.toTable S hlen hnd hS
  obtain ⟨c', rfl⟩ := Candidate.exists_of_list (d := d.compl) T.toTable S' hlen' hnd'
    fun x hx => ((hS' x).1 hx).1
  have hmem : ∀ x, x ∈ c'.xs ↔ x ≠ 1 ∧ x ∉ c.xs := by
    intro x
    have hb := T.idx_bounds x
    have h := hS' (T.idx x)
    rw [T.idx_mem_ints, T.idx_mem_ints] at h
    rw [h, ← T.idx_ne_zero]
    constructor
    · rintro ⟨hx, hxc⟩
      exact ⟨by omega, hxc⟩
    · rintro ⟨hx, hxc⟩
      exact ⟨⟨by omega, hb.2⟩, hxc⟩
  have herr : error d.compl T.ct (T.ints c'.xs) e = error d T.ct (T.ints c.xs) e := by
    obtain ⟨op, weight, hop, rfl⟩ := calculators_with e he
    rw [error_candidate (measures_with (d := d.compl) T.toTable op weight hop T.pos) c',
      error_candidate (measures_with T.toTable op weight hop T.pos) c]
    unfold Candidate.err
    rw [funext (dev_compl c c' hmem)]
    rfl
  refine ⟨herr, ?_⟩
  rw [← error_zero_iff c e he, ← error_zero_iff (d := d.compl) (T := T) c' e he, herr]

/-- The square and its two diagonals. -/
theorem error_compl_square :
    error ⟨4, 2, 0, 2⟩ (cyclicTable 4).ct [1, 3] (l2Error : ErrorCalc Int) =
      error ⟨4, 1, 0, 0⟩ (cyclicTable 4).ct [2] l2Error ∧
    (IsRegularPDS ((cyclicTable 4).toFinset [2]) 1 0 0 ↔
      IsRegularPDS ((cyclicTable 4).toFinset [1, 3]) 2 0 2) :=
  error_compl (d := ⟨4, 1, 0, 0⟩) (cyclicTable 4) [2] [1, 3] (by decide) (by decide) (by decide)
    (by decide) (by intro x; simp; omega) l2Error (by simp [calculators])

end PdsSearch
