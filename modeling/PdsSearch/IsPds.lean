import PdsSearch.CheckPDS

/-!
# What `is_pds` accepts

`is_pds` counts products, which rejects every wrong list of distinct nonidentity
elements.  It never asks whether the identity is in the list, nor whether a value
is repeated.  So it passes two kinds of wrong lists:

    the identity together with a regular (n, k - 1, λ - 2, μ) set        (WithIdentity)
    some lists that repeat a value and are not closed under inverses      (OpenRepeats)

A list of the first kind always passes; of the second only some do, such as
`[0, 0, 3, 5, 6]` in order 7.  Every other list gets the right answer, so all
those without repeats or closed under inverses do, the first kind apart (isPds_iff).
-/

namespace PdsSearch

open Checked GroupRing PartialDifferenceSet
open MonoidAlgebra (single)

variable {n : Nat}

/-- `S` lists `k` distinct nonidentity elements, a regular partial difference set. -/
def IsPDSList (T : GroupTable n) (k lam mu : Int) (S : List Int) : Prop :=
  S.Nodup ∧ (S.length : Int) = k ∧ IsRegularPDS (T.toFinset S) S.length lam mu

/-- `S` lists `k` distinct elements, the identity among them; the others are a regular
`(n, k - 1, lam - 2, mu)` set. -/
def WithIdentity (T : GroupTable n) (k lam mu : Int) (S : List Int) : Prop :=
  S.Nodup ∧ (S.length : Int) = k ∧ 0 ∈ S ∧
    IsRegularPDS ((T.toFinset S).erase 1) (S.length - 1) (lam - 2) mu

/-- `S` has `k` distinct values.  One of them is repeated and has its inverse in the list, another has its
inverse not in it; and there are as many pairs of positions as the targets add up to. -/
structure OpenRepeats (T : GroupTable n) (k lam mu : Int) (S : List Int) : Prop where
  values : (S.dedup.length : Int) = k
  twice : ∃ x : T.Elem, T.idx x ∈ S ∧ T.idx x⁻¹ ∈ S ∧ 2 ≤ S.count (T.idx x)
  missing : ∃ x : T.Elem, T.idx x ∈ S ∧ T.idx x⁻¹ ∉ S
  pairs : (S.length : Int) * S.length = k + lam * ((T.toFinset S).erase 1).card +
    mu * (n - 1 - ((T.toFinset S).erase 1).card)

variable {T : GroupTable n}

/-! ## Lists of distinct elements -/

/-- The counts of a duplicate-free list of nonidentity elements. -/
theorem products_iff {xs : List T.Elem} (hnd : xs.Nodup) (h1 : 1 ∉ xs) (lam mu : Int) :
    IsRegularPDS xs.toFinset xs.length lam mu ↔
      (formal Int xs * formal Int xs).coeff 1 = xs.length ∧
      ∀ x, x ≠ 1 → (formal Int xs * formal Int xs).coeff x = if x ∈ xs then lam else mu := by
  have hcard : xs.toFinset.card = xs.length := List.toFinset_card_of_nodup hnd
  rw [isRegularPDS_iff_products lam mu hcard fun h => h1 (List.mem_toFinset.1 h)]
  have hcoeff : ∀ x, (formal Int xs * formal Int xs).coeff x = (products xs.toFinset x : Int) :=
    coeff_formal_mul_of_nodup hnd
  simp only [hcoeff]
  constructor
  · rintro ⟨hone, hlam, hmu⟩
    refine ⟨hone, fun x hx => ?_⟩
    by_cases hxs : x ∈ xs
    · rw [if_pos hxs, hlam x (List.mem_toFinset.2 hxs)]
    · rw [if_neg hxs, hmu x hx fun h => hxs (List.mem_toFinset.1 h)]
  · rintro ⟨hone, hrest⟩
    refine ⟨hone, fun x hx => ?_, fun x hx hxs => ?_⟩
    · have hxs := List.mem_toFinset.1 hx
      rw [hrest x fun h => h1 (h ▸ hxs), if_pos hxs]
    · rw [hrest x hx, if_neg fun h => hxs (List.mem_toFinset.2 h)]

/-- Adding the identity to a list: `(1 + D)² = 1 + 2 D + D²`. -/
theorem coeff_cons_one (ys : List T.Elem) (x : T.Elem) :
    (formal Int (1 :: ys) * formal Int (1 :: ys)).coeff x =
      (if x = 1 then 1 else 0) + 2 * ys.count x + (formal Int ys * formal Int ys).coeff x := by
  have hone : (single (1 : T.Elem) (1 : Int)) = 1 := rfl
  have hsq : formal Int (1 :: ys) * formal Int (1 :: ys) =
      1 + (formal Int ys + formal Int ys) + formal Int ys * formal Int ys := by
    rw [formal_cons, hone]
    noncomm_ring
  have hcoeff : (1 : MonoidAlgebra Int T.Elem).coeff x = if x = 1 then 1 else 0 := by
    rw [← hone, MonoidAlgebra.coeff_single, Finsupp.single_apply]
    simp only [eq_comm]
  rw [hsq, MonoidAlgebra.coeff_add, MonoidAlgebra.coeff_add, MonoidAlgebra.coeff_add, Finsupp.add_apply,
    Finsupp.add_apply, Finsupp.add_apply, hcoeff, coeff_formal]
  ring

/-! ## The three kinds of lists -/

/-- The counts `is_pds` asks for. -/
def HitsTargets (k lam mu : Int) (xs : List T.Elem) : Prop :=
  (formal Int xs * formal Int xs).coeff 1 = k ∧
    ∀ x, x ≠ 1 → (formal Int xs * formal Int xs).coeff x = if x ∈ xs then lam else mu

theorem accepts_iff (k lam mu : Int) (xs : List T.Elem) :
    isPds n k lam mu T.ct (T.ints xs) = .ok true ↔
      (xs.dedup.length : Int) = k ∧ HitsTargets k lam mu xs := by
  obtain ⟨b, hb, hiff⟩ := isPds_spec T.toTable T.pos k lam mu xs
  have hone : T.zero T.pos = (1 : T.Elem) := rfl
  simp only [T.mem_nonId, T.idx_ne_zero, hone] at hiff
  rw [hb]
  constructor
  · intro h
    exact hiff.1 (Except.ok.inj h)
  · intro h
    rw [hiff.2 h]

/-- Distinct nonidentity elements pass when they are a partial difference set. -/
theorem accepts_distinct {k lam mu : Int} {xs : List T.Elem} (hnd : xs.Nodup) (h1 : 1 ∉ xs) :
    isPds n k lam mu T.ct (T.ints xs) = .ok true ↔ IsPDSList T k lam mu (T.ints xs) := by
  rw [accepts_iff, hnd.dedup]
  unfold IsPDSList HitsTargets
  rw [T.nodup_ints, T.length_ints, T.toFinset_ints, products_iff hnd h1]
  constructor
  · rintro ⟨hlen, hone, hrest⟩
    exact ⟨hnd, hlen, hone.trans hlen.symm, hrest⟩
  · rintro ⟨-, hlen, hone, hrest⟩
    exact ⟨hlen, hone.trans hlen, hrest⟩

/-- Each of the other elements is counted twice more with the identity in the list. -/
theorem target_erase {lam mu c : Int} {xs : List T.Elem} (hnd : xs.Nodup) {x : T.Elem} (hx : x ≠ 1) :
    (2 * ((xs.erase 1).count x : Int) + c = if x ∈ xs then lam else mu) ↔
      c = if x ∈ xs.erase 1 then lam - 2 else mu := by
  by_cases hxs : x ∈ xs
  · have hmem : x ∈ xs.erase 1 := hnd.mem_erase_iff.2 ⟨hx, hxs⟩
    rw [List.count_eq_one_of_mem (hnd.erase 1) hmem, if_pos hxs, if_pos hmem]
    omega
  · have hmem : x ∉ xs.erase 1 := fun h => hxs (List.mem_of_mem_erase h)
    rw [List.count_eq_zero_of_not_mem hmem, if_neg hxs, if_neg hmem]
    omega

/-- The identity and others pass when the others are a smaller partial difference set. -/
theorem accepts_identity {k lam mu : Int} {xs : List T.Elem} (hnd : xs.Nodup) (h1 : 1 ∈ xs) :
    isPds n k lam mu T.ct (T.ints xs) = .ok true ↔ WithIdentity T k lam mu (T.ints xs) := by
  have hperm : xs.Perm (1 :: xs.erase 1) := List.perm_cons_erase h1
  have hys : (xs.erase 1).Nodup := hnd.erase 1
  have h1' : 1 ∉ xs.erase 1 := (List.nodup_cons.1 (hperm.nodup_iff.1 hnd)).1
  have hlen : xs.length = (xs.erase 1).length + 1 := by rw [hperm.length_eq, List.length_cons]
  have hset : (T.toFinset (T.ints xs)).erase 1 = (xs.erase 1).toFinset := by
    ext x
    rw [T.toFinset_ints, Finset.mem_erase, List.mem_toFinset, List.mem_toFinset, hnd.mem_erase_iff]
  have hzero : (0 : Int) ∈ T.ints xs := (T.idx_mem_ints 1 xs).2 h1
  have hlen' : (T.ints xs).length - 1 = (xs.erase 1).length := by rw [T.length_ints]; omega
  rw [accepts_iff, hnd.dedup]
  unfold WithIdentity HitsTargets
  rw [T.nodup_ints, T.length_ints, hset, ← T.length_ints, hlen', T.length_ints, products_iff hys h1',
    formal_perm hperm]
  simp only [coeff_cons_one]
  have hat1 : (xs.erase 1).count 1 = 0 := List.count_eq_zero_of_not_mem h1'
  constructor
  · rintro ⟨hk, hone, hrest⟩
    refine ⟨hnd, hk, hzero, ?_, fun x hx => ?_⟩
    · rw [if_pos trivial, hat1] at hone
      omega
    · have h := hrest x hx
      rw [if_neg hx, zero_add] at h
      exact (target_erase hnd hx).1 h
  · rintro ⟨-, hk, -, hone, hrest⟩
    refine ⟨hk, ?_, fun x hx => ?_⟩
    · rw [if_pos trivial, hat1]
      omega
    · rw [if_neg hx, zero_add]
      exact (target_erase hnd hx).2 (hrest x hx)

/-! ## Lists with a repeated value -/

section
variable {k lam mu : Int} {xs : List T.Elem} (hk : (xs.dedup.length : Int) = k) (hit : HitsTargets k lam mu xs)

include hit

/-- All counts together are the pairs of positions. -/
theorem HitsTargets.pairs : (xs.length : Int) * xs.length = k + lam * (xs.toFinset.erase 1).card +
    mu * (n - 1 - (xs.toFinset.erase 1).card) := by
  have hcard : (Finset.univ.erase (1 : T.Elem)).card = n - 1 := by
    rw [Finset.card_erase_of_mem (Finset.mem_univ _)]
    exact congrArg (· - 1) (Fintype.card_fin n)
  have hfilter : (Finset.univ.erase (1 : T.Elem)).filter (fun x => x ∈ xs) = xs.toFinset.erase 1 := by
    ext x
    simp only [Finset.mem_filter, Finset.mem_erase, Finset.mem_univ, and_true, List.mem_toFinset]
  have hsplit := Finset.card_filter_add_card_filter_not (s := Finset.univ.erase (1 : T.Elem)) (fun x => x ∈ xs)
  rw [hfilter, hcard] at hsplit
  have hn := T.pos
  have hrest : ∑ x ∈ Finset.univ.erase (1 : T.Elem), (formal Int xs * formal Int xs).coeff x =
      ∑ x ∈ Finset.univ.erase (1 : T.Elem), if x ∈ xs then lam else mu :=
    Finset.sum_congr rfl fun x hx => hit.2 x (Finset.ne_of_mem_erase hx)
  rw [← sum_coeff_formal_mul, ← Finset.add_sum_erase _ _ (Finset.mem_univ (1 : T.Elem)), hit.1, hrest,
    Finset.sum_ite, Finset.sum_const, Finset.sum_const, hfilter, nsmul_eq_mul, nsmul_eq_mul, mul_comm lam,
    mul_comm mu, add_assoc]
  congr 3
  omega

include hk

/-- As many products are the identity as there are values. -/
theorem HitsTargets.sum_inverses :
    ∑ x ∈ xs.toFinset, xs.count x * xs.count x⁻¹ = xs.toFinset.card := by
  have h := hit.1
  rw [coeff_formal_mul_one, ← hk, ← List.card_toFinset] at h
  exact_mod_cast h

/-- A list closed under inverses that passes has no repeats: every value takes part in a product that
is the identity, and a repeated one in two. -/
theorem HitsTargets.nodup (hinv : ∀ x ∈ xs, x⁻¹ ∈ xs) : xs.Nodup := by
  have hpos : ∀ x ∈ xs.toFinset, 1 ≤ xs.count x * xs.count x⁻¹ := by
    intro x hx
    have hx := List.mem_toFinset.1 hx
    exact Nat.mul_pos (List.count_pos_iff.2 hx) (List.count_pos_iff.2 (hinv x hx))
  have hsum : ∑ x ∈ xs.toFinset, 1 = ∑ x ∈ xs.toFinset, xs.count x * xs.count x⁻¹ := by
    rw [hit.sum_inverses hk, Finset.sum_const, nsmul_eq_mul, mul_one, Nat.cast_id]
  have hone := (Finset.sum_eq_sum_iff_of_le hpos).1 hsum
  rw [List.nodup_iff_count_eq_one]
  intro x hx
  exact Nat.eq_one_of_mul_eq_one_right (hone x (List.mem_toFinset.2 hx)).symm

/-- A value without its inverse takes part in none, so that a repeated one makes up for it. -/
theorem HitsTargets.openRepeats (hnd : ¬ xs.Nodup) :
    (∃ x ∈ xs, x⁻¹ ∈ xs ∧ 2 ≤ xs.count x) ∧ ∃ x ∈ xs, x⁻¹ ∉ xs := by
  have hmissing : ∃ x ∈ xs, x⁻¹ ∉ xs := by
    by_contra hno
    push Not at hno
    exact hnd (hit.nodup hk hno)
  refine ⟨?_, hmissing⟩
  by_contra hno
  push Not at hno
  have hle : ∀ x ∈ xs.toFinset, xs.count x * xs.count x⁻¹ ≤ 1 := by
    intro x hx
    by_cases hx' : x⁻¹ ∈ xs
    · have h1 := hno x (List.mem_toFinset.1 hx) hx'
      have h2 := hno x⁻¹ hx' (by rw [inv_inv]; exact List.mem_toFinset.1 hx)
      exact Nat.mul_le_mul (show xs.count x ≤ 1 by omega) (show xs.count x⁻¹ ≤ 1 by omega)
    · rw [List.count_eq_zero_of_not_mem hx']
      exact Nat.zero_le 1
  obtain ⟨x, hx, hx'⟩ := hmissing
  have hlt : xs.count x * xs.count x⁻¹ < 1 := by
    rw [List.count_eq_zero_of_not_mem hx']
    exact Nat.one_pos
  have hsum := Finset.sum_lt_sum hle ⟨x, List.mem_toFinset.2 hx, hlt⟩
  rw [hit.sum_inverses hk, Finset.sum_const, nsmul_eq_mul, mul_one, Nat.cast_id] at hsum
  exact lt_irrefl _ hsum

end

/-- A list with a repeated value passes only when it is of the second kind. -/
theorem accepts_repeats {k lam mu : Int} {xs : List T.Elem} (hnd : ¬ xs.Nodup)
    (h : isPds n k lam mu T.ct (T.ints xs) = .ok true) : OpenRepeats T k lam mu (T.ints xs) := by
  obtain ⟨hk, hit⟩ := (accepts_iff k lam mu xs).1 h
  have hcount : ∀ x : T.Elem, (T.ints xs).count (T.idx x) = xs.count x := fun x =>
    List.count_map_of_injective xs T.idx (fun a b hab => (T.idx_inj a b).1 hab) x
  obtain ⟨⟨x, hx, hxinv, htwice⟩, y, hy, hyinv⟩ := hit.openRepeats hk hnd
  refine ⟨by rw [T.length_dedup_ints, hk], ⟨x, ?_, ?_, ?_⟩, ⟨y, ?_, ?_⟩, ?_⟩
  · exact (T.idx_mem_ints x xs).2 hx
  · exact (T.idx_mem_ints _ xs).2 hxinv
  · rwa [hcount]
  · exact (T.idx_mem_ints y xs).2 hy
  · rwa [T.idx_mem_ints]
  · rw [T.length_ints, T.toFinset_ints]
    exact hit.pairs

/-! ## Top theorem -/

/-- **What `is_pds` tells apart.**  For every list of element indices it answers, and a list of `k`
distinct nonidentity elements that form a regular partial difference set always passes.  Its answer is
right for every list that is of neither kind; for lists without repeats, and for lists closed under
inverses, it is right exactly when they are not of the first kind. -/
theorem isPds_iff (T : GroupTable n) (k lam mu : Int) (S : List Int)
    (hS : ∀ x ∈ S, 0 ≤ x ∧ x < n) :
    (¬ (WithIdentity T k lam mu S ∨ OpenRepeats T k lam mu S) →
      (isPds n k lam mu T.ct S = .ok true ↔ IsPDSList T k lam mu S)) ∧
    ((S.Nodup ∨ ∀ x : T.Elem, T.idx x ∈ S → T.idx x⁻¹ ∈ S) →
      ((isPds n k lam mu T.ct S = .ok true ↔ IsPDSList T k lam mu S) ↔ ¬ WithIdentity T k lam mu S)) ∧
    (∃ b, isPds n k lam mu T.ct S = .ok b) ∧
    (IsPDSList T k lam mu S → isPds n k lam mu T.ct S = .ok true) := by
  obtain ⟨xs, rfl⟩ := T.exists_ints S hS
  obtain ⟨b, hb, -⟩ := isPds_spec T.toTable T.pos k lam mu xs
  have hone : IsPDSList T k lam mu (T.ints xs) → 1 ∉ xs := by
    rintro ⟨-, -, hpds⟩ h1
    apply hpds.one_notMem
    rw [T.toFinset_ints]
    exact List.mem_toFinset.2 h1
  by_cases hnd : xs.Nodup
  · by_cases h1 : 1 ∈ xs
    · -- the identity is listed
      have hacc : _ ↔ WithIdentity T k lam mu (T.ints xs) := accepts_identity hnd h1
      have hno : ¬ IsPDSList T k lam mu (T.ints xs) := fun h => hone h h1
      rw [hacc]
      exact ⟨fun h => by tauto, fun _ => by tauto, ⟨b, hb⟩, fun h => absurd h hno⟩
    · have hacc : _ ↔ IsPDSList T k lam mu (T.ints xs) := accepts_distinct hnd h1
      have hid : ¬ WithIdentity T k lam mu (T.ints xs) := by
        rintro ⟨-, -, h0, -⟩
        exact h1 ((T.idx_mem_ints 1 xs).1 h0)
      rw [hacc]
      exact ⟨fun _ => Iff.rfl, fun _ => by tauto, ⟨b, hb⟩, id⟩
  · -- a value is repeated
    have hno : ¬ IsPDSList T k lam mu (T.ints xs) := fun h => hnd ((T.nodup_ints xs).1 h.1)
    have hid : ¬ WithIdentity T k lam mu (T.ints xs) := fun h => hnd ((T.nodup_ints xs).1 h.1)
    refine ⟨fun hkinds => ⟨fun h => ?_, fun h => absurd h hno⟩, fun hclosed => ?_, ⟨b, hb⟩, fun h => absurd h hno⟩
    · exact absurd (.inr (accepts_repeats hnd h)) hkinds
    · refine ⟨fun _ => hid, fun _ => ⟨fun h => ?_, fun h => absurd h hno⟩⟩
      obtain ⟨y, hy, hyinv⟩ := (accepts_repeats hnd h).missing
      rcases hclosed with hnd' | hclosed
      · exact absurd ((T.nodup_ints xs).1 hnd') hnd
      · exact absurd (hclosed y hy) hyinv

/-- The pentagon passes, and rightly so. -/
theorem isPds_iff_pentagon : IsPDSList (cyclicTable 5) 2 0 1 [1, 4] := by
  refine ((isPds_iff (cyclicTable 5) 2 0 1 [1, 4] (by decide)).1 ?_).1 rfl
  rintro (⟨-, -, h0, -⟩ | h)
  · exact absurd h0 (by decide)
  · obtain ⟨x, hx, -, htwice⟩ := h.twice
    have hle : ([1, 4] : List Int).count ((cyclicTable 5).idx x) ≤ 1 :=
      List.nodup_iff_count_le_one.1 (by decide) _
    omega

/-- **Two wrong lists that pass**: the pentagon with the identity, and a list that names the
identity twice and is not closed under inverses. -/
theorem isPds_overlooks :
    isPds 5 3 2 1 (cyclicTable 5).ct [0, 1, 4] = .ok true ∧
    ¬ IsPDSList (cyclicTable 5) 3 2 1 [0, 1, 4] ∧
    isPds 7 4 5 2 (cyclicTable 7).ct [0, 0, 3, 5, 6] = .ok true ∧
    ¬ IsPDSList (cyclicTable 7) 4 5 2 [0, 0, 3, 5, 6] := by
  refine ⟨rfl, ?_, rfl, ?_⟩
  · rintro ⟨-, -, hpds⟩
    apply hpds.one_notMem
    rw [Table.mem_toFinset]
    exact List.mem_cons_self
  · rintro ⟨hnd, -⟩
    exact absurd hnd (by decide)

end PdsSearch
