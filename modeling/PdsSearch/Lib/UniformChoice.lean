import Mathlib.Data.Fintype.CardEmbedding
import Mathlib.Logic.Equiv.Fintype
import PdsSearch.Lib.FirstOccurrence

/-!
# Two fair ways to choose

Out of a finite type one can choose some elements by drawing and dropping repeats, or by
taking the first ones of a permutation.  Neither prefers a list of distinct elements to
another of the same length:

    as many runs of m draws choose xs as choose ys                      (card_chooses)
    of the runs that choose k elements, those that choose a set with P are as many
      as the sets with P are of all sets of k elements                  (card_choosesSet_mul)
    each list is the start of (N - k)! permutations of N elements       (card_startsWith)

Both rest on a renaming that takes the one list to the other.
-/

namespace Checked

variable {α β : Type} [DecidableEq α] [DecidableEq β]

/-- The draws `v`, and `a` for ever after. -/
def extend {m : Nat} (v : Fin m → α) (a : α) : Nat → α := fun j => if h : j < m then v ⟨j, h⟩ else a

/-- The first distinct values of `v` are `xs`, and they come within `m` draws. -/
def Chooses (v : Nat → α) (m : Nat) (xs : List α) : Prop := ∃ j ≤ m, KthNew v xs.length j ∧ firstValues v j = xs

/-- They are the elements of `A`. -/
def ChoosesSet (v : Nat → α) (m : Nat) (A : Finset α) : Prop := ∃ xs, Chooses v m xs ∧ xs.toFinset = A

/-- The permutation lists `xs` first. -/
def StartsWith {N : Nat} (σ : Equiv.Perm (Fin N)) (xs : List (Fin N)) : Prop :=
  ((List.finRange N).map σ).take xs.length = xs

/-! ## Draws -/

theorem chooses_congr {v w : Nat → α} {m : Nat} (h : ∀ j < m, v j = w j) (xs : List α) :
    Chooses v m xs ↔ Chooses w m xs := by
  have hle : ∀ {j}, j ≤ m → ∀ i < j, v i = w i := fun hj i hi => h i (by omega)
  constructor
  · rintro ⟨j, hj, hk, hxs⟩
    exact ⟨j, hj, kthNew_congr (hle hj) hk, by rw [← firstValues_congr (hle hj), hxs]⟩
  · rintro ⟨j, hj, hk, hxs⟩
    exact ⟨j, hj, kthNew_congr (fun i hi => (hle hj i hi).symm) hk, by rw [firstValues_congr (hle hj), hxs]⟩

theorem chooses_comp {f : α → β} (hf : Function.Injective f) (v : Nat → α) (m : Nat) (xs : List α) :
    Chooses (fun j => f (v j)) m (xs.map f) ↔ Chooses v m xs := by
  unfold Chooses
  simp only [List.length_map, kthNew_comp v hf, firstValues_comp v hf, (List.map_injective_iff.2 hf).eq_iff]

omit [DecidableEq α] in
/-- A renaming that takes one list to the other. -/
theorem exists_perm_map [Finite α] {xs ys : List α} (hx : xs.Nodup) (hy : ys.Nodup)
    (hlen : xs.length = ys.length) : ∃ π : Equiv.Perm α, xs.map π = ys := by
  let f : Fin xs.length → α := xs.get
  let g : Fin xs.length → α := fun i => ys.get (i.cast hlen)
  have hf : Function.Injective f := List.nodup_iff_injective_get.1 hx
  have hg : Function.Injective g := fun i j h => by
    simpa using List.nodup_iff_injective_get.1 hy h
  obtain ⟨π, hπ⟩ := Equiv.Perm.exists_extending_pair f g hf hg
  refine ⟨π, List.ext_getElem (by rw [List.length_map, hlen]) fun i h₁ h₂ => ?_⟩
  rw [List.getElem_map]
  exact hπ ⟨i, by omega⟩

theorem Chooses.nodup {v : Nat → α} {m : Nat} {xs : List α} (h : Chooses v m xs) : xs.Nodup := by
  obtain ⟨j, -, -, rfl⟩ := h
  exact nodup_firstValues v j

theorem Chooses.unique {v : Nat → α} {m : Nat} {xs ys : List α} (hx : Chooses v m xs) (hy : Chooses v m ys)
    (hlen : xs.length = ys.length) : xs = ys := by
  obtain ⟨i, -, hi, hxs⟩ := hx
  obtain ⟨j, -, hj, hys⟩ := hy
  rw [hlen] at hi
  obtain rfl := hi.unique hj
  exact hxs.symm.trans hys

theorem ChoosesSet.unique {v : Nat → α} {m : Nat} {A B : Finset α} (hA : ChoosesSet v m A) (hB : ChoosesSet v m B)
    (hcard : A.card = B.card) : A = B := by
  obtain ⟨xs, hx, rfl⟩ := hA
  obtain ⟨ys, hy, rfl⟩ := hB
  rw [List.toFinset_card_of_nodup hx.nodup, List.toFinset_card_of_nodup hy.nodup] at hcard
  rw [hx.unique hy hcard]

section
variable [Fintype α] (a : α) (m : Nat)

theorem card_choosesSet {A B : Finset α} (hcard : A.card = B.card) :
    Nat.card { v : Fin m → α // ChoosesSet (extend v a) m A } =
      Nat.card { v : Fin m → α // ChoosesSet (extend v a) m B } := by
  obtain ⟨π, hπ⟩ := exists_perm_map A.nodup_toList B.nodup_toList (by rwa [A.length_toList, B.length_toList])
  have hmap : ∀ xs : List α, (xs.map π).toFinset = xs.toFinset.image π := by
    intro xs
    ext x
    simp only [List.mem_toFinset, List.mem_map, Finset.mem_image]
  have himage : B = A.image π := by
    rw [← B.toList_toFinset, ← hπ, hmap, A.toList_toFinset]
  have hB : ∀ xs : List α, (xs.map π).toFinset = B ↔ xs.toFinset = A := by
    intro xs
    rw [himage, hmap, (Finset.image_injective π.injective).eq_iff]
  refine Nat.card_congr (Equiv.subtypeEquiv (Equiv.arrowCongr (Equiv.refl (Fin m)) π) fun v => ?_)
  have hdraws : ∀ j < m, extend (Equiv.arrowCongr (Equiv.refl (Fin m)) π v) a j = π (extend v a j) := by
    intro j hj
    unfold extend
    rw [dif_pos hj, dif_pos hj]
    rfl
  unfold ChoosesSet
  simp only [chooses_congr hdraws]
  constructor
  · rintro ⟨xs, hxs, hA⟩
    exact ⟨xs.map π, (chooses_comp π.injective _ m xs).2 hxs, (hB xs).2 hA⟩
  · rintro ⟨ys, hys, hBy⟩
    obtain ⟨xs, rfl⟩ := List.map_surjective_iff.2 π.surjective ys
    exact ⟨xs, (chooses_comp π.injective _ m xs).1 hys, (hB xs).1 hBy⟩

/-- The runs that choose a set with `P`, by the set. -/
theorem card_choosesSet_sum (P : Finset α → Prop) (A₀ : Finset α) :
    Nat.card { v : Fin m → α // ∃ A, (A.card = A₀.card ∧ P A) ∧ ChoosesSet (extend v a) m A } =
      Nat.card { A : Finset α // A.card = A₀.card ∧ P A } *
        Nat.card { v : Fin m → α // ChoosesSet (extend v a) m A₀ } := by
  classical
  let f : (Σ A : { A : Finset α // A.card = A₀.card ∧ P A }, { v : Fin m → α // ChoosesSet (extend v a) m A }) →
      { v : Fin m → α // ∃ A, (A.card = A₀.card ∧ P A) ∧ ChoosesSet (extend v a) m A } :=
    fun p => ⟨p.2, p.1, p.1.2, p.2.2⟩
  have hf : Function.Bijective f := by
    constructor
    · rintro ⟨⟨A, hA⟩, v, hv⟩ ⟨⟨B, hB⟩, w, hw⟩ h
      obtain rfl : v = w := congrArg Subtype.val h
      obtain rfl := hv.unique hw (hA.1.trans hB.1.symm)
      rfl
    · rintro ⟨v, A, hA, hv⟩
      exact ⟨⟨⟨A, hA⟩, v, hv⟩, rfl⟩
  rw [← Nat.card_congr (Equiv.ofBijective f hf), Nat.card_sigma, Finset.sum_congr rfl fun A _ =>
    card_choosesSet a m A.2.1, Finset.sum_const, Finset.card_univ, smul_eq_mul,
    Nat.card_eq_fintype_card (α := { A : Finset α // A.card = A₀.card ∧ P A })]

/-- **What is drawn without repeats is a fair set.** -/
theorem card_choosesSet_mul (k : Nat) (P : Finset α → Prop) :
    Nat.card { v : Fin m → α // ∃ A, (A.card = k ∧ P A) ∧ ChoosesSet (extend v a) m A } *
        (Fintype.card α).choose k =
      Nat.card { A : Finset α // A.card = k ∧ P A } *
        Nat.card { v : Fin m → α // ∃ A, A.card = k ∧ ChoosesSet (extend v a) m A } := by
  classical
  by_cases hex : ∃ A₀ : Finset α, A₀.card = k
  · obtain ⟨A₀, rfl⟩ := hex
    have hall := card_choosesSet_sum a m (fun _ => True) A₀
    simp only [and_true] at hall
    rw [card_choosesSet_sum a m P A₀, hall, Nat.card_eq_fintype_card (α := { A : Finset α // A.card = A₀.card }),
      Fintype.card_finset_len, mul_assoc, mul_comm (Nat.card _) (Nat.choose _ _)]
  · have hlt : Fintype.card α < k := by
      by_contra hge
      obtain ⟨A₀, -, hA₀⟩ := Finset.exists_subset_card_eq (s := (Finset.univ : Finset α)) (n := k) (by
        rw [Finset.card_univ]
        omega)
      exact hex ⟨A₀, hA₀⟩
    have hnone : IsEmpty { A : Finset α // A.card = k ∧ P A } := ⟨fun A => hex ⟨A.1, A.2.1⟩⟩
    rw [Nat.choose_eq_zero_of_lt hlt, mul_zero, Nat.card_of_isEmpty, zero_mul]

end

/-! ## Permutations -/

/-- The same, position by position. -/
theorem startsWith_iff {N : Nat} (σ : Equiv.Perm (Fin N)) {xs : List (Fin N)} (hle : xs.length ≤ N) :
    StartsWith σ xs ↔ ∀ i : Fin xs.length, σ (i.castLE hle) = xs.get i := by
  unfold StartsWith
  constructor
  · intro h i
    have hget := congrArg (fun l => l[i.val]?) h
    have hN : i.val < (List.finRange N).length := by
      rw [List.length_finRange]
      omega
    rw [List.getElem?_take_of_lt i.isLt, List.getElem?_map, List.getElem?_eq_getElem hN, List.getElem_finRange,
      List.getElem?_eq_getElem i.isLt] at hget
    exact Option.some.inj hget
  · intro h
    apply List.ext_getElem
    · simp [hle]
    · intro i h₁ h₂
      rw [List.getElem_take, List.getElem_map, List.getElem_finRange]
      exact h ⟨i, h₂⟩

/-- **Every start has as many permutations.** -/
theorem card_startsWith {N : Nat} {xs : List (Fin N)} (hx : xs.Nodup) :
    Nat.card { σ : Equiv.Perm (Fin N) // StartsWith σ xs } = (N - xs.length).factorial := by
  classical
  have hle : xs.length ≤ N := by
    have := hx.length_le_card
    rwa [Fintype.card_fin] at this
  let e₀ : Fin xs.length ↪ Fin N := ⟨xs.get, List.nodup_iff_injective_get.1 hx⟩
  let start : Equiv.Perm (Fin N) → (Fin xs.length ↪ Fin N) := fun σ => (Fin.castLEEmb hle).trans σ.toEmbedding
  -- a renaming takes the permutations that start with `e` to those that start with `e₀`
  have hfiber : ∀ e, (Finset.univ.filter fun σ => start σ = e).card =
      (Finset.univ.filter fun σ => start σ = e₀).card := by
    intro e
    obtain ⟨π, hπ⟩ := Equiv.Perm.exists_extending_pair e e₀ e.injective e₀.injective
    have hiff : ∀ σ, start (σ.trans π) = e₀ ↔ start σ = e := by
      intro σ
      constructor
      · intro h
        ext i
        have hi : π (start σ i) = e₀ i := congrArg (fun f : Fin xs.length ↪ Fin N => f i) h
        rw [← hπ i] at hi
        rw [π.injective hi]
      · rintro rfl
        ext i
        exact congrArg Fin.val (hπ i)
    refine Finset.card_bij (fun σ _ => σ.trans π) ?_ ?_ ?_
    · intro σ hσ
      rw [Finset.mem_filter] at hσ ⊢
      exact ⟨Finset.mem_univ _, (hiff σ).2 hσ.2⟩
    · intro σ _ τ _ h
      exact Equiv.ext fun i => π.injective (congrArg (fun f : Equiv.Perm (Fin N) => f i) h)
    · intro τ hτ
      rw [Finset.mem_filter] at hτ
      refine ⟨τ.trans π.symm, ?_, by ext i; simp⟩
      rw [Finset.mem_filter]
      refine ⟨Finset.mem_univ _, (hiff _).1 ?_⟩
      rw [Equiv.trans_assoc, Equiv.symm_trans_self, Equiv.trans_refl]
      exact hτ.2
  have htotal : N.factorial = N.descFactorial xs.length * (Finset.univ.filter fun σ => start σ = e₀).card := by
    have h := Finset.card_eq_sum_card_fiberwise (f := start) (s := Finset.univ) (t := Finset.univ)
      fun _ _ => Finset.mem_univ _
    rw [Finset.sum_congr rfl fun e _ => hfiber e, Finset.sum_const, Finset.card_univ, Finset.card_univ,
      Fintype.card_perm, Fintype.card_embedding_eq, Fintype.card_fin, Fintype.card_fin, smul_eq_mul] at h
    exact h
  have hpos : 0 < N.descFactorial xs.length := Nat.pos_of_ne_zero fun h0 => by
    rw [Nat.descFactorial_eq_zero_iff_lt] at h0
    omega
  have hcard : Nat.card { σ : Equiv.Perm (Fin N) // StartsWith σ xs } =
      (Finset.univ.filter fun σ => start σ = e₀).card := by
    rw [Nat.card_eq_fintype_card, Fintype.card_subtype]
    congr 1
    apply Finset.filter_congr
    intro σ _
    rw [startsWith_iff σ hle]
    constructor
    · intro h
      ext i
      exact congrArg Fin.val (h i)
    · intro h i
      exact congrArg (fun f : Fin xs.length ↪ Fin N => f i) h
  rw [hcard]
  have hfact := Nat.factorial_mul_descFactorial hle
  rw [htotal, mul_comm] at hfact
  exact (Nat.eq_of_mul_eq_mul_left hpos hfact).symm

end Checked
