import Mathlib

/-!
# Lists as elements of the group ring

Over any magma `M` the list `xs` is the formal sum `formal xs = Σ x`, an element
of `MonoidAlgebra R M`.  Its square is the histogram of all products of two
positions, and replacing one entry of the list changes it by one term:

    (formal xs * formal xs).coeff z = #{(i, j) | xs[i] * xs[j] = z}   (coeff_formal_mul)
    formal (xs.set p b) = formal xs - xs[p] + b                        (formal_set)
    Σ z, (formal xs * formal xs).coeff z = length * length             (sum_coeff_formal_mul)
    (formal (xs.map f) * formal (xs.map f)).coeff (f z) = (formal xs * formal xs).coeff z
                                                                       (coeff_formal_map_mul)

`swapSq D a b` is `(D - a + b)² - D²` written out, the change of the histogram
when `a` is replaced by `b` (`swapSq_spec`).  None of this needs associativity.

In a finite group the sum `A` of all elements absorbs every list, and the square
of the complement of `D` follows from the square of `D` (`complement_sq`):

    (A - 1 - D)² = (n - 2 - 2k) A + 1 + 2 D + D²
-/

namespace GroupRing

open MonoidAlgebra (single)

variable {R M : Type} [CommRing R] [Mul M]

/-- The list as a formal sum. -/
noncomputable def formal (R : Type) [CommRing R] (xs : List M) : MonoidAlgebra R M :=
  (xs.map fun x => single x 1).sum

@[simp] theorem formal_nil : formal R ([] : List M) = 0 := rfl

@[simp] theorem formal_cons (x : M) (xs : List M) :
    formal R (x :: xs) = single x 1 + formal R xs := by
  simp [formal]

theorem formal_perm {xs ys : List M} (h : xs.Perm ys) : formal R xs = formal R ys :=
  (h.map _).sum_eq

/-- Replacing one entry. -/
theorem formal_set (xs : List M) (p : Nat) (hp : p < xs.length) (b : M) :
    formal R (xs.set p b) = formal R xs - single xs[p] 1 + single b 1 := by
  induction xs generalizing p with
  | nil => simp at hp
  | cons x xs ih =>
    cases p with
    | zero => simp [add_comm]
    | succ p =>
      simp only [List.set_cons_succ, formal_cons, List.getElem_cons_succ]
      rw [ih p (by simpa using hp)]
      abel

theorem formal_mul (xs : List M) (c : MonoidAlgebra R M) :
    formal R xs * c = (xs.map fun x => single x 1 * c).sum := by
  induction xs with
  | nil => simp
  | cons x xs ih => simp [add_mul, ih]

theorem mul_formal (xs : List M) (c : MonoidAlgebra R M) :
    c * formal R xs = (xs.map fun x => c * single x 1).sum := by
  induction xs with
  | nil => simp
  | cons x xs ih => simp [mul_add, ih]

theorem coeff_formal [DecidableEq M] (xs : List M) (z : M) :
    (formal R xs).coeff z = (xs.count z : R) := by
  induction xs with
  | nil => simp
  | cons x xs ih =>
    rw [formal_cons, MonoidAlgebra.coeff_add, Finsupp.add_apply, ih,
      MonoidAlgebra.coeff_single, Finsupp.single_apply, List.count_cons]
    by_cases h : x = z
    · simp [h, add_comm]
    · simp [h]

theorem formal_eq_sum (xs : List M) :
    formal R xs = ∑ i : Fin xs.length, single xs[i] (1 : R) := by
  unfold formal
  rw [← List.sum_ofFn]
  congr 1
  apply List.ext_getElem
  · simp
  · intro i h1 h2; simp

/-- **The square counts products.**  The number of ordered pairs of positions
whose product is `z`. -/
theorem coeff_formal_mul [DecidableEq M] (xs : List M) (z : M) :
    (formal R xs * formal R xs).coeff z =
      ((Finset.univ.filter fun ij : Fin xs.length × Fin xs.length =>
        xs[ij.1] * xs[ij.2] = z).card : R) := by
  rw [formal_eq_sum, Finset.sum_mul_sum, ← Finset.univ_product_univ, ← Finset.sum_product',
    MonoidAlgebra.coeff_sum, Finsupp.finsetSum_apply, Finset.card_filter, Nat.cast_sum]
  apply Finset.sum_congr rfl
  intro ij _
  rw [MonoidAlgebra.single_mul_single, MonoidAlgebra.coeff_single, Finsupp.single_apply]
  split <;> simp

/-- **Conservation.**  All products together are the pairs of positions. -/
theorem sum_coeff_formal_mul [DecidableEq M] [Fintype M] (xs : List M) :
    ∑ z : M, (formal R xs * formal R xs).coeff z = (xs.length : R) * xs.length := by
  have hcard := Finset.card_eq_sum_card_fiberwise (s := Finset.univ) (t := Finset.univ)
    (f := fun ij : Fin xs.length × Fin xs.length => xs[ij.1] * xs[ij.2]) fun _ _ => Finset.mem_univ _
  rw [Finset.card_univ, Fintype.card_prod, Fintype.card_fin] at hcard
  simp only [coeff_formal_mul]
  rw [← Nat.cast_sum, ← hcard, Nat.cast_mul]

/-- Without repetitions these are pairs of elements. -/
theorem coeff_formal_mul_of_nodup [DecidableEq M] {xs : List M} (hnd : xs.Nodup) (z : M) :
    (formal R xs * formal R xs).coeff z =
      (((xs.toFinset ×ˢ xs.toFinset).filter fun p => p.1 * p.2 = z).card : R) := by
  have hsum : formal R xs = ∑ x ∈ xs.toFinset, single x (1 : R) := (List.sum_toFinset _ hnd).symm
  rw [hsum, Finset.sum_mul_sum, ← Finset.sum_product', MonoidAlgebra.coeff_sum,
    Finsupp.finsetSum_apply, Finset.card_filter, Nat.cast_sum]
  apply Finset.sum_congr rfl
  intro p _
  rw [MonoidAlgebra.single_mul_single, MonoidAlgebra.coeff_single, Finsupp.single_apply]
  split <;> simp

theorem coeff_formal_mul_sum [DecidableEq M] (xs ys : List M) (z : M) :
    (formal R xs * formal R ys).coeff z =
      (xs.map fun x => (ys.map fun y => if x * y = z then (1 : R) else 0).sum).sum := by
  have hrow : ∀ x, (single x (1 : R) * formal R ys).coeff z =
      (ys.map fun y => if x * y = z then (1 : R) else 0).sum := by
    intro x
    induction ys with
    | nil => simp
    | cons y ys ih =>
      rw [formal_cons, mul_add, MonoidAlgebra.coeff_add, Finsupp.add_apply, ih,
        MonoidAlgebra.single_mul_single, MonoidAlgebra.coeff_single, Finsupp.single_apply,
        List.map_cons, List.sum_cons, mul_one]
  induction xs with
  | nil => simp
  | cons x xs ih =>
    rw [formal_cons, add_mul, MonoidAlgebra.coeff_add, Finsupp.add_apply, ih, hrow,
      List.map_cons, List.sum_cons]

/-- **Products of a renamed list.**  An isomorphism takes the square along; so does an
anti-isomorphism, which only swaps the two factors. -/
theorem coeff_formal_map_mul {N : Type} [Mul N] [DecidableEq M] [DecidableEq N] (f : M ≃ N)
    (hf : (∀ x y, f (x * y) = f x * f y) ∨ ∀ x y, f (x * y) = f y * f x) (xs : List M) (z : M) :
    (formal R (xs.map f) * formal R (xs.map f)).coeff (f z) =
      (formal R xs * formal R xs).coeff z := by
  simp only [coeff_formal_mul_sum, List.map_map, Function.comp_def]
  rcases hf with hf | hf
  · simp only [← hf, f.injective.eq_iff]
  · simp only [← hf, f.injective.eq_iff]
    have := Multiset.sum_map_sum_map (xs : Multiset M) (xs : Multiset M)
      (f := fun x y => if y * x = z then (1 : R) else 0)
    simpa using this

/-- `-Da - aD + Db + bD + a² + b² - ab - ba` -/
noncomputable def swapSq (D : MonoidAlgebra R M) (a b : M) : MonoidAlgebra R M :=
  -(D * single a 1) - single a 1 * D + D * single b 1 + single b 1 * D
    + single (a * a) 1 + single (b * b) 1 - single (a * b) 1 - single (b * a) 1

/-- `(D - a + b)² = D² + swapSq D a b` -/
theorem swapSq_spec (D : MonoidAlgebra R M) (a b : M) :
    (D - single a 1 + single b 1) * (D - single a 1 + single b 1) = D * D + swapSq D a b := by
  unfold swapSq
  simp only [mul_add, add_mul, mul_sub, sub_mul, MonoidAlgebra.single_mul_single, mul_one]
  abel

/-- The square of the changed list. -/
theorem formal_set_sq (xs : List M) (p : Nat) (hp : p < xs.length) (b : M) :
    formal R (xs.set p b) * formal R (xs.set p b) =
      formal R xs * formal R xs + swapSq (formal R xs) xs[p] b := by
  rw [formal_set xs p hp, swapSq_spec]

/-! ## Groups -/

/-- **Few ways to write a product.**  One factor determines the other. -/
theorem coeff_formal_mul_le {G : Type} [Group G] [DecidableEq G] {xs : List G} (hnd : xs.Nodup)
    (z : G) : 0 ≤ (formal Int xs * formal Int xs).coeff z ∧
      (formal Int xs * formal Int xs).coeff z ≤ xs.length := by
  rw [coeff_formal_mul_of_nodup hnd]
  refine ⟨Int.natCast_nonneg _, Int.ofNat_le.2 ?_⟩
  rw [← List.toFinset_card_of_nodup hnd]
  apply Finset.card_le_card_of_injOn Prod.fst
  · intro p hp
    rw [Finset.mem_coe, Finset.mem_filter, Finset.mem_product] at hp
    exact hp.1.1
  · intro p hp q hq h
    rw [Finset.mem_coe, Finset.mem_filter] at hp hq
    have hpq : p.1 * p.2 = p.1 * q.2 := by rw [hp.2, h, hq.2]
    exact Prod.ext h (mul_left_cancel hpq)

/-- The products that are the identity, by their first factor. -/
theorem coeff_formal_mul_one {G : Type} [Group G] [DecidableEq G] (xs : List G) :
    (formal R xs * formal R xs).coeff 1 = ∑ x ∈ xs.toFinset, (xs.count x * xs.count x⁻¹ : R) := by
  have hrow : ∀ (x : G) (ys : List G), (ys.map fun y => if x * y = 1 then (1 : R) else 0).sum = ys.count x⁻¹ := by
    intro x ys
    induction ys with
    | nil => simp
    | cons y ys ih =>
      rw [List.map_cons, List.sum_cons, ih, List.count_cons]
      by_cases h : y = x⁻¹
      · simp [h, add_comm]
      · have hne : ¬ x * y = 1 := fun h' => h (eq_inv_of_mul_eq_one_right h')
        simp [h, hne]
  rw [coeff_formal_mul_sum]
  simp only [hrow]
  rw [Finset.sum_list_map_count]
  simp only [nsmul_eq_mul]

/-! ## Finite groups -/

section
variable {G : Type} [Group G] {all : List G} (hnd : all.Nodup) (hall : ∀ x, x ∈ all)

include hnd hall

omit [Group G] in
/-- An injection permutes the list of all elements. -/
theorem map_perm_all {f : G → G} (hf : Function.Injective f) : (all.map f).Perm all := by
  have hsub : (all.map f).Subperm all :=
    List.subperm_of_subset (hnd.map hf) fun x _ => hall x
  exact hsub.perm_of_length_le (by rw [List.length_map])

theorem all_mul_formal (xs : List G) :
    formal R all * formal R xs = (xs.length : R) • formal R all := by
  induction xs with
  | nil => simp
  | cons y xs ih =>
    have hy : formal R all * single y 1 = formal R all := by
      rw [formal_mul, ← formal_perm (map_perm_all hnd hall (mul_left_injective y)), formal]
      simp [List.map_map, Function.comp_def]
    rw [formal_cons, mul_add, ih, hy, List.length_cons, Nat.cast_succ, add_smul, one_smul, add_comm]

theorem formal_mul_all (xs : List G) :
    formal R xs * formal R all = (xs.length : R) • formal R all := by
  induction xs with
  | nil => simp
  | cons y xs ih =>
    have hy : single y 1 * formal R all = formal R all := by
      rw [mul_formal, ← formal_perm (map_perm_all hnd hall (mul_right_injective y)), formal]
      simp [List.map_map, Function.comp_def]
    rw [formal_cons, add_mul, ih, hy, List.length_cons, Nat.cast_succ, add_smul, one_smul, add_comm]

/-- **The square of the complement.** -/
theorem complement_sq {xs ys : List G} (h : ((1 :: xs) ++ ys).Perm all) :
    formal R ys * formal R ys =
      ((all.length : R) - 2 - 2 * (xs.length : R)) • formal R all + single 1 1 +
        (2 : R) • formal R xs + formal R xs * formal R xs := by
  have happ : formal R all = single 1 1 + formal R xs + formal R ys := by
    rw [← formal_perm h]
    simp [formal, add_assoc]
  have hone : (single (1 : G) (1 : R)) = 1 := rfl
  have hys : formal R ys = formal R all - 1 - formal R xs := by
    rw [happ, hone]
    abel
  have hA := all_mul_formal (R := R) hnd hall all
  have hAD := all_mul_formal (R := R) hnd hall xs
  have hDA := formal_mul_all (R := R) hnd hall xs
  rw [hys, hone]
  simp only [mul_sub, sub_mul, mul_one, one_mul, hA, hAD, hDA, sub_smul, mul_smul, two_smul]
  abel

/-- Element by element. -/
theorem coeff_complement_sq [DecidableEq G] {xs ys : List G} (h : ((1 :: xs) ++ ys).Perm all) (z : G) :
    (formal R ys * formal R ys).coeff z = (all.length : R) - 2 - 2 * xs.length +
      (if z = 1 then 1 else 0) + 2 * (if z ∈ xs then 1 else 0) +
      (formal R xs * formal R xs).coeff z := by
  have hxs : xs.Nodup :=
    (List.nodup_cons.1 ((h.nodup_iff.2 hnd).sublist (List.sublist_append_left _ _))).2
  have hall' : all.count z = 1 := List.count_eq_one_of_mem hnd (hall z)
  rw [complement_sq hnd hall h]
  simp only [MonoidAlgebra.coeff_add, MonoidAlgebra.coeff_smul, Finsupp.add_apply,
    Finsupp.smul_apply, coeff_formal, hall', MonoidAlgebra.coeff_single, Finsupp.single_apply,
    smul_eq_mul, hxs.count, Nat.cast_one, mul_one, eq_comm (a := z)]
  split <;> split <;> simp

end

end GroupRing
