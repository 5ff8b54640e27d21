import Mathlib
import PdsSearch.Lib.GroupRing
import PdsSearch.Lib.PartialDifferenceSet

/-!
# The minimal polynomial of the translates of a set

`translates e D` is the matrix with a `1` where `y ∈ x D`, the points and blocks
numbered by `e`.  It is the matrix of a multiplication in the group ring, so its
minimal polynomial is that of `D` there (`minpoly_translates`).  For a set closed
under inverses and without the identity, and `H` the subgroup it generates:

    natDegree (minpoly ℚ D) = 3 ↔ D² counts `lam` on `D` and `mu` on the rest of
      H \ {1}, and this rest is not empty            (natDegree_minpoly_iff)

From counts to degree: `(D - k) (D² - (lam - mu) D - (k - mu)) = 0`, and no
quadratic vanishes at `D` because `D²` is the only one of `1`, `D`, `D²` that
sees the rest.  From degree to counts: `k` is a root, so the minimal polynomial
is `(X - k) q`; then `D q(D) = k q(D)`, which makes `q(D)` constant on `H`.

So a set of degree 3 is a partial difference set of the group when it generates
it and only then (exists_isRegularPDS_iff), and a partial difference set with
`mu ≠ 0` and `k + 1 < n` has degree 3 (natDegree_minpoly_pds).
-/

namespace CayleyMatrix

open GroupRing PartialDifferenceSet Polynomial
open MonoidAlgebra (single)

variable {G : Type} [Group G] [DecidableEq G]

/-- The set as a formal sum. -/
noncomputable def sumOf (D : Finset G) : MonoidAlgebra ℚ G := formal ℚ D.toList

variable (D : Finset G)

omit [DecidableEq G] in
theorem sumOf_eq : sumOf D = ∑ d ∈ D, single d (1 : ℚ) := Finset.sum_map_toList D _

theorem coeff_sumOf (x : G) : (sumOf D).coeff x = if x ∈ D then 1 else 0 := by
  unfold sumOf
  rw [coeff_formal, D.nodup_toList.count]
  simp only [Finset.mem_toList]
  split <;> simp

theorem coeff_sumOf_sq (x : G) : (sumOf D * sumOf D).coeff x = (products D x : ℚ) := by
  unfold sumOf products
  rw [coeff_formal_mul_of_nodup D.nodup_toList, Finset.toList_toFinset]

omit [DecidableEq G] in
theorem coeff_sumOf_mul (f : MonoidAlgebra ℚ G) (x : G) :
    (sumOf D * f).coeff x = ∑ d ∈ D, f.coeff (d⁻¹ * x) := by
  rw [sumOf_eq, Finset.sum_mul, MonoidAlgebra.coeff_sum, Finsupp.finsetSum_apply]
  apply Finset.sum_congr rfl
  intro d _
  rw [MonoidAlgebra.coeff_single_mul_apply, one_mul]

theorem coeff_one (x : G) : (1 : MonoidAlgebra ℚ G).coeff x = if x = 1 then 1 else 0 := by
  rw [MonoidAlgebra.one_def, MonoidAlgebra.coeff_single, Finsupp.single_apply]
  simp only [eq_comm]

/-! ## The matrix -/

section
variable {ι : Type} [Fintype ι] [DecidableEq ι]

/-- The incidence matrix of the left translates of `D`. -/
def translates (e : ι ≃ G) : Matrix ι ι ℚ :=
  Matrix.of fun i j => if (e i)⁻¹ * e j ∈ D then 1 else 0

/-- The group elements, inverted, as a basis. -/
noncomputable def inverses (e : ι ≃ G) : Module.Basis ι ℚ (MonoidAlgebra ℚ G) :=
  (MonoidAlgebra.basis G ℚ).reindex (e.trans (Equiv.inv G)).symm

omit [Fintype ι] [DecidableEq ι] [DecidableEq G] in
theorem inverses_apply (e : ι ≃ G) (i : ι) : inverses e i = single (e i)⁻¹ 1 := by
  simp [inverses]

omit [Fintype ι] [DecidableEq ι] [DecidableEq G] in
theorem inverses_repr (e : ι ≃ G) (a : MonoidAlgebra ℚ G) (i : ι) :
    (inverses e).repr a i = a.coeff (e i)⁻¹ := by
  unfold inverses
  rw [Module.Basis.repr_reindex_apply]
  rfl

/-- **The matrix multiplies by `D`.** -/
theorem translates_eq (e : ι ≃ G) :
    translates D e = Algebra.leftMulMatrix (inverses e) (sumOf D) := by
  ext i j
  rw [Algebra.leftMulMatrix_eq_repr_mul, inverses_apply, inverses_repr,
    MonoidAlgebra.coeff_mul_single_apply, coeff_sumOf, inv_inv, mul_one]
  rfl

theorem minpoly_translates (e : ι ≃ G) : minpoly ℚ (translates D e) = minpoly ℚ (sumOf D) := by
  rw [translates_eq]
  exact minpoly.algHom_eq _ (Algebra.leftMulMatrix_injective _) _

end

/-! ## From counts to degree -/

/-- A polynomial of degree at most two, at a point. -/
theorem aeval_of_natDegree_lt {A : Type} [Ring A] [Algebra ℚ A] {p : ℚ[X]} (hp : p.natDegree < 3)
    (a : A) : aeval a p = p.coeff 0 • (1 : A) + p.coeff 1 • a + p.coeff 2 • (a * a) := by
  rw [aeval_eq_sum_range' hp, Finset.sum_range_succ, Finset.sum_range_succ, Finset.sum_range_succ,
    Finset.sum_range_zero, zero_add, pow_zero, pow_one, sq]

section
variable (k : Nat) (lam mu : ℤ)

/-- `X² - (lam - mu) X - (k - mu)` -/
noncomputable def quadratic : ℚ[X] := X ^ 2 - C ((lam : ℚ) - mu) * X - C ((k : ℚ) - mu)

theorem quadratic_natDegree : (quadratic k lam mu).natDegree = 2 := by
  unfold quadratic
  compute_degree!

theorem quadratic_monic : (quadratic k lam mu).Monic := by
  unfold quadratic
  monicity!

end

/-- On `H`, away from the identity, `lam` products at the elements of `D` and `mu` at the others. -/
def Counts (H : Subgroup G) (lam mu : ℤ) : Prop :=
  ∀ x ∈ H, x ≠ 1 → (products D x : ℤ) = if x ∈ D then lam else mu

/-- The subgroup that `D` generates. -/
def generated : Subgroup G := Subgroup.closure (D : Set G)

variable {D} {lam mu : ℤ}

omit [DecidableEq G] in
theorem mem_generated {x : G} (hx : x ∈ D) : x ∈ generated D :=
  Subgroup.subset_closure (Finset.mem_coe.2 hx)

theorem exists_mul {x : G} (h : products D x ≠ 0) : ∃ a ∈ D, ∃ b ∈ D, a * b = x := by
  obtain ⟨p, hp⟩ := Finset.card_ne_zero.1 h
  rw [Finset.mem_filter, Finset.mem_product] at hp
  exact ⟨p.1, hp.1.1, p.2, hp.1.2, hp.2⟩

/-- No products outside of the subgroup. -/
theorem products_eq_zero {x : G} (hx : x ∉ generated D) : products D x = 0 := by
  by_contra h
  obtain ⟨a, ha, b, hb, rfl⟩ := exists_mul h
  exact hx (mul_mem (mem_generated ha) (mem_generated hb))

section
variable (hinv : ∀ x ∈ D, x⁻¹ ∈ D) (h1 : 1 ∉ D)
include hinv

/-- If the subgroup has elements outside of `D` and `1`, some of them are products: otherwise
`D` and `1` would be closed. -/
theorem exists_product_outside {x : G} (hx : x ∈ generated D) (hx1 : x ≠ 1) (hxD : x ∉ D) :
    ∃ y ∈ generated D, y ≠ 1 ∧ y ∉ D ∧ products D y ≠ 0 := by
  by_contra! hnone
  have hmul : ∀ {a b : G}, a ∈ D → b ∈ D → a * b = 1 ∨ a * b ∈ D := by
    intro a b ha hb
    by_contra! hab
    have hzero := hnone _ (mul_mem (mem_generated ha) (mem_generated hb)) hab.1 hab.2
    have hmem : (a, b) ∈ (D ×ˢ D).filter fun p => p.1 * p.2 = a * b :=
      Finset.mem_filter.2 ⟨Finset.mem_product.2 ⟨ha, hb⟩, rfl⟩
    exact Finset.card_ne_zero_of_mem hmem hzero
  let K : Subgroup G :=
    { carrier := {y | y = 1 ∨ y ∈ D}
      one_mem' := Or.inl rfl
      mul_mem' := by
        rintro a b (rfl | ha) (rfl | hb)
        · exact Or.inl (one_mul 1)
        · exact Or.inr (by rwa [one_mul])
        · exact Or.inr (by rwa [mul_one])
        · exact hmul ha hb
      inv_mem' := by
        rintro a (rfl | ha)
        · exact Or.inl inv_one
        · exact Or.inr (hinv a ha) }
  have hle : generated D ≤ K := (Subgroup.closure_le K).2 fun y hy => Or.inr (Finset.mem_coe.1 hy)
  exact (hle hx).elim hx1 hxD

theorem Counts.mu_ne_zero (h : Counts D (generated D) lam mu) {x : G} (hx : x ∈ generated D)
    (hx1 : x ≠ 1) (hxD : x ∉ D) : mu ≠ 0 := by
  obtain ⟨y, hy, hy1, hyD, hne⟩ := exists_product_outside hinv hx hx1 hxD
  have hmu := h y hy hy1
  rw [if_neg hyD] at hmu
  omega

include h1

omit hinv h1 in
/-- The quadratic at `D`, at one element. -/
theorem coeff_aeval_quadratic (x : G) :
    (aeval (sumOf D) (quadratic D.card lam mu)).coeff x = products D x -
      ((lam : ℚ) - mu) * (if x ∈ D then 1 else 0) - ((D.card : ℚ) - mu) * (if x = 1 then 1 else 0) := by
  unfold quadratic
  rw [map_sub, map_sub, map_mul, map_pow, aeval_X, aeval_C, aeval_C, ← Algebra.smul_def,
    Algebra.algebraMap_eq_smul_one, sq, MonoidAlgebra.coeff_sub, MonoidAlgebra.coeff_sub,
    Finsupp.sub_apply, Finsupp.sub_apply, MonoidAlgebra.coeff_smul_apply,
    MonoidAlgebra.coeff_smul_apply, coeff_sumOf_sq, coeff_sumOf, coeff_one, smul_eq_mul, smul_eq_mul]

open Classical in
/-- `D² - (lam - mu) D - (k - mu) = mu H` -/
theorem Counts.coeff_quadratic (h : Counts D (generated D) lam mu) (x : G) :
    (aeval (sumOf D) (quadratic D.card lam mu)).coeff x =
      if x ∈ generated D then (mu : ℚ) else 0 := by
  have hcard : products D 1 = D.card := (products_one_iff D).2 hinv
  rw [coeff_aeval_quadratic]
  by_cases hx1 : x = 1
  · subst hx1
    rw [hcard, if_neg h1, if_pos rfl, if_pos (one_mem _)]
    ring
  · rw [if_neg hx1]
    by_cases hx : x ∈ generated D
    · have hc : (products D x : ℚ) = ((if x ∈ D then lam else mu : ℤ) : ℚ) := by
        exact_mod_cast congrArg (Int.cast : ℤ → ℚ) (h x hx hx1)
      rw [hc, if_pos hx]
      by_cases hxD : x ∈ D
      · rw [if_pos hxD, if_pos hxD]
        ring
      · rw [if_neg hxD, if_neg hxD]
        ring
    · have hxD : x ∉ D := fun hxD => hx (mem_generated hxD)
      rw [products_eq_zero hx, if_neg hx, if_neg hxD]
      simp

/-- `(D - k) (D² - (lam - mu) D - (k - mu)) = 0` -/
theorem Counts.aeval_cubic (h : Counts D (generated D) lam mu) :
    aeval (sumOf D) ((X - C (D.card : ℚ)) * quadratic D.card lam mu) = 0 := by
  rw [map_mul, map_sub, aeval_X, aeval_C, sub_mul, sub_eq_zero, ← Algebra.smul_def]
  ext x
  rw [coeff_sumOf_mul, MonoidAlgebra.coeff_smul_apply]
  have hterm : ∀ d ∈ D, (aeval (sumOf D) (quadratic D.card lam mu)).coeff (d⁻¹ * x) =
      (aeval (sumOf D) (quadratic D.card lam mu)).coeff x := by
    intro d hd
    rw [h.coeff_quadratic hinv h1, h.coeff_quadratic hinv h1,
      Subgroup.mul_mem_cancel_left _ (inv_mem (mem_generated hd))]
  rw [Finset.sum_congr rfl hterm, Finset.sum_const, nsmul_eq_mul, smul_eq_mul]

omit hinv h1 in
/-- A combination of `1`, `D`, `D²` at one element. -/
theorem coeff_combination {c₀ c₁ c₂ : ℚ}
    (h : c₀ • (1 : MonoidAlgebra ℚ G) + c₁ • sumOf D + c₂ • (sumOf D * sumOf D) = 0) (x : G) :
    c₀ * (if x = 1 then 1 else 0) + c₁ * (if x ∈ D then 1 else 0) + c₂ * products D x = 0 := by
  have hx := congrArg (fun f => MonoidAlgebra.coeff f x) h
  simpa only [MonoidAlgebra.coeff_add, Finsupp.add_apply, MonoidAlgebra.coeff_smul_apply, coeff_one,
    coeff_sumOf, coeff_sumOf_sq, smul_eq_mul, MonoidAlgebra.coeff_zero, Finsupp.zero_apply] using hx

/-- **`1`, `D` and `D²` are independent** when the subgroup has further elements. -/
theorem independent {x : G} (hx : x ∈ generated D) (hx1 : x ≠ 1) (hxD : x ∉ D) {c₀ c₁ c₂ : ℚ}
    (hc : c₀ • (1 : MonoidAlgebra ℚ G) + c₁ • sumOf D + c₂ • (sumOf D * sumOf D) = 0) :
    c₀ = 0 ∧ c₁ = 0 ∧ c₂ = 0 := by
  obtain ⟨y, hy, hy1, hyD, hne⟩ := exists_product_outside hinv hx hx1 hxD
  obtain ⟨d, hd, -⟩ := exists_mul hne
  have h₂ : c₂ = 0 := by
    have := coeff_combination hc y
    rw [if_neg hy1, if_neg hyD, mul_zero, mul_zero, zero_add, zero_add] at this
    exact (mul_eq_zero.1 this).resolve_right (Nat.cast_ne_zero.2 hne)
  have h₁ : c₁ = 0 := by
    have := coeff_combination hc d
    rw [h₂, if_neg fun hd1 : d = 1 => h1 (hd1 ▸ hd), if_pos hd] at this
    linarith
  have h₀ : c₀ = 0 := by
    have := coeff_combination hc 1
    rw [h₂, h₁, if_pos rfl] at this
    linarith
  exact ⟨h₀, h₁, h₂⟩

variable [Fintype G]

/-- **Counts give degree three.** -/
theorem Counts.natDegree_minpoly (h : Counts D (generated D) lam mu) {x : G}
    (hx : x ∈ generated D) (hx1 : x ≠ 1) (hxD : x ∉ D) : (minpoly ℚ (sumOf D)).natDegree = 3 := by
  have hint : IsIntegral ℚ (sumOf D) := IsIntegral.of_finite ℚ (sumOf D)
  apply le_antisymm
  · have hmonic : ((X - C (D.card : ℚ)) * quadratic D.card lam mu).Monic :=
      (monic_X_sub_C _).mul (quadratic_monic _ _ _)
    have hdeg : ((X - C (D.card : ℚ)) * quadratic D.card lam mu).natDegree = 3 := by
      rw [(monic_X_sub_C _).natDegree_mul (quadratic_monic _ _ _), natDegree_X_sub_C,
        quadratic_natDegree]
    rw [← hdeg]
    exact natDegree_le_natDegree (minpoly.min ℚ _ hmonic (h.aeval_cubic hinv h1))
  · by_contra! hlt
    set m := minpoly ℚ (sumOf D)
    have hzero : aeval (sumOf D) m = 0 := minpoly.aeval ℚ _
    rw [aeval_of_natDegree_lt hlt] at hzero
    obtain ⟨h₀, h₁, h₂⟩ := independent hinv h1 hx hx1 hxD hzero
    -- the minimal polynomial would have no coefficient
    apply minpoly.ne_zero hint
    ext i
    rw [coeff_zero]
    match i with
    | 0 => exact h₀
    | 1 => exact h₁
    | 2 => exact h₂
    | i + 3 => exact coeff_eq_zero_of_natDegree_lt (lt_of_lt_of_le hlt (Nat.le_add_left 3 i))

end

/-! ## From degree to counts -/

section
variable [Fintype G]

omit [DecidableEq G] in
/-- **A function that is the mean of its translates is constant along them.**  The squares of
the differences add up to zero. -/
theorem translate_eq {f : G → ℚ} (hf : ∀ x, ∑ d ∈ D, f (d⁻¹ * x) = D.card * f x) {d : G}
    (hd : d ∈ D) (x : G) : f (d⁻¹ * x) = f x := by
  have hshift : ∀ d : G, ∑ x, f (d⁻¹ * x) ^ 2 = ∑ x, f x ^ 2 := fun d =>
    Equiv.sum_comp (Equiv.mulLeft d⁻¹) fun x => f x ^ 2
  have hsq : ∑ d ∈ D, ∑ x, (f (d⁻¹ * x) - f x) ^ 2 = 0 := by
    calc ∑ d ∈ D, ∑ x, (f (d⁻¹ * x) - f x) ^ 2
        = ∑ d ∈ D, (∑ x, f (d⁻¹ * x) ^ 2 + ∑ x, f x ^ 2 - ∑ x, 2 * f x * f (d⁻¹ * x)) := by
          apply Finset.sum_congr rfl
          intro d _
          rw [← Finset.sum_add_distrib, ← Finset.sum_sub_distrib]
          apply Finset.sum_congr rfl
          intro x _
          ring
      _ = D.card * (∑ x, f x ^ 2 + ∑ x, f x ^ 2) - ∑ x, 2 * f x * ∑ d ∈ D, f (d⁻¹ * x) := by
          rw [Finset.sum_sub_distrib, Finset.sum_comm (s := D)]
          congr 1
          · rw [← nsmul_eq_mul, ← Finset.sum_const]
            exact Finset.sum_congr rfl fun d _ => by rw [hshift]
          · exact Finset.sum_congr rfl fun x _ => (Finset.mul_sum _ _ _).symm
      _ = D.card * (∑ x, f x ^ 2 + ∑ x, f x ^ 2) - ∑ x, 2 * D.card * f x ^ 2 := by
          congr 1
          apply Finset.sum_congr rfl
          intro x _
          rw [hf]
          ring
      _ = 0 := by
          rw [← Finset.mul_sum]
          ring
  have hd0 := (Finset.sum_eq_zero_iff_of_nonneg fun d _ =>
    Finset.sum_nonneg fun x _ => sq_nonneg (f (d⁻¹ * x) - f x)).1 hsq d hd
  have hx0 := (Finset.sum_eq_zero_iff_of_nonneg fun x _ => sq_nonneg (f (d⁻¹ * x) - f x)).1 hd0 x
    (Finset.mem_univ x)
  exact sub_eq_zero.1 (pow_eq_zero_iff two_ne_zero |>.1 hx0)

omit [DecidableEq G] in
/-- Such a function is constant on the subgroup. -/
theorem constant_on_generated {f : G → ℚ} (hf : ∀ x, ∑ d ∈ D, f (d⁻¹ * x) = D.card * f x) {h : G}
    (hh : h ∈ generated D) : f h = f 1 := by
  have hall : ∀ x, f (h * x) = f x := by
    induction hh using Subgroup.closure_induction with
    | mem d hd =>
      intro x
      rw [← translate_eq hf hd (d * x), inv_mul_cancel_left]
    | one => exact fun x => by rw [one_mul]
    | mul a b _ _ iha ihb => exact fun x => by rw [mul_assoc, iha, ihb]
    | inv a _ iha => exact fun x => by rw [← iha (a⁻¹ * x), mul_inv_cancel_left]
  rw [← hall 1, mul_one]

omit [DecidableEq G] [Fintype G] in
/-- The size of `D` is a root. -/
theorem isRoot_card : (minpoly ℚ (sumOf D)).IsRoot (D.card : ℚ) := by
  let ε : MonoidAlgebra ℚ G →ₐ[ℚ] ℚ := MonoidAlgebra.lift ℚ ℚ G 1
  have hε : ε (sumOf D) = D.card := by
    rw [sumOf_eq, map_sum]
    simp [ε]
  rw [IsRoot, ← coe_aeval_eq_eval, ← hε, aeval_algHom_apply, minpoly.aeval, map_zero]

/-- The minimal polynomial is `(X - k) q` with `q` a quadratic, and `q(D)` is constant on the
subgroup. -/
theorem exists_constant (hdeg : (minpoly ℚ (sumOf D)).natDegree = 3) :
    ∃ c₀ c₁ c : ℚ, ∀ x ∈ generated D,
      c₀ * (if x = 1 then 1 else 0) + c₁ * (if x ∈ D then 1 else 0) + products D x = c := by
  have hmonic : (minpoly ℚ (sumOf D)).Monic := minpoly.monic (IsIntegral.of_finite ℚ (sumOf D))
  obtain ⟨q, hq⟩ := dvd_iff_isRoot.2 (isRoot_card (D := D))
  have hqm : q.Monic := by
    rw [hq] at hmonic
    exact (monic_X_sub_C _).of_mul_monic_left hmonic
  have hq2 : q.natDegree = 2 := by
    rw [hq, (monic_X_sub_C _).natDegree_mul hqm, natDegree_X_sub_C] at hdeg
    omega
  have hlead : q.coeff 2 = 1 := by rw [← hq2]; exact hqm
  set E := aeval (sumOf D) q with hE
  -- `(D - k) q(D) = 0`
  have hkill : sumOf D * E = (D.card : ℚ) • E := by
    have hzero : aeval (sumOf D) (minpoly ℚ (sumOf D)) = 0 := minpoly.aeval ℚ _
    rw [hq, map_mul, map_sub, aeval_X, aeval_C, sub_mul, sub_eq_zero] at hzero
    rw [hzero, Algebra.smul_def]
  have hmean : ∀ x, ∑ d ∈ D, E.coeff (d⁻¹ * x) = D.card * E.coeff x := by
    intro x
    rw [← coeff_sumOf_mul, hkill, MonoidAlgebra.coeff_smul_apply, smul_eq_mul]
  refine ⟨q.coeff 0, q.coeff 1, E.coeff 1, fun x hx => ?_⟩
  rw [← constant_on_generated (f := fun x => E.coeff x) hmean hx, hE,
    aeval_of_natDegree_lt (show q.natDegree < 3 by omega), hlead, one_smul]
  simp only [MonoidAlgebra.coeff_add, Finsupp.add_apply, MonoidAlgebra.coeff_smul_apply, coeff_one,
    coeff_sumOf, coeff_sumOf_sq, smul_eq_mul]

omit [Group G] [DecidableEq G] [Fintype G] in
/-- A constant number of products is an integer. -/
theorem exists_int {f : G → Nat} {P : G → Prop} {c : ℚ} (h : ∀ x, P x → (f x : ℚ) = c) :
    ∃ z : ℤ, ∀ x, P x → (f x : ℤ) = z := by
  by_cases hne : ∃ x, P x
  · obtain ⟨x₀, h₀⟩ := hne
    refine ⟨f x₀, fun x hx => ?_⟩
    have heq : (f x : ℚ) = f x₀ := (h x hx).trans (h x₀ h₀).symm
    exact_mod_cast heq
  · exact ⟨0, fun x hx => absurd ⟨x, hx⟩ hne⟩

/-- **Degree three gives counts.** -/
theorem exists_counts (hdeg : (minpoly ℚ (sumOf D)).natDegree = 3) :
    ∃ lam mu, Counts D (generated D) lam mu := by
  obtain ⟨c₀, c₁, c, h⟩ := exists_constant hdeg
  have hin : ∀ x, x ∈ generated D ∧ x ≠ 1 ∧ x ∈ D → (products D x : ℚ) = c - c₁ := by
    rintro x ⟨hx, hx1, hxD⟩
    have := h x hx
    rw [if_neg hx1, if_pos hxD] at this
    linarith
  have hout : ∀ x, x ∈ generated D ∧ x ≠ 1 ∧ x ∉ D → (products D x : ℚ) = c := by
    rintro x ⟨hx, hx1, hxD⟩
    have := h x hx
    rw [if_neg hx1, if_neg hxD] at this
    linarith
  obtain ⟨lam, hlam⟩ := exists_int hin
  obtain ⟨mu, hmu⟩ := exists_int hout
  refine ⟨lam, mu, fun x hx hx1 => ?_⟩
  by_cases hxD : x ∈ D
  · rw [if_pos hxD, hlam x ⟨hx, hx1, hxD⟩]
  · rw [if_neg hxD, hmu x ⟨hx, hx1, hxD⟩]

omit [Fintype G] in
/-- Some element of the subgroup is neither in `D` nor the identity. -/
theorem exists_outside (hinv : ∀ x ∈ D, x⁻¹ ∈ D) (h1 : 1 ∉ D)
    (h : Counts D (generated D) lam mu) (hdeg : (minpoly ℚ (sumOf D)).natDegree = 3) :
    ∃ x ∈ generated D, x ≠ 1 ∧ x ∉ D := by
  by_contra! hall
  have h' : Counts D (generated D) lam 0 := by
    intro x hx hx1
    rw [h x hx hx1, if_pos (hall x hx hx1), if_pos (hall x hx hx1)]
  have hzero : aeval (sumOf D) (quadratic D.card lam 0) = 0 := by
    ext x
    rw [h'.coeff_quadratic hinv h1]
    simp
  have hle := natDegree_le_natDegree (minpoly.min ℚ _ (quadratic_monic _ _ _) hzero)
  rw [hdeg, quadratic_natDegree] at hle
  omega

/-- **The degree of the minimal polynomial, by counting.** -/
theorem natDegree_minpoly_iff (hinv : ∀ x ∈ D, x⁻¹ ∈ D) (h1 : 1 ∉ D) :
    (minpoly ℚ (sumOf D)).natDegree = 3 ↔
      (∃ lam mu, Counts D (generated D) lam mu) ∧ ∃ x ∈ generated D, x ≠ 1 ∧ x ∉ D := by
  constructor
  · intro hdeg
    obtain ⟨lam, mu, h⟩ := exists_counts hdeg
    exact ⟨⟨lam, mu, h⟩, exists_outside hinv h1 h hdeg⟩
  · rintro ⟨⟨lam, mu, h⟩, x, hx, hx1, hxD⟩
    exact h.natDegree_minpoly hinv h1 hx hx1 hxD

end

/-! ## Partial difference sets -/

theorem products_subtype (H : Subgroup G) [DecidablePred (· ∈ H)] (hD : ∀ x ∈ D, x ∈ H) (x : H) :
    products (D.subtype (· ∈ H)) x = products D x := by
  unfold products
  refine Finset.card_bij (fun p _ => (p.1.val, p.2.val)) ?_ ?_ ?_
  · intro p hp
    rw [Finset.mem_filter, Finset.mem_product, Finset.mem_subtype, Finset.mem_subtype] at hp
    rw [Finset.mem_filter, Finset.mem_product]
    exact ⟨hp.1, congrArg Subtype.val hp.2⟩
  · intro p _ q _ h
    exact Prod.ext (Subtype.ext (congrArg Prod.fst h)) (Subtype.ext (congrArg Prod.snd h))
  · rintro ⟨a, b⟩ hp
    rw [Finset.mem_filter, Finset.mem_product] at hp
    refine ⟨(⟨a, hD a hp.1.1⟩, ⟨b, hD b hp.1.2⟩), ?_, rfl⟩
    rw [Finset.mem_filter, Finset.mem_product, Finset.mem_subtype, Finset.mem_subtype]
    exact ⟨hp.1, Subtype.ext hp.2⟩

section
variable (hinv : ∀ x ∈ D, x⁻¹ ∈ D) (h1 : 1 ∉ D)
include hinv h1

/-- Partial difference sets of a subgroup, by the products in the group. -/
theorem isRegularPDS_subtype_iff (H : Subgroup G) [DecidablePred (· ∈ H)] (hD : ∀ x ∈ D, x ∈ H) :
    IsRegularPDS (D.subtype (· ∈ H)) D.card lam mu ↔ Counts D H lam mu := by
  have hcard : (D.subtype (· ∈ H)).card = D.card := by
    rw [Finset.card_subtype, Finset.filter_true_of_mem hD]
  have hone : (1 : H) ∉ D.subtype (· ∈ H) := fun h => h1 (Finset.mem_subtype.1 h)
  rw [isRegularPDS_iff_products lam mu hcard hone, products_subtype H hD]
  constructor
  · rintro ⟨-, hlam, hmu⟩ x hx hx1
    by_cases hxD : x ∈ D
    · rw [if_pos hxD, ← hlam ⟨x, hx⟩ (Finset.mem_subtype.2 hxD), products_subtype H hD]
    · rw [if_neg hxD, ← hmu ⟨x, hx⟩ (fun h => hx1 (congrArg Subtype.val h))
        (fun h => hxD (Finset.mem_subtype.1 h)), products_subtype H hD]
  · intro h
    refine ⟨?_, fun x hx => ?_, fun x hx1 hx => ?_⟩
    · exact_mod_cast (products_one_iff D).2 hinv
    · have hxD : x.val ∈ D := Finset.mem_subtype.1 hx
      rw [products_subtype H hD, h x x.2 (fun hx1 => h1 (hx1 ▸ hxD)), if_pos hxD]
    · have hxD : x.val ∉ D := fun hxD => hx (Finset.mem_subtype.2 hxD)
      rw [products_subtype H hD, h x x.2 (fun h => hx1 (Subtype.ext h)), if_neg hxD]

theorem isRegularPDS_iff_counts : IsRegularPDS D D.card lam mu ↔ Counts D ⊤ lam mu := by
  rw [isRegularPDS_iff_products lam mu rfl h1]
  constructor
  · rintro ⟨-, hlam, hmu⟩ x - hx1
    by_cases hxD : x ∈ D
    · rw [if_pos hxD, hlam x hxD]
    · rw [if_neg hxD, hmu x hx1 hxD]
  · intro h
    refine ⟨?_, fun x hxD => ?_, fun x hx1 hxD => ?_⟩
    · exact_mod_cast (products_one_iff D).2 hinv
    · rw [h x (Subgroup.mem_top x) (fun hx1 => h1 (hx1 ▸ hxD)), if_pos hxD]
    · rw [h x (Subgroup.mem_top x) hx1, if_neg hxD]

omit hinv h1 in
/-- With `mu ≠ 0` every element is a product. -/
theorem Counts.generated_eq_top (h : Counts D ⊤ lam mu) (hmu : mu ≠ 0) : generated D = ⊤ := by
  rw [Subgroup.eq_top_iff']
  intro x
  by_cases hx1 : x = 1
  · exact hx1 ▸ one_mem _
  · by_cases hxD : x ∈ D
    · exact mem_generated hxD
    · have hx := h x (Subgroup.mem_top x) hx1
      rw [if_neg hxD] at hx
      have hne : products D x ≠ 0 := by omega
      obtain ⟨a, ha, b, hb, rfl⟩ := exists_mul hne
      exact mul_mem (mem_generated ha) (mem_generated hb)

variable [Fintype G]

/-- **Sets of degree three are partial difference sets when they generate the group**, and
only then. -/
theorem exists_isRegularPDS_iff (hdeg : (minpoly ℚ (sumOf D)).natDegree = 3) :
    (∃ lam mu, IsRegularPDS D D.card lam mu) ↔ generated D = ⊤ := by
  simp only [isRegularPDS_iff_counts hinv h1]
  obtain ⟨hcounts, x, hx, hx1, hxD⟩ := (natDegree_minpoly_iff hinv h1).1 hdeg
  constructor
  · rintro ⟨lam, mu, h⟩
    have h' : Counts D (generated D) lam mu := fun y _ => h y (Subgroup.mem_top y)
    exact h.generated_eq_top (h'.mu_ne_zero hinv hx hx1 hxD)
  · intro htop
    rwa [htop] at hcounts

/-- **Partial difference sets have degree three** when `mu ≠ 0` and some element is neither the
identity nor in the set. -/
theorem natDegree_minpoly_pds (h : IsRegularPDS D D.card lam mu) (hmu : mu ≠ 0)
    (hcard : D.card + 1 < Fintype.card G) : (minpoly ℚ (sumOf D)).natDegree = 3 := by
  have hcounts := (isRegularPDS_iff_counts hinv h1).1 h
  have htop := hcounts.generated_eq_top hmu
  obtain ⟨x, hx⟩ : ∃ x, x ∉ insert 1 D := by
    by_contra! hall
    have hle := Finset.card_le_card (fun x _ => hall x : Finset.univ ⊆ insert 1 D)
    rw [Finset.card_univ, Finset.card_insert_of_notMem h1] at hle
    omega
  rw [Finset.mem_insert, not_or] at hx
  rw [← htop] at hcounts
  exact hcounts.natDegree_minpoly hinv h1 (htop ▸ Subgroup.mem_top x) hx.1 hx.2

end

end CayleyMatrix
