import Mathlib.Combinatorics.SimpleGraph.StronglyRegular
import Mathlib.Tactic

/-!
# Partial difference sets and their graphs

In a finite group `S` is a regular `(n, k, lam, mu)` partial difference set when
it has `k` elements, none of them the identity, is closed under inverses, and
every `x ≠ 1` is `a * b⁻¹` with `a, b ∈ S` in `lam` ways when `x ∈ S` and in `mu`
ways when not.

    IsRegularPDS S k lam mu ↔ the counts of the products a * b are k, lam, mu
                                                            (isRegularPDS_iff_products)
    IsRegularPDS S k lam mu ↔ y = x * s is a strongly regular graph
                                                            (isRegularPDS_iff_srg)

No inverse is taken in the first: there are as many products `a * b = 1` as
elements exactly when the set is closed under inverses (`products_one_iff`).
-/

namespace PartialDifferenceSet

variable {G : Type} [Group G] [DecidableEq G]

/-- The number of `(a, b)` with `a * b = x`. -/
def products (S : Finset G) (x : G) : Nat := ((S ×ˢ S).filter fun p => p.1 * p.2 = x).card

/-- The number of `(a, b)` with `a * b⁻¹ = x`. -/
def quotients (S : Finset G) (x : G) : Nat := ((S ×ˢ S).filter fun p => p.1 * p.2⁻¹ = x).card

structure IsRegularPDS (S : Finset G) (k : Nat) (lam mu : Int) : Prop where
  card : S.card = k
  one_notMem : 1 ∉ S
  inv_mem : ∀ x ∈ S, x⁻¹ ∈ S
  lam : ∀ x ∈ S, (quotients S x : Int) = lam
  mu : ∀ x, x ≠ 1 → x ∉ S → (quotients S x : Int) = mu

/-! ## Products -/

theorem products_one (S : Finset G) : products S 1 = (S.filter fun x => x⁻¹ ∈ S).card := by
  unfold products
  refine Finset.card_bij' (fun p _ => p.1) (fun x _ => (x, x⁻¹)) ?_ ?_ ?_ ?_
  · intro p hp
    simp only [Finset.mem_filter, Finset.mem_product] at hp ⊢
    rw [← eq_inv_of_mul_eq_one_right hp.2]
    exact hp.1
  · intro x hx
    simp only [Finset.mem_filter, Finset.mem_product] at hx ⊢
    exact ⟨hx, mul_inv_cancel x⟩
  · intro p hp
    simp only [Finset.mem_filter] at hp
    rw [← eq_inv_of_mul_eq_one_right hp.2]
  · intro x _
    rfl

/-- **Counting products sees the inverses.** -/
theorem products_one_iff (S : Finset G) : products S 1 = S.card ↔ ∀ x ∈ S, x⁻¹ ∈ S := by
  rw [products_one, Finset.card_filter_eq_iff]

theorem products_eq_quotients {S : Finset G} (h : ∀ x ∈ S, x⁻¹ ∈ S) (x : G) :
    products S x = quotients S x := by
  unfold products quotients
  refine Finset.card_bij' (fun p _ => (p.1, p.2⁻¹)) (fun p _ => (p.1, p.2⁻¹)) ?_ ?_ ?_ ?_
  · intro p hp
    simp only [Finset.mem_filter, Finset.mem_product] at hp ⊢
    exact ⟨⟨hp.1.1, h _ hp.1.2⟩, by rw [inv_inv]; exact hp.2⟩
  · intro p hp
    simp only [Finset.mem_filter, Finset.mem_product] at hp ⊢
    exact ⟨⟨hp.1.1, h _ hp.1.2⟩, hp.2⟩
  · intro p _
    rw [inv_inv]
  · intro p _
    rw [inv_inv]

/-- **A partial difference set, by its products.** -/
theorem isRegularPDS_iff_products {S : Finset G} {k : Nat} (lam mu : Int) (hk : S.card = k)
    (h1 : 1 ∉ S) : IsRegularPDS S k lam mu ↔ (products S 1 : Int) = k ∧
      (∀ x ∈ S, (products S x : Int) = lam) ∧
      ∀ x, x ≠ 1 → x ∉ S → (products S x : Int) = mu := by
  constructor
  · rintro ⟨-, -, hinv, hlam, hmu⟩
    refine ⟨?_, ?_, ?_⟩
    · rw [(products_one_iff S).2 hinv, hk]
    · intro x hx
      rw [products_eq_quotients hinv, hlam x hx]
    · intro x hx hxS
      rw [products_eq_quotients hinv, hmu x hx hxS]
  · rintro ⟨hone, hlam, hmu⟩
    have hinv : ∀ x ∈ S, x⁻¹ ∈ S := by
      rw [← products_one_iff, hk]
      exact_mod_cast hone
    refine ⟨hk, h1, hinv, ?_, ?_⟩
    · intro x hx
      rw [← products_eq_quotients hinv, hlam x hx]
    · intro x hx hxS
      rw [← products_eq_quotients hinv, hmu x hx hxS]

/-! ## Graphs -/

section
variable [Fintype G]

/-- The relation `y = x * s`, `s ∈ S`. -/
def CayleyRel (S : Finset G) (x y : G) : Prop := ∃ s ∈ S, y = x * s

omit [DecidableEq G] [Fintype G] in
theorem cayleyRel_iff (S : Finset G) (x y : G) : CayleyRel S x y ↔ x⁻¹ * y ∈ S := by
  constructor
  · rintro ⟨s, hs, rfl⟩
    rwa [inv_mul_cancel_left]
  · intro h
    exact ⟨x⁻¹ * y, h, (mul_inv_cancel_left x y).symm⟩

/-- `Γ` is the graph of `CayleyRel S`. -/
def IsCayley (Γ : SimpleGraph G) (S : Finset G) : Prop := ∀ x y, Γ.Adj x y ↔ CayleyRel S x y

variable {Γ : SimpleGraph G} [DecidableRel Γ.Adj] {S : Finset G}

/-- The neighbours of `x` are the `x * s`. -/
theorem IsCayley.degree (h : IsCayley Γ S) (x : G) : Γ.degree x = S.card := by
  rw [← SimpleGraph.card_neighborFinset_eq_degree]
  have himg : Γ.neighborFinset x = S.image fun s => x * s := by
    ext y
    rw [SimpleGraph.mem_neighborFinset, h, Finset.mem_image]
    constructor
    · rintro ⟨s, hs, rfl⟩
      exact ⟨s, hs, rfl⟩
    · rintro ⟨s, hs, rfl⟩
      exact ⟨s, hs, rfl⟩
  rw [himg, Finset.card_image_of_injective _ (mul_right_injective x)]

/-- **Common neighbours are quotients.**  `x * a = y * b` exactly when `a * b⁻¹ = x⁻¹ * y`. -/
theorem IsCayley.card_commonNeighbors (h : IsCayley Γ S) (x y : G) :
    Fintype.card (Γ.commonNeighbors x y) = quotients S (x⁻¹ * y) := by
  have hmem : ∀ z, z ∈ Γ.commonNeighbors x y ↔ x⁻¹ * z ∈ S ∧ y⁻¹ * z ∈ S := by
    intro z
    rw [SimpleGraph.mem_commonNeighbors, h, h, cayleyRel_iff, cayleyRel_iff]
  rw [← Set.toFinset_card]
  unfold quotients
  refine Finset.card_bij' (fun z _ => (x⁻¹ * z, y⁻¹ * z)) (fun p _ => x * p.1) ?_ ?_ ?_ ?_
  · intro z hz
    rw [Set.mem_toFinset, hmem] at hz
    rw [Finset.mem_filter, Finset.mem_product]
    exact ⟨hz, by group⟩
  · intro p hp
    rw [Finset.mem_filter, Finset.mem_product] at hp
    obtain ⟨⟨ha, hb⟩, hab⟩ := hp
    rw [Set.mem_toFinset, hmem, inv_mul_cancel_left]
    have hb' : y⁻¹ * (x * p.1) = p.2 := by
      rw [mul_inv_eq_iff_eq_mul] at hab
      rw [hab]
      group
    exact ⟨ha, hb'.symm ▸ hb⟩
  · intro z _
    exact mul_inv_cancel_left x z
  · intro p hp
    rw [Finset.mem_filter] at hp
    have hab := hp.2
    rw [mul_inv_eq_iff_eq_mul] at hab
    apply Prod.ext (inv_mul_cancel_left x p.1)
    show y⁻¹ * (x * p.1) = p.2
    rw [hab]
    group

/-- **The graph of a partial difference set is strongly regular**, and only that. -/
theorem isRegularPDS_iff_srg {k : Nat} (lam mu : Nat) (hk : S.card = k) (h1 : 1 ∉ S) :
    IsRegularPDS S k lam mu ↔ ∃ (Γ : SimpleGraph G) (_ : DecidableRel Γ.Adj), IsCayley Γ S ∧
      Γ.IsSRGWith (Fintype.card G) k lam mu := by
  constructor
  · rintro ⟨-, -, hinv, hlam, hmu⟩
    let Γ : SimpleGraph G :=
      { Adj := CayleyRel S
        symm := by
          refine ⟨fun x y h => ?_⟩
          rw [cayleyRel_iff] at h ⊢
          have := hinv _ h
          rwa [mul_inv_rev, inv_inv] at this
        loopless := by
          refine ⟨fun x h => ?_⟩
          rw [cayleyRel_iff, inv_mul_cancel] at h
          exact h1 h }
    have hΓ : IsCayley Γ S := fun x y => Iff.rfl
    let hdec : DecidableRel Γ.Adj := Classical.decRel _
    refine ⟨Γ, hdec, hΓ, ?_⟩
    refine ⟨rfl, ?_, ?_, ?_⟩
    · intro x
      rw [hΓ.degree, hk]
    · intro x y hadj
      rw [hΓ, cayleyRel_iff] at hadj
      rw [hΓ.card_commonNeighbors]
      exact_mod_cast hlam _ hadj
    · intro x y hne hadj
      rw [hΓ, cayleyRel_iff] at hadj
      rw [hΓ.card_commonNeighbors]
      have hne' : x⁻¹ * y ≠ 1 := by
        rw [Ne, inv_mul_eq_one]
        exact hne
      exact_mod_cast hmu _ hne' hadj
  · rintro ⟨Γ, hdec, hΓ, hsrg⟩
    have hadj : ∀ x, Γ.Adj 1 x ↔ x ∈ S := by
      intro x
      rw [hΓ, cayleyRel_iff, inv_one, one_mul]
    have hcount : ∀ x, Fintype.card (Γ.commonNeighbors 1 x) = quotients S x := by
      intro x
      rw [hΓ.card_commonNeighbors, inv_one, one_mul]
    refine ⟨hk, h1, ?_, ?_, ?_⟩
    · intro x hx
      have hsymm := ((hadj x).2 hx).symm
      rwa [hΓ, cayleyRel_iff, mul_one] at hsymm
    · intro x hx
      rw [← hcount, hsrg.of_adj 1 x ((hadj x).2 hx)]
    · intro x hx hxS
      rw [← hcount, hsrg.of_not_adj hx.symm fun h => hxS ((hadj x).1 h)]

end

/-! ## Isomorphic groups -/

section
variable {H : Type} [Group H] [DecidableEq H] (φ : H ≃* G) {S : Finset H} {k : Nat} {lam mu : Int}

theorem quotients_map (x : H) : quotients (S.map φ.toEquiv.toEmbedding) (φ x) = quotients S x := by
  unfold quotients
  symm
  apply Finset.card_bij (fun p _ => (φ p.1, φ p.2))
  · intro p hp
    simp only [Finset.mem_filter, Finset.mem_product] at hp ⊢
    obtain ⟨⟨h1, h2⟩, rfl⟩ := hp
    refine ⟨⟨Finset.mem_map_of_mem _ h1, Finset.mem_map_of_mem _ h2⟩, ?_⟩
    rw [map_mul, map_inv]
  · intro p _ q _ h
    obtain ⟨h1, h2⟩ := Prod.mk.inj h
    exact Prod.ext (φ.injective h1) (φ.injective h2)
  · rintro ⟨a, b⟩ hp
    simp only [Finset.mem_filter, Finset.mem_product, Finset.mem_map] at hp
    obtain ⟨⟨⟨a, ha, rfl⟩, b, hb, rfl⟩, hab⟩ := hp
    refine ⟨(a, b), ?_, rfl⟩
    simp only [Finset.mem_filter, Finset.mem_product]
    refine ⟨⟨ha, hb⟩, φ.injective ?_⟩
    rw [map_mul, map_inv]
    exact hab

/-- **An isomorphism takes partial difference sets to such sets.** -/
theorem IsRegularPDS.map (h : IsRegularPDS S k lam mu) :
    IsRegularPDS (S.map φ.toEquiv.toEmbedding) k lam mu := by
  have hmem : ∀ x, φ x ∈ S.map φ.toEquiv.toEmbedding ↔ x ∈ S := fun x =>
    Finset.mem_map' φ.toEquiv.toEmbedding
  refine ⟨by rw [← h.card, Finset.card_map], ?_, ?_, ?_, ?_⟩
  · rw [← map_one φ, hmem]
    exact h.one_notMem
  · intro y hy
    obtain ⟨x, rfl⟩ := φ.surjective y
    rw [← map_inv, hmem]
    exact h.inv_mem _ ((hmem x).1 hy)
  · intro y hy
    obtain ⟨x, rfl⟩ := φ.surjective y
    rw [quotients_map φ]
    exact h.lam _ ((hmem x).1 hy)
  · intro y h1 hy
    obtain ⟨x, rfl⟩ := φ.surjective y
    rw [quotients_map φ]
    exact h.mu _ (fun hx => h1 (by rw [hx, map_one])) fun hx => hy ((hmem x).2 hx)

theorem isRegularPDS_map_iff :
    IsRegularPDS (S.map φ.toEquiv.toEmbedding) k lam mu ↔ IsRegularPDS S k lam mu := by
  refine ⟨fun h => ?_, IsRegularPDS.map φ⟩
  have hback := h.map φ.symm
  rw [Finset.map_map] at hback
  have hid : φ.toEquiv.toEmbedding.trans φ.symm.toEquiv.toEmbedding = Function.Embedding.refl _ := by
    ext x
    exact φ.symm_apply_apply x
  rwa [hid, Finset.map_refl] at hback

end

end PartialDifferenceSet
