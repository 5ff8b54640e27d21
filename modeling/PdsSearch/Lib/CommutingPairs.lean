import Mathlib.GroupTheory.CommutingProbability
import Mathlib.GroupTheory.SpecificGroups.Cyclic
import Mathlib.Tactic

/-!
# Commuting pairs of a finite group

Isomorphic structures have equally many commuting pairs (`card_commute_congr`).
In a group that is not abelian the center is a quarter of the group at most
(`four_mul_card_center_le`) and the centralizer of any other element half of it
at most (`two_mul_card_centralizer_le`).  Counting the pairs by their first
element,

    ¬ (∀ a b, a * b = b * a) → commProb G ≤ 5 / 8                  (commProb_le)
-/

namespace Commuting

/-! ## Isomorphic structures -/

theorem card_commute_congr {M N : Type*} [Mul M] [Mul N] (f : M ≃* N) :
    Nat.card { p : M × M // Commute p.1 p.2 } = Nat.card { p : N × N // Commute p.1 p.2 } := by
  refine Nat.card_congr ((f.toEquiv.prodCongr f.toEquiv).subtypeEquiv fun p => ?_)
  show p.1 * p.2 = p.2 * p.1 ↔ f p.1 * f p.2 = f p.2 * f p.1
  rw [← map_mul, ← map_mul, f.injective.eq_iff]

theorem commProb_congr {M N : Type*} [Mul M] [Mul N] (f : M ≃* N) : commProb M = commProb N := by
  rw [commProb_def, commProb_def, card_commute_congr f, Nat.card_congr f.toEquiv]

/-! ## Groups that are not abelian -/

variable {G : Type*} [Group G] [Finite G]

/-- The quotient by the center is not cyclic, so it has four elements at least. -/
theorem four_mul_card_center_le (h : ¬ ∀ a b : G, a * b = b * a) :
    4 * Nat.card (Subgroup.center G) ≤ Nat.card G := by
  have hnot : ¬ IsCyclic (G ⧸ Subgroup.center G) := by
    intro hc
    have hcomm : IsMulCommutative G :=
      MonoidHom.isMulCommutative_of_isCyclic_of_ker_le_center
        (QuotientGroup.mk' (Subgroup.center G)) (QuotientGroup.ker_mk' _).le
    exact h fun a b => mul_comm' a b
  have hindex : 4 ≤ (Subgroup.center G).index := by
    by_contra hlt
    have hpos : (Subgroup.center G).index ≠ 0 := Subgroup.index_ne_zero_of_finite
    have hcases : (Subgroup.center G).index = 1 ∨ (Subgroup.center G).index = 2 ∨
        (Subgroup.center G).index = 3 := by omega
    rw [Subgroup.index] at hcases
    rcases hcases with h1 | h2 | h3
    · have : Subsingleton (G ⧸ Subgroup.center G) := (Nat.card_eq_one_iff_unique.1 h1).1
      exact hnot inferInstance
    · have : Fact (Nat.Prime 2) := ⟨Nat.prime_two⟩
      exact hnot (isCyclic_of_prime_card h2)
    · have : Fact (Nat.Prime 3) := ⟨Nat.prime_three⟩
      exact hnot (isCyclic_of_prime_card h3)
  calc 4 * Nat.card (Subgroup.center G)
      ≤ (Subgroup.center G).index * Nat.card (Subgroup.center G) := Nat.mul_le_mul_right _ hindex
    _ = Nat.card G := (Subgroup.center G).index_mul_card

/-- The centralizer of an element outside the center is a proper subgroup. -/
theorem two_mul_card_centralizer_le {x : G} (hx : x ∉ Subgroup.center G) :
    2 * Nat.card { y : G // Commute x y } ≤ Nat.card G := by
  have hne : Subgroup.centralizer {x} ≠ ⊤ := by
    intro htop
    apply hx
    rw [Subgroup.mem_center_iff]
    intro y
    have hy : y ∈ Subgroup.centralizer {x} := htop ▸ Subgroup.mem_top y
    exact Subgroup.mem_centralizer_singleton_iff.1 hy
  have hindex : 2 ≤ (Subgroup.centralizer {x}).index := Subgroup.one_lt_index_of_ne_top hne
  have hcard : Nat.card { y : G // Commute x y } = Nat.card (Subgroup.centralizer {x}) := by
    refine Nat.card_congr (Equiv.subtypeEquivRight fun y => ?_)
    rw [Subgroup.mem_centralizer_singleton_iff]
    exact eq_comm
  rw [hcard]
  calc 2 * Nat.card (Subgroup.centralizer {x})
      ≤ (Subgroup.centralizer {x}).index * Nat.card (Subgroup.centralizer {x}) :=
        Nat.mul_le_mul_right _ hindex
    _ = Nat.card G := (Subgroup.centralizer {x}).index_mul_card

/-- **At most 5 of 8 pairs commute.** -/
theorem eight_mul_card_commute_le (h : ¬ ∀ a b : G, a * b = b * a) :
    8 * Nat.card { p : G × G // Commute p.1 p.2 } ≤ 5 * Nat.card G ^ 2 := by
  classical
  have := Fintype.ofFinite G
  -- the pairs, by their first element
  have hsum : Nat.card { p : G × G // Commute p.1 p.2 } = ∑ x : G, Nat.card { y : G // Commute x y } := by
    rw [← Nat.card_sigma]
    exact Nat.card_congr
      { toFun := fun p => ⟨p.1.1, p.1.2, p.2⟩
        invFun := fun q => ⟨(q.1, q.2.1), q.2.2⟩
        left_inv := fun _ => rfl
        right_inv := fun _ => rfl }
  have hterm : ∀ x : G, 2 * Nat.card { y : G // Commute x y } ≤
      Nat.card G + if x ∈ Subgroup.center G then Nat.card G else 0 := by
    intro x
    split
    · have : Nat.card { y : G // Commute x y } ≤ Nat.card G := Finite.card_subtype_le _
      omega
    · next hx => exact two_mul_card_centralizer_le hx
  have hcenter : (∑ x : G, if x ∈ Subgroup.center G then Nat.card G else 0) =
      Nat.card (Subgroup.center G) * Nat.card G := by
    rw [← Finset.sum_filter, Finset.sum_const, smul_eq_mul, ← Nat.card_eq_finsetCard]
    congr 1
    exact Nat.card_congr (Equiv.subtypeEquivRight fun x => by simp)
  have htwo : 2 * Nat.card { p : G × G // Commute p.1 p.2 } ≤
      Nat.card G * Nat.card G + Nat.card (Subgroup.center G) * Nat.card G := by
    calc 2 * Nat.card { p : G × G // Commute p.1 p.2 }
        = ∑ x : G, 2 * Nat.card { y : G // Commute x y } := by rw [hsum, Finset.mul_sum]
      _ ≤ ∑ x : G, (Nat.card G + if x ∈ Subgroup.center G then Nat.card G else 0) :=
        Finset.sum_le_sum fun x _ => hterm x
      _ = Nat.card G * Nat.card G + Nat.card (Subgroup.center G) * Nat.card G := by
        rw [Finset.sum_add_distrib, hcenter, Finset.sum_const, Finset.card_univ, smul_eq_mul,
          Nat.card_eq_fintype_card]
  have hfour : 4 * Nat.card (Subgroup.center G) * Nat.card G ≤ Nat.card G * Nat.card G :=
    Nat.mul_le_mul_right _ (four_mul_card_center_le h)
  rw [Nat.pow_two]
  rw [Nat.mul_assoc] at hfour
  omega

/-- **The 5/8 bound.** -/
theorem commProb_le (h : ¬ ∀ a b : G, a * b = b * a) : commProb G ≤ 5 / 8 := by
  have hpos : (0 : ℚ) < (Nat.card G : ℚ) ^ 2 := by
    have : 0 < Nat.card G := Finite.card_pos
    positivity
  have hle : (8 * Nat.card { p : G × G // Commute p.1 p.2 } : ℚ) ≤ 5 * (Nat.card G : ℚ) ^ 2 := by
    exact_mod_cast eight_mul_card_commute_le h
  rw [commProb_def, div_le_div_iff₀ hpos (by norm_num)]
  linarith

end Commuting
