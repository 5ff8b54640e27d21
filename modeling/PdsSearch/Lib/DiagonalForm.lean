import Mathlib.LinearAlgebra.Matrix.Rank
import Mathlib.LinearAlgebra.Matrix.NonsingularInverse
import Mathlib.Data.ZMod.Basic
import Mathlib.Algebra.Field.ZMod
import Mathlib.Tactic

/-!
# Rank from a diagonal form

A diagonal form of an integer matrix is a diagonal matrix that row and column operations
over the integers lead to, the Smith normal form for one.  Read modulo a prime, these
operations are invertible, so

    rank of M modulo p = number of diagonal entries that p does not divide     (rank_modulo)

The matrices need not be square; a diagonal that is too short goes on with zeros.
-/

namespace DiagonalForm

open Matrix

variable {R : Type} {m n : Nat}

/-- The diagonal, as long as a row. -/
def diag [Zero R] (S : Matrix (Fin m) (Fin n) R) (j : Fin n) : R := if h : j.val < m then S ⟨j.val, h⟩ j else 0

def IsDiagonal [Zero R] (S : Matrix (Fin m) (Fin n) R) : Prop := ∀ i j, i.val ≠ j.val → S i j = 0

/-- `S` is diagonal, and row and column operations over the integers lead to it from `M`. -/
structure IsDiagonalForm (M S : Matrix (Fin m) (Fin n) Int) : Prop where
  diagonal : IsDiagonal S
  equivalent : ∃ (P : Matrix (Fin m) (Fin m) Int) (Q : Matrix (Fin n) (Fin n) Int),
    IsUnit P.det ∧ IsUnit Q.det ∧ S = P * M * Q

/-! ## Fields -/

section
variable {K : Type} [Field K] {S : Matrix (Fin m) (Fin n) K}

theorem IsDiagonal.mulVec_eq_zero_iff (h : IsDiagonal S) (x : Fin n → K) :
    S.mulVec x = 0 ↔ ∀ j, diag S j * x j = 0 := by
  have hrow : ∀ i j (_ : i.val = j.val), S.mulVec x i = S i j * x j := by
    intro i j hij
    rw [mulVec, dotProduct]
    refine Finset.sum_eq_single j (fun b _ hb => ?_) fun hj => absurd (Finset.mem_univ j) hj
    rw [h i b fun hib => hb (Fin.ext (hib.symm.trans hij)), zero_mul]
  have hzero : ∀ i, (∀ j : Fin n, i.val ≠ j.val) → S.mulVec x i = 0 := by
    intro i hi
    rw [mulVec, dotProduct]
    exact Finset.sum_eq_zero fun j _ => by rw [h i j (hi j), zero_mul]
  constructor
  · intro hx j
    unfold diag
    by_cases hj : j.val < m
    · rw [dif_pos hj, ← hrow ⟨j.val, hj⟩ j rfl, hx]
      rfl
    · rw [dif_neg hj, zero_mul]
  · intro hx
    funext i
    by_cases hi : i.val < n
    · have hj := hx ⟨i.val, hi⟩
      unfold diag at hj
      rw [dif_pos i.isLt] at hj
      rw [hrow i ⟨i.val, hi⟩ rfl]
      exact hj
    · exact hzero i fun j hij => hi (hij ▸ j.isLt)

/-- It has the kernel of the square diagonal matrix, so its rank. -/
theorem IsDiagonal.rank_eq [DecidableEq K] (h : IsDiagonal S) :
    S.rank = Fintype.card { j : Fin n // diag S j ≠ 0 } := by
  have hker : LinearMap.ker S.mulVecLin = LinearMap.ker (diagonal (diag S)).mulVecLin := by
    ext x
    rw [LinearMap.mem_ker, LinearMap.mem_ker, mulVecLin_apply, mulVecLin_apply, h.mulVec_eq_zero_iff]
    constructor
    · intro hx
      funext j
      rw [mulVec_diagonal]
      exact hx j
    · intro hx j
      rw [← mulVec_diagonal, hx]
      rfl
  have hS := LinearMap.finrank_range_add_finrank_ker S.mulVecLin
  have hD := LinearMap.finrank_range_add_finrank_ker (diagonal (diag S)).mulVecLin
  rw [← rank_diagonal]
  unfold rank
  rw [hker] at hS
  omega

end

/-! ## Primes -/

section
variable {M S : Matrix (Fin m) (Fin n) Int} {p : Nat}

theorem diag_map [Fact p.Prime] (j : Fin n) : diag (S.map (Int.castRingHom (ZMod p))) j = ((diag S j : Int) : ZMod p) := by
  unfold diag
  by_cases hj : j.val < m
  · rw [dif_pos hj, dif_pos hj]
    rfl
  · rw [dif_neg hj, dif_neg hj, Int.cast_zero]

theorem isUnit_det_map {k : Nat} {P : Matrix (Fin k) (Fin k) Int} (h : IsUnit P.det) :
    IsUnit (P.map (Int.castRingHom (ZMod p))).det := by
  rw [← RingHom.mapMatrix_apply, ← RingHom.map_det]
  exact h.map _

/-- **The rank modulo a prime.** -/
theorem IsDiagonalForm.rank_modulo (h : IsDiagonalForm M S) (hp : p.Prime) :
    (M.map (Int.castRingHom (ZMod p))).rank = Fintype.card { j : Fin n // ¬ (p : Int) ∣ diag S j } := by
  have : Fact p.Prime := ⟨hp⟩
  obtain ⟨P, Q, hP, hQ, rfl⟩ := h.equivalent
  have hrank : ((P * M * Q).map (Int.castRingHom (ZMod p))).rank = (M.map (Int.castRingHom (ZMod p))).rank := by
    rw [Matrix.map_mul, Matrix.map_mul, rank_mul_eq_left_of_isUnit_det _ _ (isUnit_det_map hQ),
      rank_mul_eq_right_of_isUnit_det _ _ (isUnit_det_map hP)]
  have hdiag : IsDiagonal ((P * M * Q).map (Int.castRingHom (ZMod p))) := by
    intro i j hij
    rw [Matrix.map_apply, h.diagonal i j hij, map_zero]
  rw [← hrank, hdiag.rank_eq]
  apply Fintype.card_congr
  refine Equiv.subtypeEquivRight fun j => ?_
  rw [diag_map, Ne, ZMod.intCast_zmod_eq_zero_iff_dvd]

end

end DiagonalForm
