import Mathlib

/-!
# 32-bit machine integers, checked and wrapping

`CheckedInt` is an `int` that remembers an overflow: an operation whose exact
result is outside of the 32-bit range gives `overflow`, and so does every
operation on `overflow`.  A program run over `CheckedInt` therefore ends in a
value only when no value on the way to it was out of range.  The cast `(x : CheckedInt)`
is `x` when it fits; on numbers that fit, and on numbers that only grow, it
commutes with the operations:

    Fits x → Fits y → (x : CheckedInt) + y = ((x + y : Int) : CheckedInt)        (cast_add)
    0 ≤ x → 0 ≤ y → (x : CheckedInt) + y = ((x + y : Int) : CheckedInt)          (cast_add_of_nonneg)

`WrapInt` is two's complement: every operation is taken modulo `2 ^ 32`, `<` is
the signed comparison.  The cast into it is a ring map; on numbers that fit it keeps
order and is read back as it is:

    Fits x → (x : WrapInt).toInt = x                                 (toInt_cast_of_fits)
-/

namespace MachineInt

/-- The range of `int`. -/
def Fits (x : Int) : Prop := -2 ^ 31 ≤ x ∧ x < 2 ^ 31

instance (x : Int) : Decidable (Fits x) := inferInstanceAs (Decidable (_ ∧ _))

theorem fits_of_abs_le {x b : Int} (h : |x| ≤ b) (hb : b < 2 ^ 31) : Fits x := by
  have := abs_le.1 h
  unfold Fits
  omega

/-! ## Checked integers -/

/-- An `int`, or the mark that one was out of range. -/
inductive CheckedInt
  | val (x : Int) (h : Fits x)
  | overflow
deriving DecidableEq

namespace CheckedInt

/-- `x` when it fits. -/
def ofInt (x : Int) : CheckedInt := if h : Fits x then .val x h else .overflow

instance : IntCast CheckedInt := ⟨ofInt⟩

/-- An operation on values, checked. -/
def lift₂ (f : Int → Int → Int) : CheckedInt → CheckedInt → CheckedInt
  | .val x _, .val y _ => ofInt (f x y)
  | _, _ => .overflow

instance : Add CheckedInt := ⟨lift₂ fun x y => x + y⟩
instance : Sub CheckedInt := ⟨lift₂ fun x y => x - y⟩
instance : Mul CheckedInt := ⟨lift₂ fun x y => x * y⟩

instance : Neg CheckedInt where
  neg
    | .val x _ => ofInt (-x)
    | .overflow => .overflow

/-- `overflow` is above every value, so a maximum keeps it. -/
def lt : CheckedInt → CheckedInt → Bool
  | .val x _, .val y _ => decide (x < y)
  | .val _ _, .overflow => true
  | .overflow, _ => false

instance : LT CheckedInt := ⟨fun a b => lt a b = true⟩
instance : DecidableLT CheckedInt := fun a b => inferInstanceAs (Decidable (lt a b = true))

/-! ### An overflow stays -/

@[simp] theorem overflow_add (a : CheckedInt) : overflow + a = overflow := rfl

@[simp] theorem add_overflow (a : CheckedInt) : a + overflow = overflow := by cases a <;> rfl

@[simp] theorem overflow_mul (a : CheckedInt) : overflow * a = overflow := rfl

@[simp] theorem not_overflow_lt (a : CheckedInt) : ¬ overflow < a := by
  show ¬ lt overflow a = true
  simp [lt]

/-! ### The cast -/

variable {x y : Int}

theorem cast_of_fits (h : Fits x) : (x : CheckedInt) = .val x h := dif_pos h

theorem cast_of_not_fits (h : ¬ Fits x) : (x : CheckedInt) = overflow := dif_neg h

@[simp] theorem cast_eq_overflow : (x : CheckedInt) = overflow ↔ ¬ Fits x := by
  by_cases h : Fits x
  · rw [cast_of_fits h]
    simp [h]
  · rw [cast_of_not_fits h]
    simp [h]

theorem cast_add (hx : Fits x) (hy : Fits y) :
    (x : CheckedInt) + y = ((x + y : Int) : CheckedInt) := by
  rw [cast_of_fits hx, cast_of_fits hy]
  rfl

theorem cast_sub (hx : Fits x) (hy : Fits y) :
    (x : CheckedInt) - y = ((x - y : Int) : CheckedInt) := by
  rw [cast_of_fits hx, cast_of_fits hy]
  rfl

theorem cast_mul (hx : Fits x) (hy : Fits y) :
    (x : CheckedInt) * y = ((x * y : Int) : CheckedInt) := by
  rw [cast_of_fits hx, cast_of_fits hy]
  rfl

theorem cast_neg (hx : Fits x) : -(x : CheckedInt) = ((-x : Int) : CheckedInt) := by
  rw [cast_of_fits hx]
  rfl

theorem cast_lt (hx : Fits x) (hy : Fits y) : (x : CheckedInt) < y ↔ x < y := by
  rw [cast_of_fits hx, cast_of_fits hy]
  show decide (x < y) = true ↔ x < y
  exact decide_eq_true_iff

/-! ### Numbers that only grow -/

theorem cast_add_of_nonneg (hx : 0 ≤ x) (hy : 0 ≤ y) :
    (x : CheckedInt) + y = ((x + y : Int) : CheckedInt) := by
  by_cases hx' : Fits x
  · by_cases hy' : Fits y
    · exact cast_add hx' hy'
    · have hsum : ¬ Fits (x + y) := by unfold Fits at hy' ⊢; omega
      rw [cast_of_not_fits hy', cast_of_not_fits hsum, add_overflow]
  · have hsum : ¬ Fits (x + y) := by unfold Fits at hx' ⊢; omega
    rw [cast_of_not_fits hx', cast_of_not_fits hsum, overflow_add]

theorem cast_mul_self (hx : 0 ≤ x) : (x : CheckedInt) * x = ((x * x : Int) : CheckedInt) := by
  by_cases hx' : Fits x
  · exact cast_mul hx' hx'
  · have hsq : ¬ Fits (x * x) := by
      unfold Fits at hx' ⊢
      have : x ≤ x * x := by nlinarith
      omega
    rw [cast_of_not_fits hx', cast_of_not_fits hsq, overflow_mul]

theorem cast_max_of_nonneg (hx : 0 ≤ x) (hy : 0 ≤ y) :
    (if (x : CheckedInt) < y then (y : CheckedInt) else x) = ((max x y : Int) : CheckedInt) := by
  by_cases hx' : Fits x
  · by_cases hy' : Fits y
    · by_cases hlt : x < y
      · rw [if_pos ((cast_lt hx' hy').2 hlt), max_eq_right hlt.le]
      · rw [if_neg (fun h => hlt ((cast_lt hx' hy').1 h)), max_eq_left (not_lt.1 hlt)]
    · have hle : x ≤ y := by unfold Fits at hx' hy'; omega
      have hlt : (x : CheckedInt) < y := by
        rw [cast_of_fits hx', cast_of_not_fits hy']
        rfl
      rw [if_pos hlt, max_eq_right hle]
  · have hmax : ¬ Fits (max x y) := by unfold Fits at hx' ⊢; omega
    rw [cast_of_not_fits hx', cast_of_not_fits hmax, if_neg (not_overflow_lt _)]

end CheckedInt

/-! ## Wrapping integers -/

/-- An `int` of 32 bits whose operations wrap. -/
def WrapInt : Type := BitVec 32

namespace WrapInt

instance : CommRing WrapInt := inferInstanceAs (CommRing (BitVec 32))

/-- The number it stands for, `-2³¹ ≤ toInt x < 2³¹`. -/
def toInt (x : WrapInt) : Int := BitVec.toInt x

theorem toInt_injective : Function.Injective toInt := fun _ _ h => BitVec.eq_of_toInt_eq h

instance : LinearOrder WrapInt := LinearOrder.lift' toInt toInt_injective

/-! ### The cast -/

variable {x y : Int}

theorem toInt_cast (x : Int) : (x : WrapInt).toInt = x.bmod (2 ^ 32) := BitVec.toInt_ofInt x

theorem toInt_cast_of_fits (h : Fits x) : (x : WrapInt).toInt = x := by
  unfold Fits at h
  rw [toInt_cast]
  exact Int.bmod_eq_of_le_mul_two (by norm_num; omega) (by norm_num; omega)

theorem cast_lt (hx : Fits x) (hy : Fits y) : (x : WrapInt) < y ↔ x < y := by
  show (x : WrapInt).toInt < (y : WrapInt).toInt ↔ x < y
  rw [toInt_cast_of_fits hx, toInt_cast_of_fits hy]

theorem cast_inj (hx : Fits x) (hy : Fits y) : (x : WrapInt) = y ↔ x = y := by
  rw [← toInt_injective.eq_iff, toInt_cast_of_fits hx, toInt_cast_of_fits hy]

end WrapInt

end MachineInt
