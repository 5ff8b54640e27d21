import Mathlib.Algebra.Ring.Defs
import Mathlib.Data.List.FinRange
import PdsSearch.Table

/-!
# Error calculators (`error_calc.h`)

An `ErrorCalc` is the pair of virtual methods `efs` (error from the histogram
`sums` and the candidate list) and `efs_from_member` (the same from the
membership bitmap).  The four calculators share one pair of loops,
`efsWith` and `efsFromMemberWith`; each is that pair at its own way to add a
term (`+`, `std::max`) and its own weight (`t`, `t²`, `t⁴`).

`int` is a type `α` with the operations the code uses, so that the same text
computes over exact integers and over integers that wrap.
-/

namespace PdsSearch

open Checked

section
variable {α : Type} [Add α] [Sub α] [Mul α] [Neg α] [LT α] [DecidableLT α] [IntCast α]

/-- `abs` -/
def cabs (x : α) : α := if x < ((0 : Int) : α) then -x else x

/-- `std::max(a, b)`: `a` unless it is less than `b`. -/
def cmax (a b : α) : α := if a < b then b else a

/-- The virtual methods of a calculator.  The base class is never used as it stands. -/
structure ErrorCalc (α : Type) where
  efs : Dims → List Int → List α → Except Stop α
  efsFromMember : List Bool → Dims → List α → Except Stop α

/-- `efs`: identity, then the candidate list (marking it in `checked`), then every
index that is not marked. -/
def efsWith (op : α → α → α) (weight : α → α) (d : Dims) (mySet : List Int) (sums : List α) :
    Except Stop α := do
  let checked := List.replicate d.n false
  let error := weight (cabs (((d.k : Int) : α) - (← vget sums 0)))
  let (error, checked) ← mySet.foldlM (fun (error, checked) i => do
    let error := op error (weight (cabs ((d.lam : α) - (← vget sums i))))
    let checked ← vset checked i true
    return (error, checked)) (error, checked)
  (List.range' 1 (d.n - 1)).foldlM (fun (error : α) (i : Nat) => do
    if !(← vget checked i) then
      return op error (weight (cabs ((d.mu : α) - (← vget sums i))))
    else return error) error

/-- `efs_from_member`: identity, then one pass over the other indices. -/
def efsFromMemberWith (op : α → α → α) (weight : α → α) (isMember : List Bool) (d : Dims)
    (sums : List α) : Except Stop α := do
  let error := weight (cabs (((d.k : Int) : α) - (← vget sums 0)))
  (List.range' 1 (d.n - 1)).foldlM (fun (error : α) (i : Nat) => do
    if ← vget isMember i then
      return op error (weight (cabs ((d.lam : α) - (← vget sums i))))
    else return op error (weight (cabs ((d.mu : α) - (← vget sums i))))) error

def l1Error : ErrorCalc α where
  efs := efsWith (fun error t => error + t) (fun t => t)
  efsFromMember := efsFromMemberWith (fun error t => error + t) (fun t => t)

def l2Error : ErrorCalc α where
  efs := efsWith (fun error t => error + t) (fun t => t * t)
  efsFromMember := efsFromMemberWith (fun error t => error + t) (fun t => t * t)

def l4Error : ErrorCalc α where
  efs := efsWith (fun error t => error + t) (fun t => (t * t) * (t * t))
  efsFromMember := efsFromMemberWith (fun error t => error + t) (fun t => (t * t) * (t * t))

-- `efs` has `std::max(term, error)`, `efs_from_member` has `std::max(error, term)`
def lInfError : ErrorCalc α where
  efs := efsWith (fun error t => cmax t error) (fun t => t)
  efsFromMember := efsFromMemberWith (fun error t => cmax error t) (fun t => t)

/-- `L1_error`, `L2_error`, `L4_error`, `LInf_error` -/
def calculators : List (ErrorCalc α) := [l1Error, l2Error, l4Error, lInfError]

end

end PdsSearch
