import PdsSearch.ErrorSpec
import PdsSearch.Lib.CommutingPairs

/-!
# The commuting probability (`prob_commute`, `search_tools.h`)

The double loop counts the pairs of indices that commute, whatever the table
(`numCommute_eq`), so its quotient is the commuting probability of the table's
product (`probCommute_eq`).  Over the table of a group `G`, in any numbering,

    numCommute T.ct = .ok (n · number of conjugacy classes of G)   (probCommute_conjClasses)
-/

namespace PdsSearch

open Checked

/-! ## Algorithm -/

/-- The loops of `prob_commute`: for each pair of elements, add 1 if they commute. -/
def numCommute (ct : List (List Int)) : Except Stop Nat :=
  (List.range ct.length).foldlM (fun num (i : Nat) =>
    (List.range ct.length).foldlM (fun num (j : Nat) => do
      if (← cell ct i j) = (← cell ct j i) then return num + 1
      else return num) num) 0

/-- `prob_commute`, its quotient exact -/
def probCommute (ct : List (List Int)) : Except Stop ℚ := do
  let num ← numCommute ct
  return (num : ℚ) / ((ct.length * ct.length : Nat) : ℚ)

/-! ## Lemmas -/

section
variable {n : Nat} (T : Table n)

/-- **A loop over all indices** that adds `t x` in the round of `x`. -/
theorem foldlM_add (f : Nat → Int → Except Stop Nat) (t : T.Elem → Nat)
    (h : ∀ num x, f num (T.idx x) = .ok (num + t x)) (num : Nat) :
    (List.range n).foldlM (fun num (i : Nat) => f num (i : Int)) num = .ok (num + ∑ x, t x) := by
  have hloop := foldlM_conc id (fun num (x : Fin n) => f num (x.val : Int)) (fun num x => num + t x)
    (List.finRange n) num fun num x _ => h num x
  have hsum : ((List.finRange n).map fun x : Fin n => t x).sum = ∑ x, t x :=
    (Fin.sum_univ_def (n := n) t).symm
  rw [foldl_add_sum (fun x : Fin n => t x), hsum] at hloop
  rw [← List.map_coe_finRange_eq_range, List.foldlM_map]
  exact hloop

/-- The row of `x`. -/
theorem numCommute_row (x : T.Elem) (num : Nat) :
    (List.range n).foldlM (fun num (j : Nat) => do
      if (← cell T.ct (T.idx x) j) = (← cell T.ct j (T.idx x)) then return num + 1
      else return num) num =
      (.ok (num + ∑ y : T.Elem, if x * y = y * x then 1 else 0) : Except Stop Nat) := by
  refine foldlM_add T (fun num j => do
    if (← cell T.ct (T.idx x) j) = (← cell T.ct j (T.idx x)) then return num + 1
    else return num) _ (fun num y => ?_) num
  simp only [T.cell_mul, ok_bind, pure_eq_ok, T.idx_inj]
  split <;> rfl

/-- **The loops count the pairs that commute.** -/
theorem numCommute_eq :
    numCommute T.ct = .ok (Nat.card { p : T.Elem × T.Elem // Commute p.1 p.2 }) := by
  have hcount : Nat.card { p : T.Elem × T.Elem // Commute p.1 p.2 } =
      ∑ x : T.Elem, ∑ y : T.Elem, if x * y = y * x then 1 else 0 := by
    show Nat.card { p : T.Elem × T.Elem // p.1 * p.2 = p.2 * p.1 } = _
    rw [Nat.card_eq_fintype_card, Fintype.card_subtype, Finset.card_filter, Fintype.sum_prod_type]
  have hloop := foldlM_add T (fun num i => (List.range n).foldlM (fun num (j : Nat) => do
    if (← cell T.ct i j) = (← cell T.ct j i) then return num + 1
    else return num) num) _ (fun num x => numCommute_row T x num) 0
  unfold numCommute
  rw [T.rows, hcount, hloop, Nat.zero_add]

/-- **The quotient is the commuting probability** of the table's product. -/
theorem probCommute_eq : probCommute T.ct = .ok (commProb T.Elem) := by
  have hcard : Nat.card T.Elem = n := by
    rw [Nat.card_eq_fintype_card]
    exact Fintype.card_fin n
  unfold probCommute
  rw [numCommute_eq, ok_bind, commProb_def, hcard, T.rows, Nat.cast_mul, sq]
  rfl

end

/-! ## Top theorem -/

/-- **`prob_commute` measures how abelian the group is.**  Let the product of the table `T` be
that of a group `G`, in any numbering `f` of its elements.  The pairs counted are the order
times the number of conjugacy classes; the result is 1 exactly for abelian groups, 5/8 at most
for the others, and the same for every table with an isomorphic product. -/
theorem probCommute_conjClasses {n : Nat} (T : Table n) {G : Type} [Group G] (f : T.Elem ≃* G) :
    numCommute T.ct = .ok (n * Nat.card (ConjClasses G)) ∧
    ∃ q : ℚ, probCommute T.ct = .ok q ∧
      (q = 1 ↔ ∀ a b : G, a * b = b * a) ∧
      ((¬ ∀ a b : G, a * b = b * a) → q ≤ 5 / 8) ∧
      ∀ (n' : Nat) (T' : Table n'), Nonempty (T'.Elem ≃* T.Elem) → probCommute T'.ct = .ok q := by
  have hfin : Finite G := Finite.of_equiv T.Elem f.toEquiv
  have hcard : Nat.card G = n := by
    rw [← Nat.card_congr f.toEquiv, Nat.card_eq_fintype_card]
    exact Fintype.card_fin n
  refine ⟨?_, commProb T.Elem, probCommute_eq T, ?_, ?_, ?_⟩
  · rw [numCommute_eq, Commuting.card_commute_congr f, card_comm_eq_card_conjClasses_mul_card, hcard,
      Nat.mul_comm]
  · rw [Commuting.commProb_congr f, commProb_eq_one_iff]
    constructor
    · intro h a b
      exact mul_comm' a b
    · intro h
      exact ⟨⟨h⟩⟩
  · intro h
    rw [Commuting.commProb_congr f]
    exact Commuting.commProb_le h
  · rintro n' T' ⟨g⟩
    rw [probCommute_eq, Commuting.commProb_congr g]

/-- The symmetric group of degree 3: three classes, so 18 of 36 pairs. -/
example : numCommute [[0, 1, 2, 3, 4, 5], [1, 2, 0, 5, 3, 4], [2, 0, 1, 4, 5, 3], [3, 4, 5, 0, 1, 2],
    [4, 5, 3, 2, 0, 1], [5, 3, 4, 1, 2, 0]] = .ok 18 := by decide

end PdsSearch
