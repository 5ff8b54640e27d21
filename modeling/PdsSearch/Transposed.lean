import PdsSearch.Lib.AnyOrder
import PdsSearch.SearchTools

/-!
# The transposed table

The file of a group may hold `x * y` in row `x` and column `y`, or `y * x`.  The search
counts the products of all pairs of its set, in both orders, so it cannot tell one table
from the other: not its result only, every step is the same, for every table, every error
calculator and every generator.

    localSearch v fuel o d T.transpose.ct rs pos e =
      localSearch v fuel o d T.ct rs pos e                    (localSearch_transpose)

The increments come in another order.  They commute, and so do the two stops of a product
whose factors are both out of range.
-/

namespace PdsSearch

open Checked

/-- The table of `b * a`. -/
def Table.transpose {n : Nat} (T : Table n) : Table n := Table.ofMul fun a b => T.mul b a

/-! ## Products -/

section
variable {n : Nat} (T : Table n)

theorem cell_rangeOnly (ct : List (List Int)) (a b : Int) : RangeOnly (cell ct a b) :=
  (vget_rangeOnly ct a).bind fun row => vget_rangeOnly row b

theorem cell_eq (a b : Int) : cell T.ct a b =
    if h : (0 ≤ a ∧ a.toNat < n) ∧ (0 ≤ b ∧ b.toNat < n) then
      .ok ((T.mul ⟨a.toNat, h.1.2⟩ ⟨b.toNat, h.2.2⟩).val : Int)
    else .error .outOfRange := by
  by_cases h : (0 ≤ a ∧ a.toNat < n) ∧ (0 ≤ b ∧ b.toNat < n)
  · obtain ⟨x, rfl⟩ := T.exists_idx a h.1.1 (by omega)
    obtain ⟨y, rfl⟩ := T.exists_idx b h.2.1 (by omega)
    rw [T.cell_mul, dif_pos h]
    rfl
  · rw [dif_neg h]
    cases hcell : cell T.ct a b with
    | error e => rw [cell_rangeOnly _ _ _ e hcell]
    | ok x =>
      -- both reads came back, so both indices are in range
      obtain ⟨row, hrow, hx⟩ := exists_of_bind hcell
      obtain ⟨ha, hrow⟩ := (vget_eq_ok_iff _ _ _).1 hrow
      obtain ⟨hb, hx⟩ := (vget_eq_ok_iff _ _ _).1 hx
      obtain ⟨halt, rfl⟩ := List.getElem?_eq_some_iff.1 hrow
      obtain ⟨hblt, -⟩ := List.getElem?_eq_some_iff.1 hx
      rw [T.row_length] at hblt
      rw [T.rows] at halt
      exact absurd ⟨⟨ha, halt⟩, ⟨hb, hblt⟩⟩ h

theorem cell_transpose (a b : Int) : cell T.transpose.ct a b = cell T.ct b a := by
  rw [cell_eq, cell_eq]
  by_cases h : (0 ≤ a ∧ a.toNat < n) ∧ (0 ≤ b ∧ b.toNat < n)
  · rw [dif_pos h, dif_pos h.symm]
    unfold Table.transpose
    rw [Table.mul_ofMul]
  · rw [dif_neg h, dif_neg fun h' => h h'.symm]

/-- `ct[x][y]`, the indices being read. -/
def product (ct : List (List Int)) (x y : Except Stop Int) : Except Stop Int := do
  cell ct (← x) (← y)

theorem product_rangeOnly (ct : List (List Int)) {x y : Except Stop Int} (hx : RangeOnly x) (hy : RangeOnly y) :
    RangeOnly (product ct x y) :=
  hx.bind fun a => hy.bind fun b => cell_rangeOnly ct a b

theorem product_transpose {x y : Except Stop Int} (hx : RangeOnly x) (hy : RangeOnly y) :
    product T.transpose.ct x y = product T.ct y x := by
  cases x with
  | error e =>
    obtain rfl := hx e rfl
    cases y with
    | error e' =>
      obtain rfl := hy e' rfl
      rfl
    | ok b => rfl
  | ok a =>
    cases y with
    | error e => rfl
    | ok b => exact cell_transpose T a b

end

/-! ## The sums -/

section
variable {α : Type}

theorem addAt_comm [Add α] {x y : Except Stop Int} (hx : RangeOnly x) (hy : RangeOnly y) (c : α) :
    RoundsCommute (fun sums => x >>= fun i => addAt sums i c) fun sums => y >>= fun j => addAt sums j c :=
  update_comm (fun _ => rfl) hx hy

theorem subAt_comm [Sub α] {x y : Except Stop Int} (hx : RangeOnly x) (hy : RangeOnly y) (c : α) :
    RoundsCommute (fun sums => x >>= fun i => subAt sums i c) fun sums => y >>= fun j => subAt sums j c :=
  update_comm (fun _ => rfl) hx hy

variable {n : Nat} (T : Table n) (d : Dims)

theorem tally_transpose [Add α] [IntCast α] (mySet : List Int) (sums : List α) :
    tally d T.transpose.ct mySet sums = tally d T.ct mySet sums := by
  have hget := vget_rangeOnly mySet
  have heq : ∀ (ct : List (List Int)), tally d ct mySet sums = (List.range d.k).foldlM (fun sums (i : Nat) =>
      (List.range d.k).foldlM (fun sums (j : Nat) =>
        product ct (vget mySet i) (vget mySet j) >>= fun x => addAt sums x ((1 : Int) : α)) sums) sums := by
    intro ct
    unfold tally product
    simp only [bind_assoc]
  rw [heq, heq]
  simp only [product_transpose T (hget _) (hget _)]
  exact foldlM_swap (fun i j i' j' => addAt_comm (product_rangeOnly T.ct (hget _) (hget _))
    (product_rangeOnly T.ct (hget _) (hget _)) _) List.nodup_range List.nodup_range sums

theorem error_transpose [Add α] [IntCast α] (mySet : List Int) (e : ErrorCalc α) :
    error d T.transpose.ct mySet e = error d T.ct mySet e := by
  unfold error
  rw [tally_transpose]

theorem calculateStartingError_transpose [Add α] [IntCast α] (mySet : List Int) (sums : List α) (e : ErrorCalc α) :
    calculateStartingError d T.transpose.ct mySet sums e = calculateStartingError d T.ct mySet sums e := by
  unfold calculateStartingError
  rw [tally_transpose]

/-- A round of the loop of `adjust_sums`. -/
def sumsRound [Add α] [Sub α] (fac : α) (da ad db bd : Except Stop Int) (sums : List α) : Except Stop (List α) := do
  let sums ← da >>= fun x => subAt sums x fac
  let sums ← ad >>= fun x => subAt sums x fac
  let sums ← db >>= fun x => addAt sums x fac
  bd >>= fun x => addAt sums x fac

theorem sumsRound_comm [Add α] [Sub α] (fac : α) {da ad db bd : Except Stop Int} (hda : RangeOnly da)
    (had : RangeOnly ad) (hdb : RangeOnly db) (hbd : RangeOnly bd) (sums : List α) :
    sumsRound fac da ad db bd sums = sumsRound fac ad da bd db sums := by
  unfold sumsRound
  refine ((subAt_comm hda had fac).bind sums _).trans ?_
  exact bind_congr fun sums => bind_congr fun sums => addAt_comm hdb hbd fac sums

theorem adjustSums_eq [Add α] [Sub α] (ct : List (List Int)) (mySet : List Int) (sums : List α)
    (mutation : Int × Int) (fac : α) : adjustSums d ct mySet sums mutation fac = (do
      let a := vget mySet mutation.1
      let b := Except.ok mutation.2
      let sums ← (List.range d.k).foldlM (fun sums (i : Nat) =>
        sumsRound fac (product ct (vget mySet i) a) (product ct a (vget mySet i)) (product ct (vget mySet i) b)
          (product ct b (vget mySet i)) sums) sums
      let sums ← product ct a a >>= fun x => addAt sums x fac
      let sums ← product ct b b >>= fun x => addAt sums x fac
      let sums ← product ct a b >>= fun x => subAt sums x fac
      product ct b a >>= fun x => subAt sums x fac) := by
  unfold adjustSums sumsRound product
  simp only [bind_assoc, ok_bind]

theorem adjustSums_transpose [Add α] [Sub α] (mySet : List Int) (sums : List α) (mutation : Int × Int) (fac : α) :
    adjustSums d T.transpose.ct mySet sums mutation fac = adjustSums d T.ct mySet sums mutation fac := by
  have hget := vget_rangeOnly mySet
  have hnew : RangeOnly (Except.ok mutation.2 : Except Stop Int) := fun e h => nomatch h
  have hproduct : ∀ {x y : Except Stop Int}, RangeOnly x → RangeOnly y → _ := product_rangeOnly T.ct
  rw [adjustSums_eq, adjustSums_eq]
  simp only [product_transpose T (hget _) (hget _), product_transpose T (hget _) hnew,
    product_transpose T hnew (hget _), product_transpose T hnew hnew]
  have hround : ∀ (sums : List α) (i : Nat), _ := fun sums i =>
    sumsRound_comm fac (hproduct (hget mutation.1) (hget i)) (hproduct (hget i) (hget mutation.1))
      (hproduct hnew (hget i)) (hproduct (hget i) hnew) sums
  simp only [hround]
  refine bind_congr fun sums => bind_congr fun sums => bind_congr fun sums => ?_
  exact subAt_comm (hproduct hnew (hget _)) (hproduct (hget _) hnew) fac sums

/-! ## The search -/

theorem initSearch_transpose [Add α] [IntCast α] (fuel : Nat) (rs : Nat → Nat) (pos : Nat) (e : ErrorCalc α) :
    initSearch fuel d T.transpose.ct rs pos e = initSearch fuel d T.ct rs pos e := by
  unfold initSearch
  simp only [calculateStartingError_transpose]

variable [Add α] [Sub α] [LT α] [DecidableLT α] [IntCast α]

theorem tryMutation_transpose (e : ErrorCalc α) (s : St α) (mutation : Int × Int) :
    tryMutation d T.transpose.ct e s mutation = tryMutation d T.ct e s mutation := by
  unfold tryMutation
  simp only [adjustSums_transpose]

/-- **Step lemma.** -/
theorem searchStep_transpose (v : Variant) (o : ArgOrder) (rs : Nat → Nat) (e : ErrorCalc α) (c : Cfg α) :
    searchStep v o d T.transpose.ct rs e c = searchStep v o d T.ct rs e c := by
  cases c with
  | outer s => rfl
  | inner s initialMutation mutation firstTime =>
    simp only [searchStep, tryMutation_transpose]

/-! ## Top theorem -/

/-- **The search cannot tell a table from its transpose.**  `search` and `search_old` make the same
steps on both, stop included, whatever the table, the calculator and the generator. -/
theorem localSearch_transpose (v : Variant) (fuel : Nat) (o : ArgOrder) (rs : Nat → Nat) (pos : Nat)
    (e : ErrorCalc α) :
    localSearch v fuel o d T.transpose.ct rs pos e = localSearch v fuel o d T.ct rs pos e := by
  unfold localSearch searchMachine
  rw [initSearch_transpose, funext (searchStep_transpose T d v o rs e)]

end

end PdsSearch
