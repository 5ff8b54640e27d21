import PdsSearch.Candidate
import PdsSearch.Lib.MachineInt

/-!
# The two methods of a calculator

`search` computes its first error with `efs`, from the list, and every later
one with `efs_from_member`, from the bitmap.  For each calculator, over exact
integers and over integers that wrap, the two are one function:

    Indicates n S isMember → e.efs d S sums = e.efsFromMember isMember d sums
                                                          (efs_eq_efsFromMember)
-/

namespace PdsSearch

open Checked MachineInt

section
variable {α : Type} [CommRing α] [LinearOrder α] {d : Dims}

omit [CommRing α] [LinearOrder α] in
/-- Neither loop starts on an empty histogram. -/
theorem efs_empty [Add α] [Sub α] [Mul α] [Neg α] [LT α] [DecidableLT α] [IntCast α]
    (op : α → α → α) (weight : α → α) (S : List Int) (isMember : List Bool) :
    efsWith op weight d S ([] : List α) = efsFromMemberWith op weight isMember d [] :=
  rfl

/-- Both methods give the norm of the same deviations. -/
theorem efs_agree (e : ErrorCalc α) (he : e ∈ (calculators : List (ErrorCalc α))) (S : List Int)
    (hnd : S.Nodup) (hS : ∀ x ∈ S, 1 ≤ x ∧ x < d.n) (isMember : List Bool)
    (hmem : Indicates d.n S isMember) (sums : List α) (hsums : sums.length = d.n) :
    e.efs d S sums = e.efsFromMember isMember d sums ∧
      (0 < d.n → ∃ err, e.efs d S sums = .ok err) := by
  by_cases hn : 0 < d.n
  · -- no table is involved: any one gives names to the indices
    let T : Table d.n := Table.ofMul fun a _ => a
    obtain ⟨xs, rfl⟩ := T.exists_ints S fun x hx => ⟨by have := hS x hx; omega, (hS x hx).2⟩
    obtain ⟨f, rfl⟩ := T.exists_tab sums hsums
    have h0 : ∀ x ∈ xs, T.idx x ≠ 0 := by
      intro x hx
      have := hS (T.idx x) ((T.idx_mem_ints x xs).2 hx)
      omega
    obtain ⟨norm, hM⟩ := exists_norm T hn e he
    have hefs := hM.efs xs f ((T.nodup_ints xs).1 hnd) h0
    rw [(indicates_ints_iff xs isMember).1 hmem, hefs, hM.efsFromMember]
    exact ⟨rfl, fun _ => ⟨_, rfl⟩⟩
  · obtain ⟨op, weight, -, rfl⟩ := calculators_with e he
    obtain rfl : sums = [] := List.length_eq_zero_iff.1 (by omega)
    exact ⟨efs_empty op weight S isMember, fun h => absurd h hn⟩

end

/-- **`efs` and `efs_from_member` agree**, over exact integers and over integers that wrap modulo
`2 ^ 32`, for every calculator, every histogram and every parameters. -/
theorem efs_eq_efsFromMember (d : Dims) (S : List Int) (hnd : S.Nodup)
    (hS : ∀ x ∈ S, 1 ≤ x ∧ x < d.n) (isMember : List Bool) (hmem : Indicates d.n S isMember) :
    (∀ e ∈ (calculators : List (ErrorCalc Int)), ∀ sums : List Int, sums.length = d.n →
      e.efs d S sums = e.efsFromMember isMember d sums ∧
        (0 < d.n → ∃ err, e.efs d S sums = .ok err)) ∧
    ∀ e ∈ (calculators : List (ErrorCalc WrapInt)), ∀ sums : List WrapInt, sums.length = d.n →
      e.efs d S sums = e.efsFromMember isMember d sums ∧
        (0 < d.n → ∃ err, e.efs d S sums = .ok err) :=
  ⟨fun e he sums hsums => efs_agree e he S hnd hS isMember hmem sums hsums,
    fun e he sums hsums => efs_agree e he S hnd hS isMember hmem sums hsums⟩

/-- A list that is not in order, and targets that no histogram meets. -/
theorem efs_eq_efsFromMember_five :
    (∀ e ∈ (calculators : List (ErrorCalc Int)), ∀ sums : List Int, sums.length = 5 →
      e.efs ⟨5, 7, -2, 3⟩ [4, 1, 2] sums =
          e.efsFromMember [false, true, true, false, true] ⟨5, 7, -2, 3⟩ sums ∧
        (0 < 5 → ∃ err, e.efs ⟨5, 7, -2, 3⟩ [4, 1, 2] sums = .ok err)) ∧
    ∀ e ∈ (calculators : List (ErrorCalc WrapInt)), ∀ sums : List WrapInt, sums.length = 5 →
      e.efs ⟨5, 7, -2, 3⟩ [4, 1, 2] sums =
          e.efsFromMember [false, true, true, false, true] ⟨5, 7, -2, 3⟩ sums ∧
        (0 < 5 → ∃ err, e.efs ⟨5, 7, -2, 3⟩ [4, 1, 2] sums = .ok err) :=
  efs_eq_efsFromMember ⟨5, 7, -2, 3⟩ [4, 1, 2] (by decide) (by decide)
    [false, true, true, false, true] ⟨rfl, by decide⟩

end PdsSearch
