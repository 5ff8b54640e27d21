import PdsSearch.Lib.MachineInt
import PdsSearch.SearchTools
import PdsSearch.TableFile

/-!
# The search over all groups (`searchMany.cpp`)

One task is one parameter tuple `d` and one group `gid` of order `d.n`: load the
table, run `search` up to `NUM_TRIALS` times, and print one line, piece by
piece, while the mutex is held.  The `int`s of the errors and of `NUM_TRIALS` are
`WrapInt`.  The line starts the same way whether a set was found or not
(`resultHead`):

    PDS(n,k,lam,mu) SmGrp(n,gid): 1 4 .Tri: 2
    PDS(n,k,lam,mu) SmGrp(n,gid): None in Tri: 125
-/

namespace PdsSearch

open Checked Text MachineInt

/-! ## Trials -/

/-- `NUM_TRIALS = MULTIPLIER * d.n * d.n` -/
def numTrials (multiplier : Int) (d : Dims) : Int :=
  ((multiplier : WrapInt) * ((d.n : Int) : WrapInt) * ((d.n : Int) : WrapInt)).toInt

section
variable {α : Type} [Add α] [Sub α] [Mul α] [Neg α] [LT α] [DecidableLT α] [IntCast α] [DecidableEq α]

/-- The loop over the trials, with `m` of them left: the set, sorted, and the number of the
trial that found it. -/
def trialLoop (e : ErrorCalc α) (fuel : Nat) (o : ArgOrder) (d : Dims) (ct : List (List Int))
    (rs : Nat → Nat) : Nat → Nat → Nat → Except Stop (Option (List Int × Nat))
  | 0, _, _ => return none
  | m + 1, i, pos => do
    let result ← search fuel o d ct rs pos e
    if result.err = ((0 : Int) : α) then return some (result.set.insertionSort (· ≤ ·), i + 1)
    else trialLoop e fuel o d ct rs m (i + 1) result.pos

end

/-- What the inner loop body finds in group `gid`.  A failed read leaves the entries of the
table undefined. -/
def groupTask (files : Str → Option Str) (fuel : Nat) (o : ArgOrder) (multiplier : Int) (d : Dims)
    (gid : Nat) (rs : Nat → Nat) : Except Stop (Option (List Int × Nat)) :=
  match (files (tableName d.n gid)).bind (loadTable d.n) with
  | some ct => trialLoop (l2Error : ErrorCalc WrapInt) fuel o d ct rs (numTrials multiplier d).toNat 0 0
  | none => .error .undefinedRead

/-! ## Output -/

/-- What both kinds of line start with, in the pieces given to `std::cout`. -/
def resultHead (d : Dims) (gid : Nat) : List Str :=
  ["PDS(".toList, printInt d.n, ",".toList, printInt d.k, ",".toList, printInt d.lam, ",".toList,
    printInt d.mu, ")".toList, " SmGrp(".toList, printInt d.n, ",".toList, printInt gid,
    "): ".toList]

/-- The print section of a task, between `m.lock()` and `m.unlock()`. -/
def printSection (multiplier : Int) (d : Dims) (gid : Nat) : Option (List Int × Nat) → List Str
  | some (resultSet, trial) =>
    resultHead d gid ++ (resultSet.flatMap fun x => [printInt x, " ".toList]) ++
      [".".toList, "Tri: ".toList, printInt trial, "\n".toList]
  | none =>
    resultHead d gid ++
      ["None in Tri: ".toList, printInt (numTrials multiplier d), "\n".toList]

/-- The line of a task. -/
def resultLine (multiplier : Int) (d : Dims) (gid : Nat) (result : Option (List Int × Nat)) : Str :=
  (printSection multiplier d gid result).flatten

/-! ## Lemmas -/

/-- `n,k,lam,mu` -/
def dimsText (d : Dims) : Str := [','].intercalate ([(d.n : Int), d.k, d.lam, d.mu].map printInt)

/-- `n,gid` -/
def groupText (d : Dims) (gid : Nat) : Str := [','].intercalate ([(d.n : Int), (gid : Int)].map printInt)

/-- What follows the head of a line, up to its newline. -/
def resultTail (multiplier : Int) (d : Dims) : Option (List Int × Nat) → Str
  | some (resultSet, trial) => spaced resultSet ++ ".Tri: ".toList ++ printInt trial
  | none => "None in Tri: ".toList ++ printInt (numTrials multiplier d)

theorem resultHead_flatten (d : Dims) (gid : Nat) : (resultHead d gid).flatten =
    "PDS(".toList ++ (dimsText d ++ (") SmGrp(".toList ++ (groupText d gid ++ "): ".toList))) := by
  have hmid : ")".toList ++ " SmGrp(".toList = ") SmGrp(".toList := rfl
  rw [← hmid]
  unfold resultHead dimsText groupText
  simp only [List.flatten_cons, List.flatten_nil, List.map_cons, List.map_nil,
    List.intercalate_cons_cons, List.intercalate_singleton, List.append_assoc, List.append_nil]
  rfl

/-- The line, part by part. -/
theorem resultLine_eq (multiplier : Int) (d : Dims) (gid : Nat) (result : Option (List Int × Nat)) :
    resultLine multiplier d gid result =
      "PDS(".toList ++ (dimsText d ++ (") SmGrp(".toList ++ (groupText d gid ++ ("): ".toList ++
        (resultTail multiplier d result ++ ['\n']))))) := by
  have hspaced : ∀ xs : List Int, (xs.flatMap fun x => [printInt x, " ".toList]).flatten = spaced xs := by
    intro xs
    induction xs with
    | nil => rfl
    | cons x xs ih =>
      rw [List.flatMap_cons, List.flatten_append, ih]
      rfl
  unfold resultLine printSection resultTail
  cases result with
  | none =>
    simp only [List.flatten_append, resultHead_flatten, List.flatten_cons, List.flatten_nil,
      List.append_assoc, List.append_nil]
    rfl
  | some r =>
    simp only [List.flatten_append, resultHead_flatten, hspaced, List.flatten_cons, List.flatten_nil,
      List.append_assoc, List.append_nil]
    rfl

/-- Any other character does not occur between the parentheses. -/
theorem notMem_dimsText {c : Char} (h1 : c.isDigit = false) (h2 : c ≠ '-') (h3 : c ≠ ',') (d : Dims) :
    c ∉ dimsText d :=
  notMem_intercalate h1 h2 h3 _

theorem notMem_groupText {c : Char} (h1 : c.isDigit = false) (h2 : c ≠ '-') (h3 : c ≠ ',') (d : Dims)
    (gid : Nat) : c ∉ groupText d gid :=
  notMem_intercalate h1 h2 h3 _

end PdsSearch
