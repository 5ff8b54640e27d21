import PdsSearch.ErrorCalc
import PdsSearch.Lib.Machine

/-!
# The local search (`search_tools.h`)

The functions of the header in its order, every array access checked.  The
random generator is a stream `rs` and the number `pos` of values drawn so far.

The two nested loops of `search` and `search_old` are a `Machine`: its
configurations are the states at the head of the outer and of the inner loop
(`Cfg.outer`, `Cfg.inner`), a step is one round entered, one iteration of the
inner loop, or a loop left.  The two functions differ in how a round starts
(`Variant.enter`): `search` begins at the initial pair under a first-time flag,
`search_old` at the pair after it.
-/

namespace PdsSearch

open Checked

/-! ## Start set -/

/-- The inner loop of `select_start_set`: draw until the value is new and not zero. -/
def drawMember (d : Dims) (rs : Nat → Nat) (isMember : List Bool) :
    Nat → Int → Nat → Except Stop (Int × Nat)
  | 0, _, _ => .error .timeout
  | fuel + 1, newMember, pos => do
    if (← vget isMember newMember) || newMember == 0 then
      let r ← rem (rs pos) (d.n - 1)
      drawMember d rs isMember fuel ((r : Int) + 1) (pos + 1)
    else return (newMember, pos)

/-- The loop body of `select_start_set`; `newMember` is carried over from element to element. -/
def selectStep (fuel : Nat) (d : Dims) (rs : Nat → Nat)
    (s : Int × List Int × List Bool × Nat) (i : Nat) :
    Except Stop (Int × List Int × List Bool × Nat) := do
  let (newMember, mySet, isMember, pos) := s
  let (newMember, pos) ← drawMember d rs isMember fuel newMember pos
  let mySet ← vset mySet i newMember
  let isMember ← vset isMember (← vget mySet i) true
  return (newMember, mySet, isMember, pos)

/-- `select_start_set` -/
def selectStartSet (fuel : Nat) (d : Dims) (rs : Nat → Nat) (pos : Nat) (mySet : List Int)
    (isMember : List Bool) : Except Stop (List Int × List Bool × Nat) := do
  let (_, mySet, isMember, pos) ←
    (List.range d.k).foldlM (selectStep fuel d rs) ((0 : Int), mySet, isMember, pos)
  return (mySet, isMember, pos)

section
variable {α : Type} [Add α] [Sub α] [Mul α] [Neg α] [LT α] [DecidableLT α] [IntCast α]

/-! ## Errors and histograms -/

/-- `sums[x] += c` -/
def addAt (sums : List α) (x : Int) (c : α) : Except Stop (List α) := vmod sums x fun s => s + c

/-- `sums[x] -= c` -/
def subAt (sums : List α) (x : Int) (c : α) : Except Stop (List α) := vmod sums x fun s => s - c

/-- The double loop of `error` and `calculate_starting_error`: count every product. -/
def tally (d : Dims) (ct : List (List Int)) (mySet : List Int) (sums : List α) :
    Except Stop (List α) :=
  (List.range d.k).foldlM (fun sums (i : Nat) =>
    (List.range d.k).foldlM (fun sums (j : Nat) => do
      addAt sums (← cell ct (← vget mySet i) (← vget mySet j)) ((1 : Int) : α)) sums) sums

/-- `error` -/
def error (d : Dims) (ct : List (List Int)) (mySet : List Int) (e : ErrorCalc α) :
    Except Stop α := do
  let sums ← tally d ct mySet (List.replicate d.n ((0 : Int) : α))
  e.efs d mySet sums

/-- `increment`: next value, with carry into the position; value `0` is skipped. -/
def increment (d : Dims) (a : Int × Int) : Int × Int :=
  if a.2 = (d.n : Int) - 1 ∧ a.1 = (d.k : Int) - 1 then (0, 1)
  else if a.2 = (d.n : Int) - 1 then (a.1 + 1, 1)
  else (a.1, a.2 + 1)

/-- `calculate_starting_error`: the error, and the histogram left in `sums`. -/
def calculateStartingError (d : Dims) (ct : List (List Int)) (mySet : List Int) (sums : List α)
    (e : ErrorCalc α) : Except Stop (α × List α) := do
  let sums ← tally d ct mySet sums
  return (← e.efs d mySet sums, sums)

/-- `adjust_sums`: `(D-a+b)² = D²-Da+Db-aD+a²-ab+bD-ba+b²`. -/
def adjustSums (d : Dims) (ct : List (List Int)) (mySet : List Int) (sums : List α)
    (mutation : Int × Int) (fac : α) : Except Stop (List α) := do
  -- -Da - aD + bD + Db
  let sums ← (List.range d.k).foldlM (fun sums (i : Nat) => do
    let sums ← subAt sums (← cell ct (← vget mySet i) (← vget mySet mutation.1)) fac
    let sums ← subAt sums (← cell ct (← vget mySet mutation.1) (← vget mySet i)) fac
    let sums ← addAt sums (← cell ct (← vget mySet i) mutation.2) fac
    addAt sums (← cell ct mutation.2 (← vget mySet i)) fac) sums
  -- a²
  let sums ← addAt sums (← cell ct (← vget mySet mutation.1) (← vget mySet mutation.1)) fac
  -- b²
  let sums ← addAt sums (← cell ct mutation.2 mutation.2) fac
  -- -ab - ba
  let sums ← subAt sums (← cell ct (← vget mySet mutation.1) mutation.2) fac
  subAt sums (← cell ct mutation.2 (← vget mySet mutation.1)) fac

/-! ## The search -/

/-- C++ leaves open which of the two draws of a round comes first. -/
inductive ArgOrder
  | leftFirst
  | rightFirst
deriving DecidableEq, Repr

/-- `initial_mutation(rand_gen()%d.k, rand_gen()%(d.n-1)+1)` -/
def drawMutation (o : ArgOrder) (d : Dims) (rs : Nat → Nat) (pos : Nat) :
    Except Stop ((Int × Int) × Nat) :=
  match o with
  | .leftFirst => do
    let i ← rem (rs pos) d.k
    let v ← rem (rs (pos + 1)) (d.n - 1)
    return (((i : Int), (v : Int) + 1), pos + 2)
  | .rightFirst => do
    let v ← rem (rs pos) (d.n - 1)
    let i ← rem (rs (pos + 1)) d.k
    return (((i : Int), (v : Int) + 1), pos + 2)

/-- The local variables that live through both loops. -/
structure St (α : Type) where
  mySet : List Int
  isMember : List Bool
  sums : List α
  curError : α
  realSteps : Nat
  changedVal : Bool
  newError : α
  /-- random values drawn so far -/
  pos : Nat

/-- The head of the outer loop, or of the inner loop with its own variables. -/
inductive Cfg (α : Type)
  | outer (s : St α)
  | inner (s : St α) (initialMutation mutation : Int × Int) (firstTime : Bool)

/-- The returned pair, and the generator's position. -/
structure Outcome (α : Type) where
  set : List Int
  err : α
  pos : Nat
deriving DecidableEq, Repr

/-- What an observer sees: a round entered (with its candidate list and initial pair), and
what each iteration of the inner loop did with its pair. -/
inductive Event (α : Type)
  | round (mySet : List Int) (initialMutation : Int × Int)
  | skip (mutation : Int × Int)
  | reject (mutation : Int × Int) (newError : α)
  | swap (mutation : Int × Int) (newError : α)
deriving DecidableEq, Repr

/-- `search` or `search_old` -/
inductive Variant
  | new
  | old
deriving DecidableEq, Repr

/-- The first pair of a round and the first-time flag (`search_old` has none: never set). -/
def Variant.enter (v : Variant) (d : Dims) (initialMutation : Int × Int) : (Int × Int) × Bool :=
  match v with
  | .new => (initialMutation, true)
  | .old => (increment d initialMutation, false)

/-- What an iteration of the inner loop found. -/
inductive Verdict
  | member
  | rejected
  | accepted
deriving DecidableEq, Repr

/-- The body of the inner loop up to `increment`. -/
def tryMutation (d : Dims) (ct : List (List Int)) (e : ErrorCalc α) (s : St α)
    (mutation : Int × Int) : Except Stop (St α × Verdict) := do
  if !(← vget s.isMember mutation.2) then
    let sums ← adjustSums d ct s.mySet s.sums mutation ((1 : Int) : α)
    let isMember ← vset s.isMember (← vget s.mySet mutation.1) false
    let isMember ← vset isMember mutation.2 true
    let newError ← e.efsFromMember isMember d sums
    if newError < s.curError then
      let mySet ← vset s.mySet mutation.1 mutation.2
      return ({ s with mySet, isMember, sums, newError, curError := newError,
                       realSteps := s.realSteps + 1, changedVal := true }, .accepted)
    else
      -- undo the mutation and the membership change
      let sums ← adjustSums d ct s.mySet sums mutation ((-1 : Int) : α)
      let isMember ← vset isMember (← vget s.mySet mutation.1) true
      let isMember ← vset isMember mutation.2 false
      return ({ s with isMember, sums, newError }, .rejected)
  else return (s, .member)

/-- One step of the loops. -/
def searchStep (v : Variant) (o : ArgOrder) (d : Dims) (ct : List (List Int)) (rs : Nat → Nat)
    (e : ErrorCalc α) : Cfg α → Except Stop (Next (Cfg α) (Event α) (Outcome α))
  | .outer s => do
    if ((0 : Int) : α) < s.curError ∧ s.changedVal then
      let (initialMutation, pos) ← drawMutation o d rs s.pos
      let (mutation, firstTime) := v.enter d initialMutation
      return .goto [.round s.mySet initialMutation]
        (.inner { s with changedVal := false, pos } initialMutation mutation firstTime)
    else return .halt ⟨s.mySet, s.curError, s.pos⟩
  | .inner s initialMutation mutation firstTime => do
    if mutation ≠ initialMutation ∨ firstTime then
      match ← tryMutation d ct e s mutation with
      | (s, .accepted) => return .goto [.swap mutation s.newError] (.outer s)
      | (s, .rejected) =>
        return .goto [.reject mutation s.newError]
          (.inner s initialMutation (increment d mutation) false)
      | (s, .member) =>
        return .goto [.skip mutation] (.inner s initialMutation (increment d mutation) false)
    else return .goto [] (.outer s)

def searchMachine (v : Variant) (o : ArgOrder) (d : Dims) (ct : List (List Int)) (rs : Nat → Nat)
    (e : ErrorCalc α) : Machine (Cfg α) (Event α) (Outcome α) :=
  ⟨searchStep v o d ct rs e⟩

/-- The declarations before the loops. -/
def initSearch (fuel : Nat) (d : Dims) (ct : List (List Int)) (rs : Nat → Nat) (pos : Nat)
    (e : ErrorCalc α) : Except Stop (St α) := do
  let mySet := List.replicate d.k (-1)
  let isMember := List.replicate d.n false
  let (mySet, isMember, pos) ← selectStartSet fuel d rs pos mySet isMember
  let (curError, sums) ← calculateStartingError d ct mySet (List.replicate d.n ((0 : Int) : α)) e
  return { mySet, isMember, sums, curError, realSteps := 0, changedVal := true,
           newError := ((0 : Int) : α), pos }

/-- `search` or `search_old` from generator position `pos`, with what an observer sees. -/
def localSearch (v : Variant) (fuel : Nat) (o : ArgOrder) (d : Dims) (ct : List (List Int))
    (rs : Nat → Nat) (pos : Nat) (e : ErrorCalc α) : Except Stop (Outcome α × List (Event α)) := do
  let s ← initSearch fuel d ct rs pos e
  (searchMachine v o d ct rs e).exec fuel (.outer s)

/-- `search` -/
def search (fuel : Nat) (o : ArgOrder) (d : Dims) (ct : List (List Int)) (rs : Nat → Nat)
    (pos : Nat) (e : ErrorCalc α) : Except Stop (Outcome α) :=
  Prod.fst <$> localSearch .new fuel o d ct rs pos e

/-- `search_old` -/
def searchOld (fuel : Nat) (o : ArgOrder) (d : Dims) (ct : List (List Int)) (rs : Nat → Nat)
    (pos : Nat) (e : ErrorCalc α) : Except Stop (Outcome α) :=
  Prod.fst <$> localSearch .old fuel o d ct rs pos e

end

end PdsSearch
