import PdsSearch.Lib.ParallelFor
import PdsSearch.Streams
import PdsSearch.TrialRuns

/-!
# The search in one group (`search.cpp`, `search_parallel.cpp`, `test_real_pds.cpp`)

Both programs read one table and make `NUM_TRIALS` searches.  `search.cpp` makes them one
after the other with one generator; `search_parallel.cpp` makes them in parallel, each with
a generator of its own, and prints under a mutex.  The errors are `int`s that wrap; in
range (`InRangeDims`) they tell the partial difference sets:

    the text of search.cpp is a block for each search that ended at a partial difference
      set, then the counts                                             (searchMain_run)
    with the generators of the parallel trials where the sequential trials start, every
      schedule prints the same blocks in some order             (searchParallel_sequential)
-/

namespace PdsSearch

open Checked GroupRing Text MachineInt PartialDifferenceSet ParallelFor

/-! ## Algorithm -/

/-- The loader of both programs: the two numbers of the header, and the table. -/
def readTable (n : Nat) (file : Str) : Option (Int × Int × List (List Int)) := do
  let (order, file) ← cinInt file
  let (groupId, file) ← cinInt file
  let (ct, _) ← readRows n n file
  return (order, groupId, ct)

/-- What is printed before the trials. -/
def headText (fname : Str) (order groupId : Int) : Str :=
  "filename is ".toList ++ fname ++ "\n".toList ++
    "n, group_id: ".toList ++ printInt order ++ " ".toList ++ printInt groupId ++ "\n".toList

/-- The pieces printed for a set. -/
def pdsPieces (resultSet : List Int) : List Str :=
  "PDS: ".toList :: "\n".toList :: (resultSet.flatMap fun x => [printInt x, " ".toList]) ++ ["\n".toList]

/-- The variables of the loop of `search.cpp`, the generator's position and the text so far. -/
structure Totals where
  successes : Nat
  /-- the sum of the errors, until it is divided -/
  avgError : Int
  pos : Nat
  out : Str

/-- A round after its search. -/
def Totals.add (t : Totals) (result : Outcome WrapInt) : Totals :=
  let t := { t with avgError := t.avgError + result.err.toInt, pos := result.pos }
  if result.err = 0 then
    { t with successes := t.successes + 1, out := t.out ++ (pdsPieces result.set).flatten }
  else t

/-- What is printed after the trials.  `clock` is the time, `printAvg s m` the quotient `s / m` of two
doubles as `std::cout` writes it. -/
def footText (numTrials : Int) (clock : Str) (printAvg : Int → Int → Str) (successes : Nat) (avgError : Int) :
    Str :=
  "\n".toList ++
    (if successes = 0 then "No PDSs found from trials: ".toList ++ printInt numTrials ++ "\n".toList else []) ++
    "succ: ".toList ++ printInt successes ++ ", total: ".toList ++ printInt numTrials ++ "\n".toList ++
    "time elapsed: ".toList ++ clock ++ "ms".toList ++ "\n".toList ++
    "avg error: ".toList ++ printAvg avgError numTrials ++ "\n".toList

/-- `main` of `search.cpp`: what it prints. -/
def searchMain (files : Str → Option Str) (fuel : Nat) (o : ArgOrder) (fname : Str) (d : Dims)
    (numTrials : Int) (rs : Nat → Nat) (clock : Str) (printAvg : Int → Int → Str) : Except Stop Str :=
  match (files fname).bind (readTable d.n) with
  | none => .error .undefinedRead
  | some (order, groupId, ct) => do
    let t ← (List.range numTrials.toNat).foldlM (fun (t : Totals) _ => do
      let result ← search fuel o d ct rs t.pos (l2Error : ErrorCalc WrapInt)
      return t.add result) ⟨0, 0, 0, headText fname order groupId⟩
    return t.out ++ footText numTrials clock printAvg t.successes t.avgError

/-- What a parallel trial does while it holds the mutex. -/
inductive Action
  | setSuccess
  | put (x : Str)
deriving DecidableEq

/-- The loop body of `search_parallel.cpp` up to the test: the set, if it is one. -/
def parallelTrial (fuel : Nat) (o : ArgOrder) (d : Dims) (ct : List (List Int)) (rs : Nat → Nat) :
    Except Stop (Option (List Int)) := do
  let result ← search fuel o d ct rs 0 (l2Error : ErrorCalc WrapInt)
  return if result.err = 0 then some result.set else none

/-- The part between `m.lock()` and `m.unlock()`. -/
def lockedPart : Option (List Int) → List Action
  | some resultSet => .setSuccess :: (pdsPieces resultSet).map .put
  | none => []

def Action.text : Action → Str
  | .setSuccess => []
  | .put x => x

/-- What `main` of `search_parallel.cpp` prints on some schedule, trial `i` with the generator `rs i`. -/
def SearchParallelOutput (files : Str → Option Str) (o : ArgOrder) (fname : Str) (d : Dims) (numTrials : Nat)
    (rs : Nat → Nat → Nat) (clock : Str) (out : Str) : Prop :=
  ∃ (order groupId : Int) (ct : List (List Int)) (found : Nat → Option (List Int)) (actions : List Action),
    (files fname).bind (readTable d.n) = some (order, groupId, ct) ∧
    (∀ i < numTrials, Returns (fun fuel => parallelTrial fuel o d ct (rs i)) (found i)) ∧
    Completes [()] (fun _ => List.range numTrials) (fun i => lockedPart (found i)) actions ∧
    out = headText fname order groupId ++ actions.flatMap Action.text ++ "\n".toList ++
      (if Action.setSuccess ∈ actions then []
       else "No PDSs found from ".toList ++ printInt numTrials ++ " trials.".toList ++ "\n".toList) ++
      "parlay timer ".toList ++ clock ++ "\n".toList

/-- The set of `test_real_pds.cpp`, as GAP counts. -/
def testPds : List Int := [3, 14, 16, 36, 4, 17, 18, 57, 24, 61, 27, 50, 54, 63, 43, 44, 45, 59]

/-- `main` of `test_real_pds.cpp`: what it prints. -/
def testRealPds (files : Str → Option Str) : Except Stop Str :=
  match (files "tables64/table226.txt".toList).bind (readTable 64) with
  | none => .error .undefinedRead
  | some (n, groupId, ct) => do
    let testPds := testPds.map fun x => x - 1
    let err ← error ⟨64, 18, 2, 6⟩ ct testPds (l1Error : ErrorCalc WrapInt)
    return "n, group_id: ".toList ++ printInt n ++ " ".toList ++ printInt groupId ++ "\n".toList ++
      "error is ".toList ++ printInt err.toInt

/-! ## Lemmas -/

/-- What a search leaves on the screen. -/
def trialText (result : Outcome WrapInt) : Str :=
  if result.err = 0 then (pdsPieces result.set).flatten else []

/-- What a search hands to the locked part. -/
def foundOf (result : Outcome WrapInt) : Option (List Int) := if result.err = 0 then some result.set else none

theorem readTable_load {n : Nat} {file : Str} {ct : List (List Int)} (h : loadTable n file = some ct) :
    ∃ order groupId, readTable n file = some (order, groupId, ct) := by
  simp only [loadTable, Option.bind_eq_bind, Option.bind_eq_some_iff] at h
  obtain ⟨⟨order, t₁⟩, h₁, ⟨groupId, t₂⟩, h₂, ⟨ct', t₃⟩, h₃, h⟩ := h
  obtain rfl : ct' = ct := Option.some.inj h
  refine ⟨order, groupId, ?_⟩
  simp only [readTable, h₁, h₂, h₃, Option.bind_eq_bind, Option.bind_some]
  rfl

/-- The totals after a list of trials. -/
theorem foldl_add (outs : List (Outcome WrapInt)) : ∀ t : Totals,
    (outs.foldl Totals.add t).successes = t.successes + outs.countP (fun out => out.err = 0) ∧
    (outs.foldl Totals.add t).avgError = t.avgError + (outs.map fun out => out.err.toInt).sum ∧
    (outs.foldl Totals.add t).out = t.out ++ outs.flatMap trialText := by
  induction outs with
  | nil =>
    intro t
    simp
  | cons out outs ih =>
    intro t
    obtain ⟨h₁, h₂, h₃⟩ := ih (t.add out)
    rw [List.foldl_cons, h₁, h₂, h₃, List.countP_cons, List.map_cons, List.sum_cons, List.flatMap_cons]
    unfold Totals.add trialText
    by_cases h : out.err = 0
    · simp only [h, if_true, decide_true, List.append_assoc]
      refine ⟨?_, ?_, trivial⟩ <;> omega
    · simp only [h, if_false, decide_false, List.nil_append, and_true]
      refine ⟨?_, ?_⟩
      · rfl
      · omega

theorem lockedPart_text (result : Outcome WrapInt) :
    (lockedPart (foundOf result)).flatMap Action.text = trialText result := by
  unfold foundOf trialText
  by_cases h : result.err = 0
  · rw [if_pos h, if_pos h]
    show [] ++ ((pdsPieces result.set).map Action.put).flatMap Action.text = _
    rw [List.nil_append, List.flatMap_map]
    exact List.flatMap_id'
  · rw [if_neg h, if_neg h]
    rfl

theorem setSuccess_mem_lockedPart (result : Outcome WrapInt) :
    Action.setSuccess ∈ lockedPart (foundOf result) ↔ result.err = 0 := by
  unfold foundOf lockedPart
  by_cases h : result.err = 0
  · simp [h]
  · simp [h]

/-- Where trial `i` starts, the first being at `pos`. -/
def startPos : Nat → List (Outcome WrapInt) → Nat → Nat
  | pos, _, 0 => pos
  | pos, [], _ + 1 => pos
  | _, out :: outs, i + 1 => startPos out.pos outs i

theorem IsTrials.start {e : ErrorCalc WrapInt} {o : ArgOrder} {d : Dims} {ct : List (List Int)} {rs : Nat → Nat}
    {outs : List (Outcome WrapInt)} : ∀ {pos}, IsTrials e o d ct rs pos outs → ∀ i, ∀ h : i < outs.length,
      Returns (fun fuel => search fuel o d ct rs (startPos pos outs i) e) outs[i] := by
  induction outs with
  | nil =>
    intro pos _ i h
    cases h
  | cons out outs ih =>
    intro pos h i hi
    cases i with
    | zero => exact h.1
    | succ i => exact ih h.2 i (Nat.lt_of_succ_lt_succ hi)

/-- A parallel trial is a search. -/
theorem parallelTrial_returns {o : ArgOrder} {d : Dims} {ct : List (List Int)} {rs : Nat → Nat}
    {out : Outcome WrapInt} (h : Returns (fun fuel => search fuel o d ct rs 0 l2Error) out) :
    Returns (fun fuel => parallelTrial fuel o d ct rs) (foundOf out) := by
  have heq : ∀ fuel, parallelTrial fuel o d ct rs = foundOf <$> search fuel o d ct rs 0 l2Error :=
    fun fuel => bind_pure_comp _ _
  simp only [heq]
  exact h.map foundOf

section
variable {d : Dims} (T : GroupTable d.n) {files : Str → Option Str} {fname : Str} {order groupId : Int}
  (hfile : (files fname).bind (readTable d.n) = some (order, groupId, T.ct)) (o : ArgOrder)

include hfile

/-- What a schedule of the parallel trials prints, when their searches are known. -/
theorem SearchParallelOutput.text {numTrials : Nat} {rs : Nat → Nat → Nat} {clock out : Str}
    {outs : Nat → Outcome WrapInt}
    (houts : ∀ i < numTrials, Returns (fun fuel => search fuel o d T.ct (rs i) 0 l2Error) (outs i))
    (h : SearchParallelOutput files o fname d numTrials rs clock out) :
    ∃ perm : List Nat, perm.Perm (List.range numTrials) ∧
      out = headText fname order groupId ++ (perm.flatMap fun i => trialText (outs i)) ++ "\n".toList ++
        (if ∃ i < numTrials, (outs i).err = 0 then []
         else "No PDSs found from ".toList ++ printInt numTrials ++ " trials.".toList ++ "\n".toList) ++
        "parlay timer ".toList ++ clock ++ "\n".toList := by
  obtain ⟨order', groupId', ct, found, actions, hfile', hfound, hrun, rfl⟩ := h
  obtain ⟨rfl, rfl, rfl⟩ : order' = order ∧ groupId' = groupId ∧ ct = T.ct := by
    simpa using hfile'.symm.trans hfile
  have heq : ∀ i < numTrials, found i = foundOf (outs i) :=
    fun i hi => (hfound i hi).unique (parallelTrial_returns (houts i hi))
  obtain ⟨perm, hperm, rfl⟩ := hrun.order
  rw [List.flatMap_singleton] at hperm
  have hlt : ∀ i ∈ perm, i < numTrials := fun i hi => List.mem_range.1 (hperm.mem_iff.1 hi)
  have htext : (perm.flatMap fun i => lockedPart (found i)).flatMap Action.text =
      perm.flatMap fun i => trialText (outs i) := by
    rw [List.flatMap_assoc]
    apply List.flatMap_congr
    intro i hi
    rw [heq i (hlt i hi), lockedPart_text]
  have hflag : Action.setSuccess ∈ (perm.flatMap fun i => lockedPart (found i)) ↔
      ∃ i < numTrials, (outs i).err = 0 := by
    rw [List.mem_flatMap]
    constructor
    · rintro ⟨i, hi, hmem⟩
      rw [heq i (hlt i hi), setSuccess_mem_lockedPart] at hmem
      exact ⟨i, hlt i hi, hmem⟩
    · rintro ⟨i, hi, herr⟩
      refine ⟨i, hperm.mem_iff.2 (List.mem_range.2 hi), ?_⟩
      rw [heq i hi, setSuccess_mem_lockedPart]
      exact herr
  refine ⟨perm, hperm, ?_⟩
  rw [htext]
  simp only [hflag]

/-- Some schedule completes. -/
theorem exists_searchParallelOutput {numTrials : Nat} {rs : Nat → Nat → Nat} {outs : Nat → Outcome WrapInt}
    (houts : ∀ i < numTrials, Returns (fun fuel => search fuel o d T.ct (rs i) 0 l2Error) (outs i)) (clock : Str) :
    ∃ out, SearchParallelOutput files o fname d numTrials rs clock out := by
  obtain ⟨actions, hrun⟩ := exists_completes [()] (fun _ => List.range numTrials)
    fun i => lockedPart (foundOf (outs i))
  exact ⟨_, order, groupId, T.ct, _, actions, hfile, fun i hi => parallelTrial_returns (houts i hi), hrun, rfl⟩

end

section
variable {d : Dims} (T : GroupTable d.n) (hk : 1 ≤ d.k) (hkn : d.k ≤ d.n - 1) {files : Str → Option Str}
  {fname : Str} {order groupId : Int}
  (hfile : (files fname).bind (readTable d.n) = some (order, groupId, T.ct)) (o : ArgOrder)
  (numTrials : Int) {rs : Nat → Nat} (hrs : Recurrent d rs) (clock : Str) (printAvg : Int → Int → Str)

include hk hkn hfile hrs

/-- The sequential program ends, with the text its searches give. -/
theorem searchMain_returns : ∃ outs,
    IsTrials l2Error o d T.ct rs 0 outs ∧ outs.length = numTrials.toNat ∧
    Returns (fun fuel => searchMain files fuel o fname d numTrials rs clock printAvg)
      (headText fname order groupId ++ outs.flatMap trialText ++
        footText numTrials clock printAvg (outs.countP fun out => out.err = 0)
          (outs.map fun out => out.err.toInt).sum) := by
  have hbody : ∀ (t : Totals) (out : Outcome WrapInt), True →
      (pure (t.add out) : Except Stop Totals) = .ok (t.add out) ∧ True ∧ (t.add out).pos = out.pos := by
    intro t out _
    refine ⟨rfl, trivial, ?_⟩
    unfold Totals.add
    by_cases h : out.err = 0
    · simp only [if_pos h]
    · simp only [if_neg h]
  obtain ⟨outs, hloop, htrials, hlen, -⟩ := loop_returns T.toTable hk hkn l2Error_mem hrs o Totals.pos
    Totals.add (fun _ => True) hbody (List.range numTrials.toNat) ⟨0, 0, 0, headText fname order groupId⟩ trivial
  obtain ⟨hcount, hsum, hout⟩ := foldl_add outs ⟨0, 0, 0, headText fname order groupId⟩
  refine ⟨outs, htrials, by rw [hlen, List.length_range], ?_⟩
  unfold searchMain
  rw [hfile]
  have h := hloop.map fun t => t.out ++ footText numTrials clock printAvg t.successes t.avgError
  rw [hcount, hsum, hout, Nat.zero_add, zero_add] at h
  simp only [← bind_pure_comp] at h
  exact h

end

/-- The searches of trials that each have a generator. -/
theorem exists_trials {d : Dims} (T : GroupTable d.n) (hd : InRangeDims d) (o : ArgOrder)
    {numTrials : Nat} {rs : Nat → Nat → Nat} (hrs : ∀ i < numTrials, Recurrent d (rs i)) :
    ∃ outs : Nat → Outcome WrapInt, ∀ i < numTrials,
      Returns (fun fuel => search fuel o d T.ct (rs i) 0 l2Error) (outs i) ∧
        ((outs i).err = 0 ↔ IsRegularPDS (T.toFinset (outs i).set) d.k d.lam d.mu) := by
  have htrial : ∀ i < numTrials, ∃ out : Outcome WrapInt,
      Returns (fun fuel => search fuel o d T.ct (rs i) 0 l2Error) out ∧
        (out.err = 0 ↔ IsRegularPDS (T.toFinset out.set) d.k d.lam d.mu) := by
    intro i hi
    obtain ⟨c, out, hret, hset, herr⟩ :=
      search_returns T.toTable hd.k.1 hd.k.2 (l2Error_mem (α := WrapInt)) (hrs i hi) o 0
    rw [hset] at herr
    refine ⟨out, hret, ?_⟩
    rw [hset]
    exact (c.isResult (detects_wrap hd (by simp)) herr).zero
  have : Nonempty (Outcome WrapInt) := ⟨⟨[], 0, 0⟩⟩
  choose! outs houts using htrial
  exact ⟨outs, houts⟩

/-- The cyclic group of order 5. -/
theorem exists_readTable_five : ∃ (files : Str → Option Str) (order groupId : Int),
    (files "ct".toList).bind (readTable 5) = some (order, groupId, (cyclicTable 5).ct) := by
  obtain ⟨file, hload⟩ := exists_loadTable_five
  obtain ⟨order, groupId, h⟩ := readTable_load hload
  refine ⟨fun _ => some file, order, groupId, ?_⟩
  rw [Option.bind_some]
  exact h

/-! ## Top theorems -/

/-- **The sequential program.**  With a generator that takes every value again and again it ends,
after `NUM_TRIALS` searches one after the other.  It prints the set of each search that ended at a
partial difference set and of no other, counts them, and adds up the errors of all searches. -/
theorem searchMain_run {d : Dims} (T : GroupTable d.n) (hd : InRangeDims d) {files : Str → Option Str}
    {fname : Str} {order groupId : Int}
    (hfile : (files fname).bind (readTable d.n) = some (order, groupId, T.ct)) (o : ArgOrder)
    (numTrials : Int) {rs : Nat → Nat} (hrs : Recurrent d rs) (clock : Str)
    (printAvg : Int → Int → Str) : ∃ outs,
      IsTrials l2Error o d T.ct rs 0 outs ∧ outs.length = numTrials.toNat ∧
      (∀ out ∈ outs, out.err = 0 ↔ IsRegularPDS (T.toFinset out.set) d.k d.lam d.mu) ∧
      Returns (fun fuel => searchMain files fuel o fname d numTrials rs clock printAvg)
        (headText fname order groupId ++ outs.flatMap trialText ++
          footText numTrials clock printAvg (outs.countP fun out => out.err = 0)
            (outs.map fun out => out.err.toInt).sum) := by
  obtain ⟨outs, htrials, hlen, hmain⟩ := searchMain_returns T hd.k.1 hd.k.2 hfile o numTrials hrs clock printAvg
  refine ⟨outs, htrials, hlen, ?_, hmain⟩
  exact fun out hmem =>
    (htrials.isResult T hd.k.1 hd.k.2 l2Error_mem (detects_wrap hd (by simp)) hrs out hmem).zero

/-- With a counter as generator. -/
theorem searchMain_run_five : ∃ (files : Str → Option Str) (order groupId : Int) (outs : List (Outcome WrapInt)),
    outs.length = 3 ∧
    Returns (fun fuel => searchMain files fuel .leftFirst "ct".toList ⟨5, 2, 0, 1⟩ 3 id [] fun _ _ => [])
      (headText "ct".toList order groupId ++ outs.flatMap trialText ++
        footText 3 [] (fun _ _ => []) (outs.countP fun out => out.err = 0)
          (outs.map fun out => out.err.toInt).sum) := by
  obtain ⟨files, order, groupId, hfile⟩ := exists_readTable_five
  obtain ⟨outs, -, hlen, -, hmain⟩ := searchMain_run (d := ⟨5, 2, 0, 1⟩) (cyclicTable 5) inRangeDims_five
    hfile .leftFirst 3 (recurrent_id (by decide)) [] fun _ _ => []
  exact ⟨files, order, groupId, outs, hlen, hmain⟩

/-- **The parallel program.**  With such a generator for every trial it ends on some schedule.  On
every schedule it prints the set of each trial that ended at a partial difference set and of no
other, whole and once, and says that there is none exactly when there is none. -/
theorem searchParallel_run {d : Dims} (T : GroupTable d.n) (hd : InRangeDims d) {files : Str → Option Str}
    {fname : Str} {order groupId : Int}
    (hfile : (files fname).bind (readTable d.n) = some (order, groupId, T.ct)) (o : ArgOrder)
    (numTrials : Nat) (rs : Nat → Nat → Nat)
    (hrs : ∀ i < numTrials, Recurrent d (rs i)) (clock : Str) : ∃ outs : Nat → Outcome WrapInt,
      (∀ i < numTrials, Returns (fun fuel => search fuel o d T.ct (rs i) 0 l2Error) (outs i) ∧
        ((outs i).err = 0 ↔ IsRegularPDS (T.toFinset (outs i).set) d.k d.lam d.mu)) ∧
      (∃ out, SearchParallelOutput files o fname d numTrials rs clock out) ∧
      ∀ out, SearchParallelOutput files o fname d numTrials rs clock out →
        ∃ perm : List Nat, perm.Perm (List.range numTrials) ∧
          out = headText fname order groupId ++ (perm.flatMap fun i => trialText (outs i)) ++ "\n".toList ++
            (if ∃ i < numTrials, (outs i).err = 0 then []
             else "No PDSs found from ".toList ++ printInt numTrials ++ " trials.".toList ++ "\n".toList) ++
            "parlay timer ".toList ++ clock ++ "\n".toList := by
  obtain ⟨outs, houts⟩ := exists_trials T hd o hrs
  have hrets := fun i hi => (houts i hi).1
  exact ⟨outs, houts, exists_searchParallelOutput T hfile o hrets clock,
    fun out hout => hout.text T hfile o hrets⟩

/-- Three trials, all with a counter. -/
theorem searchParallel_run_five : ∃ (files : Str → Option Str) (out : Str),
    SearchParallelOutput files .leftFirst "ct".toList ⟨5, 2, 0, 1⟩ 3 (fun _ => id) [] out := by
  obtain ⟨files, order, groupId, hfile⟩ := exists_readTable_five
  obtain ⟨outs, -, ⟨out, hout⟩, -⟩ := searchParallel_run (d := ⟨5, 2, 0, 1⟩) (cyclicTable 5)
    inRangeDims_five hfile .leftFirst 3 (fun _ => id) (fun _ _ => recurrent_id (by decide)) []
  exact ⟨files, out, hout⟩

/-- **The two programs agree.**  When trial `i` of the parallel program gets the values the generator
of the sequential program has left when its search `i` starts, every schedule prints what the
sequential program prints for its searches, in some order. -/
theorem searchParallel_sequential {d : Dims} (T : GroupTable d.n) (hk : 1 ≤ d.k) (hkn : d.k ≤ d.n - 1)
    {files : Str → Option Str} {fname : Str} {order groupId : Int}
    (hfile : (files fname).bind (readTable d.n) = some (order, groupId, T.ct)) (o : ArgOrder)
    (numTrials : Nat) {rs : Nat → Nat} (hrs : Recurrent d rs) (clock clock' : Str)
    (printAvg : Int → Int → Str) : ∃ outs,
      IsTrials l2Error o d T.ct rs 0 outs ∧ outs.length = numTrials ∧
      Returns (fun fuel => searchMain files fuel o fname d numTrials rs clock printAvg)
        (headText fname order groupId ++ outs.flatMap trialText ++
          footText numTrials clock printAvg (outs.countP fun out => out.err = 0)
            (outs.map fun out => out.err.toInt).sum) ∧
      (∃ out, SearchParallelOutput files o fname d numTrials (fun i => later (startPos 0 outs i) rs) clock' out) ∧
      ∀ out, SearchParallelOutput files o fname d numTrials (fun i => later (startPos 0 outs i) rs) clock' out →
        ∃ outs' : List (Outcome WrapInt), outs'.Perm outs ∧
          out = headText fname order groupId ++ outs'.flatMap trialText ++ "\n".toList ++
            (if ∃ out ∈ outs, out.err = 0 then []
             else "No PDSs found from ".toList ++ printInt numTrials ++ " trials.".toList ++ "\n".toList) ++
            "parlay timer ".toList ++ clock' ++ "\n".toList := by
  obtain ⟨outs, htrials, hlen, hmain⟩ := searchMain_returns T hk hkn hfile o numTrials hrs clock printAvg
  rw [Int.toNat_natCast] at hlen
  have htrial : ∀ i, ∀ h : i < numTrials, ∃ out : Outcome WrapInt,
      Returns (fun fuel => search fuel o d T.ct (later (startPos 0 outs i) rs) 0 l2Error) out ∧
        out.later (startPos 0 outs i) = outs[i] := by
    intro i hi
    obtain ⟨fuel, hfuel⟩ : ∃ fuel, search fuel o d T.ct rs (startPos 0 outs i) l2Error = .ok outs[i] :=
      (htrials.start i (by omega)).1
    have hlater := search_later d T.ct rs (startPos 0 outs i) fuel o 0 (l2Error : ErrorCalc WrapInt)
    rw [Nat.add_zero, hfuel] at hlater
    cases hsearch : search fuel o d T.ct (later (startPos 0 outs i) rs) 0 (l2Error : ErrorCalc WrapInt) with
    | error x =>
      rw [hsearch] at hlater
      cases hlater
    | ok out =>
      rw [hsearch] at hlater
      exact ⟨out, (search_mono T.toTable l2Error o _ 0).returns hsearch, (Except.ok.inj hlater).symm⟩
  have : Nonempty (Outcome WrapInt) := ⟨⟨[], 0, 0⟩⟩
  choose! outs' houts' using htrial
  have hrets := fun i hi => (houts' i hi).1
  have hsame : ∀ i, ∀ h : i < numTrials, trialText (outs' i) = trialText outs[i] ∧
      ((outs' i).err = 0 ↔ outs[i].err = 0) := by
    intro i hi
    rw [← (houts' i hi).2]
    exact ⟨rfl, Iff.rfl⟩
  refine ⟨outs, htrials, hlen, hmain, exists_searchParallelOutput T hfile o hrets clock', ?_⟩
  intro out hout
  obtain ⟨perm, hperm, rfl⟩ := hout.text T hfile o hrets
  have hall : (List.range numTrials).map (fun i => (outs[i]?).getD ⟨[], 0, 0⟩) = outs := by
    apply List.ext_getElem
    · rw [List.length_map, List.length_range, hlen]
    · intro i h₁ h₂
      rw [List.getElem_map, List.getElem_range, List.getElem?_eq_getElem h₂]
      rfl
  refine ⟨perm.map fun i => (outs[i]?).getD ⟨[], 0, 0⟩, ?_, ?_⟩
  · have h := hperm.map fun i => (outs[i]?).getD ⟨[], 0, 0⟩
    rwa [hall] at h
  · have htexts : (perm.flatMap fun i => trialText (outs' i)) =
        (perm.map fun i => (outs[i]?).getD ⟨[], 0, 0⟩).flatMap trialText := by
      rw [List.flatMap_map]
      apply List.flatMap_congr
      intro i hi
      have hlt : i < numTrials := List.mem_range.1 (hperm.mem_iff.1 hi)
      rw [(hsame i hlt).1, List.getElem?_eq_getElem (by omega)]
      rfl
    have hflag : (∃ i < numTrials, (outs' i).err = 0) ↔ ∃ out ∈ outs, out.err = 0 := by
      constructor
      · rintro ⟨i, hi, herr⟩
        exact ⟨outs[i], List.getElem_mem _, (hsame i hi).2.1 herr⟩
      · rintro ⟨out, hmem, herr⟩
        obtain ⟨i, hi, rfl⟩ := List.mem_iff_getElem.1 hmem
        exact ⟨i, by omega, (hsame i (by omega)).2.2 herr⟩
    rw [htexts]
    simp only [hflag]

/-- Three trials with a counter, and three parallel ones that share its values. -/
theorem searchParallel_sequential_five : ∃ (files : Str → Option Str) (outs : List (Outcome WrapInt)) (out : Str),
    outs.length = 3 ∧
    SearchParallelOutput files .leftFirst "ct".toList ⟨5, 2, 0, 1⟩ 3 (fun i => later (startPos 0 outs i) id) [] out := by
  obtain ⟨files, order, groupId, hfile⟩ := exists_readTable_five
  obtain ⟨outs, -, hlen, -, ⟨out, hout⟩, -⟩ := searchParallel_sequential (d := ⟨5, 2, 0, 1⟩) (cyclicTable 5)
    (by decide) (by decide) hfile .leftFirst 3 (recurrent_id (by decide)) [] [] fun _ _ => []
  exact ⟨files, outs, out, hlen, hout⟩

/-- **The test.**  It prints the error `0` exactly when its set is a partial difference set of the group in the file. -/
theorem testRealPds_run (T : GroupTable 64) {files : Str → Option Str} {n groupId : Int}
    (hfile : (files "tables64/table226.txt".toList).bind (readTable 64) = some (n, groupId, T.ct)) : ∃ err : WrapInt,
      testRealPds files = .ok ("n, group_id: ".toList ++ printInt n ++ " ".toList ++ printInt groupId ++
        "\n".toList ++ "error is ".toList ++ printInt err.toInt) ∧
      (err.toInt = 0 ↔ IsRegularPDS (T.toFinset (testPds.map fun x => x - 1)) 18 2 6) := by
  have hd : InRangeDims ⟨64, 18, 2, 6⟩ := ⟨by decide, by decide, by decide, by decide⟩
  obtain ⟨c, hc⟩ := Candidate.exists_of_list (d := ⟨64, 18, 2, 6⟩) T.toTable (testPds.map fun x => x - 1) (by decide)
    (by decide) (by decide)
  obtain ⟨norm, hM⟩ := exists_norm (d := ⟨64, 18, 2, 6⟩) T.toTable (by decide) (l1Error : ErrorCalc WrapInt)
    (by simp [calculators])
  have herr := error_candidate hM c
  refine ⟨c.err norm, ?_, ?_⟩
  · unfold testRealPds
    rw [hfile]
    dsimp only
    rw [← hc, herr]
    rfl
  · have hzero : (c.err norm).toInt = 0 ↔ c.err norm = 0 := WrapInt.toInt_injective.eq_iff' rfl
    rw [hzero, ← hc]
    exact detects_wrap hd (by simp) c _ herr

end PdsSearch
