import PdsSearch.CheckPDS
import PdsSearch.Lib.ParallelFor

/-!
# The output of all tasks, sorted (`searchMany.cpp`, `sortAsData.py`)

`main` prints two header lines and runs the tasks of `searchMany` in nested
parallel loops, each printing its line under the mutex.  `sortAsData.py` drops
the header and sorts the lines by the parameters parsed from them:

    searchMany = out → out is the header and one line for every task, in some order
    searchMany = out → sortAsData out = .ok sorted, one text for all these outputs
                                                                  (sortAsData_schedule)

The two scripts take each line apart into what was printed  (resultLine_roundTrip).
-/

namespace PdsSearch

open Text ParallelFor Checked

/-! ## Algorithm -/

/-- The two lines before the loops. -/
def header : Str := "Program started\n".toList ++ "Opened EVEN HIGHER dims file\n".toList

/-- The inner loop: groups `1 .. num_groups_of_order[d.n]`. -/
def groups (numGroupsOfOrder : Nat → Nat) (d : Dims) : List (Dims × Nat) :=
  (List.range' 1 (numGroupsOfOrder d.n)).map fun gid => (d, gid)

/-- The outer loop: `startDim ≤ dim_index < endDim`. -/
def dimRange (allDims : List Dims) (startDim endDim : Nat) : List Dims :=
  (allDims.drop startDim).take (endDim - startDim)

/-- What `main` can print, when task `(d, gid)` finds `result (d, gid)`. -/
def SearchManyOutput (allDims : List Dims) (startDim endDim : Nat) (numGroupsOfOrder : Nat → Nat)
    (multiplier : Int) (result : Dims × Nat → Option (List Int × Nat)) (out : Str) : Prop :=
  ∃ pieces, Completes (dimRange allDims startDim endDim) (groups numGroupsOfOrder)
      (fun task => printSection multiplier task.1 task.2 (result task)) pieces ∧
    out = header ++ pieces.flatten

/-- The loops can always run to their end. -/
theorem exists_searchManyOutput (allDims : List Dims) (startDim endDim : Nat)
    (numGroupsOfOrder : Nat → Nat) (multiplier : Int)
    (result : Dims × Nat → Option (List Int × Nat)) :
    ∃ out, SearchManyOutput allDims startDim endDim numGroupsOfOrder multiplier result out := by
  obtain ⟨pieces, h⟩ := exists_completes (dimRange allDims startDim endDim) (groups numGroupsOfOrder)
    fun task => printSection multiplier task.1 task.2 (result task)
  exact ⟨_, pieces, h, rfl⟩

/-- `sortfun`, the same text as `getParms`. -/
def sortfun (x : Str) : Except PyStop (List Int) := getParms x

/-- `sortAsData.py` on an output file: what it prints.  `sorted` computes every key once and
is stable, as `insertionSort` is. -/
def sortAsData (file : Str) : Except PyStop Str := do
  let data := (readlines file).filter fun a => contains "PDS".toList a
  let keyed ← data.mapM fun x => do return (← sortfun x, x)
  let data2 := (keyed.insertionSort fun a b => a.1 ≤ b.1).map Prod.snd
  return data2.flatten

/-! ## Lemmas -/

/-- `(n,k,lam,mu,n,gid)` -/
def taskKey (task : Dims × Nat) : List Int :=
  [(task.1.n : Int), task.1.k, task.1.lam, task.1.mu, task.1.n, task.2]

theorem taskKey_inj {t t' : Dims × Nat} (h : taskKey t = taskKey t') : t = t' := by
  obtain ⟨⟨n, k, lam, mu⟩, gid⟩ := t
  obtain ⟨⟨n', k', lam', mu'⟩, gid'⟩ := t'
  simp only [taskKey, List.cons.injEq, Int.natCast_inj, and_true] at h
  obtain ⟨rfl, rfl, rfl, rfl, -, rfl⟩ := h
  rfl

section
variable (multiplier : Int) (result : Dims × Nat → Option (List Int × Nat))

/-- The line of a task. -/
def taskLine (task : Dims × Nat) : Str := resultLine multiplier task.1 task.2 (result task)

/-- Without its newline. -/
def taskText (task : Dims × Nat) : Str :=
  lineOf task.1 task.2 (resultTail multiplier task.1 (result task))

theorem taskLine_eq (task : Dims × Nat) :
    taskLine multiplier result task = taskText multiplier result task ++ ['\n'] := by
  unfold taskLine taskText
  rw [resultLine_eq]
  unfold lineOf
  simp only [List.append_assoc]

theorem sortfun_taskLine (task : Dims × Nat) :
    sortfun (taskLine multiplier result task) = .ok (taskKey task) := by
  unfold taskLine sortfun
  rw [resultLine_eq]
  exact getParms_line task.1 task.2 _

theorem contains_taskLine (task : Dims × Nat) :
    contains "PDS".toList (taskLine multiplier result task) = true := by
  unfold taskLine
  rw [resultLine_eq]
  exact contains_pds task.1 task.2 _

/-- A line has one newline, at its end. -/
theorem notMem_taskText {c : Char} (hc : c = '\n' ∨ c = '\r') (task : Dims × Nat) :
    c ∉ taskText multiplier result task := by
  have hd : c.isDigit = false ∧ c ≠ '-' ∧ c ≠ ',' ∧ c ≠ ' ' := by
    rcases hc with rfl | rfl <;> decide
  obtain ⟨h1, h2, h3, h4⟩ := hd
  have hlit : ∀ s : Str, '\n' ∉ s ∧ '\r' ∉ s → c ∉ s := by
    intro s hs
    rcases hc with rfl | rfl
    · exact hs.1
    · exact hs.2
  unfold taskText lineOf resultTail
  simp only [List.mem_append, not_or]
  refine ⟨hlit _ (by decide), notMem_dimsText h1 h2 h3 _, hlit _ (by decide),
    notMem_groupText h1 h2 h3 _ _, hlit _ (by decide), ?_⟩
  cases result task with
  | none =>
    simp only [List.mem_append, not_or]
    exact ⟨hlit _ (by decide), notMem_printInt h1 h2 _⟩
  | some r =>
    simp only [List.mem_append, not_or]
    exact ⟨⟨notMem_spaced h1 h2 h4 _, hlit _ (by decide)⟩, notMem_printInt h1 h2 _⟩

/-- The lines of the output file. -/
theorem readlines_output (order : List (Dims × Nat)) :
    readlines (header ++ order.flatMap (taskLine multiplier result)) =
      "Program started\n".toList :: "Opened EVEN HIGHER dims file\n".toList ::
        order.map (taskLine multiplier result) := by
  have hfile : header ++ order.flatMap (taskLine multiplier result) =
      ("Program started".toList :: "Opened EVEN HIGHER dims file".toList ::
        order.map (taskText multiplier result)).flatMap fun l => l ++ ['\n'] := by
    rw [List.flatMap_cons, List.flatMap_cons, List.flatMap_map]
    have hl : (fun t => taskText multiplier result t ++ ['\n']) = taskLine multiplier result :=
      funext fun t => (taskLine_eq multiplier result t).symm
    rw [hl]
    rfl
  rw [hfile, readlines_lines]
  · rw [List.map_cons, List.map_cons, List.map_map]
    have hl : ((fun l => l ++ ['\n']) ∘ taskText multiplier result) = taskLine multiplier result :=
      funext fun t => (taskLine_eq multiplier result t).symm
    rw [hl]
    rfl
  · intro l hl
    rcases List.mem_cons.1 hl with rfl | hl
    · decide
    · rcases List.mem_cons.1 hl with rfl | hl
      · decide
      · obtain ⟨t, -, rfl⟩ := List.mem_map.1 hl
        exact ⟨notMem_taskText multiplier result (.inl rfl) t,
          notMem_taskText multiplier result (.inr rfl) t⟩

/-- **What is printed**, for the tasks in any order: their lines sorted by the keys. -/
theorem sortAsData_output (order : List (Dims × Nat)) :
    sortAsData (header ++ order.flatMap (taskLine multiplier result)) =
      .ok ((order.insertionSort fun t t' => taskKey t ≤ taskKey t').flatMap
        (taskLine multiplier result)) := by
  have hfilter : (readlines (header ++ order.flatMap (taskLine multiplier result))).filter
      (fun a => contains "PDS".toList a) = order.map (taskLine multiplier result) := by
    rw [readlines_output, List.filter_cons_of_neg (by decide), List.filter_cons_of_neg (by decide),
      List.filter_eq_self]
    intro a ha
    obtain ⟨t, -, rfl⟩ := List.mem_map.1 ha
    exact contains_taskLine multiplier result t
  have hkeyed : (order.map (taskLine multiplier result)).mapM (fun x => do return (← sortfun x, x)) =
      (.ok (order.map fun t => (taskKey t, taskLine multiplier result t)) : Except PyStop _) := by
    rw [List.mapM_map]
    apply mapM_ok
    intro t _
    show (sortfun (taskLine multiplier result t) >>= _) = _
    rw [sortfun_taskLine]
    rfl
  have hsort : ((order.map fun t => (taskKey t, taskLine multiplier result t)).insertionSort
      fun a b => a.1 ≤ b.1) = (order.insertionSort fun t t' => taskKey t ≤ taskKey t').map
        fun t => (taskKey t, taskLine multiplier result t) :=
    (List.map_insertionSort (fun t t' => taskKey t ≤ taskKey t') (fun a b => a.1 ≤ b.1)
      (fun t => (taskKey t, taskLine multiplier result t)) order fun a _ b _ => Iff.rfl).symm
  unfold sortAsData
  rw [hfilter]
  dsimp only
  rw [hkeyed, ok_bind, hsort, List.map_map, List.flatMap_def]
  rfl

end

/-- The keys order the tasks. -/
theorem keyOrder_unique {order order' : List (Dims × Nat)} (h : order.Perm order') :
    order.insertionSort (fun t t' => taskKey t ≤ taskKey t') =
      order'.insertionSort fun t t' => taskKey t ≤ taskKey t' := by
  have htotal : Std.Total fun t t' : Dims × Nat => taskKey t ≤ taskKey t' := ⟨fun _ _ => le_total _ _⟩
  have htrans : IsTrans (Dims × Nat) fun t t' => taskKey t ≤ taskKey t' := ⟨fun _ _ _ => le_trans⟩
  have hanti : ∀ t t' : Dims × Nat, t ∈ order.insertionSort (fun t t' => taskKey t ≤ taskKey t') →
      t' ∈ order'.insertionSort (fun t t' => taskKey t ≤ taskKey t') →
      taskKey t ≤ taskKey t' → taskKey t' ≤ taskKey t → t = t' :=
    fun t t' _ _ h1 h2 => taskKey_inj (le_antisymm h1 h2)
  refine List.Perm.eq_of_pairwise hanti (List.pairwise_insertionSort _ order)
    (List.pairwise_insertionSort _ order') ?_
  exact (List.perm_insertionSort _ order).trans (h.trans (List.perm_insertionSort _ order').symm)

theorem keyOrder_strict {order : List (Dims × Nat)} (h : order.Nodup) :
    ((order.insertionSort fun t t' => taskKey t ≤ taskKey t').map taskKey).Pairwise (· < ·) := by
  have htotal : Std.Total fun t t' : Dims × Nat => taskKey t ≤ taskKey t' := ⟨fun _ _ => le_total _ _⟩
  have htrans : IsTrans (Dims × Nat) fun t t' => taskKey t ≤ taskKey t' := ⟨fun _ _ _ => le_trans⟩
  have hle := List.pairwise_insertionSort (fun t t' => taskKey t ≤ taskKey t') order
  have hnd : (order.insertionSort fun t t' => taskKey t ≤ taskKey t').Nodup :=
    (List.perm_insertionSort _ order).nodup_iff.2 h
  rw [List.pairwise_map]
  apply (hle.and hnd).imp
  rintro t t' ⟨h1, h2⟩
  exact lt_of_le_of_ne h1 fun h => h2 (taskKey_inj h)

theorem nodup_tasks {allDims : List Dims} (h : allDims.Nodup) (startDim endDim : Nat)
    (numGroupsOfOrder : Nat → Nat) :
    ((dimRange allDims startDim endDim).flatMap (groups numGroupsOfOrder)).Nodup := by
  have hdims : (dimRange allDims startDim endDim).Nodup :=
    h.sublist ((List.take_sublist _ _).trans (List.drop_sublist _ _))
  rw [List.nodup_flatMap]
  constructor
  · intro d _
    have hgids : (List.range' 1 (numGroupsOfOrder d.n)).Nodup := List.nodup_range'
    apply hgids.map
    intro gid gid' h
    exact (Prod.mk.inj h).2
  · apply hdims.imp
    intro d d' hne
    rw [Function.onFun, List.disjoint_left]
    intro t ht ht'
    obtain ⟨gid, -, rfl⟩ := List.mem_map.1 ht
    obtain ⟨gid', -, h⟩ := List.mem_map.1 ht'
    exact hne (Prod.mk.inj h).1.symm

/-! ## Top theorem -/

/-- **The sorted output does not depend on the schedule.**  Whatever the interleaving, the output
is the header and one whole line for every task; and `sortAsData.py` prints one and the same text
for all of these outputs, the lines in strictly increasing order of their keys. -/
theorem sortAsData_schedule (allDims : List Dims) (hnd : allDims.Nodup) (startDim endDim : Nat)
    (numGroupsOfOrder : Nat → Nat) (multiplier : Int)
    (result : Dims × Nat → Option (List Int × Nat)) :
    (∀ out, SearchManyOutput allDims startDim endDim numGroupsOfOrder multiplier result out →
      ∃ order : List (Dims × Nat),
        order.Perm ((dimRange allDims startDim endDim).flatMap (groups numGroupsOfOrder)) ∧
        out = header ++ order.flatMap (taskLine multiplier result)) ∧
    ∃ order : List (Dims × Nat),
      order.Perm ((dimRange allDims startDim endDim).flatMap (groups numGroupsOfOrder)) ∧
      (order.map taskKey).Pairwise (· < ·) ∧
      ∀ out, SearchManyOutput allDims startDim endDim numGroupsOfOrder multiplier result out →
        sortAsData out = .ok (order.flatMap (taskLine multiplier result)) := by
  have hwhole : ∀ out, SearchManyOutput allDims startDim endDim numGroupsOfOrder multiplier result out →
      ∃ order : List (Dims × Nat),
        order.Perm ((dimRange allDims startDim endDim).flatMap (groups numGroupsOfOrder)) ∧
        out = header ++ order.flatMap (taskLine multiplier result) := by
    rintro out ⟨pieces, hcomp, rfl⟩
    obtain ⟨order, hperm, rfl⟩ := hcomp.order
    refine ⟨order, hperm, ?_⟩
    rw [List.flatMap_def, List.flatMap_def, List.flatten_flatten, List.map_map]
    rfl
  refine ⟨hwhole, _, List.perm_insertionSort (fun t t' => taskKey t ≤ taskKey t') _,
    keyOrder_strict (nodup_tasks hnd startDim endDim numGroupsOfOrder), ?_⟩
  intro out hout
  obtain ⟨order, hperm, rfl⟩ := hwhole out hout
  rw [sortAsData_output, keyOrder_unique hperm]

/-- Three groups; a set is found in the one of order 5. -/
theorem sortAsData_schedule_three :
    let result : Dims × Nat → Option (List Int × Nat) := fun t => if t.1.n = 5 then some ([1, 4], 2) else none
    ∃ order : List (Dims × Nat),
      order.Perm [(⟨5, 2, 0, 1⟩, 1), (⟨9, 4, 1, 2⟩, 1), (⟨9, 4, 1, 2⟩, 2)] ∧
      (order.map taskKey).Pairwise (· < ·) ∧
      ∀ out, SearchManyOutput [⟨5, 2, 0, 1⟩, ⟨9, 4, 1, 2⟩] 0 2 (fun n => if n = 9 then 2 else 1) 5
          result out →
        sortAsData out = .ok (order.flatMap (taskLine 5 result)) :=
  (sortAsData_schedule [⟨5, 2, 0, 1⟩, ⟨9, 4, 1, 2⟩] (by decide) 0 2 (fun n => if n = 9 then 2 else 1) 5
    fun t => if t.1.n = 5 then some ([1, 4], 2) else none).2

/-- **The lines are read back.**  Whatever the parameters, the line of a set that was found gives
its parameters to `getParms` and `sortfun` and the sorted set to `get_pds`, and does not say
`None in`; the line of a group where none was found says so, and gives the same parameters. -/
theorem resultLine_roundTrip (multiplier : Int) (d : Dims) (gid trial : Nat) (S : List Int)
    (hS : S ≠ []) :
    let found := resultLine multiplier d gid (some (S.insertionSort (· ≤ ·), trial))
    let missed := resultLine multiplier d gid none
    let parms : List Int := [d.n, d.k, d.lam, d.mu, d.n, gid]
    (getParms found = .ok parms ∧ sortfun found = .ok parms ∧
      getPds found = .ok (S.insertionSort (· ≤ ·)) ∧ contains "None in".toList found = false) ∧
    (getParms missed = .ok parms ∧ sortfun missed = .ok parms ∧
      contains "None in".toList missed = true) := by
  intro found missed parms
  have hsorted : S.insertionSort (· ≤ ·) ≠ [] := by
    intro h
    exact hS (List.length_eq_zero_iff.1 (by rw [← List.length_insertionSort (· ≤ ·) S, h]; rfl))
  have hfound : found = lineOf d gid (spaced (S.insertionSort (· ≤ ·)) ++
      (".".toList ++ ("Tri: ".toList ++ (printInt trial ++ ['\n'])))) :=
    resultLine_lineOf multiplier d gid _ trial
  have hmissed : missed = _ := resultLine_none multiplier d gid
  unfold sortfun
  rw [hfound, hmissed]
  exact ⟨⟨getParms_line d gid _, getParms_line d gid _, getPds_line d gid hsorted _,
    contains_none d gid _ trial⟩, getParms_line d gid _, getParms_line d gid _,
    contains_none_in d gid _⟩

/-- The set `{1, 4}` in the group of order 5, found as the list `4, 1`. -/
theorem resultLine_roundTrip_five :
    getPds (resultLine 5 ⟨5, 2, 0, 1⟩ 1 (some ([1, 4], 2))) = .ok [1, 4] :=
  (resultLine_roundTrip 5 ⟨5, 2, 0, 1⟩ 1 2 [4, 1] (by decide)).1.2.2.1

end PdsSearch
