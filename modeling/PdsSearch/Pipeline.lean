import PdsSearch.CheckRun
import PdsSearch.RunInput
import PdsSearch.Search64
import PdsSearch.TrialRuns

/-!
# From the groups to the checked sets

The whole workflow: `gen_allTables.g` writes the tables, `searchMany.cpp` searches
every group for every parameter tuple in parallel, `sortAsData.py` sorts what it
printed, and the two checkers go through the sorted lines.

    every set found is a regular partial difference set of its group, `checkPDS.py` ends
    normally and prints exactly these sets with `True`, in the order of the keys
                                                              (pipeline_checks)
    `alternateCheckPDS.py` writes one line of GAP code for each, and GAP prints `true`
    wherever mu ≥ 1 and k < n - 1                           (pipeline_alternate)

For order 64, `gen_tables64.g` writes the tables of `search64.cpp`  (search64_tables64).
-/

namespace PdsSearch

open Checked Text MachineInt PartialDifferenceSet KeySort

/-! ## One group -/

/-- The table of a numbering, for a group of order `n`. -/
theorem exists_table {G : Type} [Group G] [DecidableEq G] {e : List G} {n : Nat} (hn : e.length = n)
    (hnd : e.Nodup) (hall : ∀ x, x ∈ e) (hone : e.head? = some 1) : ∃ (T : GroupTable n) (φ : T.Elem ≃* G),
      T.ct = cayley e ∧ ∀ a, T.idx a = e.idxOf (φ a) := by
  subst hn
  exact exists_groupTable hnd hall hone

/-- A set of indices, read in the table and in the group. -/
theorem placed_eq_map {G : Type} [Group G] [Fintype G] [LinearOrder G] {n : Nat} {T : GroupTable n}
    (φ : T.Elem ≃* G) (hidx : ∀ a, T.idx a = (elements G).idxOf (φ a)) (S : List Int) :
    placed G S = (T.toFinset S).map φ.toEquiv.toEmbedding := by
  ext y
  obtain ⟨x, rfl⟩ := φ.surjective y
  have hmem : φ x ∈ (T.toFinset S).map φ.toEquiv.toEmbedding ↔ x ∈ T.toFinset S :=
    Finset.mem_map' φ.toEquiv.toEmbedding
  unfold placed
  rw [hmem, T.mem_toFinset, Finset.mem_filter, hidx]
  unfold position
  rw [add_sub_cancel_right]
  exact ⟨fun h => h.2, fun h => ⟨Finset.mem_univ _, h⟩⟩

theorem isRegularPDS_placed {G : Type} [Group G] [Fintype G] [LinearOrder G] {n k : Nat} {lam mu : Int}
    {T : GroupTable n} (φ : T.Elem ≃* G) (hidx : ∀ a, T.idx a = (elements G).idxOf (φ a)) (S : List Int) :
    IsRegularPDS (placed G S) k lam mu ↔ IsRegularPDS (T.toFinset S) k lam mu := by
  rw [placed_eq_map φ hidx]
  exact isRegularPDS_map_iff φ

/-- What the task of a group found, with the line it printed. -/
structure Checks (L : SmallGroups) (files : Files) (multiplier : Int) (task : Dims × Nat)
    (result : Option (List Int × Nat)) : Prop where
  card : Fintype.card (L.G task.1.n task.2) = task.1.n
  /-- The set is a partial difference set of the group. -/
  pds : ∀ S trial, result = some (S, trial) → S ≠ [] ∧ (∀ x ∈ S, 0 ≤ x ∧ x < task.1.n) ∧
    IsRegularPDS (placed (L.G task.1.n task.2) S) task.1.k task.1.lam task.1.mu
  passes : Passes files (resultLine multiplier task.1 task.2 result)

/-- The task of a group whose table is there. -/
theorem exists_checks {L : SmallGroups} {files : Files} {d : Dims} {gid : Nat}
    (htable : HasSmallTable L (fun n id => tableName n id) files d.n gid) (h1 : 1 ≤ gid)
    (h2 : gid ≤ L.numGroups d.n) (hd : InRangeDims d) (hgid : Fits gid) (o : ArgOrder)
    (multiplier : Int) {rs : Nat → Nat} (hrs : Recurrent d rs) : ∃ result,
      Returns (fun fuel => groupTask files fuel o multiplier d gid rs) result ∧
        Checks L files multiplier (d, gid) result := by
  have hcard := L.card d.n gid h1 h2
  have hlen : (elements (L.G d.n gid)).length = d.n := by rw [length_elements, hcard]
  obtain ⟨T, φ, hct, hidx⟩ :=
    exists_table hlen nodup_elements mem_elements (elements_head (L.one_le d.n gid))
  have hfile : HasTable files gid T.toTable := by
    unfold HasTable
    rw [hct]
    exact htable
  obtain ⟨result, outs, hret, htrials, hend⟩ :=
    trialLoop_returns T.toTable hd.k.1 hd.k.2 (l2Error_mem (α := WrapInt)) hrs o (numTrials multiplier d).toNat 0 0
  refine ⟨result, ?_, ?_⟩
  · simp only [groupTask_eq T.toTable hfile hd.fits hgid]
    exact hret
  · cases result with
    | none =>
      refine ⟨hcard, ?_, .inl ?_⟩
      · intro S trial h
        cases h
      · unfold checkLine
        rw [resultLine_none, contains_none_in]
        rfl
    | some r =>
      obtain ⟨S, trial⟩ := r
      obtain ⟨failed, last, rfl, -, hlast, rfl, -, -⟩ := hend
      have hres := htrials.isResult T hd.k.1 hd.k.2 l2Error_mem (detects_wrap hd (by simp)) hrs last (by simp)
      rw [hlast] at hres
      have hfound := hres.isFound
      refine ⟨hcard, ?_, ?_⟩
      · rintro S' trial' h
        obtain ⟨rfl, rfl⟩ := Prod.mk.inj (Option.some.inj h)
        refine ⟨?_, ?_, ?_⟩
        · intro hnil
          have hlength := hfound.length
          rw [hnil, List.length_nil] at hlength
          have := hd.k.1
          omega
        · intro x hx
          have := hfound.values x hx
          exact ⟨by omega, this.2⟩
        · exact (isRegularPDS_placed φ hidx _).2 hfound.pds
      · right
        obtain ⟨c, hc⟩ := Candidate.exists_of_list T.toTable (last.set.insertionSort (· ≤ ·)) hfound.length
          (hfound.sorted.imp fun h => ne_of_lt h) hfound.values
        show checkLine files (resultLine multiplier d gid (some (last.set.insertionSort (· ≤ ·), trial))) = _
        rw [← hc, checkLine_iff T.toTable T.pos hd.k.1 c files gid hfile,
          error_zero_iff c _ (by simp [calculators]), hc]
        exact hfound.pds

/-! ## One line -/

/-- What `checkPDS.py` prints for a task. -/
def verdictText : Option (List Int × Nat) → Str
  | some (S, _) => printList S ++ "\nTrue\n".toList
  | none => []

/-- What `alternateCheckPDS.py` prints for a task. -/
def gapTaskText (d : Dims) (gid : Nat) : Option (List Int × Nat) → Str
  | some (S, _) => gapText (gapCode d.n gid d.k S) ++ ['\n']
  | none => []

section
variable (multiplier : Int) (d : Dims) (gid : Nat) {result : Option (List Int × Nat)}

theorem passText_resultLine (h : ∀ S trial, result = some (S, trial) → S ≠ []) :
    passText (resultLine multiplier d gid result) = verdictText result := by
  unfold passText
  cases result with
  | none =>
    rw [resultLine_none, contains_none_in]
    rfl
  | some r =>
    obtain ⟨S, trial⟩ := r
    rw [resultLine_lineOf, contains_none, contains_pds, if_neg (by simp), getPds_line d gid (h S trial rfl)]
    rfl

theorem gapLines_resultLine (h : ∀ S trial, result = some (S, trial) → S ≠ []) :
    gapLines (resultLine multiplier d gid result) = gapTaskText d gid result := by
  unfold gapLines
  cases result with
  | none =>
    unfold alternateLine
    rw [resultLine_none, contains_none_in]
    rfl
  | some r =>
    obtain ⟨S, trial⟩ := r
    rw [alternateLine_result multiplier d gid (h S trial rfl)]
    rfl

end

/-! ## All groups -/

/-- The range of parameter tuples is one the search accepts, with numbers that an `int` holds, for groups whose
tables are written. -/
structure ValidRun (L : SmallGroups) (orders : List Nat) (allDims : List Dims) (rows : List (Nat × Nat))
    (startDim endDim : Nat) : Prop where
  range : startDim < endDim → endDim ≤ allDims.length
  order : ∀ d ∈ dimRange allDims startDim endDim, d.n ∈ orders ∧ d.n ≤ rows.length
  inRange : ∀ d ∈ dimRange allDims startDim endDim, InRangeDims d
  groups : ∀ d ∈ dimRange allDims startDim endDim, numGroupsOf rows d.n ≤ L.numGroups d.n

/-- The results of all tasks of a run. -/
def Results (L : SmallGroups) (files : Files) (multiplier : Int) (o : ArgOrder)
    (rs : Dims × Nat → Nat → Nat) (all : List (Dims × Nat)) (result : Dims × Nat → Option (List Int × Nat)) :
    Prop :=
  ∀ task ∈ all, Returns (fun fuel => groupTask files fuel o multiplier task.1 task.2 (rs task)) (result task) ∧
    Checks L files multiplier task (result task)

section
variable {L : SmallGroups} {orders : List Nat} {files₀ files : Files} {allDims : List Dims}
  {rows : List (Nat × Nat)} {startDim endDim : Nat} {multiplier : Int} {o : ArgOrder}
  {rs : Dims × Nat → Nat → Nat} {result : Dims × Nat → Option (List Int × Nat)}

/-- The generators leave the input files alone. -/
theorem RunFiles.of_genAllTables (hin : RunFiles files₀ allDims rows)
    (hgen : genAllTables L orders files₀ = .ok files) : RunFiles files allDims rows := by
  obtain ⟨files', hgen', hother, -⟩ := genAllTables_tables L orders files₀
  obtain rfl : files = files' := Except.ok.inj (hgen.symm.trans hgen')
  have hname : ∀ name : Str, name.head? = some 'r' → files name = files₀ name := by
    intro name hr
    refine hother name fun n _ id _ _ heq => ?_
    rw [heq, tableName_head] at hr
    exact absurd (Option.some.inj hr) (by decide)
  refine ⟨?_, ?_, hin.rows_le⟩
  · rw [hname dimsName rfl]
    exact hin.dims
  · rw [hname numGroupsName rfl]
    exact hin.groups

variable (multiplier o rs) in
/-- **Every task ends.** -/
theorem exists_results (hin : RunFiles files₀ allDims rows) (hgen : genAllTables L orders files₀ = .ok files)
    (hrun : ValidRun L orders allDims rows startDim endDim)
    (hrs : ∀ task ∈ tasks allDims (numGroupsOf rows) startDim endDim, Recurrent task.1 (rs task)) :
    ∃ result, Results L files multiplier o rs (tasks allDims (numGroupsOf rows) startDim endDim) result := by
  obtain ⟨files', hgen', -, htables⟩ := genAllTables_tables L orders files₀
  obtain rfl : files = files' := Except.ok.inj (hgen.symm.trans hgen')
  have htask : ∀ task ∈ tasks allDims (numGroupsOf rows) startDim endDim, ∃ result,
      Returns (fun fuel => groupTask files fuel o multiplier task.1 task.2 (rs task)) result ∧
        Checks L files multiplier task result := by
    intro task ht
    obtain ⟨d, hd, hgroup⟩ := List.mem_flatMap.1 ht
    obtain ⟨gid, hgid, rfl⟩ := List.mem_map.1 hgroup
    rw [List.mem_range'_1] at hgid
    have hcount := hin.fits_groups d.n
    have hle := hrun.groups d hd
    have hfits : Fits gid := by
      unfold Fits at hcount ⊢
      omega
    exact exists_checks (htables d.n (hrun.order d hd).1 gid (by omega) (by omega)) (by omega) (by omega)
      (hrun.inRange d hd) hfits o multiplier (hrs _ ht)
  choose! result hresult using htask
  exact ⟨result, hresult⟩

/-- The lines of the sorted output. -/
theorem exists_sorted (hin : RunFiles files allDims rows) (hrun : ValidRun L orders allDims rows startDim endDim)
    (hres : Results L files multiplier o rs (tasks allDims (numGroupsOf rows) startDim endDim) result) :
    ∃ order : List (Dims × Nat), order.Perm (tasks allDims (numGroupsOf rows) startDim endDim) ∧
      SortedBy taskKey order ∧
      (∃ out, SearchManyMain files o startDim endDim multiplier rs out) ∧
      (∀ out, SearchManyMain files o startDim endDim multiplier rs out →
        sortAsData out = .ok (order.flatMap (taskLine multiplier result))) ∧
      readlines (order.flatMap (taskLine multiplier result)) = order.map (taskLine multiplier result) ∧
      ∀ task ∈ order, Checks L files multiplier task (result task) := by
  have hperm : (keySort taskKey (tasks allDims (numGroupsOf rows) startDim endDim)).Perm _ := keySort_perm _
  have hn := fun d hd => (hrun.order d hd).2
  have hrets := fun task ht => (hres task ht).1
  refine ⟨keySort taskKey (tasks allDims (numGroupsOf rows) startDim endDim), hperm, keySort_sorted _,
    exists_searchManyMain hin hrun.range hn hrets, ?_, ?_, ?_⟩
  · intro out hout
    obtain ⟨order, hperm', rfl⟩ := hout.lines hin hrun.range hn hrets
    rw [sortAsData_output, keyOrder_unique hperm']
    rfl
  · rw [List.flatMap_def, readlines_flatten]
    intro l hl
    obtain ⟨t, -, rfl⟩ := List.mem_map.1 hl
    exact isLine_taskLine multiplier result t
  · exact fun task ht => (hres task (hperm.mem_iff.1 ht)).2

end

/-- **The workflow finds partial difference sets only, and its checker confirms them.**  Let the input files
list the tuples and the group counts in any layout, the tables be written, the range be valid and the
generators take every value again and again.  Then the search ends on some schedule; and whatever the
interleaving of its loops, its output can be sorted, `checkPDS.py` goes through the sorted lines to their end
and prints each set that was found, followed by `True`, in the order of the keys; and each of these
sets is a regular partial difference set, with the parameters of its line, of its group. -/
theorem pipeline_checks {L : SmallGroups} {orders : List Nat} {files₀ files : Files} {allDims : List Dims}
    {rows : List (Nat × Nat)} {startDim endDim : Nat} (multiplier : Int) (o : ArgOrder)
    (rs : Dims × Nat → Nat → Nat) (hin : RunFiles files₀ allDims rows)
    (hgen : genAllTables L orders files₀ = .ok files) (hrun : ValidRun L orders allDims rows startDim endDim)
    (hrs : ∀ task ∈ tasks allDims (numGroupsOf rows) startDim endDim, Recurrent task.1 (rs task)) :
    ∃ (result : Dims × Nat → Option (List Int × Nat)) (order : List (Dims × Nat)),
      (∀ task ∈ tasks allDims (numGroupsOf rows) startDim endDim,
        Returns (fun fuel => groupTask files fuel o multiplier task.1 task.2 (rs task)) (result task)) ∧
      order.Perm (tasks allDims (numGroupsOf rows) startDim endDim) ∧ SortedBy taskKey order ∧
      (∀ task ∈ order, ∀ S trial, result task = some (S, trial) →
        IsRegularPDS (placed (L.G task.1.n task.2) S) task.1.k task.1.lam task.1.mu) ∧
      (∃ out, SearchManyMain files o startDim endDim multiplier rs out) ∧
      ∀ out, SearchManyMain files o startDim endDim multiplier rs out → ∃ sorted,
        sortAsData out = .ok sorted ∧ (checkMain files sorted).result = .ok () ∧
          (checkMain files sorted).text = order.flatMap fun task => verdictText (result task) := by
  have hin' := hin.of_genAllTables hgen
  obtain ⟨result, hres⟩ := exists_results multiplier o rs hin hgen hrun hrs
  obtain ⟨order, hperm, hsorted, hsome, hsort, hlines, hchecks⟩ := exists_sorted hin' hrun hres
  refine ⟨result, order, fun task ht => (hres task ht).1, hperm, hsorted, ?_, hsome, ?_⟩
  · exact fun task ht S trial h => ((hchecks task ht).pds S trial h).2.2
  · intro out hout
    have hok : (checkMain files (order.flatMap (taskLine multiplier result))).result = .ok () := by
      rw [checkMain_ok_iff, hlines]
      intro a ha
      obtain ⟨task, ht, rfl⟩ := List.mem_map.1 ha
      exact (hchecks task ht).passes
    refine ⟨_, hsort out hout, hok, ?_⟩
    rw [checkMain_text hok, hlines, List.flatMap_map]
    apply List.flatMap_congr
    intro task ht
    exact passText_resultLine multiplier task.1 task.2 fun S trial h => ((hchecks task ht).pds S trial h).1

/-- A directory with `(5,2,0,1)`, and one group of each order up to 5. -/
theorem exists_runFiles_five : ∃ files : Files,
    RunFiles files [⟨5, 2, 0, 1⟩] [(1, 1), (2, 1), (3, 1), (4, 1), (5, 1)] := by
  have hdims : Numbers [1, 5, 2, 0, 1] ([] ++ spaced [1, 5, 2, 0, 1]) := numbers_spaced (by decide) (by simp)
  have hgroups : Numbers [5, 1, 1, 2, 1, 3, 1, 4, 1, 5, 1] ([] ++ spaced [5, 1, 1, 2, 1, 3, 1, 4, 1, 5, 1]) :=
    numbers_spaced (by decide) (by simp)
  refine ⟨fun name => if name = dimsName then some ([] ++ spaced [1, 5, 2, 0, 1])
    else some ([] ++ spaced [5, 1, 1, 2, 1, 3, 1, 4, 1, 5, 1]), ⟨_, if_pos rfl, hdims⟩,
    ⟨_, if_neg (by decide), hgroups⟩, by decide⟩

/-- The run over `(5,2,0,1)` is valid. -/
theorem validRun_five : ValidRun (cyclicGroups 1) [5] [⟨5, 2, 0, 1⟩] [(1, 1), (2, 1), (3, 1), (4, 1), (5, 1)] 0 1 := by
  constructor
  · decide
  · decide
  · intro d hd
    obtain rfl : d = ⟨5, 2, 0, 1⟩ := by simpa [dimRange] using hd
    exact inRangeDims_five
  · decide

theorem recurrent_five : ∀ task ∈ tasks [⟨5, 2, 0, 1⟩] (numGroupsOf [(1, 1), (2, 1), (3, 1), (4, 1), (5, 1)]) 0 1,
    Recurrent task.1 id := by
  intro task ht
  obtain ⟨d, hd, hgroup⟩ := List.mem_flatMap.1 ht
  obtain ⟨gid, -, rfl⟩ := List.mem_map.1 hgroup
  exact recurrent_id (validRun_five.inRange d hd).n.1

/-- One tuple and one group, with a counter as generator. -/
theorem pipeline_checks_five : ∃ (files : Files) (result : Dims × Nat → Option (List Int × Nat))
    (order : List (Dims × Nat)),
    (∃ out, SearchManyMain files .leftFirst 0 1 1 (fun _ => id) out) ∧
    ∀ out, SearchManyMain files .leftFirst 0 1 1 (fun _ => id) out → ∃ sorted,
      sortAsData out = .ok sorted ∧ (checkMain files sorted).result = .ok () ∧
        (checkMain files sorted).text = order.flatMap fun task => verdictText (result task) := by
  obtain ⟨files₀, hin⟩ := exists_runFiles_five
  obtain ⟨files, hgen, -⟩ := genAllTables_tables (cyclicGroups 1) [5] files₀
  obtain ⟨result, order, -, -, -, -, hsome, hout⟩ :=
    pipeline_checks 1 .leftFirst (fun _ => id) hin hgen validRun_five recurrent_five
  exact ⟨files, result, order, hsome, hout⟩

/-- **The second checker confirms them in GAP.**  On the same sorted output `alternateCheckPDS.py` writes,
after its head, one line of GAP code for each set found; and where `mu ≥ 1` and `k < n - 1` the line
prints `true` in the group it names. -/
theorem pipeline_alternate {L : SmallGroups} {orders : List Nat} {files₀ files : Files} {allDims : List Dims}
    {rows : List (Nat × Nat)} {startDim endDim : Nat} (multiplier : Int) (o : ArgOrder)
    (rs : Dims × Nat → Nat → Nat) (hin : RunFiles files₀ allDims rows)
    (hgen : genAllTables L orders files₀ = .ok files) (hrun : ValidRun L orders allDims rows startDim endDim)
    (hrs : ∀ task ∈ tasks allDims (numGroupsOf rows) startDim endDim, Recurrent task.1 (rs task)) :
    ∃ (result : Dims × Nat → Option (List Int × Nat)) (order : List (Dims × Nat)),
      (∀ task ∈ tasks allDims (numGroupsOf rows) startDim endDim,
        Returns (fun fuel => groupTask files fuel o multiplier task.1 task.2 (rs task)) (result task)) ∧
      order.Perm (tasks allDims (numGroupsOf rows) startDim endDim) ∧
      (∃ out, SearchManyMain files o startDim endDim multiplier rs out) ∧
      (∀ out, SearchManyMain files o startDim endDim multiplier rs out → ∃ sorted,
        sortAsData out = .ok sorted ∧ ∀ fname, (alternateMain fname sorted).result = .ok () ∧
          (alternateMain fname sorted).text =
            alternateHead fname ++ order.flatMap fun task => gapTaskText task.1 task.2 (result task)) ∧
      ∀ task ∈ order, 1 ≤ task.1.mu → task.1.k < task.1.n - 1 → ∀ S trial, result task = some (S, trial) →
        (gapCode task.1.n task.2 task.1.k S).prints (L.G task.1.n task.2) = .ok true := by
  have hin' := hin.of_genAllTables hgen
  obtain ⟨result, hres⟩ := exists_results multiplier o rs hin hgen hrun hrs
  obtain ⟨order, hperm, -, hsome, hsort, hlines, hchecks⟩ := exists_sorted hin' hrun hres
  refine ⟨result, order, fun task ht => (hres task ht).1, hperm, hsome, ?_, ?_⟩
  · intro out hout
    refine ⟨_, hsort out hout, fun fname => ?_⟩
    have hok : (alternateMain fname (order.flatMap (taskLine multiplier result))).result = .ok () := by
      rw [alternateMain_ok_iff, hlines]
      intro a ha
      obtain ⟨task, ht, rfl⟩ := List.mem_map.1 ha
      rcases alternateLine_of_passes (hchecks task ht).passes with ⟨-, hline⟩ | ⟨-, c, -, -, hline, -⟩
      · exact ⟨_, hline⟩
      · exact ⟨_, hline⟩
    refine ⟨hok, ?_⟩
    rw [alternateMain_text hok, hlines, List.flatMap_map]
    congr 1
    apply List.flatMap_congr
    intro task ht
    exact gapLines_resultLine multiplier task.1 task.2 fun S trial h => ((hchecks task ht).pds S trial h).1
  · intro task ht hmu hk S trial h
    have hcard := (hchecks task ht).card
    obtain ⟨-, hS, hpds⟩ := (hchecks task ht).pds S trial h
    have hD := hpds.card
    rw [prints_gapCode (L.one_le _ _) _ _ _ S fun i hi => by rw [hcard]; exact hS i hi]
    refine ⟨by rw [hD], hpds.inv_mem, hpds.one_notMem, ?_⟩
    have hpds' := hpds
    rw [← hD] at hpds'
    exact CayleyMatrix.natDegree_minpoly_pds hpds.inv_mem hpds.one_notMem hpds' (by omega) (by omega)

/-- The same run. -/
theorem pipeline_alternate_five : ∃ (files : Files) (result : Dims × Nat → Option (List Int × Nat))
    (order : List (Dims × Nat)),
    (∃ out, SearchManyMain files .leftFirst 0 1 1 (fun _ => id) out) ∧
    ∀ out, SearchManyMain files .leftFirst 0 1 1 (fun _ => id) out → ∃ sorted,
      sortAsData out = .ok sorted ∧ ∀ fname, (alternateMain fname sorted).result = .ok () ∧
        (alternateMain fname sorted).text =
          alternateHead fname ++ order.flatMap fun task => gapTaskText task.1 task.2 (result task) := by
  obtain ⟨files₀, hin⟩ := exists_runFiles_five
  obtain ⟨files, hgen, -⟩ := genAllTables_tables (cyclicGroups 1) [5] files₀
  obtain ⟨result, order, -, -, hsome, hout, -⟩ :=
    pipeline_alternate 1 .leftFirst (fun _ => id) hin hgen validRun_five recurrent_five
  exact ⟨files, result, order, hsome, hout⟩

/-! ## Order 64 -/

/-- **The comparison of the calculators is about the groups of order 64.**  On the tables that
`gen_tables64.g` wrote, `search64.cpp` ends, with such generators, and prints a line for each group: its
number of conjugacy classes over 64, and for each calculator how many of the `NUM_TRIALS` searches ended at a
partial difference set of the group. -/
theorem search64_tables64 (L : SmallGroups) (h267 : 267 ≤ L.numGroups 64) {files₀ files : Files}
    (hgen : genTables64 L files₀ = .ok files) {d : Dims} (hn : d.n = 64) (hd : InRangeDims d)
    (numGroups : Nat) (hcount : numGroups ≤ 267) (o : ArgOrder) (numTrials : Int) (rs : Nat → Nat → Nat)
    (hrs : ∀ id, 1 ≤ id → id ≤ numGroups → Recurrent d (rs id)) (printDouble : ℚ → Str) (clock : Str) :
    ∃ blocks : Nat → List (List (Outcome WrapInt)),
      (∀ id, 1 ≤ id → id ≤ numGroups → (blocks id).length = 3 ∧ ∀ outs ∈ blocks id,
        outs.length = numTrials.toNat ∧
        ∀ out ∈ outs, out.err = 0 ↔ IsRegularPDS (placed (L.G 64 id) out.set) d.k d.lam d.mu) ∧
      Returns (fun fuel => search64 files fuel o "tables64".toList d numTrials numGroups printDouble rs clock)
        (((List.range' 1 numGroups).flatMap fun id =>
            (groupPieces printDouble id (Nat.card (ConjClasses (L.G 64 id)) / 64)
              ((blocks id).map numFound)).flatten) ++
          "\n".toList ++ "overall runtime: ".toList ++ clock ++ "\n".toList) := by
  obtain ⟨n, k, lam, mu⟩ := d
  obtain rfl : n = 64 := hn
  have hgroup : ∀ id, 1 ≤ id → id ≤ numGroups → ∃ T : GroupTable 64,
      (files (groupFile "tables64".toList id)).bind (loadTable 64) = some T.ct ∧
      Nat.card (L.G 64 id) = 64 ∧ ∃ φ : T.Elem ≃* L.G 64 id, ∀ a, T.idx a = (elements (L.G 64 id)).idxOf (φ a) := by
    intro id h1 h2
    have hcard := L.card 64 id h1 (by omega)
    have hlen : (elements (L.G 64 id)).length = 64 := by rw [length_elements, hcard]
    have hfits : Fits id := by
      unfold Fits
      omega
    obtain ⟨T, φ, hct, hidx⟩ :=
      exists_table hlen nodup_elements mem_elements (elements_head (L.one_le 64 id))
    have hload := (genTables64_tables h267 hgen h1 (by omega)).load h1 (by omega) (by decide) hfits
    refine ⟨T, ?_, by rw [Nat.card_eq_fintype_card, hcard], φ, hidx⟩
    rw [hct]
    exact hload
  have : Nonempty (GroupTable 64) := ⟨cyclicTable 64⟩
  choose! T hT using hgroup
  obtain ⟨blocks, hblocks⟩ := exists_groupBlocks (d := ⟨64, k, lam, mu⟩) T hd.k.1 hd.k.2 (fun id h1 h2 => (hT id h1 h2).1)
    o numTrials printDouble hrs
  refine ⟨blocks, ?_, ?_⟩
  · intro id h1 h2
    obtain ⟨-, -, φ, hidx⟩ := hT id h1 h2
    obtain ⟨-, hid⟩ := hblocks id h1 h2
    refine ⟨hid.length, fun outs houts => ?_⟩
    obtain ⟨hlen, hzero⟩ := hid.isResult (T id) hd (by show 64 ≤ 75; omega) (hrs id h1 h2) errors_mem outs houts
    refine ⟨hlen, fun out hout => ?_⟩
    exact (hzero out hout).trans (isRegularPDS_placed φ hidx out.set).symm
  · have h := hblocks.returns (d := ⟨64, k, lam, mu⟩) T (fun id h1 h2 => (hT id h1 h2).1) o numTrials printDouble clock
    have hlines : ((List.range' 1 numGroups).flatMap fun id =>
          groupText64 (d := ⟨64, k, lam, mu⟩) (T id) printDouble id (blocks id)) =
        (List.range' 1 numGroups).flatMap fun id =>
          (groupPieces printDouble id (Nat.card (ConjClasses (L.G 64 id)) / 64) ((blocks id).map numFound)).flatten := by
      apply List.flatMap_congr
      intro id hid
      rw [List.mem_range'_1] at hid
      obtain ⟨-, hcard, φ, -⟩ := hT id hid.1 (by omega)
      have hprob := Commuting.commProb_congr φ
      rw [commProb_def', commProb_def', hcard, Nat.card_congr φ.toEquiv, hcard] at hprob
      unfold groupText64
      exact congrArg (fun q => (groupPieces printDouble id q ((blocks id).map numFound)).flatten) hprob
    rw [hlines] at h
    exact h

/-- The cyclic group of order 64 in all 267 places, for `(64,18,2,6)`. -/
theorem search64_tables64_cyclic : ∃ (files : Files) (blocks : Nat → List (List (Outcome WrapInt))),
    genTables64 (cyclicGroups 267) (fun _ => none) = .ok files ∧
    Returns (fun fuel => search64 files fuel .leftFirst "tables64".toList ⟨64, 18, 2, 6⟩ 10 267 (fun _ => [])
        (fun _ => id) [])
      (((List.range' 1 267).flatMap fun id =>
          (groupPieces (fun _ => []) id (Nat.card (ConjClasses ((cyclicGroups 267).G 64 id)) / 64)
            ((blocks id).map numFound)).flatten) ++
        "\n".toList ++ "overall runtime: ".toList ++ [] ++ "\n".toList) := by
  have h267 : 267 ≤ (cyclicGroups 267).numGroups 64 := by decide
  obtain ⟨files, hgen, -⟩ :=
    genTables_ok (n := 64) (fun _ id => tableName64 id) (fun id id' heq => tableName64_inj heq) h267 fun _ => none
  obtain ⟨blocks, -, hmain⟩ := search64_tables64 (cyclicGroups 267) h267 hgen (d := ⟨64, 18, 2, 6⟩) rfl
    ⟨by decide, by decide, by decide, by decide⟩ 267 (le_refl _) .leftFirst 10 (fun _ => id)
    (fun _ _ _ => recurrent_id (by decide)) (fun _ => []) []
  exact ⟨files, blocks, hgen, hmain⟩

end PdsSearch
