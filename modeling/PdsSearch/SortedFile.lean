import PdsSearch.SortAsData
import PdsSearch.Lib.KeySort

/-!
# `sortAsData.py` on any file

The script keeps the lines with `PDS` in them, parses a key from each and sorts by
the keys.  On any file it stops at the first line without a key; else its output is
these lines in the order of the keys, lines with one key as they stood in the file.
Files can be sorted one by one first, so a search over many parameter tuples can be
cut into runs:

    sortAsData (file ++ file') = sortAsData (sortAsData file ++ sortAsData file')
                                                             (sortAsData_append)
    output of the run from s to m, then of the run from m to t: sorted, this is the
      sorted output of the run from s to t                   (sortAsData_splits)
-/

namespace PdsSearch

open Text KeySort Checked ParallelFor

/-! ## Algorithm -/

/-- The lines the script sorts. -/
def pdsLines (file : Str) : List Str := (readlines file).filter fun a => contains "PDS".toList a

/-- The key of a line that has one. -/
def lineKey (x : Str) : List Int :=
  match sortfun x with
  | .ok key => key
  | .error _ => []

def HasKey (x : Str) : Prop := ∃ key, sortfun x = .ok key

/-! ## Lemmas -/

theorem sortfun_lineKey {x : Str} (h : HasKey x) : sortfun x = .ok (lineKey x) := by
  obtain ⟨key, hkey⟩ := h
  unfold lineKey
  rw [hkey]

/-- With a key on every line. -/
theorem sortAsData_keys {file : Str} (h : ∀ x ∈ pdsLines file, HasKey x) :
    sortAsData file = .ok (keySort lineKey (pdsLines file)).flatten := by
  have hkeyed : (pdsLines file).mapM (fun x => do return (← sortfun x, x)) =
      (.ok ((pdsLines file).map fun x => (lineKey x, x)) : Except PyStop _) := by
    apply mapM_ok
    intro x hx
    rw [sortfun_lineKey (h x hx)]
    rfl
  have hsort : ((pdsLines file).map fun x => (lineKey x, x)).insertionSort (fun a b => a.1 ≤ b.1) =
      (keySort lineKey (pdsLines file)).map fun x => (lineKey x, x) :=
    (List.map_insertionSort (fun x y => lineKey x ≤ lineKey y) (fun a b => a.1 ≤ b.1)
      (fun x => (lineKey x, x)) _ fun a _ b _ => Iff.rfl).symm
  unfold sortAsData
  dsimp only
  show ((pdsLines file).mapM _ >>= _) = _
  rw [hkeyed, ok_bind, hsort, List.map_map]
  show Except.ok _ = _
  congr 2
  exact List.map_id _

/-- The first line without a key. -/
theorem sortAsData_error {file : Str} {l₁ l₂ : List Str} {x : Str} {stop : PyStop}
    (hlines : pdsLines file = l₁ ++ x :: l₂) (h : ∀ y ∈ l₁, HasKey y) (hx : sortfun x = .error stop) :
    sortAsData file = .error stop := by
  have hkeyed : l₁.mapM (fun x => do return (← sortfun x, x)) =
      (.ok (l₁.map fun x => (lineKey x, x)) : Except PyStop _) := by
    apply mapM_ok
    intro y hy
    rw [sortfun_lineKey (h y hy)]
    rfl
  unfold sortAsData
  dsimp only
  show ((pdsLines file).mapM _ >>= _) = _
  rw [hlines, List.mapM_append, hkeyed, ok_bind, List.mapM_cons, hx]
  rfl

theorem exists_first_error {l : List Str} (h : ¬ ∀ x ∈ l, HasKey x) :
    ∃ l₁ x l₂ stop, l = l₁ ++ x :: l₂ ∧ (∀ y ∈ l₁, HasKey y) ∧ sortfun x = .error stop := by
  induction l with
  | nil => exact absurd (by simp) h
  | cons x l ih =>
    cases hx : sortfun x with
    | error stop => exact ⟨[], x, l, stop, rfl, by simp, hx⟩
    | ok key =>
      have hl : ¬ ∀ y ∈ l, HasKey y := by
        intro hl
        apply h
        rw [List.forall_mem_cons]
        exact ⟨⟨key, hx⟩, hl⟩
      obtain ⟨l₁, y, l₂, stop, rfl, hl₁, hy⟩ := ih hl
      refine ⟨x :: l₁, y, l₂, stop, rfl, ?_, hy⟩
      rw [List.forall_mem_cons]
      exact ⟨⟨key, hx⟩, hl₁⟩

/-- The script ends normally exactly when every line has a key. -/
theorem sortAsData_ok_iff (file : Str) : (∃ out, sortAsData file = .ok out) ↔ ∀ x ∈ pdsLines file, HasKey x := by
  constructor
  · rintro ⟨out, hout⟩
    by_contra h
    obtain ⟨l₁, x, l₂, stop, hlines, hl₁, hx⟩ := exists_first_error h
    rw [sortAsData_error hlines hl₁ hx] at hout
    cases hout
  · intro h
    exact ⟨_, sortAsData_keys h⟩

/-- Only the lines with `PDS` matter. -/
theorem sortAsData_congr {file file' : Str} (h : pdsLines file = pdsLines file') :
    sortAsData file = sortAsData file' := by
  unfold pdsLines at h
  unfold sortAsData
  rw [h]

theorem pdsLines_append {file : Str} (hfile : Terminated file) (file' : Str) :
    pdsLines (file ++ file') = pdsLines file ++ pdsLines file' := by
  unfold pdsLines
  rw [readlines_append hfile, List.filter_append]

/-- Whole lines with `PDS`, as a file. -/
theorem pdsLines_flatten {lines : List Str} (h : ∀ l ∈ lines, IsLine l ∧ contains "PDS".toList l = true) :
    pdsLines lines.flatten = lines := by
  unfold pdsLines
  rw [readlines_flatten fun l hl => (h l hl).1, List.filter_eq_self]
  exact fun l hl => (h l hl).2

/-- The lines of a file that ends with a newline, sorted. -/
theorem sorted_lines {file : Str} (hfile : Terminated file) :
    ∀ l ∈ keySort lineKey (pdsLines file), IsLine l ∧ contains "PDS".toList l = true := by
  intro l hl
  rw [(keySort_perm _).mem_iff] at hl
  obtain ⟨hl, hpds⟩ := List.mem_filter.1 hl
  exact ⟨isLine_readlines hfile l hl, hpds⟩

/-! ## Any file -/

/-- **`sortAsData.py` sorts, and is stable.**  On any file it stops at the first line with `PDS` that
has no key, and prints nothing; without such a line it prints a permutation of the lines with
`PDS`, in the order of the keys, lines with the same key in their old order.  If the file ends with
a newline, the output is a file of these lines that the script leaves as it is. -/
theorem sortAsData_file (file : Str) :
    (∀ l₁ x l₂ stop, pdsLines file = l₁ ++ x :: l₂ → (∀ y ∈ l₁, HasKey y) → sortfun x = .error stop →
      sortAsData file = .error stop) ∧
    ((∀ x ∈ pdsLines file, HasKey x) → ∃ lines, sortAsData file = .ok lines.flatten ∧
      lines.Perm (pdsLines file) ∧ SortedBy lineKey lines ∧
      (∀ key, withKey lineKey key lines = withKey lineKey key (pdsLines file)) ∧
      (Terminated file → readlines lines.flatten = lines ∧
        sortAsData lines.flatten = .ok lines.flatten)) := by
  constructor
  · intro l₁ x l₂ stop hlines hl₁ hx
    exact sortAsData_error hlines hl₁ hx
  · intro h
    refine ⟨_, sortAsData_keys h, keySort_perm _, keySort_sorted _, fun key => withKey_keySort key _, ?_⟩
    intro hfile
    have hlines := pdsLines_flatten (sorted_lines hfile)
    refine ⟨readlines_flatten fun l hl => (sorted_lines hfile l hl).1, ?_⟩
    rw [sortAsData_keys, hlines, keySort_keySort]
    intro x hx
    rw [hlines, (keySort_perm _).mem_iff] at hx
    exact h x hx

/-- **Files can be sorted one by one first.** -/
theorem sortAsData_append {file file' out out' : Str} (hfile : Terminated file) (hfile' : Terminated file')
    (h : sortAsData file = .ok out) (h' : sortAsData file' = .ok out') : ∃ sorted,
    sortAsData (file ++ file') = .ok sorted ∧ sortAsData (out ++ out') = .ok sorted := by
  have hkeys := (sortAsData_ok_iff file).1 ⟨out, h⟩
  have hkeys' := (sortAsData_ok_iff file').1 ⟨out', h'⟩
  rw [sortAsData_keys hkeys, Except.ok.injEq] at h
  rw [sortAsData_keys hkeys', Except.ok.injEq] at h'
  subst h h'
  have hlines : pdsLines ((keySort lineKey (pdsLines file)).flatten ++
      (keySort lineKey (pdsLines file')).flatten) =
      keySort lineKey (pdsLines file) ++ keySort lineKey (pdsLines file') := by
    rw [pdsLines_append (terminated_flatten fun l hl => (sorted_lines hfile l hl).1),
      pdsLines_flatten (sorted_lines hfile), pdsLines_flatten (sorted_lines hfile')]
  have hboth : ∀ x ∈ pdsLines file ++ pdsLines file', HasKey x := by
    intro x hx
    rcases List.mem_append.1 hx with hx | hx
    · exact hkeys x hx
    · exact hkeys' x hx
  refine ⟨(keySort lineKey (pdsLines file ++ pdsLines file')).flatten, ?_, ?_⟩
  · rw [sortAsData_keys, pdsLines_append hfile]
    rwa [pdsLines_append hfile]
  · rw [sortAsData_keys, hlines, keySort_append_keySort]
    intro x hx
    rw [hlines, List.mem_append, (keySort_perm _).mem_iff, (keySort_perm _).mem_iff, ← List.mem_append] at hx
    exact hboth x hx

/-- A file with its two lines in the wrong order, and one with a line that goes between them. -/
theorem sortAsData_append_two :
    let found := resultLine 5 ⟨5, 2, 0, 1⟩ 1 (some ([1, 4], 2))
    let missed := resultLine 5 ⟨9, 4, 1, 2⟩ 1 none
    let middle := resultLine 5 ⟨6, 2, 0, 1⟩ 2 none
    ∃ sorted, sortAsData (missed ++ found ++ middle) = .ok sorted ∧
      sortAsData (found ++ missed ++ middle) = .ok sorted :=
  sortAsData_append (fun _c hc => (Option.some.inj hc).symm) (fun _c hc => (Option.some.inj hc).symm)
    rfl rfl

/-! ## Runs that were cut -/

section
variable (allDims : List Dims) (numGroupsOfOrder : Nat → Nat) (multiplier : Int)
  (result : Dims × Nat → Option (List Int × Nat))

/-- The outputs, one after the other, of runs that end where the next one starts. -/
inductive SplitOutput (startDim : Nat) : Nat → Str → Prop
  | nil : SplitOutput startDim startDim []
  | run {midDim endDim out out'} : startDim ≤ midDim → midDim ≤ endDim → SplitOutput startDim midDim out →
      SearchManyOutput allDims midDim endDim numGroupsOfOrder multiplier result out' →
      SplitOutput startDim endDim (out ++ out')

/-- All tasks of a run. -/
def tasks (startDim endDim : Nat) : List (Dims × Nat) :=
  (dimRange allDims startDim endDim).flatMap (groups numGroupsOfOrder)

theorem tasks_append {startDim midDim endDim : Nat} (h : startDim ≤ midDim) (h' : midDim ≤ endDim) :
    tasks allDims numGroupsOfOrder startDim endDim =
      tasks allDims numGroupsOfOrder startDim midDim ++ tasks allDims numGroupsOfOrder midDim endDim := by
  have hrange : dimRange allDims startDim endDim =
      dimRange allDims startDim midDim ++ dimRange allDims midDim endDim := by
    unfold dimRange
    rw [show endDim - startDim = (midDim - startDim) + (endDim - midDim) by omega, List.take_add,
      List.drop_drop, show startDim + (midDim - startDim) = midDim by omega]
  unfold tasks
  rw [hrange, List.flatMap_append]

theorem isLine_taskLine (task : Dims × Nat) : IsLine (taskLine multiplier result task) :=
  ⟨taskText multiplier result task, taskLine_eq multiplier result task,
    notMem_taskText multiplier result (.inl rfl) task, notMem_taskText multiplier result (.inr rfl) task⟩

theorem terminated_taskLines (order : List (Dims × Nat)) :
    Terminated (order.flatMap (taskLine multiplier result)) := by
  rw [List.flatMap_def]
  apply terminated_flatten
  intro l hl
  obtain ⟨t, -, rfl⟩ := List.mem_map.1 hl
  exact isLine_taskLine multiplier result t

theorem pdsLines_output (order : List (Dims × Nat)) :
    pdsLines (header ++ order.flatMap (taskLine multiplier result)) = order.map (taskLine multiplier result) := by
  unfold pdsLines
  rw [readlines_output, List.filter_cons_of_neg (by decide), List.filter_cons_of_neg (by decide),
    List.filter_eq_self]
  intro a ha
  obtain ⟨t, -, rfl⟩ := List.mem_map.1 ha
  exact contains_taskLine multiplier result t

variable {allDims numGroupsOfOrder multiplier result}

/-- A run prints the header and its lines. -/
theorem SearchManyOutput.order {startDim endDim : Nat} {out : Str}
    (h : SearchManyOutput allDims startDim endDim numGroupsOfOrder multiplier result out) :
    ∃ order : List (Dims × Nat), order.Perm (tasks allDims numGroupsOfOrder startDim endDim) ∧
      out = header ++ order.flatMap (taskLine multiplier result) := by
  obtain ⟨pieces, hcomp, rfl⟩ := h
  obtain ⟨order, hperm, rfl⟩ := hcomp.order
  refine ⟨order, hperm, ?_⟩
  rw [List.flatMap_def, List.flatMap_def, List.flatten_flatten, List.map_map]
  rfl

theorem terminated_output (order : List (Dims × Nat)) :
    Terminated (header ++ order.flatMap (taskLine multiplier result)) :=
  terminated_append (fun _c hc => (Option.some.inj hc).symm) (terminated_taskLines multiplier result order)

/-- The lines of all runs. -/
theorem SplitOutput.order {startDim endDim : Nat} {out : Str}
    (h : SplitOutput allDims numGroupsOfOrder multiplier result startDim endDim out) :
    Terminated out ∧ ∃ order : List (Dims × Nat),
      order.Perm (tasks allDims numGroupsOfOrder startDim endDim) ∧
        pdsLines out = order.map (taskLine multiplier result) := by
  induction h with
  | nil =>
    refine ⟨terminated_nil, [], ?_, rfl⟩
    unfold tasks dimRange
    rw [Nat.sub_self, List.take_zero]
    rfl
  | run hstart hend _ hrun ih =>
    obtain ⟨hterm, order, hperm, hlines⟩ := ih
    obtain ⟨order', hperm', rfl⟩ := hrun.order
    refine ⟨terminated_append hterm (terminated_output order'), order ++ order', ?_, ?_⟩
    · rw [tasks_append allDims numGroupsOfOrder hstart hend]
      exact hperm.append hperm'
    · rw [pdsLines_append hterm, hlines, pdsLines_output, List.map_append]

/-- **A search can be cut into runs.**  Cut the range of parameter tuples anywhere, however often;
run the parts, each under any interleaving, and put the outputs in one file: `sortAsData.py` prints
exactly what it prints for the output of one run over the whole range. -/
theorem sortAsData_splits {startDim endDim : Nat} {out out' : Str}
    (h : SplitOutput allDims numGroupsOfOrder multiplier result startDim endDim out)
    (h' : SearchManyOutput allDims startDim endDim numGroupsOfOrder multiplier result out') :
    ∃ sorted, sortAsData out = .ok sorted ∧ sortAsData out' = .ok sorted := by
  obtain ⟨-, order, hperm, hlines⟩ := h.order
  obtain ⟨order', hperm', rfl⟩ := h'.order
  rw [← pdsLines_output] at hlines
  refine ⟨_, ?_, sortAsData_output multiplier result order'⟩
  rw [sortAsData_congr hlines, sortAsData_output, keyOrder_unique (hperm.trans hperm'.symm)]

end

/-- Two tuples, one run each; a set is found in the group of order 5. -/
theorem sortAsData_splits_two :
    let result : Dims × Nat → Option (List Int × Nat) := fun t => if t.1.n = 5 then some ([1, 4], 2) else none
    ∃ out out' sorted,
      SplitOutput [⟨5, 2, 0, 1⟩, ⟨9, 4, 1, 2⟩] (fun _ => 1) 5 result 0 2 out ∧
      SearchManyOutput [⟨5, 2, 0, 1⟩, ⟨9, 4, 1, 2⟩] 0 2 (fun _ => 1) 5 result out' ∧
      sortAsData out = .ok sorted ∧ sortAsData out' = .ok sorted := by
  intro result
  obtain ⟨out₁, h₁⟩ := exists_searchManyOutput [⟨5, 2, 0, 1⟩, ⟨9, 4, 1, 2⟩] 0 1 (fun _ => 1) 5 result
  obtain ⟨out₂, h₂⟩ := exists_searchManyOutput [⟨5, 2, 0, 1⟩, ⟨9, 4, 1, 2⟩] 1 2 (fun _ => 1) 5 result
  obtain ⟨out', h'⟩ := exists_searchManyOutput [⟨5, 2, 0, 1⟩, ⟨9, 4, 1, 2⟩] 0 2 (fun _ => 1) 5 result
  have hsplit := SplitOutput.run (by decide) (by decide) (.run (by decide) (by decide) .nil h₁) h₂
  obtain ⟨sorted, hsorted⟩ := sortAsData_splits hsplit h'
  exact ⟨_, out', sorted, hsplit, h', hsorted⟩

end PdsSearch
