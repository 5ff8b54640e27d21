import PdsSearch.SortedFile

/-!
# What a run is given (`searchMany.cpp`)

Before its loops `main` reads the parameter tuples from one file and from another how many
groups there are of each order, into a vector it indexes by the order.  Whatever the layout
of the numbers:

    readDims file = the tuples                                          (readDims_numbers)
    readNumGroups file = the vector of the last count given for each order, when no order is
      greater than the number of rows, and otherwise it writes outside the vector
                                                                    (readNumGroups_numbers)
-/

namespace PdsSearch

open Text Checked MachineInt

/-! ## Algorithm -/

/-- `file >> x`; after a failed read the variable means nothing. -/
def cin (file : Str) : Except Stop (Int × Str) :=
  match cinInt file with
  | some r => .ok r
  | none => .error .undefinedRead

/-- A round of the first loop.  A tuple has no negative order or size here. -/
def dimsStep (s : List Dims × Str) : Except Stop (List Dims × Str) := do
  let (allDims, file) := s
  let (t1, file) ← cin file
  let (t2, file) ← cin file
  let (t3, file) ← cin file
  let (t4, file) ← cin file
  if t1 < 0 ∨ t2 < 0 then .error .outOfRange
  else return (allDims ++ [⟨t1.toNat, t2.toNat, t3, t4⟩], file)

/-- `allDims` -/
def readDims (file : Str) : Except Stop (List Dims) := do
  let (numDims, file) ← cin file
  let (allDims, _) ← (List.range numDims.toNat).foldlM (fun s _ => dimsStep s) ([], file)
  return allDims

/-- A round of the second loop. -/
def groupsStep (s : List Int × Str) : Except Stop (List Int × Str) := do
  let (numGroupsOfOrder, file2) := s
  let (t1, file2) ← cin file2
  let (t2, file2) ← cin file2
  return (← vset numGroupsOfOrder t1 t2, file2)

/-- `num_groups_of_order`; its size must not be negative. -/
def readNumGroups (file2 : Str) : Except Stop (List Int) := do
  let (numGroupSizes, file2) ← cin file2
  if numGroupSizes + 1 < 0 then .error .outOfRange
  else
    let (numGroupsOfOrder, _) ← (List.range numGroupSizes.toNat).foldlM (fun s _ => groupsStep s)
      (List.replicate (numGroupSizes + 1).toNat 0, file2)
    return numGroupsOfOrder

/-- The tasks of the two loops, with the two vectors looked up. -/
def runTasks (allDims : List Dims) (numGroupsOfOrder : List Int) (startDim endDim : Nat) :
    Except Stop (List (Dims × Nat)) :=
  (List.range' startDim (endDim - startDim)).foldlM (fun all (dimIndex : Nat) => do
    let d ← vget allDims dimIndex
    let count ← vget numGroupsOfOrder d.n
    if count + 1 < 0 then .error .outOfRange
    else return all ++ (List.range' 1 count.toNat).map fun gid => (d, gid)) []

def dimsName : Str := "run_input/EvenHigherDims.txt".toList

def numGroupsName : Str := "run_input/num_groups.txt".toList

/-- What `main` can print, from the files in the directory. -/
def SearchManyMain (files : Str → Option Str) (o : ArgOrder) (startDim endDim : Nat) (multiplier : Int)
    (rs : Dims × Nat → Nat → Nat) (out : Str) : Prop :=
  ∃ (file file2 : Str) (allDims : List Dims) (counts : List Int) (all : List (Dims × Nat))
      (result : Dims × Nat → Option (List Int × Nat)),
    files dimsName = some file ∧ readDims file = .ok allDims ∧
    files numGroupsName = some file2 ∧ readNumGroups file2 = .ok counts ∧
    runTasks allDims counts startDim endDim = .ok all ∧
    (∀ task ∈ all, Returns (fun fuel => groupTask files fuel o multiplier task.1 task.2 (rs task)) (result task)) ∧
    SearchManyOutput allDims startDim endDim (fun n => (counts[n]?.getD 0).toNat) multiplier result out

/-! ## Lemmas -/

/-- The numbers of a tuple. -/
def dimsRow (d : Dims) : List Int := [d.n, d.k, d.lam, d.mu]

/-- The numbers of a row: an order, and how many groups it has. -/
def groupsRow (r : Nat × Nat) : List Int := [r.1, r.2]

/-- What the rows say of each order, the last one when there are several, and 0 without one. -/
def numGroupsOf (rows : List (Nat × Nat)) : Nat → Nat :=
  rows.foldl (fun f r => Function.update f r.1 r.2) fun _ => 0

/-- The counts of the orders `0 .. m`, as a vector. -/
def countVector (m : Nat) (f : Nat → Nat) : List Int := (List.range (m + 1)).map fun n => (f n : Int)

theorem cin_numbers {x : Int} {xs : List Int} {t : Str} (h : Numbers (x :: xs) t) :
    ∃ t', cin t = .ok (x, t') ∧ Numbers xs t' := by
  obtain ⟨t', ht', hrest⟩ := h.cinInt
  refine ⟨t', ?_, hrest⟩
  unfold cin
  rw [ht']

theorem dimsLoop_numbers (dims : List Dims) : ∀ (l : List Nat) (before : List Dims) (t : Str),
    l.length = dims.length → Numbers (dims.flatMap dimsRow) t →
      ∃ t', l.foldlM (fun s _ => dimsStep s) (before, t) = .ok (before ++ dims, t') := by
  induction dims with
  | nil =>
    intro l before t hlen _
    rw [List.length_eq_zero_iff.1 hlen, List.append_nil]
    exact ⟨t, rfl⟩
  | cons d dims ih =>
    intro l before t hlen h
    obtain ⟨i, l, rfl⟩ := List.exists_cons_of_length_eq_add_one hlen
    obtain ⟨t₁, h₁, h⟩ := cin_numbers h
    obtain ⟨t₂, h₂, h⟩ := cin_numbers h
    obtain ⟨t₃, h₃, h⟩ := cin_numbers h
    obtain ⟨t₄, h₄, h⟩ := cin_numbers h
    have hstep : dimsStep (before, t) = .ok (before ++ [d], t₄) := by
      simp only [dimsStep, h₁, h₂, h₃, h₄, ok_bind]
      rw [if_neg (by omega), Int.toNat_natCast, Int.toNat_natCast]
      rfl
    obtain ⟨t', hrest⟩ := ih l (before ++ [d]) t₄ (by simpa using hlen) h
    refine ⟨t', ?_⟩
    rw [List.foldlM_cons, hstep, ok_bind, hrest, List.append_assoc]
    rfl

@[simp] theorem length_countVector (m : Nat) (f : Nat → Nat) : (countVector m f).length = m + 1 := by
  unfold countVector
  rw [List.length_map, List.length_range]

@[simp] theorem getElem_countVector (m : Nat) (f : Nat → Nat) (n : Nat) (h : n < (countVector m f).length) :
    (countVector m f)[n] = (f n : Int) := by
  simp [countVector]

theorem vset_countVector (m : Nat) (f : Nat → Nat) (r : Nat × Nat) :
    vset (countVector m f) (r.1 : Nat) (r.2 : Nat) =
      if r.1 ≤ m then .ok (countVector m (Function.update f r.1 r.2)) else .error .outOfRange := by
  by_cases h : r.1 ≤ m
  · rw [if_pos h, vset_nat _ _ _ (by rw [length_countVector]; omega)]
    congr 1
    apply List.ext_getElem
    · simp
    · intro n h₁ h₂
      rw [List.getElem_set, getElem_countVector, getElem_countVector, Function.update_apply]
      by_cases hn : r.1 = n
      · rw [if_pos hn, if_pos hn.symm]
      · rw [if_neg hn, if_neg (Ne.symm hn)]
  · unfold vset
    rw [if_neg h, length_countVector, if_neg fun h' => h (by omega)]

theorem groupsLoop_numbers (m : Nat) (rows : List (Nat × Nat)) : ∀ (l : List Nat) (f : Nat → Nat) (t : Str),
    l.length = rows.length → Numbers (rows.flatMap groupsRow) t →
      Prod.fst <$> l.foldlM (fun s _ => groupsStep s) (countVector m f, t) =
        if ∀ r ∈ rows, r.1 ≤ m then .ok (countVector m (rows.foldl (fun f r => Function.update f r.1 r.2) f))
        else .error .outOfRange := by
  induction rows with
  | nil =>
    intro l f t hlen _
    rw [List.length_eq_zero_iff.1 hlen, if_pos (by simp)]
    rfl
  | cons r rows ih =>
    intro l f t hlen h
    obtain ⟨i, l, rfl⟩ := List.exists_cons_of_length_eq_add_one hlen
    obtain ⟨t₁, h₁, h⟩ := cin_numbers h
    obtain ⟨t₂, h₂, h⟩ := cin_numbers h
    have hrest := ih l (Function.update f r.1 r.2) t₂ (by simpa using hlen) h
    have hstep : groupsStep (countVector m f, t) =
        if r.1 ≤ m then .ok (countVector m (Function.update f r.1 r.2), t₂) else .error .outOfRange := by
      simp only [groupsStep, h₁, h₂, ok_bind, vset_countVector]
      split <;> rfl
    rw [List.foldlM_cons, hstep]
    simp only [List.forall_mem_cons]
    by_cases hr : r.1 ≤ m
    · rw [if_pos hr, ok_bind, hrest]
      simp only [hr, true_and, List.foldl_cons]
    · rw [if_neg hr, if_neg fun h => hr h.1]
      rfl

theorem vget_countVector (m : Nat) (f : Nat → Nat) (n : Nat) :
    vget (countVector m f) (n : Nat) = if n ≤ m then .ok (f n : Int) else .error .outOfRange := by
  by_cases h : n ≤ m
  · rw [if_pos h, vget_nat _ _ (by rw [length_countVector]; omega), getElem_countVector]
  · have hnone : (countVector m f)[n]? = none := by
      rw [List.getElem?_eq_none_iff, length_countVector]
      omega
    unfold vget
    rw [if_neg h, if_neg (by omega), Int.toNat_natCast, hnone]

/-- The loop over the indices, from `startDim` on. -/
theorem tasksLoop (allDims : List Dims) (m : Nat) (f : Nat → Nat) (len : Nat) : ∀ (startDim : Nat)
    (before : List (Dims × Nat)), (List.range' startDim len).foldlM (fun all (dimIndex : Nat) => do
        let d ← vget allDims dimIndex
        let count ← vget (countVector m f) d.n
        if count + 1 < 0 then .error .outOfRange
        else return all ++ (List.range' 1 count.toNat).map fun gid => (d, gid)) before =
      if (len = 0 ∨ startDim + len ≤ allDims.length) ∧ ∀ d ∈ (allDims.drop startDim).take len, d.n ≤ m
      then .ok (before ++ ((allDims.drop startDim).take len).flatMap (groups f)) else .error .outOfRange := by
  induction len with
  | zero =>
    intro startDim before
    simp
  | succ len ih =>
    intro startDim before
    rw [List.range'_succ, List.foldlM_cons]
    by_cases hlt : startDim < allDims.length
    · have hdrop : (allDims.drop startDim).take (len + 1) =
          allDims[startDim] :: (allDims.drop (startDim + 1)).take len := by
        rw [List.drop_eq_getElem_cons hlt, List.take_succ_cons]
      rw [vget_nat _ _ hlt, ok_bind, vget_countVector, hdrop]
      simp only [List.forall_mem_cons, List.flatMap_cons]
      by_cases hn : allDims[startDim].n ≤ m
      · have hpos : ¬ ((f allDims[startDim].n : Int) + 1 < 0) := by omega
        rw [if_pos hn, ok_bind, if_neg hpos, pure_eq_ok, ok_bind, ih, Int.toNat_natCast, List.append_assoc]
        have hiff : (len = 0 ∨ startDim + 1 + len ≤ allDims.length) ↔
            (len + 1 = 0 ∨ startDim + (len + 1) ≤ allDims.length) := by omega
        simp only [hiff, hn, true_and]
        rfl
      · rw [if_neg hn, if_neg fun h => hn h.2.1]
        rfl
    · have hnone : vget allDims (startDim : Nat) = .error .outOfRange := by
        unfold vget
        rw [if_neg (by omega), Int.toNat_natCast, List.getElem?_eq_none (by omega)]
      rw [hnone, if_neg fun h => by omega]
      rfl

/-- **The tasks**, when every index is inside its vector. -/
theorem runTasks_countVector (allDims : List Dims) (m : Nat) (f : Nat → Nat) (startDim endDim : Nat) :
    runTasks allDims (countVector m f) startDim endDim =
      if (startDim < endDim → endDim ≤ allDims.length) ∧ ∀ d ∈ dimRange allDims startDim endDim, d.n ≤ m
      then .ok (tasks allDims f startDim endDim) else .error .outOfRange := by
  have hiff : (endDim - startDim = 0 ∨ startDim + (endDim - startDim) ≤ allDims.length) ↔
      (startDim < endDim → endDim ≤ allDims.length) := by omega
  have hloop := tasksLoop allDims m f (endDim - startDim) startDim []
  simp only [hiff, List.nil_append] at hloop
  exact hloop

theorem readDims_numbers {allDims : List Dims} {file : Str}
    (h : Numbers (allDims.length :: allDims.flatMap dimsRow) file) : readDims file = .ok allDims := by
  obtain ⟨t, ht, h⟩ := cin_numbers h
  obtain ⟨t', hloop⟩ := dimsLoop_numbers allDims (List.range allDims.length) [] t List.length_range h
  unfold readDims
  rw [ht, ok_bind]
  simp only [Int.toNat_natCast, hloop]
  rfl

theorem readNumGroups_numbers {rows : List (Nat × Nat)} {file2 : Str}
    (h : Numbers (rows.length :: rows.flatMap groupsRow) file2) :
    readNumGroups file2 = if ∀ r ∈ rows, r.1 ≤ rows.length then .ok (countVector rows.length (numGroupsOf rows))
      else .error .outOfRange := by
  obtain ⟨t, ht, h⟩ := cin_numbers h
  have hloop := groupsLoop_numbers rows.length rows (List.range rows.length) (fun _ => 0) t List.length_range h
  have hzero : List.replicate (rows.length + 1) (0 : Int) = countVector rows.length fun _ => 0 := by
    unfold countVector
    simp
  have hsize : ((rows.length : Int) + 1).toNat = rows.length + 1 := by omega
  unfold readNumGroups
  rw [ht, ok_bind]
  simp only
  rw [if_neg (by omega), Int.toNat_natCast, hsize, hzero]
  rw [← bind_pure_comp] at hloop
  exact hloop

/-- The count of an order is that of one of its rows. -/
theorem numGroupsOf_row (rows : List (Nat × Nat)) (n : Nat) :
    numGroupsOf rows n = 0 ∨ ∃ r ∈ rows, r.1 = n ∧ numGroupsOf rows n = r.2 := by
  induction rows using List.reverseRecOn with
  | nil => exact .inl rfl
  | append_singleton rows r ih =>
    have hlast : numGroupsOf (rows ++ [r]) n = Function.update (numGroupsOf rows) r.1 r.2 n := by
      unfold numGroupsOf
      rw [List.foldl_append]
      rfl
    rw [hlast, Function.update_apply]
    by_cases hn : n = r.1
    · rw [if_pos hn]
      exact .inr ⟨r, by simp, hn.symm, rfl⟩
    · rw [if_neg hn]
      rcases ih with ih | ⟨r', hr', hn', heq⟩
      · exact .inl ih
      · exact .inr ⟨r', List.mem_append_left _ hr', hn', heq⟩

theorem countVector_getD {rows : List (Nat × Nat)} (h : ∀ r ∈ rows, r.1 ≤ rows.length) :
    (fun n => ((countVector rows.length (numGroupsOf rows))[n]?.getD 0).toNat) = numGroupsOf rows := by
  funext n
  by_cases hn : n ≤ rows.length
  · have hlt : n < (countVector rows.length (numGroupsOf rows)).length := by
      rw [length_countVector]
      omega
    rw [List.getElem?_eq_getElem hlt, getElem_countVector]
    rfl
  · have hzero : numGroupsOf rows n = 0 := by
      rcases numGroupsOf_row rows n with h0 | ⟨r, hr, rfl, -⟩
      · exact h0
      · exact absurd (h r hr) hn
    rw [List.getElem?_eq_none (by rw [length_countVector]; omega), hzero]
    rfl

/-- The two input files are there and list these tuples and rows, no order past the vector. -/
structure RunFiles (files : Str → Option Str) (allDims : List Dims) (rows : List (Nat × Nat)) : Prop where
  dims : ∃ file, files dimsName = some file ∧ Numbers (allDims.length :: allDims.flatMap dimsRow) file
  groups : ∃ file2, files numGroupsName = some file2 ∧ Numbers (rows.length :: rows.flatMap groupsRow) file2
  rows_le : ∀ r ∈ rows, r.1 ≤ rows.length

theorem RunFiles.fits_groups {files : Str → Option Str} {allDims : List Dims} {rows : List (Nat × Nat)}
    (h : RunFiles files allDims rows) (n : Nat) : Fits (numGroupsOf rows n) := by
  obtain ⟨file2, -, hgroups⟩ := h.groups
  rcases numGroupsOf_row rows n with h0 | ⟨r, hr, -, heq⟩
  · rw [h0]
    decide
  · rw [heq]
    refine hgroups.fits _ (List.mem_cons_of_mem _ (List.mem_flatMap.2 ⟨r, hr, ?_⟩))
    unfold groupsRow
    simp

section
variable {files : Str → Option Str} {allDims : List Dims} {rows : List (Nat × Nat)} (h : RunFiles files allDims rows)
  {startDim endDim : Nat} (hend : startDim < endDim → endDim ≤ allDims.length)
  (hn : ∀ d ∈ dimRange allDims startDim endDim, d.n ≤ rows.length) {o : ArgOrder} {multiplier : Int}
  {rs : Dims × Nat → Nat → Nat} {result : Dims × Nat → Option (List Int × Nat)}
  (hres : ∀ task ∈ tasks allDims (numGroupsOf rows) startDim endDim,
    Returns (fun fuel => groupTask files fuel o multiplier task.1 task.2 (rs task)) (result task))

include h hend hn hres

/-- **What the whole program prints**, when the tasks are known. -/
theorem SearchManyMain.lines {out : Str} (hmain : SearchManyMain files o startDim endDim multiplier rs out) :
    ∃ order : List (Dims × Nat), order.Perm (tasks allDims (numGroupsOf rows) startDim endDim) ∧
      out = header ++ order.flatMap (taskLine multiplier result) := by
  obtain ⟨file, hfile, hdims⟩ := h.dims
  obtain ⟨file2, hfile2, hgroups⟩ := h.groups
  obtain ⟨file', file2', allDims', counts, all, result', hf, hd, hf2, hc, hall, hres', hout⟩ := hmain
  obtain rfl : file = file' := Option.some.inj (hfile.symm.trans hf)
  obtain rfl : file2 = file2' := Option.some.inj (hfile2.symm.trans hf2)
  obtain rfl : allDims = allDims' := Except.ok.inj ((readDims_numbers hdims).symm.trans hd)
  rw [readNumGroups_numbers hgroups, if_pos h.rows_le] at hc
  obtain rfl := Except.ok.inj hc
  rw [runTasks_countVector, if_pos ⟨hend, hn⟩] at hall
  obtain rfl := Except.ok.inj hall
  rw [countVector_getD h.rows_le] at hout
  obtain ⟨order, hperm, rfl⟩ := hout.order
  refine ⟨order, hperm, ?_⟩
  congr 1
  apply List.flatMap_congr
  intro task ht
  have hmem := hperm.mem_iff.1 ht
  unfold taskLine
  rw [(hres' task hmem).unique (hres task hmem)]

/-- Some schedule of the whole program completes. -/
theorem exists_searchManyMain : ∃ out, SearchManyMain files o startDim endDim multiplier rs out := by
  obtain ⟨file, hfile, hdims⟩ := h.dims
  obtain ⟨file2, hfile2, hgroups⟩ := h.groups
  have hc := readNumGroups_numbers hgroups
  rw [if_pos h.rows_le] at hc
  have hall := runTasks_countVector allDims rows.length (numGroupsOf rows) startDim endDim
  rw [if_pos ⟨hend, hn⟩] at hall
  obtain ⟨out, hout⟩ := exists_searchManyOutput allDims startDim endDim (numGroupsOf rows) multiplier result
  rw [← countVector_getD h.rows_le] at hout
  exact ⟨out, file, file2, allDims, _, _, result, hfile, readDims_numbers hdims, hfile2, hc, hall, hres, hout⟩

end

/-! ## Top theorem -/

end PdsSearch
