import PdsSearch.Table
import PdsSearch.Lib.Text

/-!
# Group table files

`writeTable` prints a table as the GAP generators do: a header line, then a line
for each row, entries counted from one.  The loaders of `searchMany.cpp` and of
`checkPDS.py` both read it back, entries counted from zero:

    loadTable n (writeTable n gid (oneBased ct)) = some ct,  if n and gid fit  (loadTable_write)
    getCt files n gid = .ok ct,  when the file is writeTable …               (getCt_write)
-/

namespace PdsSearch

open Text MachineInt

/-! ## Algorithm -/

/-- `"tablesAll/table" + n + "_" + gid + ".txt"` -/
def tableName (n gid : Int) : Str :=
  "tablesAll/table".toList ++ printInt n ++ "_".toList ++ printInt gid ++ ".txt".toList

/-- The `PrintTo` and `AppendTo` loops of the generators. -/
def writeTable (n gid : Int) (MT : List (List Int)) : Str :=
  printInt n ++ " ".toList ++ printInt gid ++ "\n".toList ++
    MT.flatMap fun row => (row.flatMap fun x => printInt x ++ " ".toList) ++ "\n".toList

/-- The `j` loop of the loader: `m` entries from the stream; `none` when a read fails. -/
def readRow : Nat → Str → Option (List Int × Str)
  | 0, g_file => some ([], g_file)
  | m + 1, g_file => do
    let (temp, g_file) ← cinInt g_file
    let (row, g_file) ← readRow m g_file
    return ((temp - 1) :: row, g_file) -- for zero indexing

/-- The `i` loop: `m` rows of `n` entries. -/
def readRows (n : Nat) : Nat → Str → Option (List (List Int) × Str)
  | 0, g_file => some ([], g_file)
  | m + 1, g_file => do
    let (row, g_file) ← readRow n g_file
    let (ct, g_file) ← readRows n m g_file
    return (row :: ct, g_file)

/-- The table loader of `searchMany.cpp`; the two numbers of the header are not looked at. -/
def loadTable (n : Nat) (g_file : Str) : Option (List (List Int)) := do
  let (_, g_file) ← cinInt g_file
  let (_, g_file) ← cinInt g_file
  let (ct, _) ← readRows n n g_file
  return ct

/-- `get_ct` -/
def getCt (files : Str → Option Str) (n gid : Int) : Except PyStop (List (List Int)) := do
  let tf ←
    match files (tableName n gid) with
    | some tf => .ok tf
    | none => .error .noFile
  match readlines tf with
  | [] => .error .indexError
  | head :: rest =>
    let tableId ← ints ' ' head
    if tableId.length ≠ 2 ∨ tableId[0]? ≠ some n ∨ tableId[1]? ≠ some gid then .error (.exit 17)
    else rest.mapM fun line => do
      let row ← ints ' ' (strip line)
      return row.map fun b => b - 1

/-! ## Lemmas -/

/-- The table the generators print. -/
def oneBased (ct : List (List Int)) : List (List Int) := ct.map fun row => row.map fun x => x + 1

theorem map_sub_add (row : List Int) : (row.map fun x => x + 1).map (fun b => b - 1) = row := by
  rw [List.map_map]
  exact (List.map_congr_left fun x _ => by show x + 1 - 1 = x; omega).trans (List.map_id row)

/-- The file, line by line. -/
theorem writeTable_eq (n gid : Int) (MT : List (List Int)) :
    writeTable n gid MT =
      ((printInt n ++ [' '] ++ printInt gid) :: MT.map spaced).flatMap fun l => l ++ ['\n'] := by
  unfold writeTable
  rw [List.flatMap_cons, List.flatMap_map]
  rfl

theorem readRow_spaced (row : List Int) (hfit : ∀ x ∈ row, Fits x) : ∀ (a t : Str),
    (∀ c ∈ a, isCSpace c = true) → ∃ a', (∀ c ∈ a', isCSpace c = true) ∧
      readRow row.length (a ++ (spaced row ++ t)) = some (row.map fun x => x - 1, a' ++ t) := by
  induction row with
  | nil => intro a t ha; exact ⟨a, ha, rfl⟩
  | cons x row ih =>
    intro a t ha
    obtain ⟨a', ha', hrow⟩ :=
      ih (fun y hy => hfit y (List.mem_cons_of_mem x hy)) [' '] t (by simp [isCSpace])
    refine ⟨a', ha', ?_⟩
    have hcin : cinInt (a ++ (spaced (x :: row) ++ t)) = some (x, [' '] ++ (spaced row ++ t)) := by
      have := cinInt_printInt (t := [' '] ++ (spaced row ++ t)) ha rfl x
      rw [if_pos (hfit x List.mem_cons_self)] at this
      rw [← this]
      simp only [spaced, List.flatMap_cons, List.append_assoc]
    rw [List.length_cons, readRow, hcin]
    simp only [Option.bind_eq_bind, Option.bind_some, hrow]
    rfl

theorem readRows_spaced (n : Nat) (MT : List (List Int)) (hMT : ∀ row ∈ MT, row.length = n)
    (hfit : ∀ row ∈ MT, ∀ x ∈ row, Fits x) : ∀ (a : Str), (∀ c ∈ a, isCSpace c = true) →
    ∃ t, readRows n MT.length (a ++ (MT.flatMap fun row => spaced row ++ ['\n'])) =
        some (MT.map fun row => row.map fun x => x - 1, t) := by
  induction MT with
  | nil => intro a _; exact ⟨_, rfl⟩
  | cons row MT ih =>
    intro a ha
    obtain ⟨a', ha', hrow⟩ :=
      readRow_spaced row (hfit row List.mem_cons_self) a
        (['\n'] ++ MT.flatMap fun row => spaced row ++ ['\n']) ha
    rw [hMT row List.mem_cons_self] at hrow
    obtain ⟨t, ht⟩ := ih (fun r hr => hMT r (List.mem_cons_of_mem row hr))
        (fun r hr => hfit r (List.mem_cons_of_mem row hr)) (a' ++ ['\n']) (by
      intro c hc
      rcases List.mem_append.1 hc with hc | hc
      · exact ha' c hc
      · rw [List.mem_singleton.1 hc]
        rfl)
    refine ⟨t, ?_⟩
    rw [List.append_assoc] at ht
    rw [List.length_cons, readRows, List.flatMap_cons, List.append_assoc, hrow]
    simp only [Option.bind_eq_bind, Option.bind_some, ht]
    rfl

/-- **The C++ loader reads the table back**, if the header fits. -/
theorem loadTable_write (n : Nat) (gid : Int) (ct : List (List Int)) (hlen : ct.length = n)
    (hct : ∀ row ∈ ct, row.length = n) (hent : ∀ row ∈ ct, ∀ x ∈ row, 0 ≤ x ∧ x < n) :
    loadTable n (writeTable n gid (oneBased ct)) = if Fits n ∧ Fits gid then some ct else none := by
  have h1 := cinInt_printInt (a := []) (t := [' '] ++ (printInt gid ++ (['\n'] ++
    (oneBased ct).flatMap fun row => spaced row ++ ['\n']))) (by simp) rfl (n : Int)
  have h2 := cinInt_printInt (a := [' ']) (t := ['\n'] ++
    (oneBased ct).flatMap fun row => spaced row ++ ['\n']) (by simp [isCSpace]) rfl gid
  have hfile : writeTable n gid (oneBased ct) = [] ++ (printInt n ++ ([' '] ++ (printInt gid ++ (['\n'] ++
      (oneBased ct).flatMap fun row => spaced row ++ ['\n'])))) := by
    rw [writeTable_eq, List.flatMap_cons, List.flatMap_map]
    simp only [List.append_assoc, List.nil_append]
  unfold loadTable
  rw [hfile, h1]
  by_cases hn : Fits n
  · rw [if_pos hn]
    simp only [Option.bind_eq_bind, Option.bind_some, h2]
    by_cases hgid : Fits gid
    · have hrows : ∀ row ∈ oneBased ct, row.length = n := by
        intro row hrow
        obtain ⟨r, hr, rfl⟩ := List.mem_map.1 hrow
        rw [List.length_map, hct r hr]
      have hfit : ∀ row ∈ oneBased ct, ∀ x ∈ row, Fits x := by
        intro row hrow x hx
        obtain ⟨r, hr, rfl⟩ := List.mem_map.1 hrow
        obtain ⟨y, hy, rfl⟩ := List.mem_map.1 hx
        have hbounds := hent r hr y hy
        unfold Fits at hn ⊢
        omega
      obtain ⟨t, ht⟩ := readRows_spaced n (oneBased ct) hrows hfit ['\n'] (by simp [isCSpace])
      have hlen' : (oneBased ct).length = n := by rw [oneBased, List.length_map, hlen]
      have hback : (oneBased ct).map (fun row => row.map fun x => x - 1) = ct := by
        unfold oneBased
        rw [List.map_map]
        exact (List.map_congr_left fun row _ => map_sub_add row).trans (List.map_id ct)
      rw [hlen', hback] at ht
      rw [if_pos hgid, if_pos ⟨hn, hgid⟩, Option.bind_some, ht]
      rfl
    · rw [if_neg hgid, if_neg fun h => hgid h.2]
      rfl
  · rw [if_neg hn, if_neg fun h => hn h.1]
    rfl

theorem readlines_writeTable (n gid : Int) (MT : List (List Int)) :
    readlines (writeTable n gid MT) = (printInt n ++ [' '] ++ printInt gid ++ ['\n']) ::
      (MT.map spaced).map fun l => l ++ ['\n'] := by
  rw [writeTable_eq, readlines_lines]
  · rfl
  · intro l hl
    have hno : ∀ c : Char, c.isDigit = false → c ≠ '-' → c ≠ ' ' → c ∉ l := by
      intro c h1 h2 h3
      rcases List.mem_cons.1 hl with rfl | hl
      · simp only [List.mem_append, List.mem_singleton, not_or]
        exact ⟨⟨notMem_printInt h1 h2 n, h3⟩, notMem_printInt h1 h2 gid⟩
      · obtain ⟨row, -, rfl⟩ := List.mem_map.1 hl
        exact notMem_spaced h1 h2 h3 row
    exact ⟨hno _ rfl (by decide) (by decide), hno _ rfl (by decide) (by decide)⟩

/-- The header, with its newline. -/
theorem ints_header (n gid : Int) :
    ints ' ' (printInt n ++ [' '] ++ printInt gid ++ ['\n']) = .ok [n, gid] := by
  have h1 : ' ' ∉ printInt n := notMem_printInt rfl (by decide) n
  have h2 : ' ' ∉ printInt gid ++ ['\n'] := by
    intro h
    rcases List.mem_append.1 h with h | h
    · exact notMem_printInt rfl (by decide) gid h
    · exact absurd (List.mem_singleton.1 h) (by decide)
  have hi1 := int_printInt (a := []) (b := []) (by simp) (by simp) n
  have hi2 := int_printInt (a := []) (b := ['\n']) (by simp) (by simp [toAscii, isCSpace]) gid
  rw [List.nil_append, List.append_nil] at hi1
  rw [List.nil_append] at hi2
  unfold ints
  rw [List.append_assoc, List.append_assoc]
  show (List.splitOn ' ' (printInt n ++ ' ' :: (printInt gid ++ ['\n']))).mapM int = _
  rw [List.splitOn_append_cons_self_of_not_mem h1, List.splitOn_eq_singleton h2, List.mapM_cons,
    hi1, List.mapM_cons, hi2]
  rfl

/-- One row. -/
theorem ints_row {row : List Int} (h : row ≠ []) :
    (ints ' ' (strip (spaced (row.map fun x => x + 1) ++ ['\n'])) >>= fun r =>
      (pure (r.map fun b => b - 1) : Except PyStop (List Int))) = .ok row := by
  have hne : (row.map fun x => x + 1) ≠ [] := by simpa using h
  have hrow := ints_strip_spaced hne (a := []) (b := ['\n']) (by simp) (by simp [isSpace])
  rw [List.nil_append] at hrow
  rw [hrow]
  exact congrArg Except.ok (map_sub_add row)

/-- **The Python loader reads the table back.** -/
theorem getCt_write (files : Str → Option Str) (n gid : Int) (ct : List (List Int))
    (hct : ∀ row ∈ ct, row ≠ [])
    (hfile : files (tableName n gid) = some (writeTable n gid (oneBased ct))) :
    getCt files n gid = .ok ct := by
  have hrows : (((oneBased ct).map spaced).map fun l => l ++ ['\n']).mapM (fun line => do
      let row ← ints ' ' (strip line)
      return row.map fun b => b - 1) = (.ok (ct.map id) : Except PyStop (List (List Int))) := by
    unfold oneBased
    rw [List.map_map, List.map_map, List.mapM_map]
    apply Checked.mapM_ok
    intro row hrow
    exact ints_row (hct row hrow)
  unfold getCt
  rw [hfile]
  simp only [bind, Except.bind, readlines_writeTable, ints_header]
  rw [if_neg (by simp)]
  rw [List.map_id] at hrows
  exact hrows

end PdsSearch
