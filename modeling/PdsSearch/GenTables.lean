import PdsSearch.ConvolutionTable
import PdsSearch.AlternateAccepts

/-!
# The directory of tables (`gen_allTables.g`, `gen_tables64.g`, `gen_conv_table.g`)

For each group of each order asked for, the generators write one file.  No two
groups share a file name, so after the loops every table is there, and both
loaders read each one back from the directory:

    genAllTables L orders files = .ok files'     with every table in files', all other
      files as they were                                    (genAllTables_ok)

The groups themselves are GAP's: `SmallGroups` says what is used of them.
-/

namespace PdsSearch

open Text Checked MachineInt

/-! ## Algorithm -/

/-- GAP's groups of small order: how many of order `n` there are, and the group
`SmallGroup(n,id)` with the order of its elements, the identity first. -/
structure SmallGroups where
  numGroups : Nat → Nat
  G : Nat → Nat → Type
  [group : ∀ n id, Group (G n id)]
  [fintype : ∀ n id, Fintype (G n id)]
  [linearOrder : ∀ n id, LinearOrder (G n id)]
  one_le : ∀ n id (x : G n id), 1 ≤ x
  card : ∀ n id, 1 ≤ id → id ≤ numGroups n → Fintype.card (G n id) = n

attribute [instance] SmallGroups.group SmallGroups.fintype SmallGroups.linearOrder

/-- A directory: the text of each file that is there. -/
abbrev Files := Str → Option Str

/-- `PrintTo` and `AppendTo`, the whole file. -/
def writeFile (files : Files) (name file : Str) : Files := Function.update files name (some file)

/-- The loop over the `id`s: the tables of all groups of order `n`, in the files `name n id`. -/
def genTables (L : SmallGroups) (name : Nat → Nat → Str) (n : Nat) (files : Files) (count : Nat) :
    Except GapStop Files :=
  (List.range' 1 count).foldlM (fun files (id : Nat) => do
    let file ← generate n id (elements (L.G n id))
    return writeFile files (name n id) file) files

/-- `gen_allTables.g`, for the orders in its range. -/
def genAllTables (L : SmallGroups) (orders : List Nat) (files : Files) : Except GapStop Files :=
  orders.foldlM (fun files n => genTables L (fun n id => tableName n id) n files (L.numGroups n)) files

/-- `"tables64/table" + id + ".txt"` -/
def tableName64 (id : Nat) : Str := "tables64/table".toList ++ printInt id ++ ".txt".toList

/-- `gen_tables64.g`, which writes the groups `1 .. 267` of order 64. -/
def genTables64 (L : SmallGroups) (files : Files) : Except GapStop Files :=
  genTables L (fun _ id => tableName64 id) 64 files 267

/-- `gen_conv_table.g`, with the values chosen in it: a group of order `n`, the number `id` and the file name. -/
def genConvTable (G : Type) [Group G] [Fintype G] [LinearOrder G] (n : Nat) (id : Int) (fname : Str)
    (files : Files) : Except GapStop Files := do
  let file ← generate n id (elements G)
  return writeFile files fname file

/-! ## File names -/

theorem printInt_inj {x y : Int} (h : printInt x = printInt y) : x = y := by
  have hx := int_printInt (a := []) (b := []) (by simp) (by simp) x
  rw [h, int_printInt (by simp) (by simp)] at hx
  exact (Except.ok.inj hx).symm

theorem tableName_inj {n gid n' gid' : Int} (h : tableName n gid = tableName n' gid') :
    n = n' ∧ gid = gid' := by
  have hno : ∀ x : Int, '_' ∉ printInt x := fun x => notMem_printInt rfl (by decide) x
  unfold tableName at h
  simp only [List.append_assoc, List.append_cancel_left_eq] at h
  change printInt n ++ '_' :: (printInt gid ++ _) = printInt n' ++ '_' :: (printInt gid' ++ _) at h
  have htail : '_' ∉ printInt gid ++ ".txt".toList := by
    rw [List.mem_append, not_or]
    exact ⟨hno gid, by decide⟩
  obtain ⟨h1, -, h2⟩ := (List.append_cons_inj_of_notMem (hno n) htail).1 h
  exact ⟨printInt_inj h1, printInt_inj (List.append_cancel_right h2)⟩

theorem tableName_head (n gid : Int) : (tableName n gid).head? = some 't' := by
  unfold tableName
  simp only [List.append_assoc]
  rfl

theorem tableName64_inj {id id' : Nat} (h : tableName64 id = tableName64 id') : id = id' := by
  unfold tableName64 at h
  simp only [List.append_assoc, List.append_cancel_left_eq] at h
  exact Int.natCast_inj.1 (printInt_inj (List.append_cancel_right h))

/-! ## The loops -/

section
variable {L : SmallGroups}

/-- The table of the group `SmallGroup(n,id)`. -/
def smallTable (L : SmallGroups) (n id : Nat) : List (List Int) := cayley (elements (L.G n id))

theorem elements_head {G : Type} [Group G] [Fintype G] [LinearOrder G] (hone : ∀ x : G, 1 ≤ x) :
    (elements G).head? = some 1 := by
  obtain ⟨g, l, hl⟩ := exists_elements (G := G)
  have hpos := position_one hone
  unfold position at hpos
  rw [hl, List.idxOf_cons] at hpos
  rw [hl]
  by_cases hg : g = 1
  · rw [hg]
    rfl
  · rw [beq_false_of_ne hg, cond_false] at hpos
    omega

/-- One file. -/
theorem generate_smallTable {n id : Nat} (h1 : 1 ≤ id) (h2 : id ≤ L.numGroups n) :
    generate n id (elements (L.G n id)) = .ok (writeTable n id (oneBased (smallTable L n id))) := by
  have hcard := L.card n id h1 h2
  rw [← length_elements] at hcard
  have h := generate_ok (nodup_elements (G := L.G n id)) mem_elements (id : Int)
  rwa [hcard] at h

theorem smallTable_isTableOf (n id : Nat) : IsTableOf (elements (L.G n id)) (smallTable L n id) :=
  cayley_isTableOf nodup_elements mem_elements (elements_head (L.one_le n id))

/-- The directory has the table of the group in the file `name n id`. -/
def HasSmallTable (L : SmallGroups) (name : Nat → Nat → Str) (files : Files) (n id : Nat) : Prop :=
  files (name n id) = some (writeTable n id (oneBased (smallTable L n id)))

/-- **The loop over the groups of one order** writes their files and no others. -/
theorem genTables_ok (name : Nat → Nat → Str) {n count : Nat}
    (hname : ∀ id id', name n id = name n id' → id = id') (hcount : count ≤ L.numGroups n) (files : Files) :
    ∃ files', genTables L name n files count = .ok files' ∧
      (∀ x, (∀ id, 1 ≤ id → id ≤ count → x ≠ name n id) → files' x = files x) ∧
      ∀ id, 1 ≤ id → id ≤ count → HasSmallTable L name files' n id := by
  have hstep : ∀ s, ∀ id ∈ List.range' 1 count,
      (∀ x, (∀ id, 1 ≤ id → id ≤ count → x ≠ name n id) → s x = files x) →
      ∃ s', (do
        let file ← generate n id (elements (L.G n id))
        return writeFile s (name n id) file) = .ok s' ∧
        (∀ x, (∀ id, 1 ≤ id → id ≤ count → x ≠ name n id) → s' x = files x) ∧
        ∀ id', (HasSmallTable L name s n id' → HasSmallTable L name s' n id') ∧
          (id' = id → HasSmallTable L name s' n id') := by
    intro s id hid hs
    rw [List.mem_range'_1] at hid
    rw [generate_smallTable (by omega) (by omega), ok_bind]
    refine ⟨_, rfl, ?_, fun id' => ⟨?_, ?_⟩⟩
    · intro x hx
      rw [← hs x hx]
      exact Function.update_of_ne (hx id (by omega) (by omega)) _ _
    · intro hold
      by_cases h : name n id' = name n id
      · obtain rfl := hname _ _ h
        exact Function.update_self _ _ _
      · exact (Function.update_of_ne h _ _).trans hold
    · rintro rfl
      exact Function.update_self _ _ _
  obtain ⟨files', hrun, hother, htable⟩ := foldlM_reach _ _ _ _ hstep files fun _ _ => rfl
  refine ⟨files', hrun, hother, fun id h1 h2 => (htable id).2 ⟨id, ?_, rfl⟩⟩
  rw [List.mem_range'_1]
  omega

/-- A table that was written is read back. -/
theorem HasSmallTable.load {name : Nat → Nat → Str} {files : Files} {n id : Nat}
    (h : HasSmallTable L name files n id) (h1 : 1 ≤ id) (h2 : id ≤ L.numGroups n) (hn : Fits n)
    (hid : Fits id) : (files (name n id)).bind (loadTable n) = some (smallTable L n id) := by
  have hct := smallTable_isTableOf (L := L) n id
  have hlen : (elements (L.G n id)).length = n := by rw [length_elements, L.card n id h1 h2]
  have hrows := hct.rows
  have hcols := hct.cols
  have hentries := hct.entries
  rw [hlen] at hrows hcols hentries
  rw [h, Option.bind_some, loadTable_write n id _ hrows hcols hentries, if_pos ⟨hn, hid⟩]

/-- **The loop over the orders** writes the tables of all groups and no other files. -/
theorem genAllTables_tables (L : SmallGroups) (orders : List Nat) (files : Files) : ∃ files',
    genAllTables L orders files = .ok files' ∧
    (∀ x, (∀ n ∈ orders, ∀ id, 1 ≤ id → id ≤ L.numGroups n → x ≠ tableName n id) → files' x = files x) ∧
    ∀ n ∈ orders, ∀ id, 1 ≤ id → id ≤ L.numGroups n →
      HasSmallTable L (fun n id => tableName n id) files' n id := by
  let name : Nat → Nat → Str := fun n id => tableName n id
  have hname : ∀ n id n' id', name n id = name n' id' → n = n' ∧ id = id' := by
    intro n id n' id' h
    obtain ⟨h1, h2⟩ := tableName_inj h
    exact ⟨Int.natCast_inj.1 h1, Int.natCast_inj.1 h2⟩
  have hstep : ∀ s, ∀ n ∈ orders,
      (∀ x, (∀ n ∈ orders, ∀ id, 1 ≤ id → id ≤ L.numGroups n → x ≠ name n id) → s x = files x) →
      ∃ s', genTables L name n s (L.numGroups n) = .ok s' ∧
        (∀ x, (∀ n ∈ orders, ∀ id, 1 ≤ id → id ≤ L.numGroups n → x ≠ name n id) → s' x = files x) ∧
        ∀ nid : Nat × Nat, (HasSmallTable L name s nid.1 nid.2 → HasSmallTable L name s' nid.1 nid.2) ∧
          (nid.1 = n ∧ 1 ≤ nid.2 ∧ nid.2 ≤ L.numGroups n → HasSmallTable L name s' nid.1 nid.2) := by
    intro s n hn hs
    obtain ⟨s', hrun, hother, htable⟩ :=
      genTables_ok name (fun id id' h => (hname _ _ _ _ h).2) (le_refl (L.numGroups n)) s
    refine ⟨s', hrun, fun x hx => (hother x (hx n hn)).trans (hs x hx), fun nid => ⟨fun hold => ?_, ?_⟩⟩
    · -- the file of another group, or one that was written again
      by_cases h : ∃ id, 1 ≤ id ∧ id ≤ L.numGroups n ∧ name nid.1 nid.2 = name n id
      · obtain ⟨id, h1, h2, h⟩ := h
        obtain ⟨hn', hid⟩ := hname _ _ _ _ h
        rw [hn', hid]
        exact htable id h1 h2
      · exact (hother _ fun id h1 h2 heq => h ⟨id, h1, h2, heq⟩).trans hold
    · rintro ⟨hn', h1, h2⟩
      rw [hn']
      exact htable _ h1 h2
  obtain ⟨files', hrun, hother, htable⟩ := foldlM_reach _ _ _ _ hstep files fun _ _ => rfl
  exact ⟨files', hrun, hother, fun n hn id h1 h2 => (htable (n, id)).2 ⟨n, hn, rfl, h1, h2⟩⟩

/-- **The whole directory.**  `gen_allTables.g` writes the table of every group of every order it is
asked for, from any directory; none of these files overwrites another, and no other file is
touched.  Each is the multiplication table of its group, and both loaders read it back. -/
theorem genAllTables_ok (L : SmallGroups) (orders : List Nat) (files : Files) : ∃ files',
    genAllTables L orders files = .ok files' ∧
    (∀ x, (∀ n ∈ orders, ∀ id, 1 ≤ id → id ≤ L.numGroups n → x ≠ tableName n id) → files' x = files x) ∧
    ∀ n ∈ orders, ∀ id, 1 ≤ id → id ≤ L.numGroups n → ∃ file ct,
      files' (tableName n id) = some file ∧ IsTableOf (elements (L.G n id)) ct ∧
        (Fits n → Fits id → loadTable n file = some ct) ∧ getCt files' n id = .ok ct := by
  obtain ⟨files', hrun, hother, htable⟩ := genAllTables_tables L orders files
  refine ⟨files', hrun, hother, ?_⟩
  intro n hn id h1 h2
  have hfile : files' (tableName n id) = some (writeTable n id (oneBased (smallTable L n id))) :=
    htable n hn id h1 h2
  have hct := smallTable_isTableOf (L := L) n id
  refine ⟨_, smallTable L n id, hfile, hct, ?_, ?_⟩
  · intro hfn hfid
    have h := (htable n hn id h1 h2).load h1 h2 hfn hfid
    change (files' (tableName n id)).bind (loadTable n) = _ at h
    rwa [hfile] at h
  · refine getCt_write files' n id _ (fun row hrow hnil => ?_) hfile
    have h := hct.cols row hrow
    have hpos : 0 < (elements (L.G n id)).length := List.length_pos_of_mem (mem_elements 1)
    rw [hnil, List.length_nil] at h
    omega

/-- What is in the directory after `gen_tables64.g`. -/
theorem genTables64_tables (h : 267 ≤ L.numGroups 64) {files files' : Files}
    (hgen : genTables64 L files = .ok files') {id : Nat} (h1 : 1 ≤ id) (h2 : id ≤ 267) :
    HasSmallTable L (fun _ id => tableName64 id) files' 64 id := by
  obtain ⟨files'', hrun, -, htable⟩ :=
    genTables_ok (n := 64) (fun _ id => tableName64 id) (fun id id' heq => tableName64_inj heq) h files
  obtain rfl : files' = files'' := Except.ok.inj (hgen.symm.trans hrun)
  exact htable id h1 h2

/-- **The tables of order 64.**  `gen_tables64.g` writes the 267 files `search64.cpp` opens, each once,
and the loader reads the multiplication tables of the groups back. -/
theorem genTables64_ok (L : SmallGroups) (h : 267 ≤ L.numGroups 64) (files : Files) : ∃ files',
    genTables64 L files = .ok files' ∧
    (∀ x, (∀ id : Nat, 1 ≤ id → id ≤ 267 → x ≠ tableName64 id) → files' x = files x) ∧
    ∀ id, 1 ≤ id → id ≤ 267 → IsTableOf (elements (L.G 64 id)) (smallTable L 64 id) ∧
      (files' (tableName64 id)).bind (loadTable 64) = some (smallTable L 64 id) := by
  obtain ⟨files', hrun, hother, htable⟩ :=
    genTables_ok (n := 64) (fun _ id => tableName64 id) (fun id id' heq => tableName64_inj heq) h files
  refine ⟨files', hrun, hother, fun id h1 h2 => ⟨smallTable_isTableOf 64 id, ?_⟩⟩
  have hfits : Fits id := by
    unfold Fits
    omega
  exact (htable id h1 h2).load h1 (by omega) (by decide) hfits

end

/-- A library with `count` copies of the cyclic group of each order. -/
noncomputable def cyclicGroups (count : Nat) : SmallGroups where
  numGroups n := if n = 0 then 0 else count
  G n _ := (cyclicTable (n - 1 + 1)).Elem
  one_le n _ x := (cyclicTable (n - 1 + 1)).one_le x
  card := by
    intro n id h1 h2
    have hn : n ≠ 0 := by
      rintro rfl
      simp at h2
      omega
    rw [show Fintype.card (cyclicTable (n - 1 + 1)).Elem = n - 1 + 1 from Fintype.card_fin _]
    omega

/-- With the cyclic group 267 times. -/
theorem genTables64_ok_cyclic : ∃ files', genTables64 (cyclicGroups 267) (fun _ => none) = .ok files' ∧
    (∀ x, (∀ id : Nat, 1 ≤ id → id ≤ 267 → x ≠ tableName64 id) → files' x = none) ∧
    ∀ id, 1 ≤ id → id ≤ 267 →
      IsTableOf (elements ((cyclicGroups 267).G 64 id)) (smallTable (cyclicGroups 267) 64 id) ∧
      (files' (tableName64 id)).bind (loadTable 64) = some (smallTable (cyclicGroups 267) 64 id) :=
  genTables64_ok (cyclicGroups 267) (by decide) fun _ => none

end PdsSearch
