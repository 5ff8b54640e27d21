import PdsSearch.OneGroup
import PdsSearch.Pipeline

/-!
# From one group to its sets

The workflow for a group of one's own: `gen_conv_table.g` writes its table, and
`search.cpp` or `search_parallel.cpp` searches it.

    both programs print the header that was written, and only partial difference
      sets of the group                                          (genConvTable_search)
-/

namespace PdsSearch

open Checked Text MachineInt PartialDifferenceSet

/-- **The loader of `search.cpp` reads the file back**, header and table. -/
theorem readTable_write {G : Type} [Group G] {e : List G} {n : Nat} {gid : Int} {ct : List (List Int)}
    (hct : IsTableOf e ct) (hlen : e.length = n) (hn : Fits n) (hgid : Fits gid) :
    readTable n (writeTable n gid (oneBased ct)) = some ((n : Int), gid, ct) := by
  subst hlen
  have h1 := cinInt_printInt (a := []) (t := [' '] ++ (printInt gid ++ (['\n'] ++
    (oneBased ct).flatMap fun row => spaced row ++ ['\n']))) (by simp) rfl (e.length : Int)
  have h2 := cinInt_printInt (a := [' ']) (t := ['\n'] ++
    (oneBased ct).flatMap fun row => spaced row ++ ['\n']) (by simp [isCSpace]) rfl gid
  have hfile : writeTable e.length gid (oneBased ct) = [] ++ (printInt e.length ++ ([' '] ++ (printInt gid ++
      (['\n'] ++ (oneBased ct).flatMap fun row => spaced row ++ ['\n'])))) := by
    rw [writeTable_eq, List.flatMap_cons, List.flatMap_map]
    simp only [List.append_assoc, List.nil_append]
  rw [if_pos hn] at h1
  rw [if_pos hgid] at h2
  -- the rows are read as `loadTable` reads them
  have hload := loadTable_write e.length gid ct hct.rows hct.cols hct.entries
  rw [if_pos ⟨hn, hgid⟩] at hload
  unfold loadTable at hload
  unfold readTable
  rw [hfile] at hload ⊢
  simp only [h1, h2, Option.bind_eq_bind, Option.bind_some, Option.bind_eq_some_iff] at hload ⊢
  obtain ⟨⟨ct', t⟩, hrows, hct'⟩ := hload
  obtain rfl : ct' = ct := Option.some.inj hct'
  exact ⟨_, hrows, rfl⟩

section
variable {G : Type} [Group G] [Fintype G] [LinearOrder G] {n : Nat} {id : Int} (fname : Str) (files₀ : Files)

/-- The file of the group, read back. -/
theorem genConvTable_ok (hone : ∀ x : G, 1 ≤ x) (hcard : Fintype.card G = n) (hn : Fits n) (hid : Fits id) :
    ∃ files, genConvTable G n id fname files₀ = .ok files ∧ (∀ x ≠ fname, files x = files₀ x) ∧
      (files fname).bind (readTable n) = some ((n : Int), id, cayley (elements G)) := by
  subst hcard
  have hlen : (elements G).length = Fintype.card G := length_elements
  have hgen := generate_ok (nodup_elements (G := G)) mem_elements id
  rw [hlen] at hgen
  refine ⟨writeFile files₀ fname (writeTable (Fintype.card G) id (oneBased (cayley (elements G)))), ?_, ?_, ?_⟩
  · unfold genConvTable
    rw [hgen]
    rfl
  · intro x hx
    exact Function.update_of_ne hx _ _
  · unfold writeFile
    rw [Function.update_self, Option.bind_some]
    exact readTable_write (cayley_isTableOf nodup_elements mem_elements (elements_head hone)) hlen hn hid

end

/-- **The test of a known set.**  On the tables of order 64 that were written, `test_real_pds.cpp` prints the
error `0` exactly when its set is a partial difference set of the group 226. -/
theorem testRealPds_tables64 {L : SmallGroups} (h267 : 267 ≤ L.numGroups 64) {files₀ files : Files}
    (hgen : genTables64 L files₀ = .ok files) : ∃ err : WrapInt,
      testRealPds files = .ok ("n, group_id: 64 226\nerror is ".toList ++ printInt err.toInt) ∧
      (err.toInt = 0 ↔ IsRegularPDS (placed (L.G 64 226) (testPds.map fun x => x - 1)) 18 2 6) := by
  have hlen : (elements (L.G 64 226)).length = 64 := by
    rw [length_elements, L.card 64 226 (by omega) (by omega)]
  have htable : files (tableName64 226) = some (writeTable 64 226 (oneBased (smallTable L 64 226))) :=
    genTables64_tables h267 hgen (by omega) (by omega)
  have hname : tableName64 226 = "tables64/table226.txt".toList := by decide
  obtain ⟨T, φ, hT, hidx⟩ := exists_table hlen nodup_elements mem_elements (elements_head (L.one_le 64 226))
  have hfile : (files "tables64/table226.txt".toList).bind (readTable 64) = some (64, 226, T.ct) := by
    rw [← hname, htable, Option.bind_some, hT]
    exact readTable_write (smallTable_isTableOf 64 226) hlen (by decide) (by decide)
  obtain ⟨err, hrun, hzero⟩ := testRealPds_run T hfile
  refine ⟨err, hrun, ?_⟩
  exact hzero.trans (isRegularPDS_placed φ hidx _).symm

/-! ## Top theorem -/

/-- **The workflow for one group.**  Let `gen_conv_table.g` have written the table of a group of order `n`.  On
this file, with generators that take every value again and again, `search.cpp` ends and
`search_parallel.cpp` ends on some schedule; both print the order and the number of the group, and then, the
second on every schedule, the set of each of their searches that ended at a partial difference set of the
group and of no other. -/
theorem genConvTable_search {G : Type} [Group G] [Fintype G] [LinearOrder G] (hone : ∀ x : G, 1 ≤ x) {d : Dims}
    (hcard : Fintype.card G = d.n) (hd : InRangeDims d) {id : Int} (hid : Fits id)
    {fname : Str} {files₀ files : Files} (hgen : genConvTable G d.n id fname files₀ = .ok files) (o : ArgOrder)
    (numTrials : Nat) {rs : Nat → Nat} (hrs : Recurrent d rs) {rs' : Nat → Nat → Nat}
    (hrs' : ∀ i < numTrials, Recurrent d (rs' i)) (clock clock' : Str) (printAvg : Int → Int → Str) :
    (∃ outs : List (Outcome WrapInt), outs.length = numTrials ∧
      (∀ out ∈ outs, out.err = 0 ↔ IsRegularPDS (placed G out.set) d.k d.lam d.mu) ∧
      Returns (fun fuel => searchMain files fuel o fname d numTrials rs clock printAvg)
        (headText fname d.n id ++ outs.flatMap trialText ++
          footText numTrials clock printAvg (outs.countP fun out => out.err = 0)
            (outs.map fun out => out.err.toInt).sum)) ∧
    ∃ outs : Nat → Outcome WrapInt,
      (∀ i < numTrials, (outs i).err = 0 ↔ IsRegularPDS (placed G (outs i).set) d.k d.lam d.mu) ∧
      (∃ out, SearchParallelOutput files o fname d numTrials rs' clock' out) ∧
      ∀ out, SearchParallelOutput files o fname d numTrials rs' clock' out →
        ∃ perm : List Nat, perm.Perm (List.range numTrials) ∧
          out = headText fname d.n id ++ (perm.flatMap fun i => trialText (outs i)) ++ "\n".toList ++
            (if ∃ i < numTrials, (outs i).err = 0 then []
             else "No PDSs found from ".toList ++ printInt numTrials ++ " trials.".toList ++ "\n".toList) ++
            "parlay timer ".toList ++ clock' ++ "\n".toList := by
  obtain ⟨files', hgen', -, hfile⟩ := genConvTable_ok fname files₀ hone hcard hd.fits hid
  obtain rfl : files = files' := Except.ok.inj (hgen.symm.trans hgen')
  obtain ⟨T, φ, hct, hidx⟩ :=
    exists_table (by rw [length_elements, hcard]) nodup_elements mem_elements (elements_head hone)
  rw [← hct] at hfile
  have hplaced : ∀ S : List Int, IsRegularPDS (T.toFinset S) d.k d.lam d.mu ↔
      IsRegularPDS (placed G S) d.k d.lam d.mu := fun S => (isRegularPDS_placed φ hidx S).symm
  constructor
  · obtain ⟨outs, htrials, hlen, hmain⟩ := searchMain_returns T hd.k.1 hd.k.2 hfile o numTrials hrs clock printAvg
    refine ⟨outs, by rw [hlen, Int.toNat_natCast], fun out hout => ?_, hmain⟩
    have hres := htrials.isResult T hd.k.1 hd.k.2 l2Error_mem (detects_wrap hd (by simp)) hrs out hout
    exact hres.zero.trans (hplaced out.set)
  · obtain ⟨outs, houts⟩ := exists_trials T hd o hrs'
    have hrets := fun i hi => (houts i hi).1
    exact ⟨outs, fun i hi => (houts i hi).2.trans (hplaced (outs i).set),
      exists_searchParallelOutput T hfile o hrets clock', fun out hout => hout.text T hfile o hrets⟩

/-- The group of order 5, and a file for it. -/
theorem genConvTable_search_five : ∃ (files : Files) (outs : List (Outcome WrapInt)) (out : Str),
    genConvTable (cyclicTable 5).Elem 5 1 "ct".toList (fun _ => none) = .ok files ∧ outs.length = 3 ∧
    Returns (fun fuel => searchMain files fuel .leftFirst "ct".toList ⟨5, 2, 0, 1⟩ 3 id [] fun _ _ => [])
      (headText "ct".toList 5 1 ++ outs.flatMap trialText ++
        footText 3 [] (fun _ _ => []) (outs.countP fun out => out.err = 0)
          (outs.map fun out => out.err.toInt).sum) ∧
    SearchParallelOutput files .leftFirst "ct".toList ⟨5, 2, 0, 1⟩ 3 (fun _ => id) [] out := by
  have hone : ∀ x : (cyclicTable 5).Elem, 1 ≤ x := fun x => (cyclicTable 5).one_le x
  have hcard : Fintype.card (cyclicTable 5).Elem = 5 := Fintype.card_fin _
  obtain ⟨files, hgen, -⟩ :=
    genConvTable_ok "ct".toList (fun _ => none) hone hcard (by decide) (by decide : Fits 1)
  obtain ⟨⟨outs, hlen, -, hmain⟩, -, -, ⟨out, hout⟩, -⟩ := genConvTable_search (d := ⟨5, 2, 0, 1⟩) hone hcard
    inRangeDims_five (by decide) hgen .leftFirst 3 (recurrent_id (by decide))
    (fun _ _ => recurrent_id (by decide)) [] [] fun _ _ => []
  exact ⟨files, outs, out, hgen, hlen, hmain, hout⟩

end PdsSearch
