import PdsSearch.SearchMany
import PdsSearch.WrappedSearch

/-!
# The checker (`checkPDS.py`)

The checker takes a line of the search's output apart, loads the group's table
again and counts all products of the set.  On the line of a set of `k` distinct
nonidentity elements it passes exactly when the C++ error of the set is zero:

    checkLine files (resultLine … (some (S, i))) = .ok (some true) ↔
      error d T.ct S l2Error = .ok 0                              (checkLine_iff)

so every line the search prints for a set it found passes  (search_checks).
-/

namespace PdsSearch

open Checked GroupRing Text MachineInt
open MonoidAlgebra (single)

/-! ## Algorithm -/

/-- The place of `v[i]`; negative indices count from the end. -/
def pyPlace (length : Nat) (i : Int) : Except PyStop Nat :=
  let j := if i < 0 then i + length else i
  if 0 ≤ j ∧ j < length then .ok j.toNat else .error .indexError

/-- `v[i]` -/
def pyGet {β : Type} (v : List β) (i : Int) : Except PyStop β := do
  let j ← pyPlace v.length i
  match v[j]? with
  | some b => .ok b
  | none => .error .indexError

/-- `v[i] += 1` -/
def pyIncr (v : List Int) (i : Int) : Except PyStop (List Int) := do
  let j ← pyPlace v.length i
  return v.set j ((← pyGet v i) + 1)

/-- `getParms`: the parameters of a line. -/
def getParms (x : Str) : Except PyStop (List Int) := do
  let openParPDS := 3
  let closeParPDS ← index x ") ".toList
  let openParGrp := (← index x "SmGrp(".toList) + 5
  let closeParGrp ← index x "):".toList
  let firstnums ← ints ',' (slice x (openParPDS + 1) closeParPDS)
  let secondnums ← ints ',' (slice x (openParGrp + 1) closeParGrp)
  return firstnums ++ secondnums

/-- `get_pds`: the set of a line. -/
def getPds (line : Str) : Except PyStop (List Int) := do
  let colonInd ← index line ":".toList
  let periodInd ← index line ".".toList
  ints ' ' (strip (slice line (colonInd + 1) periodInd))

/-- The double loop of `is_pds`. -/
def pairSums (ct : List (List Int)) (pds sums : List Int) : Except PyStop (List Int) :=
  pds.foldlM (fun sums i =>
    pds.foldlM (fun sums j => do
      pyIncr sums (← pyGet (← pyGet ct i) j)) sums) sums

/-- The last loop of `is_pds`, over the elements left. -/
def checkElements (lam mu : Int) (pds sums : List Int) : List Int → Except PyStop Bool
  | [] => return true
  | i :: rest => do
    if i ∈ pds ∧ (← pyGet sums i) ≠ lam then return false
    else if i ∉ pds ∧ (← pyGet sums i) ≠ mu then return false
    else checkElements lam mu pds sums rest

/-- `is_pds` -/
def isPds (n k lam mu : Int) (ct : List (List Int)) (pds : List Int) : Except PyStop Bool := do
  -- `len(set(pds))`
  if (pds.dedup.length : Int) ≠ k then return false
  else
    let sums ← pairSums ct pds (List.replicate n.toNat 0)
    if (← pyGet sums 0) ≠ k then return false
    else checkElements lam mu pds sums ((List.range' 1 (n.toNat - 1)).map fun i : Nat => (i : Int))

/-- The body of the main loop; `none` for a line that is passed over. -/
def checkLine (files : Str → Option Str) (a : Str) : Except PyStop (Option Bool) := do
  if contains "None in".toList a || !contains "PDS".toList a then return none
  else
    let parms ← getParms a
    let n ← pyGet parms 0
    let k ← pyGet parms 1
    let lam ← pyGet parms 2
    let mu ← pyGet parms 3
    if n ≠ (← pyGet parms 4) then .error (.exit 3)
    else
      let gid ← pyGet parms 5
      let pds ← getPds a
      let ct ← getCt files n gid
      let checkPD ← isPds n k lam mu ct pds
      if !checkPD then .error (.exit 10)
      else return some (← isPds n k lam mu ct pds)

/-! ## Reading a line -/

section
variable (d : Dims) (gid : Nat) (rest : Str)

/-- A line of the search's output, with `rest` after the head. -/
def lineOf : Str :=
  "PDS(".toList ++ (dimsText d ++ (") SmGrp(".toList ++ (groupText d gid ++ ("): ".toList ++ rest))))

theorem find_closeParPDS :
    find ") ".toList (lineOf d gid rest) = some (4 + (dimsText d).length) := by
  have hskip : ')' ∉ "PDS(".toList ++ dimsText d := by
    rw [List.mem_append, not_or]
    exact ⟨by decide, notMem_dimsText rfl (by decide) (by decide) d⟩
  have hfind := find_first hskip " ".toList ("SmGrp(".toList ++ (groupText d gid ++ ("): ".toList ++ rest)))
  rw [List.append_assoc] at hfind
  refine hfind.trans ?_
  rw [List.length_append]
  rfl

theorem find_openParGrp :
    find "SmGrp(".toList (lineOf d gid rest) = some (4 + (dimsText d).length + 2) := by
  have hskip : 'S' ∉ "(".toList ++ (dimsText d ++ ") ".toList) := by
    simp only [List.mem_append, not_or]
    exact ⟨by decide, notMem_dimsText rfl (by decide) (by decide) d, by decide⟩
  have hfind := find_first hskip "mGrp(".toList (groupText d gid ++ ("): ".toList ++ rest))
  have hline : lineOf d gid rest = "PD".toList ++ ('S' :: (("(".toList ++ (dimsText d ++ ") ".toList)) ++
      ("SmGrp(".toList ++ (groupText d gid ++ ("): ".toList ++ rest))))) := by
    unfold lineOf
    simp
  rw [hline]
  show find ('S' :: "mGrp(".toList) _ = _
  -- the `S` of `PDS` comes first
  rw [find_skip (by decide), find_step rfl]
  show ((find ('S' :: "mGrp(".toList) (_ ++ ('S' :: "mGrp(".toList ++ _))).map _).map _ = _
  rw [hfind]
  simp
  omega

theorem find_closeParGrp :
    find "):".toList (lineOf d gid rest) =
      some (4 + (dimsText d).length + 8 + (groupText d gid).length) := by
  have hskip : ')' ∉ "PDS(".toList ++ dimsText d := by
    rw [List.mem_append, not_or]
    exact ⟨by decide, notMem_dimsText rfl (by decide) (by decide) d⟩
  have hskip' : ')' ∉ " SmGrp(".toList ++ groupText d gid := by
    rw [List.mem_append, not_or]
    exact ⟨by decide, notMem_groupText rfl (by decide) (by decide) d gid⟩
  have hfind := find_first hskip' ":".toList (" ".toList ++ rest)
  have hline : lineOf d gid rest = ("PDS(".toList ++ dimsText d) ++ (')' ::
      ((" SmGrp(".toList ++ groupText d gid) ++ ("):".toList ++ (" ".toList ++ rest)))) := by
    unfold lineOf
    simp
  rw [hline]
  show find (')' :: ":".toList) _ = _
  -- the parenthesis after the parameters comes first
  rw [find_skip hskip, find_step rfl]
  show ((find (')' :: ":".toList) (_ ++ (')' :: ":".toList ++ _))).map _).map _ = _
  rw [hfind]
  simp
  omega

theorem find_colon :
    find ":".toList (lineOf d gid rest) =
      some (4 + (dimsText d).length + 8 + (groupText d gid).length + 1) := by
  have hskip : ':' ∉ "PDS(".toList ++ (dimsText d ++ (") SmGrp(".toList ++ (groupText d gid ++ ")".toList))) := by
    simp only [List.mem_append, not_or]
    exact ⟨by decide, notMem_dimsText rfl (by decide) (by decide) d, by decide,
      notMem_groupText rfl (by decide) (by decide) d gid, by decide⟩
  have hfind := find_first hskip [] (" ".toList ++ rest)
  have hline : lineOf d gid rest = ("PDS(".toList ++ (dimsText d ++ (") SmGrp(".toList ++
      (groupText d gid ++ ")".toList)))) ++ (':' :: [] ++ (" ".toList ++ rest)) := by
    unfold lineOf
    simp
  rw [hline]
  refine hfind.trans ?_
  simp
  omega

/-- **The parameters of every line are read back.** -/
theorem getParms_line : getParms (lineOf d gid rest) = .ok [(d.n : Int), d.k, d.lam, d.mu, d.n, gid] := by
  have hfirst : slice (lineOf d gid rest) (3 + 1) (4 + (dimsText d).length) = dimsText d :=
    slice_middle "PDS(".toList (dimsText d) _
  have hsecond : slice (lineOf d gid rest) (4 + (dimsText d).length + 2 + 5 + 1)
      (4 + (dimsText d).length + 8 + (groupText d gid).length) = groupText d gid := by
    have h := slice_middle ("PDS(".toList ++ (dimsText d ++ ") SmGrp(".toList)) (groupText d gid)
      ("): ".toList ++ rest)
    have hlen : ("PDS(".toList ++ (dimsText d ++ ") SmGrp(".toList)).length = 4 + (dimsText d).length + 8 := by
      simp
      omega
    have hline : lineOf d gid rest = ("PDS(".toList ++ (dimsText d ++ ") SmGrp(".toList)) ++
        (groupText d gid ++ ("): ".toList ++ rest)) := by
      unfold lineOf
      simp
    rw [hlen] at h
    rw [hline]
    exact h
  unfold getParms
  rw [index_ok (find_closeParPDS d gid rest), index_ok (find_openParGrp d gid rest),
    index_ok (find_closeParGrp d gid rest)]
  simp only [bind, Except.bind, pure, Except.pure]
  rw [hfirst, hsecond]
  unfold dimsText groupText
  rw [ints_intercalate rfl (by decide) (by simp), ints_intercalate rfl (by decide) (by simp)]
  rfl

/-- The line up to the space before the set. -/
def lineHead : Str :=
  "PDS(".toList ++ (dimsText d ++ (") SmGrp(".toList ++ (groupText d gid ++ "):".toList)))

theorem lineOf_eq : lineOf d gid rest = lineHead d gid ++ (" ".toList ++ rest) := by
  unfold lineOf lineHead
  simp

theorem length_lineHead :
    (lineHead d gid).length = 4 + (dimsText d).length + 8 + (groupText d gid).length + 1 + 1 := by
  unfold lineHead
  simp
  omega

theorem notMem_lineHead {c : Char} (h1 : c.isDigit = false) (h2 : c ≠ '-') (h3 : c ≠ ',')
    (h4 : c ∉ "PDS() SmGrp(:".toList) : c ∉ lineHead d gid := by
  have hsub : ∀ s : Str, s ⊆ "PDS() SmGrp(:".toList → c ∉ s := fun s hs hc => h4 (hs hc)
  unfold lineHead
  simp only [List.mem_append, not_or]
  exact ⟨hsub _ (by decide), notMem_dimsText h1 h2 h3 d, hsub _ (by decide),
    notMem_groupText h1 h2 h3 d gid, hsub _ (by decide)⟩

theorem find_period (S : List Int) (t : Str) :
    find ".".toList (lineOf d gid (spaced S ++ (".".toList ++ t))) =
      some ((lineHead d gid).length + (" ".toList ++ spaced S).length) := by
  have hskip : '.' ∉ lineHead d gid ++ (" ".toList ++ spaced S) := by
    simp only [List.mem_append, not_or]
    exact ⟨notMem_lineHead d gid rfl (by decide) (by decide) (by decide), by decide,
      notMem_spaced rfl (by decide) (by decide) S⟩
  rw [lineOf_eq, ← List.append_assoc " ".toList, ← List.append_assoc, ← List.length_append]
  exact find_first hskip [] t

/-- **The set of a line is read back.** -/
theorem getPds_line {S : List Int} (hS : S ≠ []) (t : Str) :
    getPds (lineOf d gid (spaced S ++ (".".toList ++ t))) = .ok S := by
  have hslice : slice (lineOf d gid (spaced S ++ (".".toList ++ t))) (lineHead d gid).length
      ((lineHead d gid).length + (" ".toList ++ spaced S).length) = " ".toList ++ spaced S := by
    rw [lineOf_eq, ← List.append_assoc " ".toList]
    exact slice_middle (lineHead d gid) (" ".toList ++ spaced S) (".".toList ++ t)
  have hints := ints_strip_spaced hS (a := " ".toList) (b := []) (by simp [isSpace]) (by simp)
  rw [List.append_nil] at hints
  unfold getPds
  rw [index_ok (find_colon d gid _), index_ok (find_period d gid S t)]
  simp only [bind, Except.bind]
  rw [← length_lineHead, hslice, hints]

theorem contains_pds : contains "PDS".toList (lineOf d gid rest) = true := by
  have hline : lineOf d gid rest = "PDS".toList ++ ("(".toList ++
      (dimsText d ++ (") SmGrp(".toList ++ (groupText d gid ++ ("): ".toList ++ rest))))) := by
    unfold lineOf
    simp
  unfold contains
  rw [hline, find_here]
  rfl

/-- A line with a set does not say `None in`. -/
theorem contains_none (S : List Int) (trial : Nat) : contains "None in".toList
    (lineOf d gid (spaced S ++ (".".toList ++ ("Tri: ".toList ++ (printInt trial ++ ['\n']))))) = false := by
  have hskip : 'N' ∉
      lineOf d gid (spaced S ++ (".".toList ++ ("Tri: ".toList ++ (printInt trial ++ ['\n'])))) := by
    rw [lineOf_eq]
    simp only [List.mem_append, not_or]
    exact ⟨notMem_lineHead d gid rfl (by decide) (by decide) (by decide), by decide,
      notMem_spaced rfl (by decide) (by decide) S, by decide, by decide,
      notMem_printInt rfl (by decide) _, by decide⟩
  have hnone : find "None in".toList _ = none := find_eq_none hskip "one in".toList
  unfold contains
  rw [hnone]
  rfl

/-- A line without a set does. -/
theorem contains_none_in (t : Str) :
    contains "None in".toList (lineOf d gid ("None in".toList ++ t)) = true := by
  have hskip : 'N' ∉ lineHead d gid ++ " ".toList := by
    rw [List.mem_append, not_or]
    exact ⟨notMem_lineHead d gid rfl (by decide) (by decide) (by decide), by decide⟩
  have hfind : find "None in".toList (lineOf d gid ("None in".toList ++ t)) =
      some (lineHead d gid ++ " ".toList).length := by
    rw [lineOf_eq, ← List.append_assoc]
    exact find_first hskip "one in".toList t
  unfold contains
  rw [hfind]
  rfl

end

/-- The line of a set that was found. -/
theorem resultLine_lineOf (multiplier : Int) (d : Dims) (gid : Nat) (S : List Int) (trial : Nat) :
    resultLine multiplier d gid (some (S, trial)) = lineOf d gid
      (spaced S ++ (".".toList ++ ("Tri: ".toList ++ (printInt trial ++ ['\n'])))) := by
  rw [resultLine_eq]
  unfold lineOf resultTail
  simp

/-- The line of a group where none was found. -/
theorem resultLine_none (multiplier : Int) (d : Dims) (gid : Nat) :
    resultLine multiplier d gid none = lineOf d gid
      ("None in".toList ++ (" Tri: ".toList ++ (printInt (numTrials multiplier d) ++ ['\n']))) := by
  rw [resultLine_eq]
  unfold lineOf resultTail
  simp

/-! ## `is_pds` -/

section
variable {β : Type}

theorem pyPlace_ok {length : Nat} {i : Int} (h0 : 0 ≤ i) (h : i.toNat < length) :
    pyPlace length i = .ok i.toNat := by
  unfold pyPlace
  simp only [if_neg (show ¬ i < 0 by omega)]
  rw [if_pos ⟨h0, by omega⟩]

/-- Inside of the list Python reads what C++ reads. -/
theorem pyGet_of_vget {v : List β} {i : Int} {b : β} (h : vget v i = .ok b) : pyGet v i = .ok b := by
  obtain ⟨h0, hb⟩ := (vget_eq_ok_iff v i b).1 h
  have hlt : i.toNat < v.length := (List.getElem?_eq_some_iff.1 hb).1
  unfold pyGet
  rw [pyPlace_ok h0 hlt, ok_bind, hb]

theorem pyIncr_of_vmod {v v' : List Int} {i : Int} (h : vmod v i (fun s => s + 1) = .ok v') :
    pyIncr v i = .ok v' := by
  unfold vmod at h
  obtain ⟨b, hg, h⟩ := exists_of_bind h
  obtain ⟨h0, hb⟩ := (vget_eq_ok_iff v i b).1 hg
  have hlt : i.toNat < v.length := (List.getElem?_eq_some_iff.1 hb).1
  unfold vset at h
  rw [if_pos ⟨h0, hlt⟩] at h
  unfold pyIncr
  rw [pyPlace_ok h0 hlt, ok_bind, pyGet_of_vget hg]
  exact congrArg Except.ok (Except.ok.inj h)

end

section
variable {n : Nat} (T : Table n)

/-- The two subscripts of `ct[i][j]`. -/
theorem pyGet_cell (x y : T.Elem) :
    (pyGet T.ct (T.idx x) >>= fun row => pyGet row (T.idx y)) = .ok (T.idx (x * y)) := by
  have h := T.cell_mul x y
  obtain ⟨row, hr, h⟩ := exists_of_bind h
  rw [pyGet_of_vget hr, ok_bind, pyGet_of_vget h]

/-- **The double loop counts the products.** -/
theorem pairSums_spec (xs : List T.Elem) : pairSums T.ct (T.ints xs) (List.replicate n 0) =
    .ok (T.hist (formal Int xs * formal Int xs)) := by
  have hstep : ∀ (a : MonoidAlgebra Int T.Elem) (x y : T.Elem),
      (pyGet T.ct (T.idx x) >>= fun row => pyGet row (T.idx y) >>= fun z => pyIncr (T.hist a) z) =
        .ok (T.hist (a + single (x * y) 1)) := by
    intro a x y
    have h : vmod (T.hist a) (T.idx (x * y)) (fun s => s + 1) = .ok (T.hist (a + single (x * y) 1)) :=
      T.addAt_hist a (x * y) 1
    rw [← bind_assoc, pyGet_cell, ok_bind, pyIncr_of_vmod h]
  have hrow : ∀ (a : MonoidAlgebra Int T.Elem) (x : T.Elem),
      (T.ints xs).foldlM (fun sums j => do
        pyIncr sums (← pyGet (← pyGet T.ct (T.idx x)) j)) (T.hist a) =
        .ok (T.hist (a + single x 1 * formal Int xs)) := by
    intro a x
    unfold Table.ints
    rw [List.foldlM_map, foldlM_conc T.hist _ (fun a y => a + single (x * y) 1) xs a
      (fun a y _ => hstep a x y), foldl_add_sum, mul_formal]
    simp
  unfold pairSums
  have hzero : List.replicate n (0 : Int) = T.hist 0 := (T.hist_zero (α := Int)).symm
  rw [hzero]
  conv_lhs => unfold Table.ints
  rw [List.foldlM_map, foldlM_conc T.hist _ (fun a x => a + single x 1 * formal Int xs) xs 0
    (fun a x _ => hrow a x), foldl_add_sum, formal_mul, zero_add]

/-- The last loop compares every count with its target. -/
theorem checkElements_spec (lam mu : Int) (xs : List T.Elem) (a : MonoidAlgebra Int T.Elem)
    (ys : List T.Elem) :
    ∃ b, checkElements lam mu (T.ints xs) (T.hist a) (T.ints ys) = .ok b ∧
      (b = true ↔ ∀ y ∈ ys, a.coeff y = if y ∈ xs then lam else mu) := by
  induction ys with
  | nil => exact ⟨true, rfl, by simp⟩
  | cons y ys ih =>
    obtain ⟨b, hb, hiff⟩ := ih
    have hget : pyGet (T.hist a) (T.idx y) = .ok (a.coeff y) := pyGet_of_vget (T.vget_hist a y)
    have hmem : T.idx y ∈ T.ints xs ↔ y ∈ xs := T.idx_mem_ints y xs
    show ∃ b, checkElements lam mu (T.ints xs) (T.hist a) (T.idx y :: T.ints ys) = .ok b ∧ _
    unfold checkElements
    rw [hget, ok_bind]
    by_cases hy : y ∈ xs
    · by_cases hlam : a.coeff y = lam
      · refine ⟨b, ?_, ?_⟩
        · rw [if_neg (by simp [hlam])]
          simp only [ok_bind]
          rw [if_neg (by simp [hmem, hy]), hb]
        · rw [List.forall_mem_cons, if_pos hy, hiff]
          simp [hlam]
      · refine ⟨false, ?_, ?_⟩
        · rw [if_pos ⟨hmem.2 hy, hlam⟩]
          rfl
        · rw [List.forall_mem_cons, if_pos hy]
          simp [hlam]
    · rw [if_neg (by simp [hmem, hy])]
      simp only [ok_bind]
      by_cases hmu : a.coeff y = mu
      · refine ⟨b, ?_, ?_⟩
        · rw [if_neg (by simp [hmu]), hb]
        · rw [List.forall_mem_cons, if_neg hy, hiff]
          simp [hmu]
      · refine ⟨false, ?_, ?_⟩
        · rw [if_pos ⟨fun h => hy (hmem.1 h), hmu⟩]
          rfl
        · rw [List.forall_mem_cons, if_neg hy]
          simp [hmu]

/-- **`is_pds` counts products.**  It tests the number of distinct values, and the number of
products of two positions at every element. -/
theorem isPds_spec (hn : 0 < n) (k lam mu : Int) (xs : List T.Elem) :
    ∃ b, isPds n k lam mu T.ct (T.ints xs) = .ok b ∧
      (b = true ↔ (xs.dedup.length : Int) = k ∧
        (formal Int xs * formal Int xs).coeff (T.zero hn) = k ∧
        ∀ x ∈ T.nonId, (formal Int xs * formal Int xs).coeff x = if x ∈ xs then lam else mu) := by
  set a := formal Int xs * formal Int xs with ha
  have hdedup : (T.ints xs).dedup.length = xs.dedup.length := T.length_dedup_ints xs
  have hget : pyGet (T.hist a) 0 = .ok (a.coeff (T.zero hn)) :=
    pyGet_of_vget (T.vget_hist a (T.zero hn))
  have hrange : (List.range' 1 (n - 1)).map (fun i : Nat => (i : Int)) = T.ints T.nonId :=
    T.ints_nonId.symm
  obtain ⟨b, hb, hiff⟩ := checkElements_spec T lam mu xs a T.nonId
  unfold isPds
  rw [hdedup]
  by_cases hlen : (xs.dedup.length : Int) = k
  · rw [if_neg (not_not.2 hlen), Int.toNat_natCast, pairSums_spec, ok_bind, ← ha]
    show ∃ b, (pyGet (T.hist a) 0 >>= _) = .ok b ∧ _
    rw [hget, ok_bind, hrange]
    by_cases hk : a.coeff (T.zero hn) = k
    · refine ⟨b, ?_, ?_⟩
      · rw [if_neg (not_not.2 hk)]
        exact hb
      · rw [hiff]
        exact ⟨fun h => ⟨hlen, hk, h⟩, fun h => h.2.2⟩
    · refine ⟨false, ?_, ?_⟩
      · rw [if_pos hk]
        rfl
      · simp [hk]
  · refine ⟨false, ?_, ?_⟩
    · rw [if_pos hlen]
      rfl
    · simp [hlen]

end

/-- **`is_pds` tests the deviations.** -/
theorem isPds_candidate {d : Dims} (T : Table d.n) (hn : 0 < d.n) (c : Candidate T) :
    ∃ b, isPds d.n d.k d.lam d.mu T.ct (T.ints c.xs) = .ok b ∧
      (b = true ↔ ∀ x, dev T c.member (fun x => (c.square Int).coeff x) x = 0) := by
  obtain ⟨b, hb, hiff⟩ := isPds_spec T hn d.k d.lam d.mu c.xs
  refine ⟨b, hb, hiff.trans ?_⟩
  rw [c.dev_eq_zero_iff_coeff hn, List.Nodup.dedup c.nodup, c.length_eq]
  exact ⟨fun h => h.2, fun h => ⟨rfl, h⟩⟩

/-! ## Top theorems -/

/-- Files hold the table of group `gid` as the generators write it. -/
def HasTable (files : Str → Option Str) (gid : Nat) {n : Nat} (T : Table n) : Prop :=
  files (tableName n gid) = some (writeTable n gid (oneBased T.ct))

/-- **The checker passes on a set exactly when its error is zero.** -/
theorem checkLine_iff {d : Dims} (T : Table d.n) (hn : 0 < d.n) (hk : 1 ≤ d.k) (c : Candidate T)
    (files : Str → Option Str) (gid : Nat) (hfile : HasTable files gid T) (multiplier : Int)
    (trial : Nat) :
    checkLine files (resultLine multiplier d gid (some (T.ints c.xs, trial))) = .ok (some true) ↔
      error d T.ct (T.ints c.xs) (l2Error : ErrorCalc Int) = .ok 0 := by
  have hS : T.ints c.xs ≠ [] := by
    intro h
    have := congrArg List.length h
    rw [T.length_ints, c.length_eq, List.length_nil] at this
    omega
  have hct : getCt files d.n gid = .ok T.ct := by
    refine getCt_write files d.n gid T.ct (fun row hrow h => ?_) hfile
    have := T.cols row hrow
    rw [h, List.length_nil] at this
    omega
  obtain ⟨norm, hM, -, hzero⟩ := exists_norm_int T hn (l2Error : ErrorCalc Int) (by simp [calculators])
  obtain ⟨b, hb, hiff⟩ := isPds_candidate T hn c
  have herr : error d T.ct (T.ints c.xs) (l2Error : ErrorCalc Int) = .ok 0 ↔ b = true := by
    rw [error_candidate hM, hiff]
    constructor
    · intro h
      exact (hzero _).1 (Except.ok.inj h)
    · intro h
      exact congrArg Except.ok ((hzero _).2 h)
  rw [herr, resultLine_lineOf]
  unfold checkLine
  rw [contains_none, contains_pds, if_neg (by simp), getParms_line, ok_bind]
  show (if (d.n : Int) ≠ d.n then _ else _) = _ ↔ _
  rw [if_neg (by simp)]
  show (getPds _ >>= _) = _ ↔ _
  rw [getPds_line d gid hS, ok_bind, hct, ok_bind, hb, ok_bind]
  cases b with
  | true => simp
  | false => simp

/-- A trial that found the set. -/
theorem trialLoop_found {α : Type} [CommRing α] [LinearOrder α] {e : ErrorCalc α} {fuel : Nat} {o : ArgOrder}
    {d : Dims} {ct : List (List Int)} {rs : Nat → Nat} {S : List Int} {trial : Nat} (m : Nat) : ∀ i pos,
    trialLoop e fuel o d ct rs m i pos = .ok (some (S, trial)) → ∃ pos' out,
      search fuel o d ct rs pos' e = .ok out ∧ out.err = 0 ∧ S = out.set.insertionSort (· ≤ ·) := by
  induction m with
  | zero => intro i pos h; cases h
  | succ m ih =>
    intro i pos h
    unfold trialLoop at h
    obtain ⟨out, hs, h⟩ := exists_of_bind h
    split at h
    · next h0 =>
      rw [Int.cast_zero] at h0
      obtain ⟨rfl, -⟩ := Prod.mk.inj (Option.some.inj (Except.ok.inj h))
      exact ⟨pos, out, hs, h0, rfl⟩
    · exact ih (i + 1) out.pos h

/-- A set without deviations has no error on wrapping integers either. -/
theorem error_wrap_zero {d : Dims} {T : GroupTable d.n} (c : Candidate T.toTable)
    (h : ∀ x, dev T.toTable c.member (fun x => (c.square Int).coeff x) x = 0) :
    error d T.ct (T.ints c.xs) (l2Error : ErrorCalc WrapInt) = .ok 0 := by
  have hM := measures_with (α := WrapInt) T.toTable (fun error t => error + t) (fun t => t * t) add_right_comm T.pos
  have hdev : ∀ x, dev T.toTable c.member (fun x => (c.square WrapInt).coeff x) x = 0 := by
    intro x
    rw [dev_intCast, h x, Int.cast_zero]
  have hterm : ∀ x, (fun t : WrapInt => t * t)
      (cabs (dev T.toTable c.member (fun x => (c.square WrapInt).coeff x) x)) = 0 := by
    intro x
    rw [hdev x]
    rfl
  refine (error_candidate hM c).trans ?_
  unfold Candidate.err
  rw [errFold_add, Finset.sum_eq_zero fun x _ => hterm x]

/-- **Search and checker agree**, on the numbers of the program.  For targets between `0` and `k`
every line printed for a set that was found passes the checker; and, for any targets, a line with
`k` distinct nonidentity elements passes only when the error of these is zero. -/
theorem search_checks {d : Dims} (T : GroupTable d.n) (hk : 1 ≤ d.k) (hkn : d.k ≤ d.n - 1)
    (files : Str → Option Str) (gid : Nat) (hfile : HasTable files gid T.toTable) (multiplier : Int) :
    (d.n ≤ 1290 → 0 ≤ d.lam ∧ d.lam ≤ d.k → 0 ≤ d.mu ∧ d.mu ≤ d.k →
      ∀ fuel o rs S trial, groupTask files fuel o multiplier d gid rs = .ok (some (S, trial)) →
        checkLine files (resultLine multiplier d gid (some (S, trial))) = .ok (some true)) ∧
    ∀ (S : List Int) (trial : Nat), S.length = d.k → S.Nodup → (∀ x ∈ S, 1 ≤ x ∧ x < d.n) →
      checkLine files (resultLine multiplier d gid (some (S, trial))) = .ok (some true) →
      error d T.ct S (l2Error : ErrorCalc WrapInt) = .ok 0 := by
  have hn : 1 < d.n := by omega
  have hl2 : (l2Error : ErrorCalc Int) ∈ calculators := by simp [calculators]
  constructor
  · intro h1290 hlam hmu fuel o rs S trial h
    have hd : InRangeDims d := ⟨⟨hn, h1290⟩, ⟨hk, hkn⟩, hlam, hmu⟩
    unfold groupTask at h
    rw [hfile, Option.bind_some, loadTable_write d.n gid T.ct T.rows T.cols T.entries] at h
    have hfit : Fits d.n ∧ Fits gid := by
      by_contra hno
      rw [if_neg hno] at h
      cases h
    rw [if_pos hfit] at h
    obtain ⟨pos, out, hout, h0, rfl⟩ := trialLoop_found _ _ _ h
    obtain ⟨norm, hM⟩ := exists_norm T.toTable (by omega) (l2Error : ErrorCalc WrapInt) (by simp [calculators])
    obtain ⟨es, hloc⟩ := localSearch_of_search o rs hout
    obtain ⟨start, c₀, c, tr, pos', -, -, -, rfl⟩ :=
      rounds_of_localSearch .new o rs hM hk hn hloc
    -- the sorted list is the same set
    obtain ⟨c', hc', hperm⟩ := c.exists_of_perm _ (List.perm_insertionSort (· ≤ ·) (T.ints c.xs))
    have herr : error d T.ct (T.ints c'.xs) (l2Error : ErrorCalc WrapInt) = .ok 0 := by
      rw [error_candidate hM, Candidate.err_eq_of_perm hperm]
      exact congrArg Except.ok h0
    have hpds := (detects_wrap hd (by simp) c' 0 herr).1 rfl
    show checkLine files (resultLine multiplier d gid
      (some ((T.ints c.xs).insertionSort (· ≤ ·), trial))) = _
    rw [← hc', checkLine_iff T.toTable (by omega) hk c' files gid hfile]
    exact (error_zero_iff c' l2Error hl2).2 hpds
  · intro S trial hlen hnd hS h
    obtain ⟨c, rfl⟩ := Candidate.exists_of_list T.toTable S hlen hnd hS
    have hexact := (checkLine_iff T.toTable (by omega) hk c files gid hfile multiplier trial).1 h
    have hpds := (error_zero_iff c l2Error hl2).1 hexact
    rw [T.toFinset_ints, ← c.dev_eq_zero_iff] at hpds
    exact error_wrap_zero c hpds

/-- The directory with one table, under the number 1. -/
def oneFile {n : Nat} (T : Table n) : Str → Option Str := fun name =>
  if name = tableName n 1 then some (writeTable n 1 (oneBased T.ct)) else none

theorem hasTable_oneFile {n : Nat} (T : Table n) : HasTable (oneFile T) 1 T := if_pos rfl

/-- The line printed for the first group of order 5. -/
theorem search_checks_cyclic :
    let files := oneFile (cyclicTable 5).toTable
    groupTask files 20 .leftFirst 1 ⟨5, 2, 0, 1⟩ 1 id = .ok (some ([1, 4], 1)) ∧
    checkLine files (resultLine 1 ⟨5, 2, 0, 1⟩ 1 (some ([1, 4], 1))) = .ok (some true) := by
  intro files
  have htask : groupTask files 20 .leftFirst 1 ⟨5, 2, 0, 1⟩ 1 id = .ok (some ([1, 4], 1)) := rfl
  exact ⟨htask, (search_checks (d := ⟨5, 2, 0, 1⟩) (cyclicTable 5) (by decide) (by decide) files 1
    (hasTable_oneFile _) 1).1 (by decide) (by decide) (by decide) 20 .leftFirst id [1, 4] 1 htask⟩

/-- **A target that wraps.**  With `lam = 65536` the two missing products at `1` and `4` cost
`65536 * 65536 = 0` each; the set is printed, and the checker stops at its line. -/
theorem search_checks_wraps :
    let files := oneFile (cyclicTable 5).toTable
    groupTask files 20 .leftFirst 1 ⟨5, 2, 65536, 1⟩ 1 (fun i => 3 * i) = .ok (some ([1, 4], 1)) ∧
    checkLine files (resultLine 1 ⟨5, 2, 65536, 1⟩ 1 (some ([1, 4], 1))) = .error (.exit 10) :=
  ⟨rfl, rfl⟩

end PdsSearch
