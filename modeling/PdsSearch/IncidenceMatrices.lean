import PdsSearch.AlternateCheck

/-!
# Designs and their matrices (`11IncidenceMatrices.txt`)

`IncidenceMatrix` marks the points of each block; `IncidenceMatToDesign` lists the marks
of each row.  Each undoes the other as far as a matrix has room for it:

    design to matrix to design: the blocks with their points numbered, sorted    (design_roundTrip)
    matrix to design to matrix: the same matrix, exactly when its entries are 0 and 1, its
      rows have equally many ones and no column is zero                          (matrix_roundTrip)
-/

namespace PdsSearch

open Checked

/-! ## Algorithm -/

/-- `IncidenceMatToDesign` -/
def incidenceMatToDesign (mat : List (List Int)) : Except GapStop (List (List Int)) :=
  let v := mat.length
  (List.range' 1 v).mapM fun (row : Nat) => do
    let list ← (List.range' 1 v).foldlM (fun (list : List Int) (col : Nat) => do
      if (← gapGet (← gapGet mat row) col) = 1 then return list ++ [(col : Int)] else return list) []
    return list.insertionSort (· ≤ ·)

/-- `[1..v]` -/
def interval (v : Nat) : List Int := (List.range' 1 v).map fun (i : Nat) => (i : Int)

section
variable {β : Type} [DecidableEq β]

/-- A row: a `1` at each point of the block. -/
def marksOf (points block : List β) : List Int := points.map fun y => if y ∈ block then 1 else 0

end

/-! ## Lists -/

theorem mem_interval {v : Nat} {i : Int} : i ∈ interval v ↔ 1 ≤ i ∧ i ≤ v := by
  unfold interval
  rw [List.mem_map]
  constructor
  · rintro ⟨j, hj, rfl⟩
    rw [List.mem_range'_1] at hj
    omega
  · rintro ⟨h1, hv⟩
    refine ⟨i.toNat, ?_, by omega⟩
    rw [List.mem_range'_1]
    omega

theorem length_interval (v : Nat) : (interval v).length = v := by
  unfold interval
  rw [List.length_map, List.length_range']

theorem interval_sorted (v : Nat) : (interval v).Pairwise (· < ·) := by
  unfold interval
  exact (List.pairwise_lt_range').map _ fun _ _ h => Int.ofNat_lt.2 h

section
variable {β : Type} [LinearOrder β]

theorem nodup_gapSet (v : List β) : (gapSet v).Nodup := Finset.sort_nodup _ _

theorem gapSet_sorted (v : List β) : (gapSet v).Pairwise (· < ·) := Finset.sortedLT_sort _ |>.pairwise

theorem mem_gapSet {v : List β} {b : β} : b ∈ gapSet v ↔ b ∈ v := by
  unfold gapSet
  rw [Finset.mem_sort, List.mem_toFinset]

/-- A set is the list of its elements in order. -/
theorem gapSet_eq {v w : List β} (hw : w.Pairwise (· < ·)) (h : ∀ b, b ∈ v ↔ b ∈ w) : gapSet v = w :=
  List.Perm.eq_of_pairwise (fun _ _ _ _ hab hba => absurd hab hba.asymm) (gapSet_sorted v) hw
    ((List.perm_ext_iff_of_nodup (nodup_gapSet v) (hw.imp fun h => h.ne)).2 fun b => mem_gapSet.trans (h b))

end

/-! ## Reading -/

section
variable {β : Type}

theorem gapGet_take (v : List β) {j k : Nat} (hj : 1 ≤ j) (hjk : j ≤ k) : gapGet (v.take k) j = gapGet v j := by
  unfold gapGet
  rw [if_neg (by omega), if_neg (by omega), List.getElem?_take_of_lt (by omega)]

theorem gapGet_nat (v : List β) {i : Nat} (h : i < v.length) : gapGet v ((i : Int) + 1) = .ok v[i] := by
  unfold gapGet
  rw [if_neg (by omega), show ((i : Int) + 1 - 1).toNat = i by omega, List.getElem?_eq_getElem h]

theorem gapGet_past (v : List β) : gapGet v ((v.length : Int) + 1) = .error .unbound := by
  unfold gapGet
  rw [if_neg (by omega), show ((v.length : Int) + 1 - 1).toNat = v.length by omega,
    List.getElem?_eq_none le_rfl]

/-- A loop over `[1..k]` that reads the first `k` entries of a list, or runs past its end. -/
theorem foldlM_gapGet_take {γ : Type} {f : γ → β → Except GapStop γ} {v : List β} (k : Nat) (a : γ) {c : γ}
    (hall : v.foldlM f a = .ok c) : (List.range' 1 k).foldlM (fun a (j : Nat) => do f a (← gapGet v j)) a =
      if k ≤ v.length then (v.take k).foldlM f a else .error .unbound := by
  by_cases hk : k ≤ v.length
  · rw [if_pos hk, ← foldlM_gapGet f (v.take k) a, List.length_take, Nat.min_eq_left hk]
    apply foldlM_congr
    intro a j hj
    rw [List.mem_range'_1] at hj
    rw [gapGet_take v hj.1 (by omega)]
  · obtain ⟨t, rfl⟩ : ∃ t, k = v.length + (t + 1) := ⟨k - v.length - 1, by omega⟩
    have hpast : gapGet v ((1 + v.length : Nat) : Int) = .error .unbound := by
      rw [show ((1 + v.length : Nat) : Int) = (v.length : Int) + 1 by omega, gapGet_past]
    rw [if_neg hk, ← List.range'_append_1, List.foldlM_append, foldlM_gapGet, hall, ok_bind, List.range'_succ,
      List.foldlM_cons, hpast]
    rfl

/-- A loop that collects what it makes of each entry. -/
theorem mapM_gapGet {γ : Type} (f : β → Except GapStop γ) (v : List β) :
    ((List.range' 1 v.length).mapM fun (j : Nat) => do f (← gapGet v j)) = v.mapM f := by
  have hget : (List.range' 1 v.length).map (fun (j : Nat) => gapGet v j) = v.map Except.ok := by
    apply List.ext_getElem
    · rw [List.length_map, List.length_map, List.length_range']
    · intro i h₁ h₂
      have hi : i < v.length := by simpa using h₂
      rw [List.getElem_map, List.getElem_map, List.getElem_range',
        show ((1 + 1 * i : Nat) : Int) = (i : Int) + 1 by omega, gapGet_nat v hi]
  have hbind : (fun (j : Nat) => do f (← gapGet v j)) = (fun x => x >>= f) ∘ fun (j : Nat) => gapGet v j := rfl
  rw [hbind, ← List.mapM_map, hget, List.mapM_map]
  rfl

end

/-! ## Matrix of a design -/

section
variable {β : Type} [LinearOrder β]

/-- Marking the points of a block one by one. -/
theorem foldlM_marks {points : List β} (hnd : points.Nodup) {ys : List β} (hys : ∀ y ∈ ys, y ∈ points) :
    (ys.map (position points)).foldlM (fun row i => gapPut row i 1) (List.replicate points.length (0 : Int)) =
      .ok (marksOf points ys) := by
  have hstep : ∀ done : List β, ∀ y ∈ ys,
      gapPut (marksOf points done) (position points y) 1 = .ok (marksOf points (y :: done)) := by
    intro done y hy
    unfold marksOf
    rw [gapPut_map hnd (hys y hy)]
    congr 2
    funext z
    by_cases hz : z = y
    · rw [hz, Function.update_self, if_pos List.mem_cons_self]
    · rw [Function.update_of_ne hz]
      simp only [List.mem_cons, hz, false_or]
  have hstart : List.replicate points.length (0 : Int) = marksOf points [] := by
    unfold marksOf
    simp
  have hend : marksOf points (ys.foldl (fun done y => y :: done) []) = marksOf points ys := by
    unfold marksOf
    rw [List.foldl_flip_cons_eq_append']
    simp
  rw [List.foldlM_map, hstart, foldlM_conc (marksOf points) _ (fun done y => y :: done) ys [] hstep, hend]

/-- **The matrix of a design**: each block has its first `k` points marked, `k` being the size of the first
block; a block with fewer stops the loop. -/
theorem incidenceMatrix_eq (first : List β) (rest : List (List β)) : incidenceMatrix (first :: rest) =
    (first :: rest).mapM fun block =>
      if first.length ≤ block.length then
        .ok (marksOf (gapSet (first :: rest).flatten) (block.take first.length))
      else .error .unbound := by
  have hpoints : pointsToInterval (first :: rest) =
      (first :: rest).map fun block => block.map (position (gapSet (first :: rest).flatten)) := by
    unfold pointsToInterval
    apply List.map_congr_left
    intro block hblock
    apply List.map_congr_left
    intro y hy
    exact pointNumber_eq (nodup_gapSet _) (mem_gapSet.2 (List.mem_flatten.2 ⟨block, hblock, hy⟩))
  generalize hgap : gapSet (first :: rest).flatten = points at hpoints ⊢
  have hmem : ∀ {y}, y ∈ points ↔ y ∈ (first :: rest).flatten := by
    rw [← hgap]
    exact mem_gapSet
  have hnd : points.Nodup := hgap ▸ nodup_gapSet _
  have hsize : (gapSet ((first :: rest).map fun block => block.map (position points)).flatten).length =
      points.length := by
    have himage : ((first :: rest).map fun block => block.map (position points)).flatten.toFinset =
        points.toFinset.image (position points) := by
      ext i
      rw [← List.map_flatten, List.mem_toFinset, List.mem_map, Finset.mem_image]
      simp only [List.mem_toFinset, hmem]
    rw [length_gapSet, himage, Finset.card_image_of_injOn, List.toFinset_card_of_nodup hnd]
    intro x hx y _ h
    exact (position_inj (List.mem_toFinset.1 hx)).1 h
  unfold incidenceMatrix
  rw [hpoints]
  dsimp only
  rw [hsize, List.map_cons, show gapGet (first.map (position points) :: rest.map _) 1 =
    .ok (first.map (position points)) from rfl, ok_bind, List.length_map, ← List.map_cons, List.mapM_map]
  apply mapM_congr
  intro block hblock
  have hsub : ∀ y ∈ block, y ∈ points := fun y hy => hmem.2 (List.mem_flatten.2 ⟨block, hblock, hy⟩)
  show (List.range' 1 first.length).foldlM _ _ = _
  rw [foldlM_gapGet_take first.length _ (foldlM_marks hnd hsub), List.length_map, ← List.map_take,
    foldlM_marks hnd fun y hy => hsub y (List.mem_of_mem_take hy)]

end

/-! ## Design of a matrix -/

/-- The marks of a row. -/
def marked (row : List Int) : List Int := (interval row.length).filter fun col => row[(col - 1).toNat]? = some 1

theorem mem_marked {row : List Int} {col : Int} :
    col ∈ marked row ↔ ∃ i : Nat, (i : Int) + 1 = col ∧ row[i]? = some 1 := by
  unfold marked
  rw [List.mem_filter, mem_interval, decide_eq_true_eq]
  constructor
  · rintro ⟨hb, h⟩
    exact ⟨(col - 1).toNat, by omega, h⟩
  · rintro ⟨i, rfl, h⟩
    have hi : i < row.length := (List.getElem?_eq_some_iff.1 h).1
    exact ⟨by omega, by rwa [show ((i : Int) + 1 - 1).toNat = i by omega]⟩

theorem marked_sorted (row : List Int) : (marked row).Pairwise (· < ·) := (interval_sorted _).filter _

theorem length_marked (row : List Int) : (marked row).length = row.count 1 := by
  unfold marked interval
  rw [← List.countP_eq_length_filter, List.countP_map, List.count_eq_countP]
  have hrange : row = (List.range' 1 row.length).map fun i => (row[i - 1]?).getD 0 := by
    apply List.ext_getElem
    · rw [List.length_map, List.length_range']
    · intro i h₁ h₂
      rw [List.getElem_map, List.getElem_range', show 1 + 1 * i - 1 = i by omega, List.getElem?_eq_getElem h₁]
      rfl
  conv_rhs => rw [hrange, List.countP_map]
  apply List.countP_congr
  intro i hi
  rw [List.mem_range'_1] at hi
  have hlt : i - 1 < row.length := by omega
  simp only [Function.comp, show ((i : Int) - 1).toNat = i - 1 by omega, List.getElem?_eq_getElem hlt]
  simp

/-- The loop over a row. -/
theorem foldlM_marked (row : List Int) : (List.range' 1 row.length).foldlM (fun (list : List Int) (col : Nat) => do
      if (← gapGet row col) = 1 then return list ++ [(col : Int)] else return list) [] =
    (.ok (marked row) : Except GapStop _) := by
  have hstep : ∀ list : List Int, ∀ col ∈ List.range' 1 row.length, (do
      if (← gapGet row (col : Nat)) = 1 then return list ++ [(col : Int)] else return list : Except GapStop _) =
      .ok (if row[col - 1]? = some 1 then list ++ [(col : Int)] else list) := by
    intro list col hcol
    rw [List.mem_range'_1] at hcol
    obtain ⟨i, rfl⟩ : ∃ i, col = i + 1 := ⟨col - 1, by omega⟩
    have hi : i < row.length := by omega
    rw [show ((i + 1 : Nat) : Int) = (i : Int) + 1 by omega, gapGet_nat row hi, ok_bind, Nat.add_sub_cancel,
      List.getElem?_eq_getElem hi]
    by_cases h : row[i] = 1
    · simp only [h, if_true]
      rfl
    · simp only [h, if_false, Option.some.injEq]
      rfl
  have hfilter : ∀ (l : List Nat) (list : List Int),
      l.foldl (fun list (col : Nat) => if row[col - 1]? = some 1 then list ++ [(col : Int)] else list) list =
        list ++ (l.map fun (col : Nat) => (col : Int)).filter fun col => row[(col - 1).toNat]? = some 1 := by
    intro l
    induction l with
    | nil =>
      intro list
      exact (List.append_nil list).symm
    | cons col l ih =>
      intro list
      have hcol : ((col : Int) - 1).toNat = col - 1 := by omega
      rw [List.foldl_cons, ih, List.map_cons, List.filter_cons, hcol]
      by_cases h : row[col - 1]? = some 1
      · simp [h]
      · simp [h]
  exact (foldlM_congr hstep []).trans (List.foldlM_pure.trans (congrArg Except.ok (hfilter _ [])))

/-- **The design of a square matrix**: the marks of each row. -/
theorem incidenceMatToDesign_eq {mat : List (List Int)} (hsquare : ∀ row ∈ mat, row.length = mat.length) :
    incidenceMatToDesign mat = .ok (mat.map marked) := by
  have hrow : ∀ row ∈ mat, (do
      let list ← (List.range' 1 mat.length).foldlM (fun (list : List Int) (col : Nat) => do
        if (← gapGet row col) = 1 then return list ++ [(col : Int)] else return list) []
      return list.insertionSort (· ≤ ·)) = (.ok (marked row) : Except GapStop _) := by
    intro row hmem
    rw [← hsquare row hmem, foldlM_marked, ok_bind]
    exact congrArg Except.ok ((marked_sorted row).imp fun h => h.le).insertionSort_eq
  have hread : incidenceMatToDesign mat = (List.range' 1 mat.length).mapM fun (i : Nat) => do
      let row ← gapGet mat i
      let list ← (List.range' 1 mat.length).foldlM (fun (list : List Int) (col : Nat) => do
        if (← gapGet row col) = 1 then return list ++ [(col : Int)] else return list) []
      return list.insertionSort (· ≤ ·) := by
    unfold incidenceMatToDesign
    apply mapM_congr
    intro i hi
    rw [List.mem_range'_1] at hi
    obtain ⟨j, rfl⟩ : ∃ j, i = j + 1 := ⟨i - 1, by omega⟩
    rw [show ((j + 1 : Nat) : Int) = (j : Int) + 1 by omega, gapGet_nat mat (by omega)]
    rfl
  rw [hread, mapM_gapGet]
  exact mapM_ok hrow

/-! ## Round trips -/

section
variable {β : Type} [LinearOrder β]

/-- **From a design to its matrix and back.**  With as many blocks as points, all blocks of one size and without
repeats, the blocks come back, their points numbered and sorted. -/
theorem design_roundTrip {design : List (List β)} (hne : design ≠ []) {k : Nat}
    (hlen : ∀ block ∈ design, block.length = k) (hsquare : (gapSet design.flatten).length = design.length) :
    (incidenceMatrix design >>= incidenceMatToDesign) =
      .ok ((pointsToInterval design).map fun block => gapSet block) := by
  obtain ⟨first, rest, rfl⟩ := List.exists_cons_of_ne_nil hne
  generalize hgap : gapSet (first :: rest).flatten = points at hsquare
  have hfirst : first.length = k := hlen first List.mem_cons_self
  have hmat : incidenceMatrix (first :: rest) = .ok ((first :: rest).map (marksOf points)) := by
    rw [incidenceMatrix_eq]
    apply mapM_ok
    intro block hblock
    rw [if_pos (hfirst.trans (hlen block hblock).symm).le, hfirst, ← hlen block hblock, List.take_length, hgap]
  have hrows : ∀ row ∈ (first :: rest).map (marksOf points), row.length = ((first :: rest).map (marksOf points)).length := by
    intro row hrow
    obtain ⟨block, -, rfl⟩ := List.mem_map.1 hrow
    unfold marksOf
    rw [List.length_map, List.length_map, hsquare]
  rw [hmat, ok_bind, incidenceMatToDesign_eq hrows]
  unfold pointsToInterval
  rw [List.map_map, List.map_map]
  congr 1
  apply List.map_congr_left
  intro block hblock
  have hsub : ∀ y ∈ block, y ∈ points := fun y hy => by
    rw [← hgap]
    exact mem_gapSet.2 (List.mem_flatten.2 ⟨block, hblock, hy⟩)
  have hnd : points.Nodup := hgap ▸ nodup_gapSet _
  refine (gapSet_eq (marked_sorted _) fun col => ?_).symm
  -- a column is marked when the point of that number is in the block
  dsimp only
  rw [hgap, mem_marked, List.mem_map]
  unfold marksOf
  constructor
  · rintro ⟨y, hy, rfl⟩
    have hlt := List.idxOf_lt_length_of_mem (hsub y hy)
    refine ⟨points.idxOf y, (pointNumber_eq hnd (hsub y hy)).symm, ?_⟩
    rw [List.getElem?_map, List.getElem?_eq_getElem hlt, List.getElem_idxOf, Option.map_some, if_pos hy]
  · rintro ⟨i, rfl, hi⟩
    rw [List.getElem?_map, Option.map_eq_some_iff] at hi
    obtain ⟨y, hy, hone⟩ := hi
    obtain ⟨hlt, rfl⟩ := List.getElem?_eq_some_iff.1 hy
    have hmem : points[i] ∈ block := by
      by_contra hno
      rw [if_neg hno] at hone
      cases hone
    refine ⟨points[i], hmem, ?_⟩
    rw [pointNumber_eq hnd (hsub _ hmem)]
    unfold position
    rw [hnd.idxOf_getElem i hlt]

/-- The edges of a triangle. -/
theorem design_roundTrip_triangle : (incidenceMatrix [[10, 30], [30, 20], [20, 10]] >>= incidenceMatToDesign) =
    .ok ((pointsToInterval [[10, 30], [30, 20], [20, 10]]).map fun block => gapSet block) :=
  design_roundTrip (by decide : ([[10, 30], [30, 20], [20, 10]] : List (List Nat)) ≠ []) (k := 2) (by decide)
    (by rw [length_gapSet]; decide)

end

/-- A row has as many ones as its block has points. -/
theorem count_marksOf {β : Type} [DecidableEq β] {points ys : List β} (hnd : points.Nodup) (hys : ys.Nodup)
    (hsub : ∀ y ∈ ys, y ∈ points) : (marksOf points ys).count 1 = ys.length := by
  have hperm : (points.filter fun y => decide (y ∈ ys)).Perm ys := by
    rw [List.perm_ext_iff_of_nodup (hnd.filter _) hys]
    intro y
    rw [List.mem_filter, decide_eq_true_eq]
    exact ⟨fun h => h.2, fun h => ⟨hsub y h, h⟩⟩
  unfold marksOf
  rw [← hperm.length_eq, List.count_eq_countP, List.countP_map, List.countP_eq_length_filter]
  congr 1
  apply List.filter_congr
  intro y _
  by_cases h : y ∈ ys
  · simp [h]
  · simp [h]

theorem marksOf_interval {row : List Int} (h : ∀ x ∈ row, x = 0 ∨ x = 1) :
    marksOf (interval row.length) (marked row) = row := by
  unfold marksOf
  apply List.ext_getElem
  · rw [List.length_map, length_interval]
  · intro i h₁ h₂
    have hiff : ((1 + 1 * i : Nat) : Int) ∈ marked row ↔ row[i] = 1 := by
      rw [mem_marked]
      constructor
      · rintro ⟨j, hj, hone⟩
        obtain rfl : j = i := by omega
        exact (List.getElem?_eq_some_iff.1 hone).2
      · intro hone
        exact ⟨i, by omega, by rw [List.getElem?_eq_getElem h₂, hone]⟩
    simp only [interval, List.getElem_map, List.getElem_range', hiff]
    rcases h row[i] (List.getElem_mem h₂) with h0 | h1
    · rw [h0]
      rfl
    · rw [h1]
      rfl

/-- The columns with a one. -/
def columns (mat : List (List Int)) : List Int := gapSet (mat.map marked).flatten

theorem mem_columns {mat : List (List Int)} {col : Int} : col ∈ columns mat ↔ ∃ row ∈ mat, col ∈ marked row := by
  unfold columns
  rw [mem_gapSet, List.mem_flatten]
  simp only [List.mem_map, exists_exists_and_eq_and]

section
variable {mat : List (List Int)} (hsquare : ∀ row ∈ mat, row.length = mat.length)

include hsquare

theorem columns_subset : ∀ col ∈ columns mat, col ∈ interval mat.length := by
  intro col hcol
  obtain ⟨row, hrow, hcol⟩ := mem_columns.1 hcol
  obtain ⟨i, rfl, hi⟩ := mem_marked.1 hcol
  have hlt := (List.getElem?_eq_some_iff.1 hi).1
  rw [hsquare row hrow] at hlt
  exact mem_interval.2 (by omega)

theorem columns_eq_iff : columns mat = interval mat.length ↔ ∀ c < mat.length, ∃ row ∈ mat, row[c]? = some 1 := by
  constructor
  · intro h c hc
    have hcol : (c : Int) + 1 ∈ columns mat := h ▸ mem_interval.2 (by omega)
    obtain ⟨row, hrow, hcol⟩ := mem_columns.1 hcol
    obtain ⟨i, hi, hone⟩ := mem_marked.1 hcol
    obtain rfl : i = c := by omega
    exact ⟨row, hrow, hone⟩
  · intro h
    refine gapSet_eq (interval_sorted _) fun col => ⟨fun hcol => ?_, fun hcol => ?_⟩
    · exact columns_subset hsquare col (mem_gapSet.2 hcol)
    · obtain ⟨h1, hv⟩ := mem_interval.1 hcol
      obtain ⟨row, hrow, hone⟩ := h (col - 1).toNat (by omega)
      exact mem_gapSet.1 (mem_columns.2 ⟨row, hrow, mem_marked.2 ⟨_, by omega, hone⟩⟩)

/-- No column is zero when there are as many columns as rows. -/
theorem columns_eq (h : (columns mat).length = mat.length) : columns mat = interval mat.length := by
  have hsub : (columns mat).Subperm (interval mat.length) :=
    List.subperm_of_subset (nodup_gapSet _) (columns_subset hsquare)
  have hperm := hsub.perm_of_length_le (by rw [length_interval, h])
  exact hperm.eq_of_pairwise (fun _ _ _ _ hab hba => absurd hab hba.asymm) (gapSet_sorted _) (interval_sorted _)

end

/-- The matrix that comes back. -/
theorem incidenceMatrix_marked {first : List Int} {mat : List (List Int)} (hhead : mat.head? = some first) :
    incidenceMatrix (mat.map marked) = .ok mat ↔ ∀ row ∈ mat, first.count 1 ≤ row.count 1 ∧
      marksOf (columns mat) ((marked row).take (first.count 1)) = row := by
  obtain ⟨rest, hmat⟩ := List.head?_eq_some_iff.1 hhead
  have hrun : incidenceMatrix (mat.map marked) = mat.mapM fun row =>
      if first.count 1 ≤ row.count 1 then
        .ok (marksOf (columns mat) ((marked row).take (first.count 1))) else .error .unbound := by
    unfold columns
    rw [hmat, List.map_cons, incidenceMatrix_eq, ← List.map_cons, List.mapM_map]
    apply mapM_congr
    intro row _
    show (if (marked first).length ≤ (marked row).length then _ else _) = _
    rw [length_marked, length_marked]
  have hself : mat = mat.map id := (List.map_id mat).symm
  rw [hrun]
  conv_lhs => rhs; rw [hself]
  rw [mapM_eq_ok_iff]
  refine forall₂_congr fun row _ => ?_
  by_cases hle : first.count 1 ≤ row.count 1
  · rw [if_pos hle]
    simp [hle]
  · rw [if_neg hle]
    simp [hle]

/-- **From a matrix to its design and back.**  The matrix comes back exactly when its entries are `0` and `1`,
its rows have equally many ones, and no column is zero. -/
theorem matrix_roundTrip {mat : List (List Int)} (hsquare : ∀ row ∈ mat, row.length = mat.length) :
    (incidenceMatToDesign mat >>= incidenceMatrix) = .ok mat ↔
      mat ≠ [] ∧ (∀ row ∈ mat, ∀ x ∈ row, x = 0 ∨ x = 1) ∧ (∃ k, ∀ row ∈ mat, row.count 1 = k) ∧
        ∀ c < mat.length, ∃ row ∈ mat, row[c]? = some 1 := by
  rw [incidenceMatToDesign_eq hsquare, ok_bind, ← columns_eq_iff hsquare]
  cases hhead : mat.head? with
  | none =>
    obtain rfl := List.head?_eq_none_iff.1 hhead
    constructor
    · intro h
      cases h
    · intro h
      exact absurd rfl h.1
  | some first =>
    have hfirst : first ∈ mat := List.mem_of_head? hhead
    rw [incidenceMatrix_marked hhead]
    constructor
    · intro hrows
      have hcount : ∀ row ∈ mat, row.count 1 = first.count 1 := by
        intro row hrow
        obtain ⟨hle, heq⟩ := hrows row hrow
        have hsub : ∀ col ∈ (marked row).take (first.count 1), col ∈ columns mat := fun col hcol =>
          mem_columns.2 ⟨row, hrow, List.mem_of_mem_take hcol⟩
        have hnd : ((marked row).take (first.count 1)).Nodup :=
          ((marked_sorted row).imp fun h => h.ne).sublist (List.take_sublist _ _)
        have hones := count_marksOf (nodup_gapSet _) hnd hsub
        unfold columns at heq
        rw [heq, List.length_take, length_marked, Nat.min_eq_left hle] at hones
        exact hones
      refine ⟨List.ne_nil_of_mem hfirst, ?_, ⟨first.count 1, hcount⟩, ?_⟩
      · intro row hrow x hx
        rw [← (hrows row hrow).2] at hx
        obtain ⟨col, -, rfl⟩ := List.mem_map.1 hx
        by_cases h : col ∈ (marked row).take (first.count 1)
        · exact .inr (if_pos h)
        · exact .inl (if_neg h)
      · have hlen := congrArg List.length (hrows first hfirst).2
        unfold marksOf at hlen
        rw [List.length_map, hsquare first hfirst] at hlen
        exact columns_eq hsquare hlen
    · rintro ⟨-, hentries, ⟨k, hcount⟩, hcols⟩ row hrow
      rw [hcount first hfirst, hcount row hrow]
      refine ⟨le_rfl, ?_⟩
      rw [hcols, ← hcount row hrow, ← length_marked, List.take_length, ← hsquare row hrow]
      exact marksOf_interval (hentries row hrow)

/-- The triangle again. -/
theorem matrix_roundTrip_triangle :
    (incidenceMatToDesign [[1, 0, 1], [0, 1, 1], [1, 1, 0]] >>= incidenceMatrix) =
      .ok [[1, 0, 1], [0, 1, 1], [1, 1, 0]] :=
  (matrix_roundTrip (by decide)).2 ⟨by decide, by decide, ⟨2, by decide⟩, by decide⟩

end PdsSearch
