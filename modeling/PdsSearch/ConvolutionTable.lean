import PdsSearch.AlternateCheck

/-!
# From a group to its table file and back (`1ConvolutionTable.txt`, `gen_conv_table.g`)

`ConvolutionTable_f` fills the table of a group product by product, into lists
with holes; the generators print it, counted from one; both loaders read it,
counted from zero.  For a list `e` of the elements of a group, each once and the
identity first, the table both get is the multiplication table

    cayley e = e.map fun x => e.map fun y => index of x * y in e

    generate e.length gid e = .ok (writeTable e.length gid (oneBased (cayley e)))   (generate_ok)
    IsTableOf e (cayley e)                                                  (cayley_isTableOf)

The loader of `searchMany.cpp` reads the two numbers of the header into `int`s.
-/

namespace PdsSearch

open Checked Text MachineInt

/-! ## Algorithm -/

section
variable {β : Type}

/-- `v[i]`, in a list that may have holes -/
def holeGet (v : List (Option β)) (i : Int) : Except GapStop β := do
  match ← gapGet v i with
  | some b => return b
  | none => .error .unbound

/-- `v[i] := b`; behind the end of the list this leaves holes. -/
def holePut (v : List (Option β)) (i : Int) (b : β) : Except GapStop (List (Option β)) :=
  if i < 1 then .error .unbound
  else if i ≤ v.length then .ok (v.set (i - 1).toNat (some b))
  else .ok (v ++ List.replicate ((i - 1).toNat - v.length) none ++ [some b])

end

section
variable {G : Type} [Group G] [Fintype G] [DecidableEq G]

/-- `CL[i1][i2] := i0` -/
def assign (CL : List (Option (List (Option Int)))) (i1 i2 i0 : Int) :
    Except GapStop (List (Option (List (Option Int)))) := do
  holePut CL i1 (← holePut (← holeGet CL i1) i2 i0)

/-- `ConvolutionTable_f` -/
def convolutionTableF (elements : List G) (func : G → G) :
    Except GapStop (List (Option (List (Option Int)))) := do
  let order := Fintype.card G
  let CL ← (List.range' 1 order).foldlM (fun CL (i0 : Nat) => holePut CL i0 []) []
  (List.range' 1 order).foldlM (fun CL (i0 : Nat) =>
    (List.range' 1 order).foldlM (fun CL (i1 : Nat) =>
      (List.range' 1 order).foldlM (fun CL (i2 : Nat) => do
        if (← gapGet elements i1) * func (← gapGet elements i2) = (← gapGet elements i0) then
          assign CL i1 i2 i0
        else return CL) CL) CL) CL

/-- `MT[i][j]` -/
def entry (MT : List (Option (List (Option Int)))) (i j : Int) : Except GapStop Int := do
  holeGet (← holeGet MT i) j

/-- What the print loops read. -/
def entries (n : Nat) (MT : List (Option (List (Option Int)))) : Except GapStop (List (List Int)) :=
  (List.range' 1 n).mapM fun (i : Nat) => (List.range' 1 n).mapM fun (j : Nat) => entry MT i j

/-- The file a generator writes for the group number `gid` of order `n`. -/
def generate (n : Nat) (gid : Int) (e : List G) : Except GapStop Str := do
  let MT ← convolutionTableF e fun x => x
  return writeTable n gid (← entries n MT)

/-- The multiplication table of the numbering `e`, counted from zero. -/
def cayley (e : List G) : List (List Int) := e.map fun x => e.map fun y => (e.idxOf (x * y) : Int)

end

/-! ## Lists with holes -/

section
variable {β : Type}

/-- A read gives the entry at its place; behind the end it is as at a hole. -/
theorem holeGet_eq (v : List (Option β)) {a : Int} (ha : 1 ≤ a) :
    holeGet v a = match v[(a - 1).toNat]?.join with
      | some b => .ok b
      | none => .error .unbound := by
  unfold holeGet gapGet
  rw [if_neg (by omega)]
  cases v[(a - 1).toNat]? with
  | none => rfl
  | some c => cases c <;> rfl

theorem holeGet_low (v : List (Option β)) {a : Int} (ha : a < 1) : holeGet v a = .error .unbound := by
  unfold holeGet gapGet
  rw [if_pos ha]
  rfl

/-- The entries after an assignment, inside of the list or behind its end. -/
theorem holePut_entries (v : List (Option β)) {i : Int} (hi : 1 ≤ i) (b : β) :
    ∃ v', holePut v i b = .ok v' ∧
      ∀ j, v'[j]?.join = if j = (i - 1).toNat then some b else v[j]?.join := by
  unfold holePut
  rw [if_neg (by omega)]
  by_cases hlen : i ≤ v.length
  · rw [if_pos hlen]
    refine ⟨_, rfl, fun j => ?_⟩
    rw [List.getElem?_set]
    by_cases hj : (i - 1).toNat = j
    · rw [if_pos hj, if_pos (by omega), if_pos hj.symm]
      rfl
    · rw [if_neg hj, if_neg fun h => hj h.symm]
  · rw [if_neg hlen]
    refine ⟨_, rfl, fun j => ?_⟩
    rw [List.append_assoc]
    by_cases hold : j < v.length
    · rw [List.getElem?_append_left hold, if_neg (by omega)]
    · -- a hole, the new entry, or behind it
      rw [List.getElem?_append_right (by omega), List.getElem?_eq_none (l := v) (by omega)]
      by_cases hj : j = (i - 1).toNat
      · rw [if_pos hj, List.getElem?_append_right (by simp; omega), List.length_replicate, hj,
          Nat.sub_self]
        rfl
      · rw [if_neg hj]
        by_cases hlt : j < (i - 1).toNat
        · rw [List.getElem?_append_left (by simp; omega), List.getElem?_replicate, if_pos (by omega)]
          rfl
        · rw [List.getElem?_eq_none (by simp; omega)]

/-- **An assignment changes one place.** -/
theorem holePut_ok (v : List (Option β)) {i : Int} (hi : 1 ≤ i) (b : β) : ∃ v', holePut v i b = .ok v' ∧
    ∀ a, holeGet v' a = if a = i then .ok b else holeGet v a := by
  obtain ⟨v', hv', hentries⟩ := holePut_entries v hi b
  refine ⟨v', hv', fun a => ?_⟩
  by_cases ha : a < 1
  · rw [holeGet_low _ ha, holeGet_low _ ha, if_neg (by omega)]
  · rw [holeGet_eq _ (by omega), holeGet_eq _ (by omega), hentries]
    by_cases hai : a = i
    · rw [if_pos (by rw [hai]), if_pos hai]
    · rw [if_neg (by omega), if_neg hai]

end

/-! ## The loops -/

section
variable {G : Type} [DecidableEq G] {e : List G}

theorem map_idxOf (hnd : e.Nodup) : e.map (fun x => e.idxOf x) = List.range e.length := by
  apply List.ext_getElem
  · simp
  · intro i h1 h2
    rw [List.getElem_map, List.getElem_range, hnd.idxOf_getElem]

/-- `[1..n]` are the positions of the elements. -/
theorem range_eq_positions (hnd : e.Nodup) : List.range' 1 e.length = e.map fun x => e.idxOf x + 1 := by
  rw [List.range'_eq_map_range, ← map_idxOf hnd, List.map_map]
  exact List.map_congr_left fun x _ => Nat.add_comm 1 _

/-- A loop over `[1..n]` visits the elements. -/
theorem foldlM_positions {σ ε : Type} (hnd : e.Nodup) {f : σ → Nat → Except ε σ} {g : σ → G → Except ε σ}
    (h : ∀ s x, f s (e.idxOf x + 1) = g s x) (s : σ) :
    (List.range' 1 e.length).foldlM f s = e.foldlM g s := by
  rw [range_eq_positions hnd, List.foldlM_map]
  exact congrArg (fun f => e.foldlM f s) (funext fun s => funext (h s))

theorem mapM_positions {β ε : Type} (hnd : e.Nodup) {f : Nat → Except ε β} {g : G → Except ε β}
    (h : ∀ x, f (e.idxOf x + 1) = g x) : (List.range' 1 e.length).mapM f = e.mapM g := by
  rw [range_eq_positions hnd, List.mapM_map]
  exact congrArg (fun f => e.mapM f) (funext h)

/-- The rows of all elements have been created. -/
def HasRows (e : List G) (CL : List (Option (List (Option Int)))) : Prop :=
  ∀ x, ∃ row, holeGet CL (position e x) = .ok row

/-- **The first loop** creates the rows. -/
theorem rows_created (hall : ∀ x, x ∈ e) : ∃ CL,
    e.foldlM (fun CL x => holePut CL (position e x) ([] : List (Option Int))) [] = .ok CL ∧
      HasRows e CL := by
  have hstep : ∀ (CL : List (Option (List (Option Int)))), ∀ x ∈ e, True → ∃ CL',
      holePut CL (position e x) [] = .ok CL' ∧ True ∧ ∀ a : G,
        ((∃ row, holeGet CL (position e a) = .ok row) → ∃ row, holeGet CL' (position e a) = .ok row) ∧
          (x = a → ∃ row, holeGet CL' (position e a) = .ok row) := by
    intro CL x hx _
    obtain ⟨CL', hCL', hnew⟩ := holePut_ok CL (position_bounds hx).1 []
    refine ⟨CL', hCL', trivial, fun a => ⟨?_, ?_⟩⟩
    · rintro ⟨row, hrow⟩
      rw [hnew]
      by_cases h : position e a = position e x
      · exact ⟨[], if_pos h⟩
      · exact ⟨row, (if_neg h).trans hrow⟩
    · rintro rfl
      exact ⟨[], (hnew _).trans (if_pos rfl)⟩
  obtain ⟨CL, hrun, -, hCL⟩ := foldlM_reach _ _ _ e hstep [] trivial
  exact ⟨CL, hrun, fun a => (hCL a).2 ⟨a, hall a, rfl⟩⟩

/-- **Writing one product.** -/
theorem assign_ok {CL : List (Option (List (Option Int)))} (hCL : HasRows e CL) {x y : G} (hx : x ∈ e)
    (hy : y ∈ e) (i0 : Int) : ∃ CL', assign CL (position e x) (position e y) i0 = .ok CL' ∧
    HasRows e CL' ∧ ∀ a ∈ e, ∀ b ∈ e, entry CL' (position e a) (position e b) =
      if a = x ∧ b = y then .ok i0 else entry CL (position e a) (position e b) := by
  obtain ⟨row, hrow⟩ := hCL x
  obtain ⟨row', hrow', hnewRow⟩ := holePut_ok row (position_bounds hy).1 i0
  obtain ⟨CL', hCL', hnew⟩ := holePut_ok CL (position_bounds hx).1 row'
  refine ⟨CL', ?_, ?_, ?_⟩
  · unfold assign
    rw [hrow, ok_bind, hrow', ok_bind, hCL']
  · intro a
    rw [hnew]
    by_cases h : position e a = position e x
    · exact ⟨row', if_pos h⟩
    · rw [if_neg h]
      exact hCL a
  · intro a ha b hb
    unfold entry
    rw [hnew]
    by_cases hax : a = x
    · subst hax
      rw [if_pos rfl, ok_bind, hnewRow, hrow, ok_bind]
      by_cases hby : b = y
      · rw [if_pos (congrArg _ hby), if_pos ⟨rfl, hby⟩]
      · rw [if_neg fun h => hby ((position_inj hb).1 h), if_neg fun h => hby h.2]
    · rw [if_neg fun h => hax ((position_inj ha).1 h), if_neg fun h => hax h.1]

theorem length_eq_card [Fintype G] (hnd : e.Nodup) (hall : ∀ x, x ∈ e) : e.length = Fintype.card G := by
  rw [← List.toFinset_card_of_nodup hnd, Finset.eq_univ_iff_forall.2 fun x => List.mem_toFinset.2 (hall x),
    Finset.card_univ]

variable [Group G] [Fintype G]

/-- **The table of all products.** -/
theorem convolutionTableF_ok (hnd : e.Nodup) (hall : ∀ x, x ∈ e) (func : G → G) : ∃ CL,
    convolutionTableF e func = .ok CL ∧
      ∀ a b, entry CL (position e a) (position e b) = .ok (position e (a * func b)) := by
  -- a round puts the product of `x` and `func y` in place, if that is `z`
  have hround : ∀ (z x : G) CL, ∀ y ∈ e, HasRows e CL → ∃ CL', (do
      if (← gapGet e (position e x)) * func (← gapGet e (position e y)) = (← gapGet e (position e z)) then
        assign CL (position e x) (position e y) (position e z)
      else return CL) = .ok CL' ∧ HasRows e CL' ∧ ∀ ab : G × G,
        (entry CL (position e ab.1) (position e ab.2) = .ok (position e (ab.1 * func ab.2)) →
          entry CL' (position e ab.1) (position e ab.2) = .ok (position e (ab.1 * func ab.2))) ∧
        ((x = ab.1 ∧ y = ab.2 ∧ z = ab.1 * func ab.2) →
          entry CL' (position e ab.1) (position e ab.2) = .ok (position e (ab.1 * func ab.2))) := by
    intro z x CL y hy hCL
    rw [gapGet_position (hall x), gapGet_position hy, gapGet_position (hall z), ok_bind, ok_bind, ok_bind]
    by_cases hz : x * func y = z
    · obtain ⟨CL', hCL', hrows, hnew⟩ := assign_ok hCL (hall x) hy (position e z)
      refine ⟨CL', (if_pos hz).trans hCL', hrows, fun ab => ⟨fun hold => ?_, ?_⟩⟩
      · rw [hnew _ (hall ab.1) _ (hall ab.2)]
        split
        · next h => rw [← hz, h.1, h.2]
        · exact hold
      · rintro ⟨rfl, rfl, rfl⟩
        rw [hnew _ (hall _) _ (hall _), if_pos ⟨rfl, rfl⟩]
    · refine ⟨CL, if_neg hz, hCL, fun ab => ⟨id, ?_⟩⟩
      rintro ⟨rfl, rfl, hz'⟩
      exact absurd hz'.symm hz
  obtain ⟨CL₀, hrun₀, hCL₀⟩ := rows_created hall
  obtain ⟨CL, hrun, -, hCL⟩ := foldlM_reach _ _ _ e (fun CL₁ z _ hCL₁ =>
    foldlM_reach _ _ _ e (fun CL₂ x _ hCL₂ =>
      foldlM_reach _ _ _ e (hround z x) CL₂ hCL₂) CL₁ hCL₁) CL₀ hCL₀
  refine ⟨CL, ?_, fun a b => (hCL (a, b)).2 ⟨a * func b, hall _, a, hall a, b, hall b, rfl, rfl, rfl⟩⟩
  unfold convolutionTableF
  rw [← length_eq_card hnd hall]
  have hfirst : (List.range' 1 e.length).foldlM (fun CL (i0 : Nat) => holePut CL i0 []) [] = .ok CL₀ :=
    (foldlM_positions hnd (fun _ _ => rfl) []).trans hrun₀
  dsimp only
  rw [hfirst, ok_bind]
  exact (foldlM_positions hnd (fun CL₁ z => foldlM_positions hnd (fun CL₂ x =>
    foldlM_positions hnd (fun CL₃ y => rfl) CL₂) CL₁) CL₀).trans hrun

/-! ## The multiplication table -/

/-- `ct` is the multiplication table of the group whose elements are numbered by `e`. -/
structure IsTableOf (e : List G) (ct : List (List Int)) : Prop where
  rows : ct.length = e.length
  cols : ∀ row ∈ ct, row.length = e.length
  entries : ∀ row ∈ ct, ∀ x ∈ row, 0 ≤ x ∧ x < e.length
  mul : ∀ i j : Nat, i < e.length → j < e.length → ∃ c x y, cell ct i j = .ok c ∧
    gapGet e (i + 1) = .ok x ∧ gapGet e (j + 1) = .ok y ∧ gapGet e (c + 1) = .ok (x * y)
  one_mul : ∀ x : Nat, x < e.length → cell ct 0 x = .ok x
  mul_one : ∀ x : Nat, x < e.length → cell ct x 0 = .ok x
  row_perm : ∀ row ∈ ct, row.Perm ((List.range e.length).map fun (i : Nat) => (i : Int))
  col_perm : ∀ j : Nat, j < e.length → ∃ col, (ct.mapM fun row => vget row j) = .ok col ∧
    col.Perm ((List.range e.length).map fun (i : Nat) => (i : Int))

omit [Fintype G] in
theorem cell_cayley (hall : ∀ x, x ∈ e) (x y : G) :
    cell (cayley e) (e.idxOf x : Int) (e.idxOf y : Int) = .ok (e.idxOf (x * y) : Int) := by
  have hx : e.idxOf x < e.length := List.idxOf_lt_length_of_mem (hall x)
  have hy : e.idxOf y < e.length := List.idxOf_lt_length_of_mem (hall y)
  unfold cell cayley
  rw [vget_nat _ _ (by rwa [List.length_map]), ok_bind, List.getElem_map,
    vget_nat _ _ (by rwa [List.length_map]), List.getElem_map, List.getElem_idxOf, List.getElem_idxOf]

omit [Fintype G] [Group G] in
/-- The numbers of `f x`, for all `x`. -/
theorem idxOf_perm (hnd : e.Nodup) (hall : ∀ x, x ∈ e) {f : G → G} (hf : Function.Injective f)
    (hsurj : Function.Surjective f) : (e.map fun x => (e.idxOf (f x) : Int)).Perm
      ((List.range e.length).map fun (i : Nat) => (i : Int)) := by
  have hperm : (e.map f).Perm e := by
    rw [List.perm_ext_iff_of_nodup (hnd.map hf) hnd]
    intro y
    obtain ⟨x, rfl⟩ := hsurj y
    exact ⟨fun _ => hall _, fun _ => List.mem_map.2 ⟨x, hall x, rfl⟩⟩
  have hmap := hperm.map fun y => (e.idxOf y : Int)
  rw [List.map_map] at hmap
  rw [← map_idxOf hnd, List.map_map]
  exact hmap

omit [Fintype G] in
theorem cayley_isTableOf (hnd : e.Nodup) (hall : ∀ x, x ∈ e) (hone : e.head? = some 1) :
    IsTableOf e (cayley e) := by
  -- every index is the number of an element, zero that of the identity
  have hidx : ∀ i, i < e.length → ∃ x, e.idxOf x = i := fun i hi => ⟨e[i], hnd.idxOf_getElem i hi⟩
  have hzero : e.idxOf (1 : G) = 0 := by
    obtain ⟨l, hl⟩ := List.head?_eq_some_iff.1 hone
    rw [hl, List.idxOf_cons_self]
  have hget : ∀ x, gapGet e (e.idxOf x + 1) = .ok x := fun x => gapGet_position (hall x)
  constructor
  case rows => exact List.length_map _
  case cols =>
    intro row hrow
    obtain ⟨x, -, rfl⟩ := List.mem_map.1 hrow
    exact List.length_map _
  case entries =>
    intro row hrow c hc
    obtain ⟨x, -, rfl⟩ := List.mem_map.1 hrow
    obtain ⟨y, -, rfl⟩ := List.mem_map.1 hc
    have hlt : e.idxOf (x * y) < e.length := List.idxOf_lt_length_of_mem (hall _)
    omega
  case mul =>
    intro i j hi hj
    obtain ⟨x, rfl⟩ := hidx i hi
    obtain ⟨y, rfl⟩ := hidx j hj
    exact ⟨_, x, y, cell_cayley hall x y, hget x, hget y, hget (x * y)⟩
  case one_mul =>
    intro i hi
    obtain ⟨x, rfl⟩ := hidx i hi
    have h := cell_cayley hall 1 x
    rwa [hzero, one_mul] at h
  case mul_one =>
    intro i hi
    obtain ⟨x, rfl⟩ := hidx i hi
    have h := cell_cayley hall x 1
    rwa [hzero, mul_one] at h
  case row_perm =>
    intro row hrow
    obtain ⟨x, -, rfl⟩ := List.mem_map.1 hrow
    exact idxOf_perm hnd hall (mul_right_injective x) (Group.mulLeft_bijective x).2
  case col_perm =>
    intro j hj
    obtain ⟨y, rfl⟩ := hidx j hj
    refine ⟨e.map fun x => (e.idxOf (x * y) : Int), ?_,
      idxOf_perm hnd hall (mul_left_injective y) (Group.mulRight_bijective y).2⟩
    unfold cayley
    rw [List.mapM_map]
    apply mapM_ok
    intro x _
    show vget (e.map fun y => (e.idxOf (x * y) : Int)) (e.idxOf y : Int) = _
    rw [vget_nat _ _ (by rw [List.length_map]; exact hj), List.getElem_map, List.getElem_idxOf]

omit [Fintype G] in
/-- **The multiplication table is a group table**, of the same group up to the numbering. -/
theorem exists_groupTable (hnd : e.Nodup) (hall : ∀ x, x ∈ e) (hone : e.head? = some 1) :
    ∃ (T : GroupTable e.length) (φ : T.Elem ≃* G), T.ct = cayley e ∧ ∀ a, T.idx a = e.idxOf (φ a) := by
  have hct := cayley_isTableOf hnd hall hone
  let T : Table e.length := ⟨cayley e, hct.rows, hct.cols, hct.entries⟩
  let φ : T.Elem ≃ G := hnd.getEquivOfForallMemList e hall
  have hidx : ∀ a : T.Elem, T.idx a = e.idxOf (φ a) := fun a =>
    congrArg (fun i : Nat => (i : Int)) (hnd.idxOf_getElem a.val a.isLt).symm
  have hmul : ∀ a b : T.Elem, φ (a * b) = φ a * φ b := by
    intro a b
    have h := T.cell_mul a b
    rw [hidx, hidx, cell_cayley hall, hidx, Except.ok.injEq, Int.natCast_inj] at h
    exact ((List.idxOf_inj (hall _)).1 h).symm
  have hpos : 0 < e.length := List.length_pos_of_mem (hall 1)
  have hφone : φ (⟨0, hpos⟩ : Fin e.length) = 1 := by
    obtain ⟨l, hl⟩ := List.head?_eq_some_iff.1 hone
    show e[0] = 1
    simp only [hl, List.getElem_cons_zero]
  -- the laws of the group hold of the numbers
  have hassoc : ∀ a b c : T.Elem, a * b * c = a * (b * c) := by
    intro a b c
    apply φ.injective
    rw [hmul, hmul, hmul, hmul, mul_assoc]
  have hone_mul : ∀ a : T.Elem, T.mul ⟨0, hpos⟩ a = a := by
    intro a
    apply φ.injective
    exact (hmul _ a).trans (by rw [hφone, one_mul])
  have hinv : ∀ a : T.Elem, φ.symm (φ a)⁻¹ * a = (⟨0, hpos⟩ : Fin e.length) := by
    intro a
    apply φ.injective
    exact (hmul _ a).trans (by rw [φ.apply_symm_apply, inv_mul_cancel, hφone])
  exact ⟨⟨T, hpos, hone_mul, hassoc, fun a => ⟨_, hinv a⟩⟩, ⟨φ, hmul⟩, rfl, hidx⟩

/-! ## The file -/

theorem generate_ok (hnd : e.Nodup) (hall : ∀ x, x ∈ e) (gid : Int) :
    generate e.length gid e = .ok (writeTable e.length gid (oneBased (cayley e))) := by
  obtain ⟨MT, hMT, hentry⟩ := convolutionTableF_ok hnd hall fun x => x
  have hentries : entries e.length MT = .ok (oneBased (cayley e)) := by
    unfold entries oneBased cayley
    rw [List.map_map, mapM_positions hnd fun x => mapM_positions hnd fun y => rfl]
    apply mapM_ok
    intro x _
    show _ = Except.ok ((e.map fun y => (e.idxOf (x * y) : Int)).map fun c => c + 1)
    rw [List.map_map]
    exact mapM_ok fun y _ => hentry x y
  unfold generate
  rw [hMT, ok_bind, hentries, ok_bind]
  rfl

/-- **Round trip.**  From every numbering of a group that starts with the identity, the generators
write a file that both loaders read as its multiplication table; `searchMany.cpp` if the two
numbers of the header are in the range of `int`. -/
theorem table_roundTrip {n : Nat} (hn : Fintype.card G = n) (hnd : e.Nodup) (hall : ∀ x, x ∈ e)
    (hone : e.head? = some 1) (gid : Int) : ∃ file ct, generate n gid e = .ok file ∧ IsTableOf e ct ∧
      (Fits n → Fits gid → loadTable n file = some ct) ∧
      ∀ files, files (tableName n gid) = some file → getCt files n gid = .ok ct := by
  rw [← length_eq_card hnd hall] at hn
  subst hn
  have hct := cayley_isTableOf hnd hall hone
  refine ⟨_, cayley e, generate_ok hnd hall gid, hct, ?_, ?_⟩
  · intro hn hgid
    rw [loadTable_write _ gid _ hct.rows hct.cols hct.entries, if_pos ⟨hn, hgid⟩]
  · intro files hfile
    refine getCt_write files _ gid _ ?_ hfile
    intro row hrow hnil
    have hlen := hct.cols row hrow
    have hpos : 0 < e.length := List.length_pos_of_mem (hall 1)
    rw [hnil, List.length_nil] at hlen
    omega

end

/-- The group of order two. -/
def signs : List ℤˣ := [1, -1]

/-- The first group of order two, from a directory with its table only. -/
theorem table_roundTrip_signs : ∃ file ct, generate 2 1 signs = .ok file ∧ IsTableOf signs ct ∧
    loadTable 2 file = some ct ∧
    getCt (fun name => if name = tableName 2 1 then some file else none) 2 1 = .ok ct := by
  obtain ⟨file, ct, hfile, hct, hload, hget⟩ :=
    table_roundTrip (e := signs) (n := 2) rfl (by decide) (by decide) rfl 1
  exact ⟨file, ct, hfile, hct, hload (by decide) (by decide), hget _ (if_pos rfl)⟩

/-- With a number that is no `int`, the header cannot be read. -/
theorem table_roundTrip_overflow : (signs.Nodup ∧ (∀ x, x ∈ signs) ∧ signs.head? = some 1) ∧
    ∃ file, generate 2 (2 ^ 31) signs = .ok file ∧ loadTable 2 file = none := by
  have hnd : signs.Nodup := by decide
  have hall : ∀ x, x ∈ signs := by decide
  have hct := cayley_isTableOf hnd hall rfl
  refine ⟨⟨hnd, hall, rfl⟩, _, generate_ok hnd hall (2 ^ 31), ?_⟩
  show loadTable signs.length _ = _
  rw [loadTable_write _ _ _ hct.rows hct.cols hct.entries, if_neg (by decide)]

end PdsSearch
