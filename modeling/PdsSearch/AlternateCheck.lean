import PdsSearch.CheckPDS
import PdsSearch.Lib.CayleyMatrix

/-!
# The alternate checker (`alternateCheckPDS.py`, `11IncidenceMatrices.txt`)

For each line the script writes one line of GAP code, which asks of the set `D`
in the group: are there `k` elements, is `D` closed under inverses, has the
minimal polynomial of the incidence matrix of the translates `x D` degree 3, and
is the identity not in `D`.

    prints … = .ok true ↔ D has k elements, is closed under inverses, without the
      identity, and natDegree (minpoly ℚ D) = 3                  (prints_iff)

Partial difference sets with `mu ≥ 1` and `k < n - 1` pass.  What passes is a
partial difference set of the subgroup it generates, and so one of the group only
if that is the whole group.
-/

namespace PdsSearch

open Checked GroupRing Text PartialDifferenceSet CayleyMatrix

/-! ## Algorithm -/

/-- How GAP ends early. -/
inductive GapStop
  | unbound
  | notSquare
deriving DecidableEq, Repr

section
variable {β : Type}

/-- `v[i]`; GAP counts from 1. -/
def gapGet (v : List β) (i : Int) : Except GapStop β :=
  if i < 1 then .error .unbound
  else match v[(i - 1).toNat]? with
    | some b => .ok b
    | none => .error .unbound

/-- `v[i] := b` -/
def gapPut (v : List β) (i : Int) (b : β) : Except GapStop (List β) :=
  if 1 ≤ i ∧ i ≤ v.length then .ok (v.set (i - 1).toNat b) else .error .unbound

/-- `Set(v)` -/
def gapSet [LinearOrder β] (v : List β) : List β := v.toFinset.sort

/-- `Position(v, b)`, for a `b` that is in `v`. -/
def position [DecidableEq β] (v : List β) (b : β) : Int := v.idxOf b + 1

end

/-- `Elements(g)` -/
def elements (G : Type) [Fintype G] [LinearOrder G] : List G := Finset.univ.sort

/-- `LeftTranslates_Nums` -/
def leftTranslatesNums (G : Type) [Group G] [Fintype G] [LinearOrder G] (sublist : List Int) :
    Except GapStop (List (List G)) :=
  (elements G).mapM fun g => sublist.mapM fun i => do
    return g * (← gapGet (elements G) i)

section
variable {β : Type} [LinearOrder β]

/-- The innermost loop of `PointsToInterval`: the last `s` with `b = points[s]`.  Zero where there
is none, the source keeps `b` there. -/
def pointNumber (points : List β) (b : β) : Int :=
  (points.zipIdx 1).foldl (fun a p => if b = p.1 then (p.2 : Int) else a) 0

/-- `PointsToInterval` -/
def pointsToInterval (design : List (List β)) : List (List Int) :=
  let points := gapSet design.flatten
  design.map fun block => block.map (pointNumber points)

/-- `IncidenceMatrix` -/
def incidenceMatrix (design : List (List β)) : Except GapStop (List (List Int)) := do
  let intDesign := pointsToInterval design
  let v := (gapSet intDesign.flatten).length
  let k := (← gapGet intDesign 1).length
  intDesign.mapM fun block =>
    (List.range' 1 k).foldlM (fun row (j : Nat) => do gapPut row (← gapGet block j) 1)
      (List.replicate v (0 : Int))

end

/-- The rows as a matrix. -/
def toMatrix (m : Nat) (rows : List (List Int)) : Matrix (Fin m) (Fin m) ℚ :=
  Matrix.of fun i j => (((rows[i.val]?.bind fun row => row[j.val]?).getD 0 : Int) : ℚ)

/-- `Degree(MinimalPolynomial(mat))`, the minimal polynomial over the rationals. -/
noncomputable def degreeMinimalPolynomial (mat : List (List Int)) : Except GapStop Nat :=
  if ∀ row ∈ mat, row.length = mat.length then
    .ok (minpoly ℚ (toMatrix mat.length mat)).natDegree
  else .error .notSquare

/-- What the script fills in: `g := SmallGroup(n,gid); k := …; pds := […]`. -/
structure GapCheck where
  n : Int
  gid : Int
  k : Int
  pds : List Int
deriving DecidableEq, Repr

/-- `{[a+1 for a in pds]}` and the other values of the line of code. -/
def gapCode (n gid k : Int) (pds : List Int) : GapCheck :=
  { n, gid, k, pds := pds.map (· + 1) }

/-- What the line of code prints, `G` being the group `g`.  GAP's `and` stops at a `false`. -/
noncomputable def GapCheck.prints (G : Type) [Group G] [Fintype G] [LinearOrder G] (c : GapCheck) :
    Except GapStop Bool := do
  let e := elements G
  if ((gapSet c.pds).length : Int) ≠ c.k then return false
  else
    let inverses ← c.pds.mapM fun x => do return position e (← gapGet e x)⁻¹
    if gapSet inverses ≠ gapSet c.pds then return false
    else
      let degree ← degreeMinimalPolynomial (← incidenceMatrix (← leftTranslatesNums G c.pds))
      if degree ≠ 3 then return false
      else return decide (1 ∉ c.pds)

/-- The body of the main loop; `none` for a line that is passed over. -/
def alternateLine (a : Str) : Except PyStop (Option GapCheck) := do
  if contains "None in".toList a || !contains "PDS".toList a then return none
  else
    let parms ← getParms a
    let n ← pyGet parms 0
    let k ← pyGet parms 1
    let _lam ← pyGet parms 2
    let _mu ← pyGet parms 3
    if n ≠ (← pyGet parms 4) then .error (.exit 3)
    else
      let gid ← pyGet parms 5
      let pds ← getPds a
      return some (gapCode n gid k pds)

/-! ## GAP lists -/

section
variable {β : Type} [LinearOrder β]

theorem gapSet_inj {v w : List β} : gapSet v = gapSet w ↔ ∀ b, b ∈ v ↔ b ∈ w := by
  unfold gapSet
  constructor
  · intro h b
    have hset := congrArg List.toFinset h
    rw [Finset.sort_toFinset, Finset.sort_toFinset] at hset
    rw [← List.mem_toFinset, hset, List.mem_toFinset]
  · intro h
    rw [List.toFinset.ext h]

theorem length_gapSet (v : List β) : (gapSet v).length = v.toFinset.card := Finset.length_sort _

end

section
variable {β : Type} [DecidableEq β]

theorem gapGet_position {v : List β} {b : β} (hb : b ∈ v) : gapGet v (position v b) = .ok b := by
  have hlt : v.idxOf b < v.length := List.idxOf_lt_length_of_mem hb
  unfold gapGet position
  rw [if_neg (by omega), show ((v.idxOf b : Int) + 1 - 1).toNat = v.idxOf b by omega,
    List.getElem?_eq_getElem hlt, List.getElem_idxOf]

theorem position_bounds {v : List β} {b : β} (hb : b ∈ v) :
    1 ≤ position v b ∧ position v b ≤ v.length := by
  have hlt : v.idxOf b < v.length := List.idxOf_lt_length_of_mem hb
  unfold position
  omega

theorem position_inj {v : List β} {a b : β} (ha : a ∈ v) : position v a = position v b ↔ a = b := by
  have hidx : v.idxOf a = v.idxOf b ↔ a = b := List.idxOf_inj ha
  unfold position
  rw [← hidx]
  omega

/-- Writing at the position of `b` changes the value of `b` only. -/
theorem gapPut_map {γ : Type} {v : List β} (hnd : v.Nodup) {b : β} (hb : b ∈ v) (f : β → γ) (c : γ) :
    gapPut (v.map f) (position v b) c = .ok (v.map (Function.update f b c)) := by
  have hbounds := position_bounds hb
  unfold gapPut
  rw [List.length_map, if_pos hbounds]
  congr 1
  unfold position
  rw [show ((v.idxOf b : Int) + 1 - 1).toNat = v.idxOf b by omega]
  apply List.ext_getElem
  · simp
  · intro i h1 h2
    have hi : i < v.length := by simpa using h2
    have hiff : v.idxOf b = i ↔ v[i] = b := by
      constructor
      · rintro rfl
        exact List.getElem_idxOf _
      · rintro rfl
        exact hnd.idxOf_getElem i hi
    rw [List.getElem_set, List.getElem_map, List.getElem_map]
    by_cases hib : v.idxOf b = i
    · rw [if_pos hib, hiff.1 hib, Function.update_self]
    · rw [if_neg hib, Function.update_of_ne fun h => hib (hiff.2 h)]

end

section
variable {β : Type} [LinearOrder β]

/-- The loop over the points, from any point on. -/
theorem foldl_points {points : List β} (hnd : points.Nodup) (b : β) (s : Nat) (a : Int) :
    (points.zipIdx s).foldl (fun a p => if b = p.1 then (p.2 : Int) else a) a =
      if b ∈ points then (s : Int) + points.idxOf b else a := by
  induction points generalizing s a with
  | nil => rfl
  | cons p points ih =>
    obtain ⟨hp, hnd'⟩ := List.nodup_cons.1 hnd
    rw [List.zipIdx_cons, List.foldl_cons, ih hnd']
    by_cases hbp : b = p
    · subst hbp
      rw [if_neg hp, if_pos rfl, if_pos List.mem_cons_self, List.idxOf_cons_self]
      simp
    · rw [List.idxOf_cons_ne _ fun h => hbp h.symm]
      by_cases hb : b ∈ points
      · rw [if_pos hb, if_pos (List.mem_cons_of_mem _ hb)]
        push_cast
        ring
      · rw [if_neg hb, if_neg hbp, if_neg (by simp [hb, hbp])]

theorem pointNumber_eq {points : List β} (hnd : points.Nodup) {b : β} (hb : b ∈ points) :
    pointNumber points b = position points b := by
  unfold pointNumber position
  rw [foldl_points hnd, if_pos hb]
  push_cast
  ring

end

/-! ## The incidence matrix -/

/-- A loop over `[1..k]` that reads the entries of a list of length `k`. -/
theorem foldlM_gapGet {β γ : Type} (f : γ → β → Except GapStop γ) (v : List β) (a : γ) :
    (List.range' 1 v.length).foldlM (fun a (j : Nat) => do f a (← gapGet v j)) a = v.foldlM f a := by
  have hrest : ∀ rest done : List β, done ++ rest = v → ∀ a,
      (List.range' (done.length + 1) rest.length).foldlM
        (fun a (j : Nat) => do f a (← gapGet v j)) a = rest.foldlM f a := by
    intro rest
    induction rest with
    | nil => intro done _ a; rfl
    | cons b rest ih =>
      intro done hv a
      have hget : gapGet v ((done.length + 1 : Nat) : Int) = .ok b := by
        unfold gapGet
        rw [if_neg (by omega), ← hv,
          show (((done.length + 1 : Nat) : Int) - 1).toNat = done.length by omega]
        simp
      rw [List.length_cons, List.range'_succ, List.foldlM_cons, List.foldlM_cons, hget, ok_bind]
      congr 1
      funext a'
      have := ih (done ++ [b]) (by simp [← hv]) a'
      rwa [List.length_append, List.length_singleton] at this
  exact hrest v [] rfl a

section
variable {G : Type} [Fintype G] [LinearOrder G]

theorem mem_elements (x : G) : x ∈ elements G := (Finset.mem_sort _).2 (Finset.mem_univ x)

theorem nodup_elements : (elements G).Nodup := Finset.sort_nodup _ _

theorem length_elements : (elements G).length = Fintype.card G := Finset.length_sort _

theorem gapSet_eq_elements {v : List G} (h : ∀ x, x ∈ v) : gapSet v = elements G := by
  unfold gapSet elements
  rw [Finset.eq_univ_iff_forall.2 fun x => List.mem_toFinset.2 (h x)]

/-- The numbers GAP has for the elements. -/
def numbers (xs : List G) : List Int := xs.map (position (elements G))

theorem mem_numbers (x : G) (xs : List G) : position (elements G) x ∈ numbers xs ↔ x ∈ xs := by
  unfold numbers
  rw [List.mem_map]
  constructor
  · rintro ⟨y, hy, hyx⟩
    rwa [← (position_inj (mem_elements y)).1 hyx]
  · intro hx
    exact ⟨x, hx, rfl⟩

theorem gapSet_numbers (xs ys : List G) :
    gapSet (numbers xs) = gapSet (numbers ys) ↔ ∀ x, x ∈ xs ↔ x ∈ ys := by
  rw [gapSet_inj]
  constructor
  · intro h x
    rw [← mem_numbers, h, mem_numbers]
  · intro h i
    unfold numbers
    rw [List.mem_map, List.mem_map]
    simp only [h]

theorem length_gapSet_numbers (xs : List G) : (gapSet (numbers xs)).length = xs.toFinset.card := by
  have himage : (numbers xs).toFinset = xs.toFinset.image (position (elements G)) := by
    ext i
    unfold numbers
    simp
  rw [length_gapSet, himage, Finset.card_image_of_injective]
  exact fun x y h => (position_inj (mem_elements x)).1 h

/-- One row: a `1` at the elements of the block. -/
def marks (ys : List G) : List Int := (elements G).map fun y => if y ∈ ys then 1 else 0

/-- **The innermost loop of `IncidenceMatrix` marks the block.** -/
theorem foldlM_gapPut (ys : List G) :
    (numbers ys).foldlM (fun row i => gapPut row i 1) (List.replicate (Fintype.card G) (0 : Int)) =
      .ok (marks ys) := by
  have hstep : ∀ (done : List G) (y : G),
      gapPut (marks done) (position (elements G) y) 1 = .ok (marks (y :: done)) := by
    intro done y
    unfold marks
    rw [gapPut_map nodup_elements (mem_elements y)]
    congr 2
    funext z
    by_cases hz : z = y
    · rw [hz, Function.update_self, if_pos List.mem_cons_self]
    · rw [Function.update_of_ne hz]
      simp only [List.mem_cons, hz, false_or]
  have hstart : List.replicate (Fintype.card G) (0 : Int) = marks ([] : List G) := by
    unfold marks
    simp [length_elements]
  have hend : ∀ zs : List G, (∀ y, y ∈ zs ↔ y ∈ ys) → marks zs = marks ys := by
    intro zs h
    unfold marks
    simp only [h]
  unfold numbers
  rw [List.foldlM_map, hstart, foldlM_conc marks _ (fun done y => y :: done) ys []
    fun done y _ => hstep done y]
  congr 1
  apply hend
  intro y
  rw [List.foldl_flip_cons_eq_append']
  simp

variable [Group G]

theorem exists_elements : ∃ (g : G) (l : List G), elements G = g :: l :=
  List.exists_cons_of_ne_nil (List.ne_nil_of_mem (mem_elements (1 : G)))

theorem leftTranslatesNums_numbers (xs : List G) : leftTranslatesNums G (numbers xs) =
    .ok ((elements G).map fun g => xs.map (g * ·)) := by
  have hblock : ∀ g : G, ((numbers xs).mapM fun i => do return g * (← gapGet (elements G) i)) =
      .ok (xs.map (g * ·)) := by
    intro g
    unfold numbers
    rw [List.mapM_map]
    apply mapM_ok
    intro x _
    show (gapGet (elements G) (position (elements G) x) >>= _) = _
    rw [gapGet_position (mem_elements x)]
    rfl
  unfold leftTranslatesNums
  exact mapM_ok fun g _ => hblock g

/-- All elements are in some translate. -/
theorem mem_translates {xs : List G} (hne : xs ≠ []) (y : G) :
    y ∈ ((elements G).map fun g => xs.map (g * ·)).flatten := by
  obtain ⟨x, hx⟩ := List.exists_mem_of_ne_nil xs hne
  rw [List.mem_flatten]
  refine ⟨xs.map (y * x⁻¹ * ·), List.mem_map.2 ⟨y * x⁻¹, mem_elements _, rfl⟩, ?_⟩
  exact List.mem_map.2 ⟨x, hx, inv_mul_cancel_right y x⟩

theorem pointsToInterval_translates {xs : List G} (hne : xs ≠ []) :
    pointsToInterval ((elements G).map fun g => xs.map (g * ·)) =
      (elements G).map fun g => numbers (xs.map (g * ·)) := by
  unfold pointsToInterval
  rw [gapSet_eq_elements (mem_translates hne), List.map_map]
  apply List.map_congr_left
  intro g _
  show (xs.map (g * ·)).map _ = _
  unfold numbers
  apply List.map_congr_left
  intro y _
  exact pointNumber_eq nodup_elements (mem_elements y)

/-- **The incidence matrix of the translates.** -/
theorem incidenceMatrix_translates {xs : List G} (hne : xs ≠ []) :
    incidenceMatrix ((elements G).map fun g => xs.map (g * ·)) =
      .ok ((elements G).map fun g => marks (xs.map (g * ·))) := by
  have hv : (gapSet ((elements G).map fun g => numbers (xs.map (g * ·))).flatten).length =
      Fintype.card G := by
    have hflat : ((elements G).map fun g => numbers (xs.map (g * ·))).flatten =
        numbers ((elements G).map fun g => xs.map (g * ·)).flatten := by
      unfold numbers
      rw [List.map_flatten, List.map_map]
      rfl
    rw [hflat, length_gapSet_numbers,
      Finset.eq_univ_iff_forall.2 fun x => List.mem_toFinset.2 (mem_translates hne x), Finset.card_univ]
  have hk : ∃ g : G, gapGet ((elements G).map fun g => numbers (xs.map (g * ·))) 1 =
      .ok (numbers (xs.map (g * ·))) := by
    obtain ⟨g, l, hl⟩ := exists_elements (G := G)
    rw [hl]
    exact ⟨g, rfl⟩
  obtain ⟨g, hg⟩ := hk
  have hlen : ∀ g : G, (numbers (xs.map (g * ·))).length = xs.length := by
    intro g
    unfold numbers
    rw [List.length_map, List.length_map]
  unfold incidenceMatrix
  rw [pointsToInterval_translates hne]
  dsimp only
  rw [hg, ok_bind, hv, hlen, List.mapM_map]
  apply mapM_ok
  intro h _
  show (List.range' 1 xs.length).foldlM _ _ = _
  rw [← hlen h, foldlM_gapGet]
  exact foldlM_gapPut _

/-! ## The check -/

omit [Fintype G] [LinearOrder G] in
theorem mem_translate (g y : G) (xs : List G) : y ∈ xs.map (g * ·) ↔ g⁻¹ * y ∈ xs := by
  rw [List.mem_map]
  constructor
  · rintro ⟨x, hx, rfl⟩
    rwa [inv_mul_cancel_left]
  · intro h
    exact ⟨g⁻¹ * y, h, mul_inv_cancel_left g y⟩

/-- **The rows are the matrix of the translates**, in the order of the elements. -/
theorem toMatrix_translates (xs : List G) : ∃ e : Fin (elements G).length ≃ G,
    toMatrix (elements G).length ((elements G).map fun g => marks (xs.map (g * ·))) =
      translates xs.toFinset e := by
  refine ⟨nodup_elements.getEquivOfForallMemList (elements G) mem_elements, ?_⟩
  ext i j
  show (((((elements G).map fun g => marks (xs.map (g * ·)))[i.val]?.bind
    fun row => row[j.val]?).getD 0 : Int) : ℚ) =
      if ((elements G).get i)⁻¹ * (elements G).get j ∈ xs.toFinset then 1 else 0
  unfold marks
  rw [List.getElem?_map, List.getElem?_eq_getElem i.isLt, Option.map_some, Option.bind_some,
    List.getElem?_map, List.getElem?_eq_getElem j.isLt, Option.map_some, Option.getD_some]
  simp only [mem_translate, List.mem_toFinset, List.get_eq_getElem]
  split <;> rfl

/-- **The degree GAP computes is that of the set in the group ring.** -/
theorem degree_translates (xs : List G) :
    degreeMinimalPolynomial ((elements G).map fun g => marks (xs.map (g * ·))) =
      .ok (minpoly ℚ (sumOf xs.toFinset)).natDegree := by
  obtain ⟨e, he⟩ := toMatrix_translates xs
  have hsquare : ∀ row ∈ (elements G).map fun g => marks (xs.map (g * ·)),
      row.length = ((elements G).map fun g => marks (xs.map (g * ·))).length := by
    intro row hrow
    obtain ⟨g, -, rfl⟩ := List.mem_map.1 hrow
    unfold marks
    rw [List.length_map, List.length_map]
  unfold degreeMinimalPolynomial
  rw [if_pos hsquare, List.length_map, he, minpoly_translates]

/-- The matrix of the empty set has rows but no columns. -/
theorem degree_nil : (incidenceMatrix ((elements G).map fun _ => ([] : List G)) >>=
    degreeMinimalPolynomial) = .error .notSquare := by
  obtain ⟨g, l, hl⟩ := exists_elements (G := G)
  have hpoints : pointsToInterval ((elements G).map fun _ => ([] : List G)) =
      (elements G).map fun _ => ([] : List Int) := by
    unfold pointsToInterval
    rw [List.map_map]
    rfl
  have hflat : ((elements G).map fun _ => ([] : List Int)).flatten = [] := by
    rw [List.flatten_eq_nil_iff]
    intro row hrow
    obtain ⟨-, -, rfl⟩ := List.mem_map.1 hrow
    rfl
  have hmat : incidenceMatrix ((elements G).map fun _ => ([] : List G)) =
      .ok ((elements G).map fun _ => ([] : List Int)) := by
    have hfirst : gapGet ((elements G).map fun _ => ([] : List Int)) 1 = .ok [] := by
      rw [hl]
      rfl
    unfold incidenceMatrix
    rw [hpoints]
    dsimp only
    have hset : gapSet ([] : List Int) = [] := Finset.sort_empty _
    rw [hfirst, ok_bind, hflat, List.mapM_map, hset]
    exact mapM_ok fun _ _ => rfl
  rw [hmat, ok_bind]
  unfold degreeMinimalPolynomial
  rw [if_neg]
  intro hsquare
  have hzero := hsquare [] (List.mem_map.2 ⟨1, mem_elements 1, rfl⟩)
  rw [List.length_map, hl] at hzero
  cases hzero

theorem inverses_numbers (xs : List G) :
    (numbers xs).mapM (fun x => do return position (elements G) (← gapGet (elements G) x)⁻¹) =
      (.ok (numbers (xs.map fun x => x⁻¹)) : Except GapStop (List Int)) := by
  unfold numbers
  rw [List.mapM_map, List.map_map]
  apply mapM_ok
  intro x _
  show (gapGet (elements G) (position (elements G) x) >>= _) = _
  rw [gapGet_position (mem_elements x)]
  rfl

theorem position_one (hone : ∀ x : G, 1 ≤ x) : position (elements G) 1 = 1 := by
  obtain ⟨g, l, hl⟩ := exists_elements (G := G)
  have hsorted : (elements G).Pairwise (· ≤ ·) := Finset.pairwise_sort _ _
  have hfirst : g = 1 := by
    have hmem := mem_elements (1 : G)
    rw [hl] at hsorted hmem
    rcases List.mem_cons.1 hmem with h | h
    · exact h.symm
    · exact le_antisymm ((List.pairwise_cons.1 hsorted).1 1 h) (hone g)
  unfold position
  rw [hl, hfirst, List.idxOf_cons_self]
  rfl

omit [Group G] in
/-- Lists of numbers are lists of elements. -/
theorem exists_numbers (pds : List Int) (h : ∀ i ∈ pds, 1 ≤ i ∧ i ≤ Fintype.card G) :
    ∃ xs : List G, numbers xs = pds := by
  induction pds with
  | nil => exact ⟨[], rfl⟩
  | cons i pds ih =>
    obtain ⟨xs, rfl⟩ := ih fun j hj => h j (List.mem_cons_of_mem i hj)
    have hi := h i List.mem_cons_self
    have hlt : (i - 1).toNat < (elements G).length := by rw [length_elements]; omega
    refine ⟨(elements G)[(i - 1).toNat] :: xs, ?_⟩
    unfold numbers
    rw [List.map_cons]
    congr 1
    unfold position
    rw [nodup_elements.idxOf_getElem]
    omega

/-- The test for inverses. -/
theorem gapSet_inverses (xs : List G) : gapSet (numbers (xs.map fun x => x⁻¹)) = gapSet (numbers xs) ↔
    ∀ x ∈ xs.toFinset, x⁻¹ ∈ xs.toFinset := by
  rw [gapSet_numbers]
  simp only [List.mem_toFinset, List.mem_map]
  constructor
  · intro h x hx
    exact (h x⁻¹).1 ⟨x, hx, rfl⟩
  · intro h x
    constructor
    · rintro ⟨y, hy, rfl⟩
      exact h y hy
    · intro hx
      exact ⟨x⁻¹, h x hx, inv_inv x⟩

/-- The test for the identity. -/
theorem one_mem_numbers (hone : ∀ x : G, 1 ≤ x) (xs : List G) :
    (1 : Int) ∈ numbers xs ↔ 1 ∈ xs.toFinset := by
  have h := mem_numbers 1 xs
  rw [position_one hone] at h
  rw [h, List.mem_toFinset]

/-- The set does not generate anything when it is empty. -/
theorem natDegree_minpoly_empty : (minpoly ℚ (sumOf (∅ : Finset G))).natDegree ≠ 3 := by
  intro hdeg
  obtain ⟨-, x, hx, hx1, -⟩ := (natDegree_minpoly_iff (by simp) (by simp)).1 hdeg
  unfold generated at hx
  rw [Finset.coe_empty, Subgroup.closure_empty, Subgroup.mem_bot] at hx
  exact hx1 hx

/-- **What the line of code prints.** -/
theorem prints_iff (hone : ∀ x : G, 1 ≤ x) (n gid k : Int) (xs : List G) :
    (GapCheck.mk n gid k (numbers xs)).prints G = .ok true ↔
      (xs.toFinset.card : Int) = k ∧ (∀ x ∈ xs.toFinset, x⁻¹ ∈ xs.toFinset) ∧ 1 ∉ xs.toFinset ∧
        (minpoly ℚ (sumOf xs.toFinset)).natDegree = 3 := by
  unfold GapCheck.prints
  dsimp only
  rw [length_gapSet_numbers]
  by_cases hlen : (xs.toFinset.card : Int) = k
  · rw [if_neg (not_not.2 hlen), inverses_numbers, ok_bind]
    by_cases hinv : ∀ x ∈ xs.toFinset, x⁻¹ ∈ xs.toFinset
    · rw [if_neg (not_not.2 ((gapSet_inverses xs).2 hinv)), leftTranslatesNums_numbers, ok_bind]
      by_cases hne : xs = []
      · subst hne
        simp only [List.map_nil]
        rw [← bind_assoc, degree_nil]
        constructor
        · intro h
          cases h
        · rintro ⟨-, -, -, hdeg⟩
          exact absurd hdeg natDegree_minpoly_empty
      · rw [incidenceMatrix_translates hne, ok_bind, degree_translates, ok_bind]
        by_cases hdeg : (minpoly ℚ (sumOf xs.toFinset)).natDegree = 3
        · rw [if_neg (not_not.2 hdeg)]
          constructor
          · intro h
            have hno : 1 ∉ numbers xs := of_decide_eq_true (Except.ok.inj h)
            exact ⟨hlen, hinv, fun h1 => hno ((one_mem_numbers hone xs).2 h1), hdeg⟩
          · rintro ⟨-, -, hno, -⟩
            exact congrArg Except.ok (decide_eq_true fun h1 => hno ((one_mem_numbers hone xs).1 h1))
        · rw [if_pos hdeg]
          exact ⟨fun h => (by cases h), fun h => absurd h.2.2.2 hdeg⟩
    · rw [if_pos fun h => hinv ((gapSet_inverses xs).1 h)]
      exact ⟨fun h => (by cases h), fun h => absurd h.2.1 hinv⟩
  · rw [if_pos hlen]
    exact ⟨fun h => (by cases h), fun h => absurd h.1 hlen⟩

end

end PdsSearch
