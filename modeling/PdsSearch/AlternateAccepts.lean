import PdsSearch.AlternateCheck
import PdsSearch.IsPds

/-!
# What the alternate checker accepts

A set of degree 3 is a partial difference set of the subgroup it generates.
Where this is not the whole group the set passes, though it is none of the group
(InSmallerGroup): two cycles of length 4 pass in the cyclic group of order 8.

    (prints … = .ok true → D is a partial difference set) ↔
      ¬ (D has k elements ∧ InSmallerGroup D)                     (alternate_sound)

Every partial difference set with `mu ≥ 1` and `k < n - 1` passes  (alternate_complete).
-/

namespace PdsSearch

open Checked Text PartialDifferenceSet CayleyMatrix

section
variable {G : Type} [Group G] [Fintype G] [LinearOrder G]

/-- The elements whose place in `Elements(g)`, counted from 0, is in `S`. -/
def placed (G : Type) [Fintype G] [LinearOrder G] (S : List Int) : Finset G :=
  Finset.univ.filter fun x => position (elements G) x - 1 ∈ S

open Classical in
/-- `D` is a regular partial difference set of the subgroup it generates, which is not the whole
group and has more elements than `D` and the identity. -/
def InSmallerGroup (D : Finset G) : Prop :=
  generated D ≠ ⊤ ∧ (∃ x ∈ generated D, x ≠ 1 ∧ x ∉ D) ∧
    ∃ lam mu, IsRegularPDS (D.subtype (· ∈ generated D)) D.card lam mu

omit [Group G] in
/-- The shift by one makes places to GAP's numbers. -/
theorem exists_placed (S : List Int) (hS : ∀ i ∈ S, 0 ≤ i ∧ i < Fintype.card G) :
    ∃ xs : List G, numbers xs = S.map (· + 1) ∧ xs.toFinset = placed G S := by
  obtain ⟨xs, hxs⟩ := exists_numbers (G := G) (S.map (· + 1)) (by
    intro i hi
    obtain ⟨j, hj, rfl⟩ := List.mem_map.1 hi
    have := hS j hj
    omega)
  refine ⟨xs, hxs, ?_⟩
  ext x
  unfold placed
  rw [List.mem_toFinset, ← mem_numbers, hxs, List.mem_map, Finset.mem_filter]
  constructor
  · rintro ⟨j, hj, hjx⟩
    refine ⟨Finset.mem_univ x, ?_⟩
    rwa [← hjx, add_sub_cancel_right]
  · rintro ⟨-, hx⟩
    exact ⟨_, hx, sub_add_cancel _ _⟩

/-- What the line of code prints for a list of places. -/
theorem prints_gapCode (hone : ∀ x : G, 1 ≤ x) (n gid k : Int) (S : List Int)
    (hS : ∀ i ∈ S, 0 ≤ i ∧ i < Fintype.card G) :
    (gapCode n gid k S).prints G = .ok true ↔ ((placed G S).card : Int) = k ∧
      (∀ x ∈ placed G S, x⁻¹ ∈ placed G S) ∧ 1 ∉ placed G S ∧
        (minpoly ℚ (sumOf (placed G S))).natDegree = 3 := by
  obtain ⟨xs, hxs, hplaced⟩ := exists_placed (G := G) S hS
  have h := prints_iff hone n gid k xs
  rw [hxs, hplaced] at h
  exact h

/-- Partial difference sets of the subgroup. -/
theorem inSmallerGroup_iff (D : Finset G) :
    InSmallerGroup D ↔ (∀ x ∈ D, x⁻¹ ∈ D) ∧ 1 ∉ D ∧ generated D ≠ ⊤ ∧
      (minpoly ℚ (sumOf D)).natDegree = 3 := by
  classical
  have hD : ∀ x ∈ D, x ∈ generated D := fun x hx => mem_generated hx
  unfold InSmallerGroup
  constructor
  · rintro ⟨htop, hout, lam, mu, hpds⟩
    have h1 : 1 ∉ D := fun h => hpds.one_notMem (Finset.mem_subtype.2 h)
    have hinv : ∀ x ∈ D, x⁻¹ ∈ D := fun x hx =>
      Finset.mem_subtype.1 (hpds.inv_mem ⟨x, hD x hx⟩ (Finset.mem_subtype.2 hx))
    have hcounts := (isRegularPDS_subtype_iff hinv h1 (generated D) hD).1 hpds
    exact ⟨hinv, h1, htop, (natDegree_minpoly_iff hinv h1).2 ⟨⟨lam, mu, hcounts⟩, hout⟩⟩
  · rintro ⟨hinv, h1, htop, hdeg⟩
    obtain ⟨⟨lam, mu, hcounts⟩, hout⟩ := (natDegree_minpoly_iff hinv h1).1 hdeg
    exact ⟨htop, hout, lam, mu, (isRegularPDS_subtype_iff hinv h1 (generated D) hD).2 hcounts⟩

end

/-! ## Tables -/

/-- The elements of a table in the order of their indices. -/
instance {n : Nat} (T : Table n) : LinearOrder T.Elem := inferInstanceAs (LinearOrder (Fin n))

section
variable {n : Nat} (T : Table n)

theorem position_elements (x : T.Elem) : position (elements T.Elem) x = T.idx x + 1 := by
  have hsort : elements T.Elem = List.finRange n := Fin.sort_univ n
  have hidx : (List.finRange n).idxOf x = Fin.val x := by
    have hlt : Fin.val x < (List.finRange n).length := by
      rw [List.length_finRange]
      exact Fin.isLt x
    have h := (List.nodup_finRange n).idxOf_getElem (Fin.val x) hlt
    rwa [List.getElem_finRange] at h
  unfold position
  rw [hsort]
  show (((List.finRange n).idxOf x : Nat) : Int) + 1 = _
  rw [hidx]
  rfl

theorem placed_elem (S : List Int) : placed T.Elem S = T.toFinset S := by
  unfold placed Table.toFinset
  simp only [position_elements, add_sub_cancel_right]

end

theorem GroupTable.one_le {n : Nat} (T : GroupTable n) (x : T.Elem) : 1 ≤ x :=
  Nat.zero_le (Fin.val x)

/-! ## Two sets -/

/-- Elements 2 and 6 of the cyclic group of order 8, whose graph is two cycles of length 4. -/
def cycles : Finset (cyclicTable 8).Elem := (cyclicTable 8).toFinset [2, 6]

theorem even_of_generated {x : (cyclicTable 8).Elem} (hx : x ∈ generated cycles) :
    (cyclicTable 8).idx x % 2 = 0 := by
  have hmem : ∀ a ∈ cycles, (cyclicTable 8).idx a % 2 = 0 := by decide
  have hmul : ∀ a b : (cyclicTable 8).Elem, (cyclicTable 8).idx a % 2 = 0 →
      (cyclicTable 8).idx b % 2 = 0 → (cyclicTable 8).idx (a * b) % 2 = 0 := by decide
  have hinv : ∀ a b : (cyclicTable 8).Elem, b * a = 1 → (cyclicTable 8).idx a % 2 = 0 →
      (cyclicTable 8).idx b % 2 = 0 := by decide
  induction hx using Subgroup.closure_induction with
  | mem a ha => exact hmem a (Finset.mem_coe.1 ha)
  | one => rfl
  | mul a b _ _ ha hb => exact hmul a b ha hb
  | inv a _ ha => exact hinv a a⁻¹ (inv_mul_cancel a) ha

theorem inSmallerGroup_cycles : InSmallerGroup cycles := by
  have hone : products cycles 1 = cycles.card := by decide
  have hinv : ∀ x ∈ cycles, x⁻¹ ∈ cycles := (products_one_iff cycles).1 hone
  have h1 : 1 ∉ cycles := by decide
  have hproducts : ∀ x : (cyclicTable 8).Elem, (cyclicTable 8).idx x % 2 = 0 → x ≠ 1 →
      (products cycles x : Int) = if x ∈ cycles then 0 else 2 := by decide
  have hcounts : Counts cycles (generated cycles) 0 2 := fun x hx =>
    hproducts x (even_of_generated hx)
  have hfour : ∃ a ∈ cycles, ∃ b ∈ cycles, a * b ≠ 1 ∧ a * b ∉ cycles := by decide
  have hodd : ∃ x : (cyclicTable 8).Elem, (cyclicTable 8).idx x % 2 ≠ 0 := by decide
  rw [inSmallerGroup_iff]
  refine ⟨hinv, h1, ?_, (natDegree_minpoly_iff hinv h1).2 ⟨⟨0, 2, hcounts⟩, ?_⟩⟩
  · intro htop
    obtain ⟨x, hx⟩ := hodd
    exact hx (even_of_generated (htop ▸ Subgroup.mem_top x))
  · obtain ⟨a, ha, b, hb, hab⟩ := hfour
    exact ⟨a * b, mul_mem (mem_generated ha) (mem_generated hb), hab⟩

/-- The pentagon: elements 1 and 4 of the cyclic group of order 5. -/
def pentagon : Finset (cyclicTable 5).Elem := (cyclicTable 5).toFinset [1, 4]

theorem pentagon_counts : Counts pentagon ⊤ 0 1 := by
  have hproducts : ∀ x : (cyclicTable 5).Elem, x ≠ 1 →
      (products pentagon x : Int) = if x ∈ pentagon then 0 else 1 := by decide
  exact fun x _ => hproducts x

theorem pentagon_pds : IsRegularPDS pentagon 2 0 1 := by
  have hone : products pentagon 1 = pentagon.card := by decide
  have h1 : 1 ∉ pentagon := by decide
  exact (isRegularPDS_iff_counts ((products_one_iff pentagon).1 hone) h1).2 pentagon_counts

theorem pentagon_prints : (gapCode 5 1 2 [1, 4]).prints (cyclicTable 5).Elem = .ok true := by
  have hplaced : placed (cyclicTable 5).Elem [1, 4] = pentagon := placed_elem (cyclicTable 5).toTable _
  have hcard : pentagon.card = 2 := by decide
  have hpds : IsRegularPDS pentagon pentagon.card 0 1 := by rw [hcard]; exact pentagon_pds
  have hdeg : (minpoly ℚ (sumOf pentagon)).natDegree = 3 :=
    natDegree_minpoly_pds hpds.inv_mem hpds.one_notMem hpds one_ne_zero (by decide)
  rw [prints_gapCode (cyclicTable 5).one_le 5 1 2 [1, 4] (by decide), hplaced, hcard]
  exact ⟨rfl, hpds.inv_mem, hpds.one_notMem, hdeg⟩

/-! ## The line -/

/-- The script takes a line of the search apart. -/
theorem alternateLine_result (multiplier : Int) (d : Dims) (gid : Nat) {S : List Int} (hS : S ≠ [])
    (trial : Nat) : alternateLine (resultLine multiplier d gid (some (S, trial))) =
      .ok (some (gapCode d.n gid d.k S)) := by
  rw [resultLine_lineOf]
  unfold alternateLine
  rw [contains_none, contains_pds, if_neg (by simp), getParms_line, ok_bind]
  show (if (d.n : Int) ≠ d.n then _ else _) = _
  rw [if_neg (by simp)]
  show (getPds _ >>= _) = _
  rw [getPds_line d gid hS, ok_bind]
  rfl

/-! ## Top theorems -/

section
variable {G : Type} [Group G] [Fintype G] [LinearOrder G]

/-- **Exactly which lists pass rightly.**  What passes is a regular partial difference set unless
it is one of a smaller group only. -/
theorem alternate_sound (hone : ∀ x : G, 1 ≤ x) (n gid k : Int) (S : List Int)
    (hS : ∀ i ∈ S, 0 ≤ i ∧ i < Fintype.card G) :
    ((gapCode n gid k S).prints G = .ok true →
      ∃ lam mu, IsRegularPDS (placed G S) k.toNat lam mu) ↔
    ¬ (((placed G S).card : Int) = k ∧ InSmallerGroup (placed G S)) := by
  rw [prints_gapCode hone n gid k S hS, inSmallerGroup_iff]
  set D := placed G S
  constructor
  · rintro h ⟨rfl, hinv, h1, htop, hdeg⟩
    exact htop ((exists_isRegularPDS_iff hinv h1 hdeg).1 (h ⟨rfl, hinv, h1, hdeg⟩))
  · rintro h ⟨rfl, hinv, h1, hdeg⟩
    show ∃ lam mu, IsRegularPDS D D.card lam mu
    rw [exists_isRegularPDS_iff hinv h1 hdeg]
    by_contra htop
    exact h ⟨rfl, hinv, h1, htop, hdeg⟩

end

/-- The pentagon passes and generates its group, so it is a partial difference set. -/
theorem alternate_sound_pentagon :
    ∃ lam mu, IsRegularPDS (placed (cyclicTable 5).Elem [1, 4]) 2 lam mu :=
  (alternate_sound (cyclicTable 5).one_le 5 1 2 [1, 4] (by decide)).2
    (fun h => h.2.1 (by rw [placed_elem]; exact pentagon_counts.generated_eq_top one_ne_zero))
    pentagon_prints

/-- **A set that passes and is no partial difference set.** -/
theorem alternate_overlooks :
    alternateLine (resultLine 1 ⟨8, 2, 0, 2⟩ 1 (some ([2, 6], 1))) = .ok (some (gapCode 8 1 2 [2, 6])) ∧
    (gapCode 8 1 2 [2, 6]).prints (cyclicTable 8).Elem = .ok true ∧
    ¬ ∃ lam mu, IsRegularPDS (placed (cyclicTable 8).Elem [2, 6]) 2 lam mu := by
  have hplaced : placed (cyclicTable 8).Elem [2, 6] = cycles := placed_elem (cyclicTable 8).toTable _
  obtain ⟨hinv, h1, htop, hdeg⟩ := (inSmallerGroup_iff cycles).1 inSmallerGroup_cycles
  have hcard : cycles.card = 2 := by decide
  refine ⟨alternateLine_result 1 ⟨8, 2, 0, 2⟩ 1 (by decide) 1, ?_, ?_⟩
  · rw [prints_gapCode (cyclicTable 8).one_le 8 1 2 [2, 6] (by decide), hplaced, hcard]
    exact ⟨rfl, hinv, h1, hdeg⟩
  · intro h
    apply htop
    rw [← exists_isRegularPDS_iff hinv h1 hdeg, hcard, ← hplaced]
    exact h

section
variable {G : Type} [Group G] [Fintype G] [LinearOrder G]

/-- **Partial difference sets pass.** -/
theorem alternate_complete (hone : ∀ x : G, 1 ≤ x) {d : Dims} (hn : d.n = Fintype.card G)
    (hk : 1 ≤ d.k) (hkn : d.k < d.n - 1) (hmu : 1 ≤ d.mu) (S : List Int)
    (hS : ∀ i ∈ S, 0 ≤ i ∧ i < d.n) (hpds : IsRegularPDS (placed G S) d.k d.lam d.mu)
    (multiplier : Int) (gid trial : Nat) :
    (∃ c, alternateLine (resultLine multiplier d gid (some (S, trial))) = .ok (some c) ∧
      c.prints G = .ok true) ∧
    (minpoly ℚ (translates (placed G S) (Equiv.refl G))).natDegree = 3 := by
  have hS0 : S ≠ [] := by
    rintro rfl
    have hcard := hpds.card
    unfold placed at hcard
    simp at hcard
    omega
  have hcard : (placed G S).card = d.k := hpds.card
  have hpds' : IsRegularPDS (placed G S) (placed G S).card d.lam d.mu := by rw [hcard]; exact hpds
  have hdeg : (minpoly ℚ (sumOf (placed G S))).natDegree = 3 :=
    natDegree_minpoly_pds hpds.inv_mem hpds.one_notMem hpds' (by omega) (by omega)
  refine ⟨⟨_, alternateLine_result multiplier d gid hS0 trial, ?_⟩, ?_⟩
  · rw [prints_gapCode hone _ _ _ S fun i hi => hn ▸ hS i hi]
    exact ⟨by exact_mod_cast hcard, hpds.inv_mem, hpds.one_notMem, hdeg⟩
  · rw [minpoly_translates]
    exact hdeg

end

/-- The pentagon passes. -/
theorem alternate_complete_pentagon :
    (∃ c, alternateLine (resultLine 1 ⟨5, 2, 0, 1⟩ 1 (some ([1, 4], 1))) = .ok (some c) ∧
      c.prints (cyclicTable 5).Elem = .ok true) ∧
    (minpoly ℚ (translates (placed (cyclicTable 5).Elem [1, 4])
      (Equiv.refl (cyclicTable 5).Elem))).natDegree = 3 :=
  alternate_complete (d := ⟨5, 2, 0, 1⟩) (cyclicTable 5).one_le rfl (by decide) (by decide) (by decide)
    [1, 4] (by decide) (by rw [placed_elem]; exact pentagon_pds) 1 1 1

end PdsSearch
