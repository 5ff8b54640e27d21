import PdsSearch.StartSet

/-!
# One step of the search, and the invariant of the loop heads

On a state that describes a candidate the body of the inner loop has three
outcomes (`tryMutation_holds`), and a step of the machine is one of five cases
(`step_halt`, `step_round`, `step_leave`, `step_try`).  From these:

    Reached v o d T.ct rs pos e C → HeadInv d T.ct e C              (search_headInv)

in every configuration reached at the head of either loop the candidate list,
the bitmap, the histogram and the error agree, and the pair is in range.
-/

namespace PdsSearch

open Checked GroupRing

variable {α : Type} [CommRing α] [LinearOrder α] {d : Dims} {T : Table d.n} {e : ErrorCalc α}
  {norm : (T.Elem → α) → α}

/-! ## One step -/

/-- **The three outcomes of an iteration.** -/
theorem tryMutation_holds (hM : Measures T e norm) {c : Candidate T} {s : St α}
    (h : Holds norm c s) {m : Int × Int} (hm : InRange d m) :
    (c.swap m = none ∧ tryMutation d T.ct e s m = .ok (s, .member)) ∨
    (∃ c', c.swap m = some c' ∧ c'.err norm < c.err norm ∧ ∃ s',
      tryMutation d T.ct e s m = .ok (s', .accepted) ∧ Holds norm c' s' ∧
      s'.newError = c'.err norm ∧ s'.pos = s.pos ∧ s'.changedVal = true) ∨
    (∃ c', c.swap m = some c' ∧ ¬ c'.err norm < c.err norm ∧
      tryMutation d T.ct e s m = .ok ({ s with newError := c'.err norm }, .rejected)) := by
  obtain ⟨p, b, rfl, hk, hb⟩ := hm.exists_elem T
  have hp : p < c.xs.length := by rw [c.length_eq]; exact hk
  have hspec := tryMutation_spec hM c s (c.square α) h.mySet h.isMember h.sums p hp b hk hb
  rw [c.swap_elem p b hk hb]
  by_cases hbx : b ∈ c.xs
  · rw [dif_pos hbx] at hspec
    exact .inl ⟨dif_neg (by simpa using hbx), hspec⟩
  · -- the histogram after the swap is the square of the swapped list
    have hsq : c.square α + swapSq (formal α c.xs) c.xs[p] b = (c.set p b hk hb hbx).square α :=
      (formal_set_sq c.xs p hp b).symm
    simp only [dif_neg hbx, hsq] at hspec
    change _ = if (c.set p b hk hb hbx).err norm < s.curError then _ else _ at hspec
    rw [dif_pos hbx]
    by_cases hlt : (c.set p b hk hb hbx).err norm < s.curError
    · rw [if_pos hlt] at hspec
      exact .inr (.inl ⟨_, rfl, h.curError ▸ hlt, _, hspec, ⟨rfl, rfl, rfl, rfl⟩, rfl, rfl, rfl⟩)
    · rw [if_neg hlt] at hspec
      exact .inr (.inr ⟨_, rfl, h.curError ▸ hlt, hspec⟩)

/-- The two draws of a round. -/
theorem drawMutation_ok (o : ArgOrder) (rs : Nat → Nat) (pos : Nat) (hk : 0 < d.k) (hn : 1 < d.n) :
    ∃ i, drawMutation o d rs pos = .ok (i, pos + 2) ∧ InRange d i := by
  have hn' : 0 < d.n - 1 := by omega
  have h1 : ∀ r, r % d.k < d.k := fun r => Nat.mod_lt _ hk
  have h2 : ∀ r, r % (d.n - 1) < d.n - 1 := fun r => Nat.mod_lt _ hn'
  cases o with
  | leftFirst =>
    refine ⟨(((rs pos % d.k : Nat) : Int), ((rs (pos + 1) % (d.n - 1) : Nat) : Int) + 1), by
      simp only [drawMutation, rem_pos _ _ hk, rem_pos _ _ hn', ok_bind, pure_eq_ok], ?_⟩
    have := h1 (rs pos)
    have := h2 (rs (pos + 1))
    refine ⟨⟨?_, ?_⟩, ?_, ?_⟩ <;> simp only <;> omega
  | rightFirst =>
    refine ⟨(((rs (pos + 1) % d.k : Nat) : Int), ((rs pos % (d.n - 1) : Nat) : Int) + 1), by
      simp only [drawMutation, rem_pos _ _ hk, rem_pos _ _ hn', ok_bind, pure_eq_ok], ?_⟩
    have := h1 (rs (pos + 1))
    have := h2 (rs pos)
    refine ⟨⟨?_, ?_⟩, ?_, ?_⟩ <;> simp only <;> omega

/-- With nothing to draw from, the first or the second draw divides by zero. -/
theorem drawMutation_ok_only {o : ArgOrder} {rs : Nat → Nat} {pos : Nat} {r : (Int × Int) × Nat}
    (h : drawMutation o d rs pos = .ok r) : 0 < d.k ∧ 1 < d.n := by
  by_contra hno
  have hdiv : d.k = 0 ∨ d.n - 1 = 0 := by omega
  have hrem : ∀ a, rem a 0 = .error .divByZero := fun a => if_pos rfl
  cases o with
  | leftFirst =>
    simp only [drawMutation] at h
    by_cases hk : d.k = 0
    · rw [hk, hrem] at h
      cases h
    · rw [rem_pos _ _ (by omega), ok_bind, hdiv.resolve_left hk, hrem] at h
      cases h
  | rightFirst =>
    simp only [drawMutation] at h
    by_cases hn : d.n - 1 = 0
    · rw [hn, hrem] at h
      cases h
    · rw [rem_pos _ _ (by omega), ok_bind, hdiv.resolve_right hn, hrem] at h
      cases h

theorem increment_inRange {m : Int × Int} (hm : InRange d m) : InRange d (increment d m) := by
  obtain ⟨⟨h1, h2⟩, h3, h4⟩ := hm
  unfold increment
  split
  · refine ⟨⟨?_, ?_⟩, ?_, ?_⟩ <;> simp only <;> omega
  · split
    · refine ⟨⟨?_, ?_⟩, ?_, ?_⟩ <;> simp only <;> omega
    · refine ⟨⟨?_, ?_⟩, ?_, ?_⟩ <;> simp only <;> omega

theorem enter_inRange (v : Variant) {i : Int × Int} (hi : InRange d i) : InRange d (v.enter d i).1 := by
  cases v with
  | new => exact hi
  | old => exact increment_inRange hi

section
variable (v : Variant) (o : ArgOrder) (rs : Nat → Nat)

omit [CommRing α] [LinearOrder α] in
/-- Only the outer loop ends the search. -/
theorem step_eq_halt [Add α] [Sub α] [Mul α] [Neg α] [LT α] [DecidableLT α] [IntCast α]
    {ct : List (List Int)} {e : ErrorCalc α} {C : Cfg α} {out : Outcome α}
    (h : searchStep v o d ct rs e C = .ok (.halt out)) :
    ∃ s, C = .outer s ∧ out = ⟨s.mySet, s.curError, s.pos⟩ := by
  cases C with
  | outer s =>
    rw [searchStep] at h
    split at h
    · obtain ⟨r, -, h⟩ := exists_of_bind h
      cases h
    · cases h
      exact ⟨s, rfl, rfl⟩
  | inner s i m firstTime =>
    rw [searchStep] at h
    split at h
    · obtain ⟨⟨s', verdict⟩, -, h⟩ := exists_of_bind h
      cases verdict <;> cases h
    · cases h

theorem step_halt (s : St α)
    (h : ¬ (((0 : Int) : α) < s.curError ∧ s.changedVal = true)) :
    searchStep v o d T.ct rs e (.outer s) = .ok (.halt ⟨s.mySet, s.curError, s.pos⟩) := by
  rw [searchStep, if_neg h]
  rfl

/-- A round is entered at the drawn pair. -/
theorem step_round (hk : 0 < d.k) (hn : 1 < d.n) (s : St α)
    (h : ((0 : Int) : α) < s.curError ∧ s.changedVal = true) :
    ∃ i, drawMutation o d rs s.pos = .ok (i, s.pos + 2) ∧ InRange d i ∧
      searchStep v o d T.ct rs e (.outer s) = .ok (.goto [.round s.mySet i]
        (.inner { s with changedVal := false, pos := s.pos + 2 } i (v.enter d i).1 (v.enter d i).2)) := by
  obtain ⟨i, hi, hr⟩ := drawMutation_ok o rs s.pos hk hn
  refine ⟨i, hi, hr, ?_⟩
  rw [searchStep, if_pos h, hi]
  rfl

/-- A round starts only where there is something to draw from. -/
theorem draws_of_step {s : St α} {es : List (Event α)} {C : Cfg α}
    (h : searchStep v o d T.ct rs e (.outer s) = .ok (.goto es C)) : 0 < d.k ∧ 1 < d.n := by
  rw [searchStep] at h
  split at h
  · obtain ⟨r, hd, -⟩ := exists_of_bind h
    exact drawMutation_ok_only hd
  · cases h

/-- The inner loop is left when the pair has come round. -/
theorem step_leave (s : St α) (i : Int × Int) :
    searchStep v o d T.ct rs e (.inner s i i false) = .ok (.goto [] (.outer s)) := by
  rw [searchStep, if_neg (by simp)]
  rfl

/-- An iteration of the inner loop. -/
theorem step_try (hM : Measures T e norm) {c : Candidate T} {s : St α} (h : Holds norm c s)
    {i m : Int × Int} {firstTime : Bool} (hm : InRange d m) (hgo : m ≠ i ∨ firstTime = true) :
    (c.swap m = none ∧ searchStep v o d T.ct rs e (.inner s i m firstTime) =
      .ok (.goto [.skip m] (.inner s i (increment d m) false))) ∨
    (∃ c', c.swap m = some c' ∧ c'.err norm < c.err norm ∧ ∃ s',
      searchStep v o d T.ct rs e (.inner s i m firstTime) =
        .ok (.goto [.swap m (c'.err norm)] (.outer s')) ∧ Holds norm c' s' ∧
      s'.pos = s.pos ∧ s'.changedVal = true) ∨
    (∃ c', c.swap m = some c' ∧ ¬ c'.err norm < c.err norm ∧
      searchStep v o d T.ct rs e (.inner s i m firstTime) =
        .ok (.goto [.reject m (c'.err norm)]
          (.inner { s with newError := c'.err norm } i (increment d m) false))) := by
  simp only [searchStep, if_pos hgo]
  rcases tryMutation_holds hM h hm with ⟨h1, h2⟩ | ⟨c', h1, h2, s', h3, h4, h5, h6, h7⟩ | ⟨c', h1, h2, h3⟩
  · rw [h2]
    exact .inl ⟨h1, rfl⟩
  · rw [h3]
    refine .inr (.inl ⟨c', h1, h2, s', ?_, h4, h6, h7⟩)
    rw [← h5]
    rfl
  · rw [h3]
    exact .inr (.inr ⟨c', h1, h2, rfl⟩)

end

/-! ## The invariant -/

/-- The state at a loop head. -/
def Cfg.st {α : Type} : Cfg α → St α
  | .outer s => s
  | .inner s .. => s

/-- Every loop head describes a candidate, with pairs in range. -/
def CfgInv (norm : (T.Elem → α) → α) : Cfg α → Prop
  | .outer s => ∃ c, Holds norm c s
  | .inner s i m _ => (∃ c, Holds norm c s) ∧ InRange d i ∧ InRange d m

omit [LinearOrder α] in
theorem CfgInv.holds {C : Cfg α} (h : CfgInv norm C) : ∃ c, Holds norm c C.st := by
  cases C with
  | outer s => exact h
  | inner s i m firstTime => exact h.1

omit [LinearOrder α] in
theorem Holds.of_eq {c : Candidate T} {s s' : St α} (h : Holds norm c s) (h1 : s'.mySet = s.mySet)
    (h2 : s'.isMember = s.isMember) (h3 : s'.sums = s.sums) (h4 : s'.curError = s.curError) :
    Holds norm c s' :=
  ⟨h1.trans h.mySet, h2.trans h.isMember, h3.trans h.sums, h4.trans h.curError⟩

/-- **Step lemma.** -/
theorem step_inv (v : Variant) (o : ArgOrder) (rs : Nat → Nat) (hM : Measures T e norm) {C C' : Cfg α} {es : List (Event α)} (hC : CfgInv norm C)
    (h : searchStep v o d T.ct rs e C = .ok (.goto es C')) : CfgInv norm C' := by
  cases C with
  | outer s =>
    obtain ⟨c, hc⟩ := hC
    obtain ⟨hk, hn⟩ := draws_of_step v o rs h
    by_cases hgo : ((0 : Int) : α) < s.curError ∧ s.changedVal = true
    · obtain ⟨i, -, hi, hstep⟩ := step_round (T := T) (e := e) v o rs hk hn s hgo
      rw [hstep] at h
      cases h
      exact ⟨⟨c, hc.of_eq rfl rfl rfl rfl⟩, hi, enter_inRange v hi⟩
    · rw [step_halt v o rs s hgo] at h
      cases h
  | inner s i m firstTime =>
    obtain ⟨⟨c, hc⟩, hi, hm⟩ := hC
    by_cases hgo : m ≠ i ∨ firstTime = true
    · rcases step_try v o rs hM hc hm hgo with ⟨-, h2⟩ | ⟨c', -, -, s', h3, h4, -⟩ | ⟨c', -, -, h3⟩
      · rw [h2] at h
        cases h
        exact ⟨⟨c, hc⟩, hi, increment_inRange hm⟩
      · rw [h3] at h
        cases h
        exact ⟨c', h4⟩
      · rw [h3] at h
        cases h
        exact ⟨⟨c, hc.of_eq rfl rfl rfl rfl⟩, hi, increment_inRange hm⟩
    · obtain ⟨rfl, rfl⟩ : m = i ∧ firstTime = false := by simpa using hgo
      rw [step_leave] at h
      cases h
      exact ⟨c, hc⟩

/-! ## In the program's own terms -/

/-- The number of ordered pairs of positions of `S` whose product is `x`. -/
def productCount (ct : List (List Int)) (S : List Int) (x : Int) : Nat :=
  (Finset.univ.filter fun ij : Fin S.length × Fin S.length =>
    cell ct S[ij.1] S[ij.2] = .ok x).card

/-- The four pieces of state agree. -/
structure StateInv (d : Dims) (ct : List (List Int)) (e : ErrorCalc α) (s : St α) : Prop where
  length : s.mySet.length = d.k
  nodup : s.mySet.Nodup
  values : ∀ x ∈ s.mySet, 1 ≤ x ∧ x ≤ (d.n : Int) - 1
  isMember : s.isMember.length = d.n ∧
    ∀ x : Nat, x < d.n → vget s.isMember x = .ok (decide ((x : Int) ∈ s.mySet))
  sums : s.sums.length = d.n ∧
    ∀ x : Nat, x < d.n → vget s.sums x = .ok (productCount ct s.mySet x : α)
  curError : e.efs d s.mySet s.sums = .ok s.curError

/-- The invariant at the head of either loop. -/
def HeadInv (d : Dims) (ct : List (List Int)) (e : ErrorCalc α) : Cfg α → Prop
  | .outer s => StateInv d ct e s
  | .inner s _ mutation _ => StateInv d ct e s ∧
      (0 ≤ mutation.1 ∧ mutation.1 < d.k) ∧ 1 ≤ mutation.2 ∧ mutation.2 ≤ (d.n : Int) - 1

/-- `C` is reached at a loop head of `search` or `search_old`. -/
def Reached (v : Variant) (o : ArgOrder) (d : Dims) (ct : List (List Int)) (rs : Nat → Nat)
    (pos : Nat) (e : ErrorCalc α) (C : Cfg α) : Prop :=
  ∃ fuel s es, initSearch fuel d ct rs pos e = .ok s ∧
    Run (searchMachine v o d ct rs e) (.outer s) es C

omit [LinearOrder α] in
/-- The square of a list counts products of positions. -/
theorem productCount_ints {n : Nat} {T : Table n} (xs : List T.Elem) (x : T.Elem) :
    (productCount T.ct (T.ints xs) (T.idx x) : α) = (formal α xs * formal α xs).coeff x := by
  have hlen := T.length_ints xs
  have hcell : ∀ i j : Nat, (hi : i < xs.length) → (hj : j < xs.length) →
      (cell T.ct (T.ints xs)[i] (T.ints xs)[j] = .ok (T.idx x) ↔ xs[i] * xs[j] = x) := by
    intro i j hi hj
    simp [Table.ints]
  unfold productCount
  rw [coeff_formal_mul]
  congr 1
  apply Finset.card_bij' (fun ij _ => (Fin.cast hlen ij.1, Fin.cast hlen ij.2))
    (fun ij _ => (Fin.cast hlen.symm ij.1, Fin.cast hlen.symm ij.2))
  · intro ij hij
    rw [Finset.mem_filter] at hij ⊢
    have h1 := ij.1.isLt
    have h2 := ij.2.isLt
    exact ⟨Finset.mem_univ _, (hcell _ _ (by omega) (by omega)).1 hij.2⟩
  · intro ij hij
    rw [Finset.mem_filter] at hij ⊢
    exact ⟨Finset.mem_univ _, (hcell _ _ ij.1.isLt ij.2.isLt).2 hij.2⟩
  · intro ij _; rfl
  · intro ij _; rfl

omit [LinearOrder α] in
theorem productCount_eq (c : Candidate T) (x : T.Elem) :
    (productCount T.ct (T.ints c.xs) (T.idx x) : α) = (c.square α).coeff x :=
  productCount_ints c.xs x

omit [LinearOrder α] in
theorem Holds.stateInv (hM : Measures T e norm) {c : Candidate T} {s : St α} (h : Holds norm c s) :
    StateInv d T.ct e s := by
  obtain ⟨h1, h2, h3, h4⟩ := h
  constructor
  · rw [h1, T.length_ints, c.length_eq]
  · rw [h1]
    exact (T.nodup_ints c.xs).2 c.nodup
  · intro x hx
    rw [h1] at hx
    have := c.ints_bounds x hx
    omega
  · rw [h1]
    exact (indicates_ints_iff c.xs s.isMember).2 h2
  · rw [h3, h1]
    refine ⟨T.length_hist _, fun x hx => ?_⟩
    obtain ⟨y, hy⟩ := T.exists_idx x (by omega) (by omega)
    rw [← hy, T.vget_hist, productCount_eq]
  · rw [h1, h3, h4, efs_candidate hM]
    rfl

omit [LinearOrder α] in
theorem CfgInv.headInv (hM : Measures T e norm) {C : Cfg α} (h : CfgInv norm C) :
    HeadInv d T.ct e C := by
  cases C with
  | outer s =>
    obtain ⟨c, hc⟩ := h
    exact hc.stateInv hM
  | inner s i m firstTime =>
    obtain ⟨⟨c, hc⟩, -, hm⟩ := h
    exact ⟨hc.stateInv hM, hm.1, hm.2.1, by have := hm.2.2; omega⟩

/-- **Run lemma.** -/
theorem run_inv {v : Variant} {o : ArgOrder} {rs : Nat → Nat} (hM : Measures T e norm) {C C' : Cfg α}
    {es : List (Event α)} (h : Run (searchMachine v o d T.ct rs e) C es C') (hC : CfgInv norm C) :
    CfgInv norm C' := by
  have hstep : ∀ C es C', CfgInv norm C → (searchMachine v o d T.ct rs e).step C = .ok (.goto es C') →
      CfgInv norm C' := by
    intro C es C' hC h
    exact step_inv v o rs hM hC h
  exact h.inv (CfgInv norm) hstep hC

theorem Reached.cfgInv {v : Variant} {o : ArgOrder} {rs : Nat → Nat} {pos : Nat} {C : Cfg α}
    (h : Reached v o d T.ct rs pos e C) (hM : Measures T e norm) (hn : 0 < d.n) :
    CfgInv norm C := by
  obtain ⟨fuel, s, es, hs, hrun⟩ := h
  obtain ⟨c, hc, -⟩ := initSearch_ok rs hM hn fuel pos s hs
  exact run_inv hM hrun ⟨c, hc⟩

/-- **The invariant of the loop heads.**  In every configuration reached, the candidate list
holds `k` distinct values in `1 .. n-1`, the bitmap marks exactly these, the histogram counts
the products of pairs of positions, the error is that of the list, and the pair is in range. -/
theorem search_headInv (T : Table d.n) (hk : 1 ≤ d.k) (hkn : d.k ≤ d.n - 1) (e : ErrorCalc α)
    (he : e ∈ (calculators : List (ErrorCalc α))) (v : Variant) (o : ArgOrder) (rs : Nat → Nat)
    (pos : Nat) (C : Cfg α) (hC : Reached v o d T.ct rs pos e C) : HeadInv d T.ct e C := by
  have hn : 0 < d.n := by omega
  obtain ⟨norm, hM⟩ := exists_norm T hn e he
  exact (hC.cfgInv hM hn).headInv hM

/-- The first round, entered at the pair `(0, 4)`. -/
theorem search_headInv_round : HeadInv ⟨5, 2, 0, 1⟩ (cyclicTable 5).ct l1Error
    (.inner (⟨[1, 2], [false, true, true, false, false], [0, 0, 1, 2, 1], 4, 0, false, 0, 4⟩ : St Int)
      (0, 4) (0, 4) true) :=
  search_headInv (d := ⟨5, 2, 0, 1⟩) (cyclicTable 5).toTable (by decide) (by decide) l1Error
    (by simp [calculators]) .new .leftFirst id 0 _ ⟨5, _, _, rfl, .one rfl⟩

end PdsSearch
