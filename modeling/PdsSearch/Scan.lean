import PdsSearch.Invariant
import PdsSearch.Lib.Cycle
import PdsSearch.Lib.Descent

/-!
# A round of the outer loop is a scan

`increment` runs through all `k·(n-1)` pairs in range in one cycle, so the inner
loop of `search` tries every pair once and that of `search_old` every pair but
the initial one (`scanOrder`).  With these scans the candidates form a `Descent`,
and a complete run of either function is its sequence of rounds:

    Rounds (descent T norm v) start r c tr c' →
      the machine runs from any state that describes `c` to a halt at `c'`   (search_run)

with one block of events for each round: the round, then the iterations of its
inner loop, `span v d` at most.
-/

namespace PdsSearch

open Checked GroupRing

/-! ## The order of the pairs -/

/-- The pair number `t`, position by position. -/
def pairAt (d : Dims) (t : Nat) : Int × Int := ((t / (d.n - 1) : Nat), ((t % (d.n - 1) : Nat) : Int) + 1)

variable {d : Dims}

theorem increment_isCycle (hk : 0 < d.k) (hn : 1 < d.n) :
    IsCycle (increment d) (pairAt d) (d.k * (d.n - 1)) where
  inj := by
    intro s t _ _ h
    obtain ⟨h1, h2⟩ := Prod.mk.inj h
    have h1 : s / (d.n - 1) = t / (d.n - 1) := by exact_mod_cast h1
    have h2 : s % (d.n - 1) = t % (d.n - 1) := by omega
    rw [← Nat.div_add_mod s (d.n - 1), ← Nat.div_add_mod t (d.n - 1), h1, h2]
  next := by
    intro t ht
    obtain ⟨w, hw⟩ : ∃ w, d.n - 1 = w + 1 := ⟨d.n - 2, by omega⟩
    have hlt : t % (w + 1) < w + 1 := Nat.mod_lt _ (by omega)
    have hdm := Nat.div_add_mod t (w + 1)
    have hq : t / (w + 1) < d.k := by
      rw [Nat.div_lt_iff_lt_mul (by omega), ← hw]
      exact ht
    unfold increment pairAt
    rw [hw]
    by_cases hr : t % (w + 1) = w
    · -- a carry: `t + 1` is the first pair of the next position
      have hsucc : t + 1 = (w + 1) * (t / (w + 1) + 1) := by
        rw [Nat.mul_add, Nat.mul_one]
        omega
      by_cases hlast : t / (w + 1) = d.k - 1
      · have hN : t + 1 = d.k * (w + 1) := by
          rw [hsucc, hlast, Nat.sub_add_cancel hk, Nat.mul_comm]
        rw [if_pos ⟨by simp only; omega, by simp only; omega⟩, hN, Nat.mod_self]
        simp
      · have hlt' : t + 1 < d.k * (w + 1) := by
          rw [hsucc, Nat.mul_comm]
          exact Nat.mul_lt_mul_of_pos_right (by omega) (by omega)
        rw [if_neg (by simp only; omega), if_pos (by simp only; omega), Nat.mod_eq_of_lt hlt', hsucc,
          Nat.mul_div_cancel_left _ (by omega), Nat.mul_mod_right]
        push_cast
        rfl
    · have hlt' : t + 1 < d.k * (w + 1) := by
        have := Nat.mul_le_mul_left (w + 1) (Nat.succ_le_of_lt hq)
        rw [Nat.mul_comm d.k]
        rw [Nat.mul_succ] at this
        omega
      have h1 : (t + 1) / (w + 1) = t / (w + 1) := Nat.succ_div_of_not_dvd (by
        intro hdvd
        have := Nat.mod_eq_zero_of_dvd hdvd
        rw [Nat.add_mod] at this
        by_cases h0 : w = 0
        · omega
        · rw [Nat.mod_eq_of_lt (show 1 < w + 1 by omega), Nat.mod_eq_of_lt (by omega)] at this
          omega)
      have h2 : (t + 1) % (w + 1) = t % (w + 1) + 1 := by
        have := Nat.div_add_mod (t + 1) (w + 1)
        rw [h1] at this
        omega
      rw [if_neg (by simp only; omega), if_neg (by simp only; omega), Nat.mod_eq_of_lt hlt', h1, h2]
      push_cast
      rfl

theorem InRange.exists_pairAt {m : Int × Int} (h : InRange d m) :
    ∃ t, t < d.k * (d.n - 1) ∧ pairAt d t = m := by
  obtain ⟨⟨h1, h2⟩, h3, h4⟩ := h
  have hlt : (m.2 - 1).toNat < d.n - 1 := by omega
  refine ⟨m.1.toNat * (d.n - 1) + (m.2 - 1).toNat, ?_, ?_⟩
  · have := Nat.mul_le_mul_right (d.n - 1) (show m.1.toNat + 1 ≤ d.k by omega)
    rw [Nat.succ_mul] at this
    omega
  · unfold pairAt
    rw [Nat.mul_comm, Nat.mul_add_div (by omega), Nat.mul_add_mod, Nat.div_eq_of_lt hlt,
      Nat.mod_eq_of_lt hlt]
    refine Prod.ext ?_ ?_
    · simp only; omega
    · simp only; omega

/-- How many pairs a full scan tries. -/
def Variant.span (v : Variant) (d : Dims) : Nat :=
  match v with
  | .new => d.k * (d.n - 1)
  | .old => d.k * (d.n - 1) - 1

/-- The pairs of a full scan in the order they are tried. -/
def scanOrder (v : Variant) (d : Dims) (initialMutation : Int × Int) : List (Int × Int) :=
  List.iterate (increment d) (v.enter d initialMutation).1 (v.span d)

theorem increment_iterate_inRange {m : Int × Int} (hm : InRange d m) (j : Nat) :
    InRange d ((increment d)^[j] m) := by
  induction j with
  | zero => exact hm
  | succ j ih =>
    rw [Function.iterate_succ_apply']
    exact increment_inRange ih

theorem scanOrder_inRange (v : Variant) {i : Int × Int} (hi : InRange d i) :
    ∀ m ∈ scanOrder v d i, InRange d m := by
  intro m hm
  obtain ⟨j, -, rfl⟩ := List.mem_iterate.1 hm
  exact increment_iterate_inRange (enter_inRange v hi) j

theorem span_pos (hk : 0 < d.k) (hn : 1 < d.n) : 0 < d.k * (d.n - 1) :=
  Nat.mul_pos hk (by omega)

/-- `search_old` leaves out the initial pair, which `search` tries first. -/
theorem scanOrder_new (hk : 0 < d.k) (hn : 1 < d.n) (i : Int × Int) :
    scanOrder .new d i = i :: scanOrder .old d i := by
  have hN := span_pos hk hn
  show List.iterate (increment d) i (d.k * (d.n - 1)) = _
  rw [← Nat.sub_add_cancel (show 1 ≤ d.k * (d.n - 1) from hN)]
  rfl

/-- **The scan of `search` covers every pair in range.** -/
theorem mem_scanOrder (hk : 0 < d.k) (hn : 1 < d.n) {i m : Int × Int} (hi : InRange d i)
    (hm : InRange d m) : m ∈ scanOrder .new d i := by
  obtain ⟨s, hs, rfl⟩ := hm.exists_pairAt
  obtain ⟨t, ht, rfl⟩ := hi.exists_pairAt
  exact (increment_isCycle hk hn).mem_iterate hs ht

/-- The pair comes round after all the others. -/
theorem increment_return (hk : 0 < d.k) (hn : 1 < d.n) {i : Int × Int} (hi : InRange d i) :
    (increment d)^[d.k * (d.n - 1)] i = i ∧
    ∀ u, 0 < u → u < d.k * (d.n - 1) → (increment d)^[u] i ≠ i := by
  obtain ⟨t, ht, rfl⟩ := hi.exists_pairAt
  have hc := increment_isCycle hk hn
  exact ⟨hc.iterate_period ht, fun u => hc.iterate_ne ht⟩

/-! ## Events -/

/-- An iteration of the inner loop. -/
def Event.isIteration {α : Type} : Event α → Bool
  | .round .. => false
  | _ => true

/-- A round entered, or a swap made. -/
def Event.isMove {α : Type} : Event α → Bool
  | .round .. => true
  | .swap .. => true
  | _ => false

/-- The rounds an observer sees: the candidate list and the initial pair of each. -/
def rounds {α : Type} (es : List (Event α)) : List (List Int × (Int × Int)) :=
  es.filterMap fun ev =>
    match ev with
    | .round S i => some (S, i)
    | _ => none

section
variable {α : Type} [CommRing α] [LinearOrder α] {T : Table d.n} {e : ErrorCalc α}
  {norm : (T.Elem → α) → α}

/-- Candidates, swaps and the scans of `v`. -/
noncomputable def descent (T : Table d.n) (norm : (T.Elem → α) → α) (v : Variant) :
    Descent (Candidate T) (Int × Int) α where
  nbr := Candidate.swap
  cost c := c.err norm
  scan := scanOrder v d

theorem improve_of_none (v : Variant) {c : Candidate T} {m : Int × Int} (h : c.swap m = none) :
    (descent T norm v).improve c m = none := by
  apply (descent T norm v).improve_eq_none.2
  intro y hy
  change c.swap m = some y at hy
  rw [h] at hy
  cases hy

theorem improve_of_lt (v : Variant) {c c' : Candidate T} {m : Int × Int} (h : c.swap m = some c')
    (hlt : c'.err norm < c.err norm) : (descent T norm v).improve c m = some c' :=
  (descent T norm v).improve_eq_some.2 ⟨h, hlt⟩

theorem improve_of_not_lt (v : Variant) {c c' : Candidate T} {m : Int × Int}
    (h : c.swap m = some c') (hlt : ¬ c'.err norm < c.err norm) :
    (descent T norm v).improve c m = none := by
  apply (descent T norm v).improve_eq_none.2
  intro y hy
  change c.swap m = some y at hy
  rw [h] at hy
  cases hy
  exact not_lt.1 hlt

/-- The swap a scan made. -/
noncomputable def found (norm : (T.Elem → α) → α) :
    Option ((Int × Int) × Candidate T) → List (Event α)
  | none => []
  | some (m, c) => [.swap m (c.err norm)]

/-- The events of the rounds `tr`: each round entered, then its iterations, `bound` at most. -/
inductive Trace (norm : (T.Elem → α) → α) (bound : Nat) :
    List (Round (Candidate T) (Int × Int)) → List (Event α) → Prop
  | nil : Trace norm bound [] []
  | cons {ρ tr its es} : (∀ ev ∈ its, ev.isIteration = true) → its.length ≤ bound →
      its.filter Event.isMove = found norm ρ.found → Trace norm bound tr es →
      Trace norm bound (ρ :: tr) (.round (T.ints ρ.cur.xs) ρ.start :: (its ++ es))

omit [CommRing α] [LinearOrder α] in
theorem rounds_iterations {its : List (Event α)} (h : ∀ ev ∈ its, ev.isIteration = true) :
    rounds its = [] := by
  unfold rounds
  rw [List.filterMap_eq_nil_iff]
  intro ev hev
  cases ev with
  | round S i => exact absurd (h _ hev) (by simp [Event.isIteration])
  | skip m => rfl
  | reject m err => rfl
  | swap m err => rfl

omit [LinearOrder α] in
theorem Trace.rounds_eq {bound : Nat} {tr : List (Round (Candidate T) (Int × Int))}
    {es : List (Event α)} (h : Trace norm bound tr es) :
    rounds es = tr.map fun ρ => (T.ints ρ.cur.xs, ρ.start) := by
  induction h with
  | nil => rfl
  | @cons ρ tr its es hit _ _ _ ih =>
    have happ : rounds (its ++ es) = rounds es := by
      have := rounds_iterations hit
      unfold rounds at this ⊢
      rw [List.filterMap_append, this, List.nil_append]
    show (T.ints ρ.cur.xs, ρ.start) :: rounds (its ++ es) = _
    rw [happ, ih]
    rfl

omit [LinearOrder α] in
/-- The first event, if any, enters a round. -/
theorem Trace.takeWhile_eq_nil {bound : Nat} {tr : List (Round (Candidate T) (Int × Int))}
    {es : List (Event α)} (h : Trace norm bound tr es) : es.takeWhile Event.isIteration = [] := by
  cases h with
  | nil => rfl
  | cons => rfl

omit [LinearOrder α] in
/-- **After every round entered come `bound` iterations at most.** -/
theorem Trace.iterations_le {bound : Nat} {tr : List (Round (Candidate T) (Int × Int))}
    {es : List (Event α)} (h : Trace norm bound tr es) : ∀ (pre post : List (Event α)) S i,
    es = pre ++ .round S i :: post → (post.takeWhile Event.isIteration).length ≤ bound := by
  induction h with
  | nil =>
    intro pre post S i he
    cases pre with
    | nil => cases he
    | cons => cases he
  | @cons ρ tr its es hit hle _ htr ih =>
    intro pre post S i he
    cases pre with
    | nil =>
      obtain ⟨-, rfl⟩ := List.cons.inj he
      rw [List.takeWhile_append_of_pos hit, htr.takeWhile_eq_nil, List.append_nil]
      exact hle
    | cons ev pre =>
      obtain ⟨-, he⟩ := List.cons.inj he
      -- the round is not among the iterations of this block
      rcases List.append_eq_append_iff.1 he with ⟨pre', rfl, he'⟩ | ⟨its', rfl, he'⟩
      · exact ih pre' post S i he'
      · cases its' with
        | nil => exact ih [] post S i he'.symm
        | cons ev' its' =>
          obtain ⟨rfl, -⟩ := List.cons.inj he'
          exact absurd (hit (.round S i) (by simp)) (by simp [Event.isIteration])

/-! ## The inner loop -/

/-- What the iterations `es` of a round did to the state; `r` is the swap they made. -/
structure Scanned (norm : (T.Elem → α) → α) (c : Candidate T) (s s' : St α)
    (r : Option ((Int × Int) × Candidate T)) (bound : Nat) (es : List (Event α)) : Prop where
  holds : Holds norm ((r.map Prod.snd).getD c) s'
  pos : s'.pos = s.pos
  changedVal : s'.changedVal = (r.isSome || s.changedVal)
  iterations : ∀ ev ∈ es, ev.isIteration = true
  length_le : es.length ≤ bound
  moves : es.filter Event.isMove = found norm r

omit [LinearOrder α] in
/-- An iteration that made no swap comes before those of `es`. -/
theorem Scanned.cons {c : Candidate T} {s s₁ s' : St α} {r : Option ((Int × Int) × Candidate T)}
    {bound : Nat} {es : List (Event α)} (h : Scanned norm c s₁ s' r bound es) (ev : Event α)
    (hit : ev.isIteration = true) (hmv : ev.isMove = false) (hpos : s₁.pos = s.pos)
    (hch : s₁.changedVal = s.changedVal) : Scanned norm c s s' r (bound + 1) (ev :: es) where
  holds := h.holds
  pos := h.pos.trans hpos
  changedVal := by rw [h.changedVal, hch]
  iterations := by
    intro ev' hev'
    rcases List.mem_cons.1 hev' with rfl | hev'
    · exact hit
    · exact h.iterations ev' hev'
  length_le := Nat.succ_le_succ h.length_le
  moves := by rw [List.filter_cons_of_neg (by simp [hmv]), h.moves]

section
variable (v : Variant) (o : ArgOrder) (rs : Nat → Nat)

/-- **The inner loop** from a pair `j` increments before the initial one: it makes the first
improving swap of the `j` pairs left, if there is one. -/
theorem inner_run (hM : Measures T e norm) {c : Candidate T} {i : Int × Int} (j : Nat) :
    ∀ (m : Int × Int) (firstTime : Bool) (s : St α), Holds norm c s → InRange d m →
    (increment d)^[j] m = i → (∀ u, 0 < u → u < j → (increment d)^[u] m ≠ i) →
    (j = 0 → firstTime = false) → (0 < j → m ≠ i ∨ firstTime = true) →
    ∃ es s', Run (searchMachine v o d T.ct rs e) (.inner s i m firstTime) es (.outer s') ∧
      Scanned norm c s s' ((descent T norm v).firstImproving c (List.iterate (increment d) m j))
        j es := by
  induction j with
  | zero =>
    intro m firstTime s hs _ hi _ hflag _
    obtain rfl : m = i := hi
    obtain rfl : firstTime = false := hflag rfl
    exact ⟨[], s, .one (step_leave v o rs s m), hs, rfl, rfl, by simp, le_rfl, rfl⟩
  | succ j ih =>
    intro m firstTime s hs hm hi hne _ hgo
    -- one pair less is left after this one
    have hnext : ∀ s₁, Holds norm c s₁ → ∃ es s', Run (searchMachine v o d T.ct rs e)
        (.inner s₁ i (increment d m) false) es (.outer s') ∧ Scanned norm c s₁ s'
          ((descent T norm v).firstImproving c (List.iterate (increment d) (increment d m) j)) j es := by
      intro s₁ hs₁
      refine ih (increment d m) false s₁ hs₁ (increment_inRange hm) hi ?_ (fun _ => rfl) ?_
      · intro u hu hlt
        exact hne (u + 1) (by omega) (by omega)
      · intro hj
        exact .inl (hne 1 (by omega) (by omega))
    show ∃ es s', _ ∧ Scanned norm c s s' ((descent T norm v).firstImproving c
      (m :: List.iterate (increment d) (increment d m) j)) (j + 1) es
    rcases step_try v o rs hM hs hm (hgo (by omega)) with
      ⟨h1, h2⟩ | ⟨c', h1, hlt, s', h2, hs', hpos, hch⟩ | ⟨c', h1, hlt, h2⟩
    · rw [(descent T norm v).firstImproving_cons_none (improve_of_none v h1)]
      obtain ⟨es, s', hrun, hsc⟩ := hnext s hs
      exact ⟨_, s', .next h2 hrun, hsc.cons _ rfl rfl rfl rfl⟩
    · rw [(descent T norm v).firstImproving_cons_some (improve_of_lt v h1 hlt)]
      refine ⟨_, s', .one h2, hs', hpos, hch, ?_, ?_, rfl⟩
      · intro ev hev
        rw [List.mem_singleton.1 hev]
        rfl
      · show 1 ≤ j + 1
        omega
    · rw [(descent T norm v).firstImproving_cons_none (improve_of_not_lt v h1 hlt)]
      obtain ⟨es, s', hrun, hsc⟩ :=
        hnext { s with newError := c'.err norm } (hs.of_eq rfl rfl rfl rfl)
      exact ⟨_, s', .next h2 hrun, hsc.cons _ rfl rfl rfl rfl⟩

/-! ## The outer loop -/

/-- **A round**: one full scan from the drawn pair. -/
theorem round_run (hM : Measures T e norm) (hk : 0 < d.k) (hn : 1 < d.n) {c : Candidate T}
    {s : St α} (hs : Holds norm c s) (hgo : 0 < c.err norm ∧ s.changedVal = true)
    {i : Int × Int} (hdraw : drawMutation o d rs s.pos = .ok (i, s.pos + 2)) :
    ∃ es s', Run (searchMachine v o d T.ct rs e) (.outer s) (.round (T.ints c.xs) i :: es) (.outer s') ∧
      Scanned norm c { s with changedVal := false, pos := s.pos + 2 } s'
        ((descent T norm v).firstImproving c (scanOrder v d i)) (v.span d) es := by
  have hgo' : ((0 : Int) : α) < s.curError ∧ s.changedVal = true := by
    rw [Int.cast_zero, hs.curError]
    exact hgo
  obtain ⟨i', hdraw', hi, hstep⟩ := step_round (T := T) (e := e) v o rs hk hn s hgo'
  obtain ⟨rfl, -⟩ := Prod.mk.inj (Except.ok.inj (hdraw.symm.trans hdraw'))
  have hs₁ : Holds norm c { s with changedVal := false, pos := s.pos + 2 } := hs.of_eq rfl rfl rfl rfl
  obtain ⟨hret, hne⟩ := increment_return hk hn hi
  have hN := span_pos hk hn
  obtain ⟨M, hM1⟩ : ∃ M, d.k * (d.n - 1) = M + 1 := ⟨d.k * (d.n - 1) - 1, by omega⟩
  obtain ⟨es, s', hrun, hsc⟩ : ∃ es s', Run (searchMachine v o d T.ct rs e)
      (.inner { s with changedVal := false, pos := s.pos + 2 } i (v.enter d i).1 (v.enter d i).2) es
      (.outer s') ∧ Scanned norm c { s with changedVal := false, pos := s.pos + 2 } s'
        ((descent T norm v).firstImproving c (scanOrder v d i)) (v.span d) es := by
    apply inner_run v o rs hM (v.span d) _ _ _ hs₁ (enter_inRange v hi)
    · cases v with
      | new => exact hret
      | old =>
        show (increment d)^[d.k * (d.n - 1) - 1] (increment d i) = i
        rw [hM1] at hret ⊢
        exact hret
    · cases v with
      | new => exact hne
      | old =>
        intro u hu (hlt : u < d.k * (d.n - 1) - 1)
        exact hne (u + 1) (by omega) (by omega)
    · cases v with
      | new =>
        intro (h0 : d.k * (d.n - 1) = 0)
        omega
      | old => exact fun _ => rfl
    · cases v with
      | new => exact fun _ => .inr rfl
      | old =>
        intro (h0 : 0 < d.k * (d.n - 1) - 1)
        exact .inl (hne 1 (by omega) (by omega))
  have hround : Run (searchMachine v o d T.ct rs e) (.outer s) ([.round s.mySet i] ++ es) (.outer s') :=
    .next hstep hrun
  rw [hs.mySet] at hround
  exact ⟨es, s', hround, hsc⟩

/-- **The outer loop** goes through the rounds of the descent. -/
theorem search_run (hM : Measures T e norm) (hk : 0 < d.k) (hn : 1 < d.n) {start : Nat → Int × Int}
    {pos : Nat} (hdraw : ∀ r, drawMutation o d rs (pos + 2 * r) = .ok (start r, pos + 2 * r + 2))
    {r : Nat} {c c' : Candidate T} {tr : List (Round (Candidate T) (Int × Int))}
    (h : Rounds (descent T norm v) start r c tr c') : ∀ {s : St α}, Holds norm c s →
    s.changedVal = true → s.pos = pos + 2 * r →
    ∃ es s', Run (searchMachine v o d T.ct rs e) (.outer s) es (.outer s') ∧
      Trace norm (v.span d) tr es ∧
      searchStep v o d T.ct rs e (.outer s') =
        .ok (.halt ⟨T.ints c'.xs, c'.err norm, pos + 2 * (r + tr.length)⟩) := by
  induction h with
  | @done r c h0 =>
    intro s hs hch hpos
    refine ⟨[], s, .refl _, .nil, ?_⟩
    have h0 : ¬ 0 < c.err norm := h0
    rw [step_halt v o rs s (by rw [Int.cast_zero, hs.curError]; exact fun h => h0 h.1), hs.mySet,
      hs.curError, hpos]
    rfl
  | @stuck r c h0 hnone =>
    intro s hs hch hpos
    have hd := hdraw r
    rw [← hpos] at hd
    obtain ⟨es, s', hrun, hsc⟩ := round_run v o rs hM hk hn hs ⟨h0, hch⟩ hd
    change Scanned norm c _ s'
      ((descent T norm v).firstImproving c ((descent T norm v).scan (start r))) _ _ at hsc
    rw [hnone] at hsc
    refine ⟨_, s', hrun, ?_, ?_⟩
    · have := Trace.cons (ρ := ⟨c, start r, none⟩) hsc.iterations hsc.length_le hsc.moves .nil
      rwa [List.append_nil] at this
    · -- nothing was taken, so `changed_val` is still down
      have hch' : s'.changedVal = false := hsc.changedVal
      rw [step_halt v o rs s' (by rw [hch']; simp), hsc.holds.mySet, hsc.holds.curError, hsc.pos, hpos]
      rfl
  | @step r c m c₁ tr c' h0 hsome _ ih =>
    intro s hs hch hpos
    have hd := hdraw r
    rw [← hpos] at hd
    obtain ⟨es, s', hrun, hsc⟩ := round_run v o rs hM hk hn hs ⟨h0, hch⟩ hd
    change Scanned norm c _ s'
      ((descent T norm v).firstImproving c ((descent T norm v).scan (start r))) _ _ at hsc
    rw [hsome] at hsc
    have hpos' : s'.pos = pos + 2 * (r + 1) := by
      rw [hsc.pos]
      show s.pos + 2 = _
      omega
    obtain ⟨es', s'', hrun', htr, hhalt⟩ := ih hsc.holds hsc.changedVal hpos'
    refine ⟨_, s'', hrun.trans hrun', ?_, ?_⟩
    · exact Trace.cons (ρ := ⟨c, start r, some (m, c₁)⟩) hsc.iterations hsc.length_le hsc.moves htr
    · rw [hhalt, List.length_cons]
      have : r + 1 + tr.length = r + (tr.length + 1) := by omega
      rw [this]

/-! ## Complete runs -/

/-- The initial pairs of the rounds, from generator position `pos` on. -/
theorem exists_start (pos : Nat) (hk : 0 < d.k) (hn : 1 < d.n) : ∃ start : Nat → Int × Int,
    ∀ r, drawMutation o d rs (pos + 2 * r) = .ok (start r, pos + 2 * r + 2) ∧ InRange d (start r) := by
  choose start h using fun r => drawMutation_ok o rs (pos + 2 * r) hk hn
  exact ⟨start, h⟩

theorem localSearch_mono (pos : Nat) :
    FuelMono fun fuel => localSearch v fuel o d T.ct rs pos e :=
  (initSearch_mono rs pos).bind fun s => (searchMachine v o d T.ct rs e).exec_mono (.outer s)

/-- **A complete run**: from the start set, through the rounds of the descent. -/
theorem localSearch_returns (hM : Measures T e norm) (hk : 0 < d.k) (hn : 1 < d.n)
    {fuel pos pos' : Nat} {c c' : Candidate T}
    (hsel : selectStartSet fuel d rs pos (List.replicate d.k (-1)) (List.replicate d.n false) =
      .ok (T.ints c.xs, T.tab c.member, pos')) {start : Nat → Int × Int}
    (hdraw : ∀ r, drawMutation o d rs (pos' + 2 * r) = .ok (start r, pos' + 2 * r + 2))
    {tr : List (Round (Candidate T) (Int × Int))} (h : Rounds (descent T norm v) start 0 c tr c') :
    ∃ es, Trace norm (v.span d) tr es ∧
      Returns (fun fuel => localSearch v fuel o d T.ct rs pos e)
        (⟨T.ints c'.xs, c'.err norm, pos' + 2 * tr.length⟩, es) := by
  have hinit := initSearch_eq rs hM c fuel pos pos' hsel
  obtain ⟨es, s', hrun, htr, hhalt⟩ := search_run v o rs hM hk hn hdraw h
    (s := { mySet := T.ints c.xs, isMember := T.tab c.member, sums := T.hist (c.square α),
            curError := c.err norm, realSteps := 0, changedVal := true,
            newError := ((0 : Int) : α), pos := pos' }) ⟨rfl, rfl, rfl, rfl⟩ rfl rfl
  rw [Nat.zero_add] at hhalt
  obtain ⟨fuel', hexec⟩ := (searchMachine v o d T.ct rs e).exec_of_run hrun hhalt
  exact ⟨es, htr, (initSearch_mono rs pos).bind_returns
    (fun s => (searchMachine v o d T.ct rs e).exec_mono (.outer s)) hinit hexec⟩

/-- The run behind a returned pair. -/
theorem localSearch_of_search {fuel pos : Nat} {out : Outcome α}
    (h : search fuel o d T.ct rs pos e = .ok out) :
    ∃ es, localSearch .new fuel o d T.ct rs pos e = .ok (out, es) := by
  unfold search at h
  cases hl : localSearch .new fuel o d T.ct rs pos e with
  | error x => rw [hl] at h; cases h
  | ok r =>
    rw [hl] at h
    exact ⟨r.2, by rw [← Except.ok.inj h]⟩

/-- What `search` returns comes from a start set. -/
theorem select_of_localSearch (hn : 0 < d.n) {fuel pos : Nat} {r : Outcome α × List (Event α)}
    (h : localSearch v fuel o d T.ct rs pos e = .ok r) : ∃ (c : Candidate T) (pos' : Nat),
      selectStartSet fuel d rs pos (List.replicate d.k (-1)) (List.replicate d.n false) =
        .ok (T.ints c.xs, T.tab c.member, pos') := by
  obtain ⟨s, hinit, -⟩ := exists_of_bind h
  obtain ⟨⟨mySet, isMember, pos'⟩, hs, -⟩ := exists_of_bind hinit
  obtain ⟨c, rfl, rfl⟩ := selectStartSet_ok T rs hn fuel pos _ _ _ hs
  exact ⟨c, pos', hs⟩

/-- **The loops end**, from every start set. -/
theorem localSearch_complete (hM : Measures T e norm) (hk : 0 < d.k) (hn : 1 < d.n)
    {fuel pos pos' : Nat} {c : Candidate T}
    (hsel : selectStartSet fuel d rs pos (List.replicate d.k (-1)) (List.replicate d.n false) =
      .ok (T.ints c.xs, T.tab c.member, pos')) {start : Nat → Int × Int}
    (hdraw : ∀ r, drawMutation o d rs (pos' + 2 * r) = .ok (start r, pos' + 2 * r + 2)) :
    ∃ tr c' es, Rounds (descent T norm v) start 0 c tr c' ∧ Trace norm (v.span d) tr es ∧
      Returns (fun fuel => localSearch v fuel o d T.ct rs pos e)
        (⟨T.ints c'.xs, c'.err norm, pos' + 2 * tr.length⟩, es) := by
  obtain ⟨tr, c', h⟩ := exists_rounds (descent T norm v) (descent T norm v).wellFounded start 0 c
  obtain ⟨es, htr, hret⟩ := localSearch_returns v o rs hM hk hn hsel hdraw h
  exact ⟨tr, c', es, h, htr, hret⟩

/-- What was returned is where the rounds of the descent end. -/
theorem rounds_of_localSearch (hM : Measures T e norm) (hk : 0 < d.k) (hn : 1 < d.n)
    {fuel pos : Nat} {out : Outcome α} {es : List (Event α)}
    (h : localSearch v fuel o d T.ct rs pos e = .ok (out, es)) :
    ∃ (start : Nat → Int × Int) (c c' : Candidate T) (tr : List (Round (Candidate T) (Int × Int)))
      (pos' : Nat), (∀ r, InRange d (start r)) ∧ Rounds (descent T norm v) start 0 c tr c' ∧
      Trace norm (v.span d) tr es ∧ out = ⟨T.ints c'.xs, c'.err norm, pos' + 2 * tr.length⟩ := by
  obtain ⟨c, pos', hsel⟩ := select_of_localSearch v o rs (by omega) h
  obtain ⟨start, hdraw⟩ := exists_start (d := d) o rs pos' hk hn
  obtain ⟨tr, c', es', hR, htr, hret⟩ :=
    localSearch_complete v o rs hM hk hn hsel fun r => (hdraw r).1
  obtain ⟨rfl, rfl⟩ := Prod.mk.inj (hret.2 fuel _ h)
  exact ⟨start, c, c', tr, pos', fun r => (hdraw r).2, hR, htr, rfl⟩

end

end

end PdsSearch
