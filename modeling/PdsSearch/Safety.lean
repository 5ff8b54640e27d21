import PdsSearch.Invariant

/-!
# No access leaves its array

Every index and every remainder of the model is tested.  Where the loop
invariant holds no test fails (`step_total`), before the loops only the draws
can go on for ever (`initSearch_timeout`), and so

    search fuel o d T.ct rs pos e = .error x → x = .timeout         (search_in_bounds)

for every table with entries in range, every calculator and every stream of
random values.
-/

namespace PdsSearch

open Checked GroupRing

variable {α : Type} [CommRing α] [LinearOrder α] {d : Dims} {T : Table d.n} {e : ErrorCalc α}
  {norm : (T.Elem → α) → α}

/-- **No step stops.** -/
theorem step_total (v : Variant) (o : ArgOrder) (rs : Nat → Nat) (hM : Measures T e norm) (hk : 0 < d.k)
    (hn : 1 < d.n) {C : Cfg α} (hC : CfgInv norm C) :
    ∃ next, searchStep v o d T.ct rs e C = .ok next := by
  cases C with
  | outer s =>
    by_cases hgo : ((0 : Int) : α) < s.curError ∧ s.changedVal = true
    · obtain ⟨i, -, -, hstep⟩ := step_round (T := T) (e := e) v o rs hk hn s hgo
      exact ⟨_, hstep⟩
    · exact ⟨_, step_halt v o rs s hgo⟩
  | inner s i m firstTime =>
    obtain ⟨⟨c, hc⟩, -, hm⟩ := hC
    by_cases hgo : m ≠ i ∨ firstTime = true
    · rcases step_try v o rs hM hc hm hgo with ⟨-, h⟩ | ⟨c', -, -, s', h, -⟩ | ⟨c', -, -, h⟩
      · exact ⟨_, h⟩
      · exact ⟨_, h⟩
      · exact ⟨_, h⟩
    · obtain ⟨rfl, rfl⟩ : m = i ∧ firstTime = false := by simpa using hgo
      exact ⟨_, step_leave v o rs s m⟩

omit [LinearOrder α] in
/-- Before the loops only the rejection loop can fail to end. -/
theorem initSearch_timeout (rs : Nat → Nat) (hM : Measures T e norm)
    (hn : 2 ≤ d.n) {fuel pos : Nat} {x : Stop} (h : initSearch fuel d T.ct rs pos e = .error x) :
    x = .timeout := by
  have hlen : (List.replicate d.k (-1 : Int)).length = d.k := List.length_replicate
  rcases selectStartSet_result rs pos hn hlen fuel with hs | ⟨m, -, hs⟩
  · unfold initSearch at h
    simp only [hs] at h
    exact (Except.error.inj h).symm
  · obtain ⟨c, hxs, hm⟩ := selectStartSet_ok T rs (by omega) fuel pos _ _ _ hs
    rw [hxs, hm] at hs
    rw [initSearch_eq rs hM c fuel pos _ hs] at h
    cases h

/-- Neither function stops at an index or a remainder. -/
theorem localSearch_timeout (v : Variant) (o : ArgOrder) (rs : Nat → Nat) (hM : Measures T e norm)
    (hk : 0 < d.k) (hn : 2 ≤ d.n) {fuel pos : Nat} {x : Stop}
    (h : localSearch v fuel o d T.ct rs pos e = .error x) : x = .timeout := by
  unfold localSearch at h
  cases hs : initSearch fuel d T.ct rs pos e with
  | error y =>
    rw [hs] at h
    rw [← Except.error.inj h]
    exact initSearch_timeout rs hM hn hs
  | ok s =>
    obtain ⟨c, hc, -⟩ := initSearch_ok rs hM (by omega) fuel pos s hs
    rw [hs, ok_bind] at h
    refine (searchMachine v o d T.ct rs e).exec_timeout (CfgInv norm) ?_ ?_ (s := .outer s) ⟨c, hc⟩ h
    · exact fun C es C' hC hstep => step_inv v o rs hM hC hstep
    · exact fun C hC => step_total v o rs hM hk hn hC

/-! ## Top theorem -/

/-- **No access leaves its array.**  Whatever the table, the calculator, the random values and
the order of a round's two draws: `search` and `search_old` never stop at an index out of range
or a remainder by zero, in no configuration of their loops does the next step, and the
placeholder `-1` is gone from `my_set` before the first one. -/
theorem search_in_bounds (T : Table d.n) (hn : 2 ≤ d.n) (hk : 1 ≤ d.k) (e : ErrorCalc α)
    (he : e ∈ (calculators : List (ErrorCalc α))) (o : ArgOrder) (rs : Nat → Nat) (pos : Nat) :
    (∀ fuel x, search fuel o d T.ct rs pos e = .error x → x = .timeout) ∧
    (∀ fuel x, searchOld fuel o d T.ct rs pos e = .error x → x = .timeout) ∧
    ∀ v C, Reached v o d T.ct rs pos e C →
      (∃ next, searchStep v o d T.ct rs e C = .ok next) ∧ -1 ∉ C.st.mySet := by
  obtain ⟨norm, hM⟩ := exists_norm T (by omega) e he
  have hlocal : ∀ v fuel x, Prod.fst <$> localSearch v fuel o d T.ct rs pos e = .error x →
      x = .timeout := by
    intro v fuel x h
    cases hl : localSearch v fuel o d T.ct rs pos e with
    | error y =>
      rw [hl] at h
      rw [← Except.error.inj h]
      exact localSearch_timeout v o rs hM hk hn hl
    | ok r => rw [hl] at h; cases h
  refine ⟨hlocal .new, hlocal .old, fun v C hC => ?_⟩
  have hinv := hC.cfgInv hM (by omega)
  refine ⟨step_total v o rs hM hk hn hinv, fun hmem => ?_⟩
  obtain ⟨c, hc⟩ := hinv.holds
  rw [hc.mySet] at hmem
  have := c.ints_bounds (-1) hmem
  omega

/-- The first step of the first round, from the start set `{1, 2}` in order 5. -/
theorem search_in_bounds_cyclic : ∃ next,
    searchStep .new .leftFirst ⟨5, 2, 0, 1⟩ (cyclicTable 5).ct id l1Error
      (.outer (⟨[1, 2], [false, true, true, false, false], [0, 0, 1, 2, 1], 4, 0, true, 0, 2⟩ : St Int)) =
        .ok next :=
  ((search_in_bounds (d := ⟨5, 2, 0, 1⟩) (cyclicTable 5).toTable (by decide) (by decide) l1Error
    (by simp [calculators]) .leftFirst id 0).2.2 .new _ ⟨5, _, _, rfl, .refl _⟩).1

end PdsSearch
