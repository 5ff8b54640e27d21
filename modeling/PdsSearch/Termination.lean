import PdsSearch.Scan

/-!
# What a run costs, and where it ends

    initial error E₀ → at most E₀ rounds, each of at most span iterations,
      every swap lowers the error, no set comes back           (search_terminates)
    search = .ok ⟨S, err, _⟩, 0 < err → no neighbour of S is better
                                                               (search_local_minimum)
-/

namespace PdsSearch

open Checked

variable {d : Dims}

/-! ## Progress of a step -/

section
variable {α : Type} [CommRing α] [LinearOrder α] {T : Table d.n} {e : ErrorCalc α}
  {norm : (T.Elem → α) → α}

/-- A step either makes one swap, which lowers the error, or leaves list and error alone. -/
theorem step_progress (v : Variant) (o : ArgOrder) (rs : Nat → Nat) (hM : Measures T e norm)
    {C C' : Cfg α} {es : List (Event α)} (hC : CfgInv norm C)
    (h : searchStep v o d T.ct rs e C = .ok (.goto es C')) :
    ((∀ m err, .swap m err ∉ es) ∧ C'.st.mySet = C.st.mySet ∧ C'.st.curError = C.st.curError) ∨
    ((∃ m err, .swap m err ∈ es) ∧ C'.st.curError < C.st.curError) := by
  cases C with
  | outer s =>
    obtain ⟨hk, hn⟩ := draws_of_step v o rs h
    by_cases hgo : ((0 : Int) : α) < s.curError ∧ s.changedVal = true
    · obtain ⟨i, -, -, hstep⟩ := step_round (T := T) (e := e) v o rs hk hn s hgo
      rw [hstep] at h
      cases h
      exact .inl ⟨by simp, rfl, rfl⟩
    · rw [step_halt v o rs s hgo] at h
      cases h
  | inner s i m firstTime =>
    obtain ⟨⟨c, hc⟩, -, hm⟩ := hC
    by_cases hgo : m ≠ i ∨ firstTime = true
    · rcases step_try v o rs hM hc hm hgo with
        ⟨-, h2⟩ | ⟨c', -, hlt, s', h3, h4, -⟩ | ⟨c', -, -, h3⟩
      · rw [h2] at h
        cases h
        exact .inl ⟨by simp, rfl, rfl⟩
      · rw [h3] at h
        cases h
        refine .inr ⟨⟨m, _, List.mem_singleton_self _⟩, ?_⟩
        show s'.curError < s.curError
        rw [h4.curError, hc.curError]
        exact hlt
      · rw [h3] at h
        cases h
        exact .inl ⟨by simp, rfl, rfl⟩
    · obtain ⟨rfl, rfl⟩ : m = i ∧ firstTime = false := by simpa using hgo
      rw [step_leave] at h
      cases h
      exact .inl ⟨by simp, rfl, rfl⟩

/-- **Run lemma**: without a swap nothing changes, with one the error falls. -/
theorem run_progress (v : Variant) (o : ArgOrder) (rs : Nat → Nat) (hM : Measures T e norm)
    {C C' : Cfg α} {es : List (Event α)}
    (h : Run (searchMachine v o d T.ct rs e) C es C') (hC : CfgInv norm C) : CfgInv norm C' ∧
    (((∀ m err, .swap m err ∉ es) ∧ C'.st.mySet = C.st.mySet ∧ C'.st.curError = C.st.curError) ∨
      ((∃ m err, .swap m err ∈ es) ∧ C'.st.curError < C.st.curError)) := by
  induction h with
  | refl => exact ⟨hC, .inl ⟨by simp, rfl, rfl⟩⟩
  | next hstep _ ih =>
    obtain ⟨hC', hrest⟩ := ih (step_inv v o rs hM hC hstep)
    refine ⟨hC', ?_⟩
    rcases step_progress v o rs hM hC hstep with ⟨h1, h2, h3⟩ | ⟨⟨m, err, hmem⟩, h3⟩
    · rcases hrest with ⟨h4, h5, h6⟩ | ⟨⟨m, err, hmem⟩, h6⟩
      · left
        refine ⟨?_, h5.trans h2, h6.trans h3⟩
        intro m err hmem
        rcases List.mem_append.1 hmem with h | h
        · exact h1 m err h
        · exact h4 m err h
      · refine .inr ⟨⟨m, err, List.mem_append_right _ hmem⟩, ?_⟩
        rwa [h3] at h6
    · refine .inr ⟨⟨m, err, List.mem_append_left _ hmem⟩, ?_⟩
      rcases hrest with ⟨-, -, h6⟩ | ⟨-, h6⟩
      · rwa [h6]
      · exact h6.trans h3

omit [LinearOrder α] in
/-- The same set has the same error. -/
theorem Holds.curError_eq {c c' : Candidate T} {s s' : St α} (h : Holds norm c s)
    (h' : Holds norm c' s') (hset : ∀ x, x ∈ s'.mySet ↔ x ∈ s.mySet) : s'.curError = s.curError := by
  have hperm : c'.xs.Perm c.xs := by
    rw [List.perm_ext_iff_of_nodup c'.nodup c.nodup]
    intro x
    have := hset (T.idx x)
    rwa [h'.mySet, h.mySet, T.idx_mem_ints, T.idx_mem_ints] at this
  rw [h'.curError, h.curError]
  exact Candidate.err_eq_of_perm hperm

end

/-! ## Top theorems -/

/-- **The search terminates.**  From a start set of error `E₀` either function returns after
at most `E₀` rounds; the inner loop of a round makes at most `span v d` iterations (`k·(n-1)`,
one less for `search_old`); a swap lowers the error and the set is never the current one
again, and between swaps the list stays as it is. -/
theorem search_terminates (T : Table d.n) (hk : 1 ≤ d.k) (hkn : d.k ≤ d.n - 1) (e : ErrorCalc Int)
    (he : e ∈ calculators) (v : Variant) (o : ArgOrder) (rs : Nat → Nat) (fuel pos pos' : Nat)
    (S : List Int) (isMember : List Bool) (E₀ : Int)
    (hsel : selectStartSet fuel d rs pos (List.replicate d.k (-1)) (List.replicate d.n false) =
      .ok (S, isMember, pos'))
    (hE : error d T.ct S e = .ok E₀) :
    (∃ out es, Returns (fun fuel => localSearch v fuel o d T.ct rs pos e) (out, es) ∧
      ((rounds es).length : Int) ≤ E₀ ∧
      ∀ pre post S i, es = pre ++ .round S i :: post →
        (post.takeWhile Event.isIteration).length ≤ v.span d) ∧
    ∀ C es C', Reached v o d T.ct rs pos e C → Run (searchMachine v o d T.ct rs e) C es C' →
      (∀ m err, .swap m err ∈ es → C'.st.curError < C.st.curError ∧
        ¬ ∀ x, x ∈ C'.st.mySet ↔ x ∈ C.st.mySet) ∧
      ((∀ m err, .swap m err ∉ es) → C'.st.mySet = C.st.mySet) := by
  have hn : 1 < d.n := by omega
  obtain ⟨norm, hM, h0, -⟩ := exists_norm_int T (by omega) e he
  constructor
  · obtain ⟨c, rfl, rfl⟩ := selectStartSet_ok T rs (by omega) fuel pos _ _ _ hsel
    obtain ⟨start, hdraw⟩ := exists_start (d := d) o rs pos' hk hn
    obtain ⟨tr, c', es, hR, htr, hret⟩ :=
      localSearch_complete v o rs hM hk hn hsel fun r => (hdraw r).1
    refine ⟨_, es, hret, ?_, htr.iterations_le⟩
    have hlen : (tr.length : Int) ≤ c.err norm := hR.length_le (h0 _) fun x => h0 _
    rw [error_candidate hM] at hE
    rw [htr.rounds_eq, List.length_map, ← Except.ok.inj hE]
    exact hlen
  · intro C es C' hC hrun
    have hinv := hC.cfgInv hM (by omega)
    obtain ⟨hinv', hprog⟩ := run_progress v o rs hM hrun hinv
    constructor
    · intro m err hmem
      have hlt : C'.st.curError < C.st.curError := by
        rcases hprog with ⟨h1, -⟩ | ⟨-, h⟩
        · exact absurd hmem (h1 m err)
        · exact h
      refine ⟨hlt, fun hset => ?_⟩
      obtain ⟨c, hc⟩ := hinv.holds
      obtain ⟨c', hc'⟩ := hinv'.holds
      have := hc.curError_eq hc' hset
      omega
    · intro hno
      rcases hprog with ⟨-, h, -⟩ | ⟨⟨m, err, hmem⟩, -⟩
      · exact h
      · exact absurd hmem (hno m err)

/-- From the set `{1, 2}` of error 4. -/
theorem search_terminates_cyclic : ∃ out es,
    Returns (fun fuel => localSearch .new fuel .leftFirst ⟨5, 2, 0, 1⟩ (cyclicTable 5).ct id 0 l1Error)
      (out, es) ∧ ((rounds es).length : Int) ≤ 4 :=
  have h := search_terminates (d := ⟨5, 2, 0, 1⟩) (cyclicTable 5).toTable (by decide) (by decide) l1Error
    (by simp [calculators]) .new .leftFirst id 5 0 2 [1, 2] [false, true, true, false, false] 4 rfl rfl
  let ⟨out, es, hret, hrounds, _⟩ := h.1
  ⟨out, es, hret, hrounds⟩

/-- **A local minimum.**  When `search` comes back with a positive error, no list of the
elements of the set with one replaced by another nonidentity element has a lower one. -/
theorem search_local_minimum (T : Table d.n) (hk : 1 ≤ d.k) (e : ErrorCalc Int)
    (he : e ∈ calculators) (o : ArgOrder) (rs : Nat → Nat) (fuel pos pos' : Nat) (S : List Int)
    (err : Int) (h : search fuel o d T.ct rs pos e = .ok ⟨S, err, pos'⟩) (hpos : 0 < err)
    (a b : Int) (ha : a ∈ S) (hb : b ∉ S) (hb1 : 1 ≤ b) (hbn : b < d.n) (S' : List Int)
    (hS' : S'.Perm (b :: S.erase a)) :
    ∃ err', error d T.ct S' e = .ok err' ∧ err ≤ err' := by
  have hn : 1 < d.n := by omega
  obtain ⟨norm, hM⟩ := exists_norm T (by omega) e he
  obtain ⟨es, hloc⟩ := localSearch_of_search o rs h
  obtain ⟨start, c₀, c, tr, pos₀, hstart, hR, -, hout⟩ :=
    rounds_of_localSearch .new o rs hM hk hn hloc
  obtain ⟨rfl, rfl, -⟩ := Outcome.mk.inj hout
  -- the last scan took nothing, and it tried every pair
  obtain ⟨r, hnone⟩ := hR.final hpos
  obtain ⟨x, hx, rfl⟩ := List.mem_map.1 ha
  obtain ⟨p, hp, rfl⟩ := List.getElem_of_mem hx
  obtain ⟨y, rfl⟩ := T.exists_idx b (by omega) hbn
  have hyx : y ∉ c.xs := by rwa [T.idx_mem_ints] at hb
  have hpk : p < d.k := by rwa [c.length_eq] at hp
  have hy : T.idx y ≠ 0 := by omega
  have hswap : c.swap ((p : Int), T.idx y) = some (c.set p y hpk hy hyx) := by
    rw [c.swap_elem p y hpk hy, dif_pos hyx]
  have hm : InRange d ((p : Int), T.idx y) := ⟨⟨by simp, by simpa using hpk⟩, hb1, hbn⟩
  have hle : c.err norm ≤ (c.set p y hpk hy hyx).err norm :=
    (descent T norm .new).improve_eq_none.1
      ((descent T norm .new).firstImproving_eq_none.1 hnone _ (mem_scanOrder hk hn (hstart r) hm))
      _ hswap
  -- any order of the new set has the same error
  have hperm : S'.Perm (T.ints (c.set p y hpk hy hyx).xs) := by
    have hp' : p < (T.ints c.xs).length := by rwa [T.length_ints]
    have hset : T.ints (c.set p y hpk hy hyx).xs = (T.ints c.xs).set p (T.idx y) :=
      (T.ints_set _ _ _).symm
    have hget : T.idx c.xs[p] = (T.ints c.xs)[p] := by simp [Table.ints]
    rw [hset]
    apply hS'.trans
    rw [hget, ((T.nodup_ints _).2 c.nodup).erase_getElem p hp']
    exact (List.set_perm_cons_eraseIdx hp' _).symm
  obtain ⟨c', rfl, hperm'⟩ := Candidate.exists_of_perm _ S' hperm
  refine ⟨_, error_candidate hM c', ?_⟩
  rwa [Candidate.err_eq_of_perm hperm']

/-- `{1, 4}` in the cyclic group of order 5, returned with error 2. -/
theorem search_local_minimum_five :
    ∃ err', error ⟨5, 2, 0, 0⟩ (cyclicTable 5).ct [4, 2] l1Error = .ok err' ∧ (2 : Int) ≤ err' :=
  search_local_minimum (d := ⟨5, 2, 0, 0⟩) (cyclicTable 5).toTable (by decide) l1Error
    (by simp [calculators]) .leftFirst id 40 0 6 [1, 4] 2 rfl (by decide) 1 2 (by decide) (by decide)
    (by decide) (by decide) [4, 2] (by decide)

end PdsSearch
