import PdsSearch.Scan

/-!
# A round that accepts nothing tries every neighbour once

The pairs of a scan are the `k·(n-1)` pairs in range, each once
(`mem_scanOrder_iff`, `nodup_scanOrder`).  A round in which no swap is made is
the whole scan, one event for each pair (`round_quiet`), and two pairs whose
values are not members make different sets (`swapped_inj`).  Together:

    the sets evaluated are the k·(n-1-k) neighbours of my_set, each once
                                                       (search_round_evaluates)
-/

namespace PdsSearch

open Checked GroupRing

variable {d : Dims}

/-! ## The pairs of a scan -/

theorem nodup_scanOrder (hk : 0 < d.k) (hn : 1 < d.n) {i : Int × Int} (hi : InRange d i) :
    (scanOrder .new d i).Nodup := by
  obtain ⟨t, ht, rfl⟩ := hi.exists_pairAt
  exact (increment_isCycle hk hn).nodup_iterate ht

theorem mem_scanOrder_iff (hk : 0 < d.k) (hn : 1 < d.n) {i : Int × Int} (hi : InRange d i)
    (m : Int × Int) : m ∈ scanOrder .new d i ↔ InRange d m :=
  ⟨scanOrder_inRange .new hi m, mem_scanOrder hk hn hi⟩

/-! ## The sets the pairs make -/

/-- The list after a mutation. -/
def swapped (S : List Int) (m : Int × Int) : List Int := S.set m.1.toNat m.2

/-- `N` is the set `S` with one element replaced by a nonidentity one that is not in it. -/
def IsNeighbour (d : Dims) (S : List Int) (N : Finset Int) : Prop :=
  ∃ a ∈ S, ∃ b, 1 ≤ b ∧ b < (d.n : Int) ∧ b ∉ S ∧ N = insert b (S.toFinset.erase a)

/-- The lists whose error is computed by the iterations `es` on the list `S`. -/
def evaluated {α : Type} (S : List Int) (es : List (Event α)) : List (List Int) :=
  es.filterMap fun ev =>
    match ev with
    | .reject m _ => some (swapped S m)
    | .swap m _ => some (swapped S m)
    | _ => none

section
variable {S : List Int} (hlen : S.length = d.k) (hnd : S.Nodup)

include hlen hnd

theorem mem_swapped {m : Int × Int} (hm : InRange d m) : ∃ (p : Nat) (hp : p < S.length),
    m.1 = p ∧ ∀ x, x ∈ swapped S m ↔ x = m.2 ∨ (x ∈ S ∧ x ≠ S[p]) := by
  obtain ⟨⟨h1, h2⟩, -⟩ := hm
  have hp : m.1.toNat < S.length := by omega
  exact ⟨m.1.toNat, hp, by omega, mem_set_of_nodup hnd hp m.2⟩

/-- **Different pairs make different sets.** -/
theorem swapped_inj {m m' : Int × Int} (hm : InRange d m) (hm' : InRange d m') (hb : m.2 ∉ S)
    (h : (swapped S m).toFinset = (swapped S m').toFinset) : m = m' := by
  obtain ⟨p, hp, h1, hmem⟩ := mem_swapped hlen hnd hm
  obtain ⟨p', hp', h1', hmem'⟩ := mem_swapped hlen hnd hm'
  have hiff : ∀ x, x ∈ swapped S m ↔ x ∈ swapped S m' := by
    intro x
    have := congrArg (x ∈ ·) h
    simpa using this
  -- the value is the one element that is new
  have h2 : m.2 = m'.2 := by
    have hin : m.2 ∈ swapped S m' := (hiff _).1 ((hmem _).2 (.inl rfl))
    rcases (hmem' _).1 hin with heq | ⟨hS, -⟩
    · exact heq
    · exact absurd hS hb
  -- the position is that of the one element that is gone
  have hgone : S[p] ∉ swapped S m' := by
    intro hin
    rcases (hmem _).1 ((hiff _).2 hin) with heq | ⟨-, hne⟩
    · exact hb (heq ▸ List.getElem_mem hp)
    · exact hne rfl
  have hp_eq : p = p' := by
    by_contra hne
    apply hgone
    refine (hmem' _).2 (.inr ⟨List.getElem_mem hp, fun heq => hne ?_⟩)
    exact (hnd.getElem_inj_iff).1 heq
  exact Prod.ext (by omega) h2

/-- The neighbours are the sets the pairs in range make. -/
theorem isNeighbour_iff (N : Finset Int) : IsNeighbour d S N ↔
    ∃ m, InRange d m ∧ m.2 ∉ S ∧ (swapped S m).toFinset = N := by
  constructor
  · rintro ⟨a, ha, b, h1, h2, hb, rfl⟩
    obtain ⟨p, hp, rfl⟩ := List.getElem_of_mem ha
    have hm : InRange d ((p : Int), b) := ⟨⟨by simp, by simp only; omega⟩, h1, h2⟩
    obtain ⟨p', hp', h1', hmem⟩ := mem_swapped hlen hnd hm
    obtain rfl : p = p' := by
      have : (p : Int) = p' := h1'
      omega
    refine ⟨_, hm, hb, ?_⟩
    ext x
    rw [List.mem_toFinset, hmem, Finset.mem_insert, Finset.mem_erase, List.mem_toFinset, and_comm]
  · rintro ⟨m, hm, hb, rfl⟩
    obtain ⟨p, hp, h1, hmem⟩ := mem_swapped hlen hnd hm
    refine ⟨S[p], List.getElem_mem hp, m.2, hm.2.1, hm.2.2, hb, ?_⟩
    ext x
    rw [List.mem_toFinset, hmem, Finset.mem_insert, Finset.mem_erase, List.mem_toFinset, and_comm]

omit hlen in
/-- How many pairs have a value that is not a member. -/
theorem length_nonmember (hS : ∀ x ∈ S, 1 ≤ x ∧ x < d.n) {l : List (Int × Int)} (hl : l.Nodup)
    (hmem : ∀ m, m ∈ l ↔ InRange d m) :
    (l.filter fun m => decide (m.2 ∉ S)).length = d.k * (d.n - 1 - S.length) := by
  have hset : (l.filter fun m => decide (m.2 ∉ S)).toFinset =
      (Finset.Ico (0 : Int) d.k) ×ˢ (Finset.Ico (1 : Int) d.n \ S.toFinset) := by
    ext m
    rw [List.mem_toFinset, List.mem_filter, hmem, Finset.mem_product, Finset.mem_sdiff,
      Finset.mem_Ico, Finset.mem_Ico, List.mem_toFinset, decide_eq_true_iff, ← and_assoc]
    rfl
  have hsub : S.toFinset ⊆ Finset.Ico (1 : Int) d.n := by
    intro x hx
    exact Finset.mem_Ico.2 (hS x (List.mem_toFinset.1 hx))
  rw [← List.toFinset_card_of_nodup (hl.filter _), hset, Finset.card_product,
    Finset.card_sdiff_of_subset hsub, List.toFinset_card_of_nodup hnd, Int.card_Ico, Int.card_Ico]
  have h1 : ((d.k : Int) - 0).toNat = d.k := by omega
  have h2 : ((d.n : Int) - 1).toNat = d.n - 1 := by omega
  rw [h1, h2]

end

/-! ## A round without a swap -/

section
variable {α : Type} [CommRing α] [LinearOrder α] {T : Table d.n} {e : ErrorCalc α}
  {norm : (T.Elem → α) → α}

/-- What an iteration shows that makes no swap. -/
noncomputable def quiet (norm : (T.Elem → α) → α) (c : Candidate T) (m : Int × Int) : Event α :=
  match c.swap m with
  | none => .skip m
  | some c' => .reject m (c'.err norm)

section
variable (v : Variant) (o : ArgOrder) (rs : Nat → Nat)

/-- The outer loop goes on only by entering a round. -/
theorem outer_event {s : St α} {es : List (Event α)} {C : Cfg α}
    (h : searchStep v o d T.ct rs e (.outer s) = .ok (.goto es C)) : ∃ i, es = [.round s.mySet i] := by
  rw [searchStep] at h
  split at h
  · obtain ⟨r, -, h⟩ := exists_of_bind h
    cases h
    exact ⟨_, rfl⟩
  · cases h

/-- Without a move the outer loop stays where it is. -/
theorem outer_quiet {s : St α} {C : Cfg α} {es : List (Event α)}
    (h : Run (searchMachine v o d T.ct rs e) (.outer s) es C) (hno : ∀ ev ∈ es, ev.isMove = false) :
    es = [] := by
  rcases h.first with ⟨-, rfl⟩ | ⟨C', es₁, es₂, hstep, -, rfl⟩
  · rfl
  · obtain ⟨i, rfl⟩ := outer_event (T := T) (e := e) v o rs hstep
    exact absurd (hno (.round s.mySet i) (by simp)) (by simp [Event.isMove])

/-- **The inner loop without a swap** from a pair `j` increments before the initial one shows
these `j` pairs. -/
theorem inner_quiet (hM : Measures T e norm) {c : Candidate T} {i : Int × Int} {s' : St α} (j : Nat) :
    ∀ (m : Int × Int) (firstTime : Bool) (s : St α) (es : List (Event α)), Holds norm c s →
    InRange d m → (increment d)^[j] m = i → (∀ u, 0 < u → u < j → (increment d)^[u] m ≠ i) →
    (j = 0 → firstTime = false) → (0 < j → m ≠ i ∨ firstTime = true) →
    Run (searchMachine v o d T.ct rs e) (.inner s i m firstTime) es (.outer s') →
    (∀ ev ∈ es, ev.isMove = false) →
    es = (List.iterate (increment d) m j).map (quiet norm c) := by
  induction j with
  | zero =>
    intro m firstTime s es _ _ hi _ hflag _ hrun hno
    obtain rfl : m = i := hi
    obtain rfl : firstTime = false := hflag rfl
    rcases hrun.first with ⟨h, -⟩ | ⟨C, es₁, es₂, hstep, hrest, rfl⟩
    · cases h
    · have hleave := step_leave (T := T) (e := e) v o rs s m
      obtain ⟨rfl, rfl⟩ := by simpa using hleave.symm.trans hstep
      exact outer_quiet v o rs hrest hno
  | succ j ih =>
    intro m firstTime s es hs hm hi hne _ hgo hrun hno
    rcases hrun.first with ⟨h, -⟩ | ⟨C, es₁, es₂, hstep, hrest, rfl⟩
    · cases h
    · -- what is left to show after an iteration that leaves the candidate
      have hnext : ∀ s₁, Holds norm c s₁ → Run (searchMachine v o d T.ct rs e)
          (.inner s₁ i (increment d m) false) es₂ (.outer s') →
          es₂ = (List.iterate (increment d) (increment d m) j).map (quiet norm c) := by
        intro s₁ hs₁ hrun₁
        refine ih (increment d m) false s₁ es₂ hs₁ (increment_inRange hm) hi ?_ (fun _ => rfl) ?_ hrun₁
          fun ev hev => hno ev (List.mem_append_right _ hev)
        · intro u hu hlt
          exact hne (u + 1) (by omega) (by omega)
        · intro hj
          exact .inl (hne 1 (by omega) (by omega))
      show es₁ ++ es₂ = quiet norm c m :: (List.iterate (increment d) (increment d m) j).map _
      rcases step_try v o rs hM hs hm (hgo (by omega)) with
        ⟨h1, h2⟩ | ⟨c', -, -, s₁, h2, -⟩ | ⟨c', h1, -, h2⟩
      · obtain ⟨rfl, rfl⟩ := by simpa using h2.symm.trans hstep
        rw [hnext s hs hrest, quiet, h1]
        rfl
      · obtain ⟨rfl, rfl⟩ := by simpa using h2.symm.trans hstep
        exact absurd (hno (.swap m (c'.err norm)) (by simp)) (by simp [Event.isMove])
      · obtain ⟨rfl, rfl⟩ := by simpa using h2.symm.trans hstep
        rw [hnext { s with newError := c'.err norm } (hs.of_eq rfl rfl rfl rfl) hrest, quiet, h1]
        rfl

end

/-- **A round of `search` without a swap** shows every pair of the scan, in order. -/
theorem round_quiet (o : ArgOrder) (rs : Nat → Nat) (hM : Measures T e norm) {c : Candidate T}
    {s s' : St α} (hs : Holds norm c s) {S : List Int} {i : Int × Int} {es : List (Event α)}
    (h : Run (searchMachine .new o d T.ct rs e) (.outer s) (.round S i :: es) (.outer s'))
    (hno : ∀ ev ∈ es, ev.isMove = false) :
    (0 < d.k ∧ 1 < d.n ∧ InRange d i) ∧ S = s.mySet ∧
      es = (scanOrder .new d i).map (quiet norm c) := by
  rcases h.first with ⟨-, h⟩ | ⟨C, es₁, es₂, hstep, hrest, heq⟩
  · cases h
  · obtain ⟨hk, hn⟩ := draws_of_step (T := T) (e := e) .new o rs hstep
    by_cases hgo : ((0 : Int) : α) < s.curError ∧ s.changedVal = true
    · obtain ⟨i', -, hi, hround⟩ := step_round (T := T) (e := e) .new o rs hk hn s hgo
      obtain ⟨rfl, rfl⟩ := by simpa using hround.symm.trans hstep
      obtain ⟨hround, rfl⟩ := List.cons.inj heq
      obtain ⟨rfl, rfl⟩ := Event.round.inj hround
      obtain ⟨hret, hne⟩ := increment_return hk hn hi
      have hN := span_pos hk hn
      have hs₁ : Holds norm c { s with changedVal := false, pos := s.pos + 2 } :=
        hs.of_eq rfl rfl rfl rfl
      exact ⟨⟨hk, hn, hi⟩, rfl, inner_quiet .new o rs hM (d.k * (d.n - 1)) i true _ es hs₁ hi hret hne
        (by omega) (fun _ => .inr rfl) hrest hno⟩
    · have hhalt := step_halt (T := T) (e := e) .new o rs s hgo
      cases hhalt.symm.trans hstep

omit [LinearOrder α] in
/-- The lists such iterations evaluate. -/
theorem evaluated_quiet (c : Candidate T) (l : List (Int × Int)) (hl : ∀ m ∈ l, InRange d m) :
    evaluated (T.ints c.xs) (l.map (quiet norm c)) =
      (l.filter fun m => decide (m.2 ∉ T.ints c.xs)).map (swapped (T.ints c.xs)) := by
  induction l with
  | nil => rfl
  | cons m l ih =>
    have ih := ih fun m' hm' => hl m' (List.mem_cons_of_mem _ hm')
    have hm := hl m List.mem_cons_self
    unfold evaluated at ih ⊢
    rw [List.map_cons, List.filterMap_cons, ih, List.filter_cons]
    cases hc : c.swap m with
    | none =>
      rw [quiet, hc, if_neg (by simpa using (c.swap_eq_none hm).1 hc)]
    | some c' =>
      have hb : m.2 ∉ T.ints c.xs := by
        intro hb
        rw [(c.swap_eq_none hm).2 hb] at hc
        cases hc
      rw [quiet, hc, if_pos (by simpa using hb), List.map_cons]

omit [LinearOrder α] in
/-- What such an iteration shows is the error of the list it evaluates. -/
theorem error_quiet (hM : Measures T e norm) {c : Candidate T} {m m' : Int × Int} {err : α}
    (hm : InRange d m) (h : quiet norm c m = .reject m' err) :
    error d T.ct (swapped (T.ints c.xs) m') e = .ok err := by
  cases hc : c.swap m with
  | none =>
    rw [quiet, hc] at h
    cases h
  | some c' =>
    rw [quiet, hc] at h
    obtain ⟨rfl, rfl⟩ := Event.reject.inj h
    rw [swapped, ← c.swap_ints hm hc]
    exact error_candidate hM c'

omit [LinearOrder α] in
/-- A state whose pieces agree describes a candidate. -/
theorem StateInv.exists_holds (hM : Measures T e norm) {s : St α} (h : StateInv d T.ct e s) :
    ∃ c : Candidate T, Holds norm c s := by
  obtain ⟨c, hc⟩ := Candidate.exists_of_list T s.mySet h.length h.nodup fun x hx => by
    have := h.values x hx
    omega
  have hsums : s.sums = T.hist (c.square α) := by
    obtain ⟨f, hf⟩ := T.exists_tab s.sums h.sums.1
    rw [← hf]
    refine (T.tab_inj _ _).2 (funext fun x => ?_)
    have hx : Fin.val x < d.n := Fin.isLt x
    have hget : vget s.sums (T.idx x) = .ok (productCount T.ct s.mySet (T.idx x) : α) :=
      h.sums.2 (Fin.val x) hx
    rw [← hf, T.vget_tab, ← hc, productCount_eq] at hget
    exact Except.ok.inj hget
  refine ⟨c, hc.symm, (indicates_ints_iff c.xs s.isMember).1 (by rw [hc]; exact h.isMember), hsums, ?_⟩
  have herr := h.curError
  rw [← hc, hsums, efs_candidate hM] at herr
  exact (Except.ok.inj herr).symm

end

/-! ## Top theorem -/

/-- **A round that accepts nothing evaluates every neighbour once.**  `increment` is one cycle
on the pairs in range, from wherever it starts.  So a round of `search` in which no swap is
made computes the error of the `k·(n-1-k)` neighbours of the candidate set, of each exactly
once, whatever the initial pair is. -/
theorem search_round_evaluates {α : Type} [CommRing α] [LinearOrder α] (hn : 2 ≤ d.n) (hk : 1 ≤ d.k) :
    (∀ i, InRange d i →
      (List.iterate (increment d) i (d.k * (d.n - 1))).Nodup ∧
      (∀ m, m ∈ List.iterate (increment d) i (d.k * (d.n - 1)) ↔ InRange d m) ∧
      (∀ j, ((increment d)^[j] i).2 ≠ 0) ∧
      (increment d)^[d.k * (d.n - 1)] i = i) ∧
    ∀ (T : Table d.n) (e : ErrorCalc α) (o : ArgOrder) (rs : Nat → Nat) (s s' : St α) (S : List Int)
      (i : Int × Int) (es : List (Event α)), e ∈ (calculators : List (ErrorCalc α)) →
      StateInv d T.ct e s →
      Run (searchMachine .new o d T.ct rs e) (.outer s) (.round S i :: es) (.outer s') →
      (∀ ev ∈ es, ev.isMove = false) →
      S = s.mySet ∧
      ((evaluated S es).map List.toFinset).Nodup ∧
      (∀ N, N ∈ (evaluated S es).map List.toFinset ↔ IsNeighbour d S N) ∧
      (evaluated S es).length = d.k * (d.n - 1 - d.k) ∧
      ∀ m err, .reject m err ∈ es → error d T.ct (swapped S m) e = .ok err := by
  constructor
  · intro i hi
    refine ⟨nodup_scanOrder hk hn hi, mem_scanOrder_iff hk hn hi, fun j => ?_,
      (increment_return hk hn hi).1⟩
    have := (increment_iterate_inRange hi j).2.1
    omega
  · intro T e o rs s s' S i es he hinv hrun hno
    obtain ⟨norm, hM⟩ := exists_norm T (by omega) e he
    obtain ⟨c, hc⟩ := hinv.exists_holds hM
    obtain ⟨⟨-, -, hi⟩, hS, rfl⟩ := round_quiet o rs hM hc hrun hno
    rw [hc.mySet] at hS
    subst hS
    have hlen : (T.ints c.xs).length = d.k := by rw [T.length_ints, c.length_eq]
    have hnd : (T.ints c.xs).Nodup := (T.nodup_ints c.xs).2 c.nodup
    have hscan := nodup_scanOrder hk hn hi
    rw [evaluated_quiet c _ (scanOrder_inRange .new hi)]
    refine ⟨hc.mySet.symm, ?_, ?_, ?_, ?_⟩
    · rw [List.map_map]
      refine (hscan.filter _).map_on fun m hm m' hm' heq => ?_
      obtain ⟨hm, hb⟩ := List.mem_filter.1 hm
      obtain ⟨hm', -⟩ := List.mem_filter.1 hm'
      exact swapped_inj hlen hnd (scanOrder_inRange .new hi m hm) (scanOrder_inRange .new hi m' hm')
        (by simpa using hb) heq
    · intro N
      rw [isNeighbour_iff hlen hnd, List.map_map, List.mem_map]
      simp only [List.mem_filter, mem_scanOrder_iff hk hn hi, decide_eq_true_iff, and_assoc,
        Function.comp_apply]
    · have hcount := length_nonmember hnd c.ints_bounds hscan (mem_scanOrder_iff hk hn hi)
      rw [List.length_map, hcount, hlen]
    · intro m err hmem
      obtain ⟨m', hm', heq⟩ := List.mem_map.1 hmem
      exact error_quiet hM (scanOrder_inRange .new hi m' hm') heq

/-- From `{1, 4}` in the cyclic group of order 5: a round that rejects its four neighbours. -/
theorem search_round_evaluates_five :
    (∀ N, N ∈ [[1, 2], [1, 3], [2, 4], [3, 4]].map List.toFinset ↔
        IsNeighbour ⟨5, 2, 0, 0⟩ [1, 4] N) ∧
      error ⟨5, 2, 0, 0⟩ (cyclicTable 5).ct [2, 4] l1Error = .ok (6 : Int) := by
  have hinv : StateInv ⟨5, 2, 0, 0⟩ (cyclicTable 5).ct l1Error
      (⟨[1, 4], [false, true, false, false, true], [2, 0, 1, 1, 0], 2, 0, true, 0, 3⟩ : St Int) :=
    ⟨rfl, by decide, by decide, ⟨rfl, by decide⟩, ⟨rfl, by decide⟩, rfl⟩
  have hrun : Run (searchMachine .new .leftFirst ⟨5, 2, 0, 0⟩ (cyclicTable 5).ct id l1Error)
      (.outer (⟨[1, 4], [false, true, false, false, true], [2, 0, 1, 1, 0], 2, 0, true, 0, 3⟩ : St Int))
      (.round [1, 4] (1, 1) :: [.skip (1, 1), .reject (1, 2) 6, .reject (1, 3) 6, .skip (1, 4),
        .skip (0, 1), .reject (0, 2) 6, .reject (0, 3) 6, .skip (0, 4)])
      (.outer ⟨[1, 4], [false, true, false, false, true], [2, 0, 1, 1, 0], 2, 0, false, 6, 5⟩) :=
    .of_walk (n := 10) rfl
  obtain ⟨-, -, hmem, -, herr⟩ := (search_round_evaluates (d := ⟨5, 2, 0, 0⟩) (by decide) (by decide)).2
    (cyclicTable 5).toTable l1Error .leftFirst id _ _ [1, 4] (1, 1) _ (by simp [calculators]) hinv hrun
    (by simp [Event.isMove])
  exact ⟨hmem, herr (0, 2) 6 (by simp)⟩

end PdsSearch
