import PdsSearch.Invariant

/-!
# The histogram totals `k * k`

The deviations of every candidate, over any table, add up to the same number

    delta = k + λ k + μ (n - 1 - k) - k * k                           (sum_dev)

so an error built from their absolute values is at least `|delta|`, and one
built from their first, second or fourth powers has its parity.  A run meets
only errors of candidates (`run_errors`), so what holds of all of these holds of
every error of the run:

    k (k - λ - 1) ≠ μ (n - k - 1) → no search returns error 0
    k (k - λ - 1) = μ (n - k - 1) → every L1, L2 or L4 error met is even   (error_delta)
-/

namespace PdsSearch

open Checked GroupRing

variable {d : Dims}

/-- What the targets have over the `k * k` products. -/
def Dims.delta (d : Dims) : Int := d.k + d.lam * d.k + d.mu * (d.n - 1 - d.k) - d.k * d.k

/-- The parameters are feasible exactly when the targets add up to `k * k`. -/
theorem delta_eq_zero_iff : d.delta = 0 ↔ (d.k : Int) * (d.k - d.lam - 1) = d.mu * (d.n - d.k - 1) := by
  unfold Dims.delta
  constructor
  · intro h
    linear_combination -h
  · intro h
    linear_combination -h

/-! ## Deviations -/

section
variable {T : Table d.n}

/-- The targets of the nonidentity elements. -/
theorem sum_nonId (hn : 0 < d.n) (c : Candidate T) :
    (T.nonId.map fun x => if c.member x then d.lam else d.mu).sum =
      d.lam * d.k + d.mu * (d.n - 1 - d.k) := by
  have hperm := T.perm_nonId c.xs c.nodup c.nonId
  have hin : c.xs.map (fun x => if c.member x then d.lam else d.mu) = c.xs.map fun _ => d.lam := by
    apply List.map_congr_left
    intro x hx
    exact if_pos (decide_eq_true hx)
  have hout : (T.nonId.filter fun x => !decide (x ∈ c.xs)).map
      (fun x => if c.member x then d.lam else d.mu) =
        (T.nonId.filter fun x => !decide (x ∈ c.xs)).map fun _ => d.mu := by
    apply List.map_congr_left
    intro x hx
    have hxc : x ∉ c.xs := by simpa using (List.mem_filter.1 hx).2
    exact if_neg (by simpa [Candidate.member] using hxc)
  have hlen := hperm.length_eq
  rw [List.length_append, T.length_nonId, c.length_eq] at hlen
  have hrest : (((T.nonId.filter fun x => !decide (x ∈ c.xs)).length : Nat) : Int) = d.n - 1 - d.k := by
    omega
  rw [← (hperm.map _).sum_eq, List.map_append, List.sum_append, hin, hout, List.map_const',
    List.map_const', List.sum_replicate, List.sum_replicate, c.length_eq, nsmul_eq_mul,
    nsmul_eq_mul, hrest]
  ring

/-- **All deviations together.** -/
theorem sum_dev (hn : 0 < d.n) (c : Candidate T) :
    ∑ x : T.Elem, dev T c.member (fun x => (c.square Int).coeff x) x = d.delta := by
  have htarget : ∑ x : T.Elem, dev T c.member (fun _ => (0 : Int)) x =
      d.k + (d.lam * d.k + d.mu * (d.n - 1 - d.k)) := by
    rw [T.sum_elem hn, ← sum_nonId hn c]
    have hzero : dev T c.member (fun _ => (0 : Int)) (T.zero hn) = d.k := by simp [dev]
    have hrest : T.nonId.map (dev T c.member fun _ => (0 : Int)) =
        T.nonId.map fun x => if c.member x then d.lam else d.mu := by
      apply List.map_congr_left
      intro x hx
      simp [dev, (T.mem_nonId x).1 hx]
    rw [hzero, hrest]
  have hsplit : ∀ x, dev T c.member (fun x => (c.square Int).coeff x) x =
      dev T c.member (fun _ => (0 : Int)) x - (c.square Int).coeff x := by
    intro x
    unfold dev
    split
    · simp
    · split <;> simp
  have hsq : ∑ x : T.Elem, (c.square Int).coeff x = (d.k : Int) * d.k := by
    unfold Candidate.square
    rw [sum_coeff_formal_mul, c.length_eq]
  rw [Finset.sum_congr rfl fun x _ => hsplit x, Finset.sum_sub_distrib, htarget, hsq]
  unfold Dims.delta
  ring

/-- A sum of weights that keep the parity. -/
theorem errFold_parity (weight : Int → Int) (hw : ∀ t, (2 : Int) ∣ weight t - t) (hn : 0 < d.n)
    (c : Candidate T) :
    c.err (errFold T (fun err t => err + t) weight hn) ≡ d.delta [ZMOD 2] := by
  unfold Candidate.err
  rw [errFold_add, ← sum_dev hn c]
  apply Int.ModEq.symm
  rw [Int.modEq_iff_dvd, ← Finset.sum_sub_distrib]
  apply Finset.dvd_sum
  intro x _
  set t := dev T c.member (fun x => (c.square Int).coeff x) x
  have habs : (2 : Int) ∣ cabs t - t := by
    rw [cabs_int]
    rcases abs_choice t with h | h <;> rw [h] <;> omega
  have := hw (cabs t)
  omega

/-- The absolute values add up to at least the total. -/
theorem delta_le_l1 (hn : 0 < d.n) (c : Candidate T) :
    |d.delta| ≤ c.err (errFold T (fun err t => err + t) (fun t => t) hn) := by
  unfold Candidate.err
  rw [errFold_add, ← sum_dev hn c]
  simp only [cabs_int]
  exact Finset.abs_sum_le_sum_abs _ _

/-- The three calculators that add powers. -/
theorem parity_of_mem (hn : 0 < d.n) {e : ErrorCalc Int}
    (he : e ∈ ([l1Error, l2Error, l4Error] : List (ErrorCalc Int))) :
    ∃ norm, Measures T e norm ∧ ∀ c : Candidate T, c.err norm ≡ d.delta [ZMOD 2] := by
  have hsq : ∀ t : Int, (2 : Int) ∣ t * t - t := by
    intro t
    have := Int.even_mul_pred_self t
    rw [mul_sub, mul_one] at this
    exact this.two_dvd
  have hfourth : ∀ t : Int, (2 : Int) ∣ t * t * (t * t) - t := by
    intro t
    have h1 := hsq t
    have h2 := hsq (t * t)
    omega
  simp only [List.mem_cons, List.not_mem_nil, or_false] at he
  rcases he with rfl | rfl | rfl
  · exact ⟨_, measures_with T _ _ add_right_comm hn, errFold_parity _ (fun t => by simp) hn⟩
  · exact ⟨_, measures_with T _ _ add_right_comm hn, errFold_parity _ hsq hn⟩
  · exact ⟨_, measures_with T _ _ add_right_comm hn, errFold_parity _ hfourth hn⟩

end

/-! ## Errors met in a run -/

section
variable {α : Type} [CommRing α] [LinearOrder α] {T : Table d.n} {e : ErrorCalc α}
  {norm : (T.Elem → α) → α} {v : Variant} {o : ArgOrder} {rs : Nat → Nat}

/-- A step computes errors of candidates only. -/
theorem step_errors (P : α → Prop) (hP : ∀ c : Candidate T, P (c.err norm)) (hM : Measures T e norm)
    {C C' : Cfg α} {es : List (Event α)} (hC : CfgInv norm C) (hnew : P C.st.newError)
    (h : searchStep v o d T.ct rs e C = .ok (.goto es C')) :
    P C'.st.newError ∧ ∀ m err, .reject m err ∈ es ∨ .swap m err ∈ es → P err := by
  cases C with
  | outer s =>
    obtain ⟨hk, hn⟩ := draws_of_step v o rs h
    by_cases hgo : ((0 : Int) : α) < s.curError ∧ s.changedVal = true
    · obtain ⟨i, -, -, hstep⟩ := step_round (T := T) (e := e) v o rs hk hn s hgo
      rw [hstep] at h
      cases h
      exact ⟨hnew, by simp⟩
    · rw [step_halt v o rs s hgo] at h
      cases h
  | inner s i m firstTime =>
    obtain ⟨⟨c, hc⟩, -, hm⟩ := hC
    by_cases hgo : m ≠ i ∨ firstTime = true
    · simp only [searchStep, if_pos hgo] at h
      rcases tryMutation_holds hM hc hm with
        ⟨-, h2⟩ | ⟨c', -, -, s', h3, -, h5, -⟩ | ⟨c', -, -, h3⟩
      · rw [h2] at h
        cases h
        exact ⟨hnew, by simp⟩
      · rw [h3] at h
        cases h
        have hPs : P s'.newError := h5 ▸ hP c'
        refine ⟨hPs, fun m err hmem => ?_⟩
        obtain ⟨-, rfl⟩ : m = _ ∧ err = s'.newError := by simpa using hmem
        exact hPs
      · rw [h3] at h
        cases h
        refine ⟨hP c', fun m err hmem => ?_⟩
        obtain ⟨-, rfl⟩ : m = _ ∧ err = c'.err norm := by simpa using hmem
        exact hP c'
    · obtain ⟨rfl, rfl⟩ : m = i ∧ firstTime = false := by simpa using hgo
      rw [step_leave] at h
      cases h
      exact ⟨hnew, by simp⟩

/-- **Run lemma.**  What holds of the error of every candidate holds of every error met. -/
theorem run_errors (P : α → Prop) (hP : ∀ c : Candidate T, P (c.err norm)) (hM : Measures T e norm)
    {C C' : Cfg α} {es : List (Event α)} (h : Run (searchMachine v o d T.ct rs e) C es C')
    (hC : CfgInv norm C) (hnew : P C.st.newError) :
    P C'.st.curError ∧ P C'.st.newError ∧
      ∀ m err, .reject m err ∈ es ∨ .swap m err ∈ es → P err := by
  induction h with
  | refl C =>
    obtain ⟨c, hc⟩ := hC.holds
    exact ⟨hc.curError ▸ hP c, hnew, by simp⟩
  | next hstep _ ih =>
    obtain ⟨hnew', hes⟩ := step_errors P hP hM hC hnew hstep
    obtain ⟨h1, h2, h3⟩ := ih (step_inv v o rs hM hC hstep) hnew'
    refine ⟨h1, h2, fun m err hmem => ?_⟩
    simp only [List.mem_append] at hmem
    rcases hmem with (h | h) | (h | h)
    · exact hes m err (.inl h)
    · exact h3 m err (.inl h)
    · exact hes m err (.inr h)
    · exact h3 m err (.inr h)

omit [LinearOrder α] in
/-- No error is computed for a swap before the loops. -/
theorem initSearch_newError [LT α] [DecidableLT α] {e : ErrorCalc α} {ct : List (List Int)} {fuel pos : Nat} {s : St α}
    (h : initSearch fuel d ct rs pos e = .ok s) : s.newError = ((0 : Int) : α) := by
  obtain ⟨r, -, h⟩ := exists_of_bind h
  obtain ⟨q, -, h⟩ := exists_of_bind h
  rw [← Except.ok.inj h]

/-- The error returned is that of a candidate. -/
theorem err_of_localSearch (hM : Measures T e norm) (hn : 0 < d.n) {fuel pos : Nat} {out : Outcome α}
    {es : List (Event α)} (h : localSearch v fuel o d T.ct rs pos e = .ok (out, es)) :
    ∃ c : Candidate T, out.err = c.err norm := by
  obtain ⟨s, hs, h⟩ := exists_of_bind h
  obtain ⟨c₀, hc₀, -⟩ := initSearch_ok rs hM hn fuel pos s hs
  obtain ⟨C, hrun, hhalt⟩ := Machine.run_of_exec _ h
  obtain ⟨s', rfl, rfl⟩ := step_eq_halt v o rs hhalt
  obtain ⟨c, hc⟩ := run_inv hM hrun ⟨c₀, hc₀⟩
  exact ⟨c, hc.curError⟩

end

/-! ## Top theorem -/

/-- **Errors know the parameters.**  Over any table: the L1 error of `k` distinct nonidentity
values is at least `|delta|`, and the L1, L2 and L4 errors have the parity of `delta`.  So for
infeasible parameters no search returns error 0, and for feasible ones every error met in an
L1, L2 or L4 run is even. -/
theorem error_delta (T : Table d.n) (hn : 0 < d.n) :
    (∀ S : List Int, S.length = d.k → S.Nodup → (∀ x ∈ S, 1 ≤ x ∧ x < d.n) →
      (∃ err, error d T.ct S l1Error = .ok err ∧ |d.delta| ≤ err) ∧
      ∀ e ∈ ([l1Error, l2Error, l4Error] : List (ErrorCalc Int)),
        ∃ err, error d T.ct S e = .ok err ∧ err ≡ d.delta [ZMOD 2]) ∧
    ((d.k : Int) * (d.k - d.lam - 1) ≠ d.mu * (d.n - d.k - 1) →
      ∀ e ∈ (calculators : List (ErrorCalc Int)), ∀ v o rs fuel pos out es,
        localSearch v fuel o d T.ct rs pos e = .ok (out, es) → out.err ≠ 0) ∧
    ((d.k : Int) * (d.k - d.lam - 1) = d.mu * (d.n - d.k - 1) →
      ∀ e ∈ ([l1Error, l2Error, l4Error] : List (ErrorCalc Int)), ∀ v o rs fuel pos s es C,
        initSearch fuel d T.ct rs pos e = .ok s →
        Run (searchMachine v o d T.ct rs e) (.outer s) es C →
        Even C.st.curError ∧ Even C.st.newError ∧
          ∀ m err, .reject m err ∈ es ∨ .swap m err ∈ es → Even err) := by
  refine ⟨?_, ?_, ?_⟩
  · intro S hlen hnd hS
    obtain ⟨c, rfl⟩ := Candidate.exists_of_list T S hlen hnd hS
    refine ⟨⟨_, error_candidate (measures_with T _ _ add_right_comm hn) c, delta_le_l1 hn c⟩, ?_⟩
    intro e he
    obtain ⟨norm, hM, hpar⟩ := parity_of_mem hn he
    exact ⟨_, error_candidate hM c, hpar c⟩
  · intro hne e he v o rs fuel pos out es h hzero
    obtain ⟨norm, hM, -, hnorm⟩ := exists_norm_int T hn e he
    obtain ⟨c, hc⟩ := err_of_localSearch hM hn h
    rw [hc] at hzero
    have hdev := (hnorm _).1 hzero
    have hdelta := sum_dev hn c
    rw [Finset.sum_eq_zero fun x _ => hdev x] at hdelta
    exact hne (delta_eq_zero_iff.1 hdelta.symm)
  · intro heq e he v o rs fuel pos s es C hs hrun
    obtain ⟨norm, hM, hpar⟩ := parity_of_mem (T := T) hn he
    have heven : ∀ c : Candidate T, Even (c.err norm) := by
      intro c
      have h := hpar c
      rw [delta_eq_zero_iff.2 heq] at h
      exact (Int.even_iff).2 h
    obtain ⟨c, hc, -⟩ := initSearch_ok rs hM hn fuel pos s hs
    have hnew : s.newError = 0 := initSearch_newError hs
    exact run_errors Even heven hM hrun ⟨c, hc⟩ (by show Even s.newError; rw [hnew]; exact Even.zero)

/-- A set, a run for infeasible parameters, and a run for feasible ones. -/
theorem error_delta_cyclic :
    ((∃ err, error ⟨5, 2, 0, 1⟩ (cyclicTable 5).ct [1, 2] (l1Error : ErrorCalc Int) = .ok err ∧
        |Dims.delta ⟨5, 2, 0, 1⟩| ≤ err) ∧
      ∃ err, error ⟨5, 2, 0, 1⟩ (cyclicTable 5).ct [1, 2] (l4Error : ErrorCalc Int) = .ok err ∧
        err ≡ Dims.delta ⟨5, 2, 0, 1⟩ [ZMOD 2]) ∧
    (⟨[1], 1, 3⟩ : Outcome Int).err ≠ 0 ∧
    Even (Cfg.outer (⟨[1, 2], [false, true, true, false, false], [0, 0, 1, 2, 1], 6, 0, true, 0, 2⟩ :
      St Int)).st.curError :=
  have hS := (error_delta (d := ⟨5, 2, 0, 1⟩) (cyclicTable 5).toTable (by decide)).1 [1, 2] rfl
    (by decide) (by decide)
  ⟨⟨hS.1, hS.2 l4Error (by simp)⟩,
    (error_delta (d := ⟨3, 1, 0, 1⟩) (cyclicTable 3).toTable (by decide)).2.1 (by decide) l4Error
      (by simp [calculators]) .new .leftFirst id 10 0 _
      [.round [1] (0, 1), .skip (0, 1), .reject (0, 2) 1] rfl,
    ((error_delta (d := ⟨5, 2, 0, 1⟩) (cyclicTable 5).toTable (by decide)).2.2 (by decide) l2Error
      (by simp) .new .leftFirst id 5 0 _ _ _ rfl (.refl _)).1⟩

end PdsSearch
