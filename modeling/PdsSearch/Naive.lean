import PdsSearch.Lib.MachineInt
import PdsSearch.Scan

/-!
# The naive search, and that `search` is one

The naive search keeps the candidate list only.  It tests membership by
scanning the list and recomputes the error of every neighbour from all its
products; a step of its machine is a whole round.  On exact integers

    Returns naiveSearch (out, fs) ↔
      ∃ es, Returns (localSearch .new) (out, es) ∧ es.filter isMove = fs    (search_eq_naive)

so `search` returns the same pair, draws the same number of values (`out.pos`)
and enters the same rounds and makes the same swaps.  On integers that wrap an
error can fall below zero, where `search` ends and the naive search, which looks
for zero, does not; there the two agree exactly when `search` does not return
such an error.
-/

namespace PdsSearch

open Checked MachineInt

/-! ## Algorithm -/

section
variable {α : Type} [Add α] [Sub α] [Mul α] [Neg α] [LT α] [DecidableLT α] [IntCast α]

/-- The first pair of the list whose swap lowers the error: the pair, the list, its error. -/
def naiveScan (d : Dims) (ct : List (List Int)) (e : ErrorCalc α) (S : List Int) (err : α) :
    List (Int × Int) → Except Stop (Option ((Int × Int) × List Int × α))
  | [] => return none
  | m :: l => do
    if m.2 ∈ S then naiveScan d ct e S err l
    else
      let S' ← vset S m.1 m.2
      let err' ← error d ct S' e
      if err' < err then return some (m, S', err') else naiveScan d ct e S err l

/-- At the start of a round, or after a scan that took nothing. -/
inductive NaiveCfg (α : Type)
  | round (S : List Int) (err : α) (pos : Nat)
  | stop (S : List Int) (err : α) (pos : Nat)

/-- One round: draw the initial pair, scan all pairs from it on in `increment` order. -/
def naiveStep [DecidableEq α] (o : ArgOrder) (d : Dims) (ct : List (List Int)) (rs : Nat → Nat)
    (e : ErrorCalc α) : NaiveCfg α → Except Stop (Next (NaiveCfg α) (Event α) (Outcome α))
  | .round S err pos => do
    if err = ((0 : Int) : α) then return .halt ⟨S, err, pos⟩
    else
      let (i, pos) ← drawMutation o d rs pos
      match ← naiveScan d ct e S err (List.iterate (increment d) i (d.k * (d.n - 1))) with
      | none => return .goto [.round S i] (.stop S err pos)
      | some (m, S', err') => return .goto [.round S i, .swap m err'] (.round S' err' pos)
  | .stop S err pos => return .halt ⟨S, err, pos⟩

def naiveMachine [DecidableEq α] (o : ArgOrder) (d : Dims) (ct : List (List Int)) (rs : Nat → Nat)
    (e : ErrorCalc α) : Machine (NaiveCfg α) (Event α) (Outcome α) :=
  ⟨naiveStep o d ct rs e⟩

/-- The naive local search from generator position `pos`. -/
def naiveSearch [DecidableEq α] (fuel : Nat) (o : ArgOrder) (d : Dims) (ct : List (List Int))
    (rs : Nat → Nat) (pos : Nat) (e : ErrorCalc α) : Except Stop (Outcome α × List (Event α)) := do
  let (S, _, pos) ← selectStartSet fuel d rs pos (List.replicate d.k (-1)) (List.replicate d.n false)
  let err ← error d ct S e
  (naiveMachine o d ct rs e).exec fuel (.round S err pos)

end

/-! ## Lemmas -/

section
variable {α : Type} [CommRing α] [LinearOrder α] {d : Dims} {T : Table d.n} {e : ErrorCalc α}
  {norm : (T.Elem → α) → α}

/-- **The naive scan finds the first improving swap.** -/
theorem naiveScan_spec (hM : Measures T e norm) (v : Variant) (c : Candidate T)
    (l : List (Int × Int)) (hl : ∀ m ∈ l, InRange d m) :
    naiveScan d T.ct e (T.ints c.xs) (c.err norm) l =
      .ok (((descent T norm v).firstImproving c l).map fun p => (p.1, T.ints p.2.xs, p.2.err norm)) := by
  induction l with
  | nil => rfl
  | cons m l ih =>
    have hm := hl m List.mem_cons_self
    have hrest := ih fun x hx => hl x (List.mem_cons_of_mem m hx)
    unfold naiveScan
    by_cases hmem : m.2 ∈ T.ints c.xs
    · have hnone : c.swap m = none := (c.swap_eq_none hm).2 hmem
      rw [if_pos hmem, hrest, (descent T norm v).firstImproving_cons_none (improve_of_none v hnone)]
    · obtain ⟨c', hc'⟩ : ∃ c', c.swap m = some c' :=
        Option.ne_none_iff_exists'.1 fun h => hmem ((c.swap_eq_none hm).1 h)
      rw [if_neg hmem, c.swap_vset hm hc', ok_bind, error_candidate hM, ok_bind]
      by_cases hlt : c'.err norm < c.err norm
      · rw [if_pos hlt, (descent T norm v).firstImproving_cons_some (improve_of_lt v hc' hlt)]
        rfl
      · rw [if_neg hlt, hrest,
          (descent T norm v).firstImproving_cons_none (improve_of_not_lt v hc' hlt)]

/-- The events of the rounds, without the iterations that changed nothing. -/
noncomputable def moves (norm : (T.Elem → α) → α) (tr : List (Round (Candidate T) (Int × Int))) :
    List (Event α) :=
  tr.flatMap fun ρ => .round (T.ints ρ.cur.xs) ρ.start :: found norm ρ.found

omit [LinearOrder α] in
theorem Trace.filter_isMove {bound : Nat} {tr : List (Round (Candidate T) (Int × Int))}
    {es : List (Event α)} (h : Trace norm bound tr es) : es.filter Event.isMove = moves norm tr := by
  induction h with
  | nil => rfl
  | cons _ _ hf _ ih =>
    rw [List.filter_cons_of_pos rfl, List.filter_append, hf, ih]
    rfl

/-- Values drawn. -/
def NaiveCfg.pos : NaiveCfg α → Nat
  | .round _ _ pos => pos
  | .stop _ _ pos => pos

/-- **The naive search goes through the rounds of the descent.**  At the end it has scanned in vain, or stands
where no error is positive. -/
theorem naive_run (hM : Measures T e norm) (o : ArgOrder) (rs : Nat → Nat)
    {start : Nat → Int × Int} {pos : Nat}
    (hdraw : ∀ r, drawMutation o d rs (pos + 2 * r) = .ok (start r, pos + 2 * r + 2) ∧
      InRange d (start r)) {r : Nat} {c c' : Candidate T}
    {tr : List (Round (Candidate T) (Int × Int))}
    (h : Rounds (descent T norm .new) start r c tr c') :
    ∃ t, Run (naiveMachine o d T.ct rs e) (.round (T.ints c.xs) (c.err norm) (pos + 2 * r)) (moves norm tr) t ∧
      ((0 < c'.err norm ∧ t = .stop (T.ints c'.xs) (c'.err norm) (pos + 2 * (r + tr.length))) ∨
        (¬ 0 < c'.err norm ∧ t = .round (T.ints c'.xs) (c'.err norm) (pos + 2 * (r + tr.length)))) := by
  have hscan : ∀ r c, naiveScan d T.ct e (T.ints c.xs) (c.err norm)
      (List.iterate (increment d) (start r) (d.k * (d.n - 1))) =
      .ok (((descent T norm .new).firstImproving c ((descent T norm .new).scan (start r))).map
        fun p => (p.1, T.ints p.2.xs, p.2.err norm)) :=
    fun r c => naiveScan_spec hM .new c _ (scanOrder_inRange .new (hdraw r).2)
  induction h with
  | @done r c hpos => exact ⟨_, .refl _, .inr ⟨hpos, rfl⟩⟩
  | @stuck r c hpos hnone =>
    have hne : ¬ c.err norm = ((0 : Int) : α) := by
      rw [Int.cast_zero]
      exact ne_of_gt hpos
    have hstep : naiveStep o d T.ct rs e (.round (T.ints c.xs) (c.err norm) (pos + 2 * r)) =
        .ok (.goto (moves norm [⟨c, start r, none⟩])
          (.stop (T.ints c.xs) (c.err norm) (pos + 2 * r + 2))) := by
      rw [naiveStep, if_neg hne, (hdraw r).1, ok_bind]
      simp only [hscan, hnone, ok_bind]
      rfl
    exact ⟨_, .one hstep, .inl ⟨hpos, rfl⟩⟩
  | @step r c m c₁ tr c' hpos hsome _ ih =>
    have hne : ¬ c.err norm = ((0 : Int) : α) := by
      rw [Int.cast_zero]
      exact ne_of_gt hpos
    obtain ⟨t, hrun, hend⟩ := ih
    have hstep : naiveStep o d T.ct rs e (.round (T.ints c.xs) (c.err norm) (pos + 2 * r)) =
        .ok (.goto [.round (T.ints c.xs) (start r), .swap m (c₁.err norm)]
          (.round (T.ints c₁.xs) (c₁.err norm) (pos + 2 * (r + 1)))) := by
      rw [naiveStep, if_neg hne, (hdraw r).1, ok_bind]
      simp only [hscan, hsome, ok_bind]
      rfl
    have hlen : r + 1 + tr.length = r + (tr.length + 1) := by omega
    rw [hlen] at hend
    exact ⟨t, .next hstep hrun, hend⟩

theorem drawMutation_pos {o : ArgOrder} {rs : Nat → Nat} {pos pos' : Nat} {m : Int × Int}
    (h : drawMutation o d rs pos = .ok (m, pos')) : pos' = pos + 2 := by
  obtain ⟨hk, hn⟩ := drawMutation_ok_only h
  obtain ⟨i, hi, -⟩ := drawMutation_ok (d := d) o rs pos hk hn
  rw [hi] at h
  cases h
  rfl

/-- A round ends the search at error zero; at any other error it draws two values and goes on. -/
theorem naiveStep_round {o : ArgOrder} {ct : List (List Int)} {rs : Nat → Nat} {S : List Int} {err : α} {pos : Nat}
    {next : Next (NaiveCfg α) (Event α) (Outcome α)} (h : naiveStep o d ct rs e (.round S err pos) = .ok next) :
    (err = 0 ∧ next = .halt ⟨S, err, pos⟩) ∨ (err ≠ 0 ∧ ∃ es C, next = .goto es C ∧ C.pos = pos + 2) := by
  simp only [naiveStep, Int.cast_zero] at h
  by_cases h0 : err = 0
  · rw [if_pos h0] at h
    exact .inl ⟨h0, (Except.ok.inj h).symm⟩
  · rw [if_neg h0] at h
    obtain ⟨⟨i, pos'⟩, hdraw, h⟩ := exists_of_bind h
    obtain ⟨found, -, h⟩ := exists_of_bind h
    cases found with
    | none => exact .inr ⟨h0, _, _, (Except.ok.inj h).symm, drawMutation_pos hdraw⟩
    | some r => exact .inr ⟨h0, _, _, (Except.ok.inj h).symm, drawMutation_pos hdraw⟩

/-- No value drawn is given back. -/
theorem naiveStep_pos {o : ArgOrder} {ct : List (List Int)} {rs : Nat → Nat} {C C' : NaiveCfg α}
    {es : List (Event α)} (h : naiveStep o d ct rs e C = .ok (.goto es C')) : C.pos ≤ C'.pos := by
  cases C with
  | stop S err pos => cases h
  | round S err pos =>
    rcases naiveStep_round h with ⟨-, hhalt⟩ | ⟨-, es, C, hgoto, hpos⟩
    · cases hhalt
    · cases hgoto
      rw [hpos]
      exact Nat.le_add_right pos 2

theorem naiveStep_halt {o : ArgOrder} {ct : List (List Int)} {rs : Nat → Nat} {C : NaiveCfg α} {out : Outcome α}
    (h : naiveStep o d ct rs e C = .ok (.halt out)) : C.pos = out.pos := by
  cases C with
  | stop S err pos =>
    cases h
    rfl
  | round S err pos =>
    rcases naiveStep_round h with ⟨-, hhalt⟩ | ⟨-, es, C, hgoto, -⟩
    · cases hhalt
      rfl
    · cases hgoto

theorem naiveSearch_mono (e : ErrorCalc α) (o : ArgOrder) (ct : List (List Int)) (rs : Nat → Nat) (pos : Nat) :
    FuelMono fun fuel => naiveSearch fuel o d ct rs pos e :=
  (selectStartSet_mono rs pos _ _).bind fun _ => FuelMono.bind (.const _) fun _ => (naiveMachine o d ct rs e).exec_mono _

section
variable (hM : Measures T e norm) (o : ArgOrder) (rs : Nat → Nat) {fuel pos pos' : Nat} {c c' : Candidate T}
  (hsel : selectStartSet fuel d rs pos (List.replicate d.k (-1)) (List.replicate d.n false) =
    .ok (T.ints c.xs, T.tab c.member, pos')) {start : Nat → Int × Int}
  (hdraw : ∀ r, drawMutation o d rs (pos' + 2 * r) = .ok (start r, pos' + 2 * r + 2) ∧
    InRange d (start r)) {tr : List (Round (Candidate T) (Int × Int))}
  (h : Rounds (descent T norm .new) start 0 c tr c')

include hM hsel hdraw h

/-- Where the last error is not negative, the naive search ends there too. -/
theorem naiveSearch_returns (h0 : 0 ≤ c'.err norm) :
    Returns (fun fuel => naiveSearch fuel o d T.ct rs pos e)
      (⟨T.ints c'.xs, c'.err norm, pos' + 2 * tr.length⟩, moves norm tr) := by
  obtain ⟨t, hrun, hend⟩ := naive_run hM o rs hdraw h
  rw [Nat.zero_add] at hend
  have hhalt : naiveStep o d T.ct rs e t = .ok (.halt ⟨T.ints c'.xs, c'.err norm, pos' + 2 * tr.length⟩) := by
    rcases hend with ⟨-, rfl⟩ | ⟨hpos, rfl⟩
    · rfl
    · have hzero : c'.err norm = ((0 : Int) : α) := by
        rw [Int.cast_zero]
        exact le_antisymm (not_lt.1 hpos) h0
      rw [naiveStep, if_pos hzero]
      rfl
  obtain ⟨fuel', hexec⟩ := (naiveMachine o d T.ct rs e).exec_of_run hrun hhalt
  have hmax := (selectStartSet_mono rs pos _ _) fuel _ hsel (max fuel fuel') (Nat.le_max_left _ _)
  have hrest := (naiveMachine o d T.ct rs e).exec_mono _ fuel' _ hexec (max fuel fuel') (Nat.le_max_right _ _)
  apply (naiveSearch_mono e o T.ct rs pos).returns
  show naiveSearch (max fuel fuel') o d T.ct rs pos e = _
  unfold naiveSearch
  simp only [hmax, ok_bind, error_candidate hM]
  exact hrest

/-- Where it is negative, the naive search goes on to another round. -/
theorem naiveSearch_goes_on (h0 : c'.err norm < 0) {out : Outcome α} {fs : List (Event α)}
    (hret : Returns (fun fuel => naiveSearch fuel o d T.ct rs pos e) (out, fs)) :
    pos' + 2 * tr.length < out.pos := by
  obtain ⟨t, hrun, hend⟩ := naive_run hM o rs hdraw h
  rw [Nat.zero_add] at hend
  obtain ⟨-, rfl⟩ | hround := hend.symm
  · obtain ⟨fuel', hfuel⟩ := hret.1
    obtain ⟨⟨S, isMember, pos''⟩, hsel', hrest⟩ := exists_of_bind hfuel
    obtain ⟨rfl, rfl⟩ : S = T.ints c.xs ∧ pos'' = pos' := by
      have hsame := ((selectStartSet_mono rs pos _ _).returns hsel).2 fuel' _ hsel'
      cases hsame
      exact ⟨rfl, rfl⟩
    simp only [error_candidate hM, ok_bind] at hrest
    obtain ⟨u, hu, hhalt⟩ := (naiveMachine o d T.ct rs e).run_of_exec hrest
    obtain ⟨gs, hgs, -⟩ := hrun.to_halt hu hhalt
    rw [← naiveStep_halt hhalt]
    rcases hgs.first with ⟨rfl, -⟩ | ⟨C, es₁, es₂, hstep, hrun', -⟩
    · -- it does not stop at a negative error
      rcases naiveStep_round hhalt with ⟨hzero, -⟩ | ⟨-, es, C, hgoto, -⟩
      · exact absurd hzero h0.ne
      · cases hgoto
    · have hle : C.pos ≤ u.pos := hrun'.inv (fun C' => C.pos ≤ C'.pos)
        (fun C₁ es C₂ hC₁ hstep => hC₁.trans (naiveStep_pos hstep)) le_rfl
      rcases naiveStep_round hstep with ⟨-, hhalt'⟩ | ⟨-, es, C', hgoto, hpos⟩
      · cases hhalt'
      · cases hgoto
        omega
  · exact absurd hround.1 (not_lt.2 h0.le)

end

section
variable (hk : 1 ≤ d.k) (hkn : d.k ≤ d.n - 1) (he : e ∈ calculators) (o : ArgOrder) (rs : Nat → Nat) (pos : Nat)

include hk hkn he

/-- From one start set both searches go through the same rounds. -/
theorem searches_return {c : Candidate T} {fuel pos' : Nat}
    (hsel : selectStartSet fuel d rs pos (List.replicate d.k (-1)) (List.replicate d.n false) =
      .ok (T.ints c.xs, T.tab c.member, pos')) : ∃ out es,
      Returns (fun fuel => localSearch .new fuel o d T.ct rs pos e) (out, es) ∧
      (0 ≤ out.err → Returns (fun fuel => naiveSearch fuel o d T.ct rs pos e) (out, es.filter Event.isMove)) ∧
      (out.err < 0 → ∀ out' fs, Returns (fun fuel => naiveSearch fuel o d T.ct rs pos e) (out', fs) →
        out.pos < out'.pos) := by
  have hn : 1 < d.n := by omega
  obtain ⟨norm, hM⟩ := exists_norm T (by omega) e he
  obtain ⟨start, hdraw⟩ := exists_start (d := d) o rs pos' hk hn
  obtain ⟨tr, c', h⟩ := exists_rounds (descent T norm .new) (descent T norm .new).wellFounded start 0 c
  obtain ⟨es, htr, hret⟩ := localSearch_returns .new o rs hM hk hn hsel (fun r => (hdraw r).1) h
  refine ⟨_, es, hret, fun h0 => ?_, fun h0 out' fs hret' => ?_⟩
  · rw [htr.filter_isMove]
    exact naiveSearch_returns hM o rs hsel hdraw h h0
  · exact naiveSearch_goes_on hM o rs hsel hdraw h h0 hret'

/-- **The two searches agree**, in the result, the values drawn, the rounds and the swaps, exactly when
`search` returns no negative error. -/
theorem searches_agree_iff :
    (∀ out fs, Returns (fun fuel => naiveSearch fuel o d T.ct rs pos e) (out, fs) ↔
      ∃ es, Returns (fun fuel => localSearch .new fuel o d T.ct rs pos e) (out, es) ∧
        es.filter Event.isMove = fs) ↔
    ∀ out es, Returns (fun fuel => localSearch .new fuel o d T.ct rs pos e) (out, es) → 0 ≤ out.err := by
  have hn : 0 < d.n := by omega
  constructor
  · intro hagree out es h
    obtain ⟨fuel, hf⟩ := h.1
    obtain ⟨c, pos', hsel⟩ := select_of_localSearch .new o rs hn hf
    obtain ⟨out', es', hret, -, hneg⟩ := searches_return hk hkn he o rs pos hsel
    obtain ⟨rfl, rfl⟩ := Prod.mk.inj (h.unique hret)
    by_contra h0
    exact lt_irrefl _ (hneg (not_le.1 h0) _ _ ((hagree out _).2 ⟨es, h, rfl⟩))
  · intro hnonneg out fs
    constructor
    · intro h
      obtain ⟨fuel, hf⟩ := h.1
      obtain ⟨⟨S, isMember, pos'⟩, hs, -⟩ := exists_of_bind hf
      obtain ⟨c, rfl, rfl⟩ := selectStartSet_ok T rs hn fuel pos _ _ _ hs
      obtain ⟨out', es, hret, hsame, -⟩ := searches_return hk hkn he o rs pos hs
      obtain ⟨rfl, rfl⟩ := Prod.mk.inj (h.unique (hsame (hnonneg out' es hret)))
      exact ⟨es, hret, rfl⟩
    · rintro ⟨es, h, rfl⟩
      obtain ⟨fuel, hf⟩ := h.1
      obtain ⟨c, pos', hsel⟩ := select_of_localSearch .new o rs hn hf
      obtain ⟨out', es', hret, hsame, -⟩ := searches_return hk hkn he o rs pos hsel
      obtain ⟨rfl, rfl⟩ := Prod.mk.inj (h.unique hret)
      exact hsame (hnonneg out es h)

end

end

/-! ## Top theorem -/

variable {d : Dims}

/-- **`search` is the naive first-improvement search**: one returns what the other returns,
from the same random values, through the same rounds and swaps.  This is so over exact integers;
over integers that wrap it is so for exactly the runs in which `search` returns no negative error. -/
theorem search_eq_naive (T : Table d.n) (hk : 1 ≤ d.k) (hkn : d.k ≤ d.n - 1) (o : ArgOrder) (rs : Nat → Nat)
    (pos : Nat) :
    (∀ e ∈ (calculators : List (ErrorCalc Int)), ∀ out fs,
      Returns (fun fuel => naiveSearch fuel o d T.ct rs pos e) (out, fs) ↔
        ∃ es, Returns (fun fuel => localSearch .new fuel o d T.ct rs pos e) (out, es) ∧
          es.filter Event.isMove = fs) ∧
    ∀ e ∈ (calculators : List (ErrorCalc WrapInt)),
      (∀ out fs, Returns (fun fuel => naiveSearch fuel o d T.ct rs pos e) (out, fs) ↔
        ∃ es, Returns (fun fuel => localSearch .new fuel o d T.ct rs pos e) (out, es) ∧
          es.filter Event.isMove = fs) ↔
      ∀ out es, Returns (fun fuel => localSearch .new fuel o d T.ct rs pos e) (out, es) → 0 ≤ out.err := by
  refine ⟨fun e he => ?_, fun e he => searches_agree_iff hk hkn he o rs pos⟩
  rw [searches_agree_iff hk hkn he o rs pos]
  intro out es h
  obtain ⟨norm, hM, h0, -⟩ := exists_norm_int T (by omega) e he
  obtain ⟨fuel, hf⟩ := h.1
  obtain ⟨start, c, c', tr, pos', -, -, -, rfl⟩ := rounds_of_localSearch .new o rs hM hk (by omega) hf
  exact h0 _

/-- One swap leads from `{1, 2}` to the set `{1, 4}` of error 0. -/
theorem search_eq_naive_cyclic :
    Returns (fun fuel => naiveSearch fuel .leftFirst ⟨5, 2, 0, 1⟩ (cyclicTable 5).ct id 0 l1Error)
      (⟨[1, 4], (0 : Int), 4⟩, [.round [1, 2] (0, 4), .swap (1, 4) 0]) :=
  have hrun : localSearch .new 10 .leftFirst ⟨5, 2, 0, 1⟩ (cyclicTable 5).ct id 0 l1Error =
      .ok (⟨[1, 4], (0 : Int), 4⟩, [.round [1, 2] (0, 4), .reject (0, 4) 4, .skip (1, 1), .skip (1, 2),
        .reject (1, 3) 4, .swap (1, 4) 0]) := rfl
  ((search_eq_naive (d := ⟨5, 2, 0, 1⟩) (cyclicTable 5).toTable (by decide) (by decide) .leftFirst id 0).1 l1Error
    (by simp [calculators]) _ _).2
    ⟨_, (localSearch_mono (d := ⟨5, 2, 0, 1⟩) (T := (cyclicTable 5).toTable) .new .leftFirst id
      0).returns hrun, rfl⟩

/-- **A negative error.**  With `lam = 34678` the error of the start set `{1, 4}` wraps to a number below
zero: `search` ends there, after two draws, and the naive search makes two more rounds and ends at `{2, 4}`. -/
theorem search_eq_naive_wraps :
    Returns (fun fuel => localSearch .new fuel .leftFirst ⟨5, 2, 34678, 12656⟩ (cyclicTable 5).ct (fun i => 3 * i) 0
        (l2Error : ErrorCalc WrapInt)) (⟨[1, 4], ((-1569541878 : Int) : WrapInt), 2⟩, []) ∧
    Returns (fun fuel => naiveSearch fuel .leftFirst ⟨5, 2, 34678, 12656⟩ (cyclicTable 5).ct (fun i => 3 * i) 0
        (l2Error : ErrorCalc WrapInt)) (⟨[2, 4], ((-1569636538 : Int) : WrapInt), 6⟩,
      [.round [1, 4] (0, 2), .swap (0, 2) ((-1569636538 : Int) : WrapInt), .round [2, 4] (0, 4)]) := by
  have hlocal : localSearch .new 5 .leftFirst ⟨5, 2, 34678, 12656⟩ (cyclicTable 5).ct (fun i => 3 * i) 0
      (l2Error : ErrorCalc WrapInt) = .ok (⟨[1, 4], ((-1569541878 : Int) : WrapInt), 2⟩, []) := rfl
  have hnaive : naiveSearch 5 .leftFirst ⟨5, 2, 34678, 12656⟩ (cyclicTable 5).ct (fun i => 3 * i) 0
      (l2Error : ErrorCalc WrapInt) = .ok (⟨[2, 4], ((-1569636538 : Int) : WrapInt), 6⟩,
        [.round [1, 4] (0, 2), .swap (0, 2) ((-1569636538 : Int) : WrapInt), .round [2, 4] (0, 4)]) := rfl
  have hmono := localSearch_mono (d := ⟨5, 2, 34678, 12656⟩) (T := (cyclicTable 5).toTable)
    (e := (l2Error : ErrorCalc WrapInt)) .new .leftFirst (fun i => 3 * i) 0
  exact ⟨hmono.returns hlocal, (naiveSearch_mono l2Error .leftFirst _ _ 0).returns hnaive⟩

end PdsSearch
