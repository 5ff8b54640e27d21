import PdsSearch.GenTables
import PdsSearch.Lib.ParallelFor
import PdsSearch.ProbCommute
import PdsSearch.TrialRuns

/-!
# Comparing the calculators (`search64.cpp`, `search64_par.cpp`)

For every group of one order, `NUM_TRIALS` searches with each of three calculators, all
with one generator; a line for the group says how many of them found a set, for each
calculator, next to the commuting probability.  The first program takes the groups in
order, the second in parallel, with a mutex around the line.  The errors are `int`s that
wrap; up to order 75 all three tell the partial difference sets:

    the counter of a calculator is the number of its searches that ended at a partial
      difference set                                                  (groupCounts_returns)
    every schedule of the second program prints the lines of the first in some order
                                                                      (search64_run)
-/

namespace PdsSearch

open Checked GroupRing Text MachineInt PartialDifferenceSet ParallelFor

/-! ## Algorithm -/

/-- `errors`, with their `name()` -/
def errors : List (Str × ErrorCalc WrapInt) :=
  [("l1".toList, l1Error), ("L2".toList, l2Error), ("L4".toList, l4Error)]

/-- `folder + "/table" + id + ".txt"` -/
def groupFile (folder : Str) (id : Nat) : Str :=
  folder ++ "/table".toList ++ printInt id ++ ".txt".toList

/-- A trial with the calculator `e`, which counts in `successes[eLen]`. -/
def countStep (fuel : Nat) (e : ErrorCalc WrapInt) (o : ArgOrder) (d : Dims) (ct : List (List Int)) (rs : Nat → Nat)
    (eLen : Nat) (s : List Int × Nat) : Except Stop (List Int × Nat) := do
  let result ← search fuel o d ct rs s.2 e
  if result.err = 0 then return (← vmod s.1 eLen fun c => c + 1, result.pos)
  else return (s.1, result.pos)

/-- The trials with calculator number `eLen`. -/
def countRound (fuel : Nat) (o : ArgOrder) (d : Dims) (ct : List (List Int)) (rs : Nat → Nat) (numTrials : Int)
    (s : List Int × Nat) (eLen : Nat) : Except Stop (List Int × Nat) := do
  let (_, e) ← vget errors eLen
  (List.range numTrials.toNat).foldlM (fun s _ => countStep fuel e o d ct rs eLen s) s

/-- `successes` after both loops. -/
def groupCounts (fuel : Nat) (o : ArgOrder) (d : Dims) (ct : List (List Int)) (rs : Nat → Nat) (numTrials : Int) :
    Except Stop (List Int) := do
  let (successes, _) ← (List.range errors.length).foldlM (countRound fuel o d ct rs numTrials)
    (List.replicate errors.length 0, 0)
  return successes

/-- The pieces printed for a group.  `printDouble` is how `std::cout` writes a double. -/
def groupPieces (printDouble : ℚ → Str) (id : Nat) (nonabelness : ℚ) (successes : List Int) : List Str :=
  ["group, ".toList, printInt id, ", probcomm, ".toList, printDouble nonabelness, ", ".toList] ++
    ((errors.zip successes).flatMap fun p => [p.1.1, ", ".toList, printInt p.2, ",".toList]) ++ ["\n".toList]

/-- What both programs do for a group: load the table, search, and hand over what is to be printed. -/
def group64 (files : Files) (fuel : Nat) (o : ArgOrder) (folder : Str) (d : Dims) (numTrials : Int)
    (printDouble : ℚ → Str) (id : Nat) (rs : Nat → Nat) : Except Stop (List Str) :=
  match (files (groupFile folder id)).bind (loadTable d.n) with
  | none => .error .undefinedRead
  | some ct => do
    let successes ← groupCounts fuel o d ct rs numTrials
    let nonabelness ← probCommute ct
    return groupPieces printDouble id nonabelness successes

/-- `main` of `search64.cpp`: what it prints. -/
def search64 (files : Files) (fuel : Nat) (o : ArgOrder) (folder : Str) (d : Dims) (numTrials : Int)
    (numGroups : Nat) (printDouble : ℚ → Str) (rs : Nat → Nat → Nat) (clock : Str) : Except Stop Str := do
  let out ← (List.range' 1 numGroups).foldlM (fun out id => do
    let pieces ← group64 files fuel o folder d numTrials printDouble id (rs id)
    return out ++ pieces.flatten) []
  return out ++ "\n".toList ++ "overall runtime: ".toList ++ clock ++ "\n".toList

/-- What `main` of `search64_par.cpp` prints on some schedule. -/
def Search64ParOutput (files : Files) (o : ArgOrder) (folder : Str) (d : Dims) (numTrials : Int) (numGroups : Nat)
    (printDouble : ℚ → Str) (rs : Nat → Nat → Nat) (clock : Str) (out : Str) : Prop :=
  ∃ (pieces : Nat → List Str) (printed : List Str),
    (∀ id, 1 ≤ id → id ≤ numGroups →
      Returns (fun fuel => group64 files fuel o folder d numTrials printDouble id (rs id)) (pieces id)) ∧
    Completes [()] (fun _ => List.range' 1 numGroups) pieces printed ∧
    out = printed.flatten ++ "total time: ".toList ++ clock ++ "\n".toList

/-- The searches with the calculators `es`, `m` with each, the first from position `pos`. -/
def IsBlocks (o : ArgOrder) (d : Dims) (ct : List (List Int)) (rs : Nat → Nat) (m : Nat) :
    List (ErrorCalc WrapInt) → Nat → List (List (Outcome WrapInt)) → Prop
  | [], _, [] => True
  | e :: es, pos, outs :: blocks =>
    IsTrials e o d ct rs pos outs ∧ outs.length = m ∧
      IsBlocks o d ct rs m es ((outs.map Outcome.pos).getLastD pos) blocks
  | _, _, _ => False

/-- How many of the searches found a set. -/
def numFound (outs : List (Outcome WrapInt)) : Int := (outs.countP fun out => out.err = 0 : Nat)

theorem errors_mem : ∀ e ∈ errors.map Prod.snd, e ∈ (calculators : List (ErrorCalc WrapInt)) := by
  simp [errors, calculators]

/-! ## Counters -/

theorem vmod_append {β : Type} (l : List β) (b : β) (l' : List β) (f : β → β) :
    vmod (l ++ b :: l') l.length f = .ok (l ++ f b :: l') := by
  have hlen : l.length < (l ++ b :: l').length := by
    rw [List.length_append, List.length_cons]
    omega
  unfold vmod
  rw [vget_nat _ _ hlen, ok_bind, vset_nat _ _ _ hlen, List.getElem_append_right (le_refl _),
    List.set_append_right _ _ (le_refl _)]
  simp

section
variable {d : Dims} {rs : Nat → Nat} (T : Table d.n) (hk : 1 ≤ d.k) (hkn : d.k ≤ d.n - 1) (hrs : Recurrent d rs)
  (o : ArgOrder)

include hk hkn hrs

/-- **The trials with one calculator**, which counts in its own entry. -/
theorem count_returns {e : ErrorCalc WrapInt} (he : e ∈ calculators) (l l' : List Int) (c : Int) (pos m : Nat) :
    ∃ outs,
      Returns (fun fuel => (List.range m).foldlM (fun s _ => countStep fuel e o d T.ct rs l.length s)
        (l ++ c :: l', pos)) (l ++ (c + numFound outs) :: l', (outs.map Outcome.pos).getLastD pos) ∧
      IsTrials e o d T.ct rs pos outs ∧ outs.length = m := by
  -- the loop on the counter alone
  have himage : ∀ fuel (t : Int × Nat) (i : Nat),
      countStep fuel e o d T.ct rs l.length (l ++ t.1 :: l', t.2) =
        (fun t : Int × Nat => (l ++ t.1 :: l', t.2)) <$> (search fuel o d T.ct rs t.2 e >>= fun out =>
          pure (if out.err = 0 then t.1 + 1 else t.1, out.pos)) := by
    intro fuel t _
    unfold countStep
    rw [map_bind]
    refine bind_congr fun out => ?_
    by_cases h : out.err = 0
    · rw [if_pos h, if_pos h, vmod_append]
      rfl
    · rw [if_neg h, if_neg h]
      rfl
  obtain ⟨outs, hloop, htrials, hlen, -⟩ := loop_returns T hk hkn he hrs o Prod.snd
    (fun (t : Int × Nat) out => (if out.err = 0 then t.1 + 1 else t.1, out.pos)) (fun _ => True)
    (fun t out _ => ⟨rfl, trivial, rfl⟩) (List.range m) (c, pos) trivial
  have htotal : ∀ (outs : List (Outcome WrapInt)) (t : Int × Nat),
      outs.foldl (fun t out => (if out.err = 0 then t.1 + 1 else t.1, out.pos)) t =
        (t.1 + numFound outs, (outs.map Outcome.pos).getLastD t.2) := by
    intro outs
    induction outs with
    | nil => intro t; simp [numFound]
    | cons out outs ih =>
      intro t
      rw [List.foldl_cons, ih]
      unfold numFound
      by_cases h : out.err = 0
      · simp only [h, if_true, List.countP_cons, decide_true, List.map_cons, List.getLastD_cons]
        push_cast
        rw [add_assoc, add_comm 1]
      · simp only [h, if_false, List.countP_cons, decide_false, List.map_cons, List.getLastD_cons]
        simp
  rw [htotal] at hloop
  refine ⟨outs, ?_, htrials, by rw [hlen, List.length_range]⟩
  have himages := fun fuel => foldlM_image (g := fun s _ => countStep fuel e o d T.ct rs l.length s)
    (fun t : Int × Nat => (l ++ t.1 :: l', t.2)) (himage fuel) (List.range m) (c, pos)
  have h := hloop.map fun t : Int × Nat => (l ++ t.1 :: l', t.2)
  simp only [himages]
  exact h

omit hk hkn hrs in
theorem countRound_mono (numTrials : Int) (s : List Int × Nat) (eLen : Nat) :
    FuelMono fun fuel => countRound fuel o d T.ct rs numTrials s eLen := by
  refine (FuelMono.const (vget errors eLen)).bind fun p => ?_
  refine FuelMono.foldlM (fun s _ => ?_) _ s
  exact (search_mono T p.2 o rs s.2).bind fun out => .const _

/-- **The rounds of the calculators `es`**, those in `pre` being done. -/
theorem rounds_returns (numTrials : Int) (es : List (Str × ErrorCalc WrapInt)) :
    ∀ (pre : List (Str × ErrorCalc WrapInt)) (done : List Int) (pos : Nat), errors = pre ++ es → done.length = pre.length → ∃ blocks pos',
      Returns (fun fuel => (List.range' done.length es.length).foldlM (countRound fuel o d T.ct rs numTrials)
        (done ++ List.replicate es.length 0, pos)) (done ++ blocks.map numFound, pos') ∧
      IsBlocks o d T.ct rs numTrials.toNat (es.map Prod.snd) pos blocks := by
  induction es with
  | nil =>
    intro pre done pos _ _
    exact ⟨[], pos, Returns.const _, trivial⟩
  | cons p es ih =>
    intro pre done pos herrors hlen
    have hget : vget errors (done.length : Nat) = .ok p := by
      have hlt : done.length < errors.length := by
        rw [herrors, List.length_append, List.length_cons]
        omega
      rw [vget_nat _ _ hlt]
      simp [herrors, hlen]
    have hcalc : p.2 ∈ (calculators : List (ErrorCalc WrapInt)) := by
      apply errors_mem
      rw [herrors]
      simp
    obtain ⟨outs, hround, htrials, houts⟩ := count_returns T hk hkn hrs o hcalc done
      (List.replicate es.length 0) 0 pos numTrials.toNat
    have hdone : (done ++ [numFound outs]).length = (pre ++ [p]).length := by
      rw [List.length_append, List.length_append, hlen]
      rfl
    obtain ⟨blocks, pos', hrest, hblocks⟩ := ih (pre ++ [p]) (done ++ [numFound outs])
      ((outs.map Outcome.pos).getLastD pos) (by rw [herrors, List.append_assoc]; rfl) hdone
    rw [List.length_append, List.length_singleton] at hrest
    refine ⟨outs :: blocks, pos', ?_, htrials, houts, hblocks⟩
    obtain ⟨⟨fuel, hfuel⟩, -⟩ := hround
    obtain ⟨⟨fuel', hfuel'⟩, -⟩ := hrest
    simp only [List.length_cons, List.range'_succ, List.foldlM_cons, List.replicate_succ]
    have hfirst : countRound fuel o d T.ct rs numTrials (done ++ 0 :: List.replicate es.length 0, pos)
        done.length = .ok (done ++ numFound outs :: List.replicate es.length 0,
          (outs.map Outcome.pos).getLastD pos) := by
      unfold countRound
      rw [hget, ok_bind]
      rw [zero_add] at hfuel
      exact hfuel
    have hthen : (List.range' (done.length + 1) es.length).foldlM (countRound fuel' o d T.ct rs numTrials)
        (done ++ numFound outs :: List.replicate es.length 0, (outs.map Outcome.pos).getLastD pos) =
          .ok (done ++ (outs :: blocks).map numFound, pos') := by
      simpa using hfuel'
    exact (countRound_mono T o numTrials _ _).bind_returns
      (fun s => FuelMono.foldlM (countRound_mono T o numTrials) _ s) hfirst hthen

/-- **The counters of a group.** -/
theorem groupCounts_returns (numTrials : Int) : ∃ blocks,
    Returns (fun fuel => groupCounts fuel o d T.ct rs numTrials) (blocks.map numFound) ∧
    IsBlocks o d T.ct rs numTrials.toNat (errors.map Prod.snd) 0 blocks := by
  obtain ⟨blocks, pos, hloop, hblocks⟩ := rounds_returns T hk hkn hrs o numTrials errors [] [] 0 rfl rfl
  refine ⟨blocks, ?_, hblocks⟩
  have h := hloop.map Prod.fst
  simp only [← bind_pure_comp] at h
  rw [List.nil_append] at h
  unfold groupCounts
  rw [List.range_eq_range']
  exact h

omit hk hkn hrs in
theorem groupCounts_mono (numTrials : Int) : FuelMono fun fuel => groupCounts fuel o d T.ct rs numTrials :=
  (FuelMono.foldlM (countRound_mono T o numTrials) _ _).bind fun _ => .const _

end

theorem IsBlocks.length {o : ArgOrder} {d : Dims} {ct : List (List Int)} {rs : Nat → Nat} {m : Nat}
    {es : List (ErrorCalc WrapInt)} : ∀ {pos : Nat} {blocks : List (List (Outcome WrapInt))},
      IsBlocks o d ct rs m es pos blocks → blocks.length = es.length := by
  induction es with
  | nil =>
    intro pos blocks h
    cases blocks with
    | nil => rfl
    | cons outs blocks => exact h.elim
  | cons e es ih =>
    intro pos blocks h
    cases blocks with
    | nil => exact h.elim
    | cons outs blocks => rw [List.length_cons, List.length_cons, ih h.2.2]

/-- What each search brought. -/
theorem IsBlocks.isResult {d : Dims} (T : GroupTable d.n) (hd : InRangeDims d) (hn : d.n ≤ 75) {rs : Nat → Nat}
    (hrs : Recurrent d rs) {o : ArgOrder} {m : Nat} {es : List (ErrorCalc WrapInt)} (hes : ∀ e ∈ es, e ∈ calculators) :
    ∀ {pos : Nat} {blocks : List (List (Outcome WrapInt))}, IsBlocks o d T.ct rs m es pos blocks →
      ∀ outs ∈ blocks, outs.length = m ∧
        ∀ out ∈ outs, out.err = 0 ↔ IsRegularPDS (T.toFinset out.set) d.k d.lam d.mu := by
  induction es with
  | nil =>
    intro pos blocks h
    cases blocks with
    | nil => simp
    | cons outs blocks => exact h.elim
  | cons e es ih =>
    intro pos blocks h
    cases blocks with
    | nil => exact h.elim
    | cons outs blocks =>
      obtain ⟨htrials, hlen, hrest⟩ := h
      rw [List.forall_mem_cons]
      refine ⟨⟨hlen, fun out hout => ?_⟩, ih (fun e he => hes e (List.mem_cons_of_mem _ he)) hrest⟩
      have he := hes e List.mem_cons_self
      exact (htrials.isResult T hd.k.1 hd.k.2 he (detects_wrap_small hd hn he) hrs out hout).zero

/-! ## One group -/

section
variable {d : Dims} {rs : Nat → Nat} (T : GroupTable d.n) {files : Files} {folder : Str} {id : Nat}
  (hfile : (files (groupFile folder id)).bind (loadTable d.n) = some T.ct) (o : ArgOrder) (numTrials : Int)
  (printDouble : ℚ → Str)

include hfile

/-- The part of a group after the loader. -/
theorem group64_eq (fuel : Nat) : group64 files fuel o folder d numTrials printDouble id rs =
    (groupPieces printDouble id (Nat.card (ConjClasses T.Elem) / d.n)) <$> groupCounts fuel o d T.ct rs numTrials := by
  have hcard : Nat.card T.Elem = d.n := by
    rw [Nat.card_eq_fintype_card]
    exact Fintype.card_fin d.n
  unfold group64
  rw [hfile]
  simp only [probCommute_eq, commProb_def', hcard, ok_bind]
  exact bind_pure_comp _ _

theorem group64_mono : FuelMono fun fuel => group64 files fuel o folder d numTrials printDouble id rs := by
  simp only [group64_eq T hfile]
  exact (groupCounts_mono T.toTable o numTrials).map _

end

/-! ## Top theorem -/

/-- The text of a group. -/
noncomputable def groupText64 {d : Dims} (T : GroupTable d.n) (printDouble : ℚ → Str) (id : Nat)
    (blocks : List (List (Outcome WrapInt))) : Str :=
  (groupPieces printDouble id (Nat.card (ConjClasses T.Elem) / d.n) (blocks.map numFound)).flatten

section
variable {d : Dims} (T : Nat → GroupTable d.n) (hk : 1 ≤ d.k) (hkn : d.k ≤ d.n - 1) {files : Files} {folder : Str}
  {numGroups : Nat}
  (hfile : ∀ id, 1 ≤ id → id ≤ numGroups → (files (groupFile folder id)).bind (loadTable d.n) = some (T id).ct)
  (o : ArgOrder) (numTrials : Int) {rs : Nat → Nat → Nat} (printDouble : ℚ → Str)
  {blocks : Nat → List (List (Outcome WrapInt))}

/-- The searches of each group. -/
def GroupBlocks {d : Dims} (T : Nat → GroupTable d.n) (files : Files) (folder : Str) (numGroups : Nat)
    (o : ArgOrder) (numTrials : Int) (rs : Nat → Nat → Nat) (printDouble : ℚ → Str)
    (blocks : Nat → List (List (Outcome WrapInt))) : Prop :=
  ∀ id, 1 ≤ id → id ≤ numGroups →
    Returns (fun fuel => group64 files fuel o folder d numTrials printDouble id (rs id))
      (groupPieces printDouble id (Nat.card (ConjClasses (T id).Elem) / d.n) ((blocks id).map numFound)) ∧
    IsBlocks o d (T id).ct (rs id) numTrials.toNat (errors.map Prod.snd) 0 (blocks id)

include hfile

include hk hkn in
theorem exists_groupBlocks (hrs : ∀ id, 1 ≤ id → id ≤ numGroups → Recurrent d (rs id)) :
    ∃ blocks, GroupBlocks T files folder numGroups o numTrials rs printDouble blocks := by
  have hgroup : ∀ id, 1 ≤ id → id ≤ numGroups → ∃ blocks : List (List (Outcome WrapInt)),
      Returns (fun fuel => group64 files fuel o folder d numTrials printDouble id (rs id))
        (groupPieces printDouble id (Nat.card (ConjClasses (T id).Elem) / d.n) (blocks.map numFound)) ∧
      IsBlocks o d (T id).ct (rs id) numTrials.toNat (errors.map Prod.snd) 0 blocks := by
    intro id h1 h2
    obtain ⟨blocks, hcounts, hblocks⟩ := groupCounts_returns (T id).toTable hk hkn (hrs id h1 h2) o numTrials
    refine ⟨blocks, ?_, hblocks⟩
    simp only [group64_eq (T id) (hfile id h1 h2)]
    exact hcounts.map _
  choose! blocks hblocks using hgroup
  exact ⟨blocks, hblocks⟩

/-- The text of the first program. -/
theorem GroupBlocks.returns (h : GroupBlocks T files folder numGroups o numTrials rs printDouble blocks)
    (clock : Str) :
    Returns (fun fuel => search64 files fuel o folder d numTrials numGroups printDouble rs clock)
      (((List.range' 1 numGroups).flatMap fun id => groupText64 (T id) printDouble id (blocks id)) ++
        "\n".toList ++ "overall runtime: ".toList ++ clock ++ "\n".toList) := by
  have hmono : ∀ id ∈ List.range' 1 numGroups, ∀ out : Str, FuelMono fun fuel => do
      let pieces ← group64 files fuel o folder d numTrials printDouble id (rs id)
      return out ++ pieces.flatten := by
    intro id hid out
    rw [List.mem_range'_1] at hid
    exact (group64_mono (T id) (hfile id hid.1 (by omega)) o numTrials printDouble).bind fun _ => .const _
  have hret : ∀ id ∈ List.range' 1 numGroups, ∀ out : Str, Returns (fun fuel => do
      let pieces ← group64 files fuel o folder d numTrials printDouble id (rs id)
      return out ++ pieces.flatten) (out ++ groupText64 (T id) printDouble id (blocks id)) := by
    intro id hid out
    rw [List.mem_range'_1] at hid
    have hgroup := (h id hid.1 (by omega)).1.map fun pieces => out ++ pieces.flatten
    simp only [← bind_pure_comp] at hgroup
    exact hgroup
  have hloop := (Returns.foldlM hmono hret []).2.map fun out =>
    out ++ "\n".toList ++ "overall runtime: ".toList ++ clock ++ "\n".toList
  rw [List.foldl_append_eq_append, List.nil_append] at hloop
  simp only [← bind_pure_comp] at hloop
  exact hloop

end

/-- **Both programs print the same lines.**  With generators that take every value again and again both
end.  The line of a group has its commuting probability, the number of conjugacy classes over
the order, and for each calculator how many of its `NUM_TRIALS` searches ended at a partial difference set;
the first program prints the lines in the order of the groups, the second, on every schedule, in some
order. -/
theorem search64_run {d : Dims} (T : Nat → GroupTable d.n) (hd : InRangeDims d) (hn : d.n ≤ 75) {files : Files}
    {folder : Str} (numGroups : Nat)
    (hfile : ∀ id, 1 ≤ id → id ≤ numGroups → (files (groupFile folder id)).bind (loadTable d.n) = some (T id).ct)
    (o : ArgOrder) (numTrials : Int) (rs : Nat → Nat → Nat)
    (hrs : ∀ id, 1 ≤ id → id ≤ numGroups → Recurrent d (rs id)) (printDouble : ℚ → Str) (clock clock' : Str) :
    ∃ blocks : Nat → List (List (Outcome WrapInt)),
      (∀ id, 1 ≤ id → id ≤ numGroups →
        IsBlocks o d (T id).ct (rs id) numTrials.toNat (errors.map Prod.snd) 0 (blocks id) ∧
        ∀ outs ∈ blocks id, outs.length = numTrials.toNat ∧
          ∀ out ∈ outs, out.err = 0 ↔ IsRegularPDS ((T id).toFinset out.set) d.k d.lam d.mu) ∧
      Returns (fun fuel => search64 files fuel o folder d numTrials numGroups printDouble rs clock)
        (((List.range' 1 numGroups).flatMap fun id => groupText64 (T id) printDouble id (blocks id)) ++
          "\n".toList ++ "overall runtime: ".toList ++ clock ++ "\n".toList) ∧
      (∃ out, Search64ParOutput files o folder d numTrials numGroups printDouble rs clock' out) ∧
      ∀ out, Search64ParOutput files o folder d numTrials numGroups printDouble rs clock' out →
        ∃ perm : List Nat, perm.Perm (List.range' 1 numGroups) ∧
          out = (perm.flatMap fun id => groupText64 (T id) printDouble id (blocks id)) ++
            "total time: ".toList ++ clock' ++ "\n".toList := by
  obtain ⟨blocks, hblocks⟩ := exists_groupBlocks T hd.k.1 hd.k.2 hfile o numTrials printDouble hrs
  refine ⟨blocks, ?_, hblocks.returns T hfile o numTrials printDouble clock, ?_, ?_⟩
  · intro id h1 h2
    obtain ⟨-, hid⟩ := hblocks id h1 h2
    exact ⟨hid, hid.isResult (T id) hd hn (hrs id h1 h2) errors_mem⟩
  · obtain ⟨printed, hrun⟩ := exists_completes [()] (fun _ => List.range' 1 numGroups) fun id =>
      groupPieces printDouble id (Nat.card (ConjClasses (T id).Elem) / d.n) ((blocks id).map numFound)
    exact ⟨_, _, printed, fun id h1 h2 => (hblocks id h1 h2).1, hrun, rfl⟩
  · rintro out ⟨pieces, printed, hpieces, hrun, rfl⟩
    obtain ⟨perm, hperm, rfl⟩ := hrun.order
    rw [List.flatMap_singleton] at hperm
    refine ⟨perm, hperm, ?_⟩
    congr 3
    rw [← List.flatMap_id', List.flatMap_assoc]
    apply List.flatMap_congr
    intro id hid
    have hid' := hperm.mem_iff.1 hid
    rw [List.mem_range'_1] at hid'
    rw [(hpieces id hid'.1 (by omega)).unique (hblocks id hid'.1 (by omega)).1, List.flatMap_id']
    rfl

/-- Two groups, both cyclic of order 5, with a counter as generator of both. -/
theorem search64_run_five : ∃ (files : Files) (blocks : Nat → List (List (Outcome WrapInt))) (out : Str),
    (Returns (fun fuel => search64 files fuel .leftFirst "t".toList ⟨5, 2, 0, 1⟩ 3 2 (fun _ => []) (fun _ => id) [])
      (([1, 2].flatMap fun id => groupText64 (d := ⟨5, 2, 0, 1⟩) (cyclicTable 5) (fun _ => []) id (blocks id)) ++
        "\n".toList ++ "overall runtime: ".toList ++ [] ++ "\n".toList)) ∧
    Search64ParOutput files .leftFirst "t".toList ⟨5, 2, 0, 1⟩ 3 2 (fun _ => []) (fun _ => id) [] out := by
  obtain ⟨file, hload⟩ := exists_loadTable_five
  let files : Files := fun _ => some file
  have hfile : ∀ id, 1 ≤ id → id ≤ 2 →
      (files (groupFile "t".toList id)).bind (loadTable 5) = some (cyclicTable 5).ct := fun _ _ _ => hload
  obtain ⟨blocks, -, hmain, ⟨out, hout⟩, -⟩ := search64_run (d := ⟨5, 2, 0, 1⟩) (fun _ => cyclicTable 5)
    inRangeDims_five (by decide) 2 hfile .leftFirst 3 (fun _ => id)
    (fun _ _ _ => recurrent_id (by decide)) (fun _ => []) [] []
  exact ⟨files, blocks, out, hmain, hout⟩

end PdsSearch
