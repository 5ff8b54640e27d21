import PdsSearch.CheckPDS
import PdsSearch.SelectStart

/-!
# The trials of one group (`searchMany.cpp`)

A task runs one search after the other with one generator, until one finds a set
or `NUM_TRIALS` are done.  With a generator that takes every value again and again
(`Recurrent`) every search ends, and so does the task:

    groupTask = some (S, trial) → trial is the number of the first search with error
      zero, and S is a partial difference set, sorted
    groupTask = none → NUM_TRIALS searches, none of which found one     (groupTask_run)

The searches are those of the program, with errors in wrapping `int`s; that an error is
zero for partial difference sets only takes numbers in range (`detects_wrap`).
-/

namespace PdsSearch

open Checked GroupRing Text MachineInt PartialDifferenceSet

variable {d : Dims}

/-- From every position on, every value is drawn. -/
def Recurrent (d : Dims) (rs : Nat → Nat) : Prop :=
  ∀ pos v, 1 ≤ v → v < d.n → ∃ j, draw d rs pos j = v

/-- The stream `0, 1, 2, …` does. -/
theorem recurrent_id (hn : 2 ≤ d.n) : Recurrent d id := by
  intro pos v h1 hv
  refine ⟨pos * (d.n - 2) + (v - 1), ?_⟩
  have hsum : pos + (pos * (d.n - 2) + (v - 1)) = (v - 1) + pos * (d.n - 1) := by
    obtain ⟨m, hm⟩ : ∃ m, d.n = m + 2 := ⟨d.n - 2, by omega⟩
    rw [hm, show m + 2 - 2 = m by omega, show m + 2 - 1 = m + 1 by omega]
    ring
  unfold draw
  rw [hsum, id, Nat.add_mul_mod_self_right, Nat.mod_eq_of_lt (by omega)]
  omega

section
variable {α : Type} [CommRing α] [LinearOrder α]

/-- The results of searches one after the other, the first from position `pos`. -/
def IsTrials (e : ErrorCalc α) (o : ArgOrder) (d : Dims) (ct : List (List Int)) (rs : Nat → Nat) :
    Nat → List (Outcome α) → Prop
  | _, [] => True
  | pos, out :: outs =>
    Returns (fun fuel => search fuel o d ct rs pos e) out ∧ IsTrials e o d ct rs out.pos outs

end

/-- How the loop over `m` trials ends, `i` trials having been made before. -/
def EndsWith {α : Type} [Zero α] (m i : Nat) (outs : List (Outcome α)) : Option (List Int × Nat) → Prop
  | none => outs.length = m ∧ ∀ out ∈ outs, out.err ≠ 0
  | some (S, trial) => ∃ failed out, outs = failed ++ [out] ∧ (∀ out ∈ failed, out.err ≠ 0) ∧
      out.err = 0 ∧ S = out.set.insertionSort (· ≤ ·) ∧ outs.length ≤ m ∧ trial = i + outs.length

/-! ## Every search ends -/

section
variable {α : Type} [CommRing α] [LinearOrder α] {rs : Nat → Nat}

theorem l2Error_mem : (l2Error : ErrorCalc α) ∈ calculators := by simp [calculators]

theorem Recurrent.exists_kthNew (hrs : Recurrent d rs) (hkn : d.k ≤ d.n - 1) (pos : Nat) :
    ∃ m, KthNew (draw d rs pos) d.k m := by
  rw [Checked.exists_kthNew]
  have hsub : (Finset.Ico 1 d.n : Set Nat) ⊆ Set.range (draw d rs pos) := by
    intro v hv
    rw [Finset.coe_Ico, Set.mem_Ico] at hv
    exact hrs pos v hv.1 hv.2
  have hcard := Set.encard_le_encard hsub
  rw [Set.encard_coe_eq_coe_finsetCard, Nat.card_Ico] at hcard
  exact le_trans (by exact_mod_cast hkn) hcard

theorem search_mono (T : Table d.n) (e : ErrorCalc α) (o : ArgOrder) (rs : Nat → Nat) (pos : Nat) :
    FuelMono fun fuel => search fuel o d T.ct rs pos e :=
  (localSearch_mono .new o rs pos).map Prod.fst

theorem trialLoop_mono (T : Table d.n) (e : ErrorCalc α) (o : ArgOrder) (rs : Nat → Nat) (m : Nat) : ∀ i pos,
    FuelMono fun fuel => trialLoop e fuel o d T.ct rs m i pos := by
  induction m with
  | zero => intro i pos; exact .const _
  | succ m ih =>
    intro i pos
    unfold trialLoop
    refine (search_mono T e o rs pos).bind fun result => ?_
    by_cases h : result.err = ((0 : Int) : α)
    · simp only [if_pos h]
      exact .const _
    · simp only [if_neg h]
      exact ih (i + 1) result.pos

/-- **Every search ends.** -/
theorem search_returns (T : Table d.n) (hk : 1 ≤ d.k) (hkn : d.k ≤ d.n - 1) {e : ErrorCalc α}
    (he : e ∈ calculators) (hrs : Recurrent d rs) (o : ArgOrder) (pos : Nat) :
    ∃ (c : Candidate T) (out : Outcome α),
      Returns (fun fuel => search fuel o d T.ct rs pos e) out ∧ out.set = T.ints c.xs ∧
        error d T.ct out.set e = .ok out.err := by
  obtain ⟨norm, hM⟩ := exists_norm T (by omega) e he
  obtain ⟨m, hm⟩ := hrs.exists_kthNew hkn pos
  have hlen : (List.replicate d.k (-1 : Int)).length = d.k := List.length_replicate
  obtain ⟨⟨S, isMember, pos'⟩, hsel⟩ :=
    selectStartSet_returns rs pos (by omega) hlen hm (Nat.lt_succ_self m)
  obtain ⟨c, rfl, rfl⟩ := selectStartSet_ok T rs (by omega) _ pos _ _ _ hsel
  obtain ⟨start, hdraw⟩ := exists_start (d := d) o rs pos' hk (by omega)
  obtain ⟨tr, c', es, -, -, hret⟩ :=
    localSearch_complete .new o rs hM hk (by omega) hsel fun r => (hdraw r).1
  exact ⟨c', _, hret.map Prod.fst, rfl, error_candidate hM c'⟩

/-- **A loop whose rounds are searches ends**, when what follows a search in its round does. -/
theorem loop_returns (T : Table d.n) (hk : 1 ≤ d.k) (hkn : d.k ≤ d.n - 1) {e : ErrorCalc α}
    (he : e ∈ calculators) (hrs : Recurrent d rs) (o : ArgOrder) {τ ι : Type} (pos : τ → Nat)
    {body : τ → Outcome α → Except Stop τ} (add : τ → Outcome α → τ) (I : τ → Prop)
    (hbody : ∀ t out, I t → body t out = .ok (add t out) ∧ I (add t out) ∧ pos (add t out) = out.pos)
    (l : List ι) : ∀ t, I t → ∃ outs,
      Returns (fun fuel => l.foldlM (fun t _ => search fuel o d T.ct rs (pos t) e >>= body t) t)
        (outs.foldl add t) ∧
      IsTrials e o d T.ct rs (pos t) outs ∧ outs.length = l.length ∧ I (outs.foldl add t) := by
  have hmono : ∀ t (_ : ι), FuelMono fun fuel => search fuel o d T.ct rs (pos t) e >>= body t :=
    fun t _ => (search_mono T e o rs (pos t)).bind fun out => .const (body t out)
  induction l with
  | nil =>
    intro t ht
    exact ⟨[], Returns.const t, trivial, rfl, ht⟩
  | cons i l ih =>
    intro t ht
    obtain ⟨-, out, hret, -, -⟩ := search_returns T hk hkn he hrs o (pos t)
    obtain ⟨hadd, hI, hpos⟩ := hbody t out ht
    obtain ⟨outs, hloop, htrials, hlen, hend⟩ := ih (add t out) hI
    obtain ⟨fuel, hfuel⟩ : ∃ fuel, search fuel o d T.ct rs (pos t) e = .ok out := hret.1
    have hround : search fuel o d T.ct rs (pos t) e >>= body t = .ok (add t out) := by
      rw [hfuel, ok_bind, hadd]
    obtain ⟨fuel', hfuel'⟩ := hloop.1
    refine ⟨out :: outs, ?_, ⟨hret, ?_⟩, ?_, hend⟩
    · simp only [List.foldlM_cons]
      exact (hmono t i).bind_returns (fun t => FuelMono.foldlM hmono l t) hround hfuel'
    · rw [← hpos]
      exact htrials
    · rw [List.length_cons, List.length_cons, hlen]

/-- **The loop over the trials ends**, at the first success or after the last trial. -/
theorem trialLoop_returns (T : Table d.n) (hk : 1 ≤ d.k) (hkn : d.k ≤ d.n - 1) {e : ErrorCalc α}
    (he : e ∈ calculators) (hrs : Recurrent d rs) (o : ArgOrder) (m : Nat) : ∀ i pos, ∃ result outs,
      Returns (fun fuel => trialLoop e fuel o d T.ct rs m i pos) result ∧ IsTrials e o d T.ct rs pos outs ∧
        EndsWith m i outs result := by
  induction m with
  | zero =>
    intro i pos
    exact ⟨none, [], Returns.const none, trivial, rfl, by simp⟩
  | succ m ih =>
    intro i pos
    obtain ⟨c, out, hret, -, -⟩ := search_returns T hk hkn he hrs o pos
    obtain ⟨fuel, hfuel⟩ : ∃ fuel, search fuel o d T.ct rs pos e = .ok out := hret.1
    by_cases h0 : out.err = 0
    · have hloop : trialLoop e fuel o d T.ct rs (m + 1) i pos =
          .ok (some (out.set.insertionSort (· ≤ ·), i + 1)) := by
        unfold trialLoop
        rw [hfuel, ok_bind, if_pos (by rw [Int.cast_zero]; exact h0)]
        rfl
      refine ⟨_, [out], (trialLoop_mono T e o rs (m + 1) i pos).returns hloop, ⟨hret, trivial⟩, ?_⟩
      refine ⟨[], out, rfl, by simp, h0, rfl, ?_, rfl⟩
      rw [List.length_singleton]
      omega
    · obtain ⟨result, outs, ⟨⟨fuel', hfuel'⟩, -⟩, htrials, hend⟩ := ih (i + 1) out.pos
      have hmax : search (max fuel fuel') o d T.ct rs pos e = .ok out :=
        search_mono T e o rs pos fuel out hfuel _ (Nat.le_max_left _ _)
      have hloop : trialLoop e (max fuel fuel') o d T.ct rs (m + 1) i pos = .ok result := by
        unfold trialLoop
        rw [hmax, ok_bind, if_neg (by rw [Int.cast_zero]; exact h0)]
        exact trialLoop_mono T e o rs m (i + 1) out.pos fuel' result hfuel' _ (Nat.le_max_right _ _)
      refine ⟨result, out :: outs, (trialLoop_mono T e o rs (m + 1) i pos).returns hloop,
        ⟨hret, htrials⟩, ?_⟩
      · cases result with
        | none =>
          obtain ⟨hlen, hfail⟩ := hend
          refine ⟨by rw [List.length_cons, hlen], ?_⟩
          rw [List.forall_mem_cons]
          exact ⟨h0, hfail⟩
        | some r =>
          obtain ⟨failed, last, rfl, hfail, hlast, hS, hlen, htrial⟩ := hend
          refine ⟨out :: failed, last, rfl, ?_, hlast, hS, ?_, ?_⟩
          · rw [List.forall_mem_cons]
            exact ⟨h0, hfail⟩
          · rw [List.length_cons]
            omega
          · rw [htrial, List.length_cons]
            omega

theorem IsTrials.exists_pos {e : ErrorCalc α} {o : ArgOrder} {ct : List (List Int)}
    {outs : List (Outcome α)} : ∀ {pos}, IsTrials e o d ct rs pos outs →
    ∀ out ∈ outs, ∃ pos, Returns (fun fuel => search fuel o d ct rs pos e) out := by
  induction outs with
  | nil =>
    intro pos _ out hout
    cases hout
  | cons out outs ih =>
    intro pos h
    rw [List.forall_mem_cons]
    exact ⟨⟨pos, h.1⟩, ih h.2⟩

/-- What each trial brought. -/
theorem IsTrials.isResult (T : GroupTable d.n) (hk : 1 ≤ d.k) (hkn : d.k ≤ d.n - 1)
    {e : ErrorCalc α} (he : e ∈ calculators) (hdet : Detects T e) (hrs : Recurrent d rs) {o : ArgOrder} {pos : Nat}
    {outs : List (Outcome α)} (h : IsTrials e o d T.ct rs pos outs) :
    ∀ out ∈ outs, IsResult T e out.set out.err := by
  intro out hout
  obtain ⟨pos', hret⟩ := h.exists_pos out hout
  obtain ⟨c, out', hret', hset, herr⟩ := search_returns T.toTable hk hkn he hrs o pos'
  obtain ⟨fuel, hfuel⟩ := hret'.1
  obtain rfl : out' = out := hret.2 fuel out' hfuel
  rw [hset] at herr ⊢
  exact c.isResult hdet herr

end

/-! ## The task -/

/-- What a set that was found is. -/
structure IsFound (T : GroupTable d.n) (S : List Int) : Prop where
  sorted : S.Pairwise (· < ·)
  length : S.length = d.k
  values : ∀ x ∈ S, 1 ≤ x ∧ x < d.n
  pds : IsRegularPDS (T.toFinset S) d.k d.lam d.mu

/-- The elements of a result with error zero, sorted. -/
theorem IsResult.isFound {α : Type} [CommRing α] {T : GroupTable d.n} {e : ErrorCalc α} {S : List Int}
    (h : IsResult T e S 0) :
    IsFound T (S.insertionSort (· ≤ ·)) := by
  have hperm := List.perm_insertionSort (· ≤ ·) S
  refine ⟨?_, ?_, ?_, ?_⟩
  · have hle := List.pairwise_insertionSort (· ≤ ·) S
    have hne : (S.insertionSort (· ≤ ·)).Nodup := hperm.nodup_iff.2 h.nodup
    exact (hle.and hne).imp fun hab => lt_of_le_of_ne hab.1 hab.2
  · rw [hperm.length_eq, h.length]
  · intro x hx
    have := h.values x (hperm.mem_iff.1 hx)
    omega
  · have hset : T.toFinset (S.insertionSort (· ≤ ·)) = T.toFinset S := by
      ext x
      rw [T.mem_toFinset, T.mem_toFinset, hperm.mem_iff]
    rw [hset]
    exact h.zero.1 rfl

theorem EndsWith.isFound {α : Type} [CommRing α] {T : GroupTable d.n} {e : ErrorCalc α} {m i : Nat}
    {outs : List (Outcome α)} {S : List Int} {trial : Nat} (h : EndsWith m i outs (some (S, trial)))
    (hres : ∀ out ∈ outs, IsResult T e out.set out.err) : IsFound T S := by
  obtain ⟨failed, last, rfl, -, hlast, rfl, -, -⟩ := h
  have hlastRes := hres last (by simp)
  rw [hlast] at hlastRes
  exact hlastRes.isFound

/-- The task loads its table and runs the loop. -/
theorem groupTask_eq (T : Table d.n) {files : Str → Option Str} {gid : Nat} (hfile : HasTable files gid T)
    (hn : Fits d.n) (hgid : Fits gid) (fuel : Nat) (o : ArgOrder) (multiplier : Int) (rs : Nat → Nat) :
    groupTask files fuel o multiplier d gid rs =
      trialLoop (l2Error : ErrorCalc WrapInt) fuel o d T.ct rs (numTrials multiplier d).toNat 0 0 := by
  unfold groupTask
  rw [hfile, Option.bind_some, loadTable_write d.n gid T.ct T.rows T.cols T.entries, if_pos ⟨hn, hgid⟩]

/-- **A task ends, and what it finds is a partial difference set.**  With the table of its group in
the directory, and a generator that takes every value again and again, it returns.  The searches
it made are one after the other from one generator; a set is that of the first search with error
zero, its `k` elements in increasing order, and a partial difference set; without one all
`NUM_TRIALS` searches were made, and not one ended at a partial difference set. -/
theorem groupTask_run (T : GroupTable d.n) (hd : InRangeDims d) {files : Str → Option Str} {gid : Nat}
    (hfile : HasTable files gid T.toTable) (hgid : Fits gid) (o : ArgOrder) (multiplier : Int)
    {rs : Nat → Nat} (hrs : Recurrent d rs) : ∃ (result : Option (List Int × Nat)) (outs : List (Outcome WrapInt)),
      Returns (fun fuel => groupTask files fuel o multiplier d gid rs) result ∧
      IsTrials l2Error o d T.ct rs 0 outs ∧
      match result with
      | some (S, trial) => outs.length = trial ∧ 1 ≤ trial ∧ (trial : Int) ≤ numTrials multiplier d ∧
          (∀ out ∈ outs.dropLast, out.err ≠ 0) ∧
          (∃ out, outs.getLast? = some out ∧ out.err = 0 ∧ S = out.set.insertionSort (· ≤ ·)) ∧ IsFound T S
      | none => outs.length = (numTrials multiplier d).toNat ∧
          ∀ out ∈ outs, ¬ IsRegularPDS (T.toFinset out.set) d.k d.lam d.mu := by
  obtain ⟨result, outs, hret, htrials, hend⟩ :=
    trialLoop_returns T.toTable hd.k.1 hd.k.2 (l2Error_mem (α := WrapInt)) hrs o (numTrials multiplier d).toNat 0 0
  have hres := htrials.isResult T hd.k.1 hd.k.2 l2Error_mem (detects_wrap hd (by simp)) hrs
  refine ⟨result, outs, ?_, htrials, ?_⟩
  · simp only [groupTask_eq T.toTable hfile hd.fits hgid]
    exact hret
  · cases result with
    | none =>
      obtain ⟨hlen, hfail⟩ := hend
      exact ⟨hlen, fun out hout hpds => hfail out hout ((hres out hout).zero.2 hpds)⟩
    | some r =>
      obtain ⟨S, trial⟩ := r
      have hfound := hend.isFound hres
      obtain ⟨failed, last, rfl, hfail, hlast, hS, hlen, rfl⟩ := hend
      rw [List.length_append, List.length_singleton] at hlen ⊢
      refine ⟨by omega, by omega, by omega, ?_, ⟨last, List.getLast?_concat, hlast, hS⟩, hfound⟩
      rwa [List.dropLast_concat]

/-- A file with the table of the cyclic group of order 5. -/
theorem exists_loadTable_five : ∃ file, loadTable 5 file = some (cyclicTable 5).ct := by
  have hfits : Fits (5 : Nat) ∧ Fits 1 := ⟨by decide, by decide⟩
  have hload := loadTable_write 5 1 (cyclicTable 5).ct (cyclicTable 5).rows (cyclicTable 5).cols
    (cyclicTable 5).entries
  rw [if_pos hfits] at hload
  exact ⟨_, hload⟩

theorem inRangeDims_five : InRangeDims ⟨5, 2, 0, 1⟩ := ⟨by decide, by decide, by decide, by decide⟩

/-- The stream `0, 1, 2, …` in order 5, for two elements: the first search finds `{1, 4}`. -/
theorem groupTask_run_cyclic : ∃ outs : List (Outcome WrapInt),
    Returns (fun fuel => groupTask (oneFile (cyclicTable 5).toTable) fuel .leftFirst 1 ⟨5, 2, 0, 1⟩ 1 id)
      (some ([1, 4], 1)) ∧
    IsTrials l2Error .leftFirst ⟨5, 2, 0, 1⟩ (cyclicTable 5).ct id 0 outs ∧
    (∃ out, outs.getLast? = some out ∧ out.err = 0 ∧ [1, 4] = out.set.insertionSort (· ≤ ·)) ∧
    IsFound (d := ⟨5, 2, 0, 1⟩) (cyclicTable 5) [1, 4] := by
  obtain ⟨result, outs, hret, htrials, hend⟩ :=
    groupTask_run (d := ⟨5, 2, 0, 1⟩) (cyclicTable 5) inRangeDims_five (hasTable_oneFile _) (by decide)
      .leftFirst 1 (recurrent_id (by decide))
  obtain rfl : some ([1, 4], 1) = result := hret.2 20 _ rfl
  exact ⟨outs, hret, htrials, hend.2.2.2.2.1, hend.2.2.2.2.2⟩

end PdsSearch
