import PdsSearch.AlternateAccepts
import PdsSearch.RandomGens
import PdsSearch.TrialRuns

/-!
# What the search can find

A search whose start set is a partial difference set ends there.  So no set is out of
reach, and a search is no worse than a guess:

    IsFound T S ↔ some generator makes the task print S                  (groupTask_finds)
    of the runs that choose a start set in m draws, the part that ends at a partial
      difference set is at least their part among the sets of k elements    (search_chance)
-/

namespace PdsSearch

open Checked GroupRing Text MachineInt PartialDifferenceSet

variable {d : Dims}

/-! ## Start sets -/

/-- A start set that is a partial difference set is the result. -/
theorem search_start {α : Type} [CommRing α] [LinearOrder α] (T : GroupTable d.n) (hn : 0 < d.n)
    {e : ErrorCalc α} (he : e ∈ calculators) (hdet : Detects T e) {rs : Nat → Nat} (o : ArgOrder)
    {fuel pos pos' : Nat} {S : List Int} {isMember : List Bool}
    (hsel : selectStartSet fuel d rs pos (List.replicate d.k (-1)) (List.replicate d.n false) =
      .ok (S, isMember, pos')) (hpds : IsRegularPDS (T.toFinset S) d.k d.lam d.mu) :
    Returns (fun fuel => search fuel o d T.ct rs pos e) ⟨S, 0, pos'⟩ := by
  obtain ⟨norm, hM⟩ := exists_norm T.toTable hn e he
  obtain ⟨c, rfl, rfl⟩ := selectStartSet_ok T.toTable rs hn fuel pos _ _ _ hsel
  have hzero : c.err norm = 0 := (hdet c _ (error_candidate hM c)).2 hpds
  have hinit := initSearch_mono (T := T.toTable) rs pos fuel _ (initSearch_eq rs hM c fuel pos pos' hsel)
    (fuel + 1) (Nat.le_succ fuel)
  have hrun : search (fuel + 1) o d T.ct rs pos e = .ok ⟨T.ints c.xs, 0, pos'⟩ := by
    unfold search localSearch
    simp only at hinit
    rw [hinit, ok_bind]
    simp only [Machine.exec, searchMachine, searchStep, hzero, Int.cast_zero, lt_self_iff_false, false_and,
      if_false]
    rfl
  exact (search_mono T.toTable e o rs pos).returns hrun

theorem selectStartSet_isStart (hn : 2 ≤ d.n) {rs : Nat → Nat} {fuel pos pos' : Nat} {S : List Int}
    {isMember : List Bool}
    (hsel : selectStartSet fuel d rs pos (List.replicate d.k (-1)) (List.replicate d.n false) =
      .ok (S, isMember, pos')) : IsStart d.n d.k S := by
  rcases selectStartSet_result rs pos hn List.length_replicate fuel with h | ⟨m, hm, h⟩
  · rw [hsel] at h
    cases h
  · rw [hsel] at h
    obtain ⟨rfl, -, -⟩ := by simpa using h
    refine ⟨by rw [List.length_map, hm.length_eq], ?_, ?_⟩
    · exact (nodup_firstValues _ m).map fun x y hxy => by simpa using hxy
    · intro x hx
      obtain ⟨y, hy, rfl⟩ := List.mem_map.1 hx
      obtain ⟨j, -, rfl⟩ := (mem_firstValues _).1 hy
      have := draw_bounds rs pos hn j
      omega

/-! ## Reach -/

/-- Distinct draws choose themselves. -/
theorem chooses_get {n : Nat} {zs : List (Fin (n - 1))} (hnd : zs.Nodup) (a : Fin (n - 1)) :
    Chooses (extend zs.get a) zs.length zs := by
  have hall : (List.range zs.length).map (extend zs.get a) = zs := by
    apply List.ext_getElem
    · rw [List.length_map, List.length_range]
    · intro i h₁ h₂
      rw [List.getElem_map, List.getElem_range]
      exact dif_pos h₂
  have hrange : ((List.range zs.length).map (extend zs.get a)).Nodup := by rwa [hall]
  exact ⟨zs.length, le_rfl, kthNew_nodup _ hrange, (firstValues_nodup _ hrange).trans hall⟩

/-- A counter after some draws. -/
theorem recurrent_stream (hn : 2 ≤ d.n) {m : Nat} (v : Fin m → Fin (d.n - 1)) : Recurrent d (stream v id) := by
  intro pos x h1 hx
  obtain ⟨j, hj⟩ := recurrent_id hn (pos + m) x h1 hx
  refine ⟨m + j, ?_⟩
  unfold draw stream at *
  rw [dif_neg (by omega), ← Nat.add_assoc]
  exact hj

/-- A generator that starts at a set. -/
theorem exists_start_stream (hn : 2 ≤ d.n) {S : List Int} (hS : IsStart d.n d.k S) : ∃ rs, Recurrent d rs ∧
    ∃ fuel isMember pos, selectStartSet fuel d rs 0 (List.replicate d.k (-1)) (List.replicate d.n false) =
      .ok (S, isMember, pos) := by
  obtain ⟨zs, hnd, hlen, rfl⟩ := hS.exists_elementList
  have hchooses := chooses_get hnd ⟨0, by omega⟩
  rw [← selectStartSet_iff hn zs.get id List.length_replicate hlen] at hchooses
  obtain ⟨fuel, isMember, pos, -, hsel⟩ := hchooses
  exact ⟨stream zs.get id, recurrent_stream hn zs.get, fuel, isMember, pos, hsel⟩

/-- **No partial difference set is out of reach.**  The sets a task can print are the partial difference sets
of its group, all of them. -/
theorem groupTask_finds (T : GroupTable d.n) (hd : InRangeDims d) {files : Str → Option Str} {gid : Nat}
    (hfile : HasTable files gid T.toTable) (hgid : Fits gid) (o : ArgOrder) {multiplier : Int}
    (htrials : 1 ≤ numTrials multiplier d) (S : List Int) :
    IsFound T S ↔ ∃ rs, Recurrent d rs ∧
      ∃ trial, Returns (fun fuel => groupTask files fuel o multiplier d gid rs) (some (S, trial)) := by
  have hn2 : 2 ≤ d.n := hd.n.1
  have hdet : Detects T (l2Error : ErrorCalc WrapInt) := detects_wrap hd (by simp)
  simp only [groupTask_eq T.toTable hfile hd.fits hgid]
  constructor
  · intro hS
    have hstart : IsStart d.n d.k S := ⟨hS.length, hS.sorted.imp fun h => h.ne, hS.values⟩
    obtain ⟨rs, hrs, fuel, isMember, pos, hsel⟩ := exists_start_stream hn2 hstart
    obtain ⟨fuel', hrun⟩ : ∃ fuel, search fuel o d T.ct rs 0 (l2Error : ErrorCalc WrapInt) = .ok ⟨S, 0, pos⟩ :=
      (search_start T (by omega) l2Error_mem hdet o hsel hS.pds).1
    obtain ⟨m, hm⟩ : ∃ m, (numTrials multiplier d).toNat = m + 1 := ⟨(numTrials multiplier d).toNat - 1, by omega⟩
    have hsort : S.insertionSort (· ≤ ·) = S := (hS.sorted.imp fun h => h.le).insertionSort_eq
    have hloop : trialLoop (l2Error : ErrorCalc WrapInt) fuel' o d T.ct rs (m + 1) 0 0 = .ok (some (S, 1)) := by
      unfold trialLoop
      rw [hrun, ok_bind, if_pos Int.cast_zero.symm, hsort]
      rfl
    refine ⟨rs, hrs, 1, ?_⟩
    rw [hm]
    exact (trialLoop_mono T.toTable l2Error o rs (m + 1) 0 0).returns hloop
  · rintro ⟨rs, hrs, trial, hret⟩
    obtain ⟨result, outs, hret', houts, hend⟩ := trialLoop_returns T.toTable hd.k.1 hd.k.2
      (l2Error_mem (α := WrapInt)) hrs o (numTrials multiplier d).toNat 0 0
    rw [hret'.unique hret] at hend
    exact hend.isFound (houts.isResult T hd.k.1 hd.k.2 l2Error_mem hdet hrs)

/-- The set `{1, 4}` of order 5. -/
theorem groupTask_finds_five : ∃ rs, Recurrent ⟨5, 2, 0, 1⟩ rs ∧ ∃ trial,
    Returns (fun fuel => groupTask (oneFile (cyclicTable 5).toTable) fuel .leftFirst 1 ⟨5, 2, 0, 1⟩ 1 rs)
      (some ([1, 4], trial)) :=
  (groupTask_finds (d := ⟨5, 2, 0, 1⟩) (cyclicTable 5) inRangeDims_five (hasTable_oneFile _) (by decide)
    .leftFirst (by decide) [1, 4]).1 ⟨by decide, rfl, by decide, pentagon_pds⟩

/-! ## Chances -/

/-- The elements other than the identity. -/
def otherElement (T : Table d.n) : Fin (d.n - 1) ↪ T.Elem where
  toFun i := (⟨element i, by unfold element; omega⟩ : Fin d.n)
  inj' _ _ h := element_injective (congrArg Fin.val h)

theorem toFinset_elementList (T : Table d.n) (zs : List (Fin (d.n - 1))) :
    T.toFinset (elementList zs) = zs.toFinset.map (otherElement T) := by
  ext x
  rw [T.mem_toFinset, Finset.mem_map]
  unfold elementList
  rw [List.mem_map]
  simp only [List.mem_toFinset]
  refine exists_congr fun i => and_congr_right fun _ => ?_
  exact ⟨fun h => Fin.ext (Int.ofNat.inj h), fun h => congrArg (fun x : Fin d.n => ((x.val : Nat) : Int)) h⟩

theorem exists_otherElement (T : GroupTable d.n) {x : T.Elem} (hx : x ≠ 1) : ∃ i, otherElement T.toTable i = x := by
  have h0 : T.idx x ≠ 0 := (T.idx_ne_zero x).2 hx
  have hb := T.idx_bounds x
  unfold Table.idx at h0 hb
  refine ⟨⟨Fin.val x - 1, by omega⟩, Fin.ext ?_⟩
  show Fin.val x - 1 + 1 = Fin.val x
  omega

/-- Partial difference sets, among the sets of other elements. -/
theorem card_pds (T : GroupTable d.n) :
    Nat.card { D : Finset T.Elem // IsRegularPDS D d.k d.lam d.mu } =
      Nat.card { A : Finset (Fin (d.n - 1)) // A.card = d.k ∧
        IsRegularPDS (A.map (otherElement T.toTable)) d.k d.lam d.mu } := by
  refine (Nat.card_congr (Equiv.ofBijective (fun A => ⟨A.1.map (otherElement T.toTable), A.2.2⟩) ⟨?_, ?_⟩)).symm
  · intro A B h
    exact Subtype.ext (Finset.map_injective _ (congrArg Subtype.val h))
  · rintro ⟨D, hD⟩
    let A : Finset (Fin (d.n - 1)) := Finset.univ.filter fun i => otherElement T.toTable i ∈ D
    have hmap : A.map (otherElement T.toTable) = D := by
      ext x
      rw [Finset.mem_map]
      constructor
      · rintro ⟨i, hi, rfl⟩
        exact (Finset.mem_filter.1 hi).2
      · intro hx
        have hx1 : x ≠ 1 := fun h1 => hD.one_notMem (h1 ▸ hx)
        obtain ⟨i, rfl⟩ := exists_otherElement T hx1
        exact ⟨i, Finset.mem_filter.2 ⟨Finset.mem_univ i, hx⟩, rfl⟩
    have hcard : A.card = d.k := by rw [← hD.card, ← hmap, Finset.card_map]
    exact ⟨⟨A, hcard, hmap.symm ▸ hD⟩, Subtype.ext hmap⟩

/-- The draws `v` fill the start set; `tail` is not needed for it. -/
def FillsStart (d : Dims) {m : Nat} (v : Fin m → Fin (d.n - 1)) (tail : Nat → Nat) : Prop :=
  ∃ fuel S isMember pos, pos ≤ m ∧
    selectStartSet fuel d (stream v tail) 0 (List.replicate d.k (-1)) (List.replicate d.n false) =
      .ok (S, isMember, pos)

/-- They do when they choose some set of `k` elements. -/
theorem fillsStart_iff (hn : 2 ≤ d.n) {m : Nat} (v : Fin m → Fin (d.n - 1)) (tail : Nat → Nat) :
    FillsStart d v tail ↔
      ∃ A : Finset (Fin (d.n - 1)), A.card = d.k ∧ ChoosesSet (extend v ⟨0, Nat.sub_pos_of_lt hn⟩) m A := by
  constructor
  · rintro ⟨fuel, S, isMember, pos, hpos, hsel⟩
    obtain ⟨zs, hnd, hlen, rfl⟩ := (selectStartSet_isStart hn hsel).exists_elementList
    have hchooses := (selectStartSet_iff hn v tail List.length_replicate hlen).1 ⟨fuel, isMember, pos, hpos, hsel⟩
    exact ⟨zs.toFinset, by rw [List.toFinset_card_of_nodup hnd, hlen], zs, hchooses, rfl⟩
  · rintro ⟨A, hA, zs, hchooses, rfl⟩
    rw [List.toFinset_card_of_nodup hchooses.nodup] at hA
    obtain ⟨fuel, isMember, pos, hpos, hsel⟩ :=
      (selectStartSet_iff hn v tail List.length_replicate hA).2 hchooses
    exact ⟨fuel, _, isMember, pos, hpos, hsel⟩

/-- **A search is no worse than a guess.**  Among all runs whose first `m` draws fill the start set, the part
that ends at a partial difference set is at least the part of the partial difference sets among
all sets of `k` elements other than the identity. -/
theorem search_chance (T : GroupTable d.n) (hn : 2 ≤ d.n) {e : ErrorCalc Int} (he : e ∈ calculators) (o : ArgOrder)
    (m : Nat) (tail : Nat → Nat) :
    Nat.card { D : Finset T.Elem // IsRegularPDS D d.k d.lam d.mu } *
        Nat.card { v : Fin m → Fin (d.n - 1) // FillsStart d v tail } ≤
      (d.n - 1).choose d.k *
        Nat.card { v : Fin m → Fin (d.n - 1) // FillsStart d v tail ∧ ∃ out,
          Returns (fun fuel => search fuel o d T.ct (stream v tail) 0 e) out ∧ out.err = 0 } := by
  -- a run that starts at a partial difference set has found one
  have hfinds : ∀ v : Fin m → Fin (d.n - 1),
      (∃ A : Finset (Fin (d.n - 1)), (A.card = d.k ∧
        IsRegularPDS (A.map (otherElement T.toTable)) d.k d.lam d.mu) ∧
          ChoosesSet (extend v ⟨0, by omega⟩) m A) →
      FillsStart d v tail ∧ ∃ out,
        Returns (fun fuel => search fuel o d T.ct (stream v tail) 0 e) out ∧ out.err = 0 := by
    rintro v ⟨A, ⟨hA, hpds⟩, zs, hchooses, rfl⟩
    refine ⟨(fillsStart_iff hn v tail).2 ⟨_, hA, zs, hchooses, rfl⟩, ?_⟩
    rw [List.toFinset_card_of_nodup hchooses.nodup] at hA
    obtain ⟨fuel, isMember, pos, -, hsel⟩ :=
      (selectStartSet_iff hn v tail List.length_replicate hA).2 hchooses
    rw [← toFinset_elementList] at hpds
    exact ⟨_, search_start T (by omega) he (detects_int T he) o hsel hpds, rfl⟩
  have hfair := card_choosesSet_mul (⟨0, by omega⟩ : Fin (d.n - 1)) m d.k fun A =>
    IsRegularPDS (A.map (otherElement T.toTable)) d.k d.lam d.mu
  rw [Fintype.card_fin] at hfair
  have hfills : Nat.card { v : Fin m → Fin (d.n - 1) // FillsStart d v tail } =
      Nat.card { v : Fin m → Fin (d.n - 1) //
        ∃ A : Finset (Fin (d.n - 1)), A.card = d.k ∧ ChoosesSet (extend v ⟨0, by omega⟩) m A } :=
    Nat.card_congr (Equiv.subtypeEquivRight fun v => fillsStart_iff hn v tail)
  rw [card_pds, hfills, ← hfair, mul_comm]
  exact Nat.mul_le_mul_left _ (Nat.card_le_card_of_injective (Subtype.map id hfinds)
    (Subtype.map_injective (f := id) hfinds Function.injective_id))

/-- Two elements of order 5 in four draws. -/
theorem search_chance_five :
    Nat.card { D : Finset (cyclicTable 5).Elem // IsRegularPDS D 2 0 1 } *
        Nat.card { v : Fin 4 → Fin (5 - 1) // FillsStart ⟨5, 2, 0, 1⟩ v id } ≤
      (5 - 1).choose 2 *
        Nat.card { v : Fin 4 → Fin (5 - 1) // FillsStart ⟨5, 2, 0, 1⟩ v id ∧ ∃ out,
          Returns (fun fuel => search fuel .leftFirst ⟨5, 2, 0, 1⟩ (cyclicTable 5).ct (stream v id) 0 l2Error) out ∧
            out.err = 0 } :=
  search_chance (d := ⟨5, 2, 0, 1⟩) (cyclicTable 5) (by decide) l2Error_mem .leftFirst 4 id

end PdsSearch
