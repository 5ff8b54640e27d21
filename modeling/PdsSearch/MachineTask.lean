import PdsSearch.MachineSearch
import PdsSearch.TrialRuns

/-!
# A task on machine integers (`searchMany.cpp`)

`groupTask` has the `int`s of the source, which wrap: the errors of the searches and
`NUM_TRIALS = MULTIPLIER * d.n * d.n`.  `exactTask` is the task on exact numbers, and
`groupTask32` the one that notices the first number out of range.  Up to order 1290 the
product is the only one of its numbers that can leave the range:

    groupTask32 = some <$> exactTask    if MULTIPLIER · n² fits
    groupTask32 = none                  otherwise
    groupTask = exactTask               if MULTIPLIER · n² fits      (groupTask_in_range)
-/

namespace PdsSearch

open Checked GroupRing Text MachineInt
open MachineInt.CheckedInt (cast_mul cast_of_fits cast_of_not_fits)

/-! ## The task -/

/-- `NUM_TRIALS`, exactly. -/
def exactTrials (multiplier : Int) (d : Dims) : Int := multiplier * d.n * d.n

/-- What the inner loop body finds in group `gid` when no number has a bound. -/
def exactTask (files : Str → Option Str) (fuel : Nat) (o : ArgOrder) (multiplier : Int) (d : Dims)
    (gid : Nat) (rs : Nat → Nat) : Except Stop (Option (List Int × Nat)) :=
  match (files (tableName d.n gid)).bind (loadTable d.n) with
  | some ct => trialLoop (l2Error : ErrorCalc Int) fuel o d ct rs (exactTrials multiplier d).toNat 0 0
  | none => .error .undefinedRead

/-- `NUM_TRIALS`, checked. -/
def numTrials32 (multiplier : Int) (d : Dims) : CheckedInt := toChecked multiplier * toChecked d.n * toChecked d.n

/-- The loop over the trials, `none` once `my_error` was out of range. -/
def trialLoop32 (fuel : Nat) (o : ArgOrder) (d : Dims) (ct : List (List Int)) (rs : Nat → Nat) :
    Nat → Nat → Nat → Except Stop (Option (Option (List Int × Nat)))
  | 0, _, _ => return some none
  | m + 1, i, pos => do
    let result ← search fuel o d ct rs pos (l2Error : ErrorCalc CheckedInt)
    match result.err with
    | .overflow => return none
    | .val x _ =>
      if x = 0 then return some (some (result.set.insertionSort (· ≤ ·), i + 1))
      else trialLoop32 fuel o d ct rs m (i + 1) result.pos

/-- What the inner loop body finds in group `gid`, `none` when a number was out of range. -/
def groupTask32 (files : Str → Option Str) (fuel : Nat) (o : ArgOrder) (multiplier : Int) (d : Dims)
    (gid : Nat) (rs : Nat → Nat) : Except Stop (Option (Option (List Int × Nat))) :=
  match (files (tableName d.n gid)).bind (loadTable d.n) with
  | some ct =>
    match numTrials32 multiplier d with
    | .val m _ => trialLoop32 fuel o d ct rs m.toNat 0 0
    | .overflow => return none
  | none => .error .undefinedRead

/-! ## The searches -/

section
variable {d : Dims} (T : GroupTable d.n) (hd : InRangeDims d) (o : ArgOrder) (rs : Nat → Nat)

include hd

/-- A search on checked integers is the image of the exact one. -/
theorem search_checked (fuel pos : Nat) : search fuel o d T.ct rs pos (l2Error : ErrorCalc CheckedInt) =
    (search fuel o d T.ct rs pos (l2Error : ErrorCalc Int)).map (Outcome.map toChecked) := by
  have hmem : ((l2Error : ErrorCalc CheckedInt), (l2Error : ErrorCalc Int)) ∈
      [((l1Error : ErrorCalc CheckedInt), (l1Error : ErrorCalc Int)), (l2Error, l2Error), (lInfError, lInfError)] :=
    .tail _ (.head _)
  obtain ⟨norm, hM, hC, hb⟩ := exists_norm_checked (T := T.toTable) hd.dimsFit T.pos hd.k.1 hmem
  exact (simulates_checked hd hM hC (errFits_of_bound hd hb)).search o rs hM T.pos fuel pos

/-- **The loop over the trials**, trial by trial. -/
theorem trialLoop_checked (fuel m : Nat) : ∀ i pos,
    trialLoop32 fuel o d T.ct rs m i pos =
      some <$> trialLoop (l2Error : ErrorCalc Int) fuel o d T.ct rs m i pos := by
  induction m with
  | zero => intro i pos; rfl
  | succ m ih =>
    intro i pos
    unfold trialLoop32 trialLoop
    rw [search_checked T hd o rs fuel pos]
    cases hout : search fuel o d T.ct rs pos l2Error with
    | error x => rfl
    | ok out =>
      have hfit := search_fits T hd fuel o rs pos hout
      have herr : ((out.map toChecked).err : CheckedInt) = .val out.err hfit := cast_of_fits hfit
      simp only [Except.map, ok_bind, herr, Int.cast_id]
      by_cases h0 : out.err = 0
      · rw [if_pos h0, if_pos h0]
        rfl
      · rw [if_neg h0, if_neg h0]
        exact ih (i + 1) out.pos

/-- The wrapped loop and the exact one make the same trials. -/
theorem trialLoop_wrap (fuel m : Nat) : ∀ i pos,
    trialLoop (l2Error : ErrorCalc WrapInt) fuel o d T.ct rs m i pos =
      trialLoop (l2Error : ErrorCalc Int) fuel o d T.ct rs m i pos := by
  induction m with
  | zero => intro i pos; rfl
  | succ m ih =>
    intro i pos
    unfold trialLoop
    rw [search_wrap T hd fuel o rs pos]
    cases hout : search fuel o d T.ct rs pos (l2Error : ErrorCalc Int) with
    | error x => rfl
    | ok out =>
      have hzero : (out.map toWrap).err = ((0 : Int) : WrapInt) ↔ out.err = 0 :=
        WrapInt.cast_inj (search_fits T hd fuel o rs pos hout) (by decide)
      simp only [Except.map, ok_bind, hzero, Int.cast_id]
      by_cases h0 : out.err = 0
      · rw [if_pos h0, if_pos h0]
        rfl
      · rw [if_neg h0, if_neg h0]
        exact ih (i + 1) out.pos

end

/-! ## `NUM_TRIALS` -/

/-- A product with a positive number fits only when the other factor does. -/
theorem fits_of_fits_mul {x y : Int} (hy : 1 ≤ y) (h : Fits (x * y)) : Fits x := by
  unfold Fits at *
  constructor
  · by_contra hx
    have : x * y ≤ x := by nlinarith
    omega
  · by_contra hx
    have : x ≤ x * y := by nlinarith
    omega

/-- The first product is out of range only when the second one is. -/
theorem numTrials32_eq {d : Dims} {multiplier : Int} (hn : 1 ≤ d.n) (hfits : Fits d.n) (hmul : Fits multiplier) :
    numTrials32 multiplier d = toChecked (exactTrials multiplier d) := by
  have hn' : (1 : Int) ≤ d.n := by omega
  unfold numTrials32 exactTrials toChecked
  rw [cast_mul hmul hfits]
  by_cases h : Fits (multiplier * d.n)
  · exact cast_mul h hfits
  · have hall : ¬ Fits (multiplier * d.n * d.n) := fun hfit => h (fits_of_fits_mul hn' hfit)
    rw [cast_of_not_fits h, cast_of_not_fits hall, CheckedInt.overflow_mul]

theorem numTrials_eq {d : Dims} {multiplier : Int} (h : Fits (exactTrials multiplier d)) :
    numTrials multiplier d = exactTrials multiplier d := by
  unfold numTrials
  rw [← Int.cast_mul, ← Int.cast_mul]
  exact WrapInt.toInt_cast_of_fits h

/-! ## Top theorem -/

/-- **A task over a group of order up to 1290 goes out of range only in `NUM_TRIALS`.**  When
`MULTIPLIER * n * n` fits, the task with 32-bit numbers, checked or wrapping, ends exactly as the one
with exact numbers, with every fuel; when it does not, the first product that is out of range is one of
the two of `NUM_TRIALS`, before any search.  In particular a multiplier up to 1290 never overflows. -/
theorem groupTask_in_range {d : Dims} (T : GroupTable d.n) (hd : InRangeDims d)
    {files : Str → Option Str} {gid : Nat} (hfile : HasTable files gid T.toTable) (hgid : Fits gid)
    {multiplier : Int} (hmul : Fits multiplier) (o : ArgOrder) (rs : Nat → Nat) :
    (∀ fuel, groupTask32 files fuel o multiplier d gid rs =
      if Fits (exactTrials multiplier d) then some <$> exactTask files fuel o multiplier d gid rs
      else .ok none) ∧
    (Fits (exactTrials multiplier d) → ∀ fuel,
      groupTask files fuel o multiplier d gid rs = exactTask files fuel o multiplier d gid rs) ∧
    (0 ≤ multiplier → multiplier ≤ 1290 → Fits (exactTrials multiplier d)) := by
  have hexact : ∀ fuel, exactTask files fuel o multiplier d gid rs =
      trialLoop (l2Error : ErrorCalc Int) fuel o d T.ct rs (exactTrials multiplier d).toNat 0 0 := by
    intro fuel
    unfold exactTask
    rw [hfile, Option.bind_some, loadTable_write d.n gid T.ct T.rows T.cols T.entries, if_pos ⟨hd.fits, hgid⟩]
  refine ⟨?_, ?_, ?_⟩
  · intro fuel
    rw [hexact]
    unfold groupTask32
    rw [hfile, Option.bind_some, loadTable_write d.n gid T.ct T.rows T.cols T.entries,
      if_pos ⟨hd.fits, hgid⟩, numTrials32_eq T.pos hd.fits hmul]
    unfold toChecked
    by_cases hfit : Fits (exactTrials multiplier d)
    · rw [if_pos hfit, cast_of_fits hfit]
      exact trialLoop_checked T hd o rs fuel _ 0 0
    · rw [if_neg hfit, cast_of_not_fits hfit]
      rfl
  · intro hfit fuel
    rw [hexact, groupTask_eq T.toTable hfile hd.fits hgid, numTrials_eq hfit]
    exact trialLoop_wrap T hd o rs fuel _ 0 0
  · intro h0 hle
    have hn' : (d.n : Int) ≤ 1290 := by have := hd.n; omega
    have hsq : (d.n : Int) * d.n ≤ 1290 * 1290 := mul_le_mul hn' hn' (by omega) (by norm_num)
    have hle' : multiplier * ((d.n : Int) * d.n) ≤ 1290 * (1290 * 1290) :=
      mul_le_mul hle hsq (by positivity) (by norm_num)
    have hnonneg : 0 ≤ multiplier * ((d.n : Int) * d.n) := by positivity
    unfold exactTrials Fits
    rw [mul_assoc]
    omega

/-- The task over the cyclic group of order 5, and a multiplier that is too large for it. -/
theorem groupTask_in_range_five :
    let files := oneFile (cyclicTable 5).toTable
    (groupTask32 files 100 .leftFirst 1 ⟨5, 2, 0, 1⟩ 1 id =
        some <$> exactTask files 100 .leftFirst 1 ⟨5, 2, 0, 1⟩ 1 id ∧
      groupTask files 100 .leftFirst 1 ⟨5, 2, 0, 1⟩ 1 id = exactTask files 100 .leftFirst 1 ⟨5, 2, 0, 1⟩ 1 id ∧
      Fits (exactTrials 1 ⟨5, 2, 0, 1⟩)) ∧
    groupTask32 files 100 .leftFirst 100000000 ⟨5, 2, 0, 1⟩ 1 id = .ok none := by
  intro files
  have hfile : HasTable files 1 (cyclicTable 5).toTable := hasTable_oneFile _
  obtain ⟨h1, hwrap, hfits⟩ := groupTask_in_range (d := ⟨5, 2, 0, 1⟩) (cyclicTable 5) inRangeDims_five hfile
    (by decide) (show Fits 1 by decide) .leftFirst id
  obtain ⟨h2, -⟩ := groupTask_in_range (d := ⟨5, 2, 0, 1⟩) (cyclicTable 5) inRangeDims_five hfile (by decide)
    (show Fits 100000000 by decide) .leftFirst id
  have hfit := hfits (by norm_num) (by norm_num)
  refine ⟨⟨?_, hwrap hfit 100, hfit⟩, ?_⟩
  · rw [h1 100, if_pos hfit]
  · rw [h2 100, if_neg (by decide)]

end PdsSearch
