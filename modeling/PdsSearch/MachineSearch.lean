import PdsSearch.Conservation
import PdsSearch.FourthPowers

/-!
# The search on machine integers

A run over other numbers is the image of the run over exact integers when the
state before the loops and every trial of a swap are (`Simulates`).  Over
`CheckedInt` they are with `L1_error`, `L2_error` or `LInf_error`, over a group
table of order up to 1290, so no value leaves the range of an `int`:

    Simulates f T e eB norm → search … eB = (search … e).map (f …)    (Simulates.search)
    localSearch … (checked e) = (localSearch … e).map (cast …)        (search_in_range)

The histogram stays between `0` and `k` because an element is a product of two
members in at most `k` ways; in the middle of `adjust_sums` it is off by at most
`4 k + 4`.
-/

namespace PdsSearch

open Checked GroupRing MachineInt
open MachineInt.CheckedInt (cast_add cast_sub cast_lt)

/-! ## Images of states -/

section
variable {α β : Type} (f : α → β)

def St.map (s : St α) : St β where
  mySet := s.mySet
  isMember := s.isMember
  sums := s.sums.map f
  curError := f s.curError
  realSteps := s.realSteps
  changedVal := s.changedVal
  newError := f s.newError
  pos := s.pos

def Cfg.map : Cfg α → Cfg β
  | .outer s => .outer (s.map f)
  | .inner s initialMutation mutation firstTime => .inner (s.map f) initialMutation mutation firstTime

def Outcome.map (out : Outcome α) : Outcome β := ⟨out.set, f out.err, out.pos⟩

def Event.map : Event α → Event β
  | .round mySet initialMutation => .round mySet initialMutation
  | .skip mutation => .skip mutation
  | .reject mutation newError => .reject mutation (f newError)
  | .swap mutation newError => .swap mutation (f newError)

end

/-- Every number a state holds. -/
def St.numbers {α : Type} (s : St α) : List α := s.curError :: s.newError :: s.sums

/-- The number in machine integers. -/
def toChecked (x : Int) : CheckedInt := (x : CheckedInt)

/-! ## Histograms -/

/-- `v` holds the numbers of `w`, none of them above `b` in absolute value. -/
def Holds32 (b : Nat) (v : List CheckedInt) (w : List Int) : Prop :=
  v = w.map toChecked ∧ ∀ x ∈ w, |x| ≤ (b : Int)

theorem vmod_checked {b : Nat} {v : List CheckedInt} {w : List Int}
    (h : Holds32 b v w) (i : Int) {f : CheckedInt → CheckedInt} {g : Int → Int}
    (hfg : ∀ x : Int, |x| ≤ b → f (toChecked x) = toChecked (g x) ∧ |g x| ≤ ((b + 1 : Nat) : Int)) :
    Agree (Holds32 (b + 1)) (vmod v i f) (vmod w i g) := by
  obtain ⟨rfl, hw⟩ := h
  by_cases hi : 0 ≤ i ∧ i.toNat < w.length
  · obtain ⟨j, rfl⟩ : ∃ j : Nat, i = j := ⟨i.toNat, by omega⟩
    have hj : j < w.length := by simpa using hi.2
    have hj' : j < (w.map toChecked).length := by rwa [List.length_map]
    obtain ⟨h1, h2⟩ := hfg w[j] (hw _ (List.getElem_mem hj))
    unfold vmod
    rw [vget_nat _ _ hj, vget_nat _ _ hj', ok_bind, ok_bind, vset_nat _ _ _ hj, vset_nat _ _ _ hj',
      List.getElem_map, h1, ← List.map_set]
    refine ⟨rfl, fun x hx => ?_⟩
    rcases List.mem_or_eq_of_mem_set hx with hx | rfl
    · have := hw x hx
      push_cast
      omega
    · exact h2
  · have hnone : ∀ {β : Type} (v : List β), v.length = w.length → vget v i = .error .outOfRange := by
      intro β v hlen
      unfold vget
      split
      · rfl
      · next h0 =>
        rw [List.getElem?_eq_none (by omega)]
    unfold vmod
    rw [hnone w rfl, hnone (w.map toChecked) (List.length_map _)]
    exact rfl

section
variable {b : Nat} (hb : b + 1 < 2 ^ 31) {v : List CheckedInt} {w : List Int} (h : Holds32 b v w)
  (i : Int) {c : Int} (hc : |c| ≤ 1)

include hb h hc

theorem addAt_checked : Agree (Holds32 (b + 1)) (addAt v i (toChecked c)) (addAt w i c) := by
  apply vmod_checked h
  intro x hx
  have hx' : Fits x := fits_of_abs_le hx (by omega)
  have hc' : Fits c := fits_of_abs_le hc (by norm_num)
  refine ⟨cast_add hx' hc', (abs_add_le x c).trans ?_⟩
  push_cast
  omega

theorem subAt_checked : Agree (Holds32 (b + 1)) (subAt v i (toChecked c)) (subAt w i c) := by
  apply vmod_checked h
  intro x hx
  have hx' : Fits x := fits_of_abs_le hx (by omega)
  have hc' : Fits c := fits_of_abs_le hc (by norm_num)
  refine ⟨cast_sub hx' hc', (abs_sub x c).trans ?_⟩
  push_cast
  omega

end

section
variable {d : Dims} (ct : List (List Int)) (S : List Int) {v : List CheckedInt} {w : List Int}

/-- Every product counted adds one. -/
theorem tally_checked {b : Nat} (hb : b + d.k * d.k + 1 < 2 ^ 31) (h : Holds32 b v w) :
    Agree (Holds32 (b + d.k * d.k)) (tally d ct S v) (tally d ct S w) := by
  have hrow : ∀ (i : Nat) (b : Nat) (v : List CheckedInt) (w : List Int), b + d.k + 1 < 2 ^ 31 →
      Holds32 b v w → Agree (Holds32 (b + d.k))
        ((List.range d.k).foldlM (fun sums (j : Nat) => do
          addAt sums (← cell ct (← vget S i) (← vget S j)) (toChecked 1)) v)
        ((List.range d.k).foldlM (fun sums (j : Nat) => do
          addAt sums (← cell ct (← vget S i) (← vget S j)) 1) w) := by
    intro i b v w hb h
    have hfold := Agree.foldlM (R := Holds32) 1 (b + d.k)
      (f := fun sums (j : Nat) => do
        addAt sums (← cell ct (← vget S i) (← vget S j)) (toChecked 1))
      (g := fun sums (j : Nat) => do addAt sums (← cell ct (← vget S i) (← vget S j)) 1)
      (fun b' v w j hb' hvw => Agree.bind_self _ fun x => Agree.bind_self _ fun y =>
        Agree.bind_self _ fun z => addAt_checked (by omega) hvw z (by norm_num))
      (List.range d.k) b v w (by rw [List.length_range]; omega) h
    rwa [List.length_range, one_mul] at hfold
  have hfold := Agree.foldlM (R := Holds32) d.k (b + d.k * d.k) (fun b' v w (i : Nat) hb' hvw => hrow i b' v w (by omega) hvw)
    (List.range d.k) b v w (by rw [List.length_range]) h
  rw [List.length_range] at hfold
  exact hfold

/-- Every swap tried or taken back moves an entry by at most `4 k + 4`. -/
theorem adjustSums_checked {b : Nat} (hb : b + 4 * d.k + 5 < 2 ^ 31) (h : Holds32 b v w)
    (m : Int × Int) {fac : Int} (hfac : |fac| ≤ 1) :
    Agree (Holds32 (b + 4 * d.k + 4)) (adjustSums d ct S v m (toChecked fac))
      (adjustSums d ct S w m fac) := by
  unfold adjustSums
  refine Agree.bind (R := Holds32 (b + 4 * d.k)) ?_ ?_
  · have hfold := Agree.foldlM (R := Holds32) 4 (b + 4 * d.k)
      (f := fun sums (i : Nat) => do
        let sums ← subAt sums (← cell ct (← vget S i) (← vget S m.1)) (toChecked fac)
        let sums ← subAt sums (← cell ct (← vget S m.1) (← vget S i)) (toChecked fac)
        let sums ← addAt sums (← cell ct (← vget S i) m.2) (toChecked fac)
        addAt sums (← cell ct m.2 (← vget S i)) (toChecked fac))
      (g := fun sums (i : Nat) => do
        let sums ← subAt sums (← cell ct (← vget S i) (← vget S m.1)) fac
        let sums ← subAt sums (← cell ct (← vget S m.1) (← vget S i)) fac
        let sums ← addAt sums (← cell ct (← vget S i) m.2) fac
        addAt sums (← cell ct m.2 (← vget S i)) fac) ?_
      (List.range d.k) b v w (by rw [List.length_range]) h
    · rw [List.length_range] at hfold
      exact hfold
    · intro b' v w i hb' hvw
      refine Agree.bind_self _ fun x => Agree.bind_self _ fun y => Agree.bind_self _ fun z => ?_
      refine (subAt_checked (by omega) hvw z hfac).bind fun v w hvw => ?_
      refine Agree.bind_self _ fun x => Agree.bind_self _ fun y => Agree.bind_self _ fun z => ?_
      refine (subAt_checked (by omega) hvw z hfac).bind fun v w hvw => ?_
      refine Agree.bind_self _ fun x => Agree.bind_self _ fun z => ?_
      refine (addAt_checked (by omega) hvw z hfac).bind fun v w hvw => ?_
      exact Agree.bind_self _ fun x => Agree.bind_self _ fun z => addAt_checked (by omega) hvw z hfac
  · intro v w hvw
    refine Agree.bind_self _ fun x => Agree.bind_self _ fun y => Agree.bind_self _ fun z => ?_
    refine (addAt_checked (by omega) hvw z hfac).bind fun v w hvw => ?_
    refine Agree.bind_self _ fun z => ?_
    refine (addAt_checked (by omega) hvw z hfac).bind fun v w hvw => ?_
    refine Agree.bind_self _ fun x => Agree.bind_self _ fun z => ?_
    refine (subAt_checked (by omega) hvw z hfac).bind fun v w hvw => ?_
    exact Agree.bind_self _ fun x => Agree.bind_self _ fun z => subAt_checked (by omega) hvw z hfac

end

/-! ## Simulation -/

section
variable {β : Type} [Add β] [Sub β] [LT β] [DecidableLT β] [IntCast β] {d : Dims}

/-- On the states that describe candidates, `eB` does with the images of the numbers what `e` does with
the numbers. -/
structure Simulates (f : Int → β) (T : Table d.n) (e : ErrorCalc Int) (eB : ErrorCalc β)
    (norm : (T.Elem → Int) → Int) : Prop where
  init : ∀ rs fuel pos,
    initSearch fuel d T.ct rs pos eB = (initSearch fuel d T.ct rs pos e).map (St.map f)
  trial : ∀ (c : Candidate T) (s : St Int), Holds norm c s → ∀ m, InRange d m →
    tryMutation d T.ct eB (s.map f) m = (tryMutation d T.ct e s m).map (Prod.map (St.map f) id)
  pos : ∀ c : Candidate T, ((0 : Int) : β) < f (c.err norm) ↔ 0 < c.err norm

variable {f : Int → β} {T : Table d.n} {e : ErrorCalc Int} {eB : ErrorCalc β} {norm : (T.Elem → Int) → Int}
  (hsim : Simulates f T e eB norm) (v : Variant) (o : ArgOrder) (rs : Nat → Nat)

include hsim

/-- **Step lemma.** -/
theorem Simulates.step {C : Cfg Int} (hinv : CfgInv norm C) :
    searchStep v o d T.ct rs eB (C.map f) = (searchStep v o d T.ct rs e C).map
      (Next.map (Cfg.map f) (Event.map f) (Outcome.map f)) := by
  cases C with
  | outer s =>
    obtain ⟨c, hc⟩ := hinv
    have hpos : (((0 : Int) : β) < f s.curError) ↔ 0 < s.curError := by
      rw [hc.curError]
      exact hsim.pos c
    simp only [searchStep, Cfg.map, St.map, hpos, Int.cast_id]
    split
    · cases drawMutation o d rs s.pos with
      | error x => rfl
      | ok r => rfl
    · rfl
  | inner s i m firstTime =>
    obtain ⟨⟨c, hc⟩, -, hm⟩ := hinv
    simp only [searchStep, Cfg.map, hsim.trial c s hc m hm]
    split
    · cases tryMutation d T.ct e s m with
      | error x => rfl
      | ok r =>
        obtain ⟨s', verdict⟩ := r
        cases verdict with
        | member => rfl
        | rejected => rfl
        | accepted => rfl
    · rfl

/-- **Run lemma.** -/
theorem Simulates.localSearch (hM : Measures T e norm) (hn : 0 < d.n) (fuel pos : Nat) :
    localSearch v fuel o d T.ct rs pos eB = (localSearch v fuel o d T.ct rs pos e).map
      (Prod.map (Outcome.map f) (List.map (Event.map f))) := by
  unfold PdsSearch.localSearch
  rw [hsim.init rs fuel pos]
  cases hs : initSearch fuel d T.ct rs pos e with
  | error x => rfl
  | ok s =>
    obtain ⟨c, hc, -⟩ := initSearch_ok rs hM hn fuel pos s hs
    exact Machine.exec_map (M := searchMachine v o d T.ct rs e) (N := searchMachine v o d T.ct rs eB)
      (CfgInv norm) (fun C es C' hC h => step_inv v o rs hM hC h)
      (fun C hinv => hsim.step v o rs hinv) fuel (.outer s) ⟨c, hc⟩

theorem Simulates.search (hM : Measures T e norm) (hn : 0 < d.n) (fuel pos : Nat) :
    search fuel o d T.ct rs pos eB = (search fuel o d T.ct rs pos e).map (Outcome.map f) := by
  unfold PdsSearch.search
  rw [hsim.localSearch .new o rs hM hn fuel pos]
  cases PdsSearch.localSearch .new fuel o d T.ct rs pos e with
  | error x => rfl
  | ok r => rfl

end

/-! ## The search -/

section
variable {d : Dims} {T : GroupTable d.n} {e : ErrorCalc Int} {eC : ErrorCalc CheckedInt}
  {norm : (T.Elem → Int) → Int}

/-- What keeps every number of the search in range. -/
structure InRangeDims (d : Dims) : Prop where
  n : 2 ≤ d.n ∧ d.n ≤ 1290
  k : 1 ≤ d.k ∧ d.k ≤ d.n - 1
  lam : 0 ≤ d.lam ∧ d.lam ≤ d.k
  mu : 0 ≤ d.mu ∧ d.mu ≤ d.k

theorem InRangeDims.fits (hd : InRangeDims d) : Fits d.n := by
  have := hd.n
  unfold Fits
  omega

theorem InRangeDims.dimsFit (hd : InRangeDims d) : DimsFit d := by
  obtain ⟨hn, hk, hlam, hmu⟩ := hd
  unfold DimsFit Fits
  omega

/-- `1290 * 1289²` is the last one below `2³¹`. -/
theorem InRangeDims.bound (hd : InRangeDims d) : (d.n : Int) * (d.k * d.k) < 2 ^ 31 ∧ d.k ≤ 1289 := by
  obtain ⟨hn, hk, -, -⟩ := hd
  have hk' : d.k ≤ 1289 := by omega
  have hmul : d.n * (d.k * d.k) ≤ 1290 * (1289 * 1289) :=
    Nat.mul_le_mul hn.2 (Nat.mul_le_mul hk' hk')
  refine ⟨?_, hk'⟩
  have : ((d.n * (d.k * d.k) : Nat) : Int) < 2 ^ 31 := by omega
  exact_mod_cast this

/-- The error of a candidate fits. -/
def ErrFits (T : Table d.n) (norm : (T.Elem → Int) → Int) : Prop := ∀ c : Candidate T, Fits (c.err norm)

theorem errFits_of_bound (hd : InRangeDims d)
    (hb : ∀ g : T.Elem → Int, (∀ x, |g x| ≤ d.k) → 0 ≤ norm g ∧ norm g ≤ d.n * (d.k * d.k)) :
    ErrFits T.toTable norm := by
  intro c
  have h := hb _ (abs_dev_le hd.lam hd.mu c)
  have hlt := hd.bound.1
  unfold Candidate.err Fits
  omega

theorem hist_checked (c : Candidate T.toTable) :
    Holds32 d.k ((T.hist (c.square Int)).map toChecked) (T.hist (c.square Int)) := by
  refine ⟨rfl, fun x hx => ?_⟩
  unfold Table.hist Table.tab at hx
  obtain ⟨y, rfl⟩ := List.mem_ofFn.1 hx
  have h := count_bounds c y
  rw [abs_le]
  omega

theorem count_fits (hd : InRangeDims d) (c : Candidate T.toTable) (x : T.Elem) :
    Fits ((c.square Int).coeff x) := by
  have h := count_bounds c x
  have hk := hd.bound.2
  unfold Fits
  omega

/-- The checked `adjust_sums`, between the histograms of two candidates. -/
theorem adjustSums_between (hd : InRangeDims d) (c c' : Candidate T.toTable) (S : List Int)
    (m : Int × Int) {fac : Int} (hfac : |fac| ≤ 1)
    (h : adjustSums d T.ct S (T.hist (c.square Int)) m fac = .ok (T.hist (c'.square Int))) :
    adjustSums d T.ct S ((T.hist (c.square Int)).map toChecked) m (toChecked fac) =
      .ok ((T.hist (c'.square Int)).map toChecked) := by
  have hk := hd.bound.2
  have hagree := adjustSums_checked (d := d) T.ct S (by omega) (hist_checked c) m hfac
  rw [h] at hagree
  obtain ⟨v, hv, rfl, -⟩ := hagree.exists_ok
  exact hv

/-- **The body of the inner loop**, checked and exact. -/
theorem tryMutation_checked (hd : InRangeDims d) (hM : Measures T.toTable e norm)
    (hC : MeasuresChecked T.toTable eC norm) (hfit : ErrFits T.toTable norm) {c : Candidate T.toTable}
    {s : St Int} (h : Holds norm c s) {m : Int × Int} (hm : InRange d m) :
    tryMutation d T.ct eC (s.map toChecked) m =
      (tryMutation d T.ct e s m).map (Prod.map (St.map toChecked) id) := by
  obtain ⟨p, b, rfl, hk, hb⟩ := hm.exists_elem T.toTable
  have hp : p < c.xs.length := by rw [c.length_eq]; exact hk
  have hspec := tryMutation_spec hM c s (c.square Int) h.mySet h.isMember h.sums p hp b hk hb
  obtain ⟨mySet, isMember, sums, curError, realSteps, changedVal, newError, pos⟩ := s
  obtain ⟨rfl, rfl, rfl, rfl⟩ : mySet = T.ints c.xs ∧ isMember = T.tab c.member ∧
      sums = T.hist (c.square Int) ∧ curError = c.err norm := ⟨h.mySet, h.isMember, h.sums, h.curError⟩
  by_cases hbx : b ∈ c.xs
  · have hmem : c.member b = true := decide_eq_true hbx
    rw [dif_pos hbx] at hspec
    rw [hspec]
    unfold tryMutation
    simp only [St.map, T.vget_tab, ok_bind, hmem]
    rfl
  · have hmem : c.member b = false := decide_eq_false hbx
    let c' := c.set p b hk hb hbx
    have hsq : c.square Int + swapSq (formal Int c.xs) c.xs[p] b = c'.square Int :=
      (formal_set_sq c.xs p hp b).symm
    rw [dif_neg hbx] at hspec
    simp only [hsq] at hspec
    -- the trial and the undo move between two histograms
    have hfwd : adjustSums d T.ct (T.ints c.xs) ((T.hist (c.square Int)).map toChecked)
        ((p : Int), T.idx b) (toChecked 1) = .ok ((T.hist (c'.square Int)).map toChecked) := by
      apply adjustSums_between hd c c' _ _ (by norm_num)
      rw [adjustSums_spec T.toTable c.xs c.length_eq _ p hp, one_smul, hsq]
    have hback : adjustSums d T.ct (T.ints c.xs) ((T.hist (c'.square Int)).map toChecked)
        ((p : Int), T.idx b) (toChecked (-1)) = .ok ((T.hist (c.square Int)).map toChecked) := by
      apply adjustSums_between hd c' c _ _ (by norm_num)
      rw [adjustSums_spec T.toTable c.xs c.length_eq _ p hp, ← hsq, neg_smul, one_smul,
        add_neg_cancel_right]
    have hefs : eC.efsFromMember (T.tab c'.member) d ((T.hist (c'.square Int)).map toChecked) =
        .ok (toChecked (c'.err norm)) := by
      rw [Table.hist, T.map_tab]
      exact hC.efsFromMember _ _ (count_fits hd c')
    have hset : vset (T.ints c.xs) (p : Int) (T.idx b) = .ok (T.ints c'.xs) := by
      rw [vset_nat _ _ _ (by simpa using hp), T.ints_set]
      rfl
    have hlt : toChecked (c'.err norm) < toChecked (c.err norm) ↔ c'.err norm < c.err norm :=
      cast_lt (hfit c') (hfit c)
    have hmark : Function.update (Function.update c.member c.xs[p] false) b true = c'.member :=
      update_member c p b hp hk hb hbx
    have hunmark : Function.update (Function.update c'.member c.xs[p] true) b false = c.member := by
      rw [← hmark]
      exact update_member_undo c p b hp hbx
    rw [hspec]
    unfold tryMutation
    have hone : ((1 : Int) : CheckedInt) = toChecked 1 := rfl
    have hneg : ((-1 : Int) : CheckedInt) = toChecked (-1) := rfl
    simp only [St.map, T.vget_tab, ok_bind, hmem, Bool.not_false, if_true, hone, hneg, hfwd, T.vget_ints c.xs p hp,
      T.vset_tab, hmark, hefs]
    by_cases hless : c'.err norm < c.err norm
    · have hint : (norm (dev T.toTable c'.member fun x => (c'.square Int).coeff x) < c.err norm) := hless
      rw [if_pos (hlt.2 hless), hset, ok_bind, if_pos hint]
      rfl
    · have hint : ¬ (norm (dev T.toTable c'.member fun x => (c'.square Int).coeff x) < c.err norm) := hless
      rw [if_neg (fun h => hless (hlt.1 h)), hback, ok_bind, if_neg hint, hunmark]
      rfl

/-- The declarations before the loops. -/
theorem initSearch_checked (hd : InRangeDims d) (hM : Measures T.toTable e norm)
    (hC : MeasuresChecked T.toTable eC norm) (rs : Nat → Nat) (fuel pos : Nat) :
    initSearch fuel d T.ct rs pos eC = (initSearch fuel d T.ct rs pos e).map (St.map toChecked) := by
  cases hs : selectStartSet fuel d rs pos (List.replicate d.k (-1)) (List.replicate d.n false) with
  | error x =>
    unfold initSearch
    simp only [hs]
    rfl
  | ok r =>
    obtain ⟨S, isMember, pos'⟩ := r
    have hn : 0 < d.n := T.pos
    obtain ⟨c, rfl, rfl⟩ := selectStartSet_ok T.toTable rs hn fuel pos _ _ _ hs
    rw [initSearch_eq rs hM c fuel pos pos' hs]
    -- the first histogram counts up from zero
    have hzero : Holds32 0 (List.replicate d.n (toChecked 0)) (List.replicate d.n 0) := by
      refine ⟨by rw [List.map_replicate], fun x hx => ?_⟩
      rw [(List.mem_replicate.1 hx).2]
      simp
    have hk := hd.bound.2
    have hkk : d.k * d.k ≤ 1289 * 1289 := Nat.mul_le_mul hk hk
    have htally := tally_checked (d := d) T.ct (T.ints c.xs) (b := 0) (by omega) hzero
    have hexact := tally_candidate (α := Int) c
    rw [Int.cast_zero] at hexact
    rw [hexact] at htally
    obtain ⟨sums, hsums, rfl, -⟩ := htally.exists_ok
    have hefs : eC.efs d (T.ints c.xs) ((T.hist (c.square Int)).map toChecked) =
        .ok (toChecked (c.err norm)) := by
      rw [Table.hist, T.map_tab]
      exact hC.efs c.xs _ c.nodup c.nonId (count_fits hd c)
    have hcast : ((0 : Int) : CheckedInt) = toChecked 0 := rfl
    unfold initSearch calculateStartingError
    simp only [hs, ok_bind, hcast, hsums, hefs, pure_eq_ok]
    rfl

theorem simulates_checked (hd : InRangeDims d) (hM : Measures T.toTable e norm)
    (hC : MeasuresChecked T.toTable eC norm) (hfit : ErrFits T.toTable norm) :
    Simulates toChecked T.toTable e eC norm where
  init rs fuel pos := initSearch_checked hd hM hC rs fuel pos
  trial _ _ h _ hm := tryMutation_checked hd hM hC hfit h hm
  pos c := cast_lt (by decide) (hfit c)

end

/-! ## Top theorem -/

/-- **No number of a search leaves the range of an `int`.**  For a group table of order up to 1290
and any of the L1, L2 and L∞ errors, the checked run of either search is the image of the exact run,
and every state it reaches holds numbers that fit. -/
theorem search_in_range {d : Dims} (T : GroupTable d.n) (hd : InRangeDims d)
    {eC : ErrorCalc CheckedInt} {e : ErrorCalc Int}
    (he : (eC, e) ∈ [((l1Error : ErrorCalc CheckedInt), (l1Error : ErrorCalc Int)),
      (l2Error, l2Error), (lInfError, lInfError)])
    (v : Variant) (o : ArgOrder) (rs : Nat → Nat) (pos : Nat) :
    (∀ fuel, localSearch v fuel o d T.ct rs pos eC = (localSearch v fuel o d T.ct rs pos e).map
      (Prod.map (Outcome.map toChecked) (List.map (Event.map toChecked)))) ∧
    ∀ fuel s es C, initSearch fuel d T.ct rs pos eC = .ok s →
      Run (searchMachine v o d T.ct rs eC) (.outer s) es C →
      ∃ C', Reached v o d T.ct rs pos e C' ∧ C = C'.map toChecked ∧ ∀ x ∈ C'.st.numbers, Fits x := by
  have hn : 0 < d.n := T.pos
  obtain ⟨norm, hM, hC, hb⟩ := exists_norm_checked (T := T.toTable) hd.dimsFit hn hd.k.1 he
  have hfit : ErrFits T.toTable norm := errFits_of_bound hd hb
  have hsim : Simulates toChecked T.toTable e eC norm := simulates_checked hd hM hC hfit
  refine ⟨fun fuel => hsim.localSearch v o rs hM hn fuel pos, ?_⟩
  intro fuel sC es C hsC hrun
  rw [hsim.init rs fuel pos] at hsC
  cases hs : initSearch fuel d T.ct rs pos e with
  | error x => rw [hs] at hsC; cases hsC
  | ok s =>
    rw [hs] at hsC
    obtain ⟨c, hc, -⟩ := initSearch_ok rs hM hn fuel pos s hs
    obtain rfl : s.map toChecked = sC := Except.ok.inj hsC
    obtain ⟨es', C', hrun', -, rfl⟩ := hrun.of_map (M := searchMachine v o d T.ct rs e) (CfgInv norm)
      (fun C es C' hC h => step_inv v o rs hM hC h) (fun C hinv => hsim.step v o rs hinv) (.outer s) ⟨c, hc⟩ rfl
    refine ⟨C', ⟨fuel, s, es', hs, hrun'⟩, rfl, ?_⟩
    have hnew : Fits s.newError := by
      rw [initSearch_newError hs]
      decide
    obtain ⟨hcur, hnew', -⟩ := run_errors Fits hfit hM hrun' ⟨c, hc⟩ hnew
    obtain ⟨c', hc'⟩ := (run_inv hM hrun' ⟨c, hc⟩).holds
    intro x hx
    rcases List.mem_cons.1 hx with rfl | hx
    · exact hcur
    · rcases List.mem_cons.1 hx with rfl | hx
      · exact hnew'
      · rw [hc'.sums] at hx
        have hk := hd.bound.2
        exact fits_of_abs_le ((hist_checked c').2 x hx) (by omega)

/-- A search in the cyclic group of order 5, and the state before its loops. -/
theorem search_in_range_cyclic :
    localSearch .new 100 .leftFirst ⟨5, 2, 0, 1⟩ (cyclicTable 5).ct id 0 (l2Error : ErrorCalc CheckedInt) =
      (localSearch .new 100 .leftFirst ⟨5, 2, 0, 1⟩ (cyclicTable 5).ct id 0 (l2Error : ErrorCalc Int)).map
        (Prod.map (Outcome.map toChecked) (List.map (Event.map toChecked))) ∧
    ∃ C', Reached .new .leftFirst ⟨5, 2, 0, 1⟩ (cyclicTable 5).ct id 0 (l2Error : ErrorCalc Int) C' ∧
      Cfg.outer (⟨[1, 2], [false, true, true, false, false], [0, 0, 1, 2, 1].map toChecked, toChecked 6,
        0, true, toChecked 0, 2⟩ : St CheckedInt) = C'.map toChecked ∧ ∀ x ∈ C'.st.numbers, Fits x :=
  have h := search_in_range (d := ⟨5, 2, 0, 1⟩) (cyclicTable 5)
    ⟨by decide, by decide, by decide, by decide⟩ (.tail _ (.head _)) .new .leftFirst
    id 0
  ⟨h.1 100, h.2 5 _ _ _ rfl (.refl _)⟩

end PdsSearch
