import PdsSearch.MachineSearch

/-!
# The search on wrapping integers

Arithmetic modulo `2 ^ 32` is a ring, and the cast from the integers a ring map.  So the
deviations of a candidate over `WrapInt` are its deviations, cast, and its error is the
exact error, cast, as long as no deviation has lost its sign.  Where the error fits, it
is `0` for the partial difference sets only:

    error S = .ok err → wrapped error S = .ok (err : WrapInt)          (error_wrap)
    InRangeDims d → Detects T e                  for L1, L2, L∞        (detects_wrap)
    InRangeDims d → d.n ≤ 75 → Detects T e       for all four          (detects_wrap_small)
    wrapped search = (search …).map (cast …)                           (search_wrap)
-/

namespace PdsSearch

open Checked GroupRing MachineInt PartialDifferenceSet
open MachineInt.WrapInt (cast_lt cast_inj)

/-- The number modulo `2 ^ 32`. -/
def toWrap (x : Int) : WrapInt := (x : WrapInt)

/-- A calculator over wrapping integers, and the same one over exact integers. -/
def WrapsTo (eW : ErrorCalc WrapInt) (e : ErrorCalc Int) : Prop :=
  (eW, e) ∈ (calculators : List (ErrorCalc WrapInt)).zip calculators

/-! ## Folds -/

theorem cabs_wrap {t : Int} (h : |t| < 2 ^ 31) : cabs (t : WrapInt) = ((|t| : Int) : WrapInt) := by
  have ht : Fits t := fits_of_abs_le le_rfl h
  unfold cabs
  by_cases hneg : t < 0
  · rw [if_pos ((cast_lt ht (by decide)).2 hneg), abs_of_neg hneg, Int.cast_neg]
  · rw [if_neg (fun h => hneg ((cast_lt ht (by decide)).1 h)), abs_of_nonneg (not_lt.1 hneg)]

section
variable {d : Dims} (T : Table d.n) (hn : 0 < d.n) {g : T.Elem → Int} (hg : ∀ x, |g x| < 2 ^ 31)

include hg

/-- A sum of weights, whatever its size. -/
theorem errFold_add_wrap {weightW : WrapInt → WrapInt} {weight : Int → Int}
    (hweight : ∀ t : Int, weightW t = ((weight t : Int) : WrapInt)) :
    errFold T (fun error t => error + t) weightW hn (fun x => (g x : WrapInt)) =
      ((errFold T (fun error t => error + t) weight hn g : Int) : WrapInt) := by
  rw [errFold_add, errFold_add, Int.cast_sum]
  apply Finset.sum_congr rfl
  intro x _
  rw [cabs_wrap (hg x), hweight, cabs_int]

/-- A maximum: every number compared fits. -/
theorem errFold_max_wrap : errFold T cmax (fun t => t) hn (fun x => (g x : WrapInt)) =
    ((errFold T cmax (fun t => t) hn g : Int) : WrapInt) := by
  have hfold : ∀ (l : List T.Elem) (err : Int), Fits err →
      l.foldl (fun err x => cmax err (cabs (g x : WrapInt))) (err : WrapInt) =
        ((l.foldl (fun err x => cmax err (cabs (g x))) err : Int) : WrapInt) := by
    intro l
    induction l with
    | nil => intro err _; rfl
    | cons x l ih =>
      intro err herr
      have habs : Fits |g x| := fits_of_abs_le (by rw [abs_abs]) (hg x)
      have hmax : cmax (err : WrapInt) ((|g x| : Int) : WrapInt) = ((cmax err |g x| : Int) : WrapInt) := by
        unfold cmax
        by_cases hlt : err < |g x|
        · rw [if_pos hlt, if_pos ((cast_lt herr habs).2 hlt)]
        · rw [if_neg hlt, if_neg (fun h => hlt ((cast_lt herr habs).1 h))]
      rw [List.foldl_cons, List.foldl_cons, cabs_wrap (hg x), hmax, cabs_int]
      apply ih
      unfold cmax
      split
      · exact habs
      · exact herr
  unfold errFold
  rw [cabs_wrap (hg _), cabs_int]
  exact hfold _ _ (fits_of_abs_le (by rw [abs_abs]) (hg _))

end

/-- **The two norms of a calculator** agree where every number is cast with its sign. -/
theorem exists_norm_wrap {d : Dims} (T : Table d.n) (hn : 0 < d.n) {eW : ErrorCalc WrapInt} {e : ErrorCalc Int}
    (he : WrapsTo eW e) : ∃ normW norm, Measures T eW normW ∧ Measures T e norm ∧
      ∀ g : T.Elem → Int, (∀ x, |g x| < 2 ^ 31) →
        normW (fun x => (g x : WrapInt)) = ((norm g : Int) : WrapInt) := by
  simp only [WrapsTo, calculators, List.zip_cons_cons, List.zip_nil_right, List.mem_cons, Prod.mk.injEq,
    List.not_mem_nil, or_false] at he
  rcases he with ⟨rfl, rfl⟩ | ⟨rfl, rfl⟩ | ⟨rfl, rfl⟩ | ⟨rfl, rfl⟩
  · exact ⟨_, _, measures_with T _ _ add_right_comm hn, measures_with T _ _ add_right_comm hn,
      fun g hg => errFold_add_wrap T hn hg fun t => rfl⟩
  · exact ⟨_, _, measures_with T _ _ add_right_comm hn, measures_with T _ _ add_right_comm hn,
      fun g hg => errFold_add_wrap T hn hg fun t => (Int.cast_mul t t).symm⟩
  · exact ⟨_, _, measures_with T _ _ add_right_comm hn, measures_with T _ _ add_right_comm hn,
      fun g hg => errFold_add_wrap T hn hg fun t => by push_cast; rfl⟩
  · rw [lInfError_eq, lInfError_eq]
    exact ⟨_, _, measures_with T _ _ cmax_right_comm hn, measures_with T _ _ cmax_right_comm hn,
      fun g hg => errFold_max_wrap T hn hg⟩

theorem WrapsTo.mem {eW : ErrorCalc WrapInt} {e : ErrorCalc Int} (he : WrapsTo eW e) :
    eW ∈ (calculators : List (ErrorCalc WrapInt)) ∧ e ∈ (calculators : List (ErrorCalc Int)) :=
  ⟨(List.of_mem_zip he).1, (List.of_mem_zip he).2⟩

/-! ## Candidates -/

section
variable {d : Dims} {T : GroupTable d.n} (hd : InRangeDims d)

include hd

/-- The wrapped deviations of a candidate, from the exact ones. -/
theorem err_wrap {normW : (T.Elem → WrapInt) → WrapInt} {norm : (T.Elem → Int) → Int}
    (hcast : ∀ g : T.Elem → Int, (∀ x, |g x| < 2 ^ 31) →
      normW (fun x => (g x : WrapInt)) = ((norm g : Int) : WrapInt)) (c : Candidate T.toTable) :
    c.err normW = toWrap (c.err norm) := by
  have hk := hd.bound.2
  have hdev : ∀ x, |dev T.toTable c.member (fun x => (c.square Int).coeff x) x| < 2 ^ 31 := by
    intro x
    have := abs_dev_le hd.lam hd.mu c x
    omega
  unfold Candidate.err toWrap
  rw [← hcast _ hdev]
  exact congrArg normW (funext fun x => dev_intCast c x)

/-- **The wrapped error** is the exact one, cast. -/
theorem error_wrap {eW : ErrorCalc WrapInt} {e : ErrorCalc Int} (he : WrapsTo eW e) (c : Candidate T.toTable)
    {err : Int} (h : error d T.ct (T.ints c.xs) e = .ok err) :
    error d T.ct (T.ints c.xs) eW = .ok (toWrap err) := by
  obtain ⟨normW, norm, hW, hM, hcast⟩ := exists_norm_wrap T.toTable T.pos he
  rw [error_candidate hM] at h
  rw [error_candidate hW, err_wrap hd hcast, Except.ok.inj h]

/-- Three of the errors always fit. -/
theorem error_fits {e : ErrorCalc Int} (he : e ∈ [l1Error, l2Error, lInfError]) (c : Candidate T.toTable)
    {err : Int} (h : error d T.ct (T.ints c.xs) e = .ok err) : Fits err := by
  obtain ⟨eC, hpair⟩ : ∃ eC, (eC, e) ∈ [((l1Error : ErrorCalc CheckedInt), (l1Error : ErrorCalc Int)),
      (l2Error, l2Error), (lInfError, lInfError)] := by
    simp only [List.mem_cons, List.not_mem_nil, or_false] at he
    rcases he with rfl | rfl | rfl
    · exact ⟨l1Error, by simp⟩
    · exact ⟨l2Error, by simp⟩
    · exact ⟨lInfError, by simp⟩
  obtain ⟨norm, hM, -, hb⟩ := exists_norm_checked (T := T.toTable) hd.dimsFit T.pos hd.k.1 hpair
  rw [error_candidate hM] at h
  rw [← Except.ok.inj h]
  exact errFits_of_bound hd hb c

/-- Up to order 75 so does the fourth. -/
theorem error_fits_small (hn : d.n ≤ 75) {e : ErrorCalc Int} (he : e ∈ calculators) (c : Candidate T.toTable)
    {err : Int} (h : error d T.ct (T.ints c.xs) e = .ok err) : Fits err := by
  by_cases h4 : e = l4Error
  · subst h4
    have hadm : Admissible d (T.ints c.xs) := by
      refine ⟨hd.k, hd.lam, hd.mu, by rw [T.length_ints, c.length_eq], (T.nodup_ints _).2 c.nodup, ?_⟩
      exact c.ints_bounds
    have hlt := fourthPowers_small hn c hd.k.2 hd.k.1 hd.lam hd.mu
    obtain ⟨herr, -⟩ := l4_eq_fourthPowers (by omega) c hadm
    have hnonneg : 0 ≤ fourthPowers T.toTable (T.ints c.xs) := by
      rw [fourthPowers_eq]
      exact Finset.sum_nonneg fun x _ => Even.pow_nonneg (by decide) _
    rw [h] at herr
    rw [Except.ok.inj herr]
    exact ⟨by omega, hlt⟩
  · apply error_fits hd _ c h
    simp only [calculators, List.mem_cons, List.not_mem_nil, or_false] at he ⊢
    tauto

/-- Where the errors fit, a wrapped error is `0` for the partial difference sets only. -/
theorem detects_of_fits {eW : ErrorCalc WrapInt} {e : ErrorCalc Int} (he : WrapsTo eW e)
    (hfit : ∀ (c : Candidate T.toTable) (err : Int), error d T.ct (T.ints c.xs) e = .ok err → Fits err) :
    Detects T eW := by
  intro c errW h
  obtain ⟨norm, hM⟩ := exists_norm T.toTable T.pos e he.mem.2
  have hexact := error_candidate hM c
  have hwrap := error_wrap hd he c hexact
  rw [h] at hwrap
  rw [Except.ok.inj hwrap, ← detects_int T he.mem.2 c _ hexact]
  have hzero := cast_inj (hfit c _ hexact) (show Fits 0 by decide)
  rwa [Int.cast_zero] at hzero

/-- **In range an `int` tells the partial difference sets.** -/
theorem detects_wrap {eW : ErrorCalc WrapInt} (he : eW ∈ [l1Error, l2Error, lInfError]) : Detects T eW := by
  simp only [List.mem_cons, List.not_mem_nil, or_false] at he
  rcases he with rfl | rfl | rfl
  · have hpair : WrapsTo l1Error l1Error := by simp [WrapsTo, calculators]
    exact detects_of_fits hd hpair fun c err => error_fits hd (by simp) c
  · have hpair : WrapsTo l2Error l2Error := by simp [WrapsTo, calculators]
    exact detects_of_fits hd hpair fun c err => error_fits hd (by simp) c
  · have hpair : WrapsTo lInfError lInfError := by simp [WrapsTo, calculators]
    exact detects_of_fits hd hpair fun c err => error_fits hd (by simp) c

theorem detects_wrap_small (hn : d.n ≤ 75) {eW : ErrorCalc WrapInt} (he : eW ∈ calculators) : Detects T eW := by
  obtain ⟨e, hpair⟩ : ∃ e, WrapsTo eW e := by
    simp only [calculators, List.mem_cons, List.not_mem_nil, or_false] at he
    rcases he with rfl | rfl | rfl | rfl
    · exact ⟨l1Error, by simp [WrapsTo, calculators]⟩
    · exact ⟨l2Error, by simp [WrapsTo, calculators]⟩
    · exact ⟨l4Error, by simp [WrapsTo, calculators]⟩
    · exact ⟨lInfError, by simp [WrapsTo, calculators]⟩
  exact detects_of_fits hd hpair fun c err => error_fits_small hd hn hpair.mem.2 c

end

/-! ## Runs -/

section
variable {d : Dims} {T : GroupTable d.n} {eW : ErrorCalc WrapInt} {e : ErrorCalc Int}
  {normW : (T.Elem → WrapInt) → WrapInt} {norm : (T.Elem → Int) → Int}

theorem hist_wrap (c : Candidate T.toTable) :
    (T.hist (c.square Int)).map toWrap = T.hist (c.square WrapInt) := by
  unfold Table.hist
  rw [T.map_tab, T.tab_inj]
  funext x
  unfold toWrap
  rw [← productCount_eq, ← productCount_eq]
  exact Int.cast_natCast _

/-- The wrapped state of a candidate. -/
theorem Holds.wrap (herr : ∀ c : Candidate T.toTable, c.err normW = toWrap (c.err norm)) {c : Candidate T.toTable}
    {s : St Int} (h : Holds norm c s) : Holds normW c (s.map toWrap) where
  mySet := h.mySet
  isMember := h.isMember
  sums := by
    show s.sums.map toWrap = _
    rw [h.sums, hist_wrap]
  curError := by
    show toWrap s.curError = _
    rw [h.curError, herr]

/-- **The body of the inner loop**, wrapped and exact. -/
theorem tryMutation_wrap (hM : Measures T.toTable e norm) (hW : Measures T.toTable eW normW)
    (herr : ∀ c : Candidate T.toTable, c.err normW = toWrap (c.err norm)) (hfit : ErrFits T.toTable norm)
    {c : Candidate T.toTable} {s : St Int} (h : Holds norm c s) {m : Int × Int} (hm : InRange d m) :
    tryMutation d T.ct eW (s.map toWrap) m =
      (tryMutation d T.ct e s m).map (Prod.map (St.map toWrap) id) := by
  obtain ⟨p, b, rfl, hk, hb⟩ := hm.exists_elem T.toTable
  have hp : p < c.xs.length := by rw [c.length_eq]; exact hk
  have hw := h.wrap herr
  rw [tryMutation_spec hM c s (c.square Int) h.mySet h.isMember h.sums p hp b hk hb,
    tryMutation_spec hW c (s.map toWrap) (c.square WrapInt) hw.mySet hw.isMember hw.sums p hp b hk hb]
  by_cases hbx : b ∈ c.xs
  · rw [dif_pos hbx, dif_pos hbx]
    rfl
  · let c' := c.set p b hk hb hbx
    have hsq : ∀ {α : Type} [CommRing α], c.square α + swapSq (formal α c.xs) c.xs[p] b = c'.square α :=
      (formal_set_sq c.xs p hp b).symm
    have hnew : norm (dev T.toTable (c.set p b hk hb hbx).member fun x => (c'.square Int).coeff x) =
        c'.err norm := rfl
    have hnewW : normW (dev T.toTable (c.set p b hk hb hbx).member fun x => (c'.square WrapInt).coeff x) =
        toWrap (c'.err norm) := herr c'
    have hless : toWrap (c'.err norm) < (s.map toWrap).curError ↔ c'.err norm < s.curError := by
      rw [hw.curError, herr, h.curError]
      exact cast_lt (hfit c') (hfit c)
    rw [dif_neg hbx, dif_neg hbx]
    simp only [hsq, hnew, hnewW]
    by_cases hlt : c'.err norm < s.curError
    · rw [if_pos hlt, if_pos (hless.2 hlt), ← hist_wrap]
      rfl
    · rw [if_neg hlt, if_neg fun h => hlt (hless.1 h)]
      rfl

end

/-- **In range the wrapped search is the exact one, cast.** -/
theorem simulates_wrap {d : Dims} (T : GroupTable d.n) (hd : InRangeDims d) {eW : ErrorCalc WrapInt}
    {e : ErrorCalc Int} (he : WrapsTo eW e)
    (hfit : ∀ (c : Candidate T.toTable) (err : Int), error d T.ct (T.ints c.xs) e = .ok err → Fits err) :
    ∃ norm, Measures T.toTable e norm ∧ Simulates toWrap T.toTable e eW norm := by
  obtain ⟨normW, norm, hW, hM, hcast⟩ := exists_norm_wrap T.toTable T.pos he
  have herr : ∀ c : Candidate T.toTable, c.err normW = toWrap (c.err norm) := err_wrap hd hcast
  have hfit' : ErrFits T.toTable norm := fun c => hfit c _ (error_candidate hM c)
  refine ⟨norm, hM, ⟨fun rs fuel pos => ?_, fun c s h m hm => tryMutation_wrap hM hW herr hfit' h hm,
    fun c => cast_lt (by decide) (hfit' c)⟩⟩
  cases hs : selectStartSet fuel d rs pos (List.replicate d.k (-1)) (List.replicate d.n false) with
  | error x =>
    unfold initSearch
    simp only [hs]
    rfl
  | ok r =>
    obtain ⟨S, isMember, pos'⟩ := r
    obtain ⟨c, rfl, rfl⟩ := selectStartSet_ok T.toTable rs T.pos fuel pos _ _ _ hs
    rw [initSearch_eq rs hM c fuel pos pos' hs, initSearch_eq rs hW c fuel pos pos' hs, herr, ← hist_wrap]
    rfl

section
variable {d : Dims} (T : GroupTable d.n) (hd : InRangeDims d) (fuel : Nat) (o : ArgOrder)
  (rs : Nat → Nat) (pos : Nat)

include hd

/-- The search with the L2 error. -/
theorem search_wrap : search fuel o d T.ct rs pos (l2Error : ErrorCalc WrapInt) =
    (search fuel o d T.ct rs pos (l2Error : ErrorCalc Int)).map (Outcome.map toWrap) := by
  have hpair : WrapsTo l2Error l2Error := by simp [WrapsTo, calculators]
  obtain ⟨norm, hM, hsim⟩ := simulates_wrap T hd hpair fun c err => error_fits hd (by simp) c
  exact hsim.search o rs hM T.pos fuel pos

theorem search_fits {out : Outcome Int} (h : search fuel o d T.ct rs pos (l2Error : ErrorCalc Int) = .ok out) :
    Fits out.err := by
  obtain ⟨norm, hM⟩ := exists_norm T.toTable T.pos (l2Error : ErrorCalc Int) (by simp [calculators])
  obtain ⟨es, hloc⟩ := localSearch_of_search o rs h
  obtain ⟨c, hc⟩ := err_of_localSearch hM T.pos hloc
  rw [hc]
  exact error_fits hd (by simp) c (error_candidate hM c)

end

end PdsSearch
