import PdsSearch.ErrorAgree
import PdsSearch.GroupError
import PdsSearch.Swap

/-!
# The calculators on machine integers

Over `CheckedInt` a calculator ends in a value only when nothing on the way was
out of range.  All four only add up, square and compare numbers that are not
negative, so the result of the checked run is the exact result, cast:

    e.efs d S sums = .ok err → checked e.efs d S sums = .ok (err : CheckedInt)   (exists_norm_checked)

-/

namespace PdsSearch

open Checked GroupRing MachineInt
open MachineInt.CheckedInt (overflow cast_add cast_sub cast_lt cast_neg)

/-! ## Folds -/

theorem cabs_cast (t : Int) : cabs (t : CheckedInt) = ((|t| : Int) : CheckedInt) := by
  have h0 : Fits 0 := by decide
  unfold cabs
  by_cases ht : Fits t
  · by_cases hneg : t < 0
    · rw [if_pos ((cast_lt ht h0).2 hneg), cast_neg ht, abs_of_neg hneg]
    · rw [if_neg (fun h => hneg ((cast_lt ht h0).1 h)), abs_of_nonneg (not_lt.1 hneg)]
  · have habs : ¬ Fits |t| := by
      unfold Fits at ht ⊢
      have h0 := abs_nonneg t
      rcases abs_choice t with h | h <;> omega
    rw [CheckedInt.cast_of_not_fits ht, CheckedInt.cast_of_not_fits habs,
      if_neg (CheckedInt.not_overflow_lt _)]

/-- An operation and a weight that do on checked numbers what they do on exact ones. -/
structure Casts (opC : CheckedInt → CheckedInt → CheckedInt) (weightC : CheckedInt → CheckedInt)
    (op : Int → Int → Int) (weight : Int → Int) : Prop where
  op_cast : ∀ a b : Int, 0 ≤ a → 0 ≤ b → opC a b = ((op a b : Int) : CheckedInt)
  op_nonneg : ∀ a b : Int, 0 ≤ a → 0 ≤ b → 0 ≤ op a b
  weight_cast : ∀ t : Int, 0 ≤ t → weightC t = ((weight t : Int) : CheckedInt)
  weight_nonneg : ∀ t : Int, 0 ≤ t → 0 ≤ weight t

section
variable {d : Dims} {T : Table d.n} {opC : CheckedInt → CheckedInt → CheckedInt}
  {weightC : CheckedInt → CheckedInt} {op : Int → Int → Int} {weight : Int → Int}

/-- A fold over checked numbers is the exact fold, cast: the accumulator never falls below 0. -/
theorem Casts.foldl (h : Casts opC weightC op weight) (g : T.Elem → Int) (l : List T.Elem) :
    ∀ err : Int, 0 ≤ err →
      l.foldl (fun err x => opC err (weightC (cabs (g x : CheckedInt)))) (err : CheckedInt) =
        ((l.foldl (fun err x => op err (weight (cabs (g x)))) err : Int) : CheckedInt) := by
  induction l with
  | nil => intro err _; rfl
  | cons x l ih =>
    intro err herr
    have hw : 0 ≤ weight |g x| := h.weight_nonneg _ (abs_nonneg _)
    rw [List.foldl_cons, List.foldl_cons, cabs_cast, h.weight_cast _ (abs_nonneg _),
      h.op_cast _ _ herr hw, cabs_int]
    exact ih _ (h.op_nonneg _ _ herr hw)

/-- The targets are numbers the program can hold. -/
def DimsFit (d : Dims) : Prop := Fits d.k ∧ Fits d.lam ∧ Fits d.mu

theorem dev_cast (hd : DimsFit d) (χ : T.Elem → Bool) {g : T.Elem → Int} (hg : ∀ x, Fits (g x))
    (x : T.Elem) : dev T χ (fun x => (g x : CheckedInt)) x = ((dev T χ g x : Int) : CheckedInt) := by
  obtain ⟨hk, hlam, hmu⟩ := hd
  unfold dev
  split
  · exact cast_sub hk (hg x)
  · split
    · exact cast_sub hlam (hg x)
    · exact cast_sub hmu (hg x)

/-- On numbers that fit, the checked calculator gives the exact norm, cast. -/
structure MeasuresChecked (T : Table d.n) (e : ErrorCalc CheckedInt) (norm : (T.Elem → Int) → Int) :
    Prop where
  efs : ∀ (xs : List T.Elem) (g : T.Elem → Int), xs.Nodup → (∀ x ∈ xs, T.idx x ≠ 0) →
    (∀ x, Fits (g x)) → e.efs d (T.ints xs) (T.tab fun x => (g x : CheckedInt)) =
      .ok ((norm (dev T (fun x => decide (x ∈ xs)) g) : Int) : CheckedInt)
  efsFromMember : ∀ (χ : T.Elem → Bool) (g : T.Elem → Int), (∀ x, Fits (g x)) →
    e.efsFromMember (T.tab χ) d (T.tab fun x => (g x : CheckedInt)) =
      .ok ((norm (dev T χ g) : Int) : CheckedInt)

/-- The two methods may combine the terms in different ways. -/
theorem Casts.measures {opC' : CheckedInt → CheckedInt → CheckedInt}
    (h : Casts opC weightC op weight) (h' : Casts opC' weightC op weight) (hd : DimsFit d)
    (hn : 0 < d.n) (hop : ∀ a b c, op (op a b) c = op (op a c) b) :
    MeasuresChecked T ⟨efsWith opC weightC, efsFromMemberWith opC' weightC⟩
      (errFold T op weight hn) := by
  have hfold : ∀ opC, Casts opC weightC op weight → ∀ (χ : T.Elem → Bool) (g : T.Elem → Int),
      (∀ x, Fits (g x)) → ∀ l : List T.Elem,
      l.foldl (fun err x => opC err (weightC (cabs (dev T χ (fun x => (g x : CheckedInt)) x))))
        (weightC (cabs (dev T χ (fun x => (g x : CheckedInt)) (T.zero hn)))) =
      ((l.foldl (fun err x => op err (weight (cabs (dev T χ g x))))
        (weight (cabs (dev T χ g (T.zero hn)))) : Int) : CheckedInt) := by
    intro opC h χ g hg l
    simp only [dev_cast hd χ hg]
    rw [cabs_cast, h.weight_cast _ (abs_nonneg _), ← cabs_int]
    apply h.foldl (dev T χ g) l
    rw [cabs_int]
    exact h.weight_nonneg _ (abs_nonneg _)
  refine ⟨?_, ?_⟩
  · intro xs g hnd h0 hg
    have hexact := efsWith_spec T op weight hop hn xs hnd h0 g
    rw [efsWith_foldl T op weight hn xs h0 g] at hexact
    show efsWith opC weightC d _ _ = _
    rw [efsWith_foldl T opC weightC hn xs h0, hfold opC h _ g hg, Except.ok.inj hexact]
  · intro χ g hg
    show efsFromMemberWith opC' weightC _ d _ = _
    rw [efsFromMemberWith_spec T opC' weightC hn]
    unfold errFold
    rw [hfold opC' h' χ g hg]

end

/-! ## The four calculators -/

theorem casts_l1 : Casts (fun error t => error + t) (fun t => t) (fun error t => error + t) fun t => t where
  op_cast _ _ ha hb := CheckedInt.cast_add_of_nonneg ha hb
  op_nonneg _ _ ha hb := add_nonneg ha hb
  weight_cast _ _ := rfl
  weight_nonneg _ ht := ht

theorem casts_l2 : Casts (fun error t => error + t) (fun t => t * t) (fun error t => error + t)
    fun t => t * t where
  op_cast _ _ ha hb := CheckedInt.cast_add_of_nonneg ha hb
  op_nonneg _ _ ha hb := add_nonneg ha hb
  weight_cast _ ht := CheckedInt.cast_mul_self ht
  weight_nonneg t _ := mul_self_nonneg t

theorem casts_l4 : Casts (fun error t => error + t) (fun t => (t * t) * (t * t))
    (fun error t => error + t) fun t => (t * t) * (t * t) where
  op_cast _ _ ha hb := CheckedInt.cast_add_of_nonneg ha hb
  op_nonneg _ _ ha hb := add_nonneg ha hb
  weight_cast t ht := by
    rw [CheckedInt.cast_mul_self ht, CheckedInt.cast_mul_self (mul_self_nonneg t)]
  weight_nonneg t _ := mul_self_nonneg (t * t)

theorem casts_lInf : Casts cmax (fun t => t) cmax fun t => t where
  op_cast a b ha hb := by
    rw [cmax_eq_max]
    exact CheckedInt.cast_max_of_nonneg ha hb
  op_nonneg a b ha _ := by
    rw [cmax_eq_max]
    exact le_max_of_le_left ha
  weight_cast _ _ := rfl
  weight_nonneg _ ht := ht

theorem casts_lInf' : Casts (fun error t => cmax t error) (fun t => t) cmax fun t => t where
  op_cast a b ha hb := by
    rw [cmax_eq_max, max_comm]
    exact CheckedInt.cast_max_of_nonneg hb ha
  op_nonneg := casts_lInf.op_nonneg
  weight_cast _ _ := rfl
  weight_nonneg _ ht := ht

section
variable {d : Dims} {T : Table d.n}

/-- The L4 error is the sum of the fourth powers, checked or not. -/
theorem measures_l4 (hd : DimsFit d) (hn : 0 < d.n) :
    Measures T l4Error (errFold T (fun error t : Int => error + t) (fun t => (t * t) * (t * t)) hn) ∧
    MeasuresChecked T l4Error
      (errFold T (fun error t : Int => error + t) (fun t => (t * t) * (t * t)) hn) :=
  ⟨measures_with T _ _ add_right_comm hn, casts_l4.measures casts_l4 hd hn add_right_comm⟩

/-- A sum of terms up to `k²`. -/
theorem errFold_add_bounds (hn : 0 < d.n) {weight : Int → Int} {g : T.Elem → Int}
    (hg : ∀ x, |g x| ≤ d.k)
    (hw : ∀ t : Int, 0 ≤ t → t ≤ d.k → 0 ≤ weight t ∧ weight t ≤ d.k * d.k) :
    0 ≤ errFold T (fun error t => error + t) weight hn g ∧
      errFold T (fun error t => error + t) weight hn g ≤ d.n * (d.k * d.k) := by
  have hcard : (Finset.univ : Finset T.Elem).card = d.n := Fintype.card_fin d.n
  have hterm : ∀ x, 0 ≤ weight (cabs (g x)) ∧ weight (cabs (g x)) ≤ d.k * d.k := by
    intro x
    rw [cabs_int]
    exact hw _ (abs_nonneg _) (hg x)
  rw [errFold_add]
  refine ⟨Finset.sum_nonneg fun x _ => (hterm x).1, ?_⟩
  have := Finset.sum_le_card_nsmul Finset.univ _ _ fun x _ => (hterm x).2
  rwa [hcard, nsmul_eq_mul] at this

/-- The maximum is one of the deviations. -/
theorem errFold_max_bounds (hn : 0 < d.n) {g : T.Elem → Int} (hg : ∀ x, |g x| ≤ d.k) :
    0 ≤ errFold T cmax (fun t => t) hn g ∧ errFold T cmax (fun t => t) hn g ≤ d.k := by
  have hmax : ∀ (l : List T.Elem) (err : Int), 0 ≤ err → err ≤ d.k →
      0 ≤ l.foldl (fun err x => cmax err (cabs (g x))) err ∧
        l.foldl (fun err x => cmax err (cabs (g x))) err ≤ d.k := by
    intro l
    induction l with
    | nil => intro err h0 hle; exact ⟨h0, hle⟩
    | cons x l ih =>
      intro err h0 hle
      rw [List.foldl_cons]
      apply ih
      · rw [cmax_eq_max]
        exact le_max_of_le_left h0
      · rw [cmax_eq_max, cabs_int]
        exact max_le hle (hg x)
  apply hmax
  · rw [cabs_int]
    exact abs_nonneg _
  · rw [cabs_int]
    exact hg _

/-- The other three errors stay below `n * k²` when no deviation is above `k`. -/
theorem exists_norm_checked (hd : DimsFit d) (hn : 0 < d.n) (hk : 1 ≤ d.k)
    {eC : ErrorCalc CheckedInt} {e : ErrorCalc Int}
    (he : (eC, e) ∈ [((l1Error : ErrorCalc CheckedInt), (l1Error : ErrorCalc Int)),
      (l2Error, l2Error), (lInfError, lInfError)]) :
    ∃ norm, Measures T e norm ∧ MeasuresChecked T eC norm ∧
      ∀ g : T.Elem → Int, (∀ x, |g x| ≤ d.k) → 0 ≤ norm g ∧ norm g ≤ d.n * (d.k * d.k) := by
  have hk1 : (1 : Int) ≤ d.k := by omega
  have hn1 : (1 : Int) ≤ d.n := by omega
  simp only [List.mem_cons, Prod.mk.injEq, List.not_mem_nil, or_false] at he
  rcases he with ⟨rfl, rfl⟩ | ⟨rfl, rfl⟩ | ⟨rfl, rfl⟩
  · refine ⟨_, measures_with T _ _ add_right_comm hn, casts_l1.measures casts_l1 hd hn add_right_comm,
      fun g hg => errFold_add_bounds hn hg fun t h0 hle => ⟨h0, ?_⟩⟩
    nlinarith
  · refine ⟨_, measures_with T _ _ add_right_comm hn, casts_l2.measures casts_l2 hd hn add_right_comm,
      fun g hg => errFold_add_bounds hn hg fun t h0 hle => ⟨mul_self_nonneg t, ?_⟩⟩
    nlinarith
  · refine ⟨errFold T cmax (fun t => t) hn, ?_, casts_lInf'.measures casts_lInf hd hn cmax_right_comm, ?_⟩
    · rw [lInfError_eq]
      exact measures_with T _ _ cmax_right_comm hn
    · intro g hg
      have h := errFold_max_bounds hn hg
      refine ⟨h.1, h.2.trans ?_⟩
      nlinarith

end

end PdsSearch
