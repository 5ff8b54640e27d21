import Mathlib.Algebra.Order.Ring.Int
import Mathlib.Algebra.Order.Group.Abs
import Mathlib.Data.List.Perm.Basic
import PdsSearch.ErrorCalc

/-!
# What the calculators measure

`dev T χ f x` is the deviation of the histogram `f` at `x` from its target: `k`
at the identity, `λ` on the members `χ`, `μ` elsewhere.  Both methods of a
calculator fold its weight over these deviations, in different orders:

    efs d (T.ints xs) (T.tab f)           = .ok (norm (dev T (· ∈ xs) f))
    efs_from_member (T.tab χ) d (T.tab f) = .ok (norm (dev T χ f))

for a duplicate-free list `xs` without the identity (`Measures`,
`exists_norm`).  Over exact integers the norm is nonnegative, and zero only at
the zero deviation (`exists_norm_int`).
-/

namespace PdsSearch

open Checked

namespace Table

variable {n : Nat} (T : Table n)

/-- Index `0`. -/
def zero (hn : 0 < n) : T.Elem := (⟨0, hn⟩ : Fin n)

@[simp] theorem idx_zero (hn : 0 < n) : T.idx (T.zero hn) = 0 := rfl

theorem idx_eq_zero (hn : 0 < n) (x : T.Elem) : T.idx x = 0 ↔ x = T.zero hn := by
  rw [← T.idx_zero hn, T.idx_inj]

/-- The indices `1 .. n-1`, in order. -/
def nonId : List T.Elem := (List.finRange n).tail

theorem ints_nonId : T.ints T.nonId = (List.range' 1 (n - 1)).map fun i : Nat => (i : Int) := by
  have h : (List.finRange n).tail.map Fin.val = List.range' 1 (n - 1) := by
    rw [List.map_tail, List.map_coe_finRange_eq_range, List.range_eq_range', List.tail_range']
  rw [← h, List.map_map]
  rfl

@[simp] theorem length_nonId : T.nonId.length = n - 1 := by
  rw [← T.length_ints, T.ints_nonId, List.length_map, List.length_range']

theorem nodup_nonId : T.nonId.Nodup :=
  (List.nodup_finRange n).sublist (List.tail_sublist _)

theorem zero_cons_nonId (hn : 0 < n) : T.zero hn :: T.nonId = List.finRange n := by
  obtain ⟨m, rfl⟩ : ∃ m, n = m + 1 := ⟨n - 1, by omega⟩
  unfold nonId
  rw [List.finRange_succ]
  rfl

theorem mem_nonId (x : T.Elem) : x ∈ T.nonId ↔ T.idx x ≠ 0 := by
  have hn : 0 < n := Nat.lt_of_le_of_lt (Nat.zero_le _) (Fin.isLt x)
  have hmem : x ∈ T.zero hn :: T.nonId := by
    rw [T.zero_cons_nonId hn]; exact List.mem_finRange _
  have hnd : (T.zero hn :: T.nonId).Nodup := by
    rw [T.zero_cons_nonId hn]; exact List.nodup_finRange n
  rw [Ne, T.idx_eq_zero hn]
  constructor
  · rintro h rfl
    exact (List.nodup_cons.1 hnd).1 h
  · intro h
    exact (List.mem_cons.1 hmem).resolve_left h

/-- A loop over `1 .. n-1`. -/
theorem foldlM_range {β ε : Type} (f : β → Int → Except ε β) (b : β) :
    (List.range' 1 (n - 1)).foldlM (fun b (i : Nat) => f b (i : Int)) b =
      T.nonId.foldlM (fun b x => f b (T.idx x)) b := by
  have h := congrArg (fun l => l.foldlM f b) T.ints_nonId
  unfold ints at h
  simp only [List.foldlM_map] at h
  exact h.symm

/-- First the listed members, then the rest: all nonidentity elements. -/
theorem perm_nonId (xs : List T.Elem) (hnd : xs.Nodup) (h0 : ∀ x ∈ xs, T.idx x ≠ 0) :
    (xs ++ T.nonId.filter fun x => !decide (x ∈ xs)).Perm T.nonId := by
  rw [List.perm_ext_iff_of_nodup _ T.nodup_nonId]
  · intro x
    simp only [List.mem_append, List.mem_filter, mem_nonId]
    by_cases hx : x ∈ xs
    · simp [hx, h0 x hx]
    · simp [hx]
  · rw [List.nodup_append]
    refine ⟨hnd, T.nodup_nonId.filter _, fun a ha b hb hab => ?_⟩
    subst hab
    simp [ha] at hb

end Table

section
variable {α : Type} [Sub α] [Neg α] [LT α] [DecidableLT α] [IntCast α]
variable {d : Dims} (T : Table d.n)

/-- How far the histogram is from its target at `x`. -/
def dev (χ : T.Elem → Bool) (f : T.Elem → α) (x : T.Elem) : α :=
  if T.idx x = 0 then ((d.k : Int) : α) - f x
  else if χ x then (d.lam : α) - f x
  else (d.mu : α) - f x

/-- Fold the weights of all deviations, the identity first. -/
def errFold (op : α → α → α) (weight : α → α) (hn : 0 < d.n) (g : T.Elem → α) : α :=
  T.nonId.foldl (fun err x => op err (weight (cabs (g x)))) (weight (cabs (g (T.zero hn))))

theorem vget_tab_zero {β : Type} (hn : 0 < d.n) (f : T.Elem → β) :
    vget (T.tab f) 0 = .ok (f (T.zero hn)) := by
  rw [← T.idx_zero hn, T.vget_tab]

theorem efsFromMemberWith_spec (op : α → α → α) (weight : α → α) (hn : 0 < d.n)
    (χ : T.Elem → Bool) (f : T.Elem → α) :
    efsFromMemberWith op weight (T.tab χ) d (T.tab f) =
      .ok (errFold T op weight hn (dev T χ f)) := by
  unfold efsFromMemberWith
  rw [vget_tab_zero T hn, ok_bind]
  rw [T.foldlM_range fun error i => do
    if ← vget (T.tab χ) i then
      return op error (weight (cabs ((d.lam : α) - (← vget (T.tab f) i))))
    else return op error (weight (cabs ((d.mu : α) - (← vget (T.tab f) i))))]
  unfold errFold
  apply foldlM_conc id _ (fun err x => op err (weight (cabs (dev T χ f x)))) _ _
  intro err x hx
  have h0 : T.idx x ≠ 0 := (T.mem_nonId x).1 hx
  rw [T.vget_tab, T.vget_tab]
  cases hχ : χ x <;> simp [dev, h0, hχ]

omit [Sub α] [Neg α] [LT α] [DecidableLT α] [IntCast α] in
/-- The loop over the list: its deviations, and the list marked. -/
theorem foldl_mark (op : α → α → α) (g : T.Elem → α) (xs : List T.Elem) :
    ∀ (err : α) (χ : T.Elem → Bool),
      xs.foldl (fun (s : α × (T.Elem → Bool)) x => (op s.1 (g x), Function.update s.2 x true))
        (err, χ) = (xs.foldl (fun err x => op err (g x)) err, fun x => decide (x ∈ xs) || χ x) := by
  induction xs with
  | nil => intro err χ; simp
  | cons y xs ih =>
    intro err χ
    rw [List.foldl_cons, ih, List.foldl_cons]
    congr 1
    ext x
    rw [Function.update_apply]
    by_cases h : x = y <;> simp [h]

omit [Sub α] [Neg α] [LT α] [DecidableLT α] [IntCast α] in
theorem foldl_filter_rest (op : α → α → α) (g : T.Elem → α) (χ : T.Elem → Bool)
    (l : List T.Elem) : ∀ err : α,
      l.foldl (fun err x => if χ x then err else op err (g x)) err =
        (l.filter fun x => !χ x).foldl (fun err x => op err (g x)) err := by
  induction l with
  | nil => intro err; rfl
  | cons x l ih =>
    intro err
    rw [List.foldl_cons, ih, List.filter_cons]
    cases hx : χ x <;> simp

/-- The two loops of `efs`, in their order. -/
theorem efsWith_foldl (op : α → α → α) (weight : α → α) (hn : 0 < d.n) (xs : List T.Elem)
    (h0 : ∀ x ∈ xs, T.idx x ≠ 0) (f : T.Elem → α) :
    efsWith op weight d (T.ints xs) (T.tab f) =
      .ok ((xs ++ T.nonId.filter fun x => !decide (x ∈ xs)).foldl
        (fun err x => op err (weight (cabs (dev T (fun x => decide (x ∈ xs)) f x))))
        (weight (cabs (dev T (fun x => decide (x ∈ xs)) f (T.zero hn))))) := by
  unfold efsWith
  rw [vget_tab_zero T hn, ok_bind, T.replicate_eq_tab]
  set g : T.Elem → α := fun x => weight (cabs (dev T (fun x => decide (x ∈ xs)) f x)) with hg
  -- the candidate list
  have mark : ∀ F : α × List Bool → Int → Except Stop (α × List Bool),
      (∀ err c i, F (err, c) i = do
        let error := op err (weight (cabs ((d.lam : α) - (← vget (T.tab f) i))))
        let checked ← vset c i true
        return (error, checked)) → ∀ err : α,
      (T.ints xs).foldlM F (err, T.tab fun _ => false) =
        .ok (xs.foldl (fun err x => op err (g x)) err, T.tab fun x => decide (x ∈ xs)) := by
    intro F hF err
    unfold Table.ints
    rw [List.foldlM_map]
    rw [foldlM_conc (fun s : α × (T.Elem → Bool) => (s.1, T.tab s.2)) _
      (fun s x => (op s.1 (g x), Function.update s.2 x true)) xs (err, fun _ => false)]
    · rw [foldl_mark]
      simp
    · intro s x hx
      rw [hF]
      simp [hg, dev, h0 x hx, hx]
  -- the rest
  have rest : ∀ err : α, (List.range' 1 (d.n - 1)).foldlM (fun (error : α) (i : Nat) => do
      if !(← vget (T.tab fun x => decide (x ∈ xs)) i) then
        return op error (weight (cabs ((d.mu : α) - (← vget (T.tab f) i))))
      else return error) err =
      .ok ((T.nonId.filter fun x => !decide (x ∈ xs)).foldl (fun err x => op err (g x)) err) := by
    intro err
    rw [T.foldlM_range fun error i => do
      if !(← vget (T.tab fun x => decide (x ∈ xs)) i) then
        return op error (weight (cabs ((d.mu : α) - (← vget (T.tab f) i))))
      else return error]
    rw [← foldl_filter_rest]
    apply foldlM_conc id _ (fun err x => if decide (x ∈ xs) then err else op err (g x)) _ _
    intro err x hx
    have h0 : T.idx x ≠ 0 := (T.mem_nonId x).1 hx
    rw [T.vget_tab, T.vget_tab]
    by_cases hxs : x ∈ xs <;> simp [hxs, hg, dev, h0]
  simp only
  rw [mark _ fun _ _ _ => rfl, ok_bind]
  simp only
  rw [rest, ← List.foldl_append]
  simp [hg, dev]

theorem efsWith_spec (op : α → α → α) (weight : α → α)
    (hop : ∀ a b c, op (op a b) c = op (op a c) b) (hn : 0 < d.n) (xs : List T.Elem)
    (hnd : xs.Nodup) (h0 : ∀ x ∈ xs, T.idx x ≠ 0) (f : T.Elem → α) :
    efsWith op weight d (T.ints xs) (T.tab f) =
      .ok (errFold T op weight hn (dev T (fun x => decide (x ∈ xs)) f)) := by
  have : RightCommutative fun (err : α) (x : T.Elem) =>
      op err (weight (cabs (dev T (fun x => decide (x ∈ xs)) f x))) := ⟨fun a x y => hop a _ _⟩
  unfold errFold
  rw [efsWith_foldl T op weight hn xs h0 f, (T.perm_nonId xs hnd h0).foldl_eq]

/-- Both methods of `e` are `norm` of the deviations. -/
structure Measures (e : ErrorCalc α) (norm : (T.Elem → α) → α) : Prop where
  efs : ∀ (xs : List T.Elem) (f : T.Elem → α), xs.Nodup → (∀ x ∈ xs, T.idx x ≠ 0) →
    e.efs d (T.ints xs) (T.tab f) = .ok (norm (dev T (fun x => decide (x ∈ xs)) f))
  efsFromMember : ∀ (χ : T.Elem → Bool) (f : T.Elem → α),
    e.efsFromMember (T.tab χ) d (T.tab f) = .ok (norm (dev T χ f))

theorem measures_with (op : α → α → α) (weight : α → α)
    (hop : ∀ a b c, op (op a b) c = op (op a c) b) (hn : 0 < d.n) :
    Measures T ⟨efsWith op weight, efsFromMemberWith op weight⟩ (errFold T op weight hn) :=
  ⟨fun xs f hnd h0 => efsWith_spec T op weight hop hn xs hnd h0 f,
    efsFromMemberWith_spec T op weight hn⟩

end

/-! ## The four calculators -/

section
variable {α : Type} [CommRing α] [LinearOrder α] {d : Dims} (T : Table d.n)

omit [CommRing α] in
theorem cmax_eq_max (a b : α) : cmax a b = max a b := (max_def_lt a b).symm

theorem lInfError_eq : (lInfError : ErrorCalc α) =
    ⟨efsWith cmax (fun t => t), efsFromMemberWith cmax (fun t => t)⟩ := by
  unfold lInfError
  have h : (fun error t : α => cmax t error) = cmax := by
    funext a b; rw [cmax_eq_max, cmax_eq_max, max_comm]
  rw [h]

omit [CommRing α] in
theorem cmax_right_comm (a b c : α) : cmax (cmax a b) c = cmax (cmax a c) b := by
  simp only [cmax_eq_max]
  exact max_right_comm a b c

/-- Every calculator folds weights with an operation that does not mind the order. -/
theorem calculators_with (e : ErrorCalc α) (he : e ∈ (calculators : List (ErrorCalc α))) :
    ∃ op weight, (∀ a b c : α, op (op a b) c = op (op a c) b) ∧
      e = ⟨efsWith op weight, efsFromMemberWith op weight⟩ := by
  have hadd : ∀ a b c : α, a + b + c = a + c + b := add_right_comm
  simp only [calculators, List.mem_cons, List.not_mem_nil, or_false] at he
  rcases he with rfl | rfl | rfl | rfl
  · exact ⟨_, _, hadd, rfl⟩
  · exact ⟨_, _, hadd, rfl⟩
  · exact ⟨_, _, hadd, rfl⟩
  · exact ⟨_, _, cmax_right_comm, lInfError_eq⟩

/-- **Every calculator measures the deviations.**  The first method sees the list, the second
the bitmap; both give the same value. -/
theorem exists_norm (hn : 0 < d.n) (e : ErrorCalc α) (he : e ∈ (calculators : List (ErrorCalc α))) :
    ∃ norm, Measures T e norm := by
  obtain ⟨op, weight, hop, rfl⟩ := calculators_with e he
  exact ⟨_, measures_with T op weight hop hn⟩

end

/-! ## Sums -/

/-- A sum over all elements, the identity first. -/
theorem Table.sum_elem {α : Type} [AddCommMonoid α] {n : Nat} (T : Table n) (hn : 0 < n)
    (f : T.Elem → α) : ∑ x : T.Elem, f x = f (T.zero hn) + (T.nonId.map f).sum := by
  have hnd : (T.zero hn :: T.nonId).Nodup := by
    rw [T.zero_cons_nonId hn]; exact List.nodup_finRange n
  have huniv : (T.zero hn :: T.nonId).toFinset = Finset.univ := by
    ext x
    rw [List.mem_toFinset, T.zero_cons_nonId hn]
    exact ⟨fun _ => Finset.mem_univ _, fun _ => List.mem_finRange _⟩
  rw [← huniv, List.sum_toFinset f hnd, List.map_cons, List.sum_cons]

/-- A fold with `+` is a sum over all elements. -/
theorem errFold_add {α : Type} [CommRing α] [LT α] [DecidableLT α] {d : Dims} (T : Table d.n)
    (weight : α → α) (hn : 0 < d.n) (g : T.Elem → α) :
    errFold T (fun err t => err + t) weight hn g = ∑ x : T.Elem, weight (cabs (g x)) := by
  unfold errFold
  rw [foldl_add_sum, T.sum_elem hn]

/-! ## Exact integers -/

section
variable {d : Dims} (T : Table d.n)

theorem cabs_int (x : Int) : cabs x = |x| := by
  unfold cabs
  rw [Int.cast_zero]
  split
  · next h => rw [abs_of_neg h]
  · next h => rw [abs_of_nonneg (by omega)]

/-- A fold that only grows vanishes exactly when every term does. -/
theorem errFold_int (op : Int → Int → Int) (weight : Int → Int)
    (hw : ∀ t, 0 ≤ t → 0 ≤ weight t) (hw0 : ∀ t, 0 ≤ t → (weight t = 0 ↔ t = 0))
    (hop : ∀ a b, 0 ≤ a → 0 ≤ b → 0 ≤ op a b)
    (hop0 : ∀ a b, 0 ≤ a → 0 ≤ b → (op a b = 0 ↔ a = 0 ∧ b = 0)) (hn : 0 < d.n)
    (g : T.Elem → Int) :
    0 ≤ errFold T op weight hn g ∧ (errFold T op weight hn g = 0 ↔ ∀ x, g x = 0) := by
  have term : ∀ x, 0 ≤ weight (cabs (g x)) ∧ (weight (cabs (g x)) = 0 ↔ g x = 0) := by
    intro x
    rw [cabs_int, hw0 _ (abs_nonneg _), abs_eq_zero]
    exact ⟨hw _ (abs_nonneg _), Iff.rfl⟩
  have fold : ∀ (l : List T.Elem) (err : Int), 0 ≤ err →
      0 ≤ l.foldl (fun err x => op err (weight (cabs (g x)))) err ∧
      (l.foldl (fun err x => op err (weight (cabs (g x)))) err = 0 ↔
        err = 0 ∧ ∀ x ∈ l, g x = 0) := by
    intro l
    induction l with
    | nil => intro err h; simp [h]
    | cons y l ih =>
      intro err h
      rw [List.foldl_cons]
      obtain ⟨h1, h2⟩ := ih _ (hop err _ h (term y).1)
      refine ⟨h1, ?_⟩
      rw [h2, hop0 err _ h (term y).1, (term y).2, List.forall_mem_cons, and_assoc]
  obtain ⟨h1, h2⟩ := fold T.nonId _ (term (T.zero hn)).1
  refine ⟨h1, h2.trans ?_⟩
  rw [(term _).2, ← List.forall_mem_cons (p := fun x => g x = 0), T.zero_cons_nonId hn]
  exact ⟨fun h x => h x (List.mem_finRange _), fun h x _ => h x⟩

/-- **Over exact integers the error vanishes only at zero deviation.** -/
theorem exists_norm_int (hn : 0 < d.n) (e : ErrorCalc Int) (he : e ∈ calculators) :
    ∃ norm, Measures T e norm ∧ (∀ g, 0 ≤ norm g) ∧ ∀ g, norm g = 0 ↔ ∀ x, g x = 0 := by
  have hadd : ∀ a b c : Int, a + b + c = a + c + b := add_right_comm
  have pos : ∀ a b : Int, 0 ≤ a → 0 ≤ b → 0 ≤ a + b := fun a b ha hb => by omega
  have zero : ∀ a b : Int, 0 ≤ a → 0 ≤ b → (a + b = 0 ↔ a = 0 ∧ b = 0) :=
    fun a b ha hb => by omega
  have sq : ∀ t : Int, 0 ≤ t * t := mul_self_nonneg
  have wrap : ∀ (op : Int → Int → Int) (weight : Int → Int),
      Measures T ⟨efsWith op weight, efsFromMemberWith op weight⟩ (errFold T op weight hn) →
      (∀ g, 0 ≤ errFold T op weight hn g ∧ (errFold T op weight hn g = 0 ↔ ∀ x, g x = 0)) →
      ∃ norm, Measures T ⟨efsWith op weight, efsFromMemberWith op weight⟩ norm ∧
        (∀ g, 0 ≤ norm g) ∧ ∀ g, norm g = 0 ↔ ∀ x, g x = 0 :=
    fun op weight hm h => ⟨_, hm, fun g => (h g).1, fun g => (h g).2⟩
  simp only [calculators, List.mem_cons, List.not_mem_nil, or_false] at he
  rcases he with rfl | rfl | rfl | rfl
  · exact wrap _ _ (measures_with T _ _ hadd hn)
      (errFold_int T _ _ (fun t h => h) (fun t _ => Iff.rfl) pos zero hn)
  · exact wrap _ _ (measures_with T _ _ hadd hn)
      (errFold_int T _ _ (fun t _ => sq t) (fun t _ => by simp) pos zero hn)
  · exact wrap _ _ (measures_with T _ _ hadd hn)
      (errFold_int T _ _ (fun t _ => sq _) (fun t _ => by simp) pos zero hn)
  · rw [lInfError_eq]
    refine wrap _ _ (measures_with T _ _ cmax_right_comm hn)
      (errFold_int T _ _ (fun t h => h) (fun t _ => Iff.rfl) ?_ ?_ hn)
    · intro a b ha hb; rw [cmax_eq_max]; exact le_max_of_le_left ha
    · intro a b ha hb; rw [cmax_eq_max]; omega

end

end PdsSearch
