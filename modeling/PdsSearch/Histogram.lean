import PdsSearch.Lib.GroupRing
import PdsSearch.SearchTools

/-!
# The histogram `sums` in the group ring

`T.hist a` is the array that holds the coefficients of the group ring element
`a`.  On such arrays the histogram functions are group ring operations, for any
table and any list, repeats allowed:

    tally d T.ct (T.ints xs) (T.hist a)             = .ok (T.hist (a + D * D))
    adjustSums d T.ct (T.ints xs) (T.hist a) (p, b) c = .ok (T.hist (a + c • swapSq D xs[p] b))

with `D = formal xs` (`tally_spec`, `adjustSums_spec`).  So one call with
factor `1` turns the histogram of `xs` into that of `xs.set p b`
(`adjustSums_set`), and a call with factor `-1` after it restores any array.
-/

namespace PdsSearch

open Checked GroupRing
open MonoidAlgebra (single)

variable {α : Type} [CommRing α] {n : Nat}

namespace Table

variable (T : Table n)

/-- The array of coefficients. -/
noncomputable def hist (a : MonoidAlgebra α T.Elem) : List α := T.tab fun x => a.coeff x

@[simp] theorem length_hist (a : MonoidAlgebra α T.Elem) : (T.hist a).length = n := T.length_tab _

@[simp] theorem vget_hist (a : MonoidAlgebra α T.Elem) (x : T.Elem) :
    vget (T.hist a) (T.idx x) = .ok (a.coeff x) :=
  T.vget_tab _ x

theorem hist_zero : T.hist (0 : MonoidAlgebra α T.Elem) = List.replicate n ((0 : Int) : α) := by
  rw [T.replicate_eq_tab, Int.cast_zero]
  rfl

/-- Every array of the right length holds some group ring element. -/
theorem exists_hist (sums : List α) (h : sums.length = n) :
    ∃ a : MonoidAlgebra α T.Elem, T.hist a = sums := by
  obtain ⟨f, rfl⟩ := T.exists_tab sums h
  exact ⟨.ofCoeff (Finsupp.equivFunOnFinite.symm f), rfl⟩

/-- An array that holds the coefficients is the histogram. -/
theorem hist_eq_of_vget {a : MonoidAlgebra α T.Elem} {v : List α} (hlen : v.length = n)
    (h : ∀ x, vget v (T.idx x) = .ok (a.coeff x)) : T.hist a = v := by
  obtain ⟨f, rfl⟩ := T.exists_tab v hlen
  refine (T.tab_inj _ _).2 (funext fun x => ?_)
  have hx := h x
  rw [T.vget_tab, Except.ok.injEq] at hx
  exact hx.symm

theorem update_coeff (a : MonoidAlgebra α T.Elem) (x : T.Elem) (c : α) :
    Function.update (fun y : T.Elem => a.coeff y) x (a.coeff x + c) =
      fun y => (a + single x c).coeff y := by
  ext y
  rw [Function.update_apply, MonoidAlgebra.coeff_add, Finsupp.add_apply,
    MonoidAlgebra.coeff_single, Finsupp.single_apply]
  by_cases h : x = y
  · subst h; simp
  · rw [if_neg (Ne.symm h), if_neg h, add_zero]

@[simp] theorem addAt_hist (a : MonoidAlgebra α T.Elem) (x : T.Elem) (c : α) :
    addAt (T.hist a) (T.idx x) c = .ok (T.hist (a + single x c)) := by
  unfold addAt hist
  rw [T.vmod_tab, update_coeff]

@[simp] theorem subAt_hist (a : MonoidAlgebra α T.Elem) (x : T.Elem) (c : α) :
    subAt (T.hist a) (T.idx x) c = .ok (T.hist (a - single x c)) := by
  have h : single x (-c) = -(single x c : MonoidAlgebra α T.Elem) := by
    rw [← MonoidAlgebra.coeff_inj]; simp
  unfold subAt hist
  rw [T.vmod_tab, sub_eq_add_neg (a.coeff x), update_coeff, h, ← sub_eq_add_neg]

end Table

/-! ## The double loop -/

section
variable {d : Dims} (T : Table d.n)

/-- A loop over the positions of a list is a loop over the list. -/
theorem foldl_range_getElem {β γ : Type} (xs : List β) (g : γ → β → γ) (a : γ)
    (f : γ → Nat → γ) (hf : ∀ a i, (hi : i < xs.length) → f a i = g a xs[i]) :
    (List.range xs.length).foldl f a = xs.foldl g a := by
  induction xs using List.reverseRecOn generalizing a with
  | nil => rfl
  | append_singleton xs x ih =>
    rw [List.length_append, List.length_singleton, List.range_succ, List.foldl_append,
      List.foldl_append]
    rw [ih a fun a i hi => by
      rw [hf a i (by simp; omega), List.getElem_append_left hi]]
    simp [hf _ xs.length (by simp)]

theorem tally_spec (xs : List T.Elem) (hk : xs.length = d.k) (a : MonoidAlgebra α T.Elem) :
    tally d T.ct (T.ints xs) (T.hist a) = .ok (T.hist (a + formal α xs * formal α xs)) := by
  unfold tally
  rw [← hk]
  -- one row of products
  have row : ∀ (a : MonoidAlgebra α T.Elem) (i : Nat), (hi : i < xs.length) →
      (List.range xs.length).foldlM (fun sums (j : Nat) => do
        addAt sums (← cell T.ct (← vget (T.ints xs) i) (← vget (T.ints xs) j)) ((1 : Int) : α))
        (T.hist a) = .ok (T.hist (a + single xs[i] 1 * formal α xs)) := by
    intro a i hi
    rw [foldlM_conc T.hist _
      (fun a j => if hj : j < xs.length then a + single (xs[i] * xs[j]) 1 else a)]
    · rw [foldl_range_getElem xs (fun a y => a + single (xs[i] * y) 1)]
      · rw [foldl_add_sum, mul_formal]
        simp
      · intro a j hj; rw [dif_pos hj]
    · intro a j hj
      have hj := List.mem_range.1 hj
      rw [T.vget_ints xs i hi, T.vget_ints xs j hj, dif_pos hj]
      simp
  rw [foldlM_conc T.hist _
    (fun a i => if hi : i < xs.length then a + single xs[i] 1 * formal α xs else a)]
  · rw [foldl_range_getElem xs (fun a x => a + single x 1 * formal α xs)]
    · rw [foldl_add_sum, formal_mul]
    · intro a i hi; rw [dif_pos hi]
  · intro a i hi
    have hi := List.mem_range.1 hi
    rw [row a i hi, dif_pos hi]

/-! ## Swaps -/

/-- One iteration of the loop of `adjust_sums`. -/
theorem adjustSums_step (a : MonoidAlgebra α T.Elem) (x y b : T.Elem) (c : α) :
    (do
      let sums ← subAt (T.hist a) (T.idx (x * y)) c
      let sums ← subAt sums (T.idx (y * x)) c
      let sums ← addAt sums (T.idx (x * b)) c
      addAt sums (T.idx (b * x)) c) =
      .ok (T.hist (a + c • (-(single x 1 * single y 1) - single y 1 * single x 1
        + single x 1 * single b 1 + single b 1 * single x 1))) := by
  rw [T.subAt_hist, ok_bind, T.subAt_hist, ok_bind, T.addAt_hist, ok_bind, T.addAt_hist]
  congr 2
  simp only [MonoidAlgebra.single_mul_single, smul_add, smul_sub, smul_neg,
    MonoidAlgebra.smul_single, smul_eq_mul, mul_one]
  abel

/-- The loop of `adjust_sums` adds `-Da - aD + Db + bD`. -/
theorem sum_adjust (xs : List T.Elem) (y b : T.Elem) (c : α) :
    (xs.map fun x => c • (-(single x 1 * single y 1) - single y 1 * single x 1
        + single x 1 * single b 1 + single b 1 * single x (1 : α))).sum =
      c • (-(formal α xs * single y 1) - single y 1 * formal α xs
        + formal α xs * single b 1 + single b 1 * formal α xs) := by
  induction xs with
  | nil => simp
  | cons x xs ih =>
    rw [List.map_cons, List.sum_cons, ih, ← smul_add, formal_cons]
    congr 1
    simp only [add_mul, mul_add]
    abel

theorem adjustSums_spec (xs : List T.Elem) (hk : xs.length = d.k) (a : MonoidAlgebra α T.Elem)
    (p : Nat) (hp : p < xs.length) (b : T.Elem) (c : α) :
    adjustSums d T.ct (T.ints xs) (T.hist a) ((p : Int), T.idx b) c =
      .ok (T.hist (a + c • swapSq (formal α xs) xs[p] b)) := by
  unfold adjustSums
  simp only [T.vget_ints xs p hp, ok_bind, T.cell_mul]
  rw [← hk, foldlM_conc T.hist _ (fun a i => if hi : i < xs.length then
    a + c • (-(single xs[i] 1 * single xs[p] 1) - single xs[p] 1 * single xs[i] 1
        + single xs[i] 1 * single b 1 + single b 1 * single xs[i] 1) else a)]
  · rw [foldl_range_getElem xs (fun a x => a + c •
      (-(single x 1 * single xs[p] 1) - single xs[p] 1 * single x 1
        + single x 1 * single b 1 + single b 1 * single x 1))]
    · rw [foldl_add_sum, sum_adjust]
      simp only [ok_bind, T.addAt_hist, T.subAt_hist]
      congr 2
      unfold swapSq
      simp only [smul_add, smul_sub, smul_neg, MonoidAlgebra.smul_single, smul_eq_mul, mul_one]
      abel
    · intro a i hi; rw [dif_pos hi]
  · intro a i hi
    have hi := List.mem_range.1 hi
    simp only [T.vget_ints xs i hi, ok_bind, T.cell_mul]
    rw [adjustSums_step, dif_pos hi]

/-- **`adjust_sums` keeps the histogram.**  With factor `1` it turns the
histogram of `xs` into the histogram of `xs` with position `p` replaced by `b`. -/
theorem adjustSums_set (xs : List T.Elem) (hk : xs.length = d.k) (p : Nat) (hp : p < xs.length)
    (b : T.Elem) :
    adjustSums d T.ct (T.ints xs) (T.hist (formal α xs * formal α xs)) ((p : Int), T.idx b)
      ((1 : Int) : α) = .ok (T.hist (formal α (xs.set p b) * formal α (xs.set p b))) := by
  rw [adjustSums_spec T xs hk _ p hp, formal_set_sq xs p hp, Int.cast_one, one_smul]

/-- **Undo.**  Factor `-1` after factor `1` gives back any array. -/
theorem adjustSums_undo (xs : List T.Elem) (hk : xs.length = d.k) (a : MonoidAlgebra α T.Elem)
    (p : Nat) (hp : p < xs.length) (b : T.Elem) :
    (do
      let sums ← adjustSums d T.ct (T.ints xs) (T.hist a) ((p : Int), T.idx b) ((1 : Int) : α)
      adjustSums d T.ct (T.ints xs) sums ((p : Int), T.idx b) ((-1 : Int) : α)) =
      .ok (T.hist a) := by
  rw [adjustSums_spec T xs hk _ p hp, ok_bind, adjustSums_spec T xs hk _ p hp]
  congr 2
  simp only [Int.cast_one, Int.reduceNeg, Int.cast_neg, one_smul, neg_smul]
  abel

end

end PdsSearch
