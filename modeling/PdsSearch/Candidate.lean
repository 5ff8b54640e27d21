import PdsSearch.ErrorSpec
import PdsSearch.Histogram

/-!
# Candidate sets and what the state says about them

A `Candidate T` is a list of `k` distinct nonidentity elements: what `my_set`
may hold.  Its error `c.err norm` is the norm of the deviations of its
histogram; `c.swap m` is the list with position `m.1` replaced by `m.2`, when
`m` is in range and its value is not a member.

`Holds norm c s`: the four pieces of state (`my_set`, `is_member`, `sums`,
`cur_error`) all describe the candidate `c`.  On such a state the body of the
inner loop does what its name says (`tryMutation_holds`), and on a state with
any other `sums` and `cur_error` a rejected swap still leaves no trace
(`tryMutation_spec`).
-/

namespace PdsSearch

open Checked GroupRing
open MonoidAlgebra (single)

/-- A pair the loops can hold: a position, and a nonzero value. -/
def InRange (d : Dims) (m : Int × Int) : Prop :=
  (0 ≤ m.1 ∧ m.1 < d.k) ∧ 1 ≤ m.2 ∧ m.2 < d.n

variable {d : Dims}

/-- `k` distinct nonidentity elements. -/
structure Candidate (T : Table d.n) where
  xs : List T.Elem
  length_eq : xs.length = d.k
  nodup : xs.Nodup
  nonId : ∀ x ∈ xs, T.idx x ≠ 0

/-- There are finitely many. -/
instance (T : Table d.n) : Finite (Candidate T) := by
  have hfin : Finite { xs : List T.Elem // xs.length = d.k } :=
    (List.finite_length_eq T.Elem d.k).to_subtype
  refine Finite.of_injective (fun c : Candidate T =>
    (⟨c.xs, c.length_eq⟩ : { xs : List T.Elem // xs.length = d.k })) ?_
  rintro ⟨xs, _, _, _⟩ ⟨ys, _, _, _⟩ h
  obtain rfl : xs = ys := congrArg Subtype.val h
  rfl

/-- A pair in range is a position and an element. -/
theorem InRange.exists_elem (T : Table d.n) {m : Int × Int} (h : InRange d m) :
    ∃ (p : Nat) (b : T.Elem), m = ((p : Int), T.idx b) ∧ p < d.k ∧ T.idx b ≠ 0 := by
  obtain ⟨⟨h1, h2⟩, h3, h4⟩ := h
  obtain ⟨b, hb⟩ := T.exists_idx m.2 (by omega) h4
  refine ⟨m.1.toNat, b, Prod.ext ?_ hb.symm, by omega, by omega⟩
  show m.1 = ((m.1.toNat : Nat) : Int)
  omega

theorem mem_set_of_nodup {β : Type} {xs : List β} (hnd : xs.Nodup) {p : Nat} (hp : p < xs.length)
    (b x : β) : x ∈ xs.set p b ↔ x = b ∨ (x ∈ xs ∧ x ≠ xs[p]) := by
  induction xs generalizing p with
  | nil => simp at hp
  | cons y ys ih =>
    obtain ⟨hy, hys⟩ := List.nodup_cons.1 hnd
    cases p with
    | zero =>
      rw [List.set_cons_zero, List.mem_cons, List.mem_cons, List.getElem_cons_zero]
      constructor
      · rintro (h | h)
        · exact .inl h
        · exact .inr ⟨.inr h, fun e => hy (e ▸ h)⟩
      · rintro (h | ⟨h | h, hne⟩)
        · exact .inl h
        · exact absurd h hne
        · exact .inr h
    | succ p =>
      have hp : p < ys.length := by simpa using hp
      rw [List.set_cons_succ, List.mem_cons, List.mem_cons, List.getElem_cons_succ, ih hys hp]
      constructor
      · rintro (h | h | ⟨h, hne⟩)
        · exact .inr ⟨.inl h, fun e => hy (h ▸ e ▸ List.getElem_mem hp)⟩
        · exact .inl h
        · exact .inr ⟨.inr h, hne⟩
      · rintro (h | ⟨h | h, hne⟩)
        · exact .inr (.inl h)
        · exact .inl h
        · exact .inr (.inr ⟨h, hne⟩)

namespace Candidate

variable {T : Table d.n} (c : Candidate T)

/-- The candidate with position `p` replaced by `b`. -/
def set (p : Nat) (b : T.Elem) (hp : p < d.k) (hb : T.idx b ≠ 0) (hbx : b ∉ c.xs) :
    Candidate T where
  xs := c.xs.set p b
  length_eq := by rw [List.length_set, c.length_eq]
  nodup := c.nodup.set hbx
  nonId := by
    intro x hx
    have hp' : p < c.xs.length := by rw [c.length_eq]; exact hp
    rcases (mem_set_of_nodup c.nodup hp' b x).1 hx with rfl | ⟨h, _⟩
    · exact hb
    · exact c.nonId x h

/-- The candidate after the mutation `m`; `none` when `m` is out of range or its value is
already a member. -/
def swap (m : Int × Int) : Option (Candidate T) :=
  if h : (0 ≤ m.1 ∧ m.1 < d.k) ∧ 1 ≤ m.2 ∧ m.2 < d.n then
    let b : T.Elem := (⟨m.2.toNat, by omega⟩ : Fin d.n)
    have hb : T.idx b ≠ 0 := by show ((m.2.toNat : Nat) : Int) ≠ 0; omega
    if hbx : b ∉ c.xs then some (c.set m.1.toNat b (by omega) hb hbx) else none
  else none

theorem swap_elem (p : Nat) (b : T.Elem) (hp : p < d.k) (hb : T.idx b ≠ 0) :
    c.swap ((p : Int), T.idx b) =
      if hbx : b ∉ c.xs then some (c.set p b hp hb hbx) else none := by
  have hbd := T.idx_bounds b
  have he : (⟨(T.idx b).toNat, by omega⟩ : Fin d.n) = b := Fin.ext (by simp [Table.idx])
  unfold swap
  rw [dif_pos ⟨⟨by omega, by simpa using hp⟩, by simp only; omega, hbd.2⟩]
  simp only [he, Int.toNat_natCast]

/-- The list after a swap. -/
theorem swap_ints {m : Int × Int} (hm : InRange d m) {c' : Candidate T}
    (h : c.swap m = some c') : T.ints c'.xs = (T.ints c.xs).set m.1.toNat m.2 := by
  obtain ⟨p, b, rfl, hp, hb⟩ := hm.exists_elem T
  rw [c.swap_elem p b hp hb] at h
  split at h
  · cases h
    rw [Int.toNat_natCast, T.ints_set]
    rfl
  · cases h

theorem swap_vset {m : Int × Int} (hm : InRange d m) {c' : Candidate T} (h : c.swap m = some c') :
    vset (T.ints c.xs) m.1 m.2 = .ok (T.ints c'.xs) := by
  rw [c.swap_ints hm h]
  obtain ⟨⟨h1, h2⟩, -⟩ := hm
  have hlen : m.1.toNat < (T.ints c.xs).length := by
    rw [T.length_ints, c.length_eq]
    omega
  have := vset_nat (T.ints c.xs) m.1.toNat m.2 hlen
  rwa [Int.toNat_of_nonneg h1] at this

theorem swap_eq_none {m : Int × Int} (hm : InRange d m) : c.swap m = none ↔ m.2 ∈ T.ints c.xs := by
  obtain ⟨p, b, rfl, hp, hb⟩ := hm.exists_elem T
  rw [c.swap_elem p b hp hb, T.idx_mem_ints]
  by_cases hbx : b ∈ c.xs
  · simp [hbx]
  · simp [hbx]

theorem ints_bounds : ∀ x ∈ T.ints c.xs, 1 ≤ x ∧ x < d.n := by
  intro x hx
  obtain ⟨y, hy, rfl⟩ := List.mem_map.1 hx
  have h1 := T.idx_bounds y
  have h2 := c.nonId y hy
  omega

/-- Every list of `k` distinct values in `1 .. n-1` is a candidate. -/
theorem exists_of_list (T : Table d.n) (S : List Int) (hk : S.length = d.k) (hnd : S.Nodup)
    (hS : ∀ x ∈ S, 1 ≤ x ∧ x < d.n) : ∃ c : Candidate T, T.ints c.xs = S := by
  obtain ⟨xs, rfl⟩ := T.exists_ints S fun x hx => ⟨by have := hS x hx; omega, (hS x hx).2⟩
  refine ⟨⟨xs, by simpa using hk, (T.nodup_ints xs).1 hnd, fun x hx => ?_⟩, rfl⟩
  have := hS (T.idx x) ((T.idx_mem_ints x xs).2 hx)
  omega

/-- Every order of its elements is a candidate. -/
theorem exists_of_perm (S : List Int) (h : S.Perm (T.ints c.xs)) :
    ∃ c' : Candidate T, T.ints c'.xs = S ∧ c'.xs.Perm c.xs := by
  obtain ⟨c', rfl⟩ := exists_of_list T S (by rw [h.length_eq, T.length_ints, c.length_eq])
    (h.nodup_iff.2 ((T.nodup_ints _).2 c.nodup)) fun x hx => c.ints_bounds x (h.mem_iff.1 hx)
  exact ⟨c', rfl, (T.ints_perm _ _).1 h⟩

section
variable {α : Type} [CommRing α]

/-- Membership as a bitmap. -/
def member (x : T.Elem) : Bool := decide (x ∈ c.xs)

/-- The histogram of products. -/
noncomputable def square (α : Type) [CommRing α] : MonoidAlgebra α T.Elem :=
  formal α c.xs * formal α c.xs

/-- The error: the norm of the deviations. -/
noncomputable def err (norm : (T.Elem → α) → α) : α :=
  norm (dev T c.member fun x => (c.square α).coeff x)

end

/-- The three targets, one by one. -/
theorem dev_eq_zero_iff_coeff (hn : 0 < d.n) :
    (∀ x, dev T c.member (fun x => (c.square Int).coeff x) x = 0) ↔
      (c.square Int).coeff (T.zero hn) = d.k ∧
      ∀ x ∈ T.nonId, (c.square Int).coeff x = if x ∈ c.xs then d.lam else d.mu := by
  unfold dev member
  simp only [Int.cast_id, decide_eq_true_eq]
  constructor
  · intro h
    constructor
    · have := h (T.zero hn)
      rw [if_pos (T.idx_zero hn)] at this
      omega
    · intro x hx
      have := h x
      rw [if_neg ((T.mem_nonId x).1 hx)] at this
      by_cases hxc : x ∈ c.xs
      · rw [if_pos hxc] at this ⊢
        omega
      · rw [if_neg hxc] at this ⊢
        omega
  · rintro ⟨hzero, hrest⟩ x
    by_cases hx : T.idx x = 0
    · rw [if_pos hx, (T.idx_eq_zero hn x).1 hx, hzero]
      omega
    · have := hrest x ((T.mem_nonId x).2 hx)
      rw [if_neg hx]
      by_cases hxc : x ∈ c.xs
      · rw [if_pos hxc] at this ⊢
        omega
      · rw [if_neg hxc] at this ⊢
        omega

end Candidate

/-- The bitmap marks exactly the values of `S`. -/
def Indicates (n : Nat) (S : List Int) (isMember : List Bool) : Prop :=
  isMember.length = n ∧ ∀ x : Nat, x < n → vget isMember x = .ok (decide ((x : Int) ∈ S))

theorem indicates_ints_iff {T : Table d.n} (xs : List T.Elem) (isMember : List Bool) :
    Indicates d.n (T.ints xs) isMember ↔ isMember = T.tab fun x => decide (x ∈ xs) := by
  constructor
  · rintro ⟨hlen, h⟩
    obtain ⟨χ, rfl⟩ := T.exists_tab isMember hlen
    rw [T.tab_inj]
    ext x
    have hx : Fin.val x < d.n := Fin.isLt x
    have hget : vget (T.tab χ) (T.idx x) = .ok (decide (T.idx x ∈ T.ints xs)) := h (Fin.val x) hx
    rw [T.vget_tab] at hget
    rw [Except.ok.inj hget]
    exact decide_eq_decide.2 (T.idx_mem_ints x xs)
  · rintro rfl
    refine ⟨T.length_tab _, fun x hx => ?_⟩
    obtain ⟨y, hy⟩ := T.exists_idx x (by omega) (by omega)
    rw [← hy, T.vget_tab]
    simp only [T.idx_mem_ints]

/-! ## From-scratch error -/

section
variable {α : Type} [CommRing α] {T : Table d.n} {e : ErrorCalc α}
  {norm : (T.Elem → α) → α}

theorem efs_candidate (hM : Measures T e norm) (c : Candidate T) (a : MonoidAlgebra α T.Elem) :
    e.efs d (T.ints c.xs) (T.hist a) = .ok (norm (dev T c.member fun x => a.coeff x)) :=
  hM.efs c.xs _ c.nodup c.nonId

theorem tally_candidate (c : Candidate T) :
    tally d T.ct (T.ints c.xs) (List.replicate d.n ((0 : Int) : α)) = .ok (T.hist (c.square α)) := by
  rw [← T.hist_zero, tally_spec T c.xs c.length_eq, zero_add]
  rfl

/-- **`error` computes the error of a candidate.** -/
theorem error_candidate (hM : Measures T e norm) (c : Candidate T) :
    error d T.ct (T.ints c.xs) e = .ok (c.err norm) := by
  unfold error
  rw [tally_candidate, ok_bind, efs_candidate hM]
  rfl

/-- The error depends on the set only. -/
theorem Candidate.err_eq_of_perm {c c' : Candidate T} (h : c.xs.Perm c'.xs) :
    c.err norm = c'.err norm := by
  have hm : c.member = c'.member := by
    ext x
    exact decide_eq_decide.2 h.mem_iff
  unfold Candidate.err Candidate.square
  rw [hm, formal_perm h]

/-! ## The state -/

/-- `my_set`, `is_member`, `sums` and `cur_error` all describe `c`. -/
structure Holds (norm : (T.Elem → α) → α) (c : Candidate T) (s : St α) : Prop where
  mySet : s.mySet = T.ints c.xs
  isMember : s.isMember = T.tab c.member
  sums : s.sums = T.hist (c.square α)
  curError : s.curError = c.err norm

omit [CommRing α] in
/-- Marking a swap in the bitmap. -/
theorem update_member (c : Candidate T) (p : Nat) (b : T.Elem) (hp : p < c.xs.length)
    (hk : p < d.k) (hb : T.idx b ≠ 0) (hbx : b ∉ c.xs) :
    Function.update (Function.update c.member c.xs[p] false) b true =
      (c.set p b hk hb hbx).member := by
  ext x
  rw [Function.update_apply, Function.update_apply]
  unfold Candidate.member
  show _ = decide (x ∈ c.xs.set p b)
  rw [Bool.eq_iff_iff, decide_eq_true_iff, mem_set_of_nodup c.nodup hp]
  by_cases h1 : x = b
  · simp [h1]
  · by_cases h2 : x = c.xs[p]
    · simp [h2]
    · simp [h1, h2]

omit [CommRing α] in
/-- Taking the marks of a swap back. -/
theorem update_member_undo (c : Candidate T) (p : Nat) (b : T.Elem) (hp : p < c.xs.length)
    (hbx : b ∉ c.xs) :
    Function.update (Function.update (Function.update (Function.update c.member c.xs[p] false)
      b true) c.xs[p] true) b false = c.member := by
  ext x
  simp only [Function.update_apply]
  unfold Candidate.member
  by_cases h1 : x = b
  · simp [h1, hbx]
  · by_cases h2 : x = c.xs[p]
    · subst h2
      simp [h1, List.getElem_mem hp]
    · simp [h1, h2]

variable [LinearOrder α]

/-- **The body of the inner loop**, whatever `sums` and `cur_error` are: nothing happens for
a member; a swap that lowers the error stays; any other swap leaves only `new_error`. -/
theorem tryMutation_spec (hM : Measures T e norm) (c : Candidate T) (s : St α)
    (a : MonoidAlgebra α T.Elem) (h1 : s.mySet = T.ints c.xs) (h2 : s.isMember = T.tab c.member)
    (h3 : s.sums = T.hist a) (p : Nat) (hp : p < c.xs.length) (b : T.Elem) (hk : p < d.k)
    (hb : T.idx b ≠ 0) :
    tryMutation d T.ct e s ((p : Int), T.idx b) =
      if hbx : b ∈ c.xs then .ok (s, .member)
      else
        let c' := c.set p b hk hb hbx
        let sums := a + swapSq (formal α c.xs) c.xs[p] b
        let newError := norm (dev T c'.member fun x => sums.coeff x)
        if newError < s.curError then
          .ok ({ s with mySet := T.ints c'.xs, isMember := T.tab c'.member, sums := T.hist sums,
                        newError, curError := newError, realSteps := s.realSteps + 1,
                        changedVal := true }, .accepted)
        else .ok ({ s with newError }, .rejected) := by
  unfold tryMutation
  simp only [h1, h2, h3, T.vget_tab, ok_bind]
  by_cases hbx : b ∈ c.xs
  · have hm : c.member b = true := decide_eq_true hbx
    simp [hm, hbx]
  · have hm : c.member b = false := decide_eq_false hbx
    have hset : vset (T.ints c.xs) (p : Int) (T.idx b) = .ok (T.ints (c.set p b hk hb hbx).xs) := by
      rw [vset_nat _ _ _ (by simpa using hp), T.ints_set]
      rfl
    simp only [hm, Bool.not_false, if_true, dif_neg hbx]
    simp only [adjustSums_spec T c.xs c.length_eq _ p hp, T.vget_ints c.xs p hp, ok_bind, T.vset_tab,
      update_member c p b hp hk hb hbx, Int.cast_one, one_smul]
    have hef : e.efsFromMember (T.tab (c.set p b hk hb hbx).member) d
        (T.hist (a + swapSq (formal α c.xs) c.xs[p] b)) =
        .ok (norm (dev T (c.set p b hk hb hbx).member
          fun x => (a + swapSq (formal α c.xs) c.xs[p] b).coeff x)) :=
      hM.efsFromMember _ _
    simp only [hef, ok_bind]
    split
    · simp only [hset, ok_bind, pure_eq_ok]
    · -- the undo
      have hback : (a + swapSq (formal α c.xs) c.xs[p] b) +
          ((-1 : Int) : α) • swapSq (formal α c.xs) c.xs[p] b = a := by
        rw [Int.cast_neg, Int.cast_one, neg_smul, one_smul]
        abel
      rw [← update_member c p b hp hk hb hbx, update_member_undo c p b hp hbx]
      simp only [hback, pure_eq_ok]

end

end PdsSearch
