import Mathlib.Data.List.OfFn
import Mathlib.Algebra.BigOperators.Group.List.Basic
import Mathlib.Algebra.Group.Pi.Basic

/-!
# Checked vectors: `std::vector` with every index tested

A vector is a list, an index an integer.  `vget`, `vset` and `vmod` stop with
`outOfRange` at an index outside the vector (negative ones included), so a
program written with them runs to the end only if it never leaves an array.

A vector whose entries are a function of the index is `List.ofFn f`.  On such
vectors the three operations are equations (`vget_ofFn`, `vset_ofFn`,
`vmod_ofFn`), and a loop that works on representatives works on functions:

    (∀ t, ∀ i ∈ l, f (conc t) i = .ok (conc (g t i))) →
      l.foldlM f (conc t) = .ok (conc (l.foldl g t))              (foldlM_conc)

`Agree R x y` compares two programs: they stop alike, or end in related values.
-/

namespace Checked

/-- Why a program stops before its end. -/
inductive Stop
  | outOfRange
  | divByZero
  | undefinedRead
  | timeout
deriving DecidableEq, Repr

variable {β : Type}

/-! ## Operations -/

/-- `v[i]` -/
def vget (v : List β) (i : Int) : Except Stop β :=
  if i < 0 then .error .outOfRange
  else match v[i.toNat]? with
    | some b => .ok b
    | none => .error .outOfRange

/-- `v[i] = b` -/
def vset (v : List β) (i : Int) (b : β) : Except Stop (List β) :=
  if 0 ≤ i ∧ i.toNat < v.length then .ok (v.set i.toNat b) else .error .outOfRange

/-- `v[i] = f(v[i])` -/
def vmod (v : List β) (i : Int) (f : β → β) : Except Stop (List β) := do
  vset v i (f (← vget v i))

/-- `a % b` for `0 ≤ a` -/
def rem (a b : Nat) : Except Stop Nat :=
  if b = 0 then .error .divByZero else .ok (a % b)

/-! ## Lemmas -/

section
variable {ε γ : Type}

@[simp] theorem ok_bind (b : β) (f : β → Except ε γ) : (Except.ok b >>= f) = f b := rfl

@[simp] theorem pure_eq_ok (b : β) : (pure b : Except ε β) = .ok b := rfl

/-- A program that ends has come through its first part. -/
theorem exists_of_bind {x : Except ε β} {f : β → Except ε γ} {c : γ} (h : (x >>= f) = .ok c) :
    ∃ b, x = .ok b ∧ f b = .ok c := by
  cases x with
  | error e => cases h
  | ok b => exact ⟨b, rfl, h⟩

end

theorem vget_nat (v : List β) (i : Nat) (h : i < v.length) : vget v (i : Int) = .ok v[i] := by
  unfold vget
  rw [if_neg (by omega), Int.toNat_natCast, List.getElem?_eq_getElem h]

theorem vset_nat (v : List β) (i : Nat) (b : β) (h : i < v.length) :
    vset v (i : Int) b = .ok (v.set i b) := by
  unfold vset
  rw [if_pos ⟨by omega, by simpa using h⟩, Int.toNat_natCast]

theorem rem_pos (a b : Nat) (h : 0 < b) : rem a b = .ok (a % b) := by
  unfold rem
  rw [if_neg (by omega)]

/-- A read that comes back has an index inside the vector. -/
theorem vget_eq_ok_iff (v : List β) (i : Int) (b : β) :
    vget v i = .ok b ↔ 0 ≤ i ∧ v[i.toNat]? = some b := by
  unfold vget
  split
  · next h => simp; omega
  · next h =>
    have h0 : 0 ≤ i := by omega
    cases hv : v[i.toNat]? <;> simp [h0]

variable {n : Nat}

@[simp] theorem vget_ofFn (f : Fin n → β) (x : Fin n) :
    vget (List.ofFn f) (x.val : Int) = .ok (f x) := by
  rw [vget_nat _ _ (by simp)]
  simp

theorem set_ofFn (f : Fin n → β) (x : Fin n) (b : β) :
    (List.ofFn f).set x.val b = List.ofFn (Function.update f x b) := by
  apply List.ext_getElem
  · simp
  · intro i h1 h2
    simp only [List.getElem_set, List.getElem_ofFn, Function.update_apply, Fin.ext_iff]
    simp only [eq_comm]

@[simp] theorem vset_ofFn (f : Fin n → β) (x : Fin n) (b : β) :
    vset (List.ofFn f) (x.val : Int) b = .ok (List.ofFn (Function.update f x b)) := by
  rw [vset_nat _ _ _ (by simp), set_ofFn]

@[simp] theorem vmod_ofFn (f : Fin n → β) (x : Fin n) (g : β → β) :
    vmod (List.ofFn f) (x.val : Int) g = .ok (List.ofFn (Function.update f x (g (f x)))) := by
  unfold vmod
  rw [vget_ofFn]
  exact vset_ofFn f x _

theorem replicate_eq_ofFn (b : β) : List.replicate n b = List.ofFn (fun _ : Fin n => b) := by
  rw [List.ofFn_const]

/-! ## Loops -/

variable {σ τ ι ε : Type}

/-- **Loop rule.**  A loop body that sends representatives to representatives
makes the loop do so. -/
theorem foldlM_conc (conc : τ → σ) (f : σ → ι → Except ε σ) (g : τ → ι → τ) :
    ∀ (l : List ι) (t : τ), (∀ t, ∀ i ∈ l, f (conc t) i = .ok (conc (g t i))) →
      l.foldlM f (conc t) = .ok (conc (l.foldl g t)) := by
  intro l
  induction l with
  | nil => intro t _; rfl
  | cons i l ih =>
    intro t h
    rw [List.foldlM_cons, h t i List.mem_cons_self]
    exact ih (g t i) fun t j hj => h t j (List.mem_cons_of_mem _ hj)

/-- **Loop rule** with an invariant `I`.  For every `k`: what a round `i` with `R k i` establishes
(`Q k`), and the other rounds keep, holds after the loop. -/
theorem foldlM_reach {κ : Type} (I : σ → Prop) (Q : κ → σ → Prop) (R : κ → ι → Prop)
    {f : σ → ι → Except ε σ} : ∀ (l : List ι),
    (∀ s, ∀ i ∈ l, I s → ∃ s', f s i = .ok s' ∧ I s' ∧ ∀ k, (Q k s → Q k s') ∧ (R k i → Q k s')) →
    ∀ s, I s → ∃ s', l.foldlM f s = .ok s' ∧ I s' ∧
      ∀ k, (Q k s → Q k s') ∧ ((∃ i ∈ l, R k i) → Q k s') := by
  intro l
  induction l with
  | nil =>
    intro _ s hs
    exact ⟨s, rfl, hs, fun k => ⟨id, fun ⟨_, hi, _⟩ => absurd hi List.not_mem_nil⟩⟩
  | cons i l ih =>
    intro h s hs
    obtain ⟨s₁, h₁, hs₁, hQ₁⟩ := h s i List.mem_cons_self hs
    obtain ⟨s₂, h₂, hs₂, hQ₂⟩ := ih (fun s j hj => h s j (List.mem_cons_of_mem i hj)) s₁ hs₁
    refine ⟨s₂, ?_, hs₂, fun k => ⟨fun hQ => (hQ₂ k).1 ((hQ₁ k).1 hQ), ?_⟩⟩
    · rw [List.foldlM_cons, h₁]
      exact h₂
    · rintro ⟨j, hj, hR⟩
      rcases List.mem_cons.1 hj with rfl | hj
      · exact (hQ₂ k).1 ((hQ₁ k).2 hR)
      · exact (hQ₂ k).2 ⟨j, hj, hR⟩

/-- **Loop rule** for a loop that has ended. -/
theorem foldlM_inv (I : σ → Prop) {f : σ → ι → Except ε σ} : ∀ {l : List ι},
    (∀ s, ∀ i ∈ l, ∀ s', I s → f s i = .ok s' → I s') → ∀ {s s'}, I s → l.foldlM f s = .ok s' → I s' := by
  intro l
  induction l with
  | nil =>
    intro _ s s' hs h
    rwa [← Except.ok.inj h]
  | cons i l ih =>
    intro hstep s s' hs h
    rw [List.foldlM_cons] at h
    obtain ⟨s₁, h₁, h⟩ := exists_of_bind h
    exact ih (fun s j hj => hstep s j (List.mem_cons_of_mem i hj)) (hstep s i List.mem_cons_self s₁ hs h₁) h

/-- A loop over states that are images of states. -/
theorem foldlM_image (φ : τ → σ) {f : τ → ι → Except ε τ} {g : σ → ι → Except ε σ}
    (h : ∀ t i, g (φ t) i = φ <$> f t i) (l : List ι) : ∀ t, l.foldlM g (φ t) = φ <$> l.foldlM f t := by
  induction l with
  | nil => intro t; rfl
  | cons i l ih =>
    intro t
    rw [List.foldlM_cons, List.foldlM_cons, h, bind_map_left, map_bind]
    exact bind_congr ih

theorem foldlM_congr {f g : σ → ι → Except ε σ} {l : List ι} (h : ∀ s, ∀ i ∈ l, f s i = g s i) :
    ∀ s, l.foldlM f s = l.foldlM g s := by
  induction l with
  | nil => intro s; rfl
  | cons i l ih =>
    intro s
    rw [List.foldlM_cons, List.foldlM_cons, h s i List.mem_cons_self]
    exact bind_congr (ih fun s j hj => h s j (List.mem_cons_of_mem i hj))

/-- The last round of a loop over `0 .. j`. -/
theorem foldlM_range_succ (f : σ → Nat → Except ε σ) (s : σ) (j : Nat) :
    (List.range (j + 1)).foldlM f s = (List.range j).foldlM f s >>= fun t => f t j := by
  rw [List.range_succ, List.foldlM_append]
  simp only [List.foldlM_cons, List.foldlM_nil, bind_pure]

theorem mapM_congr {f g : ι → Except ε τ} {l : List ι} (h : ∀ i ∈ l, f i = g i) : l.mapM f = l.mapM g := by
  induction l with
  | nil => rfl
  | cons i l ih =>
    rw [List.mapM_cons, List.mapM_cons, h i List.mem_cons_self, ih fun j hj => h j (List.mem_cons_of_mem i hj)]

/-- A loop that collects results, none of them a stop. -/
theorem mapM_ok {f : ι → Except ε τ} {g : ι → τ} {l : List ι} (h : ∀ i ∈ l, f i = .ok (g i)) :
    l.mapM f = .ok (l.map g) := by
  induction l with
  | nil => rfl
  | cons i l ih =>
    rw [List.mapM_cons, h i List.mem_cons_self, ok_bind, ih fun j hj => h j (List.mem_cons_of_mem _ hj)]
    rfl

theorem mapM_eq_ok_iff {f : ι → Except ε τ} {g : ι → τ} {l : List ι} :
    l.mapM f = .ok (l.map g) ↔ ∀ i ∈ l, f i = .ok (g i) := by
  refine ⟨fun h => ?_, mapM_ok⟩
  induction l with
  | nil => exact List.forall_mem_nil _
  | cons i l ih =>
    rw [List.mapM_cons] at h
    obtain ⟨b, hb, h⟩ := exists_of_bind h
    obtain ⟨bs, hbs, h⟩ := exists_of_bind h
    obtain ⟨rfl, rfl⟩ := List.cons.inj (Except.ok.inj h)
    rw [List.forall_mem_cons]
    exact ⟨hb, ih hbs⟩

/-! ## Two programs side by side -/

/-- Both stop for the same reason, or both end, in related values. -/
def Agree (R : σ → τ → Prop) : Except ε σ → Except ε τ → Prop
  | .ok s, .ok t => R s t
  | .error e, .error e' => e = e'
  | _, _ => False

namespace Agree

variable {σ' τ' ρ : Type} {R : σ → τ → Prop} {Q : σ' → τ' → Prop}

theorem bind {x : Except ε σ} {y : Except ε τ} {f : σ → Except ε σ'} {g : τ → Except ε τ'}
    (h : Agree R x y) (hfg : ∀ s t, R s t → Agree Q (f s) (g t)) : Agree Q (x >>= f) (y >>= g) := by
  cases x with
  | error e =>
    cases y with
    | error e' => exact h
    | ok t => exact h.elim
  | ok s =>
    cases y with
    | error e' => exact h.elim
    | ok t => exact hfg s t h

/-- A first part that both share. -/
theorem bind_self (x : Except ε ρ) {f : ρ → Except ε σ} {g : ρ → Except ε τ}
    (hfg : ∀ r, Agree R (f r) (g r)) : Agree R (x >>= f) (x >>= g) := by
  cases x with
  | error e => exact rfl
  | ok r => exact hfg r

theorem exists_ok {x : Except ε σ} {t : τ} (h : Agree R x (.ok t)) : ∃ s, x = .ok s ∧ R s t := by
  cases x with
  | error e => exact h.elim
  | ok s => exact ⟨s, rfl, h⟩

/-- **Loop rule** for a relation that costs `w` in every round, as long as the budget `B` lasts. -/
theorem foldlM {R : Nat → σ → τ → Prop} (w B : Nat) {f : σ → ι → Except ε σ} {g : τ → ι → Except ε τ}
    (h : ∀ b s t i, b + w ≤ B → R b s t → Agree (R (b + w)) (f s i) (g t i)) :
    ∀ (l : List ι) (b : Nat) (s : σ) (t : τ), b + w * l.length ≤ B → R b s t →
      Agree (R (b + w * l.length)) (l.foldlM f s) (l.foldlM g t) := by
  intro l
  induction l with
  | nil => intro b s t _ hst; exact hst
  | cons i l ih =>
    intro b s t hB hst
    have hlen : b + w * (i :: l).length = b + w + w * l.length := by
      rw [List.length_cons, Nat.mul_succ]
      omega
    rw [hlen] at hB ⊢
    rw [List.foldlM_cons, List.foldlM_cons]
    exact (h b s t i (by omega) hst).bind fun s' t' hst' => ih (b + w) s' t' hB hst'

end Agree

/-- A loop that only adds `t i` in round `i` adds the sum. -/
theorem foldl_add_sum {A : Type} [AddCommMonoid A] (t : ι → A) :
    ∀ (l : List ι) (a : A), l.foldl (fun a i => a + t i) a = a + (l.map t).sum := by
  intro l
  induction l with
  | nil => simp
  | cons i l ih => intro a; rw [List.foldl_cons, ih, List.map_cons, List.sum_cons, add_assoc]

end Checked
