import Mathlib
import PdsSearch.Lib.Checked

/-!
# Rounds in any order

Two rounds commute when the state after both, or the stop, does not depend on which comes
first.  A loop whose rounds commute may make them in any order, and two such loops, one
inside the other, may change places:

    l.Perm l' → l.foldlM f s = l'.foldlM f s                                  (foldlM_perm)
    for i in l, for j in l', f i j  =  for j in l', for i in l, f i j         (foldlM_swap)

Updates of a vector commute (`vmod_comm`).  An index may itself come from a read that stops:
all these stops are the same, `outOfRange`, so it does not matter which comes first
(`update_comm`).
-/

namespace Checked

variable {β σ ι κ ε : Type}

/-! ## Loops -/

/-- The rounds of `i` and `j` commute. -/
def RoundsCommute (f g : σ → Except ε σ) : Prop := ∀ s, (f s >>= g) = (g s >>= f)

theorem RoundsCommute.bind {f g : σ → Except ε σ} (h : RoundsCommute f g) {τ : Type} (s : σ) (k : σ → Except ε τ) :
    (f s >>= fun s => g s >>= k) = (g s >>= fun s => f s >>= k) := by
  rw [← bind_assoc, ← bind_assoc, h s]

theorem foldlM_perm {f : σ → ι → Except ε σ} (h : ∀ i j, RoundsCommute (fun s => f s i) fun s => f s j) {l l' : List ι}
    (hperm : l.Perm l') : ∀ s, l.foldlM f s = l'.foldlM f s := by
  induction hperm with
  | nil => intro s; rfl
  | cons i _ ih =>
    intro s
    rw [List.foldlM_cons, List.foldlM_cons]
    exact bind_congr ih
  | swap i j l =>
    intro s
    simp only [List.foldlM_cons]
    rw [← bind_assoc, ← bind_assoc, h j i s]
  | trans _ _ ih₁ ih₂ => intro s; rw [ih₁ s, ih₂ s]

/-- A loop inside a loop is one loop over the pairs. -/
theorem foldlM_product (f : σ → ι → κ → Except ε σ) (l : List ι) (l' : List κ) : ∀ s,
    l.foldlM (fun s i => l'.foldlM (fun s j => f s i j) s) s =
      (l ×ˢ l').foldlM (fun s (p : ι × κ) => f s p.1 p.2) s := by
  induction l with
  | nil => intro s; rfl
  | cons i l ih =>
    intro s
    rw [List.foldlM_cons, List.product_cons, List.foldlM_append, List.foldlM_map]
    exact bind_congr ih

/-- The pairs of places in either order. -/
theorem perm_product_swap {l : List ι} {l' : List κ} (hl : l.Nodup) (hl' : l'.Nodup) :
    ((l ×ˢ l').map Prod.swap).Perm (l' ×ˢ l) := by
  rw [List.perm_ext_iff_of_nodup ((hl.product hl').map Prod.swap_injective) (hl'.product hl)]
  rintro ⟨j, i⟩
  constructor
  · intro h
    obtain ⟨p, hp, heq⟩ := List.mem_map.1 h
    obtain ⟨rfl, rfl⟩ := Prod.ext_iff.1 heq
    exact List.mem_product.2 (List.mem_product.1 hp).symm
  · intro h
    exact List.mem_map.2 ⟨(i, j), List.mem_product.2 (List.mem_product.1 h).symm, rfl⟩

theorem foldlM_swap {f : σ → ι → κ → Except ε σ}
    (h : ∀ i j i' j', RoundsCommute (fun s => f s i j) fun s => f s i' j') {l : List ι} {l' : List κ} (hl : l.Nodup)
    (hl' : l'.Nodup) (s : σ) :
    l.foldlM (fun s i => l'.foldlM (fun s j => f s i j) s) s =
      l'.foldlM (fun s j => l.foldlM (fun s i => f s i j) s) s := by
  rw [foldlM_product f l l', foldlM_product (fun s j i => f s i j) l' l,
    ← foldlM_perm (fun p q => h p.2 p.1 q.2 q.1) (perm_product_swap hl hl'), List.foldlM_map]
  rfl

/-! ## Updates -/

/-- It stops only at an index out of range. -/
def RangeOnly (x : Except Stop β) : Prop := ∀ e, x = .error e → e = .outOfRange

theorem RangeOnly.bind {γ : Type} {x : Except Stop β} {f : β → Except Stop γ} (hx : RangeOnly x)
    (hf : ∀ b, RangeOnly (f b)) : RangeOnly (x >>= f) := by
  cases x with
  | error e =>
    intro e' h
    exact hx e' (congrArg Except.error (Except.error.inj h))
  | ok b => exact hf b

theorem vget_rangeOnly (v : List β) (i : Int) : RangeOnly (vget v i) := by
  intro e h
  unfold vget at h
  split at h
  · exact (Except.error.inj h).symm
  · split at h
    · cases h
    · exact (Except.error.inj h).symm

theorem vmod_eq (v : List β) (i : Int) (f : β → β) :
    vmod v i f = if 0 ≤ i ∧ i.toNat < v.length then .ok (v.modify i.toNat f) else .error .outOfRange := by
  unfold vmod vget vset
  by_cases h : 0 ≤ i ∧ i.toNat < v.length
  · rw [if_neg (by omega), List.getElem?_eq_getElem h.2, if_pos h]
    simp only [ok_bind, if_pos h]
    rw [List.modify_eq_take_cons_drop h.2, List.set_eq_take_append_cons_drop, if_pos h.2]
  · rw [if_neg h]
    by_cases h0 : i < 0
    · rw [if_pos h0]
      rfl
    · rw [if_neg h0, List.getElem?_eq_none (by omega)]
      rfl

theorem vmod_rangeOnly (v : List β) (i : Int) (f : β → β) : RangeOnly (vmod v i f) := by
  intro e h
  rw [vmod_eq] at h
  split at h
  · cases h
  · exact (Except.error.inj h).symm

theorem vmod_comm {f g : β → β} (h : ∀ b, f (g b) = g (f b)) (i j : Int) :
    RoundsCommute (fun v => vmod v i f) fun v => vmod v j g := by
  intro v
  simp only [vmod_eq]
  by_cases hi : 0 ≤ i ∧ i.toNat < v.length
  · by_cases hj : 0 ≤ j ∧ j.toNat < v.length
    · rw [if_pos hi, if_pos hj, ok_bind, ok_bind, List.length_modify, List.length_modify, if_pos hi, if_pos hj]
      by_cases hij : i.toNat = j.toNat
      · rw [hij, List.modify_modify_eq, List.modify_modify_eq, show g ∘ f = f ∘ g from funext fun b => (h b).symm]
      · rw [List.modify_modify_ne f g v hij]
    · rw [if_pos hi, if_neg hj, ok_bind, List.length_modify, if_neg hj]
      rfl
  · by_cases hj : 0 ≤ j ∧ j.toNat < v.length
    · rw [if_neg hi, if_pos hj, ok_bind, List.length_modify, if_neg hi]
      rfl
    · rw [if_neg hi, if_neg hj]
      rfl

/-- Updates at places that are read first. -/
theorem update_comm {f g : β → β} (h : ∀ b, f (g b) = g (f b)) {x y : Except Stop Int} (hx : RangeOnly x)
    (hy : RangeOnly y) : RoundsCommute (fun v => x >>= fun i => vmod v i f) fun v => y >>= fun j => vmod v j g := by
  intro v
  cases x with
  | error e =>
    obtain rfl := hx e rfl
    cases y with
    | error e' =>
      obtain rfl := hy e' rfl
      rfl
    | ok j =>
      show Except.error Stop.outOfRange = vmod v j g >>= fun _ => Except.error Stop.outOfRange
      cases hj : vmod v j g with
      | error e' =>
        obtain rfl := vmod_rangeOnly v j g e' hj
        rfl
      | ok w => rfl
  | ok i =>
    cases y with
    | error e =>
      obtain rfl := hy e rfl
      show (vmod v i f >>= fun _ => Except.error Stop.outOfRange) = Except.error Stop.outOfRange
      cases hi : vmod v i f with
      | error e' =>
        obtain rfl := vmod_rangeOnly v i f e' hi
        rfl
      | ok w => rfl
    | ok j => exact vmod_comm h i j v

end Checked
