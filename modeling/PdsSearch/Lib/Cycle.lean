import Mathlib.Data.List.Iterate
import Mathlib.Tactic

/-!
# Functions that run round in one cycle

`IsCycle f φ N`: `f` takes `φ 0` to `φ 1`, and so on up to `φ (N-1)`, which it
takes back to `φ 0`, and these `N` points are distinct.  Wherever one starts in
the cycle, `N - 1` steps visit every other point (`mem_iterate`), the start does
not come back before (`iterate_ne`) and comes back then (`iterate_period`).
-/

namespace Checked

variable {β : Type}

structure IsCycle (f : β → β) (φ : Nat → β) (N : Nat) : Prop where
  inj : ∀ s t, s < N → t < N → φ s = φ t → s = t
  next : ∀ t, t < N → f (φ t) = φ ((t + 1) % N)

namespace IsCycle

variable {f : β → β} {φ : Nat → β} {N : Nat} (h : IsCycle f φ N)

include h

theorem iterate_apply {t : Nat} (ht : t < N) (u : Nat) : f^[u] (φ t) = φ ((t + u) % N) := by
  induction u with
  | zero => rw [Function.iterate_zero_apply, Nat.add_zero, Nat.mod_eq_of_lt ht]
  | succ u ih =>
    rw [Function.iterate_succ_apply', ih, h.next _ (Nat.mod_lt _ (by omega)), Nat.mod_add_mod,
      Nat.add_assoc]

theorem iterate_period {t : Nat} (ht : t < N) : f^[N] (φ t) = φ t := by
  rw [h.iterate_apply ht, Nat.add_mod_right, Nat.mod_eq_of_lt ht]

theorem iterate_ne {t u : Nat} (ht : t < N) (hu : 0 < u) (huN : u < N) : f^[u] (φ t) ≠ φ t := by
  intro heq
  rw [h.iterate_apply ht] at heq
  have := h.inj _ _ (Nat.mod_lt _ (by omega)) ht heq
  by_cases hlt : t + u < N
  · rw [Nat.mod_eq_of_lt hlt] at this
    omega
  · rw [Nat.mod_eq_sub_mod (by omega), Nat.mod_eq_of_lt (by omega)] at this
    omega

/-- A whole turn visits every point. -/
theorem mem_iterate {s t : Nat} (hs : s < N) (ht : t < N) : φ s ∈ List.iterate f (φ t) N := by
  rw [List.mem_iterate]
  by_cases hle : t ≤ s
  · refine ⟨s - t, by omega, ?_⟩
    rw [h.iterate_apply ht, Nat.add_sub_cancel' hle, Nat.mod_eq_of_lt hs]
  · refine ⟨s + N - t, by omega, ?_⟩
    have : t + (s + N - t) = s + N := by omega
    rw [h.iterate_apply ht, this, Nat.add_mod_right, Nat.mod_eq_of_lt hs]

/-- A whole turn visits no point twice. -/
theorem nodup_iterate {t : Nat} (ht : t < N) : (List.iterate f (φ t) N).Nodup := by
  rw [← List.range_map_iterate]
  refine List.nodup_range.map_on fun u hu w hw heq => ?_
  have hu : u < N := List.mem_range.1 hu
  have hw : w < N := List.mem_range.1 hw
  rw [h.iterate_apply ht, h.iterate_apply ht] at heq
  have hmod := h.inj _ _ (Nat.mod_lt _ (by omega)) (Nat.mod_lt _ (by omega)) heq
  have hcongr : u ≡ w [MOD N] := Nat.ModEq.add_left_cancel' t hmod
  exact hcongr.eq_of_lt_of_lt hu hw

end IsCycle

end Checked
