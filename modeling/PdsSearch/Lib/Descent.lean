import Mathlib.Data.List.TakeWhile
import Mathlib.Tactic

/-!
# First-improvement local search

A `Descent` has points with a cost, moves that lead from a point to another one
(or do not apply), and for every move the order in which the moves are scanned
when the scan starts there.  In round `r` the scan starts at `start r` and the
first move that lowers the cost is taken (`firstImproving`).

    Rounds D start r x tr z

from `x` the rounds `r, r+1, …` are those of `tr`, and the search ends at `z`:
because the cost of `z` is not positive, or because a whole scan took nothing.

The search always ends when costs cannot fall forever (`exists_rounds`), with
integer costs that are not negative within as many rounds as the cost it starts
from (`Rounds.length_le`).  Scans that leave out their first move go the same way
until that move improves (`Rounds.agree`).
-/

namespace Checked

structure Descent (X M α : Type) where
  nbr : X → M → Option X
  cost : X → α
  scan : M → List M

/-- One round: the current point, the first move tried, and the move taken. -/
structure Round (X M : Type) where
  cur : X
  start : M
  found : Option (M × X)

variable {X M α : Type} [LinearOrder α]

namespace Descent

/-- The point `m` leads to, when that lowers the cost. -/
def improve (D : Descent X M α) (x : X) (m : M) : Option X :=
  (D.nbr x m).bind fun y => if D.cost y < D.cost x then some y else none

/-- The first move of `l` that lowers the cost, with the point it leads to. -/
def firstImproving (D : Descent X M α) (x : X) (l : List M) : Option (M × X) :=
  l.findSome? fun m => (D.improve x m).map fun y => (m, y)

variable (D : Descent X M α)

theorem improve_eq_some {x y : X} {m : M} :
    D.improve x m = some y ↔ D.nbr x m = some y ∧ D.cost y < D.cost x := by
  unfold improve
  rw [Option.bind_eq_some_iff]
  constructor
  · rintro ⟨y', h, hy⟩
    split at hy
    · next hlt =>
      cases hy
      exact ⟨h, hlt⟩
    · cases hy
  · rintro ⟨h, hlt⟩
    exact ⟨y, h, if_pos hlt⟩

theorem improve_eq_none {x : X} {m : M} :
    D.improve x m = none ↔ ∀ y, D.nbr x m = some y → D.cost x ≤ D.cost y := by
  constructor
  · intro h y hy
    by_contra hlt
    rw [D.improve_eq_some.2 ⟨hy, not_le.1 hlt⟩] at h
    cases h
  · intro h
    cases hy : D.improve x m with
    | none => rfl
    | some y =>
      obtain ⟨h1, h2⟩ := D.improve_eq_some.1 hy
      exact absurd (h y h1) (not_le.2 h2)

theorem firstImproving_cons_some {x y : X} {m : M} (h : D.improve x m = some y) (l : List M) :
    D.firstImproving x (m :: l) = some (m, y) := by
  unfold firstImproving
  rw [List.findSome?_cons, h]
  rfl

theorem firstImproving_cons_none {x : X} {m : M} (h : D.improve x m = none) (l : List M) :
    D.firstImproving x (m :: l) = D.firstImproving x l := by
  unfold firstImproving
  rw [List.findSome?_cons, h]
  rfl

theorem firstImproving_eq_some {x y : X} {m : M} {l : List M}
    (h : D.firstImproving x l = some (m, y)) : m ∈ l ∧ D.improve x m = some y := by
  unfold firstImproving at h
  obtain ⟨m', hm', h⟩ := List.exists_of_findSome?_eq_some h
  obtain ⟨y', hy', h⟩ := Option.map_eq_some_iff.1 h
  obtain ⟨rfl, rfl⟩ := Prod.mk.inj h
  exact ⟨hm', hy'⟩

theorem firstImproving_eq_none {x : X} {l : List M} :
    D.firstImproving x l = none ↔ ∀ m ∈ l, D.improve x m = none := by
  unfold firstImproving
  rw [List.findSome?_eq_none_iff]
  simp only [Option.map_eq_none_iff]

end Descent

inductive Rounds [Zero α] (D : Descent X M α) (start : Nat → M) :
    Nat → X → List (Round X M) → X → Prop
  | done {r x} : ¬ 0 < D.cost x → Rounds D start r x [] x
  | stuck {r x} : 0 < D.cost x → D.firstImproving x (D.scan (start r)) = none →
      Rounds D start r x [⟨x, start r, none⟩] x
  | step {r x m y tr z} : 0 < D.cost x → D.firstImproving x (D.scan (start r)) = some (m, y) →
      Rounds D start (r + 1) y tr z → Rounds D start r x (⟨x, start r, some (m, y)⟩ :: tr) z

namespace Rounds

variable [Zero α] {D : Descent X M α} {start : Nat → M} {r : Nat} {x z z' : X}
  {tr tr' : List (Round X M)}

theorem exists_start (h : Rounds D start r x tr z) : ∀ ρ ∈ tr, ∃ r', ρ.start = start r' := by
  induction h with
  | done _ =>
    intro ρ hρ
    cases hρ
  | stuck _ _ =>
    intro ρ hρ
    rw [List.mem_singleton.1 hρ]
    exact ⟨_, rfl⟩
  | step _ _ _ ih =>
    intro ρ hρ
    rcases List.mem_cons.1 hρ with rfl | hρ
    · exact ⟨_, rfl⟩
    · exact ih ρ hρ

/-- **The last point is a local minimum**, of the last scan at least. -/
theorem final (h : Rounds D start r x tr z) (hz : 0 < D.cost z) :
    ∃ r', D.firstImproving z (D.scan (start r')) = none := by
  induction h with
  | done h0 => exact absurd hz h0
  | stuck _ hn => exact ⟨_, hn⟩
  | step _ _ _ ih => exact ih hz

/-- **Scans that leave out their first move** see the same points, up to the first round
whose first move improves; when there is none, the searches are the same. -/
theorem agree {D' : Descent X M α} (hnbr : D'.nbr = D.nbr) (hcost : D'.cost = D.cost)
    (hscan : ∀ r, D.scan (start r) = start r :: D'.scan (start r))
    (h : Rounds D start r x tr z) (h' : Rounds D' start r x tr' z') :
    (∀ k, (∀ ρ ∈ tr.take k, D.improve ρ.cur ρ.start = none) →
      (tr.map fun ρ => (ρ.cur, ρ.start)).take (k + 1) =
        (tr'.map fun ρ => (ρ.cur, ρ.start)).take (k + 1)) ∧
    ((∀ ρ ∈ tr, D.improve ρ.cur ρ.start = none) → tr' = tr ∧ z' = z) := by
  have hfirst : ∀ x l, D'.firstImproving x l = D.firstImproving x l := by
    intro x l
    unfold Descent.firstImproving Descent.improve
    rw [hnbr, hcost]
  induction h generalizing tr' with
  | done h0 =>
    cases h' with
    | done => exact ⟨fun _ _ => rfl, fun _ => ⟨rfl, rfl⟩⟩
    | stuck h0' => rw [hcost] at h0'; exact absurd h0' h0
    | step h0' => rw [hcost] at h0'; exact absurd h0' h0
  | @stuck r x h0 hn =>
    have himp : D.improve x (start r) = none :=
      D.firstImproving_eq_none.1 hn _ (by rw [hscan]; exact List.mem_cons_self)
    rw [hscan, D.firstImproving_cons_none himp] at hn
    cases h' with
    | done h0' => rw [hcost] at h0'; exact absurd h0 h0'
    | stuck => exact ⟨fun _ _ => rfl, fun _ => ⟨rfl, rfl⟩⟩
    | step _ hs => rw [hfirst, hn] at hs; cases hs
  | @step r x m y tr z h0 hs _ ih =>
    by_cases himp : D.improve x (start r) = none
    · -- the first move does nothing: both take the same one
      rw [hscan, D.firstImproving_cons_none himp] at hs
      cases h' with
      | done h0' => rw [hcost] at h0'; exact absurd h0 h0'
      | stuck _ hn => rw [hfirst, hs] at hn; cases hn
      | step _ hs' h' =>
        rw [hfirst, hs] at hs'
        obtain ⟨rfl, rfl⟩ := Prod.mk.inj (Option.some.inj hs')
        obtain ⟨ih1, ih2⟩ := ih h'
        constructor
        · rintro (_ | k) hk
          · rfl
          · rw [List.map_cons, List.map_cons, List.take_succ_cons, List.take_succ_cons,
              ih1 k fun ρ hρ => hk ρ (List.mem_cons_of_mem _ hρ)]
        · intro hall
          obtain ⟨rfl, rfl⟩ := ih2 fun ρ hρ => hall ρ (List.mem_cons_of_mem _ hρ)
          exact ⟨rfl, rfl⟩
    · -- it improves: this is the last round that must agree
      have hhead : ∃ tl, (tr'.map fun ρ => (ρ.cur, ρ.start)) = (x, start r) :: tl := by
        cases h' with
        | done h0' => rw [hcost] at h0'; exact absurd h0 h0'
        | stuck => exact ⟨_, rfl⟩
        | step => exact ⟨_, rfl⟩
      obtain ⟨tl, htl⟩ := hhead
      constructor
      · rintro (_ | k) hk
        · rw [htl]
          rfl
        · exact absurd (hk _ (by rw [List.take_succ_cons]; exact List.mem_cons_self)) himp
      · intro hall
        exact absurd (hall _ List.mem_cons_self) himp

end Rounds

/-- **The search ends** when costs cannot fall forever. -/
theorem exists_rounds [Zero α] (D : Descent X M α)
    (hwf : WellFounded fun y x : X => D.cost y < D.cost x) (start : Nat → M) (r : Nat) (x : X) :
    ∃ tr z, Rounds D start r x tr z := by
  induction x using hwf.induction generalizing r with
  | _ x ih =>
    by_cases hpos : 0 < D.cost x
    · cases hs : D.firstImproving x (D.scan (start r)) with
      | none => exact ⟨_, _, .stuck hpos hs⟩
      | some p =>
        obtain ⟨m, y⟩ := p
        have hlt := (D.improve_eq_some.1 (D.firstImproving_eq_some hs).2).2
        obtain ⟨tr, z, h⟩ := ih y hlt (r + 1)
        exact ⟨_, _, .step hpos hs h⟩
    · exact ⟨_, _, .done hpos⟩

/-- Among finitely many points they cannot. -/
theorem Descent.wellFounded [Finite X] (D : Descent X M α) :
    WellFounded fun y x : X => D.cost y < D.cost x := by
  have htrans : IsTrans X fun y x => D.cost y < D.cost x := ⟨fun _ _ _ => lt_trans⟩
  have hirrefl : Std.Irrefl fun y x : X => D.cost y < D.cost x := ⟨fun _ => lt_irrefl _⟩
  exact Finite.wellFounded_of_trans_of_irrefl _

/-- A round is entered with a positive cost, and every round but the last lowers it. -/
theorem Rounds.length_le {D : Descent X M Int} {start : Nat → M} {r : Nat} {x z : X}
    {tr : List (Round X M)} (h : Rounds D start r x tr z) (hx : 0 ≤ D.cost x)
    (h0 : ∀ x, 0 ≤ D.cost x) : (tr.length : Int) ≤ D.cost x := by
  induction h with
  | done _ => exact hx
  | stuck h1 _ =>
    show (1 : Int) ≤ _
    omega
  | @step r x m y tr z h1 hs _ ih =>
    have hlt := (D.improve_eq_some.1 (D.firstImproving_eq_some hs).2).2
    have := ih (h0 y)
    rw [List.length_cons]
    push_cast
    omega

end Checked
