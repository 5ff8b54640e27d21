import Mathlib.Logic.Relation
import Mathlib.Tactic

/-!
# Nested parallel loops that print under a mutex

The iterations of the outer loop begin in any order; each makes the iterations
of its inner loop, the tasks, ready to run.  A task takes the mutex, writes its
output piece by piece while the others go on, and gives the mutex back.
`Completes outer inner body out`: some interleaving of all these steps ends with
everything done and the pieces `out` written.

    Completes outer inner body out →
      ∃ order, order.Perm (outer.flatMap inner) ∧ out = order.flatMap body  (Completes.order)

No piece of one task is ever between two pieces of another.
-/

namespace ParallelFor

variable {γ ι β : Type}

/-- The outer iterations and the tasks that wait, the task with the mutex and what it has
still to write, and what has been written. -/
structure State (γ ι β : Type) where
  outer : List γ
  ready : List ι
  holder : Option (ι × List β)
  out : List β

inductive Step (inner : γ → List ι) (body : ι → List β) : State γ ι β → State γ ι β → Prop
  | begin {g₁ x g₂ ready holder out} :
      Step inner body ⟨g₁ ++ x :: g₂, ready, holder, out⟩ ⟨g₁ ++ g₂, inner x ++ ready, holder, out⟩
  | lock {outer r₁ i r₂ out} :
      Step inner body ⟨outer, r₁ ++ i :: r₂, none, out⟩ ⟨outer, r₁ ++ r₂, some (i, body i), out⟩
  | write {outer ready i b bs out} :
      Step inner body ⟨outer, ready, some (i, b :: bs), out⟩ ⟨outer, ready, some (i, bs), out ++ [b]⟩
  | unlock {outer ready i out} :
      Step inner body ⟨outer, ready, some (i, []), out⟩ ⟨outer, ready, none, out⟩

variable {inner : γ → List ι} {body : ι → List β}

/-- Every step of the loops, from the start to the end. -/
def Completes (outer : List γ) (inner : γ → List ι) (body : ι → List β) (out : List β) : Prop :=
  Relation.ReflTransGen (Step inner body) ⟨outer, [], none, []⟩ ⟨[], [], none, out⟩

/-- The tasks done, in the order they took the mutex, have been written whole; with those that
hold the mutex, wait or are not yet there they are `all`. -/
def Inv (inner : γ → List ι) (body : ι → List β) (all : List ι) (s : State γ ι β) : Prop :=
  ∃ order : List ι,
    match s.holder with
    | none => s.out = order.flatMap body ∧ (order ++ (s.ready ++ s.outer.flatMap inner)).Perm all
    | some (i, bs) => (∃ written, body i = written ++ bs ∧ s.out = order.flatMap body ++ written) ∧
        (order ++ i :: (s.ready ++ s.outer.flatMap inner)).Perm all

/-- Beginning an outer iteration only moves its tasks. -/
theorem begin_perm (g₁ g₂ : List γ) (x : γ) (ready : List ι) :
    ((inner x ++ ready) ++ (g₁ ++ g₂).flatMap inner).Perm (ready ++ (g₁ ++ x :: g₂).flatMap inner) := by
  simp only [List.flatMap_append, List.flatMap_cons]
  have h1 : (inner x ++ ready ++ (g₁.flatMap inner ++ g₂.flatMap inner)).Perm
      (ready ++ inner x ++ (g₁.flatMap inner ++ g₂.flatMap inner)) :=
    List.perm_append_comm.append_right _
  apply h1.trans
  rw [List.append_assoc]
  apply List.Perm.append_left ready
  rw [← List.append_assoc, ← List.append_assoc]
  exact List.perm_append_comm.append_right _

/-- **Step lemma.** -/
theorem Step.inv {all : List ι} {s s' : State γ ι β} (h : Step inner body s s')
    (hs : Inv inner body all s) : Inv inner body all s' := by
  obtain ⟨order, hs⟩ := hs
  cases h with
  | @begin g₁ x g₂ ready holder out =>
    cases holder with
    | none =>
      obtain ⟨hout, hperm⟩ := hs
      exact ⟨order, hout, ((begin_perm g₁ g₂ x ready).append_left order).trans hperm⟩
    | some p =>
      obtain ⟨i, bs⟩ := p
      obtain ⟨hout, hperm⟩ := hs
      exact ⟨order, hout, (((begin_perm g₁ g₂ x ready).cons i).append_left order).trans hperm⟩
  | @lock outer r₁ i r₂ out =>
    obtain ⟨hout, hperm⟩ := hs
    refine ⟨order, ⟨[], rfl, by rw [List.append_nil]; exact hout⟩, ?_⟩
    refine (List.Perm.append_left order ?_).trans hperm
    rw [List.append_assoc, List.append_assoc]
    exact List.perm_middle.symm
  | @write outer ready i b bs out =>
    obtain ⟨⟨written, hbody, hout⟩, hperm⟩ := hs
    refine ⟨order, ⟨written ++ [b], ?_, ?_⟩, hperm⟩
    · rw [hbody, List.append_assoc]
      rfl
    · show out ++ [b] = _
      change out = _ at hout
      rw [hout, List.append_assoc]
  | @unlock outer ready i out =>
    obtain ⟨⟨written, hbody, hout⟩, hperm⟩ := hs
    refine ⟨order ++ [i], ?_, ?_⟩
    · show out = _
      change out = _ at hout
      rw [hout, List.flatMap_append, List.flatMap_singleton, hbody, List.append_nil]
    · rw [List.append_assoc]
      exact hperm

/-- **Whole tasks, each once.**  Whatever the interleaving, what was written is the output of
all tasks, one after the other in some order. -/
theorem Completes.order {outer : List γ} {out : List β} (h : Completes outer inner body out) :
    ∃ order : List ι, order.Perm (outer.flatMap inner) ∧ out = order.flatMap body := by
  have hstart : Inv inner body (outer.flatMap inner) ⟨outer, [], none, []⟩ :=
    ⟨[], rfl, List.Perm.refl _⟩
  have hend : Inv inner body (outer.flatMap inner) ⟨[], [], none, out⟩ := by
    unfold Completes at h
    generalize (⟨[], [], none, out⟩ : State γ ι β) = s' at h
    induction h with
    | refl => exact hstart
    | tail _ hstep ih => exact hstep.inv ih
  obtain ⟨order, hout, hperm⟩ := hend
  refine ⟨order, ?_, hout⟩
  simpa using hperm

/-! ## A schedule -/

/-- The mutex is never lost: with all outer iterations begun the tasks can run one by one. -/
theorem run_ready (ready : List ι) : ∀ out : List β, Relation.ReflTransGen (Step inner body)
    ⟨[], ready, none, out⟩ ⟨[], [], none, out ++ ready.flatMap body⟩ := by
  have hwrite : ∀ (i : ι) (rest : List ι) (bs out : List β), Relation.ReflTransGen (Step inner body)
      ⟨[], rest, some (i, bs), out⟩ ⟨[], rest, some (i, []), out ++ bs⟩ := by
    intro i rest bs
    induction bs with
    | nil => intro out; rw [List.append_nil]
    | cons b bs ih =>
      intro out
      have := (Relation.ReflTransGen.single Step.write).trans (ih (out ++ [b]))
      rwa [List.append_assoc] at this
  induction ready with
  | nil => intro out; rw [List.flatMap_nil, List.append_nil]
  | cons i ready ih =>
    intro out
    have hlock : Step inner body ⟨[], [] ++ i :: ready, none, out⟩
        ⟨[], [] ++ ready, some (i, body i), out⟩ := .lock
    have := ih (out ++ body i)
    rw [List.append_assoc] at this
    exact ((Relation.ReflTransGen.single hlock).trans ((hwrite i ready (body i) out).tail .unlock)).trans
      this

/-- The loops can always complete. -/
theorem exists_completes (outer : List γ) (inner : γ → List ι) (body : ι → List β) :
    ∃ out, Completes outer inner body out := by
  have hbegin : ∀ (outer : List γ) (ready : List ι), ∃ ready', Relation.ReflTransGen (Step inner body)
      ⟨outer, ready, none, []⟩ ⟨[], ready', none, []⟩ := by
    intro outer
    induction outer with
    | nil => intro ready; exact ⟨ready, .refl⟩
    | cons x outer ih =>
      intro ready
      obtain ⟨ready', h⟩ := ih (inner x ++ ready)
      have hstep : Step inner body ⟨[] ++ x :: outer, ready, none, []⟩
          ⟨[] ++ outer, inner x ++ ready, none, []⟩ := .begin
      exact ⟨ready', (Relation.ReflTransGen.single hstep).trans h⟩
  obtain ⟨ready, h⟩ := hbegin outer []
  exact ⟨_, h.trans (run_ready ready [])⟩

end ParallelFor
