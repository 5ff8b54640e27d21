import PdsSearch.SearchTools

/-!
# One generator, many searches

`search` reads its generator from a position on.  What it does there is what it does
from the start of a generator whose values are those from that position; only the
position it returns is counted on:

    localSearch v fuel o d ct rs (p + pos) e =
      Prod.map (Outcome.later p) id <$> localSearch v fuel o d ct (later p rs) pos e   (localSearch_later)

so trials one after the other with one generator are trials each with a generator of
its own, as the parallel programs make them.
-/

namespace PdsSearch

open Checked

/-- The values from position `p` on. -/
def later (p : Nat) (rs : Nat → Nat) : Nat → Nat := fun j => rs (p + j)

section
variable (d : Dims) (ct : List (List Int)) (rs : Nat → Nat) (p : Nat)

/-! ## Start set -/

theorem drawMember_later (isMember : List Bool) (fuel : Nat) : ∀ newMember pos,
    drawMember d rs isMember fuel newMember (p + pos) =
      Prod.map id (p + ·) <$> drawMember d (later p rs) isMember fuel newMember pos := by
  induction fuel with
  | zero => intro newMember pos; rfl
  | succ fuel ih =>
    intro newMember pos
    simp only [drawMember, map_bind]
    refine bind_congr fun b => ?_
    split
    · rw [map_bind]
      exact bind_congr fun r => ih _ (pos + 1)
    · rfl

theorem selectStep_later (fuel : Nat) (s : Int × List Int × List Bool × Nat) (i : Nat) :
    selectStep fuel d rs (s.1, s.2.1, s.2.2.1, p + s.2.2.2) i =
      (fun s => (s.1, s.2.1, s.2.2.1, p + s.2.2.2)) <$> selectStep fuel d (later p rs) s i := by
  unfold selectStep
  simp only [drawMember_later, bind_map_left, map_bind]
  rfl

theorem selectStartSet_later (fuel pos : Nat) (mySet : List Int) (isMember : List Bool) :
    selectStartSet fuel d rs (p + pos) mySet isMember =
      (fun r => (r.1, r.2.1, p + r.2.2)) <$> selectStartSet fuel d (later p rs) pos mySet isMember := by
  unfold selectStartSet
  have h := foldlM_image (fun s : Int × List Int × List Bool × Nat => (s.1, s.2.1, s.2.2.1, p + s.2.2.2))
    (selectStep_later d rs p fuel) (List.range d.k) (0, mySet, isMember, pos)
  simp only at h
  rw [h, bind_map_left, map_bind]
  rfl

/-! ## The search -/

variable {α : Type}

def St.later (s : St α) : St α := { s with pos := p + s.pos }

def Cfg.later : Cfg α → Cfg α
  | .outer s => .outer (s.later p)
  | .inner s initialMutation mutation firstTime => .inner (s.later p) initialMutation mutation firstTime

def Outcome.later (out : Outcome α) : Outcome α := { out with pos := p + out.pos }

theorem drawMutation_later (o : ArgOrder) (pos : Nat) :
    drawMutation o d rs (p + pos) = Prod.map id (p + ·) <$> drawMutation o d (later p rs) pos := by
  unfold drawMutation
  cases o <;> simp only [map_bind] <;> rfl

variable [Add α] [Sub α] [LT α] [DecidableLT α] [IntCast α]

/-- An iteration of the inner loop draws nothing. -/
theorem tryMutation_later (e : ErrorCalc α) (s : St α) (mutation : Int × Int) :
    tryMutation d ct e (s.later p) mutation =
      Prod.map (St.later p) id <$> tryMutation d ct e s mutation := by
  unfold tryMutation St.later
  simp only [map_bind]
  refine bind_congr fun b => ?_
  split
  · simp only [map_bind]
    refine bind_congr fun sums => bind_congr fun x => bind_congr fun m => bind_congr fun m' =>
      bind_congr fun err => ?_
    split
    · simp only [map_bind]
      rfl
    · simp only [map_bind]
      rfl
  · rfl

/-- **Step lemma.** -/
theorem searchStep_later (v : Variant) (o : ArgOrder) (e : ErrorCalc α) (c : Cfg α) :
    searchStep v o d ct rs e (c.later p) =
      Next.map (Cfg.later p) id (Outcome.later p) <$> searchStep v o d ct (later p rs) e c := by
  cases c with
  | outer s =>
    simp only [Cfg.later, searchStep]
    by_cases h : ((0 : Int) : α) < s.curError ∧ s.changedVal
    · have h' : ((0 : Int) : α) < (s.later p).curError ∧ (s.later p).changedVal := h
      rw [if_pos h, if_pos h', map_bind]
      have hdraw := drawMutation_later d rs p o s.pos
      change drawMutation o d rs (s.later p).pos = _ at hdraw
      rw [hdraw, bind_map_left]
      rfl
    · have h' : ¬ (((0 : Int) : α) < (s.later p).curError ∧ (s.later p).changedVal) := h
      rw [if_neg h, if_neg h']
      rfl
  | inner s initialMutation mutation firstTime =>
    simp only [Cfg.later, searchStep]
    split
    · rw [tryMutation_later, bind_map_left, map_bind]
      refine bind_congr fun r => ?_
      obtain ⟨s', verdict⟩ := r
      cases verdict <;> rfl
    · rfl

/-- **The whole search.** -/
theorem localSearch_later (v : Variant) (fuel : Nat) (o : ArgOrder) (pos : Nat) (e : ErrorCalc α) :
    localSearch v fuel o d ct rs (p + pos) e =
      Prod.map (Outcome.later p) id <$> localSearch v fuel o d ct (later p rs) pos e := by
  have hinit : initSearch fuel d ct rs (p + pos) e = St.later p <$> initSearch fuel d ct (later p rs) pos e := by
    unfold initSearch
    simp only [selectStartSet_later, bind_map_left, map_bind]
    rfl
  have hexec : ∀ s : St α, (searchMachine v o d ct rs e).exec fuel (.outer (s.later p)) =
      Prod.map (Outcome.later p) id <$> (searchMachine v o d ct (later p rs) e).exec fuel (.outer s) := by
    intro s
    have h := Machine.exec_map (M := searchMachine v o d ct (later p rs) e) (N := searchMachine v o d ct rs e)
      (fun _ => True) (fun _ _ _ _ _ => trivial) (fun c _ => searchStep_later d ct rs p v o e c) fuel (.outer s)
      trivial
    rw [List.map_id_fun] at h
    exact h
  unfold localSearch
  rw [hinit, bind_map_left, map_bind]
  exact bind_congr hexec

theorem search_later (fuel : Nat) (o : ArgOrder) (pos : Nat) (e : ErrorCalc α) :
    search fuel o d ct rs (p + pos) e =
      Outcome.later p <$> search fuel o d ct (later p rs) pos e := by
  unfold search
  rw [localSearch_later]
  cases localSearch .new fuel o d ct (later p rs) pos e <;> rfl

end

end PdsSearch
