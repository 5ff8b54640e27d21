import PdsSearch.SelectStart

/-!
# The start set

Whatever the random values are, when `select_start_set` comes back it has
filled `my_set` with `k` distinct values in `1 .. n-1` and marked them in
`is_member` (`selectStartSet_ok`).  So the state before the loops describes a
candidate (`initSearch_ok`), and `initSearch` comes back whenever
`select_start_set` does (`initSearch_eq`).
-/

namespace PdsSearch

open Checked GroupRing

variable {d : Dims} (T : Table d.n) (rs : Nat → Nat)

theorem drawMember_mono (isMember : List Bool) (fuel : Nat) : ∀ (v : Int) (pos : Nat) b,
    drawMember d rs isMember fuel v pos = .ok b → ∀ fuel', fuel ≤ fuel' →
    drawMember d rs isMember fuel' v pos = .ok b := by
  induction fuel with
  | zero => intro v pos b h; cases h
  | succ fuel ih =>
    intro v pos b h fuel' hle
    obtain ⟨m, rfl⟩ : ∃ m, fuel' = m + 1 := ⟨fuel' - 1, by omega⟩
    unfold drawMember at h ⊢
    obtain ⟨marked, hv, h⟩ := exists_of_bind h
    rw [hv, ok_bind]
    split at h
    · obtain ⟨r, hr, h⟩ := exists_of_bind h
      rw [if_pos (by assumption), hr, ok_bind]
      exact ih _ _ b h m (by omega)
    · rw [if_neg (by assumption)]
      exact h

theorem selectStartSet_mono (pos : Nat) (mySet : List Int) (isMember : List Bool) :
    FuelMono fun fuel => selectStartSet fuel d rs pos mySet isMember := by
  unfold selectStartSet
  refine FuelMono.bind (FuelMono.foldlM (fun s i => ?_) _ _) fun _ => .const _
  obtain ⟨v, mySet, isMember, pos⟩ := s
  unfold selectStep
  refine FuelMono.bind (fun fuel b h fuel' hle => ?_) fun _ => .const _
  exact drawMember_mono rs isMember fuel v pos b h fuel' hle

/-- Over an order-1 table the first draw divides by zero. -/
theorem selectStep_one (hn : d.n = 1) (fuel i pos : Nat) (mySet : List Int) (st) :
    selectStep fuel d rs ((0 : Int), mySet, List.replicate d.n false, pos) i ≠ .ok st := by
  intro h
  unfold selectStep at h
  cases fuel with
  | zero => cases h
  | succ fuel =>
    simp only [hn, drawMember] at h
    cases h

/-- **The start set is a candidate.** -/
theorem selectStartSet_ok (hn : 0 < d.n) (fuel pos : Nat) (mySet : List Int) (isMember : List Bool)
    (pos' : Nat) (h : selectStartSet fuel d rs pos (List.replicate d.k (-1))
      (List.replicate d.n false) = .ok (mySet, isMember, pos')) :
    ∃ c : Candidate T, mySet = T.ints c.xs ∧ isMember = T.tab c.member := by
  obtain ⟨hlen, hnd, hbd, hind⟩ : mySet.length = d.k ∧ mySet.Nodup ∧ (∀ x ∈ mySet, 1 ≤ x ∧ x < d.n) ∧
      Indicates d.n mySet isMember := by
    by_cases hn2 : 2 ≤ d.n
    · rcases selectStartSet_result rs pos hn2 (List.length_replicate ..) fuel with h' | ⟨m, hm, h'⟩
      · rw [h'] at h
        cases h
      · rw [h'] at h
        obtain ⟨rfl, rfl, rfl⟩ := by simpa using h
        refine ⟨by rw [List.length_map, hm.length_eq], ?_, ?_, indicates_bitmap _⟩
        · exact (nodup_firstValues _ m).map fun x y hxy => by simpa using hxy
        · intro x hx
          obtain ⟨y, hy, rfl⟩ := List.mem_map.1 hx
          obtain ⟨j, -, rfl⟩ := (mem_firstValues _).1 hy
          have := draw_bounds rs pos hn2 j
          omega
    · have hn1 : d.n = 1 := by omega
      unfold selectStartSet at h
      cases hk : d.k with
      | zero =>
        rw [hk] at h
        obtain ⟨rfl, rfl, rfl⟩ := by simpa using h
        exact ⟨rfl, List.nodup_nil, by simp, bitmap_nil d.n ▸ indicates_bitmap []⟩
      | succ j =>
        rw [hk, List.range_succ_eq_map, List.foldlM_cons] at h
        obtain ⟨_, h, -⟩ := exists_of_bind h
        obtain ⟨st, hs, -⟩ := exists_of_bind h
        exact absurd hs (selectStep_one rs hn1 fuel 0 pos _ st)
  obtain ⟨c, rfl⟩ := Candidate.exists_of_list T mySet hlen hnd hbd
  exact ⟨c, rfl, (indicates_ints_iff c.xs isMember).1 hind⟩

section
variable {α : Type} [CommRing α] {T} {e : ErrorCalc α}
  {norm : (T.Elem → α) → α}

/-- The state before the loops, from the start set. -/
theorem initSearch_eq (hM : Measures T e norm) (c : Candidate T) (fuel pos pos' : Nat)
    (h : selectStartSet fuel d rs pos (List.replicate d.k (-1)) (List.replicate d.n false) =
      .ok (T.ints c.xs, T.tab c.member, pos')) :
    initSearch fuel d T.ct rs pos e =
      .ok { mySet := T.ints c.xs, isMember := T.tab c.member, sums := T.hist (c.square α),
            curError := c.err norm, realSteps := 0, changedVal := true,
            newError := ((0 : Int) : α), pos := pos' } := by
  unfold initSearch calculateStartingError
  simp only [h, ok_bind, tally_candidate, efs_candidate hM, pure_eq_ok]
  rfl

/-- **The state before the loops describes a candidate.** -/
theorem initSearch_ok (hM : Measures T e norm) (hn : 0 < d.n) (fuel pos : Nat) (s : St α)
    (h : initSearch fuel d T.ct rs pos e = .ok s) :
    ∃ c : Candidate T, Holds norm c s ∧ s.changedVal = true ∧
      selectStartSet fuel d rs pos (List.replicate d.k (-1)) (List.replicate d.n false) =
        .ok (s.mySet, s.isMember, s.pos) := by
  obtain ⟨⟨mySet, isMember, pos'⟩, hs, -⟩ := exists_of_bind h
  obtain ⟨c, rfl, rfl⟩ := selectStartSet_ok T rs hn fuel pos _ _ _ hs
  rw [initSearch_eq rs hM c fuel pos pos' hs] at h
  rw [← Except.ok.inj h]
  exact ⟨c, ⟨rfl, rfl, rfl, rfl⟩, rfl, hs⟩

theorem initSearch_mono (pos : Nat) : FuelMono fun fuel => initSearch fuel d T.ct rs pos e := by
  unfold initSearch
  exact (selectStartSet_mono rs pos _ _).bind fun _ => .const _

end

end PdsSearch
