import PdsSearch.Candidate
import PdsSearch.Lib.FirstOccurrence

/-!
# Which start set is selected

The random values from position `pos` on, read as values in `1 .. n-1`, are the
stream `draw d rs pos`.  `select_start_set` reads it up to its `k`-th new value
and keeps the distinct values it met:

    KthNew (draw d rs pos) k m, m < fuel →
      selectStartSet fuel d rs pos mySet [false, …] =
        .ok (firstValues (draw d rs pos) m, its bitmap, pos + m)    (selectLoop_returns)

With less fuel, or with no `k`-th new value and any fuel, it is still drawing
(`selectLoop_result`).
-/

namespace PdsSearch

open Checked

/-! ## Definitions -/

/-- `rand_gen() % (n-1) + 1`, for draw number `j` after position `pos` -/
def draw (d : Dims) (rs : Nat → Nat) (pos j : Nat) : Nat := rs (pos + j) % (d.n - 1) + 1

/-- The bitmap of `xs`. -/
def bitmap (n : Nat) (xs : List Nat) : List Bool := List.ofFn fun x : Fin n => decide (x.val ∈ xs)

/-- The variables of `select_start_set` when the elements `xs` are chosen; `x` is `new_member`. -/
def selected (d : Dims) (mySet : List Int) (xs : List Nat) (x pos : Nat) :
    Int × List Int × List Bool × Nat :=
  ((x : Int), xs.map (fun y : Nat => (y : Int)) ++ mySet.drop xs.length, bitmap d.n xs, pos)

/-! ## The bitmap -/

theorem bitmap_nil (n : Nat) : List.replicate n false = bitmap n [] := by
  unfold bitmap
  rw [replicate_eq_ofFn]
  simp

section
variable {n : Nat} (xs : List Nat)

theorem vget_bitmap {x : Nat} (hx : x < n) :
    vget (bitmap n xs) (x : Int) = .ok (decide (x ∈ xs)) :=
  vget_ofFn (fun x : Fin n => decide (x.val ∈ xs)) ⟨x, hx⟩

theorem vset_bitmap {x : Nat} (hx : x < n) :
    vset (bitmap n xs) (x : Int) true = .ok (bitmap n (xs ++ [x])) := by
  have h := vset_ofFn (fun x : Fin n => decide (x.val ∈ xs)) ⟨x, hx⟩ true
  unfold bitmap
  rw [h]
  congr 2
  ext y
  rw [Function.update_apply]
  by_cases hy : y.val = x <;> simp [hy, Fin.ext_iff]

theorem indicates_bitmap : Indicates n (xs.map fun y : Nat => (y : Int)) (bitmap n xs) := by
  refine ⟨List.length_ofFn, fun x hx => ?_⟩
  rw [vget_bitmap xs hx]
  simp

end

variable {d : Dims} (rs : Nat → Nat) (pos : Nat)

theorem draw_bounds (hn : 2 ≤ d.n) (j : Nat) : 1 ≤ draw d rs pos j ∧ draw d rs pos j < d.n := by
  have : rs (pos + j) % (d.n - 1) < d.n - 1 := Nat.mod_lt _ (by omega)
  unfold draw
  omega

/-! ## The rejection loop -/

section
variable {rs pos} {xs : List Nat}

/-- One test: a value that is marked or zero is drawn anew. -/
theorem drawMember_succ (hn : 2 ≤ d.n) {x m : Nat} (hx : x < d.n) (fuel : Nat) :
    drawMember d rs (bitmap d.n xs) (fuel + 1) (x : Int) (pos + m) =
      if x ∈ xs ∨ x = 0 then
        drawMember d rs (bitmap d.n xs) fuel (draw d rs pos m : Nat) (pos + (m + 1))
      else .ok ((x : Int), pos + m) := by
  rw [drawMember, vget_bitmap xs hx, ok_bind, rem_pos _ _ (by omega), ok_bind]
  by_cases h : x ∈ xs ∨ x = 0
  · rw [if_pos h, if_pos (by simpa using h)]
    rfl
  · rw [if_neg h, if_neg (by simpa using h)]
    rfl

/-- The loop draws up to the first value that is not marked. -/
theorem drawMember_found (hn : 2 ≤ d.n) (t : Nat) : ∀ {x m fuel : Nat}, x < d.n → x ∈ xs ∨ x = 0 →
    (∀ s < t, draw d rs pos (m + s) ∈ xs) → draw d rs pos (m + t) ∉ xs → t + 1 < fuel →
    drawMember d rs (bitmap d.n xs) fuel (x : Int) (pos + m) =
      .ok ((draw d rs pos (m + t) : Int), pos + (m + t + 1)) := by
  induction t with
  | zero =>
    intro x m fuel hx hrej _ hnew hfuel
    obtain ⟨f, rfl⟩ : ∃ f, fuel = f + 2 := ⟨fuel - 2, by omega⟩
    have hb := draw_bounds rs pos hn m
    rw [Nat.add_zero] at hnew ⊢
    have hacc : ¬ (draw d rs pos m ∈ xs ∨ draw d rs pos m = 0) := by
      rintro (h | h)
      · exact hnew h
      · omega
    rw [drawMember_succ hn hx, if_pos hrej, drawMember_succ hn hb.2, if_neg hacc]
    rfl
  | succ t ih =>
    intro x m fuel hx hrej hold hnew hfuel
    obtain ⟨f, rfl⟩ : ∃ f, fuel = f + 1 := ⟨fuel - 1, by omega⟩
    rw [drawMember_succ hn hx, if_pos hrej]
    have h := @ih (draw d rs pos m) (m + 1) f (draw_bounds rs pos hn m).2 (.inl (hold 0 (by omega)))
      (fun s hs => by
        have := hold (s + 1) (by omega)
        rwa [show m + (s + 1) = m + 1 + s by omega] at this)
      (by rwa [show m + (t + 1) = m + 1 + t by omega] at hnew) (by omega)
    rw [h, show m + 1 + t = m + (t + 1) by omega]

/-- While every value is marked it keeps drawing. -/
theorem drawMember_timeout (hn : 2 ≤ d.n) (fuel : Nat) : ∀ {x m : Nat}, x < d.n → x ∈ xs ∨ x = 0 →
    (∀ s, s + 1 < fuel → draw d rs pos (m + s) ∈ xs) →
    drawMember d rs (bitmap d.n xs) fuel (x : Int) (pos + m) = .error .timeout := by
  induction fuel with
  | zero =>
    intro x m _ _ _
    rfl
  | succ fuel ih =>
    intro x m hx hrej hold
    rw [drawMember_succ hn hx, if_pos hrej]
    cases fuel with
    | zero => rfl
    | succ fuel =>
      refine ih (draw_bounds rs pos hn m).2 (.inl (hold 0 (by omega))) fun s hs => ?_
      have := hold (s + 1) (by omega)
      rwa [show m + (s + 1) = m + 1 + s by omega] at this

/-! ## One element -/

/-- Filling the next free place. -/
theorem set_fill (S mySet : List Int) (h : S.length < mySet.length) (v : Int) :
    (S ++ mySet.drop S.length).set S.length v = (S ++ [v]) ++ mySet.drop (S.length + 1) := by
  rw [List.set_append_right _ _ le_rfl, Nat.sub_self, List.drop_eq_getElem_cons h,
    List.set_cons_zero, List.append_assoc]
  rfl

variable {mySet : List Int}

theorem selectStep_found (hn : 2 ≤ d.n) (hlt : xs.length < mySet.length) {x m t fuel : Nat}
    (hx : x < d.n) (hrej : x ∈ xs ∨ x = 0) (hold : ∀ s < t, draw d rs pos (m + s) ∈ xs)
    (hnew : draw d rs pos (m + t) ∉ xs) (hfuel : t + 1 < fuel) :
    selectStep fuel d rs (selected d mySet xs x (pos + m)) xs.length =
      .ok (selected d mySet (xs ++ [draw d rs pos (m + t)]) (draw d rs pos (m + t))
        (pos + (m + t + 1))) := by
  have hlen : (xs.map fun y : Nat => (y : Int)).length = xs.length := List.length_map _
  have hset := set_fill (xs.map fun y : Nat => (y : Int)) mySet (by omega) (draw d rs pos (m + t))
  rw [hlen] at hset
  have hlen' : xs.length < (xs.map (fun y : Nat => (y : Int)) ++ mySet.drop xs.length).length := by
    rw [List.length_append, List.length_drop]
    omega
  unfold selectStep selected
  simp only [drawMember_found hn t hx hrej hold hnew hfuel, ok_bind, vset_nat _ _ _ hlen', hset]
  -- the place just filled is read back
  have hget : vget ((xs.map fun y : Nat => (y : Int)) ++ [(draw d rs pos (m + t) : Int)] ++
      mySet.drop (xs.length + 1)) (xs.length : Int) = .ok (draw d rs pos (m + t) : Int) := by
    rw [vget_nat _ _ (by simp), List.getElem_append_left (by simp),
      List.getElem_append_right (by simp)]
    simp
  simp only [hget, ok_bind, vset_bitmap xs (draw_bounds rs pos hn (m + t)).2, pure_eq_ok]
  rw [List.map_append, List.length_append]
  rfl

theorem selectStep_timeout (hn : 2 ≤ d.n) {x m fuel i : Nat} (hx : x < d.n) (hrej : x ∈ xs ∨ x = 0)
    (hold : ∀ s, s + 1 < fuel → draw d rs pos (m + s) ∈ xs) :
    selectStep fuel d rs (selected d mySet xs x (pos + m)) i = .error .timeout := by
  unfold selectStep selected
  simp only [drawMember_timeout hn fuel hx hrej hold]
  rfl

end

/-! ## The loop over the elements -/

section
variable {rs pos} {mySet : List Int}

/-- The variables after draw number `m`, if it brought the last element so far. -/
def SelectedAt (d : Dims) (rs : Nat → Nat) (pos : Nat) (mySet : List Int) (m : Nat)
    (st : Int × List Int × List Bool × Nat) : Prop :=
  ∃ x, x < d.n ∧ (x ∈ firstValues (draw d rs pos) m ∨ x = 0) ∧
    st = selected d mySet (firstValues (draw d rs pos) m) x (pos + m)

theorem selectStep_next (hn : 2 ≤ d.n) {j m t fuel : Nat} (hj : j < mySet.length)
    (hm : KthNew (draw d rs pos) j m) {st} (hst : SelectedAt d rs pos mySet m st)
    (hold : ∀ s < t, draw d rs pos (m + s) ∈ firstValues (draw d rs pos) m)
    (hnew : draw d rs pos (m + t) ∉ firstValues (draw d rs pos) m) (hfuel : t + 1 < fuel) :
    ∃ st', selectStep fuel d rs st j = .ok st' ∧ KthNew (draw d rs pos) (j + 1) (m + t + 1) ∧
      SelectedAt d rs pos mySet (m + t + 1) st' := by
  obtain ⟨x, hx, hrej, rfl⟩ := hst
  obtain ⟨happ, hm'⟩ := hm.next hold hnew
  have hstep := selectStep_found hn (by rw [hm.length_eq]; exact hj) hx hrej hold hnew hfuel
  rw [hm.length_eq, ← happ] at hstep
  refine ⟨_, hstep, hm', _, (draw_bounds rs pos hn (m + t)).2, .inl ?_, rfl⟩
  rw [happ]
  exact List.mem_append_right _ (List.mem_singleton_self _)

theorem selectedAt_zero (hn : 2 ≤ d.n) :
    SelectedAt d rs pos mySet 0 ((0 : Int), mySet, List.replicate d.n false, pos) := by
  refine ⟨0, by omega, .inr rfl, ?_⟩
  rw [bitmap_nil]
  rfl

variable (rs pos) in
/-- **What the loop comes to**: up to the `j`-th new value, or it is still drawing. -/
theorem selectLoop_result (hn : 2 ≤ d.n) (fuel j : Nat) (hj : j ≤ mySet.length) :
    (List.range j).foldlM (selectStep fuel d rs)
      ((0 : Int), mySet, List.replicate d.n false, pos) = .error .timeout ∨
    ∃ m st, (List.range j).foldlM (selectStep fuel d rs)
      ((0 : Int), mySet, List.replicate d.n false, pos) = .ok st ∧
      KthNew (draw d rs pos) j m ∧ SelectedAt d rs pos mySet m st := by
  induction j with
  | zero => exact .inr ⟨0, _, rfl, .zero, selectedAt_zero hn⟩
  | succ j ih =>
    rw [foldlM_range_succ]
    rcases ih (by omega) with h | ⟨m, st, h, hm, hst⟩
    · rw [h]
      exact .inl rfl
    · rw [h, ok_bind]
      by_cases hex : ∃ t, t + 1 < fuel ∧ draw d rs pos (m + t) ∉ firstValues (draw d rs pos) m
      · -- the first of them is the next element
        have hfind := Nat.find_spec hex
        have hold : ∀ s < Nat.find hex, draw d rs pos (m + s) ∈ firstValues (draw d rs pos) m := by
          intro s hs
          have := Nat.find_min hex hs
          simp only [not_and, not_not] at this
          exact this (by omega)
        obtain ⟨st', hstep, hm', hst'⟩ := selectStep_next hn (by omega) hm hst hold hfind.2 hfind.1
        exact .inr ⟨_, st', hstep, hm', hst'⟩
      · simp only [not_exists, not_and, not_not] at hex
        obtain ⟨x, hx, hrej, rfl⟩ := hst
        exact .inl (selectStep_timeout hn hx hrej hex)

/-- **With a `k`-th new value it comes back**, once the fuel covers the draws. -/
theorem selectLoop_returns (hn : 2 ≤ d.n) {k m fuel : Nat} (hk : k ≤ mySet.length)
    (hm : KthNew (draw d rs pos) k m) (hfuel : m < fuel) (j : Nat) (hj : j ≤ k) :
    ∃ st m', (List.range j).foldlM (selectStep fuel d rs)
      ((0 : Int), mySet, List.replicate d.n false, pos) = .ok st ∧ KthNew (draw d rs pos) j m' ∧
      SelectedAt d rs pos mySet m' st := by
  induction j with
  | zero => exact ⟨_, 0, rfl, .zero, selectedAt_zero hn⟩
  | succ j ih =>
    obtain ⟨st, m', hst, hm', hat⟩ := ih (by omega)
    obtain ⟨t, ht, hold, hnew⟩ := hm'.exists_next hm (by omega)
    have ht1 : t + 1 < fuel := by omega
    obtain ⟨st', hstep, hm'', hat'⟩ := selectStep_next hn (by omega) hm' hat hold hnew ht1
    refine ⟨st', _, ?_, hm'', hat'⟩
    rw [foldlM_range_succ, hst, ok_bind, hstep]

end

/-! ## The function -/

section
variable {mySet : List Int}

/-- A run that comes back has read up to the `k`-th new value. -/
theorem selectStartSet_result (hn : 2 ≤ d.n) (hlen : mySet.length = d.k) (fuel : Nat) :
    selectStartSet fuel d rs pos mySet (List.replicate d.n false) = .error .timeout ∨
    ∃ m, KthNew (draw d rs pos) d.k m ∧
      selectStartSet fuel d rs pos mySet (List.replicate d.n false) =
        .ok ((firstValues (draw d rs pos) m).map (fun y : Nat => (y : Int)),
          bitmap d.n (firstValues (draw d rs pos) m), pos + m) := by
  unfold selectStartSet
  rcases selectLoop_result rs pos hn fuel d.k hlen.ge with
    h | ⟨m, _, h, hm, x, -, -, rfl⟩
  · rw [h]
    exact .inl rfl
  · rw [h]
    refine .inr ⟨m, hm, ?_⟩
    show Except.ok _ = Except.ok _
    rw [hm.length_eq, ← hlen, List.drop_length, List.append_nil]

/-- `select_start_set` comes back when there is a `k`-th new value. -/
theorem selectStartSet_returns (hn : 2 ≤ d.n) (hlen : mySet.length = d.k) {m fuel : Nat}
    (hm : KthNew (draw d rs pos) d.k m) (hfuel : m < fuel) :
    ∃ r, selectStartSet fuel d rs pos mySet (List.replicate d.n false) = .ok r := by
  obtain ⟨st, m', h, -, -⟩ := selectLoop_returns hn hlen.ge hm hfuel d.k le_rfl
  unfold selectStartSet
  rw [h]
  exact ⟨_, rfl⟩

end

/-! ## Top theorem -/

/-- **`select_start_set` selects the first `k` distinct values.**  It comes back exactly when
the stream of draws takes `k` distinct values at least (so never for `k ≥ n`), and otherwise
draws for ever; what it gives back is the list of the first `k` of them in the order in which
they occur, with its bitmap, and the generator right after the `k`-th. -/
theorem selectStartSet_first_values (d : Dims) (hn : 2 ≤ d.n) (rs : Nat → Nat) (pos : Nat)
    (mySet : List Int) (hlen : mySet.length = d.k) :
    ((∃ fuel r, selectStartSet fuel d rs pos mySet (List.replicate d.n false) = .ok r) ↔
      (d.k : ℕ∞) ≤ (Set.range (draw d rs pos)).encard) ∧
    (d.n ≤ d.k → ∀ fuel,
      selectStartSet fuel d rs pos mySet (List.replicate d.n false) = .error .timeout) ∧
    ∀ fuel,
      selectStartSet fuel d rs pos mySet (List.replicate d.n false) = .error .timeout ∨
      ∃ S isMember m,
        selectStartSet fuel d rs pos mySet (List.replicate d.n false) =
          .ok (S, isMember, pos + m) ∧
        KthNew (draw d rs pos) d.k m ∧
        S = (firstValues (draw d rs pos) m).map (fun y : Nat => (y : Int)) ∧
        Indicates d.n S isMember := by
  refine ⟨?_, ?_, ?_⟩
  · rw [← exists_kthNew]
    constructor
    · rintro ⟨fuel, r, h⟩
      rcases selectStartSet_result rs pos hn hlen fuel with h' | ⟨m, hm, -⟩
      · rw [h] at h'
        cases h'
      · exact ⟨m, hm⟩
    · rintro ⟨m, hm⟩
      exact ⟨m + 1, selectStartSet_returns rs pos hn hlen hm (by omega)⟩
  · intro hkn fuel
    rcases selectStartSet_result rs pos hn hlen fuel with h | ⟨m, hm, -⟩
    · exact h
    · -- there are only `n - 1` values to draw
      have hsub : (firstValues (draw d rs pos) m).toFinset ⊆ Finset.Ico 1 d.n := by
        intro x hx
        obtain ⟨j, -, rfl⟩ := (mem_firstValues _).1 (List.mem_toFinset.1 hx)
        exact Finset.mem_Ico.2 (draw_bounds rs pos hn j)
      have hle := Finset.card_le_card hsub
      rw [List.toFinset_card_of_nodup (nodup_firstValues _ m), hm.length_eq, Nat.card_Ico] at hle
      omega
  · intro fuel
    rcases selectStartSet_result rs pos hn hlen fuel with h | ⟨m, hm, h⟩
    · exact .inl h
    · exact .inr ⟨_, _, m, h, hm, rfl, indicates_bitmap _⟩

/-- The draws `3, 3, 1, …` in order 5: the set `{3, 1}` after three of them. -/
theorem selectStartSet_first_values_five :
    (∃ fuel r, selectStartSet fuel ⟨5, 2, 0, 0⟩ (fun j => if j < 2 then 2 else 4) 0 [-1, -1]
        (List.replicate 5 false) = .ok r) ↔
      ((2 : Nat) : ℕ∞) ≤
        (Set.range (draw ⟨5, 2, 0, 0⟩ (fun j => if j < 2 then 2 else 4) 0)).encard :=
  (selectStartSet_first_values ⟨5, 2, 0, 0⟩ (by decide) (fun j => if j < 2 then 2 else 4) 0 [-1, -1]
    rfl).1

example : selectStartSet 4 ⟨5, 2, 0, 0⟩ (fun j => if j < 2 then 2 else 4) 0 [-1, -1]
    (List.replicate 5 false) = .ok ([3, 1], [false, true, false, true, false], 3) := by decide

end PdsSearch
