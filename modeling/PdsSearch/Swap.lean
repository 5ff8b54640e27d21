import PdsSearch.Invariant

/-!
# One swap, tried and taken back

What one iteration of the inner loop does to the state, over any table:

    adjustSums d T.ct S (histogram … S) (p, b) 1 = .ok (histogram … (S.set p b))
                                                              (adjustSums_histogram)
    the swap is not accepted → sums, is_member, my_set, cur_error are unchanged
                                                              (rejected_swap)

In the first the list may repeat values and contain `b` already; in the second
`sums` may hold anything.
-/

namespace PdsSearch

open Checked GroupRing

variable {α : Type} [CommRing α] {d : Dims}

/-! ## The histogram of a swapped list -/

/-- `histogram[x]` counts the ordered pairs of positions of `S` whose product is `x`. -/
def histogram (α : Type) [CommRing α] (n : Nat) (ct : List (List Int)) (S : List Int) : List α :=
  List.ofFn fun x : Fin n => (productCount ct S (x.val : Int) : α)

theorem histogram_ints (T : Table d.n) (xs : List T.Elem) :
    histogram α d.n T.ct (T.ints xs) = T.hist (formal α xs * formal α xs) := by
  show T.tab (fun x : T.Elem => (productCount T.ct (T.ints xs) (T.idx x) : α)) = T.tab _
  rw [T.tab_inj]
  ext x
  exact productCount_ints xs x

/-- **`adjust_sums` follows the swap exactly.**  From the histogram of any list, repeats
allowed, it makes the histogram of the list with position `p` replaced by `b`. -/
theorem adjustSums_histogram (T : Table d.n) (S : List Int) (hk : S.length = d.k)
    (hS : ∀ x ∈ S, 0 ≤ x ∧ x < d.n) (p : Nat) (hp : p < d.k) (b : Int) (hb : 0 ≤ b ∧ b < d.n) :
    adjustSums d T.ct S (histogram α d.n T.ct S) ((p : Int), b) ((1 : Int) : α) =
      .ok (histogram α d.n T.ct (S.set p b)) := by
  obtain ⟨xs, rfl⟩ := T.exists_ints S hS
  obtain ⟨y, rfl⟩ := T.exists_idx b hb.1 hb.2
  rw [T.length_ints] at hk
  have hp' : p < xs.length := by omega
  rw [T.ints_set, histogram_ints, histogram_ints]
  exact adjustSums_set T xs hk p hp' y

/-- A table that is neither commutative nor associative, a repeated value, and a value that
is present already. -/
theorem adjustSums_histogram_three :
    adjustSums ⟨3, 3, 0, 1⟩ (Table.ofMul fun a b : Fin 3 => a + a - b * b * a + 1).ct [1, 2, 2]
      (histogram Int 3 (Table.ofMul fun a b : Fin 3 => a + a - b * b * a + 1).ct [1, 2, 2])
      (((0 : Nat) : Int), 2) 1 =
    .ok (histogram Int 3 (Table.ofMul fun a b : Fin 3 => a + a - b * b * a + 1).ct [2, 2, 2]) :=
  adjustSums_histogram (d := ⟨3, 3, 0, 1⟩) (Table.ofMul fun a b : Fin 3 => a + a - b * b * a + 1)
    [1, 2, 2] rfl (by decide) 0 (by decide) 2 (by decide)

/-! ## Rejected swaps -/

variable [LinearOrder α]

/-- **A rejected swap leaves no trace**, whatever `sums` and `cur_error` hold. -/
theorem rejected_swap (T : Table d.n) (e : ErrorCalc α)
    (he : e ∈ (calculators : List (ErrorCalc α))) (s : St α) (hlen : s.mySet.length = d.k)
    (hnd : s.mySet.Nodup) (hS : ∀ x ∈ s.mySet, 1 ≤ x ∧ x < d.n)
    (hmem : Indicates d.n s.mySet s.isMember) (hsums : s.sums.length = d.n) (m : Int × Int)
    (hm : (0 ≤ m.1 ∧ m.1 < d.k) ∧ 1 ≤ m.2 ∧ m.2 < d.n) (v : Variant) (o : ArgOrder)
    (rs : Nat → Nat) (i : Int × Int) (firstTime : Bool) (hgo : m ≠ i ∨ firstTime = true) :
    ∃ ev C, searchStep v o d T.ct rs e (.inner s i m firstTime) = .ok (.goto [ev] C) ∧
      ((∀ err, ev ≠ .swap m err) → ∃ s', C = .inner s' i (increment d m) false ∧
        s'.sums = s.sums ∧ s'.isMember = s.isMember ∧ s'.mySet = s.mySet ∧
        s'.curError = s.curError) := by
  obtain ⟨norm, hM⟩ := exists_norm T (by omega) e he
  obtain ⟨c, hc⟩ := Candidate.exists_of_list T s.mySet hlen hnd hS
  obtain ⟨a, ha⟩ := T.exists_hist s.sums hsums
  rw [← hc, indicates_ints_iff] at hmem
  obtain ⟨p, b, rfl, hp, hb⟩ := InRange.exists_elem T hm
  have hp' : p < c.xs.length := by rw [c.length_eq]; exact hp
  have hspec := tryMutation_spec hM c s a hc.symm hmem ha.symm p hp' b hp hb
  simp only [searchStep, if_pos hgo]
  by_cases hbx : b ∈ c.xs
  · rw [dif_pos hbx] at hspec
    rw [hspec]
    exact ⟨_, _, rfl, fun _ => ⟨s, rfl, rfl, rfl, rfl, rfl⟩⟩
  · rw [dif_neg hbx] at hspec
    simp only at hspec
    split at hspec
    · -- the swap is accepted
      rw [hspec]
      exact ⟨_, _, rfl, fun h => absurd rfl (h _)⟩
    · rw [hspec]
      exact ⟨_, _, rfl, fun _ => ⟨_, rfl, rfl, rfl, rfl, rfl⟩⟩

/-- A swap tried on a histogram that belongs to no list. -/
theorem rejected_swap_cyclic :
    ∃ ev C, searchStep .old .leftFirst ⟨5, 2, 0, 1⟩ (cyclicTable 5).ct id l1Error
        (.inner (⟨[1, 4], [false, true, false, false, true], [7, -3, 1, 0, 2], 0, 0, false, 0, 2⟩ : St Int)
          (0, 3) (0, 2) false) = .ok (.goto [ev] C) ∧
      ((∀ err, ev ≠ .swap (0, 2) err) → ∃ s', C = .inner s' (0, 3) (increment ⟨5, 2, 0, 1⟩ (0, 2)) false ∧
        s'.sums = [7, -3, 1, 0, 2] ∧ s'.isMember = [false, true, false, false, true] ∧
        s'.mySet = [1, 4] ∧ s'.curError = 0) :=
  rejected_swap (d := ⟨5, 2, 0, 1⟩) (cyclicTable 5).toTable l1Error (by simp [calculators])
    ⟨[1, 4], [false, true, false, false, true], [7, -3, 1, 0, 2], 0, 0, false, 0, 2⟩ rfl (by decide)
    (by decide) ⟨rfl, by decide⟩ rfl (0, 2) (by decide) .old .leftFirst id (0, 3) false
    (.inl (by decide))

end PdsSearch
