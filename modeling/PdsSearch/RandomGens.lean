import PdsSearch.Lib.UniformChoice
import PdsSearch.SelectStart

/-!
# Two generators of start sets (`random_gens.cpp`)

`repeat_select` draws until it has `k` distinct elements, as `select_start_set` does;
`with_shuffle` shuffles all elements and takes the first `k`.  Neither prefers a list of
`k` distinct elements to another:

    as many runs of m draws of repeat_select end with S as with S'      (repeatSelect_unbiased)
    with_shuffle ends with S for (n - 1 - k)! permutations              (withShuffle_run)
-/

namespace PdsSearch

open Checked

/-! ## Algorithm -/

/-- `std::shuffle`: the elements in the order of some permutation. -/
def shuffle {m : Nat} (σ : Equiv.Perm (Fin m)) (ran : List Int) : List Int :=
  (List.finRange m).map fun i => (ran[(σ i).val]?).getD (-1)

/-- `with_shuffle` -/
def withShuffle (n k : Nat) (σ : Equiv.Perm (Fin (n - 1))) : Except Stop (List Int × List Bool) := do
  let ran ← (List.range (n - 1)).foldlM (fun ran (i : Nat) => vset ran i ((i : Int) + 1))
    (List.replicate (n - 1) (-1))
  let ran := shuffle σ ran
  (List.range k).foldlM (fun (s : List Int × List Bool) (i : Nat) => do
    let mySet ← vset s.1 i (← vget ran i)
    let isMember ← vset s.2 (← vget mySet i) true
    return (mySet, isMember)) (List.replicate k (-1), List.replicate n false)

/-- The random values that give the draws `v`, and `tail` after them. -/
def stream {n m : Nat} (v : Fin m → Fin (n - 1)) (tail : Nat → Nat) : Nat → Nat :=
  fun j => if h : j < m then (v ⟨j, h⟩).val else tail j

/-- A list of `k` distinct elements, none of them the identity. -/
structure IsStart (n k : Nat) (S : List Int) : Prop where
  length : S.length = k
  nodup : S.Nodup
  values : ∀ x ∈ S, 1 ≤ x ∧ x < n

/-! ## Start lists -/

/-- An element, by its number among the others. -/
def element {n : Nat} (i : Fin (n - 1)) : Nat := i.val + 1

theorem element_injective {n : Nat} : Function.Injective (element (n := n)) :=
  fun _ _ h => Fin.ext (Nat.succ.inj h)

/-- The list of these elements. -/
def elementList {n : Nat} (zs : List (Fin (n - 1))) : List Int := zs.map fun i => (element i : Int)

theorem elementList_injective {n : Nat} : Function.Injective (elementList (n := n)) :=
  List.map_injective_iff.2 fun _ _ h => element_injective (Int.ofNat.inj h)

theorem elementList_cast {n : Nat} (zs : List (Fin (n - 1))) :
    (zs.map element).map (fun y : Nat => (y : Int)) = elementList zs :=
  List.map_map ..

/-- Every start list is one. -/
theorem IsStart.exists_elementList {n k : Nat} {S : List Int} (h : IsStart n k S) :
    ∃ zs : List (Fin (n - 1)), zs.Nodup ∧ zs.length = k ∧ S = elementList zs := by
  obtain ⟨zs, rfl⟩ : S ∈ Set.range (List.map fun i : Fin (n - 1) => (element i : Int)) := by
    rw [Set.range_list_map]
    intro x hx
    have hbounds := h.values x hx
    refine ⟨⟨(x - 1).toNat, by omega⟩, ?_⟩
    unfold element
    simp only
    omega
  exact ⟨zs, h.nodup.of_map, by rw [← h.length, List.length_map], rfl⟩

theorem isStart_elementList {n : Nat} {zs : List (Fin (n - 1))} (h : zs.Nodup) :
    IsStart n zs.length (elementList zs) where
  length := List.length_map _
  nodup := h.map fun _ _ heq => element_injective (Int.ofNat.inj heq)
  values := by
    intro x hx
    obtain ⟨i, -, rfl⟩ := List.mem_map.1 hx
    have := i.isLt
    unfold element
    omega

/-! ## Drawing -/

section
variable {d : Dims} (hn : 2 ≤ d.n) {m : Nat} (v : Fin m → Fin (d.n - 1)) (tail : Nat → Nat)

theorem draw_stream : ∀ j < m, draw d (stream v tail) 0 j = element (extend v ⟨0, by omega⟩ j) := by
  intro j hj
  unfold draw stream extend element
  rw [Nat.zero_add, dif_pos hj, dif_pos hj]
  exact congrArg (· + 1) (Nat.mod_eq_of_lt (v ⟨j, hj⟩).isLt)

/-- The runs of `select_start_set` that end with a list are those whose draws choose it. -/
theorem selectStartSet_iff {mySet : List Int} (hlen : mySet.length = d.k) {zs : List (Fin (d.n - 1))}
    (hzs : zs.length = d.k) :
    (∃ fuel isMember pos, pos ≤ m ∧ selectStartSet fuel d (stream v tail) 0 mySet (List.replicate d.n false) =
        .ok (elementList zs, isMember, pos)) ↔
      Chooses (extend v ⟨0, by omega⟩) m zs := by
  rw [← chooses_comp element_injective, ← chooses_congr (draw_stream hn v tail)]
  have hmap : (zs.map element).length = d.k := by rw [List.length_map, hzs]
  constructor
  · rintro ⟨fuel, isMember, pos, hpos, hrun⟩
    rcases selectStartSet_result (stream v tail) 0 hn hlen fuel with h | ⟨j, hj, h⟩
    · rw [hrun] at h
      cases h
    · rw [hrun, ← elementList_cast] at h
      obtain ⟨hS, -, rfl⟩ : (zs.map element).map (fun y : Nat => (y : Int)) = _ ∧ _ ∧ pos = 0 + j := by
        simpa using h
      have hfirst := List.map_injective_iff.2 (fun _ _ => Int.ofNat.inj) hS
      refine ⟨j, by omega, ?_, hfirst.symm⟩
      rw [hmap]
      exact hj
  · rintro ⟨j, hj, hkth, hfirst⟩
    rw [hmap] at hkth
    obtain ⟨r, hr⟩ := selectStartSet_returns (stream v tail) 0 hn hlen hkth (Nat.lt_succ_self j)
    rcases selectStartSet_result (stream v tail) 0 hn hlen (j + 1) with h | ⟨j', hj', h⟩
    · rw [hr] at h
      cases h
    · obtain rfl := hj'.unique hkth
      rw [hfirst, elementList_cast] at h
      exact ⟨_, _, 0 + j', by omega, h⟩

end

section
variable {n : Nat} (σ : Equiv.Perm (Fin (n - 1)))

/-- The elements in the order of `σ`. -/
def shuffled : List Nat := ((List.finRange (n - 1)).map σ).map element

theorem length_shuffled : (shuffled σ).length = n - 1 := by
  unfold shuffled
  rw [List.length_map, List.length_map, List.length_finRange]

/-- `ran` holds all elements. -/
theorem ranLoop : (List.range (n - 1)).foldlM (fun ran (i : Nat) => vset ran i ((i : Int) + 1))
    (List.replicate (n - 1) (-1)) = (.ok (List.ofFn fun i : Fin (n - 1) => (element i : Int)) : Except Stop _) := by
  have hloop : ∀ j ≤ n - 1, (List.range j).foldlM (fun ran (i : Nat) => vset ran i ((i : Int) + 1))
      (List.replicate (n - 1) (-1)) =
        (.ok (List.ofFn fun i : Fin (n - 1) => if i.val < j then (element i : Int) else -1) : Except Stop _) := by
    intro j
    induction j with
    | zero =>
      intro _
      rw [replicate_eq_ofFn]
      rfl
    | succ j ih =>
      intro hj
      have hset := vset_ofFn (fun i : Fin (n - 1) => if i.val < j then (element i : Int) else -1) ⟨j, by omega⟩
        ((j : Int) + 1)
      rw [foldlM_range_succ, ih (by omega), ok_bind, hset]
      congr 2
      funext i
      rw [Function.update_apply]
      unfold element
      by_cases h : i = ⟨j, by omega⟩
      · rw [if_pos h, h, if_pos (Nat.lt_succ_self j)]
        rfl
      · have hne : i.val ≠ j := fun heq => h (Fin.ext heq)
        rw [if_neg h]
        exact if_congr (by omega) rfl rfl
  rw [hloop (n - 1) le_rfl]
  congr 2
  funext i
  exact if_pos i.isLt

theorem shuffle_ofFn : shuffle σ (List.ofFn fun i : Fin (n - 1) => (element i : Int)) =
    (shuffled σ).map fun y : Nat => (y : Int) := by
  unfold shuffle shuffled
  rw [List.map_map, List.map_map]
  apply List.map_congr_left
  intro i _
  simp

end

/-- The loop that takes the first elements of `xs`, up to place `j`. -/
theorem fillLoop {n : Nat} {xs : List Nat} (hx : ∀ x ∈ xs, x < n) (k j : Nat) (hj : j ≤ k) :
    (List.range j).foldlM (fun (s : List Int × List Bool) (i : Nat) => do
      let mySet ← vset s.1 i (← vget (xs.map fun y : Nat => (y : Int)) i)
      let isMember ← vset s.2 (← vget mySet i) true
      return (mySet, isMember)) (List.replicate k (-1), List.replicate n false) =
    if j ≤ xs.length then .ok ((xs.take j).map (fun y : Nat => (y : Int)) ++ List.replicate (k - j) (-1),
      bitmap n (xs.take j)) else .error .outOfRange := by
  induction j with
  | zero =>
    rw [if_pos (Nat.zero_le _), bitmap_nil]
    rfl
  | succ j ih =>
    rw [foldlM_range_succ, ih (by omega)]
    by_cases hlt : j < xs.length
    · have hle : j ≤ xs.length := by omega
      have hS : ((xs.take j).map fun y : Nat => (y : Int)).length = j := by
        rw [List.length_map, List.length_take, Nat.min_eq_left hle]
      have hget : vget (xs.map fun y : Nat => (y : Int)) (j : Nat) = .ok (xs[j] : Int) := by
        rw [vget_nat _ _ (by rw [List.length_map]; exact hlt), List.getElem_map]
      have hk : k - j = k - (j + 1) + 1 := by omega
      have hset : vset ((xs.take j).map (fun y : Nat => (y : Int)) ++ List.replicate (k - j) (-1)) (j : Nat)
          (xs[j] : Int) = .ok ((xs.take (j + 1)).map (fun y : Nat => (y : Int)) ++ List.replicate (k - (j + 1)) (-1)) := by
        rw [vset_nat _ _ _ (by rw [List.length_append, hS, List.length_replicate]; omega),
          List.set_append_right _ _ hS.le, hS, Nat.sub_self, hk, List.replicate_succ, List.set_cons_zero,
          List.take_succ_eq_append_getElem hlt, List.map_append, List.append_assoc]
        rfl
      have hback : vget ((xs.take (j + 1)).map (fun y : Nat => (y : Int)) ++ List.replicate (k - (j + 1)) (-1))
          (j : Nat) = .ok (xs[j] : Int) := by
        have hlen : j < ((xs.take (j + 1)).map fun y : Nat => (y : Int)).length := by
          rw [List.length_map, List.length_take]
          omega
        rw [vget_nat _ _ (by rw [List.length_append]; omega), List.getElem_append_left hlen]
        simp
      rw [if_pos hle, if_pos (by omega), ok_bind]
      simp only [hget, ok_bind, hset, hback]
      rw [vset_bitmap _ (hx _ (List.getElem_mem hlt)), ← List.take_succ_eq_append_getElem hlt]
      rfl
    · have hnot : ¬ j + 1 ≤ xs.length := by omega
      by_cases hle : j ≤ xs.length
      · have hnone : vget (xs.map fun y : Nat => (y : Int)) (j : Nat) = .error .outOfRange := by
          unfold vget
          rw [if_neg (by omega), Int.toNat_natCast, List.getElem?_eq_none (by rw [List.length_map]; omega)]
        rw [if_pos hle, if_neg hnot, ok_bind, hnone]
        rfl
      · rw [if_neg hle, if_neg hnot]
        rfl

section
variable {n : Nat} (σ : Equiv.Perm (Fin (n - 1)))

theorem shuffled_lt : ∀ x ∈ shuffled σ, x < n := by
  intro x hx
  unfold shuffled at hx
  obtain ⟨i, -, rfl⟩ := List.mem_map.1 hx
  have := i.isLt
  unfold element
  omega

/-- **What the function computes**: the first `k` elements in the shuffled order, when there are so many. -/
theorem withShuffle_eq (k : Nat) : withShuffle n k σ =
    if k ≤ n - 1 then .ok (elementList (((List.finRange (n - 1)).map σ).take k), bitmap n ((shuffled σ).take k))
    else .error .outOfRange := by
  have htake : ((shuffled σ).take k).map (fun y : Nat => (y : Int)) =
      elementList (((List.finRange (n - 1)).map σ).take k) := by
    unfold shuffled
    rw [← List.map_take, elementList_cast]
  have hloop := fillLoop (shuffled_lt σ) k k le_rfl
  rw [length_shuffled, Nat.sub_self, List.replicate_zero, List.append_nil, htake] at hloop
  unfold withShuffle
  rw [ranLoop, ok_bind, shuffle_ofFn]
  exact hloop

end

/-! ## Top theorem -/

/-- **Shuffling is fair.**  With `k` elements at most to choose from, `with_shuffle` leaves a start list and its
bitmap, whatever the permutation; each start list comes from `(n - 1 - k)!` permutations.  With more it reads past the
end of the shuffled list, whatever the permutation. -/
theorem withShuffle_run (n k : Nat) :
    (k ≤ n - 1 → ∀ σ, ∃ S isMember, withShuffle n k σ = .ok (S, isMember) ∧ IsStart n k S ∧ Indicates n S isMember) ∧
    (n - 1 < k → ∀ σ, withShuffle n k σ = .error .outOfRange) ∧
    ∀ S, IsStart n k S → Nat.card { σ : Equiv.Perm (Fin (n - 1)) // ∃ isMember, withShuffle n k σ = .ok (S, isMember) } =
      (n - 1 - k).factorial := by
  refine ⟨?_, ?_, ?_⟩
  · intro hk σ
    have hnd : (((List.finRange (n - 1)).map σ).take k).Nodup :=
      ((List.nodup_finRange (n - 1)).map σ.injective).sublist (List.take_sublist k _)
    have hlen : (((List.finRange (n - 1)).map σ).take k).length = k := by
      rw [List.length_take, List.length_map, List.length_finRange, Nat.min_eq_left hk]
    have hstart := isStart_elementList hnd
    rw [hlen] at hstart
    refine ⟨_, _, (withShuffle_eq σ k).trans (if_pos hk), hstart, ?_⟩
    have htake : (shuffled σ).take k = (((List.finRange (n - 1)).map σ).take k).map element := by
      unfold shuffled
      rw [List.map_take]
    rw [htake, ← elementList_cast]
    exact indicates_bitmap _
  · intro hk σ
    rw [withShuffle_eq, if_neg (by omega)]
  · intro S hS
    obtain ⟨zs, hnd, rfl, rfl⟩ := hS.exists_elementList
    have hle : zs.length ≤ n - 1 := by
      have := hnd.length_le_card
      rwa [Fintype.card_fin] at this
    rw [← card_startsWith hnd]
    refine Nat.card_congr (Equiv.subtypeEquivRight fun σ => ?_)
    rw [withShuffle_eq, if_pos hle]
    unfold StartsWith
    constructor
    · rintro ⟨isMember, h⟩
      exact elementList_injective (Prod.mk.inj (Except.ok.inj h)).1
    · intro h
      rw [h]
      exact ⟨_, rfl⟩

end PdsSearch
