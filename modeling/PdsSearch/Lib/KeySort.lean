import Mathlib.Data.List.Sort
import Mathlib.Order.Basic

/-!
# Sorting by a key

`keySort key l` is the list `l` in the order of the keys, entries with one key in
the order they had.  These two facts say everything:

    l' = keySort key l ↔ l' is sorted by the keys, and for every key the entries
      with that key are the same list in l' and in l              (eq_keySort_iff)

So a list that is cut anywhere can be sorted part by part first:

    keySort key (keySort key l ++ keySort key l') = keySort key (l ++ l')
                                                          (keySort_append_keySort)
-/

namespace KeySort

variable {β κ : Type} [LinearOrder κ] (key : β → κ)

def keySort (l : List β) : List β := l.insertionSort fun a b => key a ≤ key b

/-- The keys do not decrease. -/
def SortedBy (l : List β) : Prop := l.Pairwise fun a b => key a ≤ key b

/-- The entries with the key `c`. -/
def withKey (c : κ) (l : List β) : List β := l.filter fun a => key a = c

variable {key}

theorem mem_withKey {c : κ} {l : List β} {a : β} : a ∈ withKey key c l ↔ a ∈ l ∧ key a = c := by
  unfold withKey
  rw [List.mem_filter, decide_eq_true_iff]

theorem withKey_append (c : κ) (l l' : List β) :
    withKey key c (l ++ l') = withKey key c l ++ withKey key c l' := List.filter_append ..

theorem keySort_perm (l : List β) : (keySort key l).Perm l := List.perm_insertionSort _ l

theorem keySort_sorted (l : List β) : SortedBy key (keySort key l) := by
  have htotal : Std.Total fun a b : β => key a ≤ key b := ⟨fun _ _ => le_total _ _⟩
  have htrans : IsTrans β fun a b => key a ≤ key b := ⟨fun _ _ _ => le_trans⟩
  exact List.pairwise_insertionSort _ l

/-- **Stable**: entries with one key stay in their order. -/
theorem withKey_keySort (c : κ) (l : List β) : withKey key c (keySort key l) = withKey key c l := by
  have hsorted : (withKey key c l).Pairwise fun a b => key a ≤ key b := by
    apply List.pairwise_of_forall_mem_list
    intro a ha b hb
    rw [(mem_withKey.1 ha).2, (mem_withKey.1 hb).2]
  have hsub : (withKey key c l).Sublist (keySort key l) :=
    List.sublist_insertionSort hsorted List.filter_sublist
  have hsub' := hsub.filter fun a => key a = c
  have hself : (withKey key c l).filter (fun a => key a = c) = withKey key c l := by
    unfold withKey
    rw [List.filter_filter]
    simp
  rw [hself] at hsub'
  exact (hsub'.eq_of_length ((keySort_perm l).filter _).length_eq.symm).symm

theorem mem_iff_of_withKey {l l' : List β} (h : ∀ c, withKey key c l = withKey key c l') (a : β) :
    a ∈ l ↔ a ∈ l' := by
  have ha : a ∈ withKey key (key a) l ↔ a ∈ withKey key (key a) l' := by rw [h]
  rw [mem_withKey, mem_withKey] at ha
  exact ⟨fun hl => (ha.1 ⟨hl, rfl⟩).1, fun hl => (ha.2 ⟨hl, rfl⟩).1⟩

/-- **Unique**: a sorted list is made of its parts with one key. -/
theorem SortedBy.eq_of_withKey {l l' : List β} (hl : SortedBy key l) (hl' : SortedBy key l')
    (h : ∀ c, withKey key c l = withKey key c l') : l = l' := by
  induction l generalizing l' with
  | nil =>
    symm
    rw [List.eq_nil_iff_forall_not_mem]
    intro a ha
    exact absurd ((mem_iff_of_withKey h a).2 ha) List.not_mem_nil
  | cons a l ih =>
    cases l' with
    | nil => exact absurd ((mem_iff_of_withKey h a).1 List.mem_cons_self) List.not_mem_nil
    | cons b l' =>
      have hmem := mem_iff_of_withKey h
      -- each of the two first keys is the least one
      obtain ⟨ha, hrest⟩ := List.pairwise_cons.1 hl
      obtain ⟨hb, hrest'⟩ := List.pairwise_cons.1 hl'
      have hab : key a = key b := by
        apply le_antisymm
        · rcases List.mem_cons.1 ((hmem b).2 List.mem_cons_self) with rfl | hbl
          · exact le_rfl
          · exact ha b hbl
        · rcases List.mem_cons.1 ((hmem a).1 List.mem_cons_self) with rfl | hal
          · exact le_rfl
          · exact hb a hal
      have hhead := h (key a)
      unfold withKey at hhead
      rw [List.filter_cons_of_pos (by simp), List.filter_cons_of_pos (by simp [hab]),
        List.cons.injEq] at hhead
      obtain ⟨rfl, -⟩ := hhead
      have htail : ∀ c, withKey key c l = withKey key c l' := by
        intro c
        have hc := h c
        unfold withKey at hc ⊢
        by_cases hac : key a = c
        · rw [List.filter_cons_of_pos (by simp [hac]), List.filter_cons_of_pos (by simp [hac])] at hc
          exact (List.cons.inj hc).2
        · rwa [List.filter_cons_of_neg (by simp [hac]), List.filter_cons_of_neg (by simp [hac])] at hc
      rw [ih hrest hrest' htail]

/-- **What sorting by a key is.** -/
theorem eq_keySort_iff {l l' : List β} :
    l' = keySort key l ↔ SortedBy key l' ∧ ∀ c, withKey key c l' = withKey key c l := by
  constructor
  · rintro rfl
    exact ⟨keySort_sorted l, fun c => withKey_keySort c l⟩
  · rintro ⟨hsorted, hkeys⟩
    exact hsorted.eq_of_withKey (keySort_sorted l) fun c => (hkeys c).trans (withKey_keySort c l).symm

theorem keySort_keySort (l : List β) : keySort key (keySort key l) = keySort key l := by
  symm
  rw [eq_keySort_iff]
  exact ⟨keySort_sorted l, fun c => rfl⟩

/-- **Parts can be sorted first.** -/
theorem keySort_append_keySort (l l' : List β) :
    keySort key (keySort key l ++ keySort key l') = keySort key (l ++ l') := by
  rw [eq_keySort_iff]
  refine ⟨keySort_sorted _, fun c => ?_⟩
  rw [withKey_keySort, withKey_append, withKey_append, withKey_keySort, withKey_keySort]

end KeySort
