import Mathlib.Data.Set.Card
import Mathlib.Tactic

/-!
# The distinct values of a stream, in order of first occurrence

`firstValues v m` are the values among `v 0 .. v (m-1)`, each at the place of
its first occurrence.  `KthNew v k m`: the first `m` values hold `k` distinct
ones, and no fewer than `m` do, so the last of the `m` is the `k`-th new value.

    (∃ m, KthNew v k m) ↔ k ≤ (Set.range v).encard                 (exists_kthNew)
-/

namespace Checked

variable {α : Type} [DecidableEq α]

/-! ## Algorithm -/

/-- The values among the first `m`, without repeats. -/
def firstValues (v : Nat → α) (m : Nat) : List α := ((List.range m).map v).eraseDups

/-- The `k`-th new value of `v` is number `m - 1`. -/
structure KthNew (v : Nat → α) (k m : Nat) : Prop where
  length_eq : (firstValues v m).length = k
  least : ∀ m' < m, (firstValues v m').length < k

/-! ## Lemmas -/

variable (v : Nat → α)

theorem mem_firstValues {m : Nat} {x : α} : x ∈ firstValues v m ↔ ∃ j < m, v j = x := by
  unfold firstValues
  rw [List.mem_eraseDups, List.mem_map]
  simp only [List.mem_range]

/-- A repeat leaves no trace. -/
theorem firstValues_old {m : Nat} (h : v m ∈ firstValues v m) :
    firstValues v (m + 1) = firstValues v m := by
  have hm : v m ∈ (List.range m).map v := List.mem_eraseDups.1 h
  unfold firstValues
  rw [List.range_succ, List.map_append, List.eraseDups_append, List.map_singleton,
    List.cons_removeAll, if_neg (by simpa using hm)]
  exact List.append_nil _

/-- A new value is appended. -/
theorem firstValues_new {m : Nat} (h : v m ∉ firstValues v m) :
    firstValues v (m + 1) = firstValues v m ++ [v m] := by
  have hm : v m ∉ (List.range m).map v := fun hm => h (List.mem_eraseDups.2 hm)
  unfold firstValues
  rw [List.range_succ, List.map_append, List.eraseDups_append, List.map_singleton,
    List.cons_removeAll, if_pos (by simpa using hm)]
  rfl

theorem nodup_firstValues (m : Nat) : (firstValues v m).Nodup := by
  induction m with
  | zero => exact List.nodup_nil
  | succ m ih =>
    by_cases h : v m ∈ firstValues v m
    · rw [firstValues_old v h]
      exact ih
    · rw [firstValues_new v h, List.nodup_append]
      refine ⟨ih, List.nodup_singleton _, fun a ha b hb hab => ?_⟩
      rw [List.mem_singleton] at hb
      exact h (hb ▸ hab ▸ ha)

theorem firstValues_repeats {m : Nat} (t : Nat) (h : ∀ s < t, v (m + s) ∈ firstValues v m) :
    firstValues v (m + t) = firstValues v m := by
  induction t with
  | zero => rfl
  | succ t ih =>
    have ht : firstValues v (m + t) = firstValues v m := ih fun s hs => h s (by omega)
    have hold : v (m + t) ∈ firstValues v (m + t) := by
      rw [ht]
      exact h t (by omega)
    rw [← Nat.add_assoc, firstValues_old v hold, ht]

/-- The number of values grows by steps of one. -/
theorem length_firstValues_succ (m : Nat) :
    (firstValues v m).length ≤ (firstValues v (m + 1)).length ∧
      (firstValues v (m + 1)).length ≤ (firstValues v m).length + 1 := by
  by_cases h : v m ∈ firstValues v m
  · rw [firstValues_old v h]
    omega
  · rw [firstValues_new v h, List.length_append, List.length_singleton]
    omega

theorem length_firstValues_mono : Monotone fun m => (firstValues v m).length :=
  monotone_nat_of_le_succ fun m => (length_firstValues_succ v m).1

namespace KthNew

variable {v}

theorem zero : KthNew v 0 0 := ⟨rfl, fun m' h => absurd h (Nat.not_lt_zero m')⟩

/-- After `t` repeats comes the next new value. -/
theorem next {k m t : Nat} (h : KthNew v k m) (hold : ∀ s < t, v (m + s) ∈ firstValues v m)
    (hnew : v (m + t) ∉ firstValues v m) :
    firstValues v (m + t + 1) = firstValues v m ++ [v (m + t)] ∧ KthNew v (k + 1) (m + t + 1) := by
  have ht := firstValues_repeats v t hold
  have happ : firstValues v (m + t + 1) = firstValues v m ++ [v (m + t)] := by
    have := firstValues_new v (m := m + t) (by rwa [ht])
    rwa [ht] at this
  refine ⟨happ, ?_, fun m' hm' => ?_⟩
  · rw [happ, List.length_append, List.length_singleton, h.length_eq]
  · have hle : (firstValues v m').length ≤ (firstValues v (m + t)).length :=
      length_firstValues_mono v (by omega)
    rw [ht, h.length_eq] at hle
    omega

theorem unique {k m m' : Nat} (h : KthNew v k m) (h' : KthNew v k m') : m = m' := by
  rcases Nat.lt_trichotomy m m' with hlt | heq | hlt
  · have := h'.least m hlt
    rw [h.length_eq] at this
    omega
  · exact heq
  · have := h.least m' hlt
    rw [h'.length_eq] at this
    omega

/-- Before more values there is a next new one. -/
theorem exists_next {k k' m m' : Nat} (h : KthNew v k m) (h' : KthNew v k' m') (hlt : k < k') :
    ∃ t, m + t < m' ∧ (∀ s < t, v (m + s) ∈ firstValues v m) ∧ v (m + t) ∉ firstValues v m := by
  have hex : ∃ t, v (m + t) ∉ firstValues v m := by
    by_contra hno
    simp only [not_exists, not_not] at hno
    have heq := firstValues_repeats v m' fun s _ => hno s
    have hle : (firstValues v m').length ≤ (firstValues v (m + m')).length :=
      length_firstValues_mono v (by omega)
    rw [heq, h.length_eq, h'.length_eq] at hle
    omega
  have hold : ∀ s < Nat.find hex, v (m + s) ∈ firstValues v m := fun s hs =>
    not_not.1 (Nat.find_min hex hs)
  refine ⟨Nat.find hex, ?_, hold, Nat.find_spec hex⟩
  by_contra hge
  have heq := firstValues_repeats v (Nat.find hex) hold
  have hle : (firstValues v m').length ≤ (firstValues v (m + Nat.find hex)).length :=
    length_firstValues_mono v (by omega)
  rw [heq, h.length_eq, h'.length_eq] at hle
  omega

end KthNew

/-- Without a repeat the first `k` values are new. -/
theorem firstValues_nodup {k : Nat} (h : ((List.range k).map v).Nodup) : firstValues v k = (List.range k).map v := by
  induction k with
  | zero => rfl
  | succ k ih =>
    rw [List.range_succ, List.map_append] at h ⊢
    have hnew : v k ∉ (List.range k).map v := fun hmem =>
      (List.nodup_append.1 h).2.2 (v k) hmem (v k) (List.mem_singleton_self _) rfl
    have hk := ih (List.nodup_append.1 h).1
    rw [firstValues_new v (by rw [hk]; exact hnew), hk]
    rfl

theorem kthNew_nodup {k : Nat} (h : ((List.range k).map v).Nodup) : KthNew v k k where
  length_eq := by rw [firstValues_nodup v h, List.length_map, List.length_range]
  least := by
    intro m hm
    have hsub : ((List.range m).map v).Nodup :=
      h.sublist ((List.range_sublist.2 hm.le).map v)
    rw [firstValues_nodup v hsub, List.length_map, List.length_range]
    exact hm

/-! ### Renaming -/

section
variable {v} {β : Type} [DecidableEq β]

theorem firstValues_congr {w : Nat → α} {m : Nat} (h : ∀ j < m, v j = w j) : firstValues v m = firstValues w m := by
  unfold firstValues
  congr 1
  apply List.map_congr_left
  intro j hj
  exact h j (List.mem_range.1 hj)

variable (v) in
theorem firstValues_comp {f : α → β} (hf : Function.Injective f) (m : Nat) :
    firstValues (fun j => f (v j)) m = (firstValues v m).map f := by
  induction m with
  | zero => rfl
  | succ m ih =>
    by_cases h : v m ∈ firstValues v m
    · have h' : f (v m) ∈ firstValues (fun j => f (v j)) m := by
        rw [ih]
        exact List.mem_map_of_mem h
      rw [firstValues_old v h, ← ih]
      exact firstValues_old (fun j => f (v j)) h'
    · have h' : f (v m) ∉ firstValues (fun j => f (v j)) m := by
        rw [ih, List.mem_map_of_injective hf]
        exact h
      rw [firstValues_new v h, List.map_append, ← ih]
      exact firstValues_new (fun j => f (v j)) h'

variable (v) in
theorem kthNew_comp {f : α → β} (hf : Function.Injective f) (k m : Nat) :
    KthNew (fun j => f (v j)) k m ↔ KthNew v k m := by
  constructor
  · rintro ⟨hlen, hleast⟩
    simp only [firstValues_comp v hf, List.length_map] at hlen hleast
    exact ⟨hlen, hleast⟩
  · rintro ⟨hlen, hleast⟩
    refine ⟨?_, ?_⟩
    · rw [firstValues_comp v hf, List.length_map]
      exact hlen
    · intro m' hm'
      rw [firstValues_comp v hf, List.length_map]
      exact hleast m' hm'

theorem kthNew_congr {w : Nat → α} {k m : Nat} (h : ∀ j < m, v j = w j) (hv : KthNew v k m) : KthNew w k m := by
  refine ⟨?_, fun m' hm' => ?_⟩
  · rw [← firstValues_congr h]
    exact hv.length_eq
  · rw [← firstValues_congr fun j hj => h j (by omega)]
    exact hv.least m' hm'

end

/-- A stream of `k` values at least has shown `k` of them after a while. -/
theorem exists_le_length {k : Nat} (h : (k : ℕ∞) ≤ (Set.range v).encard) :
    ∃ m, k ≤ (firstValues v m).length := by
  obtain ⟨s, hs, hcard⟩ := Set.exists_subset_encard_eq h
  have hfin : s.Finite := Set.finite_of_encard_eq_coe hcard
  have hk : hfin.toFinset.card = k := by
    rw [hfin.encard_eq_coe_toFinset_card] at hcard
    exact_mod_cast hcard
  -- the last of `s` to occur is number `b` at most
  choose! j hj using fun x (hx : x ∈ s) => hs hx
  obtain ⟨b, hb⟩ := (hfin.image j).bddAbove
  have hmem : ∀ x ∈ hfin.toFinset, x ∈ (firstValues v (b + 1)).toFinset := by
    intro x hx
    have hx : x ∈ s := hfin.mem_toFinset.1 hx
    have hle : j x ≤ b := hb ⟨x, hx, rfl⟩
    exact List.mem_toFinset.2 ((mem_firstValues v).2 ⟨j x, by omega, hj x hx⟩)
  have hle := Finset.card_le_card hmem
  rw [List.toFinset_card_of_nodup (nodup_firstValues v (b + 1)), hk] at hle
  exact ⟨b + 1, hle⟩

/-- The first moment with so many values has exactly so many. -/
theorem KthNew.of_le_length {k : Nat} (h : ∃ m, k ≤ (firstValues v m).length) :
    KthNew v k (Nat.find h) := by
  have hleast : ∀ m' < Nat.find h, (firstValues v m').length < k := fun m' hm' =>
    Nat.lt_of_not_le (Nat.find_min h hm')
  refine ⟨?_, hleast⟩
  have hge := Nat.find_spec h
  by_cases h0 : Nat.find h = 0
  · rw [h0] at hge ⊢
    have : (firstValues v 0).length = 0 := rfl
    omega
  · have hprev := hleast (Nat.find h - 1) (by omega)
    have hstep := (length_firstValues_succ v (Nat.find h - 1)).2
    rw [Nat.sub_add_cancel (by omega)] at hstep
    omega

/-! ## Top theorem -/

/-- **There is a `k`-th new value** when the stream takes `k` values at least. -/
theorem exists_kthNew (k : Nat) : (∃ m, KthNew v k m) ↔ (k : ℕ∞) ≤ (Set.range v).encard := by
  constructor
  · rintro ⟨m, h⟩
    have hsub : ((firstValues v m).toFinset : Set α) ⊆ Set.range v := by
      intro x hx
      obtain ⟨j, -, rfl⟩ := (mem_firstValues v).1 (List.mem_toFinset.1 hx)
      exact ⟨j, rfl⟩
    have hcard : (firstValues v m).toFinset.card = k := by
      rw [List.toFinset_card_of_nodup (nodup_firstValues v m), h.length_eq]
    have := Set.encard_le_encard hsub
    rwa [Set.encard_coe_eq_coe_finsetCard, hcard] at this
  · intro h
    exact ⟨_, KthNew.of_le_length v (exists_le_length v h)⟩

end Checked
