import PdsSearch.GroupError

/-!
# The error and the numbering of the group

Renaming the elements moves the histogram, the members and the identity
together, and no loop sees the order:

    f an isomorphism or an anti-isomorphism, ys a reordering of f(xs) →
      error d T'.ct (T'.ints ys) e = error d T.ct (T.ints xs) e        (error_relabel)

so nothing depends on whether `ct[a][b]` is read as `a * b` or as `b * a`, nor
on taking a set or its inverse.
-/

namespace PdsSearch

open Checked GroupRing

variable {d : Dims}

/-! ## Renaming -/

section
variable {T T' : Table d.n} (f : T.Elem ≃ T'.Elem)

/-- The nonidentity elements are renamed among themselves. -/
theorem perm_nonId_map (hf0 : ∀ x, T'.idx (f x) = 0 ↔ T.idx x = 0) :
    T'.nonId.Perm (T.nonId.map f) := by
  rw [List.perm_ext_iff_of_nodup T'.nodup_nonId (T.nodup_nonId.map f.injective)]
  intro y
  obtain ⟨x, rfl⟩ := f.surjective y
  rw [T'.mem_nonId, List.mem_map_of_injective f.injective, T.mem_nonId, Ne, Ne, hf0]

/-- The loops do not see the names. -/
theorem errFold_map {α : Type} [Sub α] [Neg α] [LT α] [DecidableLT α] [IntCast α]
    (op : α → α → α) (weight : α → α) (hop : ∀ a b c, op (op a b) c = op (op a c) b) (hn : 0 < d.n)
    (hf0 : ∀ x, T'.idx (f x) = 0 ↔ T.idx x = 0) {g : T.Elem → α} {g' : T'.Elem → α}
    (hg : ∀ x, g' (f x) = g x) : errFold T' op weight hn g' = errFold T op weight hn g := by
  have hzero : T'.zero hn = f (T.zero hn) :=
    ((T'.idx_eq_zero hn _).1 ((hf0 _).2 (T.idx_zero hn))).symm
  have hcomm : RightCommutative fun (err : α) (y : T'.Elem) => op err (weight (cabs (g' y))) :=
    ⟨fun a x y => hop a _ _⟩
  unfold errFold
  rw [(perm_nonId_map f hf0).foldl_eq, List.foldl_map, hzero, hg]
  simp only [hg]

variable {α : Type} [CommRing α] [LinearOrder α]

omit [LinearOrder α] in
/-- Every deviation moves with its element. -/
theorem dev_map (hf0 : ∀ x, T'.idx (f x) = 0 ↔ T.idx x = 0)
    (hf : (∀ x y, f (x * y) = f x * f y) ∨ ∀ x y, f (x * y) = f y * f x) (c : Candidate T)
    (c' : Candidate T') (h : c'.xs.Perm (c.xs.map f)) (x : T.Elem) :
    dev T' c'.member (fun y => (c'.square α).coeff y) (f x) =
      dev T c.member (fun x => (c.square α).coeff x) x := by
  have hsq : (c'.square α).coeff (f x) = (c.square α).coeff x := by
    unfold Candidate.square
    rw [formal_perm h]
    exact coeff_formal_map_mul f hf c.xs x
  have hmem : c'.member (f x) = c.member x := by
    apply decide_eq_decide.2
    rw [h.mem_iff, List.mem_map_of_injective f.injective]
  unfold dev
  simp only [hf0, hmem, hsq]

/-- The error of a renamed candidate. -/
theorem err_map (hf0 : ∀ x, T'.idx (f x) = 0 ↔ T.idx x = 0)
    (hf : (∀ x y, f (x * y) = f x * f y) ∨ ∀ x y, f (x * y) = f y * f x) (hn : 0 < d.n)
    (e : ErrorCalc α) (he : e ∈ (calculators : List (ErrorCalc α))) (xs : List T.Elem)
    (ys : List T'.Elem) (hlen : xs.length = d.k) (hnd : xs.Nodup) (h0 : ∀ x ∈ xs, T.idx x ≠ 0)
    (h : ys.Perm (xs.map f)) : error d T'.ct (T'.ints ys) e = error d T.ct (T.ints xs) e := by
  obtain ⟨op, weight, hop, rfl⟩ := calculators_with e he
  let c : Candidate T := ⟨xs, hlen, hnd, h0⟩
  let c' : Candidate T' :=
    { xs := ys
      length_eq := by rw [h.length_eq, List.length_map, hlen]
      nodup := h.nodup_iff.2 (hnd.map f.injective)
      nonId := by
        intro y hy
        obtain ⟨x, hx, rfl⟩ := List.mem_map.1 (h.mem_iff.1 hy)
        rw [Ne, hf0]
        exact h0 x hx }
  show error d T'.ct (T'.ints c'.xs) _ = error d T.ct (T.ints c.xs) _
  rw [error_candidate (measures_with T' op weight hop hn) c',
    error_candidate (measures_with T op weight hop hn) c]
  unfold Candidate.err
  rw [errFold_map f op weight hop hn hf0 (dev_map f hf0 hf c c' h)]

end

/-! ## Transposed tables -/

theorem GroupTable.exists_right_inv {n : Nat} (T : GroupTable n) (a : Fin n) :
    ∃ b : Fin n, T.mul a b = ⟨0, T.pos⟩ := by
  have h : ∀ x : T.Elem, ∃ y : T.Elem, x * y = 1 := fun x => ⟨x⁻¹, mul_inv_cancel x⟩
  exact h a

/-- The table read the other way round: `ct[a][b]` and `ct[b][a]` exchanged. -/
def GroupTable.transpose {n : Nat} (T : GroupTable n) : GroupTable n where
  toTable := Table.ofMul fun a b => T.mul b a
  pos := T.pos
  one_mul := by
    intro a
    rw [Table.mul_ofMul]
    exact mul_one (show T.Elem from a)
  mul_assoc := by
    intro a b c
    simp only [Table.mul_ofMul]
    exact (T.mul_assoc c b a).symm
  exists_inv := by
    intro a
    obtain ⟨b, hb⟩ := T.exists_right_inv a
    refine ⟨b, ?_⟩
    rw [Table.mul_ofMul]
    exact hb

theorem GroupTable.transpose_mul {n : Nat} (T : GroupTable n) (a b : Fin n) :
    T.transpose.mul a b = T.mul b a :=
  Table.mul_ofMul _ a b

/-! ## Top theorem -/

/-- **The error is a property of the set in the group.**  Renaming the elements by an
isomorphism or an anti-isomorphism of tables, in whatever order the renamed list is written,
leaves the error as it is; in particular so do an automorphism, taking inverses, and reading the
table the other way round. -/
theorem error_relabel {α : Type} [CommRing α] [LinearOrder α] (T T' : GroupTable d.n)
    (e : ErrorCalc α) (he : e ∈ (calculators : List (ErrorCalc α))) (xs : List T.Elem)
    (hlen : xs.length = d.k) (hnd : xs.Nodup) (h1 : ∀ x ∈ xs, x ≠ 1) :
    (∀ f : T.Elem ≃ T'.Elem, f 1 = 1 →
      ((∀ x y, f (x * y) = f x * f y) ∨ ∀ x y, f (x * y) = f y * f x) →
      ∀ ys : List T'.Elem, ys.Perm (xs.map f) →
        error d T'.ct (T'.ints ys) e = error d T.ct (T.ints xs) e) ∧
    (∀ f : T.Elem ≃* T.Elem, ∀ ys : List T.Elem, ys.Perm (xs.map f) →
      error d T.ct (T.ints ys) e = error d T.ct (T.ints xs) e) ∧
    (∀ ys : List T.Elem, ys.Perm (xs.map fun x => x⁻¹) →
      error d T.ct (T.ints ys) e = error d T.ct (T.ints xs) e) ∧
    error d T.transpose.ct (T.ints xs) e = error d T.ct (T.ints xs) e := by
  have h0 : ∀ x ∈ xs, T.idx x ≠ 0 := fun x hx => (T.idx_ne_zero x).2 (h1 x hx)
  have hone : ∀ (T : GroupTable d.n) (x : T.Elem), T.idx x = 0 ↔ x = 1 := by
    intro T x
    have := T.idx_ne_zero x
    tauto
  -- the identity is where it was
  have hidx : ∀ (T' : GroupTable d.n) (f : T.Elem ≃ T'.Elem), f 1 = 1 →
      ∀ x, T'.idx (f x) = 0 ↔ T.idx x = 0 := by
    intro T' f hf1 x
    rw [hone, hone, ← hf1, f.injective.eq_iff]
  refine ⟨?_, ?_, ?_, ?_⟩
  · intro f hf1 hf ys hys
    exact err_map f (hidx T' f hf1) hf T.pos e he xs ys hlen hnd h0 hys
  · intro f ys hys
    exact err_map f.toEquiv (hidx T f.toEquiv (map_one f)) (.inl (map_mul f)) T.pos e he xs ys hlen
      hnd h0 hys
  · intro ys hys
    exact err_map (Equiv.inv T.Elem) (hidx T (Equiv.inv T.Elem) inv_one) (.inr mul_inv_rev) T.pos e
      he xs ys hlen hnd h0 hys
  · let f : T.Elem ≃ T.transpose.Elem := Equiv.refl (Fin d.n)
    have hanti : ∀ x y, f (x * y) = f y * f x := fun x y => (T.transpose_mul y x).symm
    let ys : List T.transpose.Elem := xs
    have hys : ys.Perm (xs.map f) := List.Perm.of_eq (List.map_id xs).symm
    exact err_map f (fun x => Iff.rfl) (.inr hanti) T.pos e he xs ys
      hlen hnd h0 hys

/-- Doubling in the cyclic group of order 5, and the list turned round. -/
theorem error_relabel_cyclic :
    error ⟨5, 2, 0, 1⟩ (cyclicTable 5).ct [4, 2] (l2Error : ErrorCalc Int) =
      error ⟨5, 2, 0, 1⟩ (cyclicTable 5).ct [1, 2] l2Error :=
  let f : Fin 5 ≃ Fin 5 := ⟨fun x => 2 * x, fun x => 3 * x, by decide, by decide⟩
  (error_relabel (d := ⟨5, 2, 0, 1⟩) (cyclicTable 5) (cyclicTable 5) l2Error (by simp [calculators])
    ([1, 2] : List (Fin 5)) rfl (show ([1, 2] : List (Fin 5)).Nodup by decide)
    (show ∀ x ∈ ([1, 2] : List (Fin 5)), x ≠ 0 by decide)).1 f rfl (.inl (by decide))
    ([4, 2] : List (Fin 5)) (show ([4, 2] : List (Fin 5)).Perm [2, 4] by decide)

end PdsSearch
