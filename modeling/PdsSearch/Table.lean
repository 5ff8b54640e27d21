import Mathlib
import PdsSearch.Lib.Checked

/-!
# Dimensions and group tables (`dims.h`)

`Dims` is the parameter tuple `(n, k, λ, μ)`.  A `Table n` is an `n × n` array
with entries in `0 .. n-1`, the only promise the search needs to stay inside
its arrays; a `GroupTable n` is the multiplication table of a group whose
identity is `0`.  `Table.Elem` are the indices with the product the table
gives them; over a `GroupTable` they are a `Group`.

    cell T.ct a b = .ok (a * b)                                   (cell_mul)
-/

namespace PdsSearch

open Checked

/-- The target parameters.  `n` and `k` are sizes, `lam` and `mu` only enter differences. -/
structure Dims where
  n : Nat
  k : Nat
  lam : Int
  mu : Int
deriving DecidableEq, Repr

/-- `ct[a][b]` -/
def cell (ct : List (List Int)) (a b : Int) : Except Stop Int := do
  vget (← vget ct a) b

/-- An `n × n` table with entries in `0 .. n-1`. -/
structure Table (n : Nat) where
  ct : List (List Int)
  rows : ct.length = n
  cols : ∀ row ∈ ct, row.length = n
  entries : ∀ row ∈ ct, ∀ x ∈ row, 0 ≤ x ∧ x < n

namespace Table

variable {n : Nat} (T : Table n)

theorem row_length (a : Nat) (ha : a < T.ct.length) : T.ct[a].length = n :=
  T.cols _ (List.getElem_mem _)

theorem entry_bounds (a b : Nat) (ha : a < T.ct.length) (hb : b < T.ct[a].length) :
    0 ≤ T.ct[a][b] ∧ T.ct[a][b] < n :=
  T.entries _ (List.getElem_mem _) _ (List.getElem_mem _)

/-- The product the table gives two indices. -/
def mul (a b : Fin n) : Fin n :=
  have ha : a.val < T.ct.length := by rw [T.rows]; exact a.isLt
  have hb : b.val < T.ct[a.val].length := by rw [T.row_length]; exact b.isLt
  ⟨(T.ct[a.val][b.val]).toNat, by have := T.entry_bounds a.val b.val ha hb; omega⟩

/-- The indices as elements, with the table's product. -/
def Elem (_ : Table n) : Type := Fin n

instance : Mul T.Elem := ⟨T.mul⟩
instance : DecidableEq T.Elem := inferInstanceAs (DecidableEq (Fin n))
instance : Fintype T.Elem := inferInstanceAs (Fintype (Fin n))

/-- An element as the `int` the program stores. -/
def idx (x : T.Elem) : Int := (Fin.val x : Int)

@[simp] theorem idx_inj (x y : T.Elem) : T.idx x = T.idx y ↔ x = y := by
  unfold idx
  rw [Int.natCast_inj]
  exact Fin.val_inj

theorem idx_bounds (x : T.Elem) : 0 ≤ T.idx x ∧ T.idx x < n := by
  have : Fin.val x < n := Fin.isLt x
  unfold idx
  omega

/-- The element at an index in range. -/
theorem exists_idx (i : Int) (h0 : 0 ≤ i) (hn : i < n) : ∃ x : T.Elem, T.idx x = i :=
  ⟨(⟨i.toNat, by omega⟩ : Fin n), by show ((i.toNat : Nat) : Int) = i; omega⟩

@[simp] theorem cell_mul (a b : T.Elem) : cell T.ct (T.idx a) (T.idx b) = .ok (T.idx (a * b)) := by
  have ha : Fin.val a < T.ct.length := by rw [T.rows]; exact Fin.isLt a
  have hb : Fin.val b < (T.ct[Fin.val a]).length := by rw [T.row_length]; exact Fin.isLt b
  unfold cell idx
  rw [vget_nat _ _ ha, ok_bind, vget_nat _ _ hb]
  have h := T.entry_bounds (Fin.val a) (Fin.val b) ha hb
  show Except.ok _ = Except.ok ((((T.ct[Fin.val a][Fin.val b]).toNat : Nat)) : Int)
  rw [Int.toNat_of_nonneg h.1]

/-- A list of elements as the program stores it. -/
def ints (xs : List T.Elem) : List Int := xs.map T.idx

@[simp] theorem length_ints (xs : List T.Elem) : (T.ints xs).length = xs.length := by
  simp [ints]

@[simp] theorem idx_mem_ints (x : T.Elem) (xs : List T.Elem) : T.idx x ∈ T.ints xs ↔ x ∈ xs := by
  simp [ints]

theorem nodup_ints (xs : List T.Elem) : (T.ints xs).Nodup ↔ xs.Nodup := by
  unfold ints
  exact List.nodup_map_iff fun x y h => (T.idx_inj x y).1 h

theorem length_dedup_ints (xs : List T.Elem) : (T.ints xs).dedup.length = xs.dedup.length := by
  unfold ints
  rw [List.dedup_map_of_injective fun x y h => (T.idx_inj x y).1 h, List.length_map]

theorem ints_set (xs : List T.Elem) (p : Nat) (b : T.Elem) :
    (T.ints xs).set p (T.idx b) = T.ints (xs.set p b) := by
  simp [ints, List.map_set]

theorem ints_perm (xs ys : List T.Elem) : (T.ints xs).Perm (T.ints ys) ↔ xs.Perm ys :=
  List.map_perm_map_iff fun x y h => (T.idx_inj x y).1 h

/-- Every list of indices in range is a list of elements. -/
theorem exists_ints (S : List Int) (h : ∀ x ∈ S, 0 ≤ x ∧ x < n) : ∃ xs, T.ints xs = S := by
  induction S with
  | nil => exact ⟨[], rfl⟩
  | cons i S ih =>
    obtain ⟨x, rfl⟩ := T.exists_idx i (h i List.mem_cons_self).1 (h i List.mem_cons_self).2
    obtain ⟨xs, rfl⟩ := ih fun y hy => h y (List.mem_cons_of_mem _ hy)
    exact ⟨x :: xs, rfl⟩

theorem vget_ints (xs : List T.Elem) (p : Nat) (h : p < xs.length) :
    vget (T.ints xs) (p : Int) = .ok (T.idx xs[p]) := by
  rw [vget_nat _ _ (by simpa using h)]
  simp [ints]

/-- The array that holds `f x` at index `x`. -/
def tab {β : Type} (f : T.Elem → β) : List β := List.ofFn (n := n) f

section
variable {β : Type}

@[simp] theorem length_tab (f : T.Elem → β) : (T.tab f).length = n := List.length_ofFn

@[simp] theorem vget_tab (f : T.Elem → β) (x : T.Elem) : vget (T.tab f) (T.idx x) = .ok (f x) :=
  vget_ofFn (n := n) f x

@[simp] theorem vset_tab (f : T.Elem → β) (x : T.Elem) (b : β) :
    vset (T.tab f) (T.idx x) b = .ok (T.tab (Function.update f x b)) :=
  vset_ofFn (n := n) f x b

@[simp] theorem vmod_tab (f : T.Elem → β) (x : T.Elem) (g : β → β) :
    vmod (T.tab f) (T.idx x) g = .ok (T.tab (Function.update f x (g (f x)))) :=
  vmod_ofFn (n := n) f x g

theorem replicate_eq_tab (b : β) : List.replicate n b = T.tab fun _ => b :=
  replicate_eq_ofFn b

@[simp] theorem tab_inj (f g : T.Elem → β) : T.tab f = T.tab g ↔ f = g :=
  List.ofFn_inj (n := n)

theorem map_tab {γ : Type} (f : T.Elem → β) (g : β → γ) : (T.tab f).map g = T.tab fun x => g (f x) :=
  List.map_ofFn

/-- Every array of the right length. -/
theorem exists_tab (v : List β) (h : v.length = n) : ∃ f : T.Elem → β, T.tab f = v := by
  refine ⟨fun x : Fin n => v.get ⟨x.val, by rw [h]; exact x.isLt⟩, ?_⟩
  unfold tab
  apply List.ext_getElem
  · simp [h]
  · intro i h1 h2; simp

end

/-- The list `S` as a set of elements. -/
def toFinset (S : List Int) : Finset T.Elem := Finset.univ.filter fun x => T.idx x ∈ S

@[simp] theorem mem_toFinset (S : List Int) (x : T.Elem) : x ∈ T.toFinset S ↔ T.idx x ∈ S := by
  simp [toFinset]

end Table

/-! ## Group tables -/

/-- The table of a group with identity `0`. -/
structure GroupTable (n : Nat) extends Table n where
  pos : 0 < n
  one_mul : ∀ a : Fin n, toTable.mul ⟨0, pos⟩ a = a
  mul_assoc : ∀ a b c : Fin n, toTable.mul (toTable.mul a b) c = toTable.mul a (toTable.mul b c)
  exists_inv : ∀ a : Fin n, ∃ b : Fin n, toTable.mul b a = ⟨0, pos⟩

namespace GroupTable

variable {n : Nat} (T : GroupTable n)

noncomputable instance : Group T.toTable.Elem :=
  letI : One T.toTable.Elem := ⟨(⟨0, T.pos⟩ : Fin n)⟩
  letI : Inv T.toTable.Elem := ⟨fun a => Classical.choose (T.exists_inv a)⟩
  Group.ofLeftAxioms T.mul_assoc T.one_mul fun a => Classical.choose_spec (T.exists_inv a)

@[simp] theorem idx_one : T.idx 1 = 0 := rfl

theorem idx_ne_zero (x : T.Elem) : T.idx x ≠ 0 ↔ x ≠ 1 := by
  rw [← T.idx_one, Ne, T.toTable.idx_inj]

end GroupTable

/-! ## The cyclic group -/

namespace Table

/-- The table of an operation on the indices. -/
def ofMul {n : Nat} (f : Fin n → Fin n → Fin n) : Table n where
  ct := List.ofFn fun a => List.ofFn fun b => ((f a b).val : Int)
  rows := List.length_ofFn
  cols := by
    intro row h
    obtain ⟨a, rfl⟩ := List.mem_ofFn.1 h
    exact List.length_ofFn
  entries := by
    intro row h x hx
    obtain ⟨a, rfl⟩ := List.mem_ofFn.1 h
    obtain ⟨b, rfl⟩ := List.mem_ofFn.1 hx
    have := (f a b).isLt
    omega

@[simp] theorem mul_ofMul {n : Nat} (f : Fin n → Fin n → Fin n) (a b : Fin n) :
    (ofMul f).mul a b = f a b := by
  apply Fin.ext
  simp [mul, ofMul]

end Table

/-- `0 .. n-1` under addition modulo `n`. -/
def cyclicTable (n : Nat) [NeZero n] : GroupTable n where
  toTable := Table.ofMul fun a b => a + b
  pos := Nat.pos_of_neZero n
  one_mul := by
    intro a
    rw [Table.mul_ofMul]
    exact zero_add a
  mul_assoc := by
    intro a b c
    simp only [Table.mul_ofMul]
    exact add_assoc a b c
  exists_inv := by
    intro a
    refine ⟨-a, ?_⟩
    rw [Table.mul_ofMul]
    exact neg_add_cancel a

end PdsSearch
