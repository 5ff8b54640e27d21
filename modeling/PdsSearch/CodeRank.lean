import PdsSearch.IncidenceMatrices
import PdsSearch.Lib.DiagonalForm

/-!
# The rank of a code (`CodeRank` in `11IncidenceMatrices.txt`)

`CodeRank` has GAP compute the Smith normal form and adds up the diagonal entries that the
prime does not divide.  With any diagonal form for the Smith normal form:

    codeRank smithNormalForm mat p = dimension of the row space of mat modulo p     (codeRank_rank)
-/

namespace PdsSearch

open Checked DiagonalForm

/-! ## Algorithm -/

/-- `Collected(v)`: the distinct values in order, with their multiplicities. -/
def collected (v : List Int) : List (Int × Nat) := (gapSet v).map fun x => (x, v.count x)

/-- `DiagonalOfMat(mat)`: as long as a row, with zeros where there are too few rows. -/
def diagonalOfMat (mat : List (List Int)) : List Int :=
  (List.range ((mat.head?.map List.length).getD 0)).map fun j => (mat[j]?.bind fun row => row[j]?).getD 0

/-- `CodeRank`, `smithNormalForm` being `SmithNormalFormIntegerMat`. -/
def codeRank (smithNormalForm : List (List Int) → List (List Int)) (mat : List (List Int)) (p : Nat) : Nat :=
  let snf := collected (diagonalOfMat (smithNormalForm mat))
  snf.foldl (fun rank x =>
    let r := x.1 % (p : Int)
    if ¬ r = 0 then rank + x.2 else rank) 0

/-- `m` rows of `n` entries as a matrix. -/
def intMatrix (m n : Nat) (rows : List (List Int)) : Matrix (Fin m) (Fin n) Int :=
  Matrix.of fun i j => (rows[i.val]?.bind fun row => row[j.val]?).getD 0

/-! ## Lemmas -/

/-- The loop counts the diagonal entries that `p` does not divide. -/
theorem codeRank_eq (smithNormalForm : List (List Int) → List (List Int)) (mat : List (List Int)) (p : Nat) :
    codeRank smithNormalForm mat p =
      (diagonalOfMat (smithNormalForm mat)).countP fun x => decide (¬ (p : Int) ∣ x) := by
  generalize hv : diagonalOfMat (smithNormalForm mat) = v
  have hloop : ∀ (l : List Int) (rank : Nat), (l.map fun x => (x, v.count x)).foldl (fun rank (x : Int × Nat) =>
      let r := x.1 % (p : Int)
      if ¬ r = 0 then rank + x.2 else rank) rank =
      rank + ((l.filter fun x => decide (¬ (p : Int) ∣ x)).map fun x => v.count x).sum := by
    intro l
    induction l with
    | nil => intro rank; rfl
    | cons x l ih =>
      intro rank
      have hdvd : x % (p : Int) = 0 ↔ (p : Int) ∣ x := Int.dvd_iff_emod_eq_zero.symm
      rw [List.map_cons, List.foldl_cons, ih, List.filter_cons]
      simp only [hdvd]
      by_cases h : (p : Int) ∣ x
      · simp [h]
      · simp [h, Nat.add_assoc]
  have hperm : (gapSet v).Perm v.dedup := by
    rw [List.perm_ext_iff_of_nodup (nodup_gapSet v) v.nodup_dedup]
    intro x
    rw [mem_gapSet, List.mem_dedup]
  unfold codeRank collected
  rw [hv, hloop, Nat.zero_add, ((hperm.filter _).map _).sum_eq]
  exact List.sum_map_count_dedup_filter_eq_countP _ v

section
variable {m n : Nat} {s : List (List Int)}

theorem diagonalOfMat_eq (hs : s.length = m) (hrows : ∀ row ∈ s, row.length = n) (hm : 0 < m) :
    diagonalOfMat s = List.ofFn (diag (intMatrix m n s)) := by
  obtain ⟨row, rest, rfl⟩ := List.exists_cons_of_length_pos (hs.symm ▸ hm)
  have hn : ((row :: rest).head?.map List.length).getD 0 = n := hrows row List.mem_cons_self
  unfold diagonalOfMat
  rw [hn]
  apply List.ext_getElem
  · rw [List.length_map, List.length_range, List.length_ofFn]
  · intro j h₁ h₂
    rw [List.getElem_map, List.getElem_range, List.getElem_ofFn]
    unfold diag intMatrix
    by_cases hj : j < m
    · rw [dif_pos hj]
      rfl
    · rw [dif_neg hj, List.getElem?_eq_none (by omega)]
      rfl

theorem countP_ofFn (f : Fin n → Int) (P : Int → Prop) [DecidablePred P] :
    (List.ofFn f).countP (fun x => decide (P x)) = Fintype.card { j : Fin n // P (f j) } := by
  rw [List.ofFn_eq_map, List.countP_map, Fintype.card_subtype, List.countP_eq_length_filter]
  rfl

end

/-! ## Top theorem -/

/-- **The rank of the code.**  For a matrix of `m ≥ 1` rows of `n` entries, with a diagonal form for the Smith
normal form, `CodeRank` returns the dimension of its row space modulo `p`. -/
theorem codeRank_rank {m n : Nat} (hm : 0 < m) (mat : List (List Int))
    {smithNormalForm : List (List Int) → List (List Int)} (hlen : (smithNormalForm mat).length = m)
    (hrows : ∀ row ∈ smithNormalForm mat, row.length = n)
    (hform : IsDiagonalForm (intMatrix m n mat) (intMatrix m n (smithNormalForm mat))) {p : Nat} (hp : p.Prime) :
    codeRank smithNormalForm mat p =
      Module.finrank (ZMod p) (Submodule.span (ZMod p)
        (Set.range fun (i : Fin m) (j : Fin n) => (intMatrix m n mat i j : ZMod p))) := by
  have : Fact p.Prime := ⟨hp⟩
  rw [codeRank_eq, diagonalOfMat_eq hlen hrows hm, countP_ofFn, ← hform.rank_modulo hp,
    Matrix.rank_eq_finrank_span_row]
  rfl

/-- Two rows of signs modulo 2, their Smith normal form written out. -/
theorem codeRank_rank_path :
    codeRank (fun _ => [[1, 0], [0, 2]]) [[1, 1], [1, -1]] 2 =
      Module.finrank (ZMod 2) (Submodule.span (ZMod 2)
        (Set.range fun (i : Fin 2) (j : Fin 2) => (intMatrix 2 2 [[1, 1], [1, -1]] i j : ZMod 2))) := by
  refine codeRank_rank (m := 2) (n := 2) (by decide) [[1, 1], [1, -1]] rfl (by decide) ⟨?_, ?_⟩ Nat.prime_two
  · intro i j hij
    fin_cases i <;> fin_cases j <;> first | rfl | exact absurd rfl hij
  refine ⟨!![1, 0; 1, -1], !![1, -1; 0, 1], ?_, ?_, ?_⟩
  · rw [Matrix.det_fin_two]
    decide
  · rw [Matrix.det_fin_two]
    decide
  · decide

end PdsSearch
