import PdsSearch.ConvolutionTable
import PdsSearch.Candidate

/-!
# Products in the group ring (`Convolution` of `1ConvolutionTable.txt`)

GAP keeps an element of the group ring as the list of its coefficients, in the
order of the elements: `e[1] + 2 e[3]` is `[1, 0, 2, 0, 0]`.  With a table of
`ConvolutionTable_f` the double loop of `Convolution` multiplies:

    convolution (table of x, y ↦ x * f y) a b = .ok (a * f(b))      (convolution_mul)

The counts of products that the C++ search and the Python checker make are such a
product: of the list of multiplicities with itself   (convolution_histogram).

`LeftTransversalList` lists numbers of representatives, one for each left coset.
-/

namespace PdsSearch

open Checked GroupRing Text
open MonoidAlgebra (single)

/-! ## Algorithm -/

/-- `Convolution` -/
def convolution (MT : List (Option (List (Option Int)))) (list1 list2 : List Int) :
    Except GapStop (List Int) := do
  let sizeMT := MT.length
  (List.range' 1 sizeMT).foldlM (fun conprod (i1 : Nat) =>
    (List.range' 1 sizeMT).foldlM (fun conprod (i2 : Nat) => do
      let i3 ← entry MT i1 i2
      gapPut conprod i3 ((← gapGet conprod i3) + (← gapGet list1 i1) * (← gapGet list2 i2))) conprod)
    (List.replicate sizeMT (0 : Int))

/-! ## The size of the table -/

section
variable {β : Type}

theorem length_holePut {v v' : List (Option β)} {i : Int} {b : β} (h : holePut v i b = .ok v') :
    v'.length = max v.length i.toNat := by
  unfold holePut at h
  split at h
  · cases h
  · split at h
    · rw [← Except.ok.inj h, List.length_set]
      omega
    · rw [← Except.ok.inj h, List.length_append, List.length_append, List.length_replicate,
        List.length_singleton]
      omega

end

section
variable {G : Type} [Group G] [Fintype G] [DecidableEq G] {e : List G}

/-- `ConvolutionTable_f` makes as many rows as there are elements. -/
theorem length_convolutionTableF {func : G → G} {CL : List (Option (List (Option Int)))}
    (h : convolutionTableF e func = .ok CL) : CL.length = Fintype.card G := by
  unfold convolutionTableF at h
  dsimp only at h
  obtain ⟨CL₀, h₀, h⟩ := exists_of_bind h
  have hfirst : ∀ (n : Nat) (CL₁ : List (Option (List (Option Int)))),
      (List.range' 1 n).foldlM (fun CL (i0 : Nat) => holePut CL i0 []) [] = .ok CL₁ → CL₁.length = n := by
    intro n
    induction n with
    | zero =>
      intro CL₁ h₁
      rw [← Except.ok.inj h₁]
      rfl
    | succ n ih =>
      intro CL₁ h₁
      rw [List.range'_1_concat, List.foldlM_append] at h₁
      obtain ⟨CL₂, h₂, h₁⟩ := exists_of_bind h₁
      simp only [List.foldlM_cons, List.foldlM_nil, bind_pure] at h₁
      rw [length_holePut h₁, ih CL₂ h₂]
      omega
  -- the other loops write into rows that exist
  have hstep : ∀ CL₁ (i1 : Nat) CL₂ (i2 i0 : Int), i1 ∈ List.range' 1 (Fintype.card G) →
      CL₁.length = Fintype.card G → assign CL₁ i1 i2 i0 = .ok CL₂ → CL₂.length = Fintype.card G := by
    intro CL₁ i1 CL₂ i2 i0 hi hlen hassign
    obtain ⟨row, -, hassign⟩ := exists_of_bind hassign
    obtain ⟨row', -, hassign⟩ := exists_of_bind hassign
    rw [List.mem_range'_1] at hi
    rw [length_holePut hassign, hlen]
    omega
  refine foldlM_inv (fun CL => CL.length = Fintype.card G) ?_ (hfirst _ _ h₀) h
  intro CL₁ i0 _ CL₂ hlen h₁
  refine foldlM_inv (fun CL => CL.length = Fintype.card G) ?_ hlen h₁
  intro CL₃ i1 hi1 CL₄ hlen h₂
  refine foldlM_inv (fun CL => CL.length = Fintype.card G) ?_ hlen h₂
  intro CL₅ i2 _ CL₆ hlen h₃
  obtain ⟨x, -, h₃⟩ := exists_of_bind h₃
  obtain ⟨y, -, h₃⟩ := exists_of_bind h₃
  obtain ⟨z, -, h₃⟩ := exists_of_bind h₃
  split at h₃
  · exact hstep _ _ _ _ _ hi1 hlen h₃
  · rwa [← Except.ok.inj h₃]

end

/-! ## Lists of coefficients -/

section
variable {G : Type} {e : List G}

/-- The element of the group ring with the coefficients `list`. -/
noncomputable def ringElem (e : List G) (list : List Int) : MonoidAlgebra Int G :=
  (List.zipWith (fun x c => single x c) e list).sum

/-- The coefficients of an element. -/
noncomputable def coeffs (e : List G) (a : MonoidAlgebra Int G) : List Int := e.map fun x => a.coeff x

variable [Fintype G] [DecidableEq G]

theorem sum_elements {A : Type} [AddCommMonoid A] (hnd : e.Nodup) (hall : ∀ x, x ∈ e) (g : G → A) :
    (e.map g).sum = ∑ x, g x := by
  rw [← List.sum_toFinset g hnd, Finset.eq_univ_iff_forall.2 fun x => List.mem_toFinset.2 (hall x)]

omit [DecidableEq G] in
theorem eq_sum_single (a : MonoidAlgebra Int G) : a = ∑ x, single x (a.coeff x) := by
  ext z
  rw [MonoidAlgebra.coeff_sum, Finsupp.finsetSum_apply, Finset.sum_eq_single z]
  · simp
  · intro x _ hx
    simp [hx]
  · intro hz
    exact absurd (Finset.mem_univ z) hz

omit [DecidableEq G] in
theorem mapDomain_eq_sum (f : G → G) (b : MonoidAlgebra Int G) :
    MonoidAlgebra.mapDomain f b = ∑ y, single (f y) (b.coeff y) := by
  let F : MonoidAlgebra Int G →+ MonoidAlgebra Int G :=
    AddMonoidHom.mk' (MonoidAlgebra.mapDomain f) (MonoidAlgebra.mapDomain_add f)
  calc MonoidAlgebra.mapDomain f b = F (∑ y, single y (b.coeff y)) := by rw [← eq_sum_single b]; rfl
    _ = ∑ y, F (single y (b.coeff y)) := map_sum F _ _
    _ = _ := Finset.sum_congr rfl fun y _ => MonoidAlgebra.mapDomain_single

theorem ringElem_coeffs (hnd : e.Nodup) (hall : ∀ x, x ∈ e) (a : MonoidAlgebra Int G) :
    ringElem e (coeffs e a) = a := by
  unfold ringElem coeffs
  rw [List.zipWith_map_right, List.zipWith_self, sum_elements hnd hall, ← eq_sum_single]

/-- Every list of the right length is a list of coefficients. -/
theorem exists_coeffs (hnd : e.Nodup) {list : List Int} (hlen : list.length = e.length) :
    ∃ a, coeffs e a = list := by
  let f : G → Int := fun x => list.getD (e.idxOf x) 0
  refine ⟨.ofCoeff (Finsupp.equivFunOnFinite.symm f), ?_⟩
  show e.map f = list
  apply List.ext_getElem
  · rw [List.length_map, hlen]
  · intro i h1 h2
    rw [List.getElem_map]
    show list.getD (e.idxOf e[i]) 0 = _
    rw [hnd.idxOf_getElem i, List.getD_eq_getElem _ _ h2]

omit [Fintype G] in
theorem gapGet_coeffs {x : G} (hx : x ∈ e) (a : MonoidAlgebra Int G) :
    gapGet (coeffs e a) (position e x) = .ok (a.coeff x) := by
  have hlt : e.idxOf x < (coeffs e a).length := by
    rw [coeffs, List.length_map]
    exact List.idxOf_lt_length_of_mem hx
  unfold gapGet position
  rw [if_neg (by omega), show ((e.idxOf x : Int) + 1 - 1).toNat = e.idxOf x by omega,
    List.getElem?_eq_getElem hlt]
  simp only [coeffs, List.getElem_map, List.getElem_idxOf]

omit [Fintype G] in
theorem gapPut_coeffs (hnd : e.Nodup) {x : G} (hx : x ∈ e) (a : MonoidAlgebra Int G) (c : Int) :
    gapPut (coeffs e a) (position e x) (a.coeff x + c) = .ok (coeffs e (a + single x c)) := by
  unfold coeffs
  rw [gapPut_map hnd hx]
  congr 2
  ext y
  rw [Function.update_apply, MonoidAlgebra.coeff_add, Finsupp.add_apply, MonoidAlgebra.coeff_single,
    Finsupp.single_apply]
  by_cases hxy : y = x
  · rw [if_pos hxy, if_pos hxy.symm, hxy]
  · rw [if_neg hxy, if_neg fun h => hxy h.symm, add_zero]

variable [Group G]

/-- **The double loop multiplies.** -/
theorem convolution_coeffs (hnd : e.Nodup) (hall : ∀ x, x ∈ e) {func : G → G}
    {MT : List (Option (List (Option Int)))} (hMT : convolutionTableF e func = .ok MT)
    (a b : MonoidAlgebra Int G) :
    convolution MT (coeffs e a) (coeffs e b) = .ok (coeffs e (a * MonoidAlgebra.mapDomain func b)) := by
  obtain ⟨MT', hMT', hentry⟩ := convolutionTableF_ok hnd hall func
  obtain rfl : MT = MT' := Except.ok.inj (hMT.symm.trans hMT')
  have hlen : MT.length = e.length := by rw [length_convolutionTableF hMT, length_eq_card hnd hall]
  have hround : ∀ (x y : G) (r : MonoidAlgebra Int G), (do
      let i3 ← entry MT (position e x) (position e y)
      gapPut (coeffs e r) i3 ((← gapGet (coeffs e r) i3) +
        (← gapGet (coeffs e a) (position e x)) * (← gapGet (coeffs e b) (position e y)))) =
      .ok (coeffs e (r + single (x * func y) (a.coeff x * b.coeff y))) := by
    intro x y r
    rw [hentry, ok_bind, gapGet_coeffs (hall _), ok_bind, gapGet_coeffs (hall x), ok_bind,
      gapGet_coeffs (hall y), ok_bind, gapPut_coeffs hnd (hall _)]
  have hzero : List.replicate MT.length (0 : Int) = coeffs e 0 := by
    unfold coeffs
    rw [hlen]
    exact List.map_const'.symm
  have hsum : (e.map fun x => (e.map fun y => single (x * func y) (a.coeff x * b.coeff y)).sum).sum =
      a * MonoidAlgebra.mapDomain func b := by
    conv_rhs => rw [eq_sum_single a]
    rw [mapDomain_eq_sum, Finset.sum_mul_sum, sum_elements hnd hall]
    refine Finset.sum_congr rfl fun x _ => ?_
    rw [sum_elements hnd hall]
    exact Finset.sum_congr rfl fun y _ => (MonoidAlgebra.single_mul_single ..).symm
  unfold convolution
  dsimp only
  rw [hzero, hlen]
  refine (foldlM_positions hnd (fun s x => foldlM_positions hnd (fun s y => rfl) s) _).trans ?_
  rw [foldlM_conc (coeffs e) _ (fun r x => r + (e.map fun y =>
    single (x * func y) (a.coeff x * b.coeff y)).sum), foldl_add_sum, zero_add, hsum]
  intro r x _
  rw [foldlM_conc (coeffs e) _ (fun r y => r + single (x * func y) (a.coeff x * b.coeff y)),
    foldl_add_sum]
  intro r y _
  exact hround x y r

/-! ## Products -/

/-- **`Convolution` multiplies.**  With the table `ConvolutionTable_f` makes for `func`, any two
lists of coefficients give the coefficients of `list1 * func(list2)`. -/
theorem convolution_mul (hnd : e.Nodup) (hall : ∀ x, x ∈ e) (func : G → G) (list1 list2 : List Int)
    (h1 : list1.length = e.length) (h2 : list2.length = e.length) : ∃ MT conprod,
    convolutionTableF e func = .ok MT ∧ convolution MT list1 list2 = .ok conprod ∧
      conprod.length = e.length ∧
      ringElem e conprod = ringElem e list1 * MonoidAlgebra.mapDomain func (ringElem e list2) := by
  obtain ⟨MT, hMT, -⟩ := convolutionTableF_ok hnd hall func
  obtain ⟨a, rfl⟩ := exists_coeffs hnd h1
  obtain ⟨b, rfl⟩ := exists_coeffs hnd h2
  refine ⟨MT, _, hMT, convolution_coeffs hnd hall hMT a b, List.length_map _, ?_⟩
  rw [ringElem_coeffs hnd hall, ringElem_coeffs hnd hall, ringElem_coeffs hnd hall]

/-- In the group of order two, with the table of quotients. -/
theorem convolution_mul_signs : ∃ MT conprod, convolutionTableF signs (fun x => x⁻¹) = .ok MT ∧
    convolution MT [2, 3] [0, 1] = .ok conprod ∧ conprod.length = 2 ∧
    ringElem signs conprod =
      ringElem signs [2, 3] * MonoidAlgebra.mapDomain (fun x => x⁻¹) (ringElem signs [0, 1]) :=
  convolution_mul (by decide) (by decide) (fun x => x⁻¹) [2, 3] [0, 1] rfl rfl

/-! ## Histograms -/

omit [Fintype G] in
/-- A histogram over the table, read in the group. -/
theorem hist_eq_coeffs {T : GroupTable e.length} (φ : T.Elem ≃* G) (hall : ∀ x, x ∈ e)
    (hidx : ∀ a, T.idx a = e.idxOf (φ a)) {a : MonoidAlgebra Int T.Elem} {b : MonoidAlgebra Int G}
    (hab : ∀ x, a.coeff x = b.coeff (φ x)) : T.hist a = coeffs e b := by
  refine T.hist_eq_of_vget (List.length_map _) fun x => ?_
  have hlt : e.idxOf (φ x) < (coeffs e b).length := by
    rw [coeffs, List.length_map]
    exact List.idxOf_lt_length_of_mem (hall _)
  rw [hidx, vget_nat _ _ hlt, hab]
  simp only [coeffs, List.getElem_map, List.getElem_idxOf]

/-- The multiplicities of the indices `S`. -/
def multiplicities (n : Nat) (S : List Int) : List Int :=
  (List.range n).map fun (i : Nat) => (S.count (i : Int) : Int)

theorem hist_formal {n : Nat} (T : Table n) (xs : List T.Elem) :
    T.hist (formal Int xs) = multiplicities n (T.ints xs) := by
  refine T.hist_eq_of_vget (by simp [multiplicities]) fun x => ?_
  have hx := T.idx_bounds x
  have hlt : Fin.val x < (multiplicities n (T.ints xs)).length := by
    rw [multiplicities, List.length_map, List.length_range]
    exact Fin.isLt x
  have hcount : (T.ints xs).count (T.idx x) = xs.count x :=
    List.count_map_of_injective xs T.idx (fun y z h => (T.idx_inj y z).1 h) x
  show vget _ ((Fin.val x : Nat) : Int) = _
  rw [vget_nat _ _ hlt, coeff_formal, ← hcount]
  simp only [multiplicities, List.getElem_map, List.getElem_range]
  rfl

/-- **One count of products, in three languages.**  For any list of indices, repeats allowed, the
double loop of the C++ search and that of the Python checker over the multiplication table give
the list that `Convolution` makes in GAP of the multiplicities. -/
theorem convolution_histogram (hnd : e.Nodup) (hall : ∀ x, x ∈ e) (hone : e.head? = some 1) {d : Dims}
    (hn : d.n = e.length) (S : List Int) (hk : S.length = d.k) (hS : ∀ i ∈ S, 0 ≤ i ∧ i < d.n) :
    ∃ MT sums, convolutionTableF e (fun x => x) = .ok MT ∧
      convolution MT (multiplicities d.n S) (multiplicities d.n S) = .ok sums ∧
      tally d (cayley e) S (List.replicate d.n (0 : Int)) = .ok sums ∧
      pairSums (cayley e) S (List.replicate d.n 0) = .ok sums := by
  obtain ⟨n, k, lam, mu⟩ := d
  dsimp only at hn hk hS
  subst hn
  obtain ⟨T, φ, hct, hidx⟩ := exists_groupTable hnd hall hone
  obtain ⟨MT, hMT, -⟩ := convolutionTableF_ok hnd hall fun x => x
  obtain ⟨xs, rfl⟩ := T.exists_ints S hS
  rw [T.length_ints] at hk
  let a : MonoidAlgebra Int G := formal Int (xs.map φ)
  have hlist : multiplicities e.length (T.ints xs) = coeffs e a := by
    rw [← hist_formal, hist_eq_coeffs φ hall hidx]
    intro x
    rw [coeff_formal, coeff_formal, List.count_map_of_injective _ _ φ.injective]
  have hsq : T.hist (formal Int xs * formal Int xs) = coeffs e (a * a) :=
    hist_eq_coeffs φ hall hidx fun x =>
      (coeff_formal_map_mul φ.toEquiv (.inl φ.map_mul) xs x).symm
  have hconv := convolution_coeffs hnd hall hMT a a
  have hid : MonoidAlgebra.mapDomain (fun x => x) a = a := by
    rw [mapDomain_eq_sum]
    exact (eq_sum_single a).symm
  rw [hid] at hconv
  refine ⟨MT, coeffs e (a * a), hMT, ?_, ?_, ?_⟩
  · rw [hlist]
    exact hconv
  · rw [← hct, ← hsq]
    have htally := tally_spec (d := ⟨e.length, k, lam, mu⟩) T.toTable xs hk (0 : MonoidAlgebra Int T.Elem)
    rwa [T.hist_zero, zero_add] at htally
  · rw [← hct, ← hsq]
    exact pairSums_spec T.toTable xs

/-- In the group of order two: the identity once, the other element twice. -/
theorem convolution_histogram_signs : ∃ MT sums, convolutionTableF signs (fun x => x) = .ok MT ∧
    convolution MT (multiplicities 2 [1, 0, 1]) (multiplicities 2 [1, 0, 1]) = .ok sums ∧
    tally ⟨2, 3, 0, 0⟩ (cayley signs) [1, 0, 1] (List.replicate 2 (0 : Int)) = .ok sums ∧
    pairSums (cayley signs) [1, 0, 1] (List.replicate 2 0) = .ok sums :=
  convolution_histogram (d := ⟨2, 3, 0, 0⟩) (by decide) (by decide) rfl rfl [1, 0, 1] rfl (by decide)

end

/-! ## Cosets -/

section
variable {G : Type} [Group G] [DecidableEq G]

/-- `LeftTransversalList`, `rt` being `RightTransversal(group, subgroup)`. -/
def leftTransversalList (elements rt : List G) : List Int := rt.map fun t => position elements t⁻¹

/-- With one `t` for each right coset, there is one listed number for each left coset. -/
theorem leftTransversalList_cosets {e rt : List G} (hall : ∀ x, x ∈ e) (H : Subgroup G)
    (hrt : ∀ x, ∃! t, t ∈ rt ∧ x * t⁻¹ ∈ H) (x : G) :
    ∃! i, i ∈ leftTransversalList e rt ∧ ∃ g, gapGet e i = .ok g ∧ g⁻¹ * x ∈ H := by
  have hcoset : ∀ t, (t⁻¹)⁻¹ * x ∈ H ↔ x⁻¹ * t⁻¹ ∈ H := by
    intro t
    rw [← H.inv_mem_iff, mul_inv_rev, inv_inv]
  unfold leftTransversalList
  obtain ⟨t, ⟨ht, hmem⟩, huniq⟩ := hrt x⁻¹
  refine ⟨position e t⁻¹, ⟨List.mem_map_of_mem ht, t⁻¹, gapGet_position (hall _), (hcoset t).2 hmem⟩, ?_⟩
  rintro i ⟨hi, g, hg, hgx⟩
  obtain ⟨s, hs, rfl⟩ := List.mem_map.1 hi
  rw [gapGet_position (hall _)] at hg
  obtain rfl := Except.ok.inj hg
  rw [huniq s ⟨hs, (hcoset s).1 hgx⟩]

end

end PdsSearch
