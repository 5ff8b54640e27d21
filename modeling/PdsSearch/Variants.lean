import PdsSearch.Scan

/-!
# `search` and `search_old` on one random stream

The two functions differ in the initial pair of a round only: `search` tries it,
`search_old` starts after it.

    no initial pair of the first j rounds improves → the rounds agree up to round j
    no initial pair improves → same result, same random values drawn   (search_old_agrees)
-/

namespace PdsSearch

open Checked

variable {d : Dims}

/-- The swap of `m` is one that lowers the error of the list. -/
def Improving {α : Type} [Add α] [Sub α] [Mul α] [Neg α] [LT α] [DecidableLT α] [IntCast α]
    (d : Dims) (ct : List (List Int)) (e : ErrorCalc α) (S : List Int) (m : Int × Int) : Prop :=
  m.2 ∉ S ∧ ∃ S' err err', vset S m.1 m.2 = .ok S' ∧ error d ct S e = .ok err ∧
    error d ct S' e = .ok err' ∧ err' < err

theorem improving_iff {α : Type} [CommRing α] [LinearOrder α] {T : Table d.n} {e : ErrorCalc α}
    {norm : (T.Elem → α) → α} (hM : Measures T e norm) (v : Variant) (c : Candidate T)
    {m : Int × Int} (hm : InRange d m) :
    Improving d T.ct e (T.ints c.xs) m ↔ (descent T norm v).improve c m ≠ none := by
  constructor
  · rintro ⟨hmem, S', err, err', hset, herr, herr', hlt⟩
    obtain ⟨c', hc'⟩ : ∃ c', c.swap m = some c' :=
      Option.ne_none_iff_exists'.1 fun h => hmem ((c.swap_eq_none hm).1 h)
    rw [c.swap_vset hm hc'] at hset
    rw [← Except.ok.inj hset, error_candidate hM] at herr'
    rw [error_candidate hM] at herr
    have herr_lt : c'.err norm < c.err norm := by
      rwa [Except.ok.inj herr, Except.ok.inj herr']
    rw [improve_of_lt v hc' herr_lt]
    simp
  · intro h
    obtain ⟨c', hc'⟩ := Option.ne_none_iff_exists'.1 h
    obtain ⟨hswap, hlt⟩ := (descent T norm v).improve_eq_some.1 hc'
    have hmem : m.2 ∉ T.ints c.xs := by
      intro hmem
      have hnone : c.swap m = none := (c.swap_eq_none hm).2 hmem
      change c.swap m = some c' at hswap
      rw [hnone] at hswap
      cases hswap
    exact ⟨hmem, _, _, _, c.swap_vset hm hswap, error_candidate hM c, error_candidate hM c', hlt⟩

/-- **The two searches agree** until a round whose initial pair improves.  From one start set
and one random stream both return; when no initial pair of the first `j` rounds is an
improving swap, the first `j + 1` rounds have the same candidate lists and initial pairs; when
none is at all, the pair returned and the number of random values drawn are the same. -/
theorem search_old_agrees {α : Type} [CommRing α] [LinearOrder α] (T : Table d.n) (hk : 1 ≤ d.k)
    (hkn : d.k ≤ d.n - 1) (e : ErrorCalc α) (he : e ∈ (calculators : List (ErrorCalc α)))
    (o : ArgOrder) (rs : Nat → Nat) (fuel pos pos' : Nat) (S : List Int) (isMember : List Bool)
    (hsel : selectStartSet fuel d rs pos (List.replicate d.k (-1)) (List.replicate d.n false) =
      .ok (S, isMember, pos')) :
    ∃ out es out' es',
      Returns (fun fuel => localSearch .new fuel o d T.ct rs pos e) (out, es) ∧
      Returns (fun fuel => localSearch .old fuel o d T.ct rs pos e) (out', es') ∧
      (∀ j, (∀ ρ ∈ (rounds es).take j, ¬ Improving d T.ct e ρ.1 ρ.2) →
        (rounds es).take (j + 1) = (rounds es').take (j + 1)) ∧
      ((∀ ρ ∈ rounds es, ¬ Improving d T.ct e ρ.1 ρ.2) → rounds es' = rounds es ∧ out' = out) := by
  have hn : 1 < d.n := by omega
  obtain ⟨norm, hM⟩ := exists_norm T (by omega) e he
  obtain ⟨c, rfl, rfl⟩ := selectStartSet_ok T rs (by omega) fuel pos _ _ _ hsel
  obtain ⟨start, hdraw⟩ := exists_start (d := d) o rs pos' hk hn
  obtain ⟨tr, z, es, hR, htr, hret⟩ :=
    localSearch_complete .new o rs hM hk hn hsel fun r => (hdraw r).1
  obtain ⟨tr', z', es', hR', htr', hret'⟩ :=
    localSearch_complete .old o rs hM hk hn hsel fun r => (hdraw r).1
  have hnbr : (descent T norm .old).nbr = (descent T norm .new).nbr := rfl
  have hcost : (descent T norm .old).cost = (descent T norm .new).cost := rfl
  obtain ⟨hpre, hall⟩ := hR.agree hnbr hcost (fun r => scanOrder_new hk hn (start r)) hR'
  -- what the rounds show of the descent
  have hshow : ∀ (tr : List (Round (Candidate T) (Int × Int))) (j : Nat),
      (tr.map fun ρ => (T.ints ρ.cur.xs, ρ.start)).take j =
        ((tr.map fun ρ => (ρ.cur, ρ.start)).take j).map fun p => (T.ints p.1.xs, p.2) := by
    intro tr j
    rw [← List.map_take, ← List.map_take, List.map_map]
    rfl
  have hnone : ∀ ρ ∈ tr, ¬ Improving d T.ct e (T.ints ρ.cur.xs) ρ.start →
      (descent T norm .new).improve ρ.cur ρ.start = none := by
    intro ρ hρ h
    obtain ⟨r, hr⟩ := hR.exists_start ρ hρ
    rw [improving_iff hM .new ρ.cur (hr ▸ (hdraw r).2)] at h
    exact not_not.1 h
  refine ⟨_, es, _, es', hret, hret', ?_, ?_⟩
  · intro j hj
    rw [htr.rounds_eq, ← List.map_take] at hj
    have := hpre j fun ρ hρ => hnone ρ (List.mem_of_mem_take hρ) (hj _ (List.mem_map_of_mem hρ))
    rw [htr.rounds_eq, htr'.rounds_eq, hshow, hshow, this]
  · intro h
    rw [htr.rounds_eq] at h
    obtain ⟨rfl, rfl⟩ := hall fun ρ hρ => hnone ρ hρ (h _ (List.mem_map_of_mem hρ))
    rw [htr.rounds_eq, htr'.rounds_eq]
    exact ⟨rfl, rfl⟩

/-- From the set `{1, 2}`, where the pair `(0, 4)` drawn first does not improve. -/
theorem search_old_agrees_cyclic : ∃ out es out' es',
    Returns (fun fuel => localSearch .new fuel .leftFirst ⟨5, 2, 0, 1⟩ (cyclicTable 5).ct id 0
      (l1Error : ErrorCalc Int)) (out, es) ∧
    Returns (fun fuel => localSearch .old fuel .leftFirst ⟨5, 2, 0, 1⟩ (cyclicTable 5).ct id 0 l1Error)
      (out', es') ∧
    ((∀ ρ ∈ rounds es, ¬ Improving ⟨5, 2, 0, 1⟩ (cyclicTable 5).ct l1Error ρ.1 ρ.2) →
      rounds es' = rounds es ∧ out' = out) :=
  have h := search_old_agrees (d := ⟨5, 2, 0, 1⟩) (cyclicTable 5).toTable (by decide) (by decide) l1Error
    (by simp [calculators]) .leftFirst id 5 0 2 [1, 2] [false, true, true, false, false] rfl
  let ⟨out, es, out', es', hnew, hold, _, hall⟩ := h
  ⟨out, es, out', es', hnew, hold, hall⟩

end PdsSearch
