import PdsSearch.Lib.Checked

/-!
# Machines: deterministic programs one step at a time

A `Machine` is a step function on configurations.  A step halts with a result,
goes on to the next configuration while emitting events, or stops with an
error.  `Run M s es t`: some steps lead from `s` to `t` and emit `es`.
`exec fuel s` runs at most `fuel` steps.

    Run M s es t → M.step t = .ok (.halt r) → ∃ fuel, M.exec fuel s = .ok (r, es)   (exec_of_run)
    M.exec fuel s = .ok (r, es) → ∃ t, Run M s es t ∧ M.step t = .ok (.halt r)      (run_of_exec)

An invariant kept by every step holds in every configuration reached (`Run.inv`).
A function of a fuel that only ever gains answers is `FuelMono`; what such a
function returns is unique (`Returns`).
-/

namespace Checked

/-! ## Functions of a fuel -/

section
variable {β γ : Type}

/-- `f` returns `b`: with enough fuel it does, and it never returns anything else. -/
def Returns (f : Nat → Except Stop β) (b : β) : Prop :=
  (∃ fuel, f fuel = .ok b) ∧ ∀ fuel b', f fuel = .ok b' → b' = b

/-- More fuel never changes an answer. -/
def FuelMono (f : Nat → Except Stop β) : Prop :=
  ∀ fuel b, f fuel = .ok b → ∀ fuel', fuel ≤ fuel' → f fuel' = .ok b

theorem FuelMono.returns {f : Nat → Except Stop β} (hf : FuelMono f) {fuel : Nat} {b : β}
    (h : f fuel = .ok b) : Returns f b := by
  refine ⟨⟨fuel, h⟩, fun fuel' b' h' => ?_⟩
  have h1 := hf fuel b h (max fuel fuel') (Nat.le_max_left _ _)
  have h2 := hf fuel' b' h' (max fuel fuel') (Nat.le_max_right _ _)
  rw [h1] at h2
  exact (Except.ok.inj h2).symm

theorem FuelMono.const (x : Except Stop β) : FuelMono fun _ => x :=
  fun _ _ h _ _ => h

theorem Returns.unique {f : Nat → Except Stop β} {b b' : β} (h : Returns f b) (h' : Returns f b') :
    b = b' := by
  obtain ⟨fuel, hfuel⟩ := h.1
  exact h'.2 fuel b hfuel

theorem Returns.const (b : β) : Returns (fun _ => .ok b) b :=
  ⟨⟨0, rfl⟩, fun _ _ h => (Except.ok.inj h).symm⟩

theorem FuelMono.bind {f : Nat → Except Stop β} {g : β → Nat → Except Stop γ} (hf : FuelMono f)
    (hg : ∀ b, FuelMono (g b)) : FuelMono fun fuel => f fuel >>= fun b => g b fuel := by
  intro fuel c h fuel' hle
  cases hb : f fuel with
  | error e => simp only [hb] at h; cases h
  | ok b =>
    simp only [hb] at h
    simp only [hf fuel b hb fuel' hle]
    exact hg b fuel c h fuel' hle

theorem FuelMono.map {f : Nat → Except Stop β} (hf : FuelMono f) (g : β → γ) :
    FuelMono fun fuel => g <$> f fuel := by
  intro fuel c h fuel' hle
  cases hb : f fuel with
  | error e => simp only [hb] at h; cases h
  | ok b =>
    simp only [hb] at h
    simp only [hf fuel b hb fuel' hle]
    exact h

/-- Two parts that return, with whatever fuel, return together. -/
theorem FuelMono.bind_returns {f : Nat → Except Stop β} {g : β → Nat → Except Stop γ}
    (hf : FuelMono f) (hg : ∀ b, FuelMono (g b)) {fuel fuel' : Nat} {b : β} {c : γ}
    (h : f fuel = .ok b) (h' : g b fuel' = .ok c) :
    Returns (fun fuel => f fuel >>= fun b => g b fuel) c := by
  have h1 := hf fuel b h (max fuel fuel') (Nat.le_max_left _ _)
  have h2 := hg b fuel' c h' (max fuel fuel') (Nat.le_max_right _ _)
  have h3 : (f (max fuel fuel') >>= fun b => g b (max fuel fuel')) = .ok c := by
    rw [h1]
    exact h2
  exact (hf.bind hg).returns h3

theorem FuelMono.foldlM {ι : Type} {f : Nat → β → ι → Except Stop β}
    (hf : ∀ b i, FuelMono fun fuel => f fuel b i) (l : List ι) :
    ∀ b, FuelMono fun fuel => l.foldlM (f fuel) b := by
  induction l with
  | nil => intro b; exact .const _
  | cons i l ih =>
    intro b
    simp only [List.foldlM_cons]
    exact (hf b i).bind ih

/-- **A loop whose rounds all return.** -/
theorem Returns.foldlM {ι : Type} {f : Nat → β → ι → Except Stop β} {g : β → ι → β} {l : List ι} :
    (∀ i ∈ l, ∀ b, FuelMono fun fuel => f fuel b i) →
    (∀ i ∈ l, ∀ b, Returns (fun fuel => f fuel b i) (g b i)) →
    ∀ b, FuelMono (fun fuel => l.foldlM (f fuel) b) ∧
      Returns (fun fuel => l.foldlM (f fuel) b) (l.foldl g b) := by
  induction l with
  | nil =>
    intro _ _ b
    exact ⟨.const _, .const b⟩
  | cons i l ih =>
    intro hf hret b
    have hrest := ih (fun j hj => hf j (List.mem_cons_of_mem i hj))
      fun j hj => hret j (List.mem_cons_of_mem i hj)
    have hi := hf i List.mem_cons_self b
    obtain ⟨⟨fuel, hfuel⟩, -⟩ := hret i List.mem_cons_self b
    obtain ⟨⟨fuel', hfuel'⟩, -⟩ := (hrest (g b i)).2
    simp only [List.foldlM_cons, List.foldl_cons]
    exact ⟨hi.bind fun b => (hrest b).1, hi.bind_returns (fun b => (hrest b).1) hfuel hfuel'⟩

theorem Returns.map {f : Nat → Except Stop β} {b : β} (h : Returns f b) (g : β → γ) :
    Returns (fun fuel => g <$> f fuel) (g b) := by
  obtain ⟨⟨fuel, hf⟩, hu⟩ := h
  refine ⟨⟨fuel, by simp only [hf]; rfl⟩, fun fuel' c hc => ?_⟩
  cases hb : f fuel' with
  | error e => simp only [hb] at hc; cases hc
  | ok b' =>
    simp only [hb] at hc
    rw [← hu fuel' b' hb]
    exact (Except.ok.inj hc).symm

end

/-! ## Machines -/

/-- What a step does. -/
inductive Next (σ ε ρ : Type)
  | halt (r : ρ)
  | goto (events : List ε) (s : σ)

structure Machine (σ ε ρ : Type) where
  step : σ → Except Stop (Next σ ε ρ)

variable {σ ε ρ : Type}

/-- Run at most `fuel` steps: the result and the events. -/
def Machine.exec (M : Machine σ ε ρ) : Nat → σ → Except Stop (ρ × List ε)
  | 0, _ => .error .timeout
  | fuel + 1, s =>
    match M.step s with
    | .error e => .error e
    | .ok (.halt r) => .ok (r, [])
    | .ok (.goto es t) =>
      match M.exec fuel t with
      | .error e => .error e
      | .ok (r, fs) => .ok (r, es ++ fs)

/-- Exactly `n` steps, none of which halts: the events and the configuration reached. -/
def Machine.walk (M : Machine σ ε ρ) : Nat → σ → Option (List ε × σ)
  | 0, s => some ([], s)
  | n + 1, s =>
    match M.step s with
    | .ok (.goto es t) => (M.walk n t).map fun (fs, u) => (es ++ fs, u)
    | _ => none

/-- Some steps from `s` to `t`, with the events they emit. -/
inductive Run (M : Machine σ ε ρ) : σ → List ε → σ → Prop
  | refl (s : σ) : Run M s [] s
  | next {s t u : σ} {es fs : List ε} :
      M.step s = .ok (.goto es t) → Run M t fs u → Run M s (es ++ fs) u

namespace Run

variable {M : Machine σ ε ρ} {s t u : σ} {es fs : List ε}

theorem one (h : M.step s = .ok (.goto es t)) : Run M s es t := by
  have := Run.next h (.refl t)
  rwa [List.append_nil] at this

theorem trans (h1 : Run M s es t) (h2 : Run M t fs u) : Run M s (es ++ fs) u := by
  induction h1 with
  | refl => exact h2
  | next h _ ih =>
    rw [List.append_assoc]
    exact .next h (ih h2)

/-- The first step of a run, if there is one. -/
theorem first (h : Run M s es t) : (t = s ∧ es = []) ∨
    ∃ u es₁ es₂, M.step s = .ok (.goto es₁ u) ∧ Run M u es₂ t ∧ es = es₁ ++ es₂ := by
  cases h with
  | refl => exact .inl ⟨rfl, rfl⟩
  | next h hrun => exact .inr ⟨_, _, _, h, hrun, rfl⟩

/-- A run computed step by step. -/
theorem of_walk {n : Nat} (h : M.walk n s = some (es, t)) : Run M s es t := by
  induction n generalizing s es with
  | zero =>
    cases h
    exact .refl _
  | succ n ih =>
    rw [Machine.walk] at h
    split at h
    · next hstep =>
      obtain ⟨⟨fs, u⟩, hwalk, heq⟩ := Option.map_eq_some_iff.1 h
      cases heq
      exact .next hstep (ih hwalk)
    · cases h

/-- **Invariant rule.** -/
theorem inv (I : σ → Prop) (hstep : ∀ s es t, I s → M.step s = .ok (.goto es t) → I t)
    (h : Run M s es t) (hs : I s) : I t := by
  induction h with
  | refl => exact hs
  | next h _ ih => exact ih (hstep _ _ _ hs h)

/-- A run that ends passes through every state the machine reaches. -/
theorem to_halt {r : ρ} (h : Run M s es t) (h' : Run M s fs u) (hu : M.step u = .ok (.halt r)) :
    ∃ gs, Run M t gs u ∧ fs = es ++ gs := by
  induction h generalizing fs with
  | refl => exact ⟨fs, h', rfl⟩
  | next hstep _ ih =>
    cases h' with
    | refl => rw [hstep] at hu; cases hu
    | next hstep' hrun =>
      rw [hstep] at hstep'
      cases hstep'
      obtain ⟨gs, hgs, rfl⟩ := ih hrun
      exact ⟨gs, hgs, (List.append_assoc _ _ _).symm⟩

end Run

namespace Machine

variable (M : Machine σ ε ρ)

theorem exec_mono : ∀ (s : σ), FuelMono fun fuel => M.exec fuel s := by
  intro s fuel
  induction fuel generalizing s with
  | zero => intro b h; cases h
  | succ fuel ih =>
    intro b h fuel' hle
    obtain ⟨m, rfl⟩ : ∃ m, fuel' = m + 1 := ⟨fuel' - 1, by omega⟩
    simp only [exec] at h ⊢
    split at h
    · cases h
    · exact h
    · next es t hs =>
      split at h
      · cases h
      · next r fs ht =>
        simp only [ih t _ ht m (by omega)]
        exact h

theorem exec_of_run {s t : σ} {es : List ε} {r : ρ} (h : Run M s es t)
    (ht : M.step t = .ok (.halt r)) : ∃ fuel, M.exec fuel s = .ok (r, es) := by
  induction h with
  | refl => exact ⟨1, by simp only [exec, ht]⟩
  | next hs _ ih =>
    obtain ⟨fuel, hf⟩ := ih ht
    exact ⟨fuel + 1, by simp only [exec, hs, hf]⟩

theorem run_of_exec {fuel : Nat} {r : ρ} : ∀ {s : σ} {es : List ε}, M.exec fuel s = .ok (r, es) →
    ∃ t, Run M s es t ∧ M.step t = .ok (.halt r) := by
  induction fuel with
  | zero => intro s es h; cases h
  | succ fuel ih =>
    intro s es h
    simp only [exec] at h
    split at h
    · cases h
    · next r' hs =>
      obtain ⟨rfl, rfl⟩ := Prod.mk.inj (Except.ok.inj h)
      exact ⟨s, .refl s, hs⟩
    · next fs t hs =>
      split at h
      · cases h
      · next r' gs ht =>
        obtain ⟨rfl, rfl⟩ := Prod.mk.inj (Except.ok.inj h)
        obtain ⟨u, hu, hhalt⟩ := ih ht
        exact ⟨u, .next hs hu, hhalt⟩

/-- **Safety rule.**  When no step stops where the invariant holds, a run only ever runs out of
fuel. -/
theorem exec_timeout (I : σ → Prop) (hinv : ∀ s es t, I s → M.step s = .ok (.goto es t) → I t)
    (hstep : ∀ s, I s → ∃ next, M.step s = .ok next) {fuel : Nat} {x : Stop} :
    ∀ {s : σ}, I s → M.exec fuel s = .error x → x = .timeout := by
  induction fuel with
  | zero =>
    intro s _ h
    exact (Except.error.inj h).symm
  | succ fuel ih =>
    intro s hs h
    obtain ⟨next, hnext⟩ := hstep s hs
    simp only [exec, hnext] at h
    cases next with
    | halt r => cases h
    | goto es t =>
      have ht := hinv s es t hs hnext
      simp only at h
      split at h
      · next y hy =>
        obtain rfl := Except.error.inj h
        exact ih ht hy
      · cases h

end Machine

/-! ## Images -/

section
variable {σ' ε' ρ' : Type} {M : Machine σ ε ρ} {N : Machine σ' ε' ρ'} {fσ : σ → σ'} {fε : ε → ε'}
  {fρ : ρ → ρ'}

def Next.map (fσ : σ → σ') (fε : ε → ε') (fρ : ρ → ρ') : Next σ ε ρ → Next σ' ε' ρ'
  | .halt r => .halt (fρ r)
  | .goto es s => .goto (es.map fε) (fσ s)

/-- **A machine and its image.**  When every step of `N` on images is the image of a step of `M`,
at least where the invariant of `M` holds, then so is every run. -/
theorem Machine.exec_map (I : σ → Prop)
    (hinv : ∀ s es t, I s → M.step s = .ok (.goto es t) → I t)
    (hstep : ∀ s, I s → N.step (fσ s) = (M.step s).map (Next.map fσ fε fρ)) :
    ∀ fuel s, I s → N.exec fuel (fσ s) = (M.exec fuel s).map (Prod.map fρ (List.map fε)) := by
  intro fuel
  induction fuel with
  | zero => intro s _; rfl
  | succ fuel ih =>
    intro s hs
    have h := hstep s hs
    simp only [Machine.exec]
    cases hM : M.step s with
    | error e =>
      rw [hM] at h
      simp only [h]
      rfl
    | ok next =>
      rw [hM] at h
      cases next with
      | halt r =>
        simp only [h]
        rfl
      | goto es t =>
        simp only [h, Except.map, Next.map, ih t (hinv s es t hs hM)]
        cases M.exec fuel t with
        | error e => rfl
        | ok r => simp only [Prod.map, List.map_append]

theorem Run.of_map (I : σ → Prop) (hinv : ∀ s es t, I s → M.step s = .ok (.goto es t) → I t)
    (hstep : ∀ s, I s → N.step (fσ s) = (M.step s).map (Next.map fσ fε fρ)) {s' t' : σ'}
    {es' : List ε'} (h : Run N s' es' t') :
    ∀ s, I s → s' = fσ s → ∃ es t, Run M s es t ∧ es' = es.map fε ∧ t' = fσ t := by
  induction h with
  | refl s' =>
    intro s _ hs'
    exact ⟨[], s, .refl s, rfl, hs'⟩
  | next hN _ ih =>
    rintro s hs rfl
    rw [hstep s hs] at hN
    cases hM : M.step s with
    | error e => rw [hM] at hN; cases hN
    | ok next =>
      rw [hM] at hN
      cases next with
      | halt r => cases hN
      | goto es t =>
        cases hN
        obtain ⟨fs, u, hu, rfl, rfl⟩ := ih t (hinv s es t hs hM) rfl
        exact ⟨es ++ fs, u, .next hM hu, by rw [List.map_append], rfl⟩

end

end Checked
