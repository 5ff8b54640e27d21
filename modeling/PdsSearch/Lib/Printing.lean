import PdsSearch.Lib.Text

/-!
# Programs that print

A `Printed ε β` is what a program did: the text it printed and how it ended, with a
value or early.  What was printed before an early end stays.  `result` forgets the
text and is a morphism to `Except`; a loop over a list ends normally exactly when
every round does, and has then printed the texts of the rounds:

    (forEach body l).result = .ok () ↔ ∀ i ∈ l, (body i).result = .ok ()
                                                               (forEach_ok_iff)
    (forEach body l).result = .ok () → (forEach body l).text = the texts of the rounds
                                                               (forEach_text)
-/

namespace Printing

open Text

structure Printed (ε β : Type) where
  text : Str
  result : Except ε β

variable {ε β γ ι : Type}

namespace Printed

instance : Monad (Printed ε) where
  pure b := ⟨[], .ok b⟩
  bind p f :=
    match p.result with
    | .ok b => ⟨p.text ++ (f b).text, (f b).result⟩
    | .error e => ⟨p.text, .error e⟩

/-- A step that prints nothing. -/
def ofExcept (x : Except ε β) : Printed ε β := ⟨[], x⟩

/-- Output followed by a newline. -/
def print (x : Str) : Printed ε Unit := ⟨x ++ ['\n'], .ok ()⟩

/-- Early end. -/
def stop (e : ε) : Printed ε β := ⟨[], .error e⟩

@[simp] theorem result_pure (b : β) : (pure b : Printed ε β).result = .ok b := rfl

@[simp] theorem result_ofExcept (x : Except ε β) : (ofExcept x).result = x := rfl

@[simp] theorem result_print (x : Str) : (print x : Printed ε Unit).result = .ok () := rfl

@[simp] theorem text_print (x : Str) : (print x : Printed ε Unit).text = x ++ ['\n'] := rfl

/-- **`result` is a morphism.** -/
theorem result_bind (p : Printed ε β) (f : β → Printed ε γ) :
    (p >>= f).result = p.result >>= fun b => (f b).result := by
  show (match p.result with
    | .ok b => (⟨p.text ++ (f b).text, (f b).result⟩ : Printed ε γ)
    | .error e => ⟨p.text, .error e⟩).result = _
  cases p.result <;> rfl

/-- The text after a step that ended with a value. -/
theorem text_bind {p : Printed ε β} {b : β} (h : p.result = .ok b) (f : β → Printed ε γ) :
    (p >>= f).text = p.text ++ (f b).text := by
  show (match p.result with
    | .ok b => (⟨p.text ++ (f b).text, (f b).result⟩ : Printed ε γ)
    | .error e => ⟨p.text, .error e⟩).text = _
  rw [h]

/-- After an early end nothing is printed. -/
theorem text_bind_error {p : Printed ε β} {e : ε} (h : p.result = .error e) (f : β → Printed ε γ) :
    (p >>= f).text = p.text := by
  show (match p.result with
    | .ok b => (⟨p.text ++ (f b).text, (f b).result⟩ : Printed ε γ)
    | .error e => ⟨p.text, .error e⟩).text = _
  rw [h]

@[simp] theorem ofExcept_ok_bind (b : β) (f : β → Printed ε γ) : (ofExcept (.ok b) >>= f) = f b := rfl

/-- Peeling off a silent step. -/
theorem exists_of_result {x : Except ε β} {f : β → Printed ε γ} {c : γ}
    (h : (ofExcept x >>= f).result = .ok c) :
    ∃ b, x = .ok b ∧ (ofExcept x >>= f) = f b ∧ (f b).result = .ok c := by
  cases x with
  | error e => cases h
  | ok b => exact ⟨b, rfl, rfl, h⟩

/-- A silent step, beside the same step of a program that does not print. -/
theorem result_ofExcept_bind {δ : Type} {x : Except ε β} {f : β → Printed ε γ} {g : β → Except ε δ}
    {u : δ → γ} (h : ∀ b, (f b).result = (g b).map u) :
    (ofExcept x >>= f).result = (x >>= g).map u := by
  rw [result_bind, result_ofExcept]
  cases x with
  | error e => rfl
  | ok b => exact h b

end Printed

/-! ## Loops -/

/-- `for i in l: body` -/
def forEach (body : ι → Printed ε Unit) : List ι → Printed ε Unit
  | [] => pure ()
  | i :: l => do
    body i
    forEach body l

variable {body : ι → Printed ε Unit}

/-- **A loop ends normally exactly when every round does.** -/
theorem forEach_ok_iff {l : List ι} :
    (forEach body l).result = .ok () ↔ ∀ i ∈ l, (body i).result = .ok () := by
  induction l with
  | nil => simp [forEach]
  | cons i l ih =>
    rw [forEach, Printed.result_bind, List.forall_mem_cons]
    cases h : (body i).result with
    | error e => simp [bind, Except.bind]
    | ok u =>
      show (forEach body l).result = .ok () ↔ _
      rw [ih]
      simp

/-- It has then printed the texts of the rounds. -/
theorem forEach_text {l : List ι} (h : (forEach body l).result = .ok ()) :
    (forEach body l).text = l.flatMap fun i => (body i).text := by
  rw [forEach_ok_iff] at h
  induction l with
  | nil => rfl
  | cons i l ih =>
    rw [List.forall_mem_cons] at h
    rw [forEach, Printed.text_bind h.1, ih h.2, List.flatMap_cons]

/-- **The first round that ends early** ends the loop, and nothing is printed after it. -/
theorem forEach_error {l₁ : List ι} (l₂ : List ι) {i : ι} {e : ε} (h : ∀ j ∈ l₁, (body j).result = .ok ())
    (hi : (body i).result = .error e) : (forEach body (l₁ ++ i :: l₂)).result = .error e ∧
      (forEach body (l₁ ++ i :: l₂)).text = (l₁.flatMap fun j => (body j).text) ++ (body i).text := by
  induction l₁ with
  | nil =>
    rw [List.nil_append, forEach]
    refine ⟨?_, Printed.text_bind_error hi _⟩
    rw [Printed.result_bind, hi]
    rfl
  | cons j l₁ ih =>
    rw [List.forall_mem_cons] at h
    obtain ⟨hres, htext⟩ := ih h.2
    rw [List.cons_append, forEach]
    refine ⟨?_, ?_⟩
    · rw [Printed.result_bind, h.1]
      exact hres
    · rw [Printed.text_bind h.1, htext, List.flatMap_cons, List.append_assoc]

end Printing
