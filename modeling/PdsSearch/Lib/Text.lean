import Mathlib.Data.List.DropRight
import Mathlib.Tactic
import PdsSearch.Lib.Checked
import PdsSearch.Lib.MachineInt

/-!
# Text: decimal numbers, Python strings, C++ streams

A text is a list of characters.  What Python's `int`, `strip`, `split`, `index`
and `readlines` and C++'s `>>` do on a text is defined here, and each is shown
to take apart what was printed:

    int (spaces ++ printInt x ++ spaces) = .ok x                     (int_printInt)
    cinInt (spaces ++ printInt x ++ t) = some (x, t),  if x fits     (cinInt_printInt)
    readlines (one line after the other) = the lines                 (readlines_lines)
    find (a :: s) (p ++ (a :: s ++ t)) = p.length,  if a ∉ p          (find_first)

Python is that of 3.10: white space and decimal digits are Unicode's (version
13), and `int` reads a number of any length, where later releases stop with a
`ValueError` after 4300 digits.
-/

namespace Text

open MachineInt

abbrev Str := List Char

/-- How a Python program ends before its end. -/
inductive PyStop
  | valueError
  | indexError
  | noFile
  | exit (code : Int)
deriving DecidableEq, Repr

/-! ## Decimal numbers -/

def printNat (n : Nat) : Str := Nat.toDigits 10 n

def printInt : Int → Str
  | .ofNat n => printNat n
  | .negSucc n => '-' :: printNat (n + 1)

theorem isDigit_printNat {n : Nat} {c : Char} (h : c ∈ printNat n) : c.isDigit = true :=
  Nat.isDigit_of_mem_toDigits (by omega) (by omega) h

theorem printNat_ne_nil (n : Nat) : printNat n ≠ [] := Nat.toDigits_ne_nil

/-- A digit comes first, not a sign. -/
theorem printNat_eq_cons (n : Nat) : ∃ c t, printNat n = c :: t ∧ c.isDigit = true := by
  obtain ⟨c, t, h⟩ := List.exists_cons_of_ne_nil (printNat_ne_nil n)
  have hc : c ∈ printNat n := by
    rw [h]
    exact List.mem_cons_self
  exact ⟨c, t, h, isDigit_printNat hc⟩

/-- A number is a digit or a minus sign, and more of these. -/
theorem printInt_chars {x : Int} {c : Char} (h : c ∈ printInt x) : c.isDigit = true ∨ c = '-' := by
  cases x with
  | ofNat n => exact .inl (isDigit_printNat h)
  | negSucc n =>
    rcases List.mem_cons.1 h with rfl | h
    · exact .inr rfl
    · exact .inl (isDigit_printNat h)

theorem notMem_printInt {c : Char} (hc : c.isDigit = false) (hc' : c ≠ '-') (x : Int) :
    c ∉ printInt x := by
  intro h
  rcases printInt_chars h with h | h
  · rw [hc] at h
    cases h
  · exact hc' h

theorem printInt_ne_nil (x : Int) : printInt x ≠ [] := by
  cases x with
  | ofNat n => exact printNat_ne_nil n
  | negSucc n => exact List.cons_ne_nil _ _

/-! ## Spaces -/

/-- White space of C's `isspace`, which C++'s `>>` skips. -/
def isCSpace (c : Char) : Bool := (9 ≤ c.toNat && c.toNat ≤ 13) || c.toNat == 32

/-- White space of Python's `strip`. -/
def isSpace (c : Char) : Bool :=
  let n := c.toNat
  (9 ≤ n && n ≤ 13) || (28 ≤ n && n ≤ 32) || n == 0x85 || n == 0xA0 || n == 0x1680 ||
    (0x2000 ≤ n && n ≤ 0x200A) || n == 0x2028 || n == 0x2029 || n == 0x202F || n == 0x205F ||
    n == 0x3000

theorem isDigit_range {c : Char} (h : c.isDigit = true) : 48 ≤ c.toNat ∧ c.toNat ≤ 57 := by
  simp only [Char.isDigit, Bool.and_eq_true, decide_eq_true_eq, ge_iff_le] at h
  exact h

theorem isSpace_printInt {x : Int} {c : Char} (h : c ∈ printInt x) : isSpace c = false := by
  rcases printInt_chars h with h | rfl
  · have := isDigit_range h
    simp only [isSpace, Bool.or_eq_false_iff, Bool.and_eq_false_iff, decide_eq_false_iff_not,
      beq_eq_false_iff_ne]
    omega
  · rfl

theorem isCSpace_printInt {x : Int} {c : Char} (h : c ∈ printInt x) : isCSpace c = false := by
  rcases printInt_chars h with h | rfl
  · have := isDigit_range h
    simp only [isCSpace, Bool.or_eq_false_iff, Bool.and_eq_false_iff, decide_eq_false_iff_not,
      beq_eq_false_iff_ne]
    omega
  · rfl

/-- The text without these characters at its two ends. -/
def trim (p : Char → Bool) (x : Str) : Str := (x.dropWhile p).rdropWhile p

/-- `x.strip()` -/
def strip (x : Str) : Str := trim isSpace x

/-- Spaces around a text that starts and ends otherwise. -/
theorem trim_spaces {p : Char → Bool} {a t b : Str} (ha : ∀ c ∈ a, p c = true)
    (hb : ∀ c ∈ b, p c = true) (hne : t ≠ []) (h1 : p (t.head hne) = false)
    (h2 : p (t.getLast hne) = false) : trim p (a ++ t ++ b) = t := by
  have hright : (t ++ b).rdropWhile p = t := by
    induction b using List.reverseRecOn with
    | nil =>
      rw [List.append_nil, List.rdropWhile_eq_self_iff]
      intro hl
      simpa using h2
    | append_singleton b c ih =>
      rw [← List.append_assoc, List.rdropWhile_concat_pos _ _ _ (hb c (by simp))]
      exact ih fun c' hc' => hb c' (by simp [hc'])
  have hleft : (a ++ t ++ b).dropWhile p = t ++ b := by
    rw [List.append_assoc, List.dropWhile_append_of_pos ha]
    cases t with
    | nil => exact absurd rfl hne
    | cons c t => exact List.dropWhile_cons_of_neg (by simpa using h1)
  unfold trim
  rw [hleft, hright]

/-! ## `int` -/

/-- The zeros of the decimal digits after ASCII; nine more digits follow each. -/
def digitZeros : List Nat :=
  [0x660, 0x6F0, 0x7C0, 0x966, 0x9E6, 0xA66, 0xAE6, 0xB66, 0xBE6, 0xC66, 0xCE6, 0xD66, 0xDE6, 0xE50,
    0xED0, 0xF20, 0x1040, 0x1090, 0x17E0, 0x1810, 0x1946, 0x19D0, 0x1A80, 0x1A90, 0x1B50, 0x1BB0,
    0x1C40, 0x1C50, 0xA620, 0xA8D0, 0xA900, 0xA9D0, 0xA9F0, 0xAA50, 0xABF0, 0xFF10, 0x104A0, 0x10D30,
    0x11066, 0x110F0, 0x11136, 0x111D0, 0x112F0, 0x11450, 0x114D0, 0x11650, 0x116C0, 0x11730,
    0x118E0, 0x11950, 0x11C50, 0x11D50, 0x11DA0, 0x16A60, 0x16B50, 0x1D7CE, 0x1D7D8, 0x1D7E2,
    0x1D7EC, 0x1D7F6, 0x1E140, 0x1E2F0, 0x1E950, 0x1FBF0]

/-- Before `int` reads a text it turns white space and decimal digits into those of ASCII.  White
space of ASCII stays, so 28 to 31, which `strip` takes off, are none for `int`. -/
def toAscii (c : Char) : Char :=
  if c.toNat < 127 then c
  else if isSpace c then ' '
  else
    match digitZeros.find? fun z => z ≤ c.toNat && c.toNat < z + 10 with
    | some z => Nat.digitChar (c.toNat - z)
    | none => '?'

/-- Digits, with single underscores between them. -/
def parseDigits (x : Str) : Option Nat :=
  let groups := x.splitOn '_'
  if groups.all fun g => !g.isEmpty && g.all Char.isDigit then
    some (Nat.ofDigitChars 10 groups.flatten 0)
  else none

/-- `int(x)` -/
def int (x : Str) : Except PyStop Int :=
  match trim isCSpace (x.map toAscii) with
  | '-' :: t =>
    match parseDigits t with
    | some n => .ok (-(n : Int))
    | none => .error .valueError
  | '+' :: t =>
    match parseDigits t with
    | some n => .ok n
    | none => .error .valueError
  | t =>
    match parseDigits t with
    | some n => .ok n
    | none => .error .valueError

theorem toAscii_printInt (x : Int) : (printInt x).map toAscii = printInt x := by
  have h : ∀ c ∈ printInt x, toAscii c = id c := by
    intro c hc
    have hlt : c.toNat < 127 := by
      rcases printInt_chars hc with hd | rfl
      · exact (isDigit_range hd).2.trans_lt (by omega)
      · decide
    unfold toAscii
    rw [if_pos hlt]
    rfl
  rw [List.map_congr_left h, List.map_id]

theorem parseDigits_printNat (n : Nat) : parseDigits (printNat n) = some n := by
  have hno : '_' ∉ printNat n := Nat.underscore_not_in_toDigits
  unfold parseDigits
  rw [List.splitOn_eq_singleton hno]
  have hall : (printNat n).all Char.isDigit = true :=
    List.all_eq_true.2 fun c hc => isDigit_printNat hc
  simp only [List.all_cons, List.all_nil, hall, List.flatten_cons, List.flatten_nil,
    List.append_nil, Bool.and_true]
  rw [if_pos (by simp [printNat_ne_nil])]
  exact congrArg some Nat.ofDigitChars_ten_toDigits

/-- **`int` reads back a printed number**, with spaces around it. -/
theorem int_printInt {a b : Str} (ha : ∀ c ∈ a, isCSpace (toAscii c) = true)
    (hb : ∀ c ∈ b, isCSpace (toAscii c) = true) (x : Int) : int (a ++ printInt x ++ b) = .ok x := by
  have hne := printInt_ne_nil x
  have hstrip : trim isCSpace ((a ++ printInt x ++ b).map toAscii) = printInt x := by
    rw [List.map_append, List.map_append, toAscii_printInt]
    refine trim_spaces ?_ ?_ hne (isCSpace_printInt (List.head_mem hne))
      (isCSpace_printInt (List.getLast_mem hne))
    · rwa [List.forall_mem_map]
    · rwa [List.forall_mem_map]
  unfold int
  rw [hstrip]
  cases x with
  | ofNat n =>
    obtain ⟨c, t, hct, hc⟩ := printNat_eq_cons n
    have h := parseDigits_printNat n
    show (match printNat n with | '-' :: t => _ | '+' :: t => _ | t => _) = _
    rw [hct] at h ⊢
    split
    · next heq => cases heq; cases hc
    · next heq => cases heq; cases hc
    · rw [h]
      rfl
  | negSucc n =>
    show (match parseDigits (printNat (n + 1)) with | some m => _ | none => _) = _
    rw [parseDigits_printNat]
    rfl

example : int "\u00A0\u0663_4 ".toList = .ok 34 := by decide

example : int "\u001C3".toList = .error .valueError := by decide

/-! ## Substrings -/

/-- The first place where `sub` occurs. -/
def find (sub : Str) : Str → Option Nat
  | [] => if sub.isEmpty then some 0 else none
  | c :: t => if sub.isPrefixOf (c :: t) then some 0 else (find sub t).map (· + 1)

/-- `sub in x` -/
def contains (sub x : Str) : Bool := (find sub x).isSome

/-- `x.index(sub)` -/
def index (x sub : Str) : Except PyStop Nat :=
  match find sub x with
  | some i => .ok i
  | none => .error .valueError

/-- `x[i:j]` with `i` and `j` not negative. -/
def slice (x : Str) (i j : Nat) : Str := (x.take j).drop i

theorem find_here (s t : Str) : find s (s ++ t) = some 0 := by
  cases h : s ++ t with
  | nil =>
    rw [(List.append_eq_nil_iff.1 h).1]
    rfl
  | cons c u =>
    rw [find, if_pos]
    rw [← h, List.isPrefixOf_iff_prefix]
    exact List.prefix_append s t

/-- A substring is not found where its first character does not occur. -/
theorem find_skip {a : Char} {p : Str} (h : a ∉ p) (s t : Str) :
    find (a :: s) (p ++ t) = (find (a :: s) t).map (· + p.length) := by
  induction p with
  | nil => simp
  | cons c p ih =>
    have hc : a ≠ c := fun e => h (e ▸ List.mem_cons_self)
    have hp : a ∉ p := fun e => h (List.mem_cons_of_mem c e)
    rw [List.cons_append, find, if_neg (by simp [hc]), ih hp, Option.map_map]
    rfl

/-- A substring is found at its first character. -/
theorem find_first {a : Char} {p : Str} (h : a ∉ p) (s t : Str) :
    find (a :: s) (p ++ (a :: s ++ t)) = some p.length := by
  rw [find_skip h, find_here, Option.map_some, Nat.zero_add]

theorem find_eq_none {a : Char} {x : Str} (h : a ∉ x) (s : Str) : find (a :: s) x = none := by
  have := find_skip h s []
  rwa [List.append_nil] at this

/-- One character further, where the substring does not start. -/
theorem find_step {sub : Str} {c : Char} {t : Str} (h : sub.isPrefixOf (c :: t) = false) :
    find sub (c :: t) = (find sub t).map (· + 1) := by
  rw [find, if_neg (by simp [h])]

theorem index_ok {x sub : Str} {i : Nat} (h : find sub x = some i) : index x sub = .ok i := by
  unfold index
  rw [h]

theorem slice_middle (p t q : Str) : slice (p ++ (t ++ q)) p.length (p.length + t.length) = t := by
  unfold slice
  rw [List.take_length_add_append, List.take_left, List.drop_left]

/-! ## Numbers between separators -/

/-- `list(map(int, x.split(c)))` -/
def ints (c : Char) (x : Str) : Except PyStop (List Int) := (x.splitOn c).mapM int

theorem mapM_int (xs : List Int) : (xs.map printInt).mapM int = .ok xs := by
  have hx : ∀ x, int (printInt x) = .ok x := by
    intro x
    have := int_printInt (a := []) (b := []) (by simp) (by simp) x
    rwa [List.nil_append, List.append_nil] at this
  have h : (xs.map printInt).mapM int = .ok (xs.map id) := by
    rw [List.mapM_map]
    exact Checked.mapM_ok fun x _ => hx x
  rwa [List.map_id] at h

/-- **Numbers joined by a separator are split again.** -/
theorem ints_intercalate {c : Char} (hc : c.isDigit = false) (hc' : c ≠ '-') {xs : List Int}
    (hxs : xs ≠ []) : ints c ([c].intercalate (xs.map printInt)) = .ok xs := by
  unfold ints
  rw [List.splitOn_intercalate c _ (by simpa using hxs), mapM_int]
  intro l hl
  obtain ⟨x, -, rfl⟩ := List.mem_map.1 hl
  exact notMem_printInt hc hc' x

/-- Joined numbers are made of digits, minus signs and separators. -/
theorem notMem_intercalate {c s : Char} (hc : c.isDigit = false) (hc' : c ≠ '-') (hs : c ≠ s)
    (xs : List Int) : c ∉ [s].intercalate (xs.map printInt) := by
  induction xs with
  | nil => simp
  | cons x xs ih =>
    cases xs with
    | nil =>
      rw [List.map_cons, List.map_nil, List.intercalate_singleton]
      exact notMem_printInt hc hc' x
    | cons y ys =>
      rw [List.map_cons, List.map_cons, List.intercalate_cons_cons]
      simp only [List.mem_append, List.mem_singleton, not_or]
      exact ⟨⟨notMem_printInt hc hc' x, hs⟩, ih⟩

/-- Numbers, each followed by a space. -/
def spaced (xs : List Int) : Str := xs.flatMap fun x => printInt x ++ [' ']

theorem spaced_eq {xs : List Int} (hxs : xs ≠ []) :
    spaced xs = [' '].intercalate (xs.map printInt) ++ [' '] := by
  induction xs with
  | nil => exact absurd rfl hxs
  | cons x xs ih =>
    show printInt x ++ [' '] ++ spaced xs = _
    cases xs with
    | nil => simp [spaced]
    | cons y ys =>
      rw [ih (List.cons_ne_nil y ys)]
      simp only [List.map_cons, List.intercalate_cons_cons, List.append_assoc]

theorem notMem_spaced {c : Char} (hc : c.isDigit = false) (hc' : c ≠ '-') (hs : c ≠ ' ')
    (xs : List Int) : c ∉ spaced xs := by
  intro h
  obtain ⟨x, -, hx⟩ := List.mem_flatMap.1 h
  rcases List.mem_append.1 hx with hx | hx
  · exact notMem_printInt hc hc' x hx
  · exact hs (List.mem_singleton.1 hx)

theorem intercalate_head (x : Int) (xs : List Int) :
    ∃ u, [' '].intercalate ((x :: xs).map printInt) = printInt x ++ u := by
  cases xs with
  | nil => exact ⟨[], by simp⟩
  | cons y ys =>
    refine ⟨[' '] ++ [' '].intercalate ((y :: ys).map printInt), ?_⟩
    rw [List.map_cons, List.map_cons, List.intercalate_cons_cons, List.append_assoc]

theorem intercalate_last {xs : List Int} (hxs : xs ≠ []) :
    ∃ u x, [' '].intercalate (xs.map printInt) = u ++ printInt x := by
  induction xs with
  | nil => exact absurd rfl hxs
  | cons x xs ih =>
    cases xs with
    | nil => exact ⟨[], x, by simp⟩
    | cons y ys =>
      obtain ⟨u, z, hu⟩ := ih (List.cons_ne_nil y ys)
      refine ⟨printInt x ++ [' '] ++ u, z, ?_⟩
      rw [List.map_cons] at hu
      rw [List.map_cons, List.map_cons, List.intercalate_cons_cons, hu, ← List.append_assoc]

/-- **Spaced numbers are read back** by `x.strip().split(" ")`, with spaces around them. -/
theorem ints_strip_spaced {xs : List Int} (hxs : xs ≠ []) {a b : Str}
    (ha : ∀ c ∈ a, isSpace c = true) (hb : ∀ c ∈ b, isSpace c = true) :
    ints ' ' (strip (a ++ spaced xs ++ b)) = .ok xs := by
  obtain ⟨y, ys, rfl⟩ := List.exists_cons_of_ne_nil hxs
  obtain ⟨u, hu⟩ := intercalate_head y ys
  obtain ⟨v, z, hv⟩ := intercalate_last hxs
  have hne : [' '].intercalate ((y :: ys).map printInt) ≠ [] := by
    rw [hu]
    exact List.append_ne_nil_of_left_ne_nil (printInt_ne_nil y) u
  have hhead : isSpace (([' '].intercalate ((y :: ys).map printInt)).head hne) = false := by
    simp only [hu, List.head_append_of_ne_nil (printInt_ne_nil y)]
    exact isSpace_printInt (List.head_mem _)
  have hlast : isSpace (([' '].intercalate ((y :: ys).map printInt)).getLast hne) = false := by
    simp only [hv, List.getLast_append_of_ne_nil _ (printInt_ne_nil z)]
    exact isSpace_printInt (List.getLast_mem _)
  have hb' : ∀ c ∈ [' '] ++ b, isSpace c = true := by
    intro c hc
    rcases List.mem_append.1 hc with hc | hc
    · rw [List.mem_singleton.1 hc]
      rfl
    · exact hb c hc
  have heq : a ++ spaced (y :: ys) ++ b =
      a ++ [' '].intercalate ((y :: ys).map printInt) ++ ([' '] ++ b) := by
    rw [spaced_eq hxs]
    simp only [List.append_assoc]
  rw [heq, strip, trim_spaces ha hb' hne hhead hlast]
  exact ints_intercalate rfl (by decide) hxs

/-! ## Lines -/

/-- Text files are read with `'\r'` and `'\r\n'` turned into `'\n'`. -/
def universalNewlines : Str → Str
  | [] => []
  | '\r' :: '\n' :: t => '\n' :: universalNewlines t
  | '\r' :: t => '\n' :: universalNewlines t
  | c :: t => c :: universalNewlines t

/-- The lines, each with its newline. -/
def splitLines : Str → List Str
  | [] => []
  | c :: t =>
    if c = '\n' then ['\n'] :: splitLines t
    else
      match splitLines t with
      | [] => [[c]]
      | l :: ls => (c :: l) :: ls

/-- `f.readlines()` -/
def readlines (x : Str) : List Str := splitLines (universalNewlines x)

theorem universalNewlines_eq {x : Str} (h : '\r' ∉ x) : universalNewlines x = x := by
  induction x with
  | nil => rfl
  | cons c t ih =>
    have hc : c ≠ '\r' := fun e => h (e ▸ List.mem_cons_self)
    have ht := ih fun e => h (List.mem_cons_of_mem c e)
    unfold universalNewlines
    split
    · next heq => cases heq
    · next heq => cases heq; exact absurd rfl hc
    · next heq => cases heq; exact absurd rfl hc
    · next heq =>
      cases heq
      rw [ht]

theorem splitLines_line {l : Str} (h : '\n' ∉ l) (t : Str) :
    splitLines (l ++ '\n' :: t) = (l ++ ['\n']) :: splitLines t := by
  induction l with
  | nil => rfl
  | cons c l ih =>
    have hc : c ≠ '\n' := fun e => h (e ▸ List.mem_cons_self)
    have hl := ih fun e => h (List.mem_cons_of_mem c e)
    rw [List.cons_append, splitLines, if_neg hc, hl]
    rfl

/-- **`readlines` gives back the lines.** -/
theorem readlines_lines (ls : List Str) (h : ∀ l ∈ ls, '\n' ∉ l ∧ '\r' ∉ l) :
    readlines (ls.flatMap fun l => l ++ ['\n']) = ls.map fun l => l ++ ['\n'] := by
  unfold readlines
  rw [universalNewlines_eq]
  · induction ls with
    | nil => rfl
    | cons l ls ih =>
      rw [List.flatMap_cons, List.append_assoc]
      show splitLines (l ++ '\n' :: ls.flatMap fun l => l ++ ['\n']) = _
      rw [splitLines_line (h l List.mem_cons_self).1, ih fun l' hl' => h l' (List.mem_cons_of_mem l hl')]
      rfl
  · intro hmem
    obtain ⟨l, hl, hr⟩ := List.mem_flatMap.1 hmem
    rcases List.mem_append.1 hr with hr | hr
    · exact (h l hl).2 hr
    · exact absurd (List.mem_singleton.1 hr) (by decide)

/-- The text is empty or ends with a newline. -/
def Terminated (x : Str) : Prop := ∀ c ∈ x.getLast?, c = '\n'

/-- A whole line, as `readlines` gives it. -/
def IsLine (l : Str) : Prop := ∃ t, l = t ++ ['\n'] ∧ '\n' ∉ t ∧ '\r' ∉ t

theorem terminated_nil : Terminated [] := by
  intro c hc
  cases hc

theorem Terminated.tail {c : Char} {t : Str} (h : Terminated (c :: t)) : Terminated t := by
  intro c' hc'
  apply h c'
  rw [List.getLast?_cons, Option.mem_def.1 hc']
  rfl

theorem not_terminated_singleton {c : Char} (hc : c ≠ '\n') : ¬ Terminated [c] := fun h => hc (h c rfl)

theorem Terminated.cons {c : Char} {t : Str} (ht : Terminated t) (hc : t = [] → c = '\n') :
    Terminated (c :: t) := by
  intro c' hc'
  cases t with
  | nil =>
    rw [← Option.some.inj hc']
    exact hc rfl
  | cons b t => exact ht c' (by rwa [List.getLast?_cons_cons] at hc')

theorem terminated_append {x y : Str} (hx : Terminated x) (hy : Terminated y) : Terminated (x ++ y) := by
  intro c hc
  rw [List.getLast?_append, Option.mem_def, Option.or_eq_some_iff] at hc
  rcases hc with hc | ⟨-, hc⟩
  · exact hy c hc
  · exact hx c hc

theorem IsLine.terminated {l : Str} (h : IsLine l) : Terminated l := by
  obtain ⟨t, rfl, -⟩ := h
  intro c hc
  rw [List.getLast?_concat] at hc
  exact (Option.some.inj hc).symm

/-- Newlines are translated piece by piece, if the first piece does not end inside of one. -/
theorem universalNewlines_append {x : Str} (hx : Terminated x) (y : Str) :
    universalNewlines (x ++ y) = universalNewlines x ++ universalNewlines y := by
  fun_induction universalNewlines x with
  | case1 => rfl
  | case2 t ih =>
    show '\n' :: universalNewlines (t ++ y) = _
    rw [ih hx.tail.tail]
    rfl
  | case3 t hne ih =>
    -- the next character, which is there, is no newline
    cases t with
    | nil => exact absurd hx (not_terminated_singleton (by decide))
    | cons c t =>
      have hc : c ≠ '\n' := fun h => hne t (by rw [h])
      rw [List.cons_append, List.cons_append, universalNewlines, ← List.cons_append, ih hx.tail]
      · rfl
      · intro u hu
        exact hc (List.cons.inj hu).1
  | case4 c t h1 h2 ih =>
    rw [List.cons_append, universalNewlines, ih hx.tail]
    · rfl
    · intro u hc
      exact fun _ => h2 hc
    · exact h2

theorem notMem_universalNewlines (x : Str) : '\r' ∉ universalNewlines x := by
  fun_induction universalNewlines x with
  | case1 => exact List.not_mem_nil
  | case2 t ih => simp [ih]
  | case3 t hne ih => simp [ih]
  | case4 c t h1 h2 ih =>
    have hc : '\r' ≠ c := fun h => h2 h.symm
    simp [ih, hc]

theorem universalNewlines_eq_nil {x : Str} (h : universalNewlines x = []) : x = [] := by
  unfold universalNewlines at h
  split at h
  · rfl
  · cases h
  · cases h
  · cases h

theorem Terminated.universalNewlines {x : Str} (hx : Terminated x) : Terminated (universalNewlines x) := by
  fun_induction Text.universalNewlines x with
  | case1 => exact terminated_nil
  | case2 t ih => exact (ih hx.tail.tail).cons fun _ => rfl
  | case3 t hne ih => exact (ih hx.tail).cons fun _ => rfl
  | case4 c t h1 h2 ih =>
    refine (ih hx.tail).cons fun h => ?_
    rw [universalNewlines_eq_nil h] at hx
    exact hx c rfl

theorem splitLines_eq_nil {x : Str} (h : splitLines x = []) : x = [] := by
  cases x with
  | nil => rfl
  | cons c t =>
    rw [splitLines] at h
    split at h
    · cases h
    · split at h
      · cases h
      · cases h

theorem splitLines_append {x : Str} (hx : Terminated x) (y : Str) :
    splitLines (x ++ y) = splitLines x ++ splitLines y := by
  induction x with
  | nil => rfl
  | cons c t ih =>
    rw [List.cons_append, splitLines, splitLines]
    by_cases hc : c = '\n'
    · rw [if_pos hc, if_pos hc, ih hx.tail]
      rfl
    · rw [if_neg hc, if_neg hc, ih hx.tail]
      cases h : splitLines t with
      | nil =>
        rw [splitLines_eq_nil h] at hx
        exact absurd hx (not_terminated_singleton hc)
      | cons l ls => rfl

theorem isLine_splitLines {x : Str} (hx : Terminated x) (hr : '\r' ∉ x) : ∀ l ∈ splitLines x, IsLine l := by
  induction x with
  | nil =>
    intro l hl
    cases hl
  | cons c t ih =>
    have ht := ih hx.tail fun h => hr (List.mem_cons_of_mem c h)
    rw [splitLines]
    by_cases hc : c = '\n'
    · rw [if_pos hc, List.forall_mem_cons]
      exact ⟨⟨[], rfl, List.not_mem_nil, List.not_mem_nil⟩, ht⟩
    · rw [if_neg hc]
      cases h : splitLines t with
      | nil =>
        rw [splitLines_eq_nil h] at hx
        exact absurd hx (not_terminated_singleton hc)
      | cons l ls =>
        rw [h, List.forall_mem_cons] at ht
        obtain ⟨⟨u, rfl, hn, hr'⟩, hls⟩ := ht
        have hcr : '\r' ≠ c := fun h => hr (h ▸ List.mem_cons_self)
        rw [List.forall_mem_cons]
        refine ⟨⟨c :: u, rfl, ?_, ?_⟩, hls⟩
        · rw [List.mem_cons, not_or]
          exact ⟨fun h => hc h.symm, hn⟩
        · rw [List.mem_cons, not_or]
          exact ⟨hcr, hr'⟩

/-- The lines of two files, one after the other. -/
theorem readlines_append {x : Str} (hx : Terminated x) (y : Str) :
    readlines (x ++ y) = readlines x ++ readlines y := by
  unfold readlines
  rw [universalNewlines_append hx, splitLines_append hx.universalNewlines]

/-- A file that ends with a newline consists of whole lines. -/
theorem isLine_readlines {x : Str} (hx : Terminated x) : ∀ l ∈ readlines x, IsLine l :=
  isLine_splitLines hx.universalNewlines (notMem_universalNewlines x)

/-- **Whole lines are read back.** -/
theorem readlines_flatten {ls : List Str} (h : ∀ l ∈ ls, IsLine l) : readlines ls.flatten = ls := by
  induction ls with
  | nil => rfl
  | cons l ls ih =>
    rw [List.forall_mem_cons] at h
    obtain ⟨hl, hls⟩ := h
    have hline : readlines l = [l] := by
      obtain ⟨t, rfl, hn, hr⟩ := hl
      have := readlines_lines [t] (by simp [hn, hr])
      simpa using this
    rw [List.flatten_cons, readlines_append hl.terminated, ih hls, hline]
    rfl

theorem terminated_flatten {ls : List Str} (h : ∀ l ∈ ls, IsLine l) : Terminated ls.flatten := by
  induction ls with
  | nil => exact terminated_nil
  | cons l ls ih =>
    rw [List.forall_mem_cons] at h
    exact terminated_append h.1.terminated (ih h.2)

/-! ## C++ streams -/

/-- Digits, at least one, from the front. -/
def takeNat (t : Str) : Option (Nat × Str) :=
  let ds := t.takeWhile Char.isDigit
  if ds.isEmpty then none else some (Nat.ofDigitChars 10 ds 0, t.dropWhile Char.isDigit)

/-- A number with or without a sign, from the front. -/
def takeInt (t : Str) : Option (Int × Str) :=
  match t with
  | '-' :: t => (takeNat t).map fun (n, t) => (-(n : Int), t)
  | '+' :: t => (takeNat t).map fun (n, t) => ((n : Int), t)
  | t => (takeNat t).map fun (n, t) => ((n : Int), t)

/-- `in >> x` for an `int`: the number and the rest of the stream.  The read fails at a number out
of the range of `int`. -/
def cinInt (t : Str) : Option (Int × Str) := do
  let (x, t) ← takeInt (t.dropWhile isCSpace)
  if Fits x then return (x, t) else none

theorem takeNat_printNat (n : Nat) {t : Str} (ht : t.takeWhile Char.isDigit = []) :
    takeNat (printNat n ++ t) = some (n, t) := by
  have hall : ∀ c ∈ printNat n, c.isDigit = true := fun c hc => isDigit_printNat hc
  have hdrop : t.dropWhile Char.isDigit = t := by
    have := List.takeWhile_append_dropWhile (p := Char.isDigit) (l := t)
    rwa [ht, List.nil_append] at this
  unfold takeNat
  rw [List.takeWhile_append_of_pos hall, ht, List.append_nil, List.dropWhile_append_of_pos hall, hdrop]
  have hval : Nat.ofDigitChars 10 (printNat n) 0 = n := Nat.ofDigitChars_ten_toDigits
  simp only [hval]
  rw [if_neg (by simp [printNat_ne_nil])]

theorem takeInt_printInt {t : Str} (ht : t.takeWhile Char.isDigit = []) (x : Int) :
    takeInt (printInt x ++ t) = some (x, t) := by
  unfold takeInt
  cases x with
  | ofNat n =>
    obtain ⟨c, u, hcu, hc⟩ := printNat_eq_cons n
    have h := takeNat_printNat n ht
    show (match printNat n ++ t with | '-' :: t => _ | '+' :: t => _ | t => _) = _
    rw [hcu, List.cons_append] at h ⊢
    split
    · next heq => cases heq; cases hc
    · next heq => cases heq; cases hc
    · rw [h]
      rfl
  | negSucc n =>
    show (takeNat (printNat (n + 1) ++ t)).map _ = _
    rw [takeNat_printNat _ ht]
    rfl

/-- **`>>` reads back a printed number** that fits, and stops after it. -/
theorem cinInt_printInt {a t : Str} (ha : ∀ c ∈ a, isCSpace c = true)
    (ht : t.takeWhile Char.isDigit = []) (x : Int) :
    cinInt (a ++ (printInt x ++ t)) = if Fits x then some (x, t) else none := by
  have hdrop : (a ++ (printInt x ++ t)).dropWhile isCSpace = printInt x ++ t := by
    rw [List.dropWhile_append_of_pos ha]
    obtain ⟨c, u, hcu⟩ := List.exists_cons_of_ne_nil (printInt_ne_nil x)
    have hc : isCSpace c = false := isCSpace_printInt (x := x) (by rw [hcu]; exact List.mem_cons_self)
    rw [hcu]
    exact List.dropWhile_cons_of_neg (by simp [hc])
  unfold cinInt
  rw [hdrop, takeInt_printInt ht]
  rfl

/-! ### Streams of numbers -/

/-- The text starts with these numbers, each after any white space; a sign or a space ends one. -/
inductive Numbers : List Int → Str → Prop
  | done (t : Str) : Numbers [] t
  | more {a : Str} {x : Int} {xs : List Int} {t : Str} : (∀ c ∈ a, isCSpace c = true) → Fits x →
      t.takeWhile Char.isDigit = [] → Numbers xs t → Numbers (x :: xs) (a ++ (printInt x ++ t))

theorem Numbers.fits {xs : List Int} {t : Str} (h : Numbers xs t) : ∀ x ∈ xs, Fits x := by
  induction h with
  | done t => simp
  | more ha hx ht _ ih =>
    rw [List.forall_mem_cons]
    exact ⟨hx, ih⟩

/-- **`>>` takes the first number** and leaves the others. -/
theorem Numbers.cinInt {x : Int} {xs : List Int} {t : Str} (h : Numbers (x :: xs) t) :
    ∃ t', cinInt t = some (x, t') ∧ Numbers xs t' := by
  cases h with
  | more ha hx ht hxs =>
    refine ⟨_, ?_, hxs⟩
    rw [cinInt_printInt ha ht, if_pos hx]

/-- Numbers printed with a space after each can be read back. -/
theorem numbers_spaced {xs : List Int} (h : ∀ x ∈ xs, Fits x) : ∀ {a : Str}, (∀ c ∈ a, isCSpace c = true) →
    Numbers xs (a ++ spaced xs) := by
  induction xs with
  | nil => intro a _; exact .done _
  | cons x xs ih =>
    intro a ha
    rw [List.forall_mem_cons] at h
    have hrest : Numbers xs ([' '] ++ spaced xs) := ih h.2 (by simp [isCSpace])
    have heq : a ++ spaced (x :: xs) = a ++ (printInt x ++ ([' '] ++ spaced xs)) := by
      unfold spaced
      rw [List.flatMap_cons, List.append_assoc]
    rw [heq]
    exact .more ha h.1 rfl hrest

end Text
