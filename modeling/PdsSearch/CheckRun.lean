import PdsSearch.AlternateAccepts
import PdsSearch.Lib.Printing

/-!
# Whole runs of the two checkers (`checkPDS.py`, `alternateCheckPDS.py`)

Both scripts go through the lines of a file, pass over those without a set and
print as they go; `sys.exit` keeps what was printed.  The main loop of
`checkPDS.py` ends normally exactly when every line passes, and has then printed
each set, followed by `True`; at the first line that does not pass it stops:

    (checkMain files file).result = .ok () ↔ every line of file passes    (checkMain_run)

`alternateCheckPDS.py` writes one line of GAP code for each set, after two lines
of its own   (alternateMain_run).
-/

namespace PdsSearch

open Text Checked Printing Printing.Printed

/-! ## Algorithm -/

/-- `print(xs)` for a list of numbers -/
def printList (xs : List Int) : Str := "[".toList ++ ", ".toList.intercalate (xs.map printInt) ++ "]".toList

/-- `print(b)` -/
def printBool (b : Bool) : Str := if b then "True".toList else "False".toList

/-- `get_ct`, with its message. -/
def getCtPrint (files : Str → Option Str) (n gid : Int) : Printed PyStop (List (List Int)) :=
  match getCt files n gid with
  | .error (.exit 17) => do
    print "Bad table read, abort".toList
    stop (.exit 17)
  | ct => ofExcept ct

/-- The body of the main loop of `checkPDS.py`. -/
def checkBody (files : Str → Option Str) (a : Str) : Printed PyStop Unit :=
  if contains "None in".toList a || !contains "PDS".toList a then pure ()
  else do
    let parms ← ofExcept (getParms a)
    let n ← ofExcept (pyGet parms 0)
    let k ← ofExcept (pyGet parms 1)
    let lam ← ofExcept (pyGet parms 2)
    let mu ← ofExcept (pyGet parms 3)
    let v ← ofExcept (pyGet parms 4)
    if n ≠ v then
      print "bad1, v != n".toList
      print (printInt n)
      print (printInt v)
      stop (.exit 3)
    else
      let gid ← ofExcept (pyGet parms 5)
      let pds ← ofExcept (getPds a)
      print (printList pds)
      let ct ← getCtPrint files n gid
      let checkPD ← ofExcept (isPds n k lam mu ct pds)
      if !checkPD then
        print "Bad PDS! ".toList
        stop (.exit 10)
      else print (printBool (← ofExcept (isPds n k lam mu ct pds)))

/-- `checkPDS.py` on the text of the file it opens. -/
def checkMain (files : Str → Option Str) (file : Str) : Printed PyStop Unit :=
  forEach (checkBody files) (readlines file)

/-- The line of GAP code. -/
def gapText (c : GapCheck) : Str :=
  "g := SmallGroup(".toList ++ printInt c.n ++ ",".toList ++ printInt c.gid ++ "); k := ".toList ++
    printInt c.k ++ "; pds := ".toList ++ printList c.pds ++
    "; e:=Elements(g); Print(Size(Set(pds))=k and (Set(List(pds,x->Position(e,e[x]^-1)))=Set(pds)) and Degree(MinimalPolynomial(IncidenceMatrix(LeftTranslates_Nums(g,pds))))=3 and (not (1 in pds)),\"\\n\");".toList

/-- The body of the main loop of `alternateCheckPDS.py`. -/
def alternateBody (a : Str) : Printed PyStop Unit :=
  if contains "None in".toList a || !contains "PDS".toList a then pure ()
  else do
    let parms ← ofExcept (getParms a)
    let n ← ofExcept (pyGet parms 0)
    let k ← ofExcept (pyGet parms 1)
    let _lam ← ofExcept (pyGet parms 2)
    let _mu ← ofExcept (pyGet parms 3)
    let v ← ofExcept (pyGet parms 4)
    if n ≠ v then
      print "bad1, v != n".toList
      print (printInt n)
      print (printInt v)
      stop (.exit 3)
    else
      let gid ← ofExcept (pyGet parms 5)
      let pds ← ofExcept (getPds a)
      print (gapText (gapCode n gid k pds))

/-- The two lines `alternateCheckPDS.py` starts with. -/
def alternateHead (fname : Str) : Str :=
  "#Examine:  ".toList ++ fname ++ "\n".toList ++
    "Read(Concatenation(ppath,\"Dr. Smith dset code/11IncidenceMatrices.txt\"));\n".toList

/-- `alternateCheckPDS.py` on the text of the file `fname`. -/
def alternateMain (fname file : Str) : Printed PyStop Unit :=
  let run := forEach alternateBody (readlines file)
  ⟨alternateHead fname ++ run.text, run.result⟩

/-! ## One line -/

theorem getCtPrint_result (files : Str → Option Str) (n gid : Int) :
    (getCtPrint files n gid).result = getCt files n gid := by
  unfold getCtPrint
  split
  · next h => rw [h]; rfl
  · rfl

theorem getCtPrint_ok {files : Str → Option Str} {n gid : Int} {ct : List (List Int)}
    (h : getCt files n gid = .ok ct) : getCtPrint files n gid = ofExcept (.ok ct) := by
  unfold getCtPrint
  rw [h]

/-- How a line ends is what `checkLine` says. -/
theorem checkBody_result (files : Str → Option Str) (a : Str) :
    (checkBody files a).result = (checkLine files a).map fun _ => () := by
  unfold checkBody checkLine
  split
  · rfl
  · refine result_ofExcept_bind fun parms => result_ofExcept_bind fun n => result_ofExcept_bind fun k =>
      result_ofExcept_bind fun lam => result_ofExcept_bind fun mu => result_ofExcept_bind fun v => ?_
    split
    · rfl
    · refine result_ofExcept_bind fun gid => result_ofExcept_bind fun pds => ?_
      rw [result_bind, result_print, ok_bind, result_bind, getCtPrint_result]
      cases getCt files n gid with
      | error e => rfl
      | ok ct =>
        refine result_ofExcept_bind fun checkPD => ?_
        split
        · rfl
        · exact result_ofExcept_bind fun b => rfl

theorem alternateBody_result (a : Str) : (alternateBody a).result = (alternateLine a).map fun _ => () := by
  unfold alternateBody alternateLine
  split
  · rfl
  · refine result_ofExcept_bind fun parms => result_ofExcept_bind fun n => result_ofExcept_bind fun k =>
      result_ofExcept_bind fun lam => result_ofExcept_bind fun mu => result_ofExcept_bind fun v => ?_
    split
    · rfl
    · exact result_ofExcept_bind fun gid => result_ofExcept_bind fun pds => rfl

/-- What a line that passes prints: nothing, or its set and `True`. -/
def passText (a : Str) : Str :=
  if contains "None in".toList a || !contains "PDS".toList a then []
  else match getPds a with
    | .ok pds => printList pds ++ "\nTrue\n".toList
    | .error _ => []

theorem checkBody_text {files : Str → Option Str} {a : Str} (h : (checkBody files a).result = .ok ()) :
    (checkBody files a).text = passText a := by
  unfold checkBody at h ⊢
  unfold passText
  by_cases hpds : (contains "None in".toList a || !contains "PDS".toList a) = true
  · rw [if_pos hpds, if_pos hpds]
    rfl
  · rw [if_neg hpds] at h ⊢
    rw [if_neg hpds]
    obtain ⟨parms, -, heq, h⟩ := exists_of_result h
    rw [heq]
    obtain ⟨n, -, heq, h⟩ := exists_of_result h
    rw [heq]
    obtain ⟨k, -, heq, h⟩ := exists_of_result h
    rw [heq]
    obtain ⟨lam, -, heq, h⟩ := exists_of_result h
    rw [heq]
    obtain ⟨mu, -, heq, h⟩ := exists_of_result h
    rw [heq]
    obtain ⟨v, -, heq, h⟩ := exists_of_result h
    rw [heq]
    by_cases hn : n ≠ v
    · rw [if_pos hn] at h
      cases h
    · rw [if_neg hn] at h ⊢
      obtain ⟨gid, -, heq, h⟩ := exists_of_result h
      rw [heq]
      obtain ⟨pds, hpds, heq, h⟩ := exists_of_result h
      rw [heq, text_bind (result_print _), hpds]
      rw [result_bind, result_print, ok_bind, result_bind, getCtPrint_result] at h
      obtain ⟨ct, hct, h⟩ := exists_of_bind h
      rw [getCtPrint_ok hct, ofExcept_ok_bind]
      obtain ⟨checkPD, hcheck, heq, h⟩ := exists_of_result h
      rw [heq]
      cases checkPD with
      | false => cases h
      | true =>
        rw [hcheck, text_print, List.append_assoc]
        rfl

/-- A verdict that is printed is `True`. -/
theorem checkLine_verdict {files : Str → Option Str} {a : Str} {verdict : Option Bool}
    (h : checkLine files a = .ok verdict) : verdict = none ∨ verdict = some true := by
  unfold checkLine at h
  split at h
  · exact .inl (Except.ok.inj h).symm
  · right
    obtain ⟨parms, -, h⟩ := exists_of_bind h
    obtain ⟨n, -, h⟩ := exists_of_bind h
    obtain ⟨k, -, h⟩ := exists_of_bind h
    obtain ⟨lam, -, h⟩ := exists_of_bind h
    obtain ⟨mu, -, h⟩ := exists_of_bind h
    obtain ⟨v, -, h⟩ := exists_of_bind h
    split at h
    · cases h
    · obtain ⟨gid, -, h⟩ := exists_of_bind h
      obtain ⟨pds, -, h⟩ := exists_of_bind h
      obtain ⟨ct, -, h⟩ := exists_of_bind h
      obtain ⟨checkPD, hcheck, h⟩ := exists_of_bind h
      cases checkPD with
      | false => cases h
      | true =>
        rw [hcheck] at h
        exact (Except.ok.inj h).symm

/-- The line passes the checker: it has no set, or one that is `True`. -/
def Passes (files : Str → Option Str) (a : Str) : Prop :=
  checkLine files a = .ok none ∨ checkLine files a = .ok (some true)

theorem checkBody_ok_iff (files : Str → Option Str) (a : Str) :
    (checkBody files a).result = .ok () ↔ Passes files a := by
  rw [checkBody_result]
  constructor
  · intro h
    cases hline : checkLine files a with
    | error e =>
      rw [hline] at h
      cases h
    | ok verdict =>
      unfold Passes
      rw [hline]
      rcases checkLine_verdict hline with rfl | rfl
      · exact .inl rfl
      · exact .inr rfl
  · rintro (h | h)
    · rw [h]
      rfl
    · rw [h]
      rfl

/-! ## Whole files -/

theorem flatMap_checkBody {files : Str → Option Str} {l : List Str}
    (h : ∀ b ∈ l, (checkBody files b).result = .ok ()) :
    (l.flatMap fun b => (checkBody files b).text) = l.flatMap passText :=
  List.flatMap_congr fun b hb => checkBody_text (h b hb)

theorem checkMain_ok_iff (files : Str → Option Str) (file : Str) :
    (checkMain files file).result = .ok () ↔ ∀ a ∈ readlines file, Passes files a := by
  unfold checkMain
  rw [forEach_ok_iff]
  exact forall₂_congr fun a _ => checkBody_ok_iff files a

theorem checkMain_text {files : Str → Option Str} {file : Str} (h : (checkMain files file).result = .ok ()) :
    (checkMain files file).text = (readlines file).flatMap passText := by
  unfold checkMain at h ⊢
  rw [forEach_text h]
  exact flatMap_checkBody (forEach_ok_iff.1 h)

/-- **A run of `checkPDS.py`**, on any file and any directory of tables.  It ends normally exactly
when every line passes, and has then printed each set followed by `True`; at the first line that
does not pass it stops, having printed the verdicts before it. -/
theorem checkMain_run (files : Str → Option Str) (file : Str) :
    ((checkMain files file).result = .ok () ↔ ∀ a ∈ readlines file, Passes files a) ∧
    ((checkMain files file).result = .ok () →
      (checkMain files file).text = (readlines file).flatMap passText) ∧
    ∀ l₁ a l₂ e, readlines file = l₁ ++ a :: l₂ → (∀ b ∈ l₁, Passes files b) →
      checkLine files a = .error e → (checkMain files file).result = .error e ∧
        (checkMain files file).text = l₁.flatMap passText ++ (checkBody files a).text := by
  refine ⟨checkMain_ok_iff files file, checkMain_text, ?_⟩
  intro l₁ a l₂ e hlines hl₁ ha
  have hbefore : ∀ b ∈ l₁, (checkBody files b).result = .ok () :=
    fun b hb => (checkBody_ok_iff files b).2 (hl₁ b hb)
  have hstop : (checkBody files a).result = .error e := by
    rw [checkBody_result, ha]
    rfl
  obtain ⟨hres, htext⟩ := forEach_error l₂ hbefore hstop
  unfold checkMain
  rw [hlines]
  exact ⟨hres, by rw [htext, flatMap_checkBody hbefore]⟩

/-- What `alternateCheckPDS.py` prints for a line. -/
def gapLines (a : Str) : Str :=
  match alternateLine a with
  | .ok (some c) => gapText c ++ ['\n']
  | _ => []

theorem alternateBody_text {a : Str} (h : (alternateBody a).result = .ok ()) :
    (alternateBody a).text = gapLines a := by
  unfold gapLines alternateLine
  unfold alternateBody at h ⊢
  by_cases hpds : (contains "None in".toList a || !contains "PDS".toList a) = true
  · rw [if_pos hpds, if_pos hpds]
    rfl
  · rw [if_neg hpds] at h ⊢
    rw [if_neg hpds]
    obtain ⟨parms, hx, heq, h⟩ := exists_of_result h
    rw [heq, hx, ok_bind]
    obtain ⟨n, hx, heq, h⟩ := exists_of_result h
    rw [heq, hx, ok_bind]
    obtain ⟨k, hx, heq, h⟩ := exists_of_result h
    rw [heq, hx, ok_bind]
    obtain ⟨lam, hx, heq, h⟩ := exists_of_result h
    rw [heq, hx, ok_bind]
    obtain ⟨mu, hx, heq, h⟩ := exists_of_result h
    rw [heq, hx, ok_bind]
    obtain ⟨v, hx, heq, h⟩ := exists_of_result h
    rw [heq, hx, ok_bind]
    by_cases hn : n ≠ v
    · rw [if_pos hn] at h
      cases h
    · rw [if_neg hn] at h ⊢
      rw [if_neg hn]
      obtain ⟨gid, hx, heq, h⟩ := exists_of_result h
      rw [heq, hx, ok_bind]
      obtain ⟨pds, hx, heq, h⟩ := exists_of_result h
      rw [heq, hx]
      rfl

theorem alternateBody_ok_iff (a : Str) :
    (alternateBody a).result = .ok () ↔ ∃ c, alternateLine a = .ok c := by
  rw [alternateBody_result]
  cases alternateLine a with
  | error e =>
    constructor
    · intro h
      cases h
    · rintro ⟨c, h⟩
      cases h
  | ok c => exact ⟨fun _ => ⟨c, rfl⟩, fun _ => rfl⟩

/-- A line that passes `checkPDS.py` can be read by `alternateCheckPDS.py`, and both find a set in
it or neither does. -/
theorem alternateLine_of_passes {files : Str → Option Str} {a : Str} (h : Passes files a) :
    (passText a = [] ∧ alternateLine a = .ok none) ∨
      ∃ pds c, getPds a = .ok pds ∧ passText a = printList pds ++ "\nTrue\n".toList ∧
        alternateLine a = .ok (some c) ∧ c.pds = pds.map (· + 1) := by
  unfold passText alternateLine
  by_cases hpds : (contains "None in".toList a || !contains "PDS".toList a) = true
  · rw [if_pos hpds, if_pos hpds]
    exact .inl ⟨rfl, rfl⟩
  · right
    obtain ⟨verdict, h⟩ : ∃ verdict, checkLine files a = .ok verdict := by
      rcases h with h | h
      · exact ⟨_, h⟩
      · exact ⟨_, h⟩
    unfold checkLine at h
    rw [if_neg hpds] at h ⊢
    rw [if_neg hpds]
    obtain ⟨parms, hx, h⟩ := exists_of_bind h
    rw [hx, ok_bind]
    obtain ⟨n, hx, h⟩ := exists_of_bind h
    rw [hx, ok_bind]
    obtain ⟨k, hx, h⟩ := exists_of_bind h
    rw [hx, ok_bind]
    obtain ⟨lam, hx, h⟩ := exists_of_bind h
    rw [hx, ok_bind]
    obtain ⟨mu, hx, h⟩ := exists_of_bind h
    rw [hx, ok_bind]
    obtain ⟨v, hx, h⟩ := exists_of_bind h
    rw [hx, ok_bind]
    by_cases hn : n ≠ v
    · rw [if_pos hn] at h
      cases h
    · rw [if_neg hn] at h ⊢
      obtain ⟨gid, hx, h⟩ := exists_of_bind h
      rw [hx, ok_bind]
      obtain ⟨pds, hx, h⟩ := exists_of_bind h
      rw [hx]
      exact ⟨pds, _, rfl, rfl, rfl, rfl⟩

theorem alternateMain_ok_iff (fname file : Str) : (alternateMain fname file).result = .ok () ↔
    ∀ a ∈ readlines file, ∃ c, alternateLine a = .ok c := by
  show (forEach alternateBody (readlines file)).result = .ok () ↔ _
  rw [forEach_ok_iff]
  exact forall₂_congr fun a _ => alternateBody_ok_iff a

theorem alternateMain_text {fname file : Str} (h : (alternateMain fname file).result = .ok ()) :
    (alternateMain fname file).text = alternateHead fname ++ (readlines file).flatMap gapLines := by
  change (forEach alternateBody (readlines file)).result = .ok () at h
  show alternateHead fname ++ (forEach alternateBody (readlines file)).text = _
  rw [forEach_text h, List.flatMap_congr fun a ha => alternateBody_text (forEach_ok_iff.1 h a ha)]

/-- **A run of `alternateCheckPDS.py`**, on any file.  It ends normally exactly when every line can
be read, and has then printed its head and a line of GAP code for each set.  On a file that
`checkPDS.py` ends normally on, with any tables, it does too, and writes GAP code for exactly the
lines whose set `checkPDS.py` printed. -/
theorem alternateMain_run (fname file : Str) :
    ((alternateMain fname file).result = .ok () ↔ ∀ a ∈ readlines file, ∃ c, alternateLine a = .ok c) ∧
    ((alternateMain fname file).result = .ok () →
      (alternateMain fname file).text = alternateHead fname ++ (readlines file).flatMap gapLines) ∧
    ∀ files, (checkMain files file).result = .ok () → (alternateMain fname file).result = .ok () ∧
      ∀ a ∈ readlines file, passText a ≠ [] ↔ ∃ c, alternateLine a = .ok (some c) ∧
        gapLines a = gapText c ++ ['\n'] ∧ getPds a = .ok (c.pds.map (· - 1)) := by
  refine ⟨alternateMain_ok_iff fname file, alternateMain_text, ?_⟩
  intro files h
  have hpass := (checkMain_ok_iff files file).1 h
  refine ⟨(alternateMain_ok_iff fname file).2 fun a ha => ?_, fun a ha => ?_⟩
  · rcases alternateLine_of_passes (hpass a ha) with ⟨-, hline⟩ | ⟨-, c, -, -, hline, -⟩
    · exact ⟨_, hline⟩
    · exact ⟨_, hline⟩
  · rcases alternateLine_of_passes (hpass a ha) with ⟨htext, hline⟩ | ⟨pds, c, hpds, htext, hline, hc⟩
    · rw [htext, hline]
      simp
    · constructor
      · intro _
        refine ⟨c, hline, ?_, ?_⟩
        · unfold gapLines
          rw [hline]
        · rw [hpds, hc, List.map_map]
          congr 1
          exact ((List.map_congr_left fun x _ => by show x + 1 - 1 = x; omega).trans (List.map_id pds)).symm
      · intro _
        rw [htext]
        simp [printList]

end PdsSearch
