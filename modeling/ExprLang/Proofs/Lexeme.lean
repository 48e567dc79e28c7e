import ExprLang.Proofs.Gap

set_option autoImplicit false

/-! # Lexemes

`IsLexeme rest kind value text` says that `text` is a token of this kind and this value when
`rest` is ahead. It has one rule for each kind of token, which says of what characters the token
is made and with which characters it would go on; there is no order between the rules.

A cursor reads a token if and only if a lexeme is ahead (`Cursor.readHere_eq_token_iff`).
-/

namespace ExprLang

open CharClass

/-- The text is a run of characters of a class. -/
def IsRun (p : Char → Bool) (run : List Char) : Prop := run ≠ [] ∧ ∀ c ∈ run, p c = true

instance (p : Char → Bool) (run : List Char) : Decidable (IsRun p run) :=
  decidable_of_iff (run.isEmpty = false ∧ run.all p = true) (by simp [IsRun])

/-- The text is a name, reserved or not. -/
def IsName (name : List Char) : Prop := IsRun isNameChar name ∧ StopsAt isDigit name

instance (name : List Char) : Decidable (IsName name) :=
  inferInstanceAs (Decidable (IsRun isNameChar name ∧ StopsAt isDigit name))

/-- The second text is the first one, written between these quotes. -/
inductive Encodes (quote : Char) : List Char → List Char → Prop where
  | nil : Encodes quote [] []
  | raw {c : Char} {value text : List Char} : c ≠ quote → c ≠ '\\' → Encodes quote value text →
      Encodes quote (c :: value) (c :: text)
  | escape {c d : Char} {value text : List Char} : unescape d = some c →
      Encodes quote value text → Encodes quote (c :: value) ('\\' :: d :: text)

/-- The text is one token of the kind and the value when `rest` is ahead. -/
inductive IsLexeme (rest : List Char) : Token.Kind → List Char → List Char → Prop where
  | int {ds : List Char} : IsRun isDigit ds → StopsAt (fun c => isDigit c || c == '.') rest →
      IsLexeme rest .int ds ds
  | float {ds es : List Char} : IsRun isDigit ds → (∀ c ∈ es, isDigit c = true) →
      StopsAt isDigit rest → IsLexeme rest .float (ds ++ '.' :: es) (ds ++ '.' :: es)
  | keyword {name : List Char} : IsName name → StopsAt isNameChar rest →
      isKeyword (.ofList name) = true → IsLexeme rest .keyword name name
  | identifier {name : List Char} : IsName name → StopsAt isNameChar rest →
      isKeyword (.ofList name) = false → IsLexeme rest .identifier name name
  | char {value text : List Char} : Encodes charQuote value text →
      IsLexeme rest .char value (charQuote :: (text ++ [charQuote]))
  | string {value text : List Char} : Encodes stringQuote value text →
      IsLexeme rest .string value (stringQuote :: (text ++ [stringQuote]))
  | operator {run : List Char} : IsRun isOperatorChar run → StopsAt isOperatorChar rest →
      IsLexeme rest .operator run run
  | punctuation {c : Char} : isPunctuationChar c = true → IsLexeme rest .punctuation [c] [c]

/-! ## The classes of characters do not meet -/

theorem IsRun.exists_cons {p : Char → Bool} {run : List Char} (h : IsRun p run) :
    ∃ c cs, run = c :: cs ∧ p c = true := by
  obtain ⟨hne, hall⟩ := h
  cases run with
  | nil => exact absurd rfl hne
  | cons c cs => exact ⟨c, cs, rfl, hall c (List.mem_cons_self ..)⟩

/-- Names are written with the letters, the digits and the underscore of ASCII. -/
theorem toNat_of_isNameChar {c : Char} (hc : isNameChar c = true) :
    48 ≤ c.toNat ∧ c.toNat ≤ 57 ∨ 65 ≤ c.toNat ∧ c.toNat ≤ 90 ∨ c.toNat = 95 ∨
      97 ≤ c.toNat ∧ c.toNat ≤ 122 := by
  simp only [isNameChar, isLetter, isDigit, Bool.or_eq_true, Bool.and_eq_true,
    decide_eq_true_eq, beq_iff_eq, Char.le_def, UInt32.le_iff_toNat_le] at hc
  rcases hc with ((hc | hc) | hc) | rfl
  · exact .inr (.inr (.inr hc))
  · exact .inr (.inl hc)
  · exact .inl hc
  · exact .inr (.inr (.inl rfl))

theorem beginsGap_of_isNameChar {c : Char} (hc : isNameChar c = true) : beginsGap c = false := by
  have hcode := toNat_of_isNameChar hc
  rw [Bool.eq_false_iff]
  intro hgap
  rcases Bool.or_eq_true_iff.mp hgap with hblank | hcomment
  · simp only [isBlank, Text.isBlank, Text.blankRanges, List.any_cons, List.any_nil,
      Bool.or_eq_true, Bool.and_eq_true, decide_eq_true_eq, Bool.false_eq_true, or_false] at hblank
    omega
  · have hsharp : c = '#' := by simpa [isCommentStart] using hcomment
    subst hsharp
    revert hcode
    decide

/-- What is said of each operator character and each punctuation character is checked on their
tables. -/
theorem not_other_of_isOperatorChar {c : Char} (hc : isOperatorChar c = true) :
    beginsGap c = false ∧ isDigit c = false ∧ isNameChar c = false ∧ isCharQuote c = false ∧
      isStringQuote c = false := by
  have htable : operatorChars.all (fun c => !beginsGap c && !isDigit c && !isNameChar c &&
      !isCharQuote c && !isStringQuote c) = true := by decide
  have hentry := List.all_eq_true.mp htable c (List.contains_iff_mem.mp hc)
  simpa [and_assoc] using hentry

theorem not_other_of_isPunctuationChar {c : Char} (hc : isPunctuationChar c = true) :
    beginsGap c = false ∧ isDigit c = false ∧ isNameChar c = false ∧ isCharQuote c = false ∧
      isStringQuote c = false ∧ isOperatorChar c = false := by
  have htable : punctuationChars.all (fun c => !beginsGap c && !isDigit c && !isNameChar c &&
      !isCharQuote c && !isStringQuote c && !isOperatorChar c) = true := by decide
  have hentry := List.all_eq_true.mp htable c (List.contains_iff_mem.mp hc)
  simpa [and_assoc] using hentry

/-- No lexeme begins like a gap. -/
theorem IsLexeme.stopsAt_gap {rest value text : List Char} {kind : Token.Kind}
    (h : IsLexeme rest kind value text) : StopsAt beginsGap (text ++ rest) := by
  cases h with
  | int hrun =>
      obtain ⟨c, cs, rfl, hc⟩ := hrun.exists_cons
      exact stopsAt_cons.mpr (beginsGap_of_isNameChar (isNameChar_of_isDigit hc))
  | float hrun =>
      obtain ⟨c, cs, rfl, hc⟩ := hrun.exists_cons
      exact stopsAt_cons.mpr (beginsGap_of_isNameChar (isNameChar_of_isDigit hc))
  | keyword hname =>
      obtain ⟨c, cs, rfl, hc⟩ := hname.1.exists_cons
      exact stopsAt_cons.mpr (beginsGap_of_isNameChar hc)
  | identifier hname =>
      obtain ⟨c, cs, rfl, hc⟩ := hname.1.exists_cons
      exact stopsAt_cons.mpr (beginsGap_of_isNameChar hc)
  | char => exact stopsAt_cons.mpr (by decide)
  | string => exact stopsAt_cons.mpr (by decide)
  | operator hrun =>
      obtain ⟨c, cs, rfl, hc⟩ := hrun.exists_cons
      exact stopsAt_cons.mpr (not_other_of_isOperatorChar hc).1
  | punctuation hc => exact stopsAt_cons.mpr (not_other_of_isPunctuationChar hc).1

/-- What begins a gap continues no token. -/
theorem not_other_of_beginsGap {c : Char} (hc : beginsGap c = true) :
    isDigit c = false ∧ isNameChar c = false ∧ isOperatorChar c = false := by
  have hname : isNameChar c = false := by
    rw [Bool.eq_false_iff]
    intro h
    rw [beginsGap_of_isNameChar h] at hc
    cases hc
  have hoperator : isOperatorChar c = false := by
    rw [Bool.eq_false_iff]
    intro h
    rw [(not_other_of_isOperatorChar h).1] at hc
    cases hc
  have hdigit : isDigit c = false := by
    rw [Bool.eq_false_iff]
    intro h
    rw [isNameChar_of_isDigit h] at hname
    cases hname
  exact ⟨hdigit, hname, hoperator⟩

/-- A lexeme depends on what is ahead only through the classes that stop there, and none of these
classes goes on with a gap. -/
theorem IsLexeme.congr_ahead {rest rest' value text : List Char} {kind : Token.Kind}
    (h : IsLexeme rest kind value text)
    (hstop : ∀ p : Char → Bool, (∀ c, beginsGap c = true → p c = false) → StopsAt p rest →
      StopsAt p rest') : IsLexeme rest' kind value text := by
  have hdigit : ∀ c, beginsGap c = true → isDigit c = false :=
    fun c hc => (not_other_of_beginsGap hc).1
  have hname : ∀ c, beginsGap c = true → isNameChar c = false :=
    fun c hc => (not_other_of_beginsGap hc).2.1
  have hoperator : ∀ c, beginsGap c = true → isOperatorChar c = false :=
    fun c hc => (not_other_of_beginsGap hc).2.2
  have hnumber : ∀ c, beginsGap c = true → (isDigit c || c == '.') = false := by
    intro c hc
    rw [hdigit c hc, Bool.false_or, beq_eq_false_iff_ne]
    rintro rfl
    revert hc
    decide
  cases h with
  | int hds hs => exact .int hds (hstop _ hnumber hs)
  | float hds hes hs => exact .float hds hes (hstop _ hdigit hs)
  | keyword hrun hs hword => exact .keyword hrun (hstop _ hname hs) hword
  | identifier hrun hs hword => exact .identifier hrun (hstop _ hname hs) hword
  | char htext => exact .char htext
  | string htext => exact .string htext
  | operator hrun hs => exact .operator hrun (hstop _ hoperator hs)
  | punctuation hc => exact .punctuation hc

/-- No lexeme is the end token. -/
theorem IsLexeme.kind_ne_eof {rest value text : List Char} {kind : Token.Kind}
    (h : IsLexeme rest kind value text) : kind ≠ .eof := by
  rintro rfl
  cases h

/-- A lexeme stands for some text. -/
theorem IsLexeme.text_ne_nil {rest value text : List Char} {kind : Token.Kind}
    (h : IsLexeme rest kind value text) : text ≠ [] := by
  cases h with
  | int hrun => exact hrun.1
  | keyword hname => exact hname.1.1
  | identifier hname => exact hname.1.1
  | operator hrun => exact hrun.1
  | _ => simp

/-! ## Bodies of quoted literals -/

namespace Cursor

theorem readBody_quote (quote : Char) (l : Location) (rest : List Char) :
    readBody quote l (quote :: rest) = .closed [] ⟨rest, l.advance quote⟩ := by
  rw [readBody.eq_def]
  simp

theorem readBody_raw {quote c : Char} (hc : c ≠ quote) (hslash : c ≠ '\\') (l : Location)
    (rest : List Char) :
    readBody quote l (c :: rest) = (readBody quote (l.advance c) rest).push c := by
  rw [readBody.eq_def]
  simp [hc, hslash]

theorem readBody_escape {quote c d : Char} (hquote : quote ≠ '\\') (hd : unescape d = some c)
    (l : Location) (rest : List Char) :
    readBody quote l ('\\' :: d :: rest) =
      (readBody quote ((l.advance '\\').advance d) rest).push c := by
  rw [readBody.eq_def]
  simp [hd, Ne.symm hquote]

/-- An encoded text up to its quote is read as what it encodes. -/
theorem readBody_of_encodes {quote : Char} (hquote : quote ≠ '\\') {value text : List Char}
    (h : Encodes quote value text) (l : Location) (rest : List Char) :
    readBody quote l (text ++ quote :: rest) =
      .closed value ⟨rest, l.after (text ++ [quote])⟩ := by
  induction h generalizing l with
  | nil => exact readBody_quote quote l rest
  | raw hc hslash _ ih =>
      rw [List.cons_append, readBody_raw hc hslash, ih]
      rfl
  | escape hd _ ih =>
      rw [List.cons_append, List.cons_append, readBody_escape hquote hd, ih]
      rfl

/-- What is read up to a quote is encoded there. -/
theorem encodes_of_readBody {quote : Char} {xs content : List Char} {l : Location}
    {behind : Cursor} (h : readBody quote l xs = .closed content behind) :
    ∃ text, xs = text ++ quote :: behind.rest ∧ Encodes quote content text ∧
      behind.location = l.after (text ++ [quote]) := by
  fun_induction readBody quote l xs generalizing content behind with
  | case1 => cases h
  | case2 l xs =>
      cases h
      exact ⟨[], rfl, .nil, rfl⟩
  | case3 => cases h
  | case4 l y ys z hescape _ here =>
      rename_i ih
      cases hbody : readBody quote here ys with
      | closed value last =>
          rw [hbody] at h
          cases h
          obtain ⟨text, hsplit, hencodes, hbehind⟩ := ih hbody
          refine ⟨'\\' :: y :: text, ?_, .escape hescape hencodes, ?_⟩
          · rw [hsplit]
            rfl
          · rw [hbehind]
            rfl
      | unclosed last => rw [hbody] at h; cases h
      | unknownEscape x backslash last => rw [hbody] at h; cases h
  | case5 => cases h
  | case6 l x xs hquote hslash ih =>
      cases hbody : readBody quote (l.advance x) xs with
      | closed value last =>
          rw [hbody] at h
          cases h
          obtain ⟨text, hsplit, hencodes, hbehind⟩ := ih hbody
          refine ⟨x :: text, ?_, .raw hquote hslash hencodes, ?_⟩
          · rw [hsplit]
            rfl
          · rw [hbehind]
            rfl
      | unclosed last => rw [hbody] at h; cases h
      | unknownEscape x backslash last => rw [hbody] at h; cases h

/-! ## A lexeme ahead is read -/

theorem readWhile_append_of_stopsAt {p : Char → Bool} {run rest : List Char}
    (hrun : ∀ c ∈ run, p c = true) (hrest : StopsAt p rest) (l : Location) :
    readWhile p ⟨run ++ rest, l⟩ = (run, ⟨rest, l.after run⟩) := by
  simp only [readWhile, takeWhile_append_of_stopsAt hrun hrest,
    dropWhile_append_of_stopsAt hrun hrest]

theorem readNumber_int {ds rest : List Char} (hds : ∀ c ∈ ds, isDigit c = true)
    (hrest : StopsAt (fun c => isDigit c || c == '.') rest) (l : Location) :
    readNumber ⟨ds ++ rest, l⟩ = (⟨.int, .ofList ds, l⟩, ⟨rest, l.after ds⟩) := by
  have hstop : StopsAt isDigit rest := by
    intro c hc
    exact (Bool.or_eq_false_iff.mp (hrest c hc)).1
  -- without a point ahead the number ends here
  have hpoint : ∀ xs, rest ≠ '.' :: xs := by
    rintro xs rfl
    simp at hrest
  simp only [readNumber, readWhile_append_of_stopsAt hds hstop]

theorem readNumber_float {ds es rest : List Char} (hds : ∀ c ∈ ds, isDigit c = true)
    (hes : ∀ c ∈ es, isDigit c = true) (hrest : StopsAt isDigit rest) (l : Location) :
    readNumber ⟨(ds ++ '.' :: es) ++ rest, l⟩ =
      (⟨.float, .ofList (ds ++ '.' :: es), l⟩, ⟨rest, l.after (ds ++ '.' :: es)⟩) := by
  have hpoint : StopsAt isDigit ('.' :: (es ++ rest)) := stopsAt_cons.mpr (by decide)
  rw [List.append_assoc, List.cons_append]
  simp only [readNumber, readWhile_append_of_stopsAt hds hpoint,
    readWhile_append_of_stopsAt hes hrest, Location.after_append, Location.after_cons]

theorem readHere_name {name rest : List Char} (hname : IsName name)
    (hrest : StopsAt isNameChar rest) (l : Location) :
    readHere ⟨name ++ rest, l⟩ =
      .token ⟨if isKeyword (.ofList name) then .keyword else .identifier, .ofList name, l⟩
        ⟨rest, l.after name⟩ := by
  obtain ⟨hrun, hdigit⟩ := hname
  have hread := readWhile_append_of_stopsAt hrun.2 hrest l
  obtain ⟨c, cs, rfl, hc⟩ := hrun.exists_cons
  rw [stopsAt_cons] at hdigit
  rw [List.cons_append] at hread ⊢
  simp [readHere, hdigit, hc, readName, hread, Reading.ofToken]

theorem readHere_quoted {kind : Token.Kind} {quote : Char} {value text : List Char}
    (hkind : kind = .char ∧ quote = charQuote ∨ kind = .string ∧ quote = stringQuote)
    (htext : Encodes quote value text) (l : Location) (rest : List Char) :
    readHere ⟨quote :: (text ++ [quote]) ++ rest, l⟩ =
      .token ⟨kind, .ofList value, l⟩ ⟨rest, l.after (quote :: (text ++ [quote]))⟩ := by
  have hslash : quote ≠ '\\' := by
    rcases hkind with ⟨-, rfl⟩ | ⟨-, rfl⟩ <;> decide
  have hbody := readBody_of_encodes hslash htext (l.advance quote) rest
  rw [List.cons_append, List.append_assoc, List.singleton_append]
  rcases hkind with ⟨rfl, rfl⟩ | ⟨rfl, rfl⟩
  · have hclass : isDigit charQuote = false ∧ isNameChar charQuote = false ∧
        isCharQuote charQuote = true := by decide
    simp only [readHere, hclass, Bool.false_eq_true, if_false, if_true, readQuoted, hbody,
      Location.after_cons]
  · have hclass : isDigit stringQuote = false ∧ isNameChar stringQuote = false ∧
        isCharQuote stringQuote = false ∧ isStringQuote stringQuote = true := by decide
    simp only [readHere, hclass, Bool.false_eq_true, if_false, if_true, readQuoted, hbody,
      Location.after_cons]

theorem readHere_of_isLexeme {rest value text : List Char} {kind : Token.Kind}
    (h : IsLexeme rest kind value text) (l : Location) :
    readHere ⟨text ++ rest, l⟩ = .token ⟨kind, .ofList value, l⟩ ⟨rest, l.after text⟩ := by
  cases h with
  | int hrun hrest =>
      have hread := readNumber_int hrun.2 hrest l
      obtain ⟨c, cs, rfl, hc⟩ := hrun.exists_cons
      rw [List.cons_append] at hread ⊢
      simp only [readHere, hc, if_true, hread, Reading.ofToken]
  | float hrun hes hrest =>
      have hread := readNumber_float hrun.2 hes hrest l
      obtain ⟨c, cs, rfl, hc⟩ := hrun.exists_cons
      rw [List.cons_append, List.cons_append] at hread ⊢
      simp only [readHere, hc, if_true, hread, Reading.ofToken]
  | keyword hname hrest hword =>
      rw [readHere_name hname hrest, if_pos hword]
  | identifier hname hrest hword =>
      rw [readHere_name hname hrest, if_neg (Bool.eq_false_iff.mp hword)]
  | char htext => exact readHere_quoted (.inl ⟨rfl, rfl⟩) htext l rest
  | string htext => exact readHere_quoted (.inr ⟨rfl, rfl⟩) htext l rest
  | operator hrun hrest =>
      have hread := readWhile_append_of_stopsAt hrun.2 hrest l
      obtain ⟨c, cs, rfl, hc⟩ := hrun.exists_cons
      obtain ⟨-, hdigit, hname, hchar, hstring⟩ := not_other_of_isOperatorChar hc
      rw [List.cons_append] at hread ⊢
      simp only [readHere, hdigit, hname, hchar, hstring, hc, Bool.false_eq_true, if_false,
        if_true, readOperator, hread, Reading.ofToken]
  | punctuation hc =>
      obtain ⟨-, hdigit, hname, hchar, hstring, hoperator⟩ := not_other_of_isPunctuationChar hc
      rw [List.singleton_append]
      simp only [readHere, hdigit, hname, hchar, hstring, hoperator, hc, Bool.false_eq_true,
        if_false, if_true, Location.after_cons, Location.after_nil]

/-! ## A token read is a lexeme -/

/-- A lexeme is ahead, and the token is the lexeme's. -/
def Takes (c : Cursor) (t : Token) (behind : Cursor) : Prop :=
  ∃ kind value text, IsLexeme behind.rest kind value text ∧ c.rest = text ++ behind.rest ∧
    t = ⟨kind, .ofList value, c.location⟩ ∧ behind.location = c.location.after text

/-- What is read of a class is all there is of it. -/
theorem readWhile_spec (p : Char → Bool) (c : Cursor) :
    c.rest = (c.readWhile p).1 ++ (c.readWhile p).2.rest ∧
      (∀ x ∈ (c.readWhile p).1, p x = true) ∧ StopsAt p (c.readWhile p).2.rest ∧
      (c.readWhile p).2.location = c.location.after (c.readWhile p).1 :=
  ⟨(c.readWhile_append p).symm, fun x hx => List.all_eq_true.mp List.all_takeWhile x hx,
    stopsAt_dropWhile p c.rest, rfl⟩

/-- A run that is not empty begins with a character of the class. -/
theorem isRun_readWhile {p : Char → Bool} {x : Char} (xs : List Char) (l : Location)
    (hx : p x = true) : IsRun p (readWhile p ⟨x :: xs, l⟩).1 := by
  refine ⟨?_, (readWhile_spec p ⟨x :: xs, l⟩).2.1⟩
  simp [readWhile, hx]

theorem takes_readNumber {x : Char} {xs : List Char} (l : Location) (hx : isDigit x = true) :
    Takes ⟨x :: xs, l⟩ (readNumber ⟨x :: xs, l⟩).1 (readNumber ⟨x :: xs, l⟩).2 := by
  have hrun := isRun_readWhile xs l hx
  obtain ⟨hsplit, -, hstop, hlocation⟩ := readWhile_spec isDigit ⟨x :: xs, l⟩
  unfold readNumber
  simp only
  split
  · rename_i tail hpoint
    obtain ⟨hsplit', hes, hstop', hlocation'⟩ := readWhile_spec isDigit
      ⟨tail, (readWhile isDigit ⟨x :: xs, l⟩).2.location.advance '.'⟩
    refine ⟨.float, _, _, .float hrun hes hstop', ?_, rfl, ?_⟩
    · rw [hsplit, hpoint, List.append_assoc, List.cons_append, ← hsplit']
    · rw [hlocation', hlocation, Location.after_append, Location.after_cons]
  · rename_i hpoint
    refine ⟨.int, _, _, .int hrun ?_, hsplit, rfl, hlocation⟩
    intro c hc
    rw [Bool.or_eq_false_iff]
    refine ⟨hstop c hc, ?_⟩
    rw [beq_eq_false_iff_ne]
    rintro rfl
    obtain ⟨tail, htail⟩ := List.head?_eq_some_iff.mp hc
    exact hpoint tail htail

theorem takes_readName {x : Char} {xs : List Char} (l : Location) (hx : isNameChar x = true)
    (hdigit : isDigit x = false) :
    Takes ⟨x :: xs, l⟩ (readName ⟨x :: xs, l⟩).1 (readName ⟨x :: xs, l⟩).2 := by
  have hrun := isRun_readWhile xs l hx
  obtain ⟨hsplit, -, hstop, hlocation⟩ := readWhile_spec isNameChar ⟨x :: xs, l⟩
  have hname : IsName (readWhile isNameChar ⟨x :: xs, l⟩).1 := by
    refine ⟨hrun, ?_⟩
    simp [readWhile, hx, hdigit]
  by_cases hword : isKeyword (.ofList (readWhile isNameChar ⟨x :: xs, l⟩).1) = true
  · refine ⟨.keyword, _, _, .keyword hname hstop hword, hsplit, ?_, hlocation⟩
    simp only [readName, if_pos hword]
  · refine ⟨.identifier, _, _,
      .identifier hname hstop (Bool.eq_false_iff.mpr hword), hsplit, ?_, hlocation⟩
    simp only [readName, if_neg hword]

theorem takes_readOperator {x : Char} {xs : List Char} (l : Location)
    (hx : isOperatorChar x = true) :
    Takes ⟨x :: xs, l⟩ (readOperator ⟨x :: xs, l⟩).1 (readOperator ⟨x :: xs, l⟩).2 := by
  have hrun := isRun_readWhile xs l hx
  obtain ⟨hsplit, -, hstop, hlocation⟩ := readWhile_spec isOperatorChar ⟨x :: xs, l⟩
  exact ⟨.operator, _, _, .operator hrun hstop, hsplit, rfl, hlocation⟩

theorem takes_readQuoted {kind : Token.Kind} {quote : Char} {xs : List Char} {l : Location}
    {t : Token} {behind : Cursor}
    (hkind : kind = .char ∧ quote = charQuote ∨ kind = .string ∧ quote = stringQuote)
    (h : readQuoted kind quote l ⟨xs, l.advance quote⟩ = .token t behind) :
    Takes ⟨quote :: xs, l⟩ t behind := by
  unfold readQuoted at h
  cases hbody : readBody quote (l.advance quote) xs with
  | closed content last =>
      rw [hbody] at h
      cases h
      obtain ⟨text, rfl, htext, hlocation⟩ := encodes_of_readBody hbody
      refine ⟨kind, content, quote :: (text ++ [quote]), ?_, ?_, rfl, hlocation⟩
      · rcases hkind with ⟨rfl, rfl⟩ | ⟨rfl, rfl⟩
        · exact .char htext
        · exact .string htext
      · simp
  | unclosed last => rw [hbody] at h; cases h
  | unknownEscape x backslash last => rw [hbody] at h; cases h

/-- A cursor reads a token if and only if a lexeme is ahead, and then it reads that lexeme. -/
theorem readHere_eq_token_iff {c behind : Cursor} {t : Token} :
    c.readHere = .token t behind ↔ c.Takes t behind := by
  constructor
  · intro h
    obtain ⟨rest, l⟩ := c
    cases rest with
    | nil => cases h
    | cons x xs =>
        -- the classes in the order in which the cursor tests them
        simp only [readHere] at h
        by_cases hdigit : isDigit x = true
        · rw [if_pos hdigit] at h
          cases h
          exact takes_readNumber l hdigit
        rw [if_neg hdigit] at h
        by_cases hname : isNameChar x = true
        · rw [if_pos hname] at h
          cases h
          exact takes_readName l hname (Bool.eq_false_iff.mpr hdigit)
        rw [if_neg hname] at h
        by_cases hchar : isCharQuote x = true
        · rw [if_pos hchar] at h
          exact takes_readQuoted (.inl ⟨rfl, beq_iff_eq.mp hchar⟩) h
        rw [if_neg hchar] at h
        by_cases hstring : isStringQuote x = true
        · rw [if_pos hstring] at h
          exact takes_readQuoted (.inr ⟨rfl, beq_iff_eq.mp hstring⟩) h
        rw [if_neg hstring] at h
        by_cases hoperator : isOperatorChar x = true
        · rw [if_pos hoperator] at h
          cases h
          exact takes_readOperator l hoperator
        rw [if_neg hoperator] at h
        by_cases hpunctuation : isPunctuationChar x = true
        · rw [if_pos hpunctuation] at h
          cases h
          exact ⟨.punctuation, [x], [x], .punctuation hpunctuation, rfl, rfl, rfl⟩
        · rw [if_neg hpunctuation] at h
          cases h
  · rintro ⟨kind, value, text, hlexeme, hrest, rfl, hlocation⟩
    obtain ⟨rest, l⟩ := c
    obtain ⟨rest', l'⟩ := behind
    obtain rfl : rest = text ++ rest' := hrest
    obtain rfl : l' = l.after text := hlocation
    exact readHere_of_isLexeme hlexeme l

/-- A cursor finds the end only where it is. -/
theorem eq_of_readHere_ending {c last : Cursor} (h : c.readHere = .ending last) :
    c.rest = [] ∧ last = c := by
  obtain ⟨rest, l⟩ := c
  cases rest with
  | nil =>
      cases h
      exact ⟨rfl, rfl⟩
  | cons x xs =>
      have hquoted : ∀ kind, readQuoted kind x l ⟨xs, l.advance x⟩ ≠ .ending last := by
        intro kind hread
        unfold readQuoted at hread
        split at hread <;> cases hread
      simp only [readHere] at h
      split at h
      · cases h
      split at h
      · cases h
      split at h
      · exact absurd h (hquoted .char)
      split at h
      · exact absurd h (hquoted .string)
      split at h
      · cases h
      split at h
      · cases h
      · cases h

end Cursor

end ExprLang
