import ExprLang.Proofs.Continuation
import ExprLang.Proofs.Rendering.Texts
import ExprLang.Tree.Outline

set_option autoImplicit false

/-! # Reading what is shown of literals

The header of a literal shows its content escaped and in quotes, which looks like source text. It is
source text for the same content as long as all characters of the content are legible, which are the
printable ones and the three that have a short escape (`encodes_escapeChars`). The other characters
are shown by their code points, and no literal is written that way, so reading fails at the first of
them.
-/

namespace ExprLang

open CharClass

/-! ## Legible characters -/

namespace Text

/-- The characters that a literal can be read back with: those from U+0020 to U+007E, the tab, the
carriage return and the line feed. -/
def isLegible (c : Char) : Bool := isPrintable c || c == '\t' || c == '\r' || c == '\n'

theorem isLegible_of_shortEscape {c name : Char} (h : shortEscape c = some name) :
    isLegible c = true := by
  unfold shortEscape at h
  split at h <;> first | decide | cases h

theorem exists_shortEscape {c : Char} (hc : isLegible c = true)
    (hprintable : isPrintable c = false) : ∃ name, shortEscape c = some name := by
  simp only [isLegible, hprintable, Bool.false_or, Bool.or_eq_true, beq_iff_eq] at hc
  rcases hc with (rfl | rfl) | rfl
  · exact ⟨_, rfl⟩
  · exact ⟨_, rfl⟩
  · exact ⟨_, rfl⟩

/-- Any other character is shown by its code point. -/
theorem escapeChar_of_not_isLegible {c : Char} (hc : isLegible c = false) :
    escapeChar c = '\\' :: 'u' :: '\x7b' :: (Nat.toDigits 16 c.toNat ++ ['\x7d']) := by
  rcases escapeChar_cases c with ⟨name, hname, -⟩ | ⟨-, hprintable, -⟩ | hcode
  · rw [isLegible_of_shortEscape hname] at hc
    cases hc
  · rw [isLegible, hprintable] at hc
    cases hc
  · exact hcode

end Text

open Text (isLegible escapeChar escapeChars)

variable {kind : Token.Kind} {quote : Char}

/-- Both quotes have short escapes. -/
theorem IsQuoteOf.shortEscape_eq (h : IsQuoteOf kind quote) :
    Text.shortEscape quote = some quote := by
  rcases h with ⟨-, rfl⟩ | ⟨-, rfl⟩ <;> rfl

theorem encodes_escapeChar (hquote : IsQuoteOf kind quote) {c : Char} (hc : isLegible c = true)
    {value text : List Char} (h : Encodes quote value text) :
    Encodes quote (c :: value) (escapeChar c ++ text) := by
  cases hshort : Text.shortEscape c with
  | some name =>
      rw [escapeChar, hshort]
      exact .escape (Text.shortEscape_spec hshort).2.2 h
  | none =>
      have hprintable : Text.isPrintable c = true := by
        by_contra hnot
        obtain ⟨name, hname⟩ := Text.exists_shortEscape hc (Bool.eq_false_iff.mpr hnot)
        rw [hshort] at hname
        cases hname
      have hself : escapeChar c = [c] := by
        rw [escapeChar, hshort]
        exact if_pos hprintable
      rw [hself]
      refine .raw ?_ ?_ h
      · rintro rfl
        rw [hquote.shortEscape_eq] at hshort
        cases hshort
      · rintro rfl
        cases hshort

/-- What is shown of legible characters is written as a literal of them. -/
theorem encodes_escapeChars (hquote : IsQuoteOf kind quote) {cs : List Char}
    (h : ∀ c ∈ cs, isLegible c = true) : Encodes quote cs (escapeChars cs) := by
  induction cs with
  | nil => exact .nil
  | cons c cs ih =>
      obtain ⟨hc, hcs⟩ := List.forall_mem_cons.mp h
      exact encodes_escapeChar hquote hc (ih hcs)

/-! ## Literals -/

/-- What is shown of a content between these quotes. -/
def quoted (quote : Char) (content : String) : String :=
  String.ofList (quote :: (escapeChars content.toList ++ [quote]))

theorem toList_quoted (quote : Char) (content : String) :
    (quoted quote content).toList = quote :: (escapeChars content.toList ++ [quote]) :=
  String.toList_ofList

theorem newline_not_mem_escapeChars (cs : List Char) : '\n' ∉ escapeChars cs :=
  not_mem_of_forall (fun _ => Text.isPrintable_of_mem_escapeChars) (by decide)

theorem detail_string (content : String) (l : Location) :
    (Tree.string content l).detail = " " ++ quoted stringQuote content := by
  apply String.toList_injective
  simp [Tree.detail, quoted, Text.escape, String.toList_append, stringQuote]

theorem detail_char (c : Char) (l : Location) :
    (Tree.char c l).detail = " " ++ quoted charQuote c.toString := by
  apply String.toList_injective
  simp [Tree.detail, quoted, Text.escape, String.toList_append, charQuote]

/-- In a text without a line feed every character is one column. -/
theorem Location.after_of_not_mem {text : List Char} (h : '\n' ∉ text) (l : Location) :
    l.after text = ⟨l.line, l.column + text.length⟩ := by
  induction text generalizing l with
  | nil => rfl
  | cons c cs ih =>
      rw [List.mem_cons, not_or] at h
      rw [after_cons, ih h.2, advance, if_neg (Ne.symm h.1), List.length_cons]
      show (⟨l.line, l.column + 1 + cs.length⟩ : Location) = _
      rw [Nat.add_assoc, Nat.add_comm 1]

theorem IsQuoteOf.isLexeme (hquote : IsQuoteOf kind quote) {value text : List Char}
    (h : Encodes quote value text) (rest : List Char) :
    IsLexeme rest kind value (quote :: (text ++ [quote])) := by
  rcases hquote with ⟨rfl, rfl⟩ | ⟨rfl, rfl⟩
  · exact .char h
  · exact .string h

theorem IsQuoteOf.stopsAt_gap (hquote : IsQuoteOf kind quote) (rest : List Char) :
    StopsAt beginsGap (quote :: rest) := by
  rcases hquote with ⟨-, rfl⟩ | ⟨-, rfl⟩ <;> exact stopsAt_cons.mpr (by decide)

/-- One literal is a whole source. -/
theorem tokenize_of_encodes (hquote : IsQuoteOf kind quote) {value text : List Char}
    (h : Encodes quote value text) (source : String)
    (hsource : source.toList = quote :: (text ++ [quote])) :
    tokenize source =
      .ok [⟨kind, .ofList value, .start⟩, .eof (Location.start.after source.toList)] := by
  have hlexeme := hquote.isLexeme h []
  have hgap : IsLongestGap (quote :: (text ++ [quote]) ++ []) [] :=
    isLongestGap_iff.mpr ⟨.nil, hlexeme.stopsAt_gap⟩
  have hend : IsLongestGap [] [] := isLongestGap_iff.mpr ⟨.nil, stopsAt_nil _⟩
  refine tokenize_eq_ok_iff_segmentation.mpr
    ⟨.lexeme [] kind value (quote :: (text ++ [quote])) (.last []), ⟨?_, hgap, hlexeme, hend⟩, ?_⟩
  · rw [hsource]
    simp [Segmentation.text]
  · rw [hsource]
    simp [Segmentation.tokens]

/-- A literal goes on up to an escape that is not known, and that is what the source fails with. -/
theorem tokenize_of_unknownEscape (hquote : IsQuoteOf kind quote) {x : Char}
    {value text behind : List Char} (h : Encodes quote value text) (hx : unescape x = none)
    {source : String} (hsource : source.toList = quote :: (text ++ '\\' :: x :: behind)) :
    tokenize source = .error (.unknownEscape x (Location.start.after (quote :: text))) := by
  have hskip : (Cursor.ofText source).skipGap = ⟨source.toList, .start⟩ := by
    refine Cursor.skipGapFrom_nothing ?_ .start
    rw [Cursor.ofText, hsource]
    exact hquote.stopsAt_gap _
  have hread : ∃ last, (Cursor.ofText source).read =
      .fault (.unknownEscape x (Location.start.after (quote :: text))) last := by
    rw [Cursor.read, hskip, hsource, Cursor.readHere_of_quote hquote, Cursor.readQuoted,
      Cursor.readBody_of_unknownEscape hquote.ne_backslash h hx]
    exact ⟨_, rfl⟩
  obtain ⟨last, hread⟩ := hread
  rw [tokenize_eq_tokens, TokenStream.ofText, TokenStream.ofCursor_of_fault hread]
  rfl

/-- A text is legible, or there is a first character in it that is not. -/
theorem legible_or_exists_first (cs : List Char) :
    (∀ c ∈ cs, isLegible c = true) ∨ ∃ front c rest, cs = front ++ c :: rest ∧
      (∀ d ∈ front, isLegible d = true) ∧ isLegible c = false := by
  induction cs with
  | nil => exact .inl nofun
  | cons c cs ih =>
      cases hc : isLegible c with
      | false => exact .inr ⟨[], c, cs, rfl, nofun, hc⟩
      | true =>
          rcases ih with hall | ⟨front, d, rest, rfl, hfront, hd⟩
          · exact .inl (List.forall_mem_cons.mpr ⟨hc, hall⟩)
          · exact .inr ⟨c :: front, d, rest, rfl, List.forall_mem_cons.mpr ⟨hc, hfront⟩, hd⟩

theorem IsQuoteOf.ne_newline (hquote : IsQuoteOf kind quote) : quote ≠ '\n' := by
  rcases hquote with ⟨-, rfl⟩ | ⟨-, rfl⟩ <;> decide

/-- Legible characters are read back. -/
theorem tokenize_quoted (hquote : IsQuoteOf kind quote) {content : String}
    (hall : ∀ c ∈ content.toList, isLegible c = true) :
    tokenize (quoted quote content) =
      .ok [⟨kind, content, ⟨1, 1⟩⟩, .eof ⟨1, 1 + (quoted quote content).length⟩] := by
  have hshown := toList_quoted quote content
  have hline : '\n' ∉ (quoted quote content).toList := by
    rw [hshown, List.mem_cons, List.mem_append, List.mem_singleton]
    rintro (h | h | h)
    · exact hquote.ne_newline h.symm
    · exact newline_not_mem_escapeChars _ h
    · exact hquote.ne_newline h.symm
  rw [tokenize_of_encodes hquote (encodes_escapeChars hquote hall) _ hshown,
    String.ofList_toList, Location.after_of_not_mem hline, String.length_toList]
  rfl

/-- The escape of the first character that is not legible is not read. -/
theorem tokenize_quoted_of_first (hquote : IsQuoteOf kind quote) {content : String}
    {front rest : List Char} {c : Char} (hcontent : content.toList = front ++ c :: rest)
    (hfront : ∀ d ∈ front, isLegible d = true) (hc : isLegible c = false) :
    ∃ behind, escapeChar c = '\\' :: 'u' :: behind ∧
      (quoted quote content).toList = quote :: (escapeChars front ++ '\\' :: 'u' ::
        (behind ++ (escapeChars rest ++ [quote]))) ∧
      tokenize (quoted quote content) =
        .error (.unknownEscape 'u' ⟨1, 1 + (quote :: escapeChars front).length⟩) := by
  have hescape := Text.escapeChar_of_not_isLegible hc
  have hsplit : (quoted quote content).toList = quote :: (escapeChars front ++ '\\' :: 'u' ::
      ('\x7b' :: (Nat.toDigits 16 c.toNat ++ ['\x7d']) ++ (escapeChars rest ++ [quote]))) := by
    rw [toList_quoted, hcontent, Text.escapeChars_append, Text.escapeChars_cons, hescape]
    simp
  have hline : '\n' ∉ quote :: escapeChars front := by
    rw [List.mem_cons, not_or]
    exact ⟨hquote.ne_newline.symm, newline_not_mem_escapeChars front⟩
  have hfails :=
    tokenize_of_unknownEscape hquote (encodes_escapeChars hquote hfront) (by decide) hsplit
  rw [Location.after_of_not_mem hline] at hfails
  exact ⟨_, hescape, hsplit, hfails⟩

/-- What the headers show of the contents of literals can be read as source if and only if all
characters are legible, and then it is one literal of the same content. Otherwise reading fails at
the escape of the first character that is not legible, and takes the letter behind the backslash for
an escape that is not known. So it does for the characters that have an escape in source but none in
headers. -/
theorem quoted_reads_back (hquote : IsQuoteOf kind quote) (content : String) :
    let shown := quoted quote content
    (kind = .string → ∀ l, (Tree.string content l).detail = " " ++ shown) ∧
    (kind = .char → ∀ c l, content = c.toString → (Tree.char c l).detail = " " ++ shown) ∧
    ((∀ c ∈ content.toList, isLegible c = true) →
      tokenize shown = .ok [⟨kind, content, ⟨1, 1⟩⟩, .eof ⟨1, 1 + shown.length⟩]) ∧
    (∀ front c rest, content.toList = front ++ c :: rest →
      (∀ d ∈ front, isLegible d = true) → isLegible c = false →
      ∃ behind, escapeChar c = '\\' :: 'u' :: behind ∧
        shown.toList = quote :: (escapeChars front ++ '\\' :: 'u' ::
          (behind ++ (escapeChars rest ++ [quote]))) ∧
        tokenize shown =
          .error (.unknownEscape 'u' ⟨1, 1 + (quote :: escapeChars front).length⟩)) ∧
    ((∀ c ∈ content.toList, isLegible c = true) ∨ ∃ front c rest,
      content.toList = front ++ c :: rest ∧ (∀ d ∈ front, isLegible d = true) ∧
        isLegible c = false) ∧
    ∀ c ∈ ['\x00', '\x07', '\x08', '\x0b', '\x0c'],
      (∃ name, unescape name = some c) ∧ isLegible c = false := by
  intro shown
  refine ⟨?_, ?_, tokenize_quoted hquote,
    fun front c rest => tokenize_quoted_of_first hquote,
    legible_or_exists_first content.toList, ?_⟩
  · rintro rfl l
    rcases hquote with ⟨hkind, -⟩ | ⟨-, rfl⟩
    · cases hkind
    · exact detail_string content l
  · rintro rfl c l rfl
    rcases hquote with ⟨-, rfl⟩ | ⟨hkind, -⟩
    · exact detail_char c l
    · cases hkind
  · simp only [List.forall_mem_cons]
    exact ⟨⟨⟨'0', rfl⟩, rfl⟩, ⟨⟨'a', rfl⟩, rfl⟩, ⟨⟨'b', rfl⟩, rfl⟩, ⟨⟨'v', rfl⟩, rfl⟩,
      ⟨⟨'f', rfl⟩, rfl⟩, nofun⟩

/-- Quotes and a line feed can be read back, an accent behind a quote cannot. -/
theorem quoted_reads_back_accent :
    IsQuoteOf .string '"' ∧
    tokenize (quoted '"' "'\"\n") = .ok [⟨.string, "'\"\n", ⟨1, 1⟩⟩, .eof ⟨1, 9⟩] ∧
    tokenize (quoted '"' "\"é") = .error (.unknownEscape 'u' ⟨1, 4⟩) := by
  have hquote : IsQuoteOf .string '"' := .inr ⟨rfl, rfl⟩
  obtain ⟨-, -, hreads, -⟩ := quoted_reads_back hquote "'\"\n"
  obtain ⟨-, -, -, hfails, -⟩ := quoted_reads_back hquote "\"é"
  obtain ⟨behind, -, -, hfails⟩ := hfails ['"'] 'é' [] rfl (List.forall_mem_singleton.mpr rfl) rfl
  exact ⟨hquote, hreads (List.all_eq_true.mp rfl), hfails⟩

end ExprLang
