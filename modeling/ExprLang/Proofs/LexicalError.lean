import ExprLang.Proofs.Lexeme
import ExprLang.Session

set_option autoImplicit false

/-! # Lexical errors

A cursor fails to read a token in three ways, and `IsFault rest j e behind` tells them by the text
`rest` that is ahead at `j`, behind the gap: no token begins with its first character, or it is a
quoted literal that the text does not close, or one with an escape that is not known. Both kinds of
literals are told by what of them is encoded (`Encodes`) before they go wrong.

`Lexer.next_fails_exactly` says that a lexer fails in these cases only, with what error, and what
it answers afterwards.
-/

namespace ExprLang

open CharClass

/-- Literals of this kind stand between these quotes. -/
def IsQuoteOf (kind : Token.Kind) (quote : Char) : Prop :=
  kind = .char ∧ quote = charQuote ∨ kind = .string ∧ quote = stringQuote

/-- Does any token begin with the character? -/
def beginsLexeme (c : Char) : Bool :=
  isDigit c || isNameChar c || isCharQuote c || isStringQuote c || isOperatorChar c ||
    isPunctuationChar c

/-- No token can be read off `rest`, which is at `j`; the cursor is left behind what was read. -/
inductive IsFault (rest : List Char) (j : Location) : LexError → Cursor → Prop where
  | unexpectedCharacter {x : Char} {xs : List Char} : rest = x :: xs → beginsLexeme x = false →
      IsFault rest j (.unexpectedCharacter x j) ⟨rest, j⟩
  /-- The text ends behind the units of a literal, or behind a backslash. -/
  | unterminatedLiteral {kind : Token.Kind} {quote : Char} {value text tail : List Char} :
      IsQuoteOf kind quote → Encodes quote value text → tail = [] ∨ tail = ['\\'] →
      rest = quote :: (text ++ tail) →
      IsFault rest j (.unterminatedLiteral kind j) ⟨[], j.after rest⟩
  /-- Behind the units of a literal there is a backslash before some other character. -/
  | unknownEscape {kind : Token.Kind} {quote x : Char} {value text behind : List Char} :
      IsQuoteOf kind quote → Encodes quote value text → unescape x = none →
      rest = quote :: (text ++ '\\' :: x :: behind) →
      IsFault rest j (.unknownEscape x (j.after (quote :: text)))
        ⟨behind, j.after (quote :: (text ++ ['\\', x]))⟩

theorem IsQuoteOf.ne_backslash {kind : Token.Kind} {quote : Char} (h : IsQuoteOf kind quote) :
    quote ≠ '\\' := by
  rcases h with ⟨-, rfl⟩ | ⟨-, rfl⟩ <;> decide

/-! ## Bodies that are not closed -/

namespace Cursor

/-- What is encoded is read unit by unit. -/
theorem readBody_append {quote : Char} (hquote : quote ≠ '\\') {value text : List Char}
    (h : Encodes quote value text) (l : Location) (rest : List Char) :
    readBody quote l (text ++ rest) =
      value.foldr Body.push (readBody quote (l.after text) rest) := by
  induction h generalizing l with
  | nil => rfl
  | raw hc hslash _ ih =>
      rw [List.cons_append, readBody_raw hc hslash, ih]
      rfl
  | escape hd _ ih =>
      rw [List.cons_append, List.cons_append, readBody_escape hquote hd, ih]
      rfl

theorem foldr_push_unclosed (value : List Char) (last : Cursor) :
    value.foldr Body.push (.unclosed last) = .unclosed last := by
  induction value with
  | nil => rfl
  | cons c cs ih =>
      rw [List.foldr_cons, ih]
      rfl

theorem foldr_push_unknownEscape (value : List Char) (x : Char) (backslash : Location)
    (behind : Cursor) :
    value.foldr Body.push (.unknownEscape x backslash behind) =
      .unknownEscape x backslash behind := by
  induction value with
  | nil => rfl
  | cons c cs ih =>
      rw [List.foldr_cons, ih]
      rfl

/-- A text that ends inside of a literal, perhaps on a backslash. -/
theorem readBody_of_end {quote : Char} (hquote : quote ≠ '\\') {value text tail : List Char}
    (h : Encodes quote value text) (htail : tail = [] ∨ tail = ['\\']) (l : Location) :
    readBody quote l (text ++ tail) = .unclosed ⟨[], l.after (text ++ tail)⟩ := by
  have hend : readBody quote (l.after text) tail = .unclosed ⟨[], (l.after text).after tail⟩ := by
    rcases htail with rfl | rfl
    · simp [readBody]
    · simp [readBody, Ne.symm hquote]
  rw [readBody_append hquote h, hend, foldr_push_unclosed, Location.after_append]

theorem readBody_of_unknownEscape {quote x : Char} (hquote : quote ≠ '\\')
    {value text : List Char} (h : Encodes quote value text) (hx : unescape x = none)
    (l : Location) (behind : List Char) :
    readBody quote l (text ++ '\\' :: x :: behind) =
      .unknownEscape x (l.after text) ⟨behind, l.after (text ++ ['\\', x])⟩ := by
  have hescape : readBody quote (l.after text) ('\\' :: x :: behind) =
      .unknownEscape x (l.after text) ⟨behind, (l.after text).after ['\\', x]⟩ := by
    rw [readBody]
    simp [Ne.symm hquote, hx]
  rw [readBody_append hquote h, hescape, foldr_push_unknownEscape, Location.after_append]

end Cursor

/-- The units of a literal go on up to its quote, to the end of the text or to an escape that is
not known. -/
theorem exists_units (quote : Char) (xs : List Char) :
    ∃ value text rest, xs = text ++ rest ∧ Encodes quote value text ∧
      ((rest = [] ∨ rest = ['\\']) ∨ (∃ behind, rest = quote :: behind) ∨
        ∃ x behind, rest = '\\' :: x :: behind ∧ unescape x = none) := by
  fun_induction Cursor.readBody quote .start xs with
  | case1 => exact ⟨[], [], [], rfl, .nil, .inl (.inl rfl)⟩
  | case2 l xs => exact ⟨[], [], _, rfl, .nil, .inr (.inl ⟨xs, rfl⟩)⟩
  | case3 => exact ⟨[], [], _, rfl, .nil, .inl (.inr rfl)⟩
  | case4 l y ys z hescape =>
      rename_i ih
      obtain ⟨value, text, rest, rfl, htext, hrest⟩ := ih
      exact ⟨z :: value, '\\' :: y :: text, rest, rfl, .escape hescape htext, hrest⟩
  | case5 l y ys hnone => exact ⟨[], [], _, rfl, .nil, .inr (.inr ⟨y, ys, rfl, hnone⟩)⟩
  | case6 l x xs hquote hslash ih =>
      obtain ⟨value, text, rest, rfl, htext, hrest⟩ := ih
      exact ⟨x :: value, x :: text, rest, rfl, .raw hquote hslash htext, hrest⟩

/-! ## What a cursor fails to read -/

namespace Cursor

theorem readHere_of_quote {kind : Token.Kind} {quote : Char} (h : IsQuoteOf kind quote)
    (xs : List Char) (j : Location) :
    readHere ⟨quote :: xs, j⟩ = readQuoted kind quote j ⟨xs, j.advance quote⟩ := by
  rcases h with ⟨rfl, rfl⟩ | ⟨rfl, rfl⟩
  · have hclass : isDigit charQuote = false ∧ isNameChar charQuote = false ∧
        isCharQuote charQuote = true := by decide
    simp only [readHere, hclass, Bool.false_eq_true, if_false, if_true]
  · have hclass : isDigit stringQuote = false ∧ isNameChar stringQuote = false ∧
        isCharQuote stringQuote = false ∧ isStringQuote stringQuote = true := by decide
    simp only [readHere, hclass, Bool.false_eq_true, if_false, if_true]

theorem readHere_of_beginsLexeme_eq_false {x : Char} (hx : beginsLexeme x = false)
    (xs : List Char) (j : Location) : readHere ⟨x :: xs, j⟩ = .stuck x ⟨x :: xs, j⟩ := by
  simp only [beginsLexeme, Bool.or_eq_false_iff] at hx
  obtain ⟨⟨⟨⟨⟨hdigit, hname⟩, hchar⟩, hstring⟩, hoperator⟩, hpunctuation⟩ := hx
  simp only [readHere, hdigit, hname, hchar, hstring, hoperator, hpunctuation,
    Bool.false_eq_true, if_false]

/-- Only quotes begin tokens that cannot be read to their end. -/
theorem exists_readHere_eq_token {x : Char} (hx : beginsLexeme x = true)
    (hquote : ∀ kind, ¬ IsQuoteOf kind x) (xs : List Char) (j : Location) :
    ∃ t behind, readHere ⟨x :: xs, j⟩ = .token t behind := by
  have hchar : isCharQuote x = false := by
    rw [Bool.eq_false_iff]
    exact fun h => hquote .char (.inl ⟨rfl, beq_iff_eq.mp h⟩)
  have hstring : isStringQuote x = false := by
    rw [Bool.eq_false_iff]
    exact fun h => hquote .string (.inr ⟨rfl, beq_iff_eq.mp h⟩)
  simp only [beginsLexeme, hchar, hstring, Bool.or_false, Bool.or_eq_true] at hx
  simp only [readHere, hchar, hstring, Bool.false_eq_true, if_false]
  split
  · exact ⟨_, _, rfl⟩
  split
  · exact ⟨_, _, rfl⟩
  split
  · exact ⟨_, _, rfl⟩
  split
  · exact ⟨_, _, rfl⟩
  · simp_all

theorem take_readHere_eq_error_iff {rest : List Char} {j : Location} {e : LexError}
    {behind : Cursor} :
    Lexer.take (readHere ⟨rest, j⟩) = (.error e, behind) ↔ IsFault rest j e behind := by
  constructor
  · intro h
    cases rest with
    | nil => cases h
    | cons x xs =>
        by_cases hx : beginsLexeme x = false
        · rw [readHere_of_beginsLexeme_eq_false hx] at h
          cases h
          exact .unexpectedCharacter rfl hx
        rw [Bool.not_eq_false] at hx
        by_cases hquote : ∃ kind, IsQuoteOf kind x
        · obtain ⟨kind, hkind⟩ := hquote
          obtain ⟨value, text, rest, rfl, htext, hrest⟩ := exists_units x xs
          rw [readHere_of_quote hkind, readQuoted] at h
          rcases hrest with htail | ⟨xs, rfl⟩ | ⟨y, xs, rfl, hy⟩
          · rw [readBody_of_end hkind.ne_backslash htext htail] at h
            cases h
            exact .unterminatedLiteral hkind htext htail rfl
          · rw [readBody_of_encodes hkind.ne_backslash htext] at h
            cases h
          · rw [readBody_of_unknownEscape hkind.ne_backslash htext hy] at h
            cases h
            exact .unknownEscape hkind htext hy rfl
        · obtain ⟨t, last, hread⟩ :=
            exists_readHere_eq_token hx (fun kind h => hquote ⟨kind, h⟩) xs j
          rw [hread] at h
          cases h
  · intro h
    cases h with
    | unexpectedCharacter hrest hx =>
        rw [hrest, readHere_of_beginsLexeme_eq_false hx]
        rfl
    | unterminatedLiteral hkind htext htail hrest =>
        rw [hrest, readHere_of_quote hkind, readQuoted,
          readBody_of_end hkind.ne_backslash htext htail]
        rfl
    | unknownEscape hkind htext hx hrest =>
        rw [hrest, readHere_of_quote hkind, readQuoted,
          readBody_of_unknownEscape hkind.ne_backslash htext hx]
        rfl

end Cursor

namespace Lexer

theorem next_of_ahead_eq_none {l : Lexer} (h : l.ahead = none) :
    l.next = ((take l.cursor.read).1, ofCursor (take l.cursor.read).2) := by
  rw [next, tellNext, h]
  rfl

theorem next_eq_error_iff {l : Lexer} (hempty : l.ahead = none) {gap rest : List Char}
    (hsplit : l.cursor.rest = gap ++ rest) (hgap : IsLongestGap rest gap) {e : LexError}
    {l' : Lexer} :
    l.next = (.error e, l') ↔
      ∃ behind, l' = .ofCursor behind ∧ IsFault rest (l.cursor.location.after gap) e behind := by
  have hread : l.cursor.read = Cursor.readHere ⟨rest, l.cursor.location.after gap⟩ := by
    rw [Cursor.read, ← Cursor.skipGap_of_isLongestGap hgap, ← hsplit]
  rw [next_of_ahead_eq_none hempty, hread]
  constructor
  · intro h
    obtain ⟨herror, rfl⟩ := Prod.mk.inj h
    exact ⟨_, rfl, Cursor.take_readHere_eq_error_iff.mp (Prod.ext herror rfl)⟩
  · rintro ⟨behind, rfl, hfault⟩
    rw [Cursor.take_readHere_eq_error_iff.mpr hfault]

/-- A look at the next token fails like taking it. -/
theorem peek_eq_error_iff {l l' : Lexer} {e : LexError} :
    l.peek = (.error e, l') ↔ l.next = (.error e, l') := by
  rw [peek_eq_keep]
  cases hnext : l.next with
  | mk found behind =>
      cases found with
      | ok t => simp [keep]
      | error e' => simp [keep]

end Lexer

/-! ## What a lexer answers afterwards -/

namespace Session

/-- The steps that a lexer takes. -/
def Command.IsCall : Command → Prop
  | .peek => True
  | .next => True
  | .isAtEnd => True
  | .tokenize => True
  | _ => False

/-- The error that a lexer answers, if it does. -/
def Reply.error? : Reply → Option LexError
  | .token (.error e) => some e
  | .truth (.error e) => some e
  | .tokens (.error e) => some e
  | _ => none

/-- The reply says that the text ends at `m`. -/
def Reply.IsEnd (m : Location) : Reply → Prop
  | .token (.ok t) => t = .eof m
  | .truth (.ok b) => b = true
  | .tokens (.ok ts) => ts = [.eof m]
  | _ => False

end Session

namespace Lexer

open Session

/-- Nothing is ahead, and at most the end token was looked at. -/
def AtEnd (m : Location) (l : Lexer) : Prop :=
  l.cursor = ⟨[], m⟩ ∧ (l.ahead = none ∨ l.ahead = some (.eof m))

theorem AtEnd.next {l : Lexer} {m : Location} (h : l.AtEnd m) :
    l.next = (.ok (.eof m), .ofCursor ⟨[], m⟩) := by
  obtain ⟨hcursor, hahead | hahead⟩ := h
  · rw [Lexer.next, tellNext, hahead, hcursor]
    rfl
  · rw [Lexer.next, tellNext, hahead, hcursor]
    rfl

theorem AtEnd.tokenize {l : Lexer} {m : Location} (h : l.AtEnd m) :
    l.tokenize = (.ok [.eof m], .ofCursor ⟨[], m⟩) := by
  obtain ⟨hcursor, hahead | hahead⟩ := h
  · rw [Lexer.tokenize, hahead, hcursor, drain]
    rfl
  · rw [Lexer.tokenize, hahead, hcursor]
    rfl

/-- At the end every call answers the end, and the lexer stays there. -/
theorem AtEnd.readTokens {l : Lexer} {m : Location} (h : l.AtEnd m) {k : Command}
    (hk : k.IsCall) : (readTokens l k).1.IsEnd m ∧ (readTokens l k).2.AtEnd m := by
  have hnext : AtEnd m (ofCursor ⟨[], m⟩) := ⟨rfl, .inl rfl⟩
  have hpeek : l.peek = (.ok (.eof m), ⟨⟨[], m⟩, some (.eof m)⟩) := by
    rw [peek_eq_keep, h.next]
    rfl
  cases k with
  | peek =>
      rw [Session.readTokens, hpeek]
      exact ⟨rfl, rfl, .inr rfl⟩
  | next =>
      rw [Session.readTokens, h.next]
      exact ⟨rfl, hnext⟩
  | isAtEnd =>
      rw [Session.readTokens, isAtEnd_eq_isEnd, hpeek]
      exact ⟨rfl, rfl, .inr rfl⟩
  | tokenize =>
      rw [Session.readTokens, h.tokenize]
      exact ⟨rfl, hnext⟩
  | _ => exact hk.elim

/-- A lexer that a failure leaves as it was fails in every call. -/
theorem readTokens_of_next_eq_error {l : Lexer} {e : LexError} (h : l.next = (.error e, l))
    {k : Command} (hk : k.IsCall) :
    (readTokens l k).1.error? = some e ∧ (readTokens l k).2 = l := by
  have hpeek : l.peek = (.error e, l) := peek_eq_error_iff.mpr h
  have hempty : l.ahead = none := (congrArg (fun x => x.2.ahead) h).symm.trans (by
    unfold Lexer.next tellNext
    split <;> rfl)
  cases k with
  | peek =>
      rw [Session.readTokens, hpeek]
      exact ⟨rfl, rfl⟩
  | next =>
      rw [Session.readTokens, h]
      exact ⟨rfl, rfl⟩
  | isAtEnd =>
      rw [Session.readTokens, isAtEnd_eq_isEnd, hpeek]
      exact ⟨rfl, rfl⟩
  | tokenize =>
      -- draining stops at the first reading, which is the one of `next`
      have htokenize : l.tokenize = (.error e, l) := by
        rw [next_of_ahead_eq_none hempty] at h
        rw [Lexer.tokenize, hempty, drain]
        cases hread : l.cursor.read <;> rw [hread] at h <;> cases h <;> rfl
      rw [Session.readTokens, htokenize]
      exact ⟨rfl, rfl⟩
  | _ => exact hk.elim

theorem step_of_isCall {k : Command} (hk : k.IsCall) (l : Lexer) (saved : Cursor) :
    Session.step ⟨.tokens l, saved⟩ k =
      ((readTokens l k).1, ⟨.tokens (readTokens l k).2, saved⟩) := by
  cases k with
  | toPrograms => exact hk.elim
  | _ => rfl

/-- What every call keeps, and what every call that finds it answers, is so in a whole session. -/
theorem forall_run_of_readTokens {P : Lexer → Prop} {Q : Reply → Prop}
    (hstep : ∀ l k, P l → k.IsCall → Q (readTokens l k).1 ∧ P (readTokens l k).2)
    {commands : List Command} (hcommands : ∀ k ∈ commands, k.IsCall) (saved : Cursor) {l : Lexer}
    (hl : P l) : ∀ reply ∈ Session.run ⟨.tokens l, saved⟩ commands, Q reply := by
  induction commands generalizing l with
  | nil => exact fun reply hreply => nomatch hreply
  | cons k ks ih =>
      obtain ⟨hk, hks⟩ := List.forall_mem_cons.mp hcommands
      obtain ⟨hreply, hl'⟩ := hstep l k hl hk
      rw [Session.run, step_of_isCall hk, List.forall_mem_cons]
      exact ⟨hreply, ih hks hl'⟩

theorem run_of_next_eq_error {l : Lexer} {e : LexError} (h : l.next = (.error e, l))
    {commands : List Command} (hcommands : ∀ k ∈ commands, k.IsCall) (saved : Cursor) :
    ∀ reply ∈ Session.run ⟨.tokens l, saved⟩ commands, reply.error? = some e := by
  refine forall_run_of_readTokens (P := fun l' => l' = l) ?_ hcommands saved rfl
  rintro _ k rfl hk
  exact readTokens_of_next_eq_error h hk

theorem AtEnd.run {l : Lexer} {m : Location} (h : l.AtEnd m) {commands : List Command}
    (hcommands : ∀ k ∈ commands, k.IsCall) (saved : Cursor) :
    ∀ reply ∈ Session.run ⟨.tokens l, saved⟩ commands, reply.IsEnd m :=
  forall_run_of_readTokens (fun _ _ hend hk => hend.readTokens hk) hcommands saved h

/-- A lexer fails exactly where a fault is ahead behind the gap, and looking at the next token fails
like taking it. A character that begins no token stays ahead, and every later call fails in the
same way; behind an unterminated literal every later call finds the end of the text; and behind an
unknown escape reading goes on with what follows the escaped character. -/
theorem next_fails_exactly {l : Lexer} (hempty : l.ahead = none) {gap rest : List Char}
    (hsplit : l.cursor.rest = gap ++ rest) (hgap : IsLongestGap rest gap) (e : LexError)
    (l' : Lexer) :
    (l.next = (.error e, l') ↔
      ∃ behind, l' = .ofCursor behind ∧ IsFault rest (l.cursor.location.after gap) e behind) ∧
    (l.peek = (.error e, l') ↔ l.next = (.error e, l')) ∧
    (l.next = (.error e, l') → ∀ (saved : Cursor) (commands : List Command),
      (∀ k ∈ commands, k.IsCall) → ∀ reply ∈ Session.run ⟨.tokens l', saved⟩ commands,
        (∀ x m, e = .unexpectedCharacter x m → reply.error? = some e) ∧
        ∀ kind m, e = .unterminatedLiteral kind m → reply.IsEnd l'.cursor.location) := by
  refine ⟨next_eq_error_iff hempty hsplit hgap, peek_eq_error_iff, ?_⟩
  intro hnext saved commands hcommands reply hreply
  obtain ⟨behind, rfl, hfault⟩ := (next_eq_error_iff hempty hsplit hgap).mp hnext
  refine ⟨?_, ?_⟩
  · rintro x m rfl
    cases hfault with
    | unexpectedCharacter hrest hx =>
        -- the cursor left is where the error is, so the same fault is ahead again
        have hagain : next (.ofCursor ⟨rest, l.cursor.location.after gap⟩) =
            (.error (.unexpectedCharacter x (l.cursor.location.after gap)),
              .ofCursor ⟨rest, l.cursor.location.after gap⟩) := by
          refine (next_eq_error_iff rfl (List.nil_append rest).symm ?_).mpr
            ⟨_, rfl, .unexpectedCharacter hrest hx⟩
          exact isLongestGap_iff.mpr ⟨.nil, (isLongestGap_iff.mp hgap).2⟩
        exact run_of_next_eq_error hagain hcommands saved reply hreply
  · rintro kind m rfl
    cases hfault with
    | unterminatedLiteral =>
        exact AtEnd.run ⟨rfl, .inl rfl⟩ hcommands saved reply hreply

/-- A literal that ends on a backslash: the escaped quote does not close it, and the backslash
escapes nothing. -/
theorem next_fails_exactly_backslash :
    let l : Lexer := .ofText "#c\n'a\\'\\"
    let e : LexError := .unterminatedLiteral .char ⟨2, 1⟩
    let last : Cursor := ⟨[], ⟨2, 6⟩⟩
    l.next = (.error e, .ofCursor last) ∧ IsFault ['\'', 'a', '\\', '\'', '\\'] ⟨2, 1⟩ e last ∧
      ∀ commands : List Command, (∀ k ∈ commands, k.IsCall) →
        ∀ reply ∈ Session.run ⟨.tokens (.ofCursor last), last⟩ commands, reply.IsEnd ⟨2, 6⟩ := by
  intro l e last
  have hgap : IsLongestGap ['\'', 'a', '\\', '\'', '\\'] ['#', 'c', '\n'] := by
    have hcomment : IsGap ['\'', 'a', '\\', '\'', '\\'] ('#' :: (['c'] ++ ['\n'])) :=
      .comment (by decide) (List.forall_mem_singleton.mpr rfl) (stopsAt_cons.mpr (by decide))
        (.blank (by decide) .nil)
    exact isLongestGap_iff.mpr ⟨hcomment, stopsAt_cons.mpr (by decide)⟩
  have hunits : Encodes charQuote ['a', '\''] ['a', '\\', '\''] :=
    .raw (by decide) (by decide) (.escape rfl .nil)
  have hfault : IsFault ['\'', 'a', '\\', '\'', '\\'] ⟨2, 1⟩ e last :=
    .unterminatedLiteral (.inl ⟨rfl, rfl⟩) hunits (.inr rfl) rfl
  obtain ⟨hiff, -, hlater⟩ := next_fails_exactly (l := l) rfl rfl hgap e (.ofCursor last)
  have hnext : l.next = (.error e, .ofCursor last) := hiff.mpr ⟨last, rfl, hfault⟩
  refine ⟨hnext, hfault, fun commands hcommands reply hreply => ?_⟩
  exact (hlater hnext last commands hcommands reply hreply).2 .char ⟨2, 1⟩ rfl

end Lexer

end ExprLang
