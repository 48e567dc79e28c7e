import ExprLang.CommandLine
import ExprLang.Proofs.Acceptance
import ExprLang.Proofs.Agenda.Descent
import ExprLang.Proofs.Delivery

set_option autoImplicit false

/-! # Parsing and taking all tokens

A parser takes tokens one by one and stops early; `tokenize` takes all of them first. The tokens
that successive calls take before the end or the first failure are the same for both, and a parser
that is refused a token has taken exactly those in front of it (`exists_delivers_of_syntactic`).
So what follows that token has no influence on the error, and a failure to read a token is reported
by the parser as it is, unless a token before it is refused.

`parser_agrees_with_tokenizer` is all of this in one statement.
-/

namespace ExprLang

open Lexer

/-! ## What a parser has taken -/

/-- A program ends at the end of the text. -/
theorem Parser.Parses.exists_ending {c : Cursor} {t : Tree} {r : TokenStream}
    (h : Parses (.program t) (.ofCursor c) r) : ∃ l, r = .ending l := by
  cases h with
  | program _ hstatements =>
      obtain ⟨ts, hstream, -⟩ := hstatements.derives
      obtain ⟨u, hu, heof⟩ := hstatements.head_isEof
      obtain ⟨d, -, rfl⟩ := exists_delivers hstream
      exact ⟨_, stream_of_head_eof (sound_ofCursor d) hu heof⟩

/-- A program falls into tokens. -/
theorem exists_tokenize_of_parse {text : String} {t : Tree} (h : parse text = .ok t) :
    ∃ ts, tokenize text = .ok ts := by
  obtain ⟨r, hparses⟩ := parse_eq_ok_iff.mp h
  obtain ⟨l, rfl⟩ := hparses.exists_ending
  obtain ⟨ts, hstream, -⟩ := hparses.derives
  exact ⟨_, tokenize_eq_ok_iff_stream.mpr ⟨ts, l, rfl, hstream⟩⟩

/-- A parser that is refused a token has taken all tokens in front of it. -/
theorem exists_delivers_of_syntactic {source : String} {e : SyntaxError}
    (h : parse source = .error (.syntactic e)) :
    ∃ ts l g gs r, (ofText source).Delivers ts l ∧ l.Sound ∧ l.next.1 = .ok e.found ∧
      Run [.statements] ts (g :: gs) l.stream ∧ g.Fails l.stream (.syntactic e) r := by
  obtain ⟨ts, g, gs, s, r, hstream, hrun, hfails⟩ := parse_eq_error_iff.mp h
  obtain ⟨d, hd, rfl⟩ := exists_delivers hstream
  refine ⟨ts, ofCursor d, g, gs, r, hd, sound_ofCursor d, ?_, hrun, hfails⟩
  rw [next_fst (sound_ofCursor d)]
  exact hfails.head_eq

/-- A parser that fails to read a token has taken all tokens in front of the failure. -/
theorem exists_delivers_of_lexical {source : String} {e : LexError}
    (h : parse source = .error (.lexical e)) :
    ∃ ts l g gs, (ofText source).Delivers ts l ∧ l.next.1 = .error e ∧
      Run [.statements] ts (g :: gs) l.stream := by
  obtain ⟨ts, g, gs, s, r, hstream, hrun, hfails⟩ := parse_eq_error_iff.mp h
  obtain ⟨d, hd, rfl⟩ := exists_delivers hstream
  refine ⟨ts, ofCursor d, g, gs, hd, ?_, hrun⟩
  rw [next_fst (sound_ofCursor d)]
  cases hfails with
  | lexical hhead => exact hhead

/-- A parser fails where its agenda does, once the tokens in front are taken. -/
theorem parse_eq_error_of_run {source : String} {ts : List Token} {l : Lexer} {g : Goal}
    {gs : Agenda} {e : ParseError} {r : TokenStream} (hdelivers : (ofText source).Delivers ts l)
    (hrun : Run [.statements] ts (g :: gs) l.stream) (hfails : g.Fails l.stream e r) :
    parse source = .error e := by
  obtain ⟨hstream, -⟩ := hdelivers.stream_eq (sound_ofCursor _)
  exact parse_eq_error_iff.mpr ⟨ts, g, gs, l.stream, r, hstream, hrun, hfails⟩

/-- Where tokens of the same kinds and values are followed by a token of the kind and the value of a
token that is refused, the parser comes to the same goal. -/
theorem exists_run_of_delivers {source source' : String} {ts us : List Token} {l l' : Lexer}
    {e : SyntaxError} {u : Token} (h : parse source = .error (.syntactic e))
    (hl : (ofText source).Delivers ts l) (hfound : l.next.1 = .ok e.found)
    (hl' : (ofText source').Delivers us l') (hnext : l'.next.1 = .ok u) (hword : word us = word ts)
    (hterminal : u.terminal = e.found.terminal) :
    ∃ g gs r, l.stream.head = .ok e.found ∧ g.Fails l.stream (.syntactic e) r ∧
      l'.stream.head = .ok u ∧ Run [.statements] us (g :: gs) l'.stream := by
  obtain ⟨vs, m, g, gs, r, hm, hsound, hnext', hrun, hfails⟩ := exists_delivers_of_syntactic h
  obtain ⟨rfl, rfl⟩ := hl.unique_of_next hm hfound hnext'
  have hhead : l.stream.head = .ok e.found := by rw [← next_fst hsound, hfound]
  have hhead' : l'.stream.head = .ok u := by
    rw [← next_fst (hl'.stream_eq (sound_ofCursor _)).2, hnext]
  have hagree : l.stream.Agree l'.stream := by
    intro v hv
    obtain rfl := Except.ok.inj (hhead.symm.trans hv)
    exact ⟨u, hhead', hterminal.symm⟩
  exact ⟨g, gs, r, hhead, hfails, hhead', hrun.congr hword.symm hagree⟩

/-- The tokens up to one that is refused decide on the error. -/
theorem parse_eq_of_delivers {source source' : String} {ts : List Token} {l l' : Lexer}
    {e : SyntaxError} (h : parse source = .error (.syntactic e))
    (hl : (ofText source).Delivers ts l) (hfound : l.next.1 = .ok e.found)
    (hl' : (ofText source').Delivers ts l') (hfound' : l'.next.1 = .ok e.found) :
    parse source' = .error (.syntactic e) := by
  obtain ⟨g, gs, r, -, hfails, hhead', hrun⟩ :=
    exists_run_of_delivers h hl hfound hl' hfound' rfl rfl
  obtain ⟨r', hfails'⟩ := hfails.of_head_eq hhead'
  exact parse_eq_error_of_run hl' hrun hfails'

/-- The kinds and the values of the tokens up to one that is refused decide that there is an
error. -/
theorem parse_ne_ok_of_delivers {source source' : String} {ts us : List Token} {l l' : Lexer}
    {e : SyntaxError} {u : Token} (h : parse source = .error (.syntactic e))
    (hl : (ofText source).Delivers ts l) (hfound : l.next.1 = .ok e.found)
    (hl' : (ofText source').Delivers us l') (hnext : l'.next.1 = .ok u)
    (hword : word us = word ts) (hterminal : u.terminal = e.found.terminal) (t : Tree) :
    parse source' ≠ .ok t := by
  obtain ⟨g, gs, r, hhead, hfails, hhead', hrun⟩ :=
    exists_run_of_delivers h hl hfound hl' hnext hword hterminal
  obtain ⟨e', r', hfails'⟩ := hfails.congr hhead hhead' hterminal.symm
  rw [parse_eq_error_of_run hl' hrun hfails']
  exact nofun

/-! ## What all calls together take -/

namespace Lexer

/-- What some calls take is the beginning of what all calls take. -/
theorem DeliversAll.exists_append {l m last : Lexer} {ts T : List Token}
    (hT : l.DeliversAll T last) (h : l.Delivers ts m) :
    ∃ vs, T = ts ++ vs ∧ m.Delivers vs last := by
  obtain ⟨hdelivers, hmaximal⟩ := hT
  obtain ⟨vs, rfl, hvs⟩ | ⟨vs, rfl, hvs⟩ := h.linear hdelivers
  · exact ⟨vs, rfl, hvs⟩
  · cases hvs with
    | nil => exact ⟨[], (List.append_nil _).symm.trans (List.append_nil _).symm, .nil⟩
    | cons hnext ht _ =>
        have heof := hmaximal _ (congrArg Prod.fst hnext)
        rw [ht] at heof
        cases heof

/-- Where no token comes next, the calls are at their end. -/
theorem DeliversAll.eq_of_next {l m last : Lexer} {ts T : List Token} (hT : l.DeliversAll T last)
    (h : l.Delivers ts m) (hnext : ∀ t, m.next.1 = .ok t → t.isEof = true) :
    T = ts ∧ m = last := by
  obtain ⟨vs, rfl, hvs⟩ := hT.exists_append h
  cases hvs with
  | nil => exact ⟨List.append_nil ts, rfl⟩
  | cons htaken ht _ =>
      have heof := hnext _ (congrArg Prod.fst htaken)
      rw [ht] at heof
      cases heof

/-- A token that comes next, if it is not the last one, is among those that are taken. -/
theorem DeliversAll.mem_of_next {l m last : Lexer} {ts T : List Token} {t : Token}
    (hT : l.DeliversAll T last) (h : l.Delivers ts m) (hnext : m.next.1 = .ok t) :
    t ∈ T ∨ m = last := by
  obtain ⟨vs, rfl, hvs⟩ := hT.exists_append h
  cases hvs with
  | nil => exact .inr rfl
  | cons htaken _ _ =>
      obtain rfl := Except.ok.inj (hnext.symm.trans (congrArg Prod.fst htaken))
      exact .inl (by simp)

end Lexer

/-- Not all tokens are read if and only if the calls that take them end in a failure. -/
theorem tokenize_eq_error_iff {source : String} {T : List Token} {last : Lexer} {e : LexError}
    (hT : (ofText source).DeliversAll T last) :
    tokenize source = .error e ↔ last.next.1 = .error e := by
  have htokens : tokenize source = (TokenStream.ofText source).tokens :=
    drain_fst (.ofText source)
  rw [htokens, TokenStream.tokens_eq_error_iff]
  constructor
  · rintro ⟨us, r, hstream, hr⟩
    obtain ⟨d, hd, rfl⟩ := exists_delivers hstream
    have hnext : (ofCursor d).next.1 = .error e := by
      rw [next_fst (sound_ofCursor d)]
      exact hr
    obtain ⟨-, rfl⟩ := hT.eq_of_next hd fun t ht => by rw [hnext] at ht; cases ht
    exact hnext
  · intro hnext
    obtain ⟨hstream, hsound⟩ := hT.1.stream_eq (sound_ofCursor _)
    exact ⟨T, last.stream, hstream, by rw [← next_fst hsound, hnext]⟩

/-- A failure to read a token is behind all tokens that are taken. -/
theorem location_lt_of_tokenize {source : String} {T : List Token} {last : Lexer} {e : LexError}
    (hT : (ofText source).DeliversAll T last) (h : last.next.1 = .error e) :
    ∀ t ∈ T, t.location < e.location := by
  obtain ⟨d, rfl, -, hlt⟩ := hT.1.location_bounds
  have hle : d.location ≤ e.location := Cursor.location_of_take_error (Prod.ext h rfl)
  exact fun t ht => Location.lt_of_lt_of_le (hlt t ht) hle

namespace CommandLine

/-- A failure to read a token is shown in the same way whatever is asked for. -/
theorem runOn_of_lexical {source : String} {e : LexError} {content : ByteArray}
    (hparse : parse source = .error (.lexical e)) (htokenize : tokenize source = .error e)
    (hcontent : String.fromUTF8? content = some source) :
    runOn true content = runOn false content := by
  have hdisplay : display true source = display false source := by
    simp [display, hparse, htokenize]
  simp only [runOn, hcontent, hdisplay]

end CommandLine

/-- Successive calls take some tokens `T` before the end or the first failure. If a source is
parsed, then all of it is read. If the parser fails to read a token, so does `tokenize`, and the
command line shows the same. If the parser is refused a token, that token is in `T` or the end
behind it, and all sources with the same tokens up to this one have the same error. If not all of
the source is read, the parser fails in the same way, or it is refused a token of `T`. -/
theorem parser_agrees_with_tokenizer (source : String) :
    (∃ T last, (ofText source).DeliversAll T last) ∧
    ∀ T last, (ofText source).DeliversAll T last →
      (∀ t, parse source = .ok t → ∃ ts, tokenize source = .ok ts) ∧
      (∀ e, parse source = .error (.lexical e) → tokenize source = .error e ∧
        ∀ content, String.fromUTF8? content = some source →
          CommandLine.runOn true content = CommandLine.runOn false content) ∧
      (∀ e, parse source = .error (.syntactic e) →
        (e.found ∈ T ∨ e.found.isEof = true ∧ last.next.1 = .ok e.found) ∧
          ∀ ts l source' l', (ofText source).Delivers ts l → l.next.1 = .ok e.found →
            (ofText source').Delivers ts l' → l'.next.1 = .ok e.found →
              parse source' = .error (.syntactic e)) ∧
      (∀ e, tokenize source = .error e → parse source = .error (.lexical e) ∨
        ∃ e', parse source = .error (.syntactic e') ∧ e'.found ∈ T ∧
          e'.location < e.location) := by
  refine ⟨exists_deliversAll _, fun T last hT => ?_⟩
  have hlexical : ∀ e, parse source = .error (.lexical e) → tokenize source = .error e := by
    intro e h
    obtain ⟨ts, l, -, -, hdelivers, hnext, -⟩ := exists_delivers_of_lexical h
    obtain ⟨-, rfl⟩ := hT.eq_of_next hdelivers fun t ht => by rw [hnext] at ht; cases ht
    exact (tokenize_eq_error_iff hT).mpr hnext
  have hfound : ∀ e, parse source = .error (.syntactic e) →
      e.found ∈ T ∨ last.next.1 = .ok e.found := by
    intro e h
    obtain ⟨ts, l, -, -, -, hdelivers, -, hnext, -⟩ := exists_delivers_of_syntactic h
    obtain hmem | rfl := hT.mem_of_next hdelivers hnext
    · exact .inl hmem
    · exact .inr hnext
  refine ⟨fun t => exists_tokenize_of_parse, ?_, ?_, ?_⟩
  · intro e h
    exact ⟨hlexical e h, fun content => CommandLine.runOn_of_lexical h (hlexical e h)⟩
  · intro e h
    refine ⟨?_, fun ts l source' l' => parse_eq_of_delivers h⟩
    obtain hmem | hnext := hfound e h
    · exact .inl hmem
    · exact .inr ⟨hT.2 _ hnext, hnext⟩
  · intro e h
    have hnext := (tokenize_eq_error_iff hT).mp h
    cases hparse : parse source with
    | ok t =>
        obtain ⟨ts, hts⟩ := exists_tokenize_of_parse hparse
        rw [h] at hts
        cases hts
    | error e' =>
        cases e' with
        | lexical e' =>
            obtain rfl := Except.error.inj (h.symm.trans (hlexical e' hparse))
            exact .inl rfl
        | syntactic e' =>
            obtain hmem | hfound := hfound e' hparse
            · exact .inr ⟨e', rfl, hmem, location_lt_of_tokenize hT hnext _ hmem⟩
            · rw [hnext] at hfound
              cases hfound

/-- The second name is refused, so the character behind it is not met by the parser, and every
source that begins with the two names has this error. -/
theorem parser_agrees_with_tokenizer_names :
    let x : Token := ⟨.identifier, "x", ⟨1, 1⟩⟩
    let y : Token := ⟨.identifier, "y", ⟨1, 3⟩⟩
    let e : SyntaxError := .expectedToken y .punctuation ";"
    let last : Lexer := .ofCursor ⟨[' ', '$'], ⟨1, 4⟩⟩
    (ofText "x y $").DeliversAll [x, y] last ∧
      tokenize "x y $" = .error (.unexpectedCharacter '$' ⟨1, 5⟩) ∧
      parse "x y $" = .error (.syntactic e) ∧ e.found ∈ [x, y] ∧
      ∀ ts l source' l', (ofText "x y $").Delivers ts l → l.next.1 = .ok e.found →
        (ofText source').Delivers ts l' → l'.next.1 = .ok e.found →
          parse source' = .error (.syntactic e) := by
  intro x y e last
  have hfirst : (ofText "x y $").next = (.ok x, .ofCursor ⟨[' ', 'y', ' ', '$'], ⟨1, 2⟩⟩) := by
    with_unfolding_all rfl
  have hsecond : (ofCursor ⟨[' ', 'y', ' ', '$'], ⟨1, 2⟩⟩).next = (.ok y, last) := by
    with_unfolding_all rfl
  have hlast : last.next.1 = .error (.unexpectedCharacter '$' ⟨1, 5⟩) := by
    with_unfolding_all rfl
  have hT : (ofText "x y $").DeliversAll [x, y] last := by
    refine ⟨.cons hfirst rfl (.cons hsecond rfl .nil), fun t ht => ?_⟩
    rw [hlast] at ht
    cases ht
  have hdelivers : (ofText "x y $").Delivers [x] _ := .cons hfirst rfl .nil
  have hy : (ofCursor ⟨[' ', 'y', ' ', '$'], ⟨1, 2⟩⟩).stream.head = .ok y := by
    rw [← next_fst (sound_ofCursor _), hsecond]
  -- behind the operand there is neither an operator nor an argument, and a semicolon is due
  have hrun : Run [.statements] [x] [.demand (.exactly .punctuation ";"), .statements]
      (ofCursor ⟨[' ', 'y', ' ', '$'], ⟨1, 2⟩⟩).stream :=
    .plan rfl rfl (.plan rfl rfl (.take rfl (.plan hy rfl (.plan hy rfl (.plan hy rfl .done)))))
  have hparse : parse "x y $" = .error (.syntactic e) :=
    parse_eq_error_of_run hdelivers hrun (.refused hy rfl)
  have htokenize : tokenize "x y $" = .error (.unexpectedCharacter '$' ⟨1, 5⟩) :=
    (tokenize_eq_error_iff hT).mpr hlast
  obtain ⟨-, hall⟩ := parser_agrees_with_tokenizer "x y $"
  obtain ⟨-, -, hsyntactic, -⟩ := hall _ last hT
  exact ⟨hT, htokenize, hparse, by simp [e, SyntaxError.found], (hsyntactic e hparse).2⟩

end ExprLang
