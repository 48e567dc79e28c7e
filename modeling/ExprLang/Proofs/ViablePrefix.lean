import ExprLang.Proofs.Agenda.Words
import ExprLang.Proofs.Agreement
import ExprLang.Proofs.RoundTrip

set_option autoImplicit false

/-! # Where errors are reported

The tokens in front of an error are the beginning of some program, and with the token at fault
behind them they are not. The first is so because what a parser has taken can be completed to a
word of the grammar (`Run.exists_completion`), because this word can be written as a source, and
because the parser accepts every word of the grammar. The second is so because a parser that takes
the same tokens comes to the same goal, which refuses the same token.

`syntax_error_at_first_impossible_token` says both for syntax errors, and the first for lexical
errors.
-/

namespace ExprLang

open Lexer

/-- Some source begins with tokens of these kinds and values, and is a program. -/
def BeginsProgram (w : List Terminal) : Prop :=
  ∃ source t ts l, (ofText source).Delivers ts l ∧ word ts = w ∧ parse source = .ok t

/-! ## Sources for words -/

/-- A lexeme is one in front of a blank too. -/
theorem IsLexeme.in_front_of_space {rest value text : List Char} {kind : Token.Kind}
    (h : IsLexeme rest kind value text) : IsLexeme [' '] kind value text :=
  h.congr_ahead fun _ hp _ => stopsAt_cons.mpr (hp ' ' (by decide))

/-- The tokens of a text can be written. -/
theorem isWritable_of_ofCursor {c : Cursor} {s : TokenStream} {ts : List Token}
    (h : TokenStream.ofCursor c = s.prepend ts) : ∀ x ∈ word ts, x.IsWritable := by
  rw [List.forall_mem_map]
  refine TokenStream.forall_of_ofCursor (fun c t behind hread => ?_) h
  obtain ⟨-, kind, value, text, -, -, hlexeme, rfl, -⟩ := Cursor.exists_of_read_token hread
  have hspace := hlexeme.in_front_of_space
  rw [← String.toList_ofList (l := value)] at hspace
  exact Terminal.isWritable_of_isLexeme hspace

/-- A word that can be written is that of the tokens of some source. -/
theorem exists_stream_of_isWritable {w : List Terminal} (hw : ∀ x ∈ w, x.IsWritable) :
    ∃ text ts l, TokenStream.ofText text = (TokenStream.ending l).prepend ts ∧ word ts = w := by
  obtain ⟨writings, hwritings⟩ := exists_word hw
  let text : String := .ofList ([' '].intercalate (writings.map Writing.text))
  have htext : text.toList = [' '].intercalate (writings.map Writing.text) := String.toList_ofList
  obtain ⟨ts, l, hstream, hword⟩ := exists_stream_of_writings htext
  exact ⟨text, ts, l, hstream, hword.trans hwritings⟩

/-- A word that can be written begins a program if the grammar can go on behind it. -/
theorem beginsProgram_of_derives {v w : List Terminal} (h : Derives .statements (v ++ w))
    (hv : ∀ x ∈ v, x.IsWritable) (hw : ∀ x ∈ w, x.IsWritable) : BeginsProgram v := by
  obtain ⟨text, ts, l, hstream, hword⟩ :=
    exists_stream_of_isWritable (List.forall_mem_append.mpr ⟨hv, hw⟩)
  rw [← hword] at h
  obtain ⟨xs, hxs⟩ := Parser.parses_of_derives_statements h l
  have hhead : ∃ u, ((TokenStream.ending l).prepend ts).head = .ok u := by
    cases ts with
    | nil => exact ⟨_, rfl⟩
    | cons u us => exact ⟨u, rfl⟩
  obtain ⟨u, hu⟩ := hhead
  -- the word falls apart in the tokens of the source
  obtain ⟨us, vs, rfl, hus, -⟩ := List.map_eq_append_iff.mp hword
  have hparse := parse_eq_ok_iff.mpr ⟨.ending l, hstream ▸ Parser.Parses.program hu hxs⟩
  rw [TokenStream.prepend_append] at hstream
  obtain ⟨d, hd, -⟩ := exists_delivers hstream
  exact ⟨_, _, us, _, hd, hus, hparse⟩

/-- The tokens that a parser has taken begin a program. -/
theorem beginsProgram_of_run {source : String} {ts : List Token} {l : Lexer} {gs : Agenda}
    (hdelivers : (ofText source).Delivers ts l) (hrun : Run [.statements] ts gs l.stream) :
    BeginsProgram (word ts) := by
  obtain ⟨w, hderives, hw⟩ := hrun.exists_completion
  obtain ⟨hstream, -⟩ := hdelivers.stream_eq (sound_ofCursor _)
  exact beginsProgram_of_derives hderives (isWritable_of_ofCursor hstream) hw

/-- The tokens in front of a token that is refused begin a program, but no program begins with
tokens of the same kinds and values and with a token of the kind and the value of the refused one
behind them; where the end is refused, no program consists of such tokens. The tokens in front of a
lexical error begin a program too. -/
theorem syntax_error_at_first_impossible_token (source : String) :
    (∀ e, parse source = .error (.syntactic e) →
      ∃ ts l, (ofText source).Delivers ts l ∧ l.next.1 = .ok e.found ∧
        BeginsProgram (word ts) ∧
        ∀ source' us l' u, (ofText source').Delivers us l' → l'.next.1 = .ok u →
          word us = word ts → u.terminal = e.found.terminal → ∀ t, parse source' ≠ .ok t) ∧
    (∀ e, parse source = .error (.lexical e) →
      ∃ ts l, (ofText source).Delivers ts l ∧ l.next.1 = .error e ∧ BeginsProgram (word ts)) := by
  refine ⟨fun e h => ?_, fun e h => ?_⟩
  · obtain ⟨ts, l, g, gs, r, hdelivers, -, hnext, hrun, -⟩ := exists_delivers_of_syntactic h
    refine ⟨ts, l, hdelivers, hnext, beginsProgram_of_run hdelivers hrun, ?_⟩
    intro source' us l' u hl' hu hword hterminal
    exact parse_ne_ok_of_delivers h hdelivers hnext hl' hu hword hterminal
  · obtain ⟨ts, l, g, gs, hdelivers, hnext, hrun⟩ := exists_delivers_of_lexical h
    exact ⟨ts, l, hdelivers, hnext, beginsProgram_of_run hdelivers hrun⟩

/-- A block that is not closed: its statement can be followed by much, but not by the end. -/
theorem syntax_error_at_first_impossible_token_block :
    let e : SyntaxError := .expectedToken (.eof ⟨1, 3⟩) .punctuation "\x7d"
    parse "\x7bx" = .error (.syntactic e) ∧
      ∃ ts l, (ofText "\x7bx").Delivers ts l ∧ l.next.1 = .ok e.found ∧ BeginsProgram (word ts) ∧
        ∀ source' us l' u, (ofText source').Delivers us l' → l'.next.1 = .ok u →
          word us = word ts → u.terminal = e.found.terminal → ∀ t, parse source' ≠ .ok t := by
  intro e
  let bracket : Token := ⟨.punctuation, "\x7b", ⟨1, 1⟩⟩
  let x : Token := ⟨.identifier, "x", ⟨1, 2⟩⟩
  have hfirst : (ofText "\x7bx").next = (.ok bracket, .ofCursor ⟨['x'], ⟨1, 2⟩⟩) := by
    with_unfolding_all rfl
  have hsecond : (ofCursor ⟨['x'], ⟨1, 2⟩⟩).next = (.ok x, .ofCursor ⟨[], ⟨1, 3⟩⟩) := by
    with_unfolding_all rfl
  have hend : (ofCursor ⟨[], ⟨1, 3⟩⟩).stream.head = .ok (.eof ⟨1, 3⟩) := by
    rw [← next_fst (sound_ofCursor _)]
    rfl
  have hdelivers : (ofText "\x7bx").Delivers [bracket, x] _ :=
    .cons hfirst rfl (.cons hsecond rfl .nil)
  -- behind the name neither an argument nor an operator comes, and the list has to be closed
  have hname : ∀ gs : Agenda, Run (.items .block :: gs) [x] (Agenda.close .block ++ gs)
      (ofCursor ⟨[], ⟨1, 3⟩⟩).stream := fun _ =>
    .plan rfl rfl (.plan rfl rfl (.take rfl
      (.plan hend rfl (.plan hend rfl (.plan hend rfl (.plan hend rfl .done))))))
  have hrun : Run [.statements] [bracket, x] (.demand (.exactly .punctuation "\x7d") :: _)
      (ofCursor ⟨[], ⟨1, 3⟩⟩).stream := .plan rfl rfl (.plan rfl rfl (.take rfl (hname _)))
  have hparse : parse "\x7bx" = .error (.syntactic e) :=
    parse_eq_error_of_run hdelivers hrun (.refused hend rfl)
  exact ⟨hparse, (syntax_error_at_first_impossible_token _).1 e hparse⟩

end ExprLang
