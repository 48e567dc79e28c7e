import ExprLang.Proofs.Relocation
import ExprLang.Proofs.Repetition

set_option autoImplicit false

/-! # Texts behind texts

Reading does not depend on where a text is: read at another place it offers the same tokens there
(`TokenStream.ofCursor_relocate`), if the places go on as a text does (`Location.Carries`). And a
line feed separates texts: no gap, no comment and no token goes on over it, so in front of it a text
that falls into tokens offers just these, and behind it the next text is read as if nothing had
been there (`TokenStream.ofCursor_append_line`).
-/

namespace ExprLang

open Lexer

/-! ## Reading at another place -/

/-- The places of a text from `l` on are moved to the places of the text from `f l` on. -/
def Location.Carries (f : Location → Location) (l : Location) : Prop :=
  ∀ text, f (l.after text) = (f l).after text

theorem Location.Carries.after {f : Location → Location} {l : Location} (h : l.Carries f)
    (text : List Char) : (l.after text).Carries f := by
  intro more
  rw [← Location.after_append, h, Location.after_append, h]

def Cursor.relocate (f : Location → Location) (c : Cursor) : Cursor := ⟨c.rest, f c.location⟩

/-- What is found at another place. -/
def Reading.relocate (f : Location → Location) : Reading → Reading
  | .token t behind => .token (t.relocate f) (behind.relocate f)
  | .ending last => .ending (last.relocate f)
  | .fault e behind => .fault (e.relocate f) (behind.relocate f)
  | .stuck x before => .stuck x (before.relocate f)

namespace Cursor

variable {f : Location → Location} {rest : List Char} {j : Location} {e : LexError}
  {behind : Cursor}

theorem isFault_relocate (h : IsFault rest j e behind) (hf : j.Carries f) :
    IsFault rest (f j) (e.relocate f) (behind.relocate f) := by
  cases h with
  | unexpectedCharacter hrest hx => exact .unexpectedCharacter hrest hx
  | unterminatedLiteral hkind htext htail hrest =>
      show IsFault rest (f j) _ ⟨[], f (j.after rest)⟩
      rw [hf]
      exact .unterminatedLiteral hkind htext htail hrest
  | @unknownEscape _ quote x _ text behind hkind htext hx hrest =>
      show IsFault rest (f j) (.unknownEscape x (f (j.after (quote :: text))))
        ⟨behind, f (j.after (quote :: (text ++ ['\\', x])))⟩
      rw [hf, hf]
      exact .unknownEscape hkind htext hx hrest

/-- What goes wrong behind the first character is a fault. -/
theorem readHere_of_isFault (h : IsFault rest j e behind)
    (he : ∀ x l, e ≠ .unexpectedCharacter x l) : readHere ⟨rest, j⟩ = .fault e behind := by
  have htake := take_readHere_eq_error_iff.mpr h
  cases hread : readHere ⟨rest, j⟩ with
  | token t last => rw [hread] at htake; cases htake
  | ending last => rw [hread] at htake; cases htake
  | fault e' last =>
      rw [hread] at htake
      cases htake
      rfl
  | stuck x before =>
      rw [hread] at htake
      cases htake
      exact absurd rfl (he x _)

theorem readHere_relocate (hf : j.Carries f) :
    readHere ⟨rest, f j⟩ = (readHere ⟨rest, j⟩).relocate f := by
  cases hread : readHere ⟨rest, j⟩ with
  | token t behind =>
      obtain ⟨kind, value, text, hlexeme, hrest, rfl, hlocation⟩ := readHere_eq_token_iff.mp hread
      refine readHere_eq_token_iff.mpr ⟨kind, value, text, hlexeme, hrest, rfl, ?_⟩
      show f behind.location = (f j).after text
      rw [hlocation, ← hf]
  | ending last =>
      obtain ⟨hrest, rfl⟩ := eq_of_readHere_ending hread
      obtain rfl : rest = [] := hrest
      rfl
  | fault e behind =>
      have hfault : IsFault rest j e behind :=
        take_readHere_eq_error_iff.mp (by rw [hread]; rfl)
      refine readHere_of_isFault (isFault_relocate hfault hf) ?_
      cases hfault with
      | unexpectedCharacter hrest hx =>
          rw [hrest, readHere_of_beginsLexeme_eq_false hx] at hread
          cases hread
      | unterminatedLiteral => exact fun _ _ => nofun
      | unknownEscape => exact fun _ _ => nofun
  | stuck x before =>
      have hfault : IsFault rest j (.unexpectedCharacter x before.location) before :=
        take_readHere_eq_error_iff.mp (by rw [hread]; rfl)
      generalize before.location = m at hfault
      cases hfault with
      | unexpectedCharacter hrest hx =>
          rw [hrest, readHere_of_beginsLexeme_eq_false hx]
          rfl

theorem read_relocate {xs : List Char} {l : Location} (hf : l.Carries f) :
    read ⟨xs, f l⟩ = (read ⟨xs, l⟩).relocate f := by
  obtain ⟨gap, rest, rfl, hgap⟩ := exists_longestGap xs
  unfold read
  rw [skipGap_of_isLongestGap hgap, skipGap_of_isLongestGap hgap, ← hf]
  exact readHere_relocate (hf.after gap)

end Cursor

/-- A text at another place offers the same at other places. -/
theorem TokenStream.ofCursor_relocate {f : Location → Location} {c : Cursor}
    (hf : c.location.Carries f) : ofCursor (c.relocate f) = (ofCursor c).relocate f := by
  induction hn : c.rest.length using Nat.strongRecOn generalizing c with
  | ind n ih =>
      have hread : (c.relocate f).read = c.read.relocate f := Cursor.read_relocate hf
      obtain ⟨text, -, hlocation⟩ := c.reaches_take
      cases hc : c.read with
      | token t behind =>
          rw [hc] at hread hlocation
          have hbehind : behind.location.Carries f := by
            rw [show behind.location = _ from hlocation]
            exact hf.after text
          have hshort := Cursor.length_of_read_token hc
          rw [ofCursor_of_token hc, ofCursor_of_token hread, ih _ (hn ▸ hshort) hbehind rfl]
          rfl
      | ending last =>
          rw [hc] at hread
          rw [ofCursor_of_ending hc, ofCursor_of_ending hread]
          rfl
      | fault e behind =>
          rw [hc] at hread hlocation
          have hbehind : behind.location.Carries f := by
            rw [show behind.location = _ from hlocation]
            exact hf.after text
          have hshort := Cursor.length_of_read_fault hc
          rw [ofCursor_of_fault hc, ofCursor_of_fault hread, ih _ (hn ▸ hshort) hbehind rfl]
          rfl
      | stuck x before =>
          rw [hc] at hread
          rw [ofCursor_of_stuck hc, ofCursor_of_stuck hread]
          rfl

/-! ## Texts in front of a line feed -/

theorem StopsAt.append {p : Char → Bool} {rest : List Char} (h : StopsAt p rest) {c : Char}
    (hc : p c = false) (ys : List Char) : StopsAt p (rest ++ c :: ys) := by
  cases rest with
  | nil => exact stopsAt_cons.mpr hc
  | cons x xs => exact stopsAt_cons.mpr (stopsAt_cons.mp h)

theorem IsGap.append_line {rest gap : List Char} (h : IsGap rest gap) (ys : List Char) :
    IsGap (rest ++ '\n' :: ys) gap := by
  induction h with
  | nil => exact .nil
  | blank hc _ ih => exact .blank hc ih
  | comment hc hline hstop _ ih =>
      refine .comment hc hline ?_ ih
      rw [← List.append_assoc]
      exact hstop.append (by decide) ys

/-- No token goes on over a line feed behind it. -/
theorem IsLexeme.append_line {rest value text : List Char} {kind : Token.Kind}
    (h : IsLexeme rest kind value text) (ys : List Char) :
    IsLexeme (rest ++ '\n' :: ys) kind value text :=
  h.congr_ahead fun _ hp hstop => hstop.append (hp '\n' (by decide)) ys

namespace Cursor

/-- A token in front of a line feed is read as if the text ended there. -/
theorem read_append_line_of_token {xs : List Char} {l : Location} {t : Token} {behind : Cursor}
    (h : read ⟨xs, l⟩ = .token t behind) (ys : List Char) :
    read ⟨xs ++ '\n' :: ys, l⟩ = .token t ⟨behind.rest ++ '\n' :: ys, behind.location⟩ := by
  obtain ⟨gap, kind, value, text, rfl, hgap, hlexeme, rfl, hlocation⟩ := exists_of_read_token h
  have hlexeme' := hlexeme.append_line ys
  have hgap' : IsLongestGap (text ++ (behind.rest ++ '\n' :: ys)) gap := by
    rw [← List.append_assoc]
    refine isLongestGap_iff.mpr ⟨(isLongestGap_iff.mp hgap).1.append_line ys, ?_⟩
    rw [List.append_assoc]
    exact hlexeme'.stopsAt_gap
  rw [List.append_assoc, List.append_assoc, hlocation]
  exact read_lexeme hgap' hlexeme' l

/-- Behind nothing but a gap and a line feed, reading begins with what is there. -/
theorem read_append_line_of_ending {xs : List Char} {l : Location} {last : Cursor}
    (h : read ⟨xs, l⟩ = .ending last) (ys : List Char) :
    read ⟨xs ++ '\n' :: ys, l⟩ = read ⟨ys, l.after (xs ++ ['\n'])⟩ := by
  obtain ⟨hgap, -⟩ := isLongestGap_of_read_ending h
  have hgap' : IsGap ('\n' :: ys) xs := (isLongestGap_iff.mp hgap).1.append_line ys
  have hline : IsGap ys ['\n'] := .blank (by decide) .nil
  have hskip : skipGap ⟨xs ++ '\n' :: ys, l⟩ = skipGap ⟨ys, l.after (xs ++ ['\n'])⟩ := by
    show skipGapFrom false l (xs ++ '\n' :: ys) = skipGapFrom false (l.after (xs ++ ['\n'])) ys
    rw [skipGapFrom_gap hgap', Location.after_append]
    exact skipGapFrom_gap hline (l.after xs)
  rw [read, hskip, read]

end Cursor

namespace TokenStream

/-- All that is ahead is determined by what is read first. -/
theorem ofCursor_congr {c d : Cursor} (h : c.read = d.read) : ofCursor c = ofCursor d := by
  cases hread : d.read with
  | token t behind => rw [ofCursor_of_token hread, ofCursor_of_token (h.trans hread)]
  | ending last => rw [ofCursor_of_ending hread, ofCursor_of_ending (h.trans hread)]
  | fault e behind => rw [ofCursor_of_fault hread, ofCursor_of_fault (h.trans hread)]
  | stuck x before => rw [ofCursor_of_stuck hread, ofCursor_of_stuck (h.trans hread)]

/-- If a text falls into tokens, then behind it and a line feed another text is read as it is
read there. -/
theorem ofCursor_append_line {xs : List Char} {l m : Location} {ts : List Token}
    (h : ofCursor ⟨xs, l⟩ = (ending m).prepend ts) (ys : List Char) :
    ofCursor ⟨xs ++ '\n' :: ys, l⟩ =
      (ofCursor ⟨ys, l.after (xs ++ ['\n'])⟩).prepend ts := by
  induction ts generalizing xs l with
  | nil =>
      obtain ⟨last, hread, -⟩ := exists_of_ofCursor_eq_ending h
      exact ofCursor_congr (Cursor.read_append_line_of_ending hread ys)
  | cons t ts ih =>
      obtain ⟨behind, hread, hbehind⟩ := exists_of_ofCursor_eq_token h
      have hmoved := Cursor.reaches_of_read_token hread
      have hlocation : behind.location.after (behind.rest ++ ['\n']) = l.after (xs ++ ['\n']) :=
        calc behind.location.after (behind.rest ++ ['\n'])
            = (behind.location.after behind.rest).after ['\n'] := Location.after_append ..
          _ = (l.after xs).after ['\n'] := by rw [hmoved.after_rest]
          _ = l.after (xs ++ ['\n']) := (Location.after_append ..).symm
      rw [ofCursor_of_token (Cursor.read_append_line_of_token hread ys), prepend_cons, ih hbehind,
        hlocation]

end TokenStream

end ExprLang
