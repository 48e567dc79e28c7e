import ExprLang.Proofs.Separation
import ExprLang.Proofs.WellFormed

set_option autoImplicit false

/-! # Texts behind gaps

A gap that begins with a line feed separates texts for the lexer: behind a text that falls into
tokens and such a gap, another text falls into the tokens into which it falls by itself, or fails as
it does by itself (`tokenize_append_gap`). Its places are those of a text that begins behind the gap
(`Location.shift`): its first line goes on in the line in which the gap ends, and so moves to the
right, while its other lines only move down.
-/

namespace ExprLang

/-! ## Texts that begin somewhere -/

namespace Location

/-- The place `l` of a text, when the text begins at `origin`. -/
def shift (origin l : Location) : Location :=
  if l.line = 1 then ⟨origin.line, origin.column + l.column - 1⟩
  else ⟨origin.line + l.line - 1, l.column⟩

theorem shift_start (origin : Location) : shift origin start = origin := by
  obtain ⟨line, column⟩ := origin
  rfl

theorem shift_advance (origin : Location) {l : Location} (hl : l.IsPlace) (c : Char) :
    shift origin (l.advance c) = (shift origin l).advance c := by
  obtain ⟨hline, hcolumn⟩ := hl
  unfold advance
  split
  · -- whichever line it is, the next one is not the first
    have hmoved : (shift origin l).line = origin.line + l.line - 1 := by
      unfold shift
      split
      · rename_i hfirst
        rw [hfirst, Nat.add_sub_cancel]
      · rfl
    have hnext : origin.line + (l.line + 1) - 1 = origin.line + l.line - 1 + 1 := by omega
    have hlater : ¬ l.line + 1 = 1 := by omega
    rw [shift, if_neg hlater, hmoved, hnext]
  · have hnext : origin.column + (l.column + 1) - 1 = origin.column + l.column - 1 + 1 := by
      omega
    unfold shift
    split
    · rw [hnext]
    · rfl

/-- The places of a text that begins at `origin` are the shifted places of the text. -/
theorem carries_shift (origin : Location) : start.Carries (shift origin) := by
  have hplace : start.IsPlace := ⟨Nat.le_refl 1, Nat.le_refl 1⟩
  generalize start = l at hplace
  intro text
  induction text generalizing l with
  | nil => rfl
  | cons c cs ih =>
      rw [after_cons, after_cons, ← shift_advance origin hplace]
      exact ih (l.advance c) (hplace.after [c])

end Location

/-! ## Streams in front of which there are tokens and gaps -/

namespace TokenStream

theorem tokens_prepend (r : TokenStream) (ts : List Token) :
    (r.prepend ts).tokens = r.tokens.map (ts ++ ·) := by
  induction ts with
  | nil => cases h : r.tokens <;> simp [h, Except.map]
  | cons t ts ih =>
      rw [prepend_cons, tokens, ih]
      cases r.tokens <;> rfl

theorem tokens_relocate (f : Location → Location) (s : TokenStream) :
    (s.relocate f).tokens =
      (s.tokens.map (List.map (Token.relocate f))).mapError (LexError.relocate f) := by
  induction s with
  | token t rest ih =>
      rw [relocate, tokens, tokens, ih]
      cases rest.tokens <;> rfl
  | fault e rest => rfl
  | stuck x l => rfl
  | ending l => rfl

/-- A gap in front of a text has no influence but on the places. -/
theorem ofCursor_append_gap {gap : List Char} (h : IsClosedGap gap) (ys : List Char)
    (l : Location) : ofCursor ⟨gap ++ ys, l⟩ = ofCursor ⟨ys, l.after gap⟩ := by
  apply ofCursor_congr
  rw [Cursor.read, Cursor.read]
  exact congrArg Cursor.readHere (Cursor.skipGapFrom_gap (h.isGap ys) l)

end TokenStream

/-! ## The lexer -/

theorem tokenize_eq_tokens (text : String) : tokenize text = (TokenStream.ofText text).tokens :=
  Lexer.drain_fst (.ofText text)

/-- Behind a text that falls into tokens and a gap that begins with a line feed, another text offers
what it offers by itself, at the places behind the gap. -/
theorem stream_append_gap {u w : String} {ts : List Token} {m : Location} {gap : List Char}
    (hu : tokenize u = .ok (ts ++ [.eof m])) (hw : w.toList = '\n' :: gap)
    (hgap : IsClosedGap gap) (v : String) :
    TokenStream.ofText (u ++ w ++ v) =
      ((TokenStream.ofText v).relocate (.shift (Location.start.after (u ++ w).toList))).prepend
        ts := by
  obtain ⟨us, l, hsplit, hstream⟩ := tokenize_eq_ok_iff_stream.mp hu
  obtain ⟨rfl, -⟩ := List.append_inj' hsplit rfl
  let origin : Location := Location.start.after (u ++ w).toList
  have hchars : (u ++ w ++ v).toList = u.toList ++ '\n' :: (gap ++ v.toList) := by
    rw [String.toList_append, String.toList_append, hw, List.append_assoc, List.cons_append]
  have horigin : (Location.start.after (u.toList ++ ['\n'])).after gap = origin := by
    rw [← Location.after_append, List.append_assoc, List.singleton_append, ← hw,
      ← String.toList_append]
  have hmoved : TokenStream.ofCursor ⟨v.toList, origin⟩ =
      (TokenStream.ofText v).relocate (.shift origin) := by
    have hcarried := TokenStream.ofCursor_relocate (c := Cursor.ofText v)
      (Location.carries_shift origin)
    rw [Cursor.relocate, show (Cursor.ofText v).location = .start from rfl,
      Location.shift_start] at hcarried
    exact hcarried
  calc TokenStream.ofText (u ++ w ++ v)
      = TokenStream.ofCursor ⟨u.toList ++ '\n' :: (gap ++ v.toList), .start⟩ := by
        rw [TokenStream.ofText, Cursor.ofText, hchars]
    _ = (TokenStream.ofCursor
          ⟨gap ++ v.toList, Location.start.after (u.toList ++ ['\n'])⟩).prepend ts :=
        TokenStream.ofCursor_append_line hstream _
    _ = (TokenStream.ofCursor ⟨v.toList, origin⟩).prepend ts := by
        rw [TokenStream.ofCursor_append_gap hgap, horigin]
    _ = ((TokenStream.ofText v).relocate (.shift origin)).prepend ts := by rw [hmoved]

/-- Behind a source that falls into tokens and a gap that begins with a line feed, another source
adds its own tokens, shifted to where the gap ends, or fails with its own error, shifted as well. -/
theorem tokenize_append_gap {u w : String} {ts : List Token} {m : Location} {gap : List Char}
    (hu : tokenize u = .ok (ts ++ [.eof m])) (hw : w.toList = '\n' :: gap)
    (hgap : IsClosedGap gap) (v : String) :
    (∀ ts', tokenize v = .ok ts' → tokenize (u ++ w ++ v) =
      .ok (ts ++ ts'.map (Token.relocate (.shift (Location.start.after (u ++ w).toList))))) ∧
    ∀ e, tokenize v = .error e → tokenize (u ++ w ++ v) =
      .error (e.relocate (.shift (Location.start.after (u ++ w).toList))) := by
  have hwhole : tokenize (u ++ w ++ v) = _ := (tokenize_eq_tokens _).trans
    (congrArg TokenStream.tokens (stream_append_gap hu hw hgap v))
  rw [TokenStream.tokens_prepend, TokenStream.tokens_relocate, ← tokenize_eq_tokens] at hwhole
  refine ⟨fun ts' h => ?_, fun e h => ?_⟩
  · rw [hwhole, h]
    rfl
  · rw [hwhole, h]
    rfl

/-- The first source ends inside a comment, and the gap with a blank in its last line. The name is
moved to the right and the number only down; an error in the first line is moved to the right. -/
theorem tokenize_append_gap_comment :
    let x : Token := ⟨.identifier, "x", ⟨1, 1⟩⟩
    tokenize "x#c" = .ok ([x] ++ [.eof ⟨1, 4⟩]) ∧
      tokenize ("x#c" ++ "\n#d\n " ++ "y\n1") =
        .ok ([x] ++ [⟨.identifier, "y", ⟨3, 2⟩⟩, ⟨.int, "1", ⟨4, 1⟩⟩, .eof ⟨4, 2⟩]) ∧
      tokenize ("x#c" ++ "\n#d\n " ++ "y@") = .error (.unexpectedCharacter '@' ⟨3, 3⟩) := by
  intro x
  have hx : tokenize "x#c" = .ok ([x] ++ [.eof ⟨1, 4⟩]) := by with_unfolding_all rfl
  have hy : tokenize "y\n1" = .ok [⟨.identifier, "y", ⟨1, 1⟩⟩, ⟨.int, "1", ⟨2, 1⟩⟩,
      .eof ⟨2, 2⟩] := by with_unfolding_all rfl
  have hat : tokenize "y@" = .error (.unexpectedCharacter '@' ⟨1, 2⟩) := by
    with_unfolding_all rfl
  have hw : "\n#d\n ".toList = '\n' :: '#' :: (['d'] ++ '\n' :: [' ']) := rfl
  have hgap : IsClosedGap ('#' :: (['d'] ++ '\n' :: [' '])) :=
    .comment (by decide) (List.forall_mem_singleton.mpr rfl) (.blank (by decide) .nil)
  have horigin : Location.start.after ("x#c" ++ "\n#d\n ").toList = ⟨3, 2⟩ := by
    rw [String.toList_append]
    rfl
  obtain ⟨htokens, -⟩ := tokenize_append_gap hx hw hgap "y\n1"
  obtain ⟨-, herror⟩ := tokenize_append_gap hx hw hgap "y@"
  rw [horigin] at htokens herror
  exact ⟨hx, htokens _ hy, herror _ hat⟩

end ExprLang
