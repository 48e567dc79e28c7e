import ExprLang.Proofs.Lexeme
import ExprLang.Proofs.Stream

set_option autoImplicit false

/-! # How a text falls into tokens

A segmentation cuts a text into gaps and lexemes by turns, from a gap to a gap. It is valid if
every gap is as long as possible and every lexeme stops where the rules for lexemes say; nothing
in it speaks of an order of reading. The stream of a text that has a valid segmentation offers the
tokens of the segmentation (`Segmentation.tokens_ofCursor`), and a text whose stream has no failure
has one (`Segmentation.exists_of_tokens`). No text has two (`Segmentation.unique`).
-/

namespace ExprLang

/-- A text in pieces, gap by gap and lexeme by lexeme. -/
inductive Segmentation where
  /-- The gap at the end of the text. -/
  | last (gap : List Char)
  /-- A gap, the lexeme behind it, and all that comes behind the lexeme. -/
  | lexeme (gap : List Char) (kind : Token.Kind) (value text : List Char)
      (behind : Segmentation)

namespace Segmentation

/-- The pieces one behind the other. -/
def text : Segmentation → List Char
  | .last gap => gap
  | .lexeme gap _ _ text behind => gap ++ (text ++ behind.text)

/-- The number of lexemes. -/
def size : Segmentation → Nat
  | .last _ => 0
  | .lexeme _ _ _ _ behind => behind.size + 1

/-- All gaps are as long as possible, and all lexemes are what they are said to be. -/
def Valid : Segmentation → Prop
  | .last gap => IsLongestGap [] gap
  | .lexeme gap kind value text behind =>
    IsLongestGap (text ++ behind.text) gap ∧ IsLexeme behind.text kind value text ∧ behind.Valid

/-- The segmentation cuts this text. -/
def Splits (g : Segmentation) (xs : List Char) : Prop := g.text = xs ∧ g.Valid

/-- The tokens of the lexemes in order and the end token, in a text that begins at `l`. A token
is where the first character of its lexeme is. -/
def tokens (l : Location) : Segmentation → List Token
  | .last gap => [.eof (l.after gap)]
  | .lexeme gap kind value text behind =>
    ⟨kind, .ofList value, l.after gap⟩ :: behind.tokens (l.after (gap ++ text))

theorem length_tokens (g : Segmentation) (l : Location) : (g.tokens l).length = g.size + 1 := by
  induction g generalizing l with
  | last gap => rfl
  | lexeme gap kind value text behind ih => rw [tokens, List.length_cons, ih, size]

end Segmentation

/-! ## Reading a segmentation -/

namespace Cursor

theorem read_lexeme {rest gap value text : List Char} {kind : Token.Kind}
    (hgap : IsLongestGap (text ++ rest) gap) (hlexeme : IsLexeme rest kind value text)
    (l : Location) :
    read ⟨gap ++ (text ++ rest), l⟩ =
      .token ⟨kind, .ofList value, l.after gap⟩ ⟨rest, l.after (gap ++ text)⟩ := by
  unfold read
  rw [skipGap_of_isLongestGap hgap, readHere_of_isLexeme hlexeme, Location.after_append]

theorem read_last {gap : List Char} (hgap : IsLongestGap [] gap) (l : Location) :
    read ⟨gap, l⟩ = .ending ⟨[], l.after gap⟩ := by
  have hskip := skipGap_of_isLongestGap hgap l
  rw [List.append_nil] at hskip
  unfold read
  rw [hskip]
  rfl

/-- A token stands behind a longest gap. -/
theorem exists_of_read_token {xs : List Char} {l : Location} {t : Token} {behind : Cursor}
    (h : read ⟨xs, l⟩ = .token t behind) :
    ∃ gap kind value text, xs = gap ++ (text ++ behind.rest) ∧
      IsLongestGap (text ++ behind.rest) gap ∧ IsLexeme behind.rest kind value text ∧
      t = ⟨kind, .ofList value, l.after gap⟩ ∧ behind.location = l.after (gap ++ text) := by
  obtain ⟨gap, rest, rfl, hgap⟩ := exists_longestGap xs
  unfold read at h
  rw [skipGap_of_isLongestGap hgap] at h
  obtain ⟨kind, value, text, hlexeme, hrest, ht, hlocation⟩ := readHere_eq_token_iff.mp h
  obtain rfl : rest = text ++ behind.rest := hrest
  refine ⟨gap, kind, value, text, rfl, hgap, hlexeme, ht, ?_⟩
  rw [Location.after_append]
  exact hlocation

/-- At the end there is nothing but a longest gap. -/
theorem isLongestGap_of_read_ending {xs : List Char} {l : Location} {last : Cursor}
    (h : read ⟨xs, l⟩ = .ending last) : IsLongestGap [] xs ∧ last.location = l.after xs := by
  obtain ⟨gap, rest, rfl, hgap⟩ := exists_longestGap xs
  unfold read at h
  rw [skipGap_of_isLongestGap hgap] at h
  obtain ⟨hrest, rfl⟩ := eq_of_readHere_ending h
  obtain rfl : rest = [] := hrest
  rw [List.append_nil]
  exact ⟨hgap, rfl⟩

end Cursor

namespace Segmentation

/-- The stream of a text that has a segmentation offers the tokens of the segmentation. -/
theorem tokens_ofCursor {g : Segmentation} (hg : g.Valid) (l : Location) :
    (TokenStream.ofCursor ⟨g.text, l⟩).tokens = .ok (g.tokens l) := by
  induction g generalizing l with
  | last gap =>
      rw [text, TokenStream.ofCursor_of_ending (Cursor.read_last hg l)]
      rfl
  | lexeme gap kind value text behind ih =>
      obtain ⟨hgap, hlexeme, hbehind⟩ := hg
      have hread := Cursor.read_lexeme hgap hlexeme l
      rw [Segmentation.text, TokenStream.ofCursor_of_token hread, TokenStream.tokens,
        ih hbehind]
      rfl

/-- A text whose stream has no failure has a segmentation. -/
theorem exists_of_tokens {xs : List Char} {l : Location} {ts : List Token}
    (h : (TokenStream.ofCursor ⟨xs, l⟩).tokens = .ok ts) :
    ∃ g : Segmentation, g.Splits xs ∧ g.tokens l = ts := by
  -- on the length of the text: behind a token there is less of it
  induction hn : xs.length using Nat.strongRecOn generalizing xs l ts with
  | ind n ih =>
      cases hread : Cursor.read ⟨xs, l⟩ with
      | token t behind =>
          have hshort := Cursor.length_of_read_token hread
          obtain ⟨gap, kind, value, text, hsplit, hgap, hlexeme, ht, hlocation⟩ :=
            Cursor.exists_of_read_token hread
          rw [TokenStream.ofCursor_of_token hread] at h
          cases hrest : (TokenStream.ofCursor behind).tokens with
          | ok us =>
              have hts : t :: us = ts := by simpa [TokenStream.tokens, hrest] using h
              obtain ⟨g, ⟨htext, hvalid⟩, htokens⟩ :=
                ih behind.rest.length (hn ▸ hshort) hrest rfl
              refine ⟨.lexeme gap kind value text g, ⟨?_, ?_, ?_, hvalid⟩, ?_⟩
              · rw [Segmentation.text, htext, hsplit]
              · rwa [htext]
              · rwa [htext]
              · rw [tokens, ← ht, ← hlocation, htokens, hts]
          | error e => simp [TokenStream.tokens, hrest] at h
      | ending last =>
          obtain ⟨hgap, hlocation⟩ := Cursor.isLongestGap_of_read_ending hread
          rw [TokenStream.ofCursor_of_ending hread, hlocation] at h
          exact ⟨.last xs, ⟨rfl, hgap⟩, Except.ok.inj h⟩
      | fault e behind => rw [TokenStream.ofCursor_of_fault hread] at h; cases h
      | stuck x before => rw [TokenStream.ofCursor_of_stuck hread] at h; cases h

/-- Two longest gaps of one text are the same. -/
theorem longestGap_unique {gap gap' rest rest' : List Char} (hsame : gap ++ rest = gap' ++ rest')
    (hgap : IsLongestGap rest gap) (hgap' : IsLongestGap rest' gap') :
    gap = gap' ∧ rest = rest' := by
  have hle := hgap.2 gap' rest' hsame.symm hgap'.1
  have hge := hgap'.2 gap rest hsame hgap.1
  exact List.append_inj hsame (Nat.le_antisymm hge hle)

/-- Two lexemes that a text begins with are the same. -/
theorem lexeme_unique {kind kind' : Token.Kind} {value value' text text' rest rest' : List Char}
    (hsame : text ++ rest = text' ++ rest') (h : IsLexeme rest kind value text)
    (h' : IsLexeme rest' kind' value' text') :
    kind = kind' ∧ value = value' ∧ text = text' ∧ rest = rest' := by
  -- the rules do not compare lexemes, but a cursor reads only one
  have hread := Cursor.readHere_of_isLexeme h .start
  rw [hsame, Cursor.readHere_of_isLexeme h' .start] at hread
  simp only [Reading.token.injEq, Token.mk.injEq, Cursor.mk.injEq, String.ofList_inj] at hread
  obtain ⟨⟨rfl, rfl, -⟩, rfl, -⟩ := hread
  exact ⟨rfl, rfl, List.append_cancel_right hsame, rfl⟩

/-- A text that is one gap has no lexeme in it. -/
theorem text_lexeme_ne {gap gap' value text : List Char} {kind : Token.Kind}
    {behind : Segmentation} (hgap : IsLongestGap [] gap)
    (h : (lexeme gap' kind value text behind).Valid) :
    gap ≠ (lexeme gap' kind value text behind).text := by
  obtain ⟨hgap', hlexeme, -⟩ := h
  intro hsame
  rw [Segmentation.text, ← List.append_nil gap] at hsame
  obtain ⟨-, hnil⟩ := longestGap_unique hsame hgap hgap'
  exact hlexeme.text_ne_nil (List.append_eq_nil_iff.mp hnil.symm).1

/-- A text has at most one valid segmentation. -/
theorem unique {g g' : Segmentation} (hg : g.Valid) (hg' : g'.Valid) (hsame : g.text = g'.text) :
    g = g' := by
  induction g generalizing g' with
  | last gap =>
      cases g' with
      | last gap' => rw [show gap = gap' from hsame]
      | lexeme gap' kind' value' text' behind' => exact absurd hsame (text_lexeme_ne hg hg')
  | lexeme gap kind value text behind ih =>
      cases g' with
      | last gap' => exact absurd hsame.symm (text_lexeme_ne hg' hg)
      | lexeme gap' kind' value' text' behind' =>
          obtain ⟨hgap, hlexeme, hbehind⟩ := hg
          obtain ⟨hgap', hlexeme', hbehind'⟩ := hg'
          -- the gaps agree, hence the lexemes behind them, hence what is behind the lexemes
          obtain ⟨rfl, hahead⟩ := longestGap_unique hsame hgap hgap'
          obtain ⟨rfl, rfl, rfl, hrest⟩ := lexeme_unique hahead hlexeme hlexeme'
          rw [ih hbehind hbehind' hrest]

/-- No token of a segmentation but the last one is the end token. -/
theorem tokens_eq_append (g : Segmentation) (hg : g.Valid) (l : Location) :
    ∃ ts, g.tokens l = ts ++ [.eof (l.after g.text)] ∧ ∀ t ∈ ts, t.kind ≠ .eof := by
  induction g generalizing l with
  | last gap => exact ⟨[], rfl, by simp⟩
  | lexeme gap kind value text behind ih =>
      obtain ⟨-, hlexeme, hbehind⟩ := hg
      obtain ⟨ts, hts, hkind⟩ := ih hbehind (l.after (gap ++ text))
      refine ⟨⟨kind, .ofList value, l.after gap⟩ :: ts, ?_, ?_⟩
      · rw [tokens, hts, ← Location.after_append, List.append_assoc]
        rfl
      · intro t ht
        rcases List.mem_cons.mp ht with rfl | ht
        · exact hlexeme.kind_ne_eof
        · exact hkind t ht

end Segmentation

/-! ## The lexer -/

/-- A text falls into tokens if and only if it has a valid segmentation, and the tokens are those
of the segmentation. -/
theorem tokenize_eq_ok_iff_segmentation {source : String} {ts : List Token} :
    tokenize source = .ok ts ↔
      ∃ g : Segmentation, g.Splits source.toList ∧ g.tokens .start = ts := by
  have htokens : tokenize source = (TokenStream.ofCursor ⟨source.toList, .start⟩).tokens :=
    Lexer.drain_fst (.ofText source)
  rw [htokens]
  constructor
  · exact Segmentation.exists_of_tokens
  · rintro ⟨g, ⟨htext, hvalid⟩, rfl⟩
    rw [← htext]
    exact Segmentation.tokens_ofCursor hvalid .start

/-- The lexer cuts a source into longest gaps and the lexemes between them. It succeeds if and
only if the source can be cut in this way, there is no second way to cut it, and it returns one
token for each lexeme and the end token behind them. -/
theorem tokenize_segments (source : String) :
    ((∃ ts, tokenize source = .ok ts) ↔ ∃ g : Segmentation, g.Splits source.toList) ∧
      ∀ g : Segmentation, g.Splits source.toList →
        tokenize source = .ok (g.tokens .start) ∧ (g.tokens .start).length = g.size + 1 ∧
          ∀ g' : Segmentation, g'.Splits source.toList → g' = g := by
  refine ⟨?_, ?_⟩
  · constructor
    · rintro ⟨ts, hts⟩
      obtain ⟨g, hg, -⟩ := tokenize_eq_ok_iff_segmentation.mp hts
      exact ⟨g, hg⟩
    · rintro ⟨g, hg⟩
      exact ⟨_, tokenize_eq_ok_iff_segmentation.mpr ⟨g, hg, rfl⟩⟩
  · intro g hg
    refine ⟨tokenize_eq_ok_iff_segmentation.mpr ⟨g, hg, rfl⟩, g.length_tokens .start, ?_⟩
    intro g' hg'
    exact Segmentation.unique hg'.2 hg.2 (hg'.1.trans hg.1.symm)

/-- A name, and a comment that goes up to the end of the text. -/
theorem tokenize_segments_comment :
    let g : Segmentation := .lexeme [] .identifier ['x'] ['x'] (.last [' ', '#', 'y'])
    g.Splits "x #y".toList ∧ tokenize "x #y" = .ok (g.tokens .start) ∧
      (g.tokens .start).length = g.size + 1 ∧
        ∀ g' : Segmentation, g'.Splits "x #y".toList → g' = g := by
  intro g
  have hcomment : IsGap [] ('#' :: (['y'] ++ [])) :=
    .comment (by decide) (List.forall_mem_singleton.mpr rfl) (stopsAt_nil _) .nil
  have hlast : IsLongestGap [] [' ', '#', 'y'] :=
    isLongestGap_iff.mpr ⟨.blank (by decide) hcomment, stopsAt_nil _⟩
  have hx : IsLexeme [' ', '#', 'y'] .identifier ['x'] ['x'] :=
    .identifier (by decide) (by decide) (by decide)
  have hsplits : g.Splits "x #y".toList :=
    ⟨rfl, isLongestGap_iff.mpr ⟨.nil, hx.stopsAt_gap⟩, hx, hlast⟩
  exact ⟨hsplits, (tokenize_segments "x #y").2 g hsplits⟩

end ExprLang
