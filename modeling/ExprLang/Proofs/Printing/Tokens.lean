import ExprLang.Proofs.Printing
import ExprLang.Proofs.Segmentation

set_option autoImplicit false

/-! # Printing tokens

`Terminal.IsToken` says which values a token of each kind may have, and `Terminal.PrintsAs` how it
may be written: as its value, or, if it has quotes, with a free choice of escapes between them. Any
tokens may be written one behind the other, with gaps around and between them that are free as well
(`Segmentation.Prints`). A closed gap ends every token in front of it and begins none, so the lexer
finds the tokens again, each where its text begins (`tokenize_undoes_printing`).
-/

namespace ExprLang

open CharClass

/-! ## Single tokens -/

namespace Terminal

/-- The kind and the value are those of a token. Quoted literals may have any content. -/
inductive IsToken : Terminal → Prop where
  | int {value : String} : IsRun isDigit value.toList → IsToken (.int, value)
  | float {value : String} : IsFraction value.toList → IsToken (.float, value)
  | char {value : String} : IsToken (.char, value)
  | string {value : String} : IsToken (.string, value)
  | identifier {value : String} : IsIdentifier value → IsToken (.identifier value)
  | keyword {value : String} : CharClass.isKeyword value = true → IsToken (.keyword value)
  | operator {value : String} : IsRun isOperatorChar value.toList → IsToken (.operator value)
  | punctuation {value : String} {c : Char} : value.toList = [c] → isPunctuationChar c = true →
      IsToken (.punctuation value)

/-- The token may be written as the text. -/
inductive PrintsAs : Terminal → List Char → Prop where
  | char {value : String} {text : List Char} : Encodes charQuote value.toList text →
      PrintsAs (.char, value) (charQuote :: (text ++ [charQuote]))
  | string {value : String} {text : List Char} : Encodes stringQuote value.toList text →
      PrintsAs (.string, value) (stringQuote :: (text ++ [stringQuote]))
  | unquoted {x : Terminal} : x.1 ≠ .char → x.1 ≠ .string → PrintsAs x x.2.toList

theorem exists_printsAs (x : Terminal) : ∃ text, x.PrintsAs text := by
  obtain ⟨kind, value⟩ := x
  by_cases hchar : kind = .char
  · subst hchar
    obtain ⟨text, htext⟩ := exists_encodes charQuote rfl value.toList
    exact ⟨_, .char htext⟩
  by_cases hstring : kind = .string
  · subst hstring
    obtain ⟨text, htext⟩ := exists_encodes stringQuote rfl value.toList
    exact ⟨_, .string htext⟩
  · exact ⟨_, .unquoted hchar hstring⟩

/-- The reserved words are names. -/
theorem isName_of_isKeyword {value : String} (h : CharClass.isKeyword value = true) :
    IsName value.toList := by
  have htable : keywords.all (fun word => decide (IsName word.toList)) = true := by decide
  exact of_decide_eq_true (List.all_eq_true.mp htable value (List.contains_iff_mem.mp h))

/-- At the end of the text a token is a lexeme by itself. -/
theorem IsToken.isLexeme_nil {x : Terminal} {text : List Char} (hx : x.IsToken)
    (htext : x.PrintsAs text) : IsLexeme [] x.1 x.2.toList text := by
  cases htext with
  | char htext => exact .char htext
  | string htext => exact .string htext
  | unquoted hchar hstring =>
      cases hx with
      | int hds => exact .int hds (stopsAt_nil _)
      | float hfraction =>
          obtain ⟨ds, es, hvalue, hds, hes⟩ := hfraction
          rw [hvalue]
          exact .float hds hes (stopsAt_nil _)
      | char => exact absurd rfl hchar
      | string => exact absurd rfl hstring
      | identifier hname =>
          refine .identifier hname.1 (stopsAt_nil _) ?_
          rw [Terminal.identifier, String.ofList_toList]
          exact hname.2
      | keyword hword =>
          refine .keyword (isName_of_isKeyword hword) (stopsAt_nil _) ?_
          rw [Terminal.keyword, String.ofList_toList]
          exact hword
      | operator hrun => exact .operator hrun (stopsAt_nil _)
      | @punctuation value c hvalue hc =>
          have hlexeme : IsLexeme [] .punctuation [c] [c] := .punctuation hc
          rwa [← hvalue] at hlexeme

/-- No token goes on into a gap behind it. -/
theorem IsToken.isLexeme {x : Terminal} {text rest : List Char} (hx : x.IsToken)
    (htext : x.PrintsAs text) (hrest : ∀ c ∈ rest.head?, beginsGap c = true) :
    IsLexeme rest x.1 x.2.toList text :=
  (hx.isLexeme_nil htext).congr_ahead fun _ hp _ c hc => hp c (hrest c hc)

end Terminal

/-! ## Rows of tokens -/

namespace Segmentation

/-- The next lexeme, if there is one, has a gap in front of it. -/
def IsApart : Segmentation → Prop
  | .last _ => True
  | .lexeme gap _ _ _ _ => gap ≠ []

/-- The segmentation is these tokens in some writing, with closed gaps around all and between any
two of them. -/
inductive Prints : Segmentation → List Terminal → Prop where
  | last {gap : List Char} : IsClosedGap gap → Prints (.last gap) []
  | lexeme {gap text : List Char} {x : Terminal} {behind : Segmentation} {w : List Terminal} :
      IsClosedGap gap → x.PrintsAs text → behind.IsApart → Prints behind w →
      Prints (.lexeme gap x.1 x.2.toList text behind) (x :: w)

/-- Any row of tokens can be printed, with blanks between the tokens. -/
theorem exists_prints (w : List Terminal) : ∃ g : Segmentation, g.IsApart ∧ g.Prints w := by
  induction w with
  | nil => exact ⟨.last [], trivial, .last .nil⟩
  | cons x w ih =>
      obtain ⟨behind, hapart, hprints⟩ := ih
      obtain ⟨text, htext⟩ := x.exists_printsAs
      exact ⟨.lexeme [' '] x.1 x.2.toList text behind, List.cons_ne_nil _ _,
        .lexeme (.blank (by decide) .nil) htext hapart hprints⟩

/-- Behind a lexeme there is the end of the text or a gap. -/
theorem Prints.head_text {g : Segmentation} {w : List Terminal} (h : g.Prints w)
    (hapart : g.IsApart) : ∀ c ∈ g.text.head?, beginsGap c = true := by
  cases h with
  | last hgap => exact hgap.head
  | @lexeme gap text x behind w hgap htext hbehind hprints =>
      obtain ⟨d, ds, rfl⟩ := List.exists_cons_of_ne_nil hapart
      exact hgap.head

/-- What is printed is cut into longest gaps and lexemes. -/
theorem Prints.valid {g : Segmentation} {w : List Terminal} (h : g.Prints w)
    (hw : ∀ x ∈ w, x.IsToken) : g.Valid := by
  induction h with
  | last hgap => exact isLongestGap_iff.mpr ⟨hgap.isGap [], stopsAt_nil _⟩
  | @lexeme gap text x behind w hgap htext hapart hprints ih =>
      obtain ⟨hx, hrest⟩ := List.forall_mem_cons.mp hw
      have hlexeme : IsLexeme behind.text x.1 x.2.toList text :=
        hx.isLexeme htext (hprints.head_text hapart)
      exact ⟨isLongestGap_iff.mpr ⟨hgap.isGap _, hlexeme.stopsAt_gap⟩, hlexeme, ih hrest⟩

theorem Prints.word_tokens {g : Segmentation} {w : List Terminal} (h : g.Prints w)
    (l : Location) : word (g.tokens l) = w ++ [(.eof, "")] := by
  induction h generalizing l with
  | last => rfl
  | @lexeme gap text x behind w _ _ _ _ ih =>
      have hx : Token.terminal ⟨x.1, .ofList x.2.toList, l.after gap⟩ = x := by
        rw [Token.terminal, String.ofList_toList]
      calc word ((Segmentation.lexeme gap x.1 x.2.toList text behind).tokens l)
          = Token.terminal ⟨x.1, .ofList x.2.toList, l.after gap⟩ ::
              word (behind.tokens (l.after (gap ++ text))) := rfl
        _ = x :: (w ++ [(.eof, "")]) := by rw [hx, ih]

end Segmentation

/-! ## The lexer -/

/-- Any row of tokens can be printed; and however it is printed, with whatever escapes in the quoted
literals and whatever gaps between the tokens, the lexer takes the text apart into these tokens and
one end token, each where its text begins. -/
theorem tokenize_undoes_printing {w : List Terminal} (hw : ∀ x ∈ w, x.IsToken) :
    (∃ g : Segmentation, g.Prints w) ∧ ∀ g : Segmentation, g.Prints w →
      tokenize (.ofList g.text) = .ok (g.tokens .start) ∧
        word (g.tokens .start) = w ++ [(.eof, "")] := by
  refine ⟨?_, fun g hg => ⟨?_, hg.word_tokens .start⟩⟩
  · obtain ⟨g, -, hg⟩ := Segmentation.exists_prints w
    exact ⟨g, hg⟩
  · have hsplits : g.Splits (String.ofList g.text).toList :=
      ⟨String.toList_ofList.symm, hg.valid hw⟩
    exact tokenize_eq_ok_iff_segmentation.mpr ⟨g, hsplits, rfl⟩

/-- A string that holds a line feed, a number sign and its own quote, the first of them raw and the
last escaped, behind a name and a comment that holds a quote. -/
theorem tokenize_undoes_printing_string :
    let w : List Terminal := [.identifier "x", (.string, "\n#\"")]
    let g : Segmentation := .lexeme [] .identifier ['x'] ['x']
      (.lexeme ['#', '\'', '\n'] .string ['\n', '#', '"'] ['"', '\n', '#', '\\', '"', '"']
        (.last []))
    (∀ x ∈ w, x.IsToken) ∧ g.Prints w ∧
      tokenize (.ofList g.text) = .ok [⟨.identifier, "x", ⟨1, 1⟩⟩, ⟨.string, "\n#\"", ⟨2, 1⟩⟩,
        .eof ⟨3, 5⟩] := by
  intro w g
  have hw : ∀ x ∈ w, x.IsToken := by
    refine List.forall_mem_cons.mpr ⟨.identifier ⟨by decide, by decide⟩, ?_⟩
    exact List.forall_mem_singleton.mpr .string
  have hcomment : IsClosedGap ('#' :: (['\''] ++ '\n' :: [])) :=
    .comment (by decide) (List.forall_mem_singleton.mpr rfl) .nil
  have hcontent : Encodes stringQuote "\n#\"".toList ['\n', '#', '\\', '"'] :=
    .raw (by decide) (by decide) (.raw (by decide) (by decide) (.escape rfl .nil))
  have hg : g.Prints w := by
    refine .lexeme (x := .identifier "x") .nil (.unquoted nofun nofun) (List.cons_ne_nil _ _) ?_
    exact .lexeme hcomment (.string hcontent) trivial (.last .nil)
  exact ⟨hw, hg, ((tokenize_undoes_printing hw).2 g hg).1⟩

end ExprLang
