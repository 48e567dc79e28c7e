import ExprLang.Proofs.Parses
import ExprLang.Proofs.Success

set_option autoImplicit false

/-! # The rules are the parser

The productions and the rules of `Parses` agree: what a production yields can be read by the
rules (`parses_expression` and its like), and what the rules read a production yields
(`Parses.yields`). Hence `parse_eq_ok_iff`: a text is a program if and only if the rules read its
stream as one.
-/

namespace ExprLang

/-- A token is an operator between expressions if and only if it is that operator's symbol. -/
theorem Token.operator?_eq_some {t : Token} {op : Operator} :
    t.operator? = some op ↔ t.isOperator op.symbol = true := by
  rw [Token.isOperator, Token.is_iff, Token.operator?]
  by_cases hkind : t.kind = .operator
  · simpa [hkind, eq_comm] using Operator.ofSymbol?_eq_some_iff
  · simp [hkind]

namespace Parser

open Outcome

/-! ## What the productions yield, the rules read

One statement for each production. They call each other where the productions do, so the measure
that the productions decrease serves here too. -/

mutual

theorem parses_expression {s r : TokenStream} {t : Tree} (h : (expression s).Yields t r) :
    Parses (.expression t) s r := by
  rw [expression] at h
  obtain ⟨first, r₁, hfirst, h⟩ := yields_andThen.mp h
  obtain ⟨e, r₂, he, h⟩ := yields_andThen.mp h
  -- the recursive calls are for shorter streams
  have hr₁ := hfirst.size_lt
  have hr₂ := he.size_lt
  exact .expression (parses_atom hfirst) (parses_chain he) (parses_applied (yields_widen.mp h))
termination_by 8 * s.size + 4

theorem parses_chain {floor : Nat} {left t : Tree} {s r : TokenStream}
    (h : (chain floor left s).Yields t r) : Parses (.chain floor left t) s r := by
  rw [chain] at h
  obtain ⟨u, hu, h⟩ := yields_look.mp h
  cases hop : u.operator? with
  | none =>
      simp only [hop, yields_ok] at h
      obtain ⟨rfl, rfl⟩ := h
      exact .chainStop hu (by simp [hop])
  | some op =>
      simp only [hop] at h
      by_cases hfloor : op.precedence ≤ floor
      · rw [if_pos hfloor, yields_ok] at h
        obtain ⟨rfl, rfl⟩ := h
        exact .chainStop hu (by simpa [hop] using hfloor)
      · rw [if_neg hfloor] at h
        obtain ⟨sign, r₁, hsign, h⟩ := yields_andThen.mp h
        obtain ⟨first, r₂, hfirst, h⟩ := yields_andThen.mp h
        obtain ⟨right, r₃, hright, h⟩ := yields_andThen.mp h
        have hr₁ := hsign.size_lt
        have hr₂ := hfirst.size_lt
        have hr₃ := hright.size_lt
        obtain ⟨rfl, -⟩ := yields_expect.mp hsign
        cases hu
        exact .chainLink hop (Nat.lt_of_not_le hfloor) (parses_atom hfirst)
          (parses_chain hright) (parses_chain (yields_widen.mp h))
termination_by 8 * s.size

theorem parses_applied {callee t : Tree} {s r : TokenStream}
    (h : (applied callee s).Yields t r) : Parses (.applied callee t) s r := by
  rw [applied] at h
  obtain ⟨u, hu, h⟩ := yields_look.mp h
  by_cases hopen : u.isPunctuation Bracketing.arguments.opening = true
  · rw [if_pos hopen] at h
    obtain ⟨bracket, r₁, hbracket, h⟩ := yields_andThen.mp h
    obtain ⟨arguments, r₂, harguments, h⟩ := yields_andThen.mp (yields_preceded.mp h)
    have hr₁ := hbracket.size_lt
    obtain ⟨rfl, -⟩ := yields_expect.mp hbracket
    cases hu
    obtain ⟨rfl, rfl⟩ := yields_ok.mp h
    exact .call hopen (parses_items harguments)
  · rw [if_neg hopen, yields_ok] at h
    obtain ⟨rfl, rfl⟩ := h
    exact .noCall hu (Bool.eq_false_iff.mpr hopen)
termination_by 8 * s.size

theorem parses_atom {s r : TokenStream} {t : Tree} (h : (atom s).Yields t r) :
    Parses (.atom t) s r := by
  rw [atom] at h
  obtain ⟨p, r₁, hp, h⟩ := yields_andThen.mp h
  have hr₁ := hp.size_lt
  exact .atom (parses_primary hp) (parses_applied (yields_widen.mp h))
termination_by 8 * s.size + 3

theorem parses_primary {s r : TokenStream} {t : Tree} (h : (primary s).Yields t r) :
    Parses (.primary t) s r := by
  rw [primary] at h
  obtain ⟨u, hu, h⟩ := yields_look.mp h
  by_cases hparens : u.isPunctuation "(" = true
  · rw [if_pos hparens] at h
    obtain ⟨bracket, r₁, hbracket, h⟩ := yields_andThen.mp h
    obtain ⟨e, r₂, he, h⟩ := yields_andThen.mp h
    obtain ⟨closing, r₃, hclosing, h⟩ := yields_andThen.mp h
    have hr₁ := hbracket.size_lt
    obtain ⟨rfl, hopen⟩ := yields_expect.mp hbracket
    obtain ⟨rfl, hclose⟩ := yields_expect.mp hclosing
    obtain ⟨rfl, rfl⟩ := yields_ok.mp h
    exact .parens hopen (parses_expression he) hclose
  rw [if_neg hparens] at h
  split at h
  · exact .blockPrimary (parses_block h)
  split at h
  · exact .functionPrimary (parses_function h)
  split at h
  · exact .definitionPrimary (parses_definition h)
  obtain ⟨v, rfl, hv⟩ := yields_operand.mp h
  exact .operand hv
termination_by 8 * s.size + 2

theorem parses_block {s r : TokenStream} {t : Tree} (h : (block s).Yields t r) :
    Parses (.block t) s r := by
  rw [block] at h
  obtain ⟨bracket, r₁, hbracket, h⟩ := yields_andThen.mp h
  obtain ⟨statements, r₂, hstatements, h⟩ := yields_andThen.mp h
  have hr₁ := hbracket.size_lt
  obtain ⟨rfl, hu⟩ := yields_expect.mp hbracket
  obtain ⟨rfl, rfl⟩ := yields_ok.mp h
  exact .block hu (parses_items hstatements)
termination_by 8 * s.size + 1

theorem parses_function {s r : TokenStream} {t : Tree} (h : (function s).Yields t r) :
    Parses (.function t) s r := by
  rw [function] at h
  obtain ⟨word, r₁, hword, h⟩ := yields_andThen.mp h
  obtain ⟨name, r₂, hname, h⟩ := yields_andThen.mp h
  obtain ⟨bracket, r₃, hbracket, h⟩ := yields_andThen.mp (yields_preceded.mp h)
  obtain ⟨parameters, r₄, hparameters, h⟩ := yields_andThen.mp h
  obtain ⟨arrow, r₅, harrow, h⟩ := yields_andThen.mp h
  obtain ⟨result, r₆, hresult, h⟩ := yields_andThen.mp h
  obtain ⟨body, r₇, hbody, h⟩ := yields_andThen.mp h
  have hr₁ := hword.size_lt
  have hr₂ := hname.size_lt
  have hr₃ := hbracket.size_lt
  have hr₄ := hparameters.size_lt
  have hr₅ := harrow.size_lt
  have hr₆ := hresult.size_lt
  obtain ⟨rfl, hdef⟩ := yields_expect.mp hword
  obtain ⟨rfl, hname'⟩ := yields_identifier.mp hname
  obtain ⟨rfl, hopen⟩ := yields_expect.mp hbracket
  obtain ⟨rfl, harrow'⟩ := yields_expect.mp harrow
  obtain ⟨rfl, hresult'⟩ := yields_identifier.mp hresult
  obtain ⟨rfl, rfl⟩ := yields_ok.mp h
  exact .function hdef hname' hopen (parses_items hparameters) harrow' hresult'
    (parses_block hbody)
termination_by 8 * s.size + 1

theorem parses_definition {s r : TokenStream} {t : Tree} (h : (definition s).Yields t r) :
    Parses (.definition t) s r := by
  rw [definition] at h
  obtain ⟨u, hu, h⟩ := yields_look.mp h
  obtain ⟨word, r₁, hword, h⟩ := yields_andThen.mp h
  have hr₁ := hword.size_lt
  obtain ⟨rfl, hkeyword⟩ := yields_expect.mp hword
  cases hu
  have hbody := parses_variableBody (yields_widen.mp h)
  by_cases hconst : u.isKeyword "const" = true
  · exact .definition (.inl hconst) hbody
  · rw [if_neg hconst] at hkeyword
    exact .definition (.inr hkeyword) hbody
termination_by 8 * s.size + 1

theorem parses_parameter {s r : TokenStream} {t : Tree} (h : (parameter s).Yields t r) :
    Parses (.parameter t) s r := by
  rw [parameter] at h
  obtain ⟨u, hu, h⟩ := yields_look.mp h
  split at h
  · exact .parameterDefinition (parses_definition h)
  · have hbody := parses_variableBody h
    -- a variable takes a token, so the one looked at was there
    cases s with
    | token v s =>
        cases hu
        exact .parameterVariable hbody
    | fault e s => cases hu
    | stuck x l => cases hu
    | ending l => cases hbody
termination_by 8 * s.size + 2

theorem parses_variableBody {isConst : Bool} {l : Location} {s r : TokenStream} {t : Tree}
    (h : (variableBody isConst l s).Yields t r) :
    Parses (.variableBody isConst l t) s r := by
  rw [variableBody] at h
  obtain ⟨name, r₁, hname, h⟩ := yields_andThen.mp h
  obtain ⟨colon, r₂, hcolon, h⟩ := yields_andThen.mp h
  obtain ⟨type, r₃, htype, h⟩ := yields_andThen.mp h
  have hr₁ := hname.size_lt
  have hr₂ := hcolon.size_lt
  have hr₃ := htype.size_lt
  obtain ⟨rfl, hname'⟩ := yields_identifier.mp hname
  obtain ⟨rfl, hcolon'⟩ := yields_expect.mp hcolon
  obtain ⟨rfl, htype'⟩ := yields_identifier.mp htype
  obtain ⟨u, hu, h⟩ := yields_look.mp h
  by_cases hsign : u.isOperator Operator.assign.symbol = true
  · rw [if_pos hsign] at h
    obtain ⟨sign, r₄, htaken, h⟩ := yields_andThen.mp h
    obtain ⟨value, r₅, hvalue, h⟩ := yields_andThen.mp h
    have hr₄ := htaken.size_lt
    obtain ⟨rfl, hassign⟩ := yields_expect.mp htaken
    obtain ⟨rfl, rfl⟩ := yields_ok.mp h
    exact .variableValue hname' hcolon' htype' hassign (parses_expression hvalue)
  · rw [if_neg hsign, yields_ok] at h
    obtain ⟨rfl, rfl⟩ := h
    exact .variableAbsent hname' hcolon' htype' hu (Bool.eq_false_iff.mpr hsign)
termination_by 8 * s.size

theorem parses_items {b : Bracketing} {s r : TokenStream} {ts : List Tree}
    (h : (items b s).Yields ts r) : Parses (.items b ts) s r := by
  rw [items] at h
  obtain ⟨u, -, h⟩ := yields_look.mp h
  split at h
  · obtain ⟨rfl, v, rfl, hv⟩ := yields_close.mp h
    exact .itemsClose hv
  · obtain ⟨x, r₁, hx, h⟩ := yields_andThen.mp h
    obtain ⟨xs, r₂, hxs, h⟩ := yields_andThen.mp h
    have hr₁ := hx.size_lt
    obtain ⟨rfl, rfl⟩ := yields_ok.mp h
    exact .itemsCons (parses_element hx) (parses_moreItems hxs)
termination_by 8 * s.size + 6

theorem parses_moreItems {b : Bracketing} {s r : TokenStream} {ts : List Tree}
    (h : (moreItems b s).Yields ts r) : Parses (.moreItems b ts) s r := by
  rw [moreItems] at h
  obtain ⟨u, -, h⟩ := yields_look.mp h
  split at h
  · obtain ⟨rfl, v, rfl, hv⟩ := yields_close.mp h
    exact .moreClose hv
  · obtain ⟨sign, r₁, hsign, h⟩ := yields_andThen.mp h
    have hr₁ := hsign.size_lt
    obtain ⟨rfl, hseparator⟩ := yields_expect.mp hsign
    obtain ⟨v, -, h⟩ := yields_look.mp h
    split at h
    · obtain ⟨rfl, v, rfl, hv⟩ := yields_close.mp (yields_widen.mp h)
      exact .moreTrailing hseparator hv
    · obtain ⟨x, r₂, hx, h⟩ := yields_andThen.mp h
      obtain ⟨xs, r₃, hxs, h⟩ := yields_andThen.mp h
      have hr₂ := hx.size_lt
      obtain ⟨rfl, rfl⟩ := yields_ok.mp h
      exact .moreCons hseparator (parses_element hx) (parses_moreItems hxs)
termination_by 8 * s.size

theorem parses_element {b : Bracketing} {s r : TokenStream} {t : Tree}
    (h : (element b s).Yields t r) : Parses (.element b t) s r := by
  cases b with
  | arguments =>
      rw [element] at h
      exact .argument (parses_expression h)
  | parameters =>
      rw [element] at h
      exact .formal (parses_parameter h)
  | block =>
      rw [element] at h
      exact .statement (parses_expression h)
termination_by 8 * s.size + 5

end

theorem parses_statements {s r : TokenStream} {ts : List Tree}
    (h : (statements s).Yields ts r) : Parses (.statements ts) s r := by
  rw [statements] at h
  obtain ⟨u, hu, h⟩ := yields_look.mp h
  by_cases heof : u.isEof = true
  · rw [if_pos heof, yields_ok] at h
    obtain ⟨rfl, rfl⟩ := h
    exact .noStatements hu heof
  · rw [if_neg heof] at h
    obtain ⟨e, r₁, he, h⟩ := yields_andThen.mp h
    obtain ⟨semicolon, r₂, hsemicolon, h⟩ := yields_andThen.mp h
    obtain ⟨es, r₃, hes, h⟩ := yields_andThen.mp h
    have hr₁ := he.size_lt
    have hr₂ := hsemicolon.size_lt
    obtain ⟨rfl, hend⟩ := yields_expect.mp hsemicolon
    obtain ⟨rfl, rfl⟩ := yields_ok.mp h
    exact .statements (parses_expression he) hend (parses_statements hes)
termination_by s.size

theorem parses_program {s r : TokenStream} {t : Tree} (h : (program s).Yields t r) :
    Parses (.program t) s r := by
  rw [program] at h
  obtain ⟨u, hu, h⟩ := yields_look.mp h
  obtain ⟨es, r₁, hes, h⟩ := yields_andThen.mp h
  obtain ⟨rfl, rfl⟩ := yields_ok.mp h
  exact .program hu (parses_statements hes)

/-! ## What the rules read, the productions yield -/

/-- What it means that the production of a construct yields its result. -/
def Construct.Yields : Construct → TokenStream → TokenStream → Prop
  | .expression t, s, r => (Parser.expression s).Yields t r
  | .chain floor left t, s, r => (Parser.chain floor left s).Yields t r
  | .applied callee t, s, r => (Parser.applied callee s).Yields t r
  | .atom t, s, r => (Parser.atom s).Yields t r
  | .primary t, s, r => (Parser.primary s).Yields t r
  | .block t, s, r => (Parser.block s).Yields t r
  | .function t, s, r => (Parser.function s).Yields t r
  | .definition t, s, r => (Parser.definition s).Yields t r
  | .parameter t, s, r => (Parser.parameter s).Yields t r
  | .variableBody isConst l t, s, r => (Parser.variableBody isConst l s).Yields t r
  | .items b ts, s, r => (Parser.items b s).Yields ts r
  | .moreItems b ts, s, r => (Parser.moreItems b s).Yields ts r
  | .element b t, s, r => (Parser.element b s).Yields t r
  | .statements ts, s, r => (Parser.statements s).Yields ts r
  | .program t, s, r => (Parser.program s).Yields t r

theorem yields_chain_stop {floor : Nat} {left : Tree} {s : TokenStream} {u : Token}
    (hu : s.head = .ok u) (hstop : ∀ op, u.operator? = some op → op.precedence ≤ floor) :
    (chain floor left s).Yields left s := by
  rw [chain]
  refine yields_look.mpr ⟨u, hu, ?_⟩
  cases hop : u.operator? with
  | none => exact yields_ok.mpr ⟨rfl, rfl⟩
  | some op =>
      simp only
      rw [if_pos (hstop op hop)]
      exact yields_ok.mpr ⟨rfl, rfl⟩

theorem yields_chain_link {floor : Nat} {left first right t : Tree} {s r r' r'' : TokenStream}
    {u : Token} {op : Operator} (hop : u.operator? = some op) (hfloor : floor < op.precedence)
    (hfirst : (atom s).Yields first r) (hright : (chain op.precedence first r).Yields right r')
    (ht : (chain floor (.operation op left right u.location) r').Yields t r'') :
    (chain floor left (.token u s)).Yields t r'' := by
  rw [chain]
  refine yields_look.mpr ⟨u, rfl, ?_⟩
  simp only [hop]
  rw [if_neg (Nat.not_le.mpr hfloor)]
  have hsign : (expect .operator op.symbol (.token u s)).Yields u s :=
    yields_expect.mpr ⟨rfl, Token.operator?_eq_some.mp hop⟩
  exact yields_andThen.mpr ⟨u, s, hsign, yields_andThen.mpr ⟨first, r, hfirst,
    yields_andThen.mpr ⟨right, r', hright, yields_widen.mpr ht⟩⟩⟩

theorem yields_call {callee : Tree} {arguments : List Tree} {s r : TokenStream} {u : Token}
    (hu : u.isPunctuation "(" = true) (h : (items .arguments s).Yields arguments r) :
    (applied callee (.token u s)).Yields (.call callee arguments callee.location) r := by
  rw [applied]
  refine yields_look.mpr ⟨u, rfl, ?_⟩
  rw [if_pos (show u.isPunctuation Bracketing.arguments.opening = true from hu)]
  exact yields_andThen.mpr ⟨u, s, yields_expect.mpr ⟨rfl, hu⟩,
    yields_preceded.mpr (yields_andThen.mpr ⟨arguments, r, h, yields_ok.mpr ⟨rfl, rfl⟩⟩)⟩

theorem yields_no_call {callee : Tree} {s : TokenStream} {u : Token} (hu : s.head = .ok u)
    (hopen : u.isPunctuation "(" = false) : (applied callee s).Yields callee s := by
  rw [applied]
  refine yields_look.mpr ⟨u, hu, ?_⟩
  rw [if_neg (show ¬ u.isPunctuation Bracketing.arguments.opening = true from
    Bool.eq_false_iff.mp hopen)]
  exact yields_ok.mpr ⟨rfl, rfl⟩

theorem yields_parens {t : Tree} {s r : TokenStream} {u v : Token}
    (hu : u.isPunctuation "(" = true) (h : (expression s).Yields t (.token v r))
    (hv : v.isPunctuation ")" = true) : (primary (.token u s)).Yields t r := by
  rw [primary]
  refine yields_look.mpr ⟨u, rfl, ?_⟩
  rw [if_pos hu]
  exact yields_andThen.mpr ⟨u, s, yields_expect.mpr ⟨rfl, hu⟩, yields_andThen.mpr ⟨t, _, h,
    yields_andThen.mpr ⟨v, r, yields_expect.mpr ⟨rfl, hv⟩, yields_ok.mpr ⟨rfl, rfl⟩⟩⟩⟩

/-! The first token of a primary decides which one it is, so each of the others is ruled out by
its own first token. -/

theorem yields_primary_of_block {t : Tree} {s r : TokenStream} {u : Token}
    (hu : u.isPunctuation "\x7b" = true) (h : (block (.token u s)).Yields t r) :
    (primary (.token u s)).Yields t r := by
  rw [primary]
  refine yields_look.mpr ⟨u, rfl, ?_⟩
  have hparens : u.isPunctuation "(" = false := Token.is_eq_false hu (.inr (by decide))
  rw [if_neg (Bool.eq_false_iff.mp hparens),
    if_pos (show u.isPunctuation Bracketing.block.opening = true from hu)]
  exact h

theorem yields_primary_of_function {t : Tree} {s r : TokenStream} {u : Token}
    (hu : u.isKeyword "def" = true) (h : (function (.token u s)).Yields t r) :
    (primary (.token u s)).Yields t r := by
  rw [primary]
  refine yields_look.mpr ⟨u, rfl, ?_⟩
  have hparens : u.isPunctuation "(" = false := Token.is_eq_false hu (.inl (by decide))
  have hblock : u.isPunctuation Bracketing.block.opening = false :=
    Token.is_eq_false hu (.inl (by decide))
  rw [if_neg (Bool.eq_false_iff.mp hparens), if_neg (Bool.eq_false_iff.mp hblock), if_pos hu]
  exact h

theorem yields_primary_of_definition {t : Tree} {s r : TokenStream} {u : Token}
    (hu : u.isKeyword "const" = true ∨ u.isKeyword "mut" = true)
    (h : (definition (.token u s)).Yields t r) : (primary (.token u s)).Yields t r := by
  rw [primary]
  refine yields_look.mpr ⟨u, rfl, ?_⟩
  have hparens : u.isPunctuation "(" = false :=
    hu.elim (fun hu => Token.is_eq_false hu (.inl (by decide)))
      (fun hu => Token.is_eq_false hu (.inl (by decide)))
  have hblock : u.isPunctuation Bracketing.block.opening = false :=
    hu.elim (fun hu => Token.is_eq_false hu (.inl (by decide)))
      (fun hu => Token.is_eq_false hu (.inl (by decide)))
  have hfunction : u.isKeyword "def" = false :=
    hu.elim (fun hu => Token.is_eq_false hu (.inr (by decide)))
      (fun hu => Token.is_eq_false hu (.inr (by decide)))
  rw [if_neg (Bool.eq_false_iff.mp hparens), if_neg (Bool.eq_false_iff.mp hblock),
    if_neg (Bool.eq_false_iff.mp hfunction), if_pos (Bool.or_eq_true_iff.mpr hu)]
  exact h

theorem yields_primary_of_operand {t : Tree} {s : TokenStream} {u : Token}
    (hu : u.operand = .ok t) : (primary (.token u s)).Yields t s := by
  rw [primary]
  refine yields_look.mpr ⟨u, rfl, ?_⟩
  have hpunctuation : ∀ value, ¬ u.isPunctuation value = true := fun value h =>
    (Token.kind_of_operand hu).2.2 (Token.is_iff.mp h).1
  have hkeyword : ∀ word, word ≠ "true" → word ≠ "false" → u.isKeyword word = false :=
    fun _ => Token.isKeyword_of_operand hu
  rw [if_neg (hpunctuation _), if_neg (hpunctuation _), hkeyword "def" (by decide) (by decide),
    hkeyword "const" (by decide) (by decide), hkeyword "mut" (by decide) (by decide)]
  exact yields_operand.mpr ⟨u, rfl, hu⟩

theorem yields_block {statements : List Tree} {s r : TokenStream} {u : Token}
    (hu : u.isPunctuation "\x7b" = true) (h : (items .block s).Yields statements r) :
    (block (.token u s)).Yields (.block statements u.location) r := by
  rw [block]
  exact yields_andThen.mpr ⟨u, s, yields_expect.mpr ⟨rfl, hu⟩,
    yields_andThen.mpr ⟨statements, r, h, yields_ok.mpr ⟨rfl, rfl⟩⟩⟩

theorem yields_function {parameters : List Tree} {body : Tree} {s r r' : TokenStream}
    {word name bracket arrow result : Token} (hword : word.isKeyword "def" = true)
    (hname : name.kind = .identifier) (hbracket : bracket.isPunctuation "(" = true)
    (hparameters : (items .parameters s).Yields parameters (.token arrow (.token result r)))
    (harrow : arrow.isOperator "->" = true) (hresult : result.kind = .identifier)
    (hbody : (block r).Yields body r') :
    (function (.token word (.token name (.token bracket s)))).Yields
      (.function name.value result.value parameters body word.location) r' := by
  rw [function]
  refine yields_andThen.mpr ⟨word, _, yields_expect.mpr ⟨rfl, hword⟩, ?_⟩
  refine yields_andThen.mpr ⟨name, _, yields_identifier.mpr ⟨rfl, hname⟩, ?_⟩
  refine yields_preceded.mpr ?_
  refine yields_andThen.mpr ⟨bracket, s, yields_expect.mpr ⟨rfl, hbracket⟩, ?_⟩
  refine yields_andThen.mpr ⟨parameters, _, hparameters, ?_⟩
  refine yields_andThen.mpr ⟨arrow, _, yields_expect.mpr ⟨rfl, harrow⟩, ?_⟩
  refine yields_andThen.mpr ⟨result, r, yields_identifier.mpr ⟨rfl, hresult⟩, ?_⟩
  exact yields_andThen.mpr ⟨body, r', hbody, yields_ok.mpr ⟨rfl, rfl⟩⟩

theorem yields_definition {t : Tree} {s r : TokenStream} {u : Token}
    (hu : u.isKeyword "const" = true ∨ u.isKeyword "mut" = true)
    (h : (variableBody (u.isKeyword "const") u.location s).Yields t r) :
    (definition (.token u s)).Yields t r := by
  rw [definition]
  refine yields_look.mpr ⟨u, rfl, ?_⟩
  have hword : u.isKeyword (if u.isKeyword "const" = true then "const" else "mut") = true := by
    by_cases hconst : u.isKeyword "const" = true
    · rwa [if_pos hconst]
    · rw [if_neg hconst]
      exact hu.resolve_left hconst
  exact yields_andThen.mpr ⟨u, s, yields_expect.mpr ⟨rfl, hword⟩, yields_widen.mpr h⟩

theorem yields_parameter_of_definition {t : Tree} {s r : TokenStream} {u : Token}
    (hu : u.isKeyword "const" = true ∨ u.isKeyword "mut" = true)
    (h : (definition (.token u s)).Yields t r) : (parameter (.token u s)).Yields t r := by
  rw [parameter]
  refine yields_look.mpr ⟨u, rfl, ?_⟩
  rw [if_pos (Bool.or_eq_true_iff.mpr hu)]
  exact h

theorem yields_parameter_of_variable {t : Tree} {s r : TokenStream} {u : Token}
    (hu : u.kind = .identifier)
    (h : (variableBody false u.location (.token u s)).Yields t r) :
    (parameter (.token u s)).Yields t r := by
  rw [parameter]
  refine yields_look.mpr ⟨u, rfl, ?_⟩
  have hkeyword : ∀ word, u.isKeyword word = false := fun word => by
    rw [Bool.eq_false_iff]
    intro hword
    exact absurd (hu.symm.trans (Token.is_iff.mp hword).1) (by decide)
  rw [hkeyword, hkeyword]
  exact h

theorem yields_variable_absent {isConst : Bool} {l : Location} {s : TokenStream}
    {name colon type u : Token} (hname : name.kind = .identifier)
    (hcolon : colon.isOperator ":" = true) (htype : type.kind = .identifier)
    (hu : s.head = .ok u) (hsign : u.isOperator "=" = false) :
    (variableBody isConst l (.token name (.token colon (.token type s)))).Yields
      (.definition name.value type.value isConst (.absent u.location) l) s := by
  rw [variableBody]
  refine yields_andThen.mpr ⟨name, _, yields_identifier.mpr ⟨rfl, hname⟩, ?_⟩
  refine yields_andThen.mpr ⟨colon, _, yields_expect.mpr ⟨rfl, hcolon⟩, ?_⟩
  refine yields_andThen.mpr ⟨type, s, yields_identifier.mpr ⟨rfl, htype⟩, ?_⟩
  refine yields_look.mpr ⟨u, hu, ?_⟩
  rw [if_neg (show ¬ u.isOperator Operator.assign.symbol = true from
    Bool.eq_false_iff.mp hsign)]
  exact yields_ok.mpr ⟨rfl, rfl⟩

theorem yields_variable_value {isConst : Bool} {l : Location} {value : Tree}
    {s r : TokenStream} {name colon type sign : Token} (hname : name.kind = .identifier)
    (hcolon : colon.isOperator ":" = true) (htype : type.kind = .identifier)
    (hsign : sign.isOperator "=" = true) (h : (expression s).Yields value r) :
    (variableBody isConst l (.token name (.token colon (.token type (.token sign s))))).Yields
      (.definition name.value type.value isConst value l) r := by
  rw [variableBody]
  refine yields_andThen.mpr ⟨name, _, yields_identifier.mpr ⟨rfl, hname⟩, ?_⟩
  refine yields_andThen.mpr ⟨colon, _, yields_expect.mpr ⟨rfl, hcolon⟩, ?_⟩
  refine yields_andThen.mpr ⟨type, _, yields_identifier.mpr ⟨rfl, htype⟩, ?_⟩
  refine yields_look.mpr ⟨sign, rfl, ?_⟩
  rw [if_pos (show sign.isOperator Operator.assign.symbol = true from hsign)]
  exact yields_andThen.mpr ⟨sign, s, yields_expect.mpr ⟨rfl, hsign⟩,
    yields_andThen.mpr ⟨value, r, h, yields_ok.mpr ⟨rfl, rfl⟩⟩⟩

theorem yields_close_of {b : Bracketing} {s : TokenStream} {u : Token}
    (hu : u.isPunctuation b.closing = true) : (close b (.token u s)).Yields [] s :=
  yields_close.mpr ⟨rfl, u, rfl, hu⟩

theorem yields_items_close {b : Bracketing} {s : TokenStream} {u : Token}
    (hu : u.isPunctuation b.closing = true) : (items b (.token u s)).Yields [] s := by
  rw [items]
  refine yields_look.mpr ⟨u, rfl, ?_⟩
  rw [if_pos (Bool.or_eq_true_iff.mpr (.inr hu))]
  exact yields_close_of hu

theorem yields_items_cons {b : Bracketing} {x : Tree} {xs : List Tree} {s r r' : TokenStream}
    {u : Token} (hu : u.Begins) (hx : (element b (.token u s)).Yields x r)
    (hxs : (moreItems b r).Yields xs r') : (items b (.token u s)).Yields (x :: xs) r' := by
  rw [items]
  refine yields_look.mpr ⟨u, rfl, ?_⟩
  rw [if_neg (by simp [hu.isEof, hu.not_closing])]
  exact yields_andThen.mpr ⟨x, r, hx, yields_andThen.mpr ⟨xs, r', hxs, yields_ok.mpr ⟨rfl, rfl⟩⟩⟩

theorem yields_more_close {b : Bracketing} {s : TokenStream} {u : Token}
    (hu : u.isPunctuation b.closing = true) : (moreItems b (.token u s)).Yields [] s := by
  rw [moreItems]
  refine yields_look.mpr ⟨u, rfl, ?_⟩
  rw [if_pos (Bool.or_eq_true_iff.mpr (.inr hu))]
  exact yields_close_of hu

/-- A separator is neither the end of the text nor the end of the list. -/
theorem not_closing_of_separator {b : Bracketing} {u : Token}
    (hu : u.isPunctuation b.separator = true) :
    ¬ (u.isEof || u.isPunctuation b.closing) = true := by
  have heof : u.isEof = false := by
    simp [Token.isEof, (Token.is_iff.mp hu).1]
  have hclosing : u.isPunctuation b.closing = false :=
    Token.is_eq_false hu (.inr (by cases b <;> decide))
  simp [heof, hclosing]

theorem yields_more_trailing {b : Bracketing} {s : TokenStream} {u v : Token}
    (hu : u.isPunctuation b.separator = true) (hv : v.isPunctuation b.closing = true) :
    (moreItems b (.token u (.token v s))).Yields [] s := by
  rw [moreItems]
  refine yields_look.mpr ⟨u, rfl, ?_⟩
  rw [if_neg (not_closing_of_separator hu)]
  refine yields_andThen.mpr ⟨u, _, yields_expect.mpr ⟨rfl, hu⟩, yields_look.mpr ⟨v, rfl, ?_⟩⟩
  rw [if_pos hv]
  exact yields_widen.mpr (yields_close_of hv)

theorem yields_more_cons {b : Bracketing} {x : Tree} {xs : List Tree} {s r r' : TokenStream}
    {u v : Token} (hu : u.isPunctuation b.separator = true) (hv : v.Begins)
    (hx : (element b (.token v s)).Yields x r) (hxs : (moreItems b r).Yields xs r') :
    (moreItems b (.token u (.token v s))).Yields (x :: xs) r' := by
  rw [moreItems]
  refine yields_look.mpr ⟨u, rfl, ?_⟩
  rw [if_neg (not_closing_of_separator hu)]
  refine yields_andThen.mpr ⟨u, _, yields_expect.mpr ⟨rfl, hu⟩, yields_look.mpr ⟨v, rfl, ?_⟩⟩
  rw [if_neg (Bool.eq_false_iff.mp (hv.not_closing b))]
  exact yields_andThen.mpr ⟨x, r, hx, yields_andThen.mpr ⟨xs, r', hxs, yields_ok.mpr ⟨rfl, rfl⟩⟩⟩

theorem yields_no_statements {s : TokenStream} {u : Token} (hu : s.head = .ok u)
    (heof : u.isEof = true) : (statements s).Yields [] s := by
  rw [statements]
  refine yields_look.mpr ⟨u, hu, ?_⟩
  rw [if_pos heof]
  exact yields_ok.mpr ⟨rfl, rfl⟩

theorem yields_statements {t : Tree} {ts : List Tree} {s r r' : TokenStream} {u v : Token}
    (hv : v.Begins) (ht : (expression (.token v s)).Yields t (.token u r))
    (hu : u.isPunctuation ";" = true) (hts : (statements r).Yields ts r') :
    (statements (.token v s)).Yields (t :: ts) r' := by
  rw [statements]
  refine yields_look.mpr ⟨v, rfl, ?_⟩
  rw [if_neg (Bool.eq_false_iff.mp hv.isEof)]
  refine yields_andThen.mpr ⟨t, _, ht, ?_⟩
  refine yields_andThen.mpr ⟨u, r, yields_expect.mpr ⟨rfl, hu⟩, ?_⟩
  exact yields_andThen.mpr ⟨ts, r', hts, yields_ok.mpr ⟨rfl, rfl⟩⟩

/-- What the rules read, the productions yield. -/
theorem Parses.yields {c : Construct} {s r : TokenStream} (h : Parses c s r) :
    c.Yields s r := by
  induction h with
  | @expression first e t s r r' r'' _ _ _ ihfirst ihchain ihapplied =>
      show (Parser.expression s).Yields t r''
      rw [Parser.expression]
      exact yields_andThen.mpr ⟨first, r, ihfirst,
        yields_andThen.mpr ⟨e, r', ihchain, yields_widen.mpr ihapplied⟩⟩
  | chainStop hu hstop => exact yields_chain_stop hu hstop
  | chainLink hop hfloor _ _ _ ihfirst ihright ih =>
      exact yields_chain_link hop hfloor ihfirst ihright ih
  | call hu _ ih => exact yields_call hu ih
  | noCall hu hopen => exact yields_no_call hu hopen
  | @atom p t s r r' _ _ ihprimary ihapplied =>
      show (Parser.atom s).Yields t r'
      rw [Parser.atom]
      exact yields_andThen.mpr ⟨p, r, ihprimary, yields_widen.mpr ihapplied⟩
  | parens hu _ hv ih => exact yields_parens hu ih hv
  | blockPrimary h ih =>
      cases h with
      | block hu _ => exact yields_primary_of_block hu ih
  | functionPrimary h ih =>
      cases h with
      | function hword => exact yields_primary_of_function hword ih
  | definitionPrimary h ih =>
      cases h with
      | definition hu _ => exact yields_primary_of_definition hu ih
  | operand hu => exact yields_primary_of_operand hu
  | block hu _ ih => exact yields_block hu ih
  | function hword hname hbracket _ harrow hresult _ ihparameters ihbody =>
      exact yields_function hword hname hbracket ihparameters harrow hresult ihbody
  | definition hu _ ih => exact yields_definition hu ih
  | parameterDefinition h ih =>
      cases h with
      | definition hu _ => exact yields_parameter_of_definition hu ih
  | @parameterVariable _ _ _ u h ih =>
      -- a variable begins with a name, and a name is no qualifier
      have hname : u.kind = .identifier := by
        cases h with
        | variableAbsent hname => exact hname
        | variableValue hname => exact hname
      exact yields_parameter_of_variable hname ih
  | variableAbsent hname hcolon htype hu hsign =>
      exact yields_variable_absent hname hcolon htype hu hsign
  | variableValue hname hcolon htype hsign _ ih =>
      exact yields_variable_value hname hcolon htype hsign ih
  | itemsClose hu => exact yields_items_close hu
  | itemsCons hx _ ihx ihxs =>
      -- an element does not begin with the end of the list
      obtain ⟨u, s, rfl, hu⟩ := hx.begins
      exact yields_items_cons hu ihx ihxs
  | moreClose hu => exact yields_more_close hu
  | moreTrailing hu hv => exact yields_more_trailing hu hv
  | moreCons hu hx _ ihx ihxs =>
      obtain ⟨v, s, rfl, hv⟩ := hx.begins
      exact yields_more_cons hu hv ihx ihxs
  | @argument t s r _ ih =>
      show (Parser.element .arguments s).Yields t r
      rwa [Parser.element]
  | @formal t s r _ ih =>
      show (Parser.element .parameters s).Yields t r
      rwa [Parser.element]
  | @statement t s r _ ih =>
      show (Parser.element .block s).Yields t r
      rwa [Parser.element]
  | noStatements hu heof => exact yields_no_statements hu heof
  | statements ht hu _ iht ihts =>
      obtain ⟨v, s, rfl, hv⟩ := ht.begins
      exact yields_statements hv iht hu ihts
  | @program ts s r u hu _ ih =>
      show (Parser.program s).Yields (.block ts u.location) r
      rw [Parser.program]
      refine yields_look.mpr ⟨u, hu, ?_⟩
      exact yields_andThen.mpr ⟨ts, r, ih, yields_ok.mpr ⟨rfl, rfl⟩⟩

/-- A stream is the program `t` if and only if the rules read it as `t`. -/
theorem program_eq_ok_iff {s : TokenStream} {t : Tree} :
    (program s).result = .ok t ↔ ∃ r, Parses (.program t) s r := by
  constructor
  · intro h
    exact ⟨_, parses_program ⟨h, rfl⟩⟩
  · rintro ⟨r, h⟩
    exact h.yields.1

end Parser

/-- A text is the program `t` if and only if the rules read its stream as `t`. -/
theorem parse_eq_ok_iff {text : String} {t : Tree} :
    parse text = .ok t ↔ ∃ r, Parser.Parses (.program t) (.ofText text) r :=
  Parser.program_eq_ok_iff

end ExprLang
