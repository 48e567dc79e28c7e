import ExprLang.Proofs.Parses
import ExprLang.Proofs.Stream

set_option autoImplicit false

/-! # The grammar

The grammar of programs, in which a phrase derives words over the kinds and values of tokens. It
knows nothing of look-ahead and of precedence, and it is ambiguous: the operators and the
arguments behind the value of a variable may belong to the value or to what is around it.

`Parser.Parses.derives` says that everything the parser takes off a stream is derived by the
phrase of its production.
-/

namespace ExprLang

open Numeral (ofDigits)

/-- A token without its location. -/
abbrev Terminal := Token.Kind × String

/-- The kind and the value of a token. -/
def Token.terminal (t : Token) : Terminal := (t.kind, t.value)

namespace Terminal

def punctuation (value : String) : Terminal := (.punctuation, value)

def operator (value : String) : Terminal := (.operator, value)

def keyword (value : String) : Terminal := (.keyword, value)

def identifier (value : String) : Terminal := (.identifier, value)

/-- The terminals that are expressions by themselves. -/
inductive IsOperand : Terminal → Prop where
  | int {value : String} : ofDigits value.toList ≤ maxInt → IsOperand (.int, value)
  | float {value : String} : IsOperand (.float, value)
  | char {value : String} {c : Char} : value.toList = [c] → IsOperand (.char, value)
  | string {value : String} : IsOperand (.string, value)
  | identifier {value : String} : IsOperand (.identifier value)
  | true : IsOperand (.keyword "true")
  | false : IsOperand (.keyword "false")

end Terminal

/-- The symbols of the grammar that stand for words. -/
inductive Phrase where
  | program
  /-- Expressions, each with a semicolon behind it. -/
  | statements
  | expression
  /-- Operators, each with an atom behind it. -/
  | links
  /-- Arguments, or nothing. -/
  | application
  | atom
  | primary
  /-- A list with its brackets. -/
  | list (b : Bracketing)
  /-- One or more elements with separators between them. -/
  | row (b : Bracketing)
  | element (b : Bracketing)
  | parameter
  | variable

/-- What begins a list. -/
def Bracketing.openTerminal (b : Bracketing) : Terminal := .punctuation b.opening

/-- What ends a list. -/
def Bracketing.closeTerminal (b : Bracketing) : Terminal := .punctuation b.closing

/-- What separates the elements of a list. -/
def Bracketing.separatorTerminal (b : Bracketing) : Terminal := .punctuation b.separator

/-- The phrase derives the word. -/
inductive Derives : Phrase → List Terminal → Prop where
  | program {v : List Terminal} : Derives .statements v → Derives .program (v ++ [(.eof, "")])
  | noStatements : Derives .statements []
  | statements {v w : List Terminal} : Derives .expression v → Derives .statements w →
      Derives .statements (v ++ .punctuation ";" :: w)
  | expression {u v w : List Terminal} : Derives .atom u → Derives .links v →
      Derives .application w → Derives .expression (u ++ (v ++ w))
  | noLinks : Derives .links []
  | links {op : Operator} {v w : List Terminal} : Derives .atom v → Derives .links w →
      Derives .links (.operator op.symbol :: (v ++ w))
  | noArguments : Derives .application []
  | arguments {w : List Terminal} : Derives (.list .arguments) w → Derives .application w
  | atom {v w : List Terminal} : Derives .primary v → Derives .application w →
      Derives .atom (v ++ w)
  | parens {w : List Terminal} : Derives .expression w →
      Derives .primary (.punctuation "(" :: (w ++ [.punctuation ")"]))
  | block {w : List Terminal} : Derives (.list .block) w → Derives .primary w
  | function {name result : String} {v w : List Terminal} : Derives (.list .parameters) v →
      Derives (.list .block) w → Derives .primary (.keyword "def" :: .identifier name ::
        (v ++ .operator "->" :: .identifier result :: w))
  | definition {word : String} {w : List Terminal} : word = "const" ∨ word = "mut" →
      Derives .variable w → Derives .primary (.keyword word :: w)
  | operand {x : Terminal} : x.IsOperand → Derives .primary [x]
  | emptyList {b : Bracketing} : Derives (.list b) [b.openTerminal, b.closeTerminal]
  | list {b : Bracketing} {w : List Terminal} : Derives (.row b) w →
      Derives (.list b) (b.openTerminal :: (w ++ [b.closeTerminal]))
  | listTrailing {b : Bracketing} {w : List Terminal} : Derives (.row b) w →
      Derives (.list b) (b.openTerminal :: (w ++ [b.separatorTerminal, b.closeTerminal]))
  | single {b : Bracketing} {w : List Terminal} : Derives (.element b) w → Derives (.row b) w
  | row {b : Bracketing} {v w : List Terminal} : Derives (.row b) v → Derives (.element b) w →
      Derives (.row b) (v ++ b.separatorTerminal :: w)
  | argument {w : List Terminal} : Derives .expression w → Derives (.element .arguments) w
  | formal {w : List Terminal} : Derives .parameter w → Derives (.element .parameters) w
  | statement {w : List Terminal} : Derives .expression w → Derives (.element .block) w
  | parameterVariable {w : List Terminal} : Derives .variable w → Derives .parameter w
  | parameterDefinition {word : String} {w : List Terminal} : word = "const" ∨ word = "mut" →
      Derives .variable w → Derives .parameter (.keyword word :: w)
  | variableAbsent {name type : String} :
      Derives .variable [.identifier name, .operator ":", .identifier type]
  | variableValue {name type : String} {w : List Terminal} : Derives .expression w →
      Derives .variable (.identifier name :: .operator ":" :: .identifier type ::
        .operator Operator.assign.symbol :: w)

/-! ## Tokens and terminals -/

namespace Token

theorem terminal_eq_of_is {t : Token} {kind : Kind} {value : String} (h : t.is kind value = true) :
    t.terminal = (kind, value) := by
  obtain ⟨rfl, rfl⟩ := is_iff.mp h
  rfl

theorem is_of_terminal_eq {t : Token} {kind : Kind} {value : String}
    (h : t.terminal = (kind, value)) : t.is kind value = true := by
  obtain ⟨hkind, hvalue⟩ := Prod.mk.inj h
  exact is_iff.mpr ⟨hkind, hvalue⟩

theorem terminal_eq_of_identifier {t : Token} (h : t.kind = .identifier) :
    t.terminal = .identifier t.value := by
  rw [terminal, h]
  rfl

theorem terminal_eq_of_operator {t : Token} {op : Operator} (h : t.operator? = some op) :
    t.terminal = .operator op.symbol := by
  unfold operator? at h
  split at h
  · rename_i hkind
    rw [Operator.ofSymbol?_eq_some_iff] at h
    rw [terminal, h, beq_iff_eq.mp hkind]
    rfl
  · cases h

/-- The terminal of an operand. -/
theorem isOperand_of_operand {t : Token} {e : Tree} (h : t.operand = .ok e) :
    t.terminal.IsOperand := by
  obtain ⟨kind, value, l⟩ := t
  simp only [operand] at h
  cases kind with
  | int =>
      by_cases hsmall : ofDigits value.toList ≤ maxInt
      · exact .int hsmall
      · simp [hsmall] at h
  | float => exact .float
  | char =>
      simp only at h
      split at h
      · rename_i c hvalue
        exact .char hvalue
      · cases h
  | string => exact .string
  | identifier => exact .identifier
  | keyword =>
      by_cases htrue : value = "true"
      · subst htrue
        exact .true
      by_cases hfalse : value = "false"
      · subst hfalse
        exact .false
      · simp [htrue, hfalse] at h
  | operator => cases h
  | punctuation => cases h
  | eof => cases h

/-- A token with the terminal of an operand is one. -/
theorem exists_operand {t : Token} (h : t.terminal.IsOperand) : ∃ e, t.operand = .ok e := by
  obtain ⟨kind, value, l⟩ := t
  generalize hx : Token.terminal ⟨kind, value, l⟩ = x at h
  cases h with
  | int hsmall => cases hx; simp [operand, hsmall]
  | float => cases hx; simp [operand]
  | char hvalue => cases hx; simp [operand, hvalue]
  | string => cases hx; simp [operand]
  | identifier => cases hx; simp [operand]
  | true => cases hx; simp [operand]
  | false => cases hx; simp [operand]

end Token

/-! ## Words of tokens

A token list that spells a known word falls apart where the word does. -/

/-- The tokens as a word of the grammar. -/
abbrev word (ts : List Token) : List Terminal := ts.map Token.terminal

theorem exists_of_word_token {ts : List Token} {kind : Token.Kind} {value : String}
    (h : word ts = [(kind, value)]) : ∃ l, ts = [⟨kind, value, l⟩] := by
  obtain ⟨⟨kind', value', l⟩, us, rfl, hu, hus⟩ := List.map_eq_cons_iff.mp h
  obtain rfl := List.map_eq_nil_iff.mp hus
  obtain ⟨rfl, rfl⟩ := Prod.mk.inj hu
  exact ⟨l, rfl⟩

theorem exists_of_word_separated {ts : List Token} {x : Terminal} {v w : List Terminal}
    (h : word ts = v ++ x :: w) :
    ∃ us u vs, ts = us ++ u :: vs ∧ word us = v ∧ u.terminal = x ∧ word vs = w := by
  obtain ⟨us, vs, rfl, hus, hvs⟩ := List.map_eq_append_iff.mp h
  obtain ⟨u, vs, rfl, hu, hw⟩ := List.map_eq_cons_iff.mp hvs
  exact ⟨us, u, vs, rfl, hus, hu, hw⟩

theorem exists_of_word_brackets {ts : List Token} {x y : Terminal} {w : List Terminal}
    (h : word ts = x :: (w ++ [y])) :
    ∃ u us v, ts = u :: (us ++ [v]) ∧ u.terminal = x ∧ word us = w ∧ v.terminal = y := by
  obtain ⟨u, us, rfl, hu, htail⟩ := List.map_eq_cons_iff.mp h
  obtain ⟨us, v, vs, rfl, hus, hv, hvs⟩ := exists_of_word_separated htail
  obtain rfl := List.map_eq_nil_iff.mp hvs
  exact ⟨u, us, v, rfl, hu, hus, hv⟩

theorem exists_of_word_trailing {ts : List Token} {x y z : Terminal} {w : List Terminal}
    (h : word ts = x :: (w ++ [y, z])) :
    ∃ u us sign v, ts = u :: (us ++ [sign, v]) ∧ u.terminal = x ∧ word us = w ∧
      sign.terminal = y ∧ v.terminal = z := by
  obtain ⟨u, us, rfl, hu, htail⟩ := List.map_eq_cons_iff.mp h
  obtain ⟨us, sign, vs, rfl, hus, hsign, hvs⟩ := exists_of_word_separated htail
  obtain ⟨v, vs, rfl, hv, hnil⟩ := List.map_eq_cons_iff.mp hvs
  obtain rfl := List.map_eq_nil_iff.mp hnil
  exact ⟨u, us, sign, v, rfl, hu, hus, hsign, hv⟩

/-- The name and the type of a variable, with what is behind them. -/
theorem exists_of_word_typed {ts : List Token} {name type : String} {w : List Terminal}
    (h : word ts = .identifier name :: .operator ":" :: .identifier type :: w) :
    ∃ x colon y us, ts = x :: colon :: y :: us ∧ (x.kind = .identifier ∧ x.value = name) ∧
      colon.isOperator ":" = true ∧ (y.kind = .identifier ∧ y.value = type) ∧ word us = w := by
  obtain ⟨x, us, rfl, hx, htail⟩ := List.map_eq_cons_iff.mp h
  obtain ⟨colon, us, rfl, hcolon, htail⟩ := List.map_eq_cons_iff.mp htail
  obtain ⟨y, us, rfl, hy, hus⟩ := List.map_eq_cons_iff.mp htail
  exact ⟨x, colon, y, us, rfl, Prod.mk.inj hx, Token.is_of_terminal_eq hcolon, Prod.mk.inj hy,
    hus⟩

/-! ## What is parsed is derived -/

namespace Parser

/-- The construct is read off these terminals, as far as the grammar knows. What is left of a list
is told by what completes the list. -/
def Construct.Spells : Construct → List Terminal → Prop
  | .expression _, w => Derives .expression w
  | .chain _ _ _, w => Derives .links w
  | .applied _ _, w => Derives .application w
  | .atom _, w => Derives .atom w
  | .primary _, w => Derives .primary w
  | .block _, w => Derives (.list .block) w
  | .function _, w => Derives .primary w
  | .definition _, w =>
    ∃ word v, w = .keyword word :: v ∧ (word = "const" ∨ word = "mut") ∧ Derives .variable v
  | .parameter _, w => Derives .parameter w
  | .variableBody _ _ _, w => Derives .variable w
  | .items b _, w => Derives (.list b) (b.openTerminal :: w)
  | .moreItems b _, w => ∀ v, Derives (.row b) v → Derives (.list b) (b.openTerminal :: (v ++ w))
  | .element b _, w => Derives (.element b) w
  | .statements _, w => Derives .statements w
  | .program _, w => Derives .statements w

theorem derives_links_append {v w : List Terminal} (hv : Derives .links v)
    (hw : Derives .links w) : Derives .links (v ++ w) := by
  generalize hp : Phrase.links = p at hv
  induction hv with
  | noLinks => exact hw
  | links hatom _ _ ih =>
      rw [List.cons_append, List.append_assoc]
      exact .links hatom (ih hp)
  | _ => cases hp

/-- A construct takes tokens off the stream, and its phrase derives them. -/
theorem Parses.derives {c : Construct} {s r : TokenStream} (h : Parses c s r) :
    ∃ ts, s = r.prepend ts ∧ c.Spells (ts.map Token.terminal) := by
  induction h with
  | expression _ _ _ ih₁ ih₂ ih₃ =>
      obtain ⟨ts₁, rfl, h₁⟩ := ih₁
      obtain ⟨ts₂, rfl, h₂⟩ := ih₂
      obtain ⟨ts₃, rfl, h₃⟩ := ih₃
      refine ⟨ts₁ ++ (ts₂ ++ ts₃), ?_, ?_⟩
      · rw [TokenStream.prepend_append, TokenStream.prepend_append]
      · rw [List.map_append, List.map_append]
        exact .expression h₁ h₂ h₃
  | chainStop => exact ⟨[], rfl, .noLinks⟩
  | @chainLink _ _ _ _ _ _ _ _ _ u _ hop _ _ _ _ ih₁ ih₂ ih₃ =>
      obtain ⟨ts₁, rfl, h₁⟩ := ih₁
      obtain ⟨ts₂, rfl, h₂⟩ := ih₂
      obtain ⟨ts₃, rfl, h₃⟩ := ih₃
      refine ⟨u :: (ts₁ ++ (ts₂ ++ ts₃)), ?_, ?_⟩
      · rw [TokenStream.prepend_cons, TokenStream.prepend_append, TokenStream.prepend_append]
      · rw [List.map_cons, List.map_append, List.map_append, Token.terminal_eq_of_operator hop]
        exact .links h₁ (derives_links_append h₂ h₃)
  | @call _ _ _ _ u hopen _ ih =>
      obtain ⟨ts, rfl, h⟩ := ih
      refine ⟨u :: ts, rfl, ?_⟩
      rw [List.map_cons, Token.terminal_eq_of_is hopen]
      exact .arguments h
  | noCall => exact ⟨[], rfl, .noArguments⟩
  | atom _ _ ih₁ ih₂ =>
      obtain ⟨ts₁, rfl, h₁⟩ := ih₁
      obtain ⟨ts₂, rfl, h₂⟩ := ih₂
      refine ⟨ts₁ ++ ts₂, ?_, ?_⟩
      · rw [TokenStream.prepend_append]
      · rw [List.map_append]
        exact .atom h₁ h₂
  | @parens _ _ _ u v hopen _ hclose ih =>
      obtain ⟨ts, rfl, h⟩ := ih
      refine ⟨u :: (ts ++ [v]), ?_, ?_⟩
      · rw [TokenStream.prepend_cons, TokenStream.prepend_append, TokenStream.prepend_cons,
          TokenStream.prepend_nil]
      · rw [List.map_cons, List.map_append, List.map_singleton, Token.terminal_eq_of_is hopen,
          Token.terminal_eq_of_is hclose]
        exact .parens h
  | blockPrimary _ ih =>
      obtain ⟨ts, rfl, h⟩ := ih
      exact ⟨ts, rfl, .block h⟩
  | functionPrimary _ ih => exact ih
  | definitionPrimary _ ih =>
      obtain ⟨ts, rfl, word, v, hts, hword, hv⟩ := ih
      refine ⟨ts, rfl, ?_⟩
      rw [hts]
      exact .definition hword hv
  | @operand _ _ u hu => exact ⟨[u], rfl, .operand (Token.isOperand_of_operand hu)⟩
  | @block _ _ _ u hopen _ ih =>
      obtain ⟨ts, rfl, h⟩ := ih
      refine ⟨u :: ts, rfl, ?_⟩
      rw [List.map_cons, Token.terminal_eq_of_is hopen]
      exact h
  | @function _ _ _ _ _ word name bracket arrow result hword hname hopen _ harrow hresult _
      ih₁ ih₂ =>
      obtain ⟨ts₁, hs, h₁⟩ := ih₁
      obtain ⟨ts₂, rfl, h₂⟩ := ih₂
      subst hs
      refine ⟨word :: name :: bracket :: (ts₁ ++ arrow :: result :: ts₂), ?_, ?_⟩
      · simp only [TokenStream.prepend_cons, TokenStream.prepend_append]
      · simp only [List.map_cons, List.map_append, Token.terminal_eq_of_is hword,
          Token.terminal_eq_of_identifier hname, Token.terminal_eq_of_is hopen,
          Token.terminal_eq_of_is harrow, Token.terminal_eq_of_identifier hresult]
        exact .function h₁ h₂
  | @definition _ _ _ u hword _ ih =>
      obtain ⟨ts, rfl, h⟩ := ih
      rcases hword with hword | hword
      · refine ⟨u :: ts, rfl, "const", ts.map Token.terminal, ?_, .inl rfl, h⟩
        rw [List.map_cons, Token.terminal_eq_of_is hword]
        rfl
      · refine ⟨u :: ts, rfl, "mut", ts.map Token.terminal, ?_, .inr rfl, h⟩
        rw [List.map_cons, Token.terminal_eq_of_is hword]
        rfl
  | parameterDefinition _ ih =>
      obtain ⟨ts, rfl, word, v, hts, hword, hv⟩ := ih
      refine ⟨ts, rfl, ?_⟩
      show Derives .parameter _
      rw [hts]
      exact .parameterDefinition hword hv
  | parameterVariable _ ih =>
      obtain ⟨ts, hs, h⟩ := ih
      exact ⟨ts, hs, .parameterVariable h⟩
  | @variableAbsent _ _ _ name colon type _ hname hcolon htype =>
      refine ⟨[name, colon, type], rfl, ?_⟩
      simp only [List.map_cons, List.map_nil, Token.terminal_eq_of_identifier hname,
        Token.terminal_eq_of_is hcolon, Token.terminal_eq_of_identifier htype]
      exact .variableAbsent
  | @variableValue _ _ _ _ _ name colon type sign hname hcolon htype hsign _ ih =>
      obtain ⟨ts, rfl, h⟩ := ih
      refine ⟨name :: colon :: type :: sign :: ts, rfl, ?_⟩
      simp only [List.map_cons, Token.terminal_eq_of_identifier hname,
        Token.terminal_eq_of_is hcolon, Token.terminal_eq_of_identifier htype,
        Token.terminal_eq_of_is hsign]
      exact .variableValue h
  | @itemsClose _ _ u hclose =>
      refine ⟨[u], rfl, ?_⟩
      rw [List.map_singleton, Token.terminal_eq_of_is hclose]
      exact .emptyList
  | itemsCons _ _ ih₁ ih₂ =>
      obtain ⟨ts₁, rfl, h₁⟩ := ih₁
      obtain ⟨ts₂, rfl, h₂⟩ := ih₂
      refine ⟨ts₁ ++ ts₂, ?_, ?_⟩
      · rw [TokenStream.prepend_append]
      · rw [List.map_append]
        exact h₂ _ (.single h₁)
  | @moreClose _ _ u hclose =>
      refine ⟨[u], rfl, fun v hv => ?_⟩
      rw [List.map_singleton, Token.terminal_eq_of_is hclose]
      exact .list hv
  | @moreTrailing _ _ u v hseparator hclose =>
      refine ⟨[u, v], rfl, fun v hv => ?_⟩
      rw [List.map_cons, List.map_singleton, Token.terminal_eq_of_is hseparator,
        Token.terminal_eq_of_is hclose]
      exact .listTrailing hv
  | @moreCons _ _ _ _ _ _ u hseparator _ _ ih₁ ih₂ =>
      -- the row so far grows by this element, and the rest completes the longer row
      obtain ⟨ts₁, rfl, h₁⟩ := ih₁
      obtain ⟨ts₂, rfl, h₂⟩ := ih₂
      refine ⟨u :: (ts₁ ++ ts₂), ?_, fun v hv => ?_⟩
      · rw [TokenStream.prepend_cons, TokenStream.prepend_append]
      · rw [List.map_cons, List.map_append, Token.terminal_eq_of_is hseparator]
        have hrow := h₂ _ (.row hv h₁)
        rwa [List.append_assoc, List.cons_append] at hrow
  | argument _ ih =>
      obtain ⟨ts, rfl, h⟩ := ih
      exact ⟨ts, rfl, .argument h⟩
  | formal _ ih =>
      obtain ⟨ts, rfl, h⟩ := ih
      exact ⟨ts, rfl, .formal h⟩
  | statement _ ih =>
      obtain ⟨ts, rfl, h⟩ := ih
      exact ⟨ts, rfl, .statement h⟩
  | noStatements => exact ⟨[], rfl, .noStatements⟩
  | @statements _ _ _ _ _ u _ hsemicolon _ ih₁ ih₂ =>
      obtain ⟨ts₁, rfl, h₁⟩ := ih₁
      obtain ⟨ts₂, rfl, h₂⟩ := ih₂
      refine ⟨ts₁ ++ u :: ts₂, ?_, ?_⟩
      · rw [TokenStream.prepend_append, TokenStream.prepend_cons]
      · rw [List.map_append, List.map_cons, Token.terminal_eq_of_is hsemicolon]
        exact .statements h₁ h₂
  | program _ _ ih => exact ih

end Parser

end ExprLang
