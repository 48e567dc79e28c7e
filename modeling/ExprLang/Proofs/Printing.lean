import ExprLang.Proofs.Grammar
import ExprLang.Proofs.Lexeme

set_option autoImplicit false

/-! # Printing trees

`Tree.IsProgram` says which trees are programs, and `Tree.PrintsAs` how a program may be written.
Printing is a relation, since a printer is free in much: it may put parentheses around any
expression, a separator behind the last element of a list, a qualifier in front of a parameter
that is not constant, zeros in front of a number, and escapes for characters that need none. It is
bound to put parentheses where the tree would be read differently without them. That is told by
the forms in which a tree is printed: an operand is printed as a `chain` that says how tightly the
operators in it have to bind.

Every program can be printed (`Tree.IsProgram.exists_printsAs`).
-/

namespace ExprLang

open Numeral (Binary64 Decimal ofDigits)
open CharClass (isDigit)

/-! ## Trees without locations -/

namespace Tree

mutual

/-- The tree with all of its locations set to the start of the text. -/
def unlocated : Tree → Tree
  | .absent _ => .absent .start
  | .bool x _ => .bool x .start
  | .char x _ => .char x .start
  | .int x _ => .int x .start
  | .float x _ => .float x .start
  | .string x _ => .string x .start
  | .reference x _ => .reference x .start
  | .operation op left right _ => .operation op left.unlocated right.unlocated .start
  | .call f xs _ => .call f.unlocated (unlocatedAll xs) .start
  | .definition x type isConst value _ => .definition x type isConst value.unlocated .start
  | .function x result ps body _ => .function x result (unlocatedAll ps) body.unlocated .start
  | .block xs _ => .block (unlocatedAll xs) .start

/-- The trees of a list without their locations. -/
def unlocatedAll : List Tree → List Tree
  | [] => []
  | x :: xs => x.unlocated :: unlocatedAll xs

end

end Tree

/-! ## Well-formed trees -/

/-- The text is an identifier: a name that is not reserved. -/
def IsIdentifier (name : String) : Prop :=
  IsName name.toList ∧ CharClass.isKeyword name = false

/-- The text is digits, a point, and perhaps more digits. -/
def IsFraction (text : List Char) : Prop :=
  ∃ ds es, text = ds ++ '.' :: es ∧ IsRun isDigit ds ∧ ∀ c ∈ es, isDigit c = true

namespace Tree

/-- Is the tree the definition of a variable? -/
def IsDefinition : Tree → Prop
  | .definition _ _ _ _ _ => True
  | _ => False

/-- The trees that stand for expressions. -/
inductive IsExpression : Tree → Prop where
  | bool {x : Bool} {l : Location} : IsExpression (.bool x l)
  | char {c : Char} {l : Location} : IsExpression (.char c l)
  | int {n : Int} {l : Location} : 0 ≤ n → n ≤ maxInt → IsExpression (.int n l)
  | float {text : List Char} {l : Location} : IsFraction text →
      IsExpression (.float (Binary64.ofDecimal (Decimal.ofText text)) l)
  | string {x : String} {l : Location} : IsExpression (.string x l)
  | reference {name : String} {l : Location} : IsIdentifier name →
      IsExpression (.reference name l)
  | operation {op : Operator} {left right : Tree} {l : Location} : IsExpression left →
      IsExpression right → IsExpression (.operation op left right l)
  | call {f : Tree} {xs : List Tree} {l : Location} : IsExpression f →
      (∀ x ∈ xs, IsExpression x) → IsExpression (.call f xs l)
  | block {xs : List Tree} {l : Location} : (∀ x ∈ xs, IsExpression x) →
      IsExpression (.block xs l)
  | absentDefinition {name type : String} {isConst : Bool} {l l' : Location} :
      IsIdentifier name → IsIdentifier type →
      IsExpression (.definition name type isConst (.absent l') l)
  | definition {name type : String} {isConst : Bool} {value : Tree} {l : Location} :
      IsIdentifier name → IsIdentifier type → IsExpression value →
      IsExpression (.definition name type isConst value l)
  | function {name result : String} {ps xs : List Tree} {l l' : Location} :
      IsIdentifier name → IsIdentifier result → (∀ p ∈ ps, p.IsDefinition) →
      (∀ p ∈ ps, IsExpression p) → (∀ x ∈ xs, IsExpression x) →
      IsExpression (.function name result ps (.block xs l') l)

/-- A program is a row of expressions. -/
def IsProgram (t : Tree) : Prop := ∃ xs l, t = .block xs l ∧ ∀ x ∈ xs, IsExpression x

end Tree

/-! ## How trees are written -/

/-- What is printed: a tree or some trees, and the place where they stand. -/
inductive Form where
  /-- Where any expression may stand. -/
  | expression (t : Tree)
  /-- An operand, in which operators have to bind at least as tight as the bound. -/
  | chain (bound : Nat) (t : Tree)
  | atom (t : Tree)
  | callee (t : Tree)
  | list (b : Bracketing) (ts : List Tree)
  | row (b : Bracketing) (ts : List Tree)
  | element (b : Bracketing) (t : Tree)
  | parameter (t : Tree)
  /-- A variable from its name on. -/
  | variable (name type : String) (value : Tree)
  | statements (ts : List Tree)

/-- The word in front of a variable. -/
def qualifier (isConst : Bool) : String := if isConst then "const" else "mut"

/-- The form may be printed as the word. -/
inductive Prints : Form → List Terminal → Prop where
  | expression {t : Tree} {w : List Terminal} : Prints (.chain 0 t) w → Prints (.expression t) w
  | definition {name type : String} {isConst : Bool} {value : Tree} {l : Location}
      {w : List Terminal} : Prints (.variable name type value) w →
      Prints (.expression (.definition name type isConst value l))
        (.keyword (qualifier isConst) :: w)
  | function {name result : String} {ps xs : List Tree} {l l' : Location}
      {v w : List Terminal} : Prints (.list .parameters ps) v → Prints (.list .block xs) w →
      Prints (.expression (.function name result ps (.block xs l') l))
        (.keyword "def" :: .identifier name :: (v ++ .operator "->" :: .identifier result :: w))
  | chain {bound : Nat} {t : Tree} {w : List Terminal} : Prints (.atom t) w →
      Prints (.chain bound t) w
  /-- Operators that bind equally associate to the left, so one of them may stand without
  parentheses on the left only. -/
  | operation {bound : Nat} {op : Operator} {left right : Tree} {l : Location}
      {v w : List Terminal} : bound ≤ op.precedence → Prints (.chain op.precedence left) v →
      Prints (.chain (op.precedence + 1) right) w →
      Prints (.chain bound (.operation op left right l)) (v ++ .operator op.symbol :: w)
  | parens {t : Tree} {w : List Terminal} : Prints (.expression t) w →
      Prints (.atom t) (.punctuation "(" :: (w ++ [.punctuation ")"]))
  | bool {x : Bool} {l : Location} :
      Prints (.atom (.bool x l)) [.keyword (if x then "true" else "false")]
  | char {c : Char} {l : Location} : Prints (.atom (.char c l)) [(.char, .ofList [c])]
  | int {ds : List Char} {l : Location} : IsRun isDigit ds → ofDigits ds ≤ maxInt →
      Prints (.atom (.int (ofDigits ds) l)) [(.int, .ofList ds)]
  | float {text : List Char} {l : Location} : IsFraction text →
      Prints (.atom (.float (Binary64.ofDecimal (Decimal.ofText text)) l))
        [(.float, .ofList text)]
  | string {x : String} {l : Location} : Prints (.atom (.string x l)) [(.string, x)]
  | reference {name : String} {l : Location} :
      Prints (.atom (.reference name l)) [.identifier name]
  | call {f : Tree} {xs : List Tree} {l : Location} {v w : List Terminal} :
      Prints (.callee f) v → Prints (.list .arguments xs) w →
      Prints (.atom (.call f xs l)) (v ++ w)
  | block {xs : List Tree} {l : Location} {w : List Terminal} : Prints (.list .block xs) w →
      Prints (.atom (.block xs l)) w
  | callee {f : Tree} {w : List Terminal} : Prints (.expression f) w →
      Prints (.callee f) (.punctuation "(" :: (w ++ [.punctuation ")"]))
  | calleeReference {name : String} {l : Location} :
      Prints (.callee (.reference name l)) [.identifier name]
  | emptyList {b : Bracketing} : Prints (.list b []) [b.openTerminal, b.closeTerminal]
  | list {b : Bracketing} {ts : List Tree} {w : List Terminal} : Prints (.row b ts) w →
      Prints (.list b ts) (b.openTerminal :: (w ++ [b.closeTerminal]))
  | listTrailing {b : Bracketing} {ts : List Tree} {w : List Terminal} : Prints (.row b ts) w →
      Prints (.list b ts) (b.openTerminal :: (w ++ [b.separatorTerminal, b.closeTerminal]))
  | single {b : Bracketing} {t : Tree} {w : List Terminal} : Prints (.element b t) w →
      Prints (.row b [t]) w
  | row {b : Bracketing} {t : Tree} {ts : List Tree} {v w : List Terminal} :
      Prints (.element b t) v → Prints (.row b ts) w →
      Prints (.row b (t :: ts)) (v ++ b.separatorTerminal :: w)
  | argument {t : Tree} {w : List Terminal} : Prints (.expression t) w →
      Prints (.element .arguments t) w
  | formal {t : Tree} {w : List Terminal} : Prints (.parameter t) w →
      Prints (.element .parameters t) w
  | statement {t : Tree} {w : List Terminal} : Prints (.expression t) w →
      Prints (.element .block t) w
  | parameter {name type : String} {value : Tree} {l : Location} {w : List Terminal} :
      Prints (.variable name type value) w →
      Prints (.parameter (.definition name type false value l)) w
  | parameterQualified {name type : String} {isConst : Bool} {value : Tree} {l : Location}
      {w : List Terminal} : Prints (.variable name type value) w →
      Prints (.parameter (.definition name type isConst value l))
        (.keyword (qualifier isConst) :: w)
  | variableAbsent {name type : String} {l : Location} :
      Prints (.variable name type (.absent l))
        [.identifier name, .operator ":", .identifier type]
  | variableValue {name type : String} {value : Tree} {w : List Terminal} :
      Prints (.expression value) w → Prints (.variable name type value)
        (.identifier name :: .operator ":" :: .identifier type ::
          .operator Operator.assign.symbol :: w)
  | noStatements : Prints (.statements []) []
  | statements {t : Tree} {ts : List Tree} {v w : List Terminal} : Prints (.expression t) v →
      Prints (.statements ts) w → Prints (.statements (t :: ts)) (v ++ .punctuation ";" :: w)

/-- A token as it is written. Quoted literals may be written with any escapes that stand for their
content. -/
structure Writing where
  terminal : Terminal
  text : List Char
  /-- The text is this token in front of a blank. -/
  isLexeme : IsLexeme [' '] terminal.1 terminal.2.toList text

/-- The program may be written as the text: it is printed as some word, and there is one space
between the tokens. -/
def Tree.PrintsAs (t : Tree) (text : String) : Prop :=
  ∃ (xs : List Tree) (l : Location) (word : List Writing), t = .block xs l ∧
    Prints (.statements xs) (word.map Writing.terminal) ∧
    text.toList = [' '].intercalate (word.map Writing.text)

/-! ## Every program can be written -/

namespace Terminal

/-- The terminal can be written. -/
def IsWritable (x : Terminal) : Prop := ∃ p : Writing, p.terminal = x

theorem isWritable_of_isLexeme {kind : Token.Kind} {value : String} {text : List Char}
    (h : IsLexeme [' '] kind value.toList text) : IsWritable (kind, value) := ⟨⟨_, text, h⟩, rfl⟩

theorem isWritable_punctuation {value : String} {c : Char} (hvalue : value.toList = [c])
    (hc : CharClass.isPunctuationChar c = true) : (punctuation value).IsWritable := by
  apply isWritable_of_isLexeme
  rw [hvalue]
  exact .punctuation hc

theorem isWritable_operator {value : String}
    (hvalue : IsRun CharClass.isOperatorChar value.toList) : (operator value).IsWritable :=
  isWritable_of_isLexeme (.operator hvalue (stopsAt_cons.mpr (by decide)))

theorem isWritable_keyword {value : String} (hvalue : IsName value.toList)
    (hword : CharClass.isKeyword value = true) : (keyword value).IsWritable := by
  refine isWritable_of_isLexeme (.keyword hvalue (stopsAt_cons.mpr (by decide)) ?_)
  rwa [String.ofList_toList]

theorem isWritable_identifier {value : String} (hvalue : IsIdentifier value) :
    (identifier value).IsWritable := by
  refine isWritable_of_isLexeme (.identifier hvalue.1 (stopsAt_cons.mpr (by decide)) ?_)
  rw [String.ofList_toList]
  exact hvalue.2

/-- Every content of a quoted literal can be written. -/
theorem exists_encodes (quote : Char) (hquote : CharClass.unescape quote = some quote)
    (value : List Char) : ∃ text, Encodes quote value text := by
  induction value with
  | nil => exact ⟨[], .nil⟩
  | cons c cs ih =>
      obtain ⟨text, htext⟩ := ih
      -- only the quote and the backslash need an escape
      by_cases hc : c = quote
      · subst hc
        exact ⟨_, .escape hquote htext⟩
      by_cases hslash : c = '\\'
      · subst hslash
        exact ⟨_, .escape (show CharClass.unescape '\\' = some '\\' from rfl) htext⟩
      · exact ⟨c :: text, .raw hc hslash htext⟩

theorem isWritable_string (value : String) : IsWritable (.string, value) := by
  obtain ⟨text, htext⟩ := exists_encodes CharClass.stringQuote rfl value.toList
  exact isWritable_of_isLexeme (.string htext)

theorem isWritable_char (value : String) : IsWritable (.char, value) := by
  obtain ⟨text, htext⟩ := exists_encodes CharClass.charQuote rfl value.toList
  exact isWritable_of_isLexeme (.char htext)

end Terminal

/-- The form can be written as some word. -/
def Form.IsWritable (f : Form) : Prop := ∃ w, Prints f w ∧ ∀ x ∈ w, x.IsWritable

/-- The digits of a natural number. -/
theorem exists_digits (n : Nat) : ∃ ds, IsRun isDigit ds ∧ ofDigits ds = n := by
  refine ⟨Nat.toDigits 10 n, ⟨Nat.toDigits_ne_nil, fun c hc => ?_⟩, Nat.ofDigitChars_ten_toDigits⟩
  have hdigit := Nat.isDigit_of_mem_toDigits (by decide) (by decide) hc
  simp only [Char.isDigit, Bool.and_eq_true, decide_eq_true_eq] at hdigit
  simp only [isDigit, Bool.and_eq_true, decide_eq_true_eq]
  exact hdigit

namespace Form

theorem isWritable_parens {t : Tree} (h : IsWritable (.expression t)) :
    IsWritable (.atom t) ∧ IsWritable (.callee t) := by
  obtain ⟨w, hw, hwritable⟩ := h
  have hopen : (Terminal.punctuation "(").IsWritable :=
    Terminal.isWritable_punctuation rfl (by decide)
  have hclose : (Terminal.punctuation ")").IsWritable :=
    Terminal.isWritable_punctuation rfl (by decide)
  have hall : ∀ x ∈ Terminal.punctuation "(" :: (w ++ [.punctuation ")"]), x.IsWritable := by
    rw [List.forall_mem_cons, List.forall_mem_append, List.forall_mem_singleton]
    exact ⟨hopen, hwritable, hclose⟩
  exact ⟨⟨_, .parens hw, hall⟩, ⟨_, .callee hw, hall⟩⟩

/-- An operand can stand in parentheses. -/
theorem isWritable_chain {t : Tree} (h : IsWritable (.expression t)) (bound : Nat) :
    IsWritable (.chain bound t) := by
  obtain ⟨w, hw, hwritable⟩ := (isWritable_parens h).1
  exact ⟨w, .chain hw, hwritable⟩

theorem isWritable_token {t : Tree} {x : Terminal} (h : Prints (.atom t) [x])
    (hx : x.IsWritable) : IsWritable (.expression t) :=
  ⟨[x], .expression (.chain h), List.forall_mem_singleton.mpr hx⟩

theorem isWritable_brackets (b : Bracketing) :
    b.openTerminal.IsWritable ∧ b.closeTerminal.IsWritable ∧ b.separatorTerminal.IsWritable := by
  cases b with
  | arguments =>
      exact ⟨Terminal.isWritable_punctuation rfl (by decide),
        Terminal.isWritable_punctuation rfl (by decide),
        Terminal.isWritable_punctuation rfl (by decide)⟩
  | parameters =>
      exact ⟨Terminal.isWritable_punctuation rfl (by decide),
        Terminal.isWritable_punctuation rfl (by decide),
        Terminal.isWritable_punctuation rfl (by decide)⟩
  | block =>
      exact ⟨Terminal.isWritable_punctuation rfl (by decide),
        Terminal.isWritable_punctuation rfl (by decide),
        Terminal.isWritable_punctuation rfl (by decide)⟩

theorem isWritable_row {b : Bracketing} {t : Tree} {ts : List Tree}
    (h : ∀ x ∈ t :: ts, IsWritable (.element b x)) : IsWritable (.row b (t :: ts)) := by
  induction ts generalizing t with
  | nil =>
      obtain ⟨w, hw, hwritable⟩ := h t (List.mem_cons_self ..)
      exact ⟨w, .single hw, hwritable⟩
  | cons u us ih =>
      obtain ⟨v, hv, hvwritable⟩ := h t (List.mem_cons_self ..)
      obtain ⟨w, hw, hwwritable⟩ := ih fun x hx => h x (List.mem_cons_of_mem t hx)
      refine ⟨_, .row hv hw, ?_⟩
      rw [List.forall_mem_append, List.forall_mem_cons]
      exact ⟨hvwritable, (isWritable_brackets b).2.2, hwwritable⟩

theorem isWritable_list {b : Bracketing} {ts : List Tree}
    (h : ∀ x ∈ ts, IsWritable (.element b x)) : IsWritable (.list b ts) := by
  obtain ⟨hopen, hclose, -⟩ := isWritable_brackets b
  cases ts with
  | nil =>
      refine ⟨_, .emptyList, ?_⟩
      rw [List.forall_mem_cons, List.forall_mem_singleton]
      exact ⟨hopen, hclose⟩
  | cons t ts =>
      obtain ⟨w, hw, hwritable⟩ := isWritable_row h
      refine ⟨_, .list hw, ?_⟩
      rw [List.forall_mem_cons, List.forall_mem_append, List.forall_mem_singleton]
      exact ⟨hopen, hwritable, hclose⟩

/-- A list of expressions can be written if its elements can. -/
theorem isWritable_expressions {b : Bracketing} {ts : List Tree} (hb : b ≠ .parameters)
    (h : ∀ x ∈ ts, IsWritable (.expression x)) : IsWritable (.list b ts) := by
  refine isWritable_list fun x hx => ?_
  obtain ⟨w, hw, hwritable⟩ := h x hx
  cases b with
  | arguments => exact ⟨w, .argument hw, hwritable⟩
  | parameters => exact absurd rfl hb
  | block => exact ⟨w, .statement hw, hwritable⟩

theorem isWritable_variable_absent {name type : String} {l : Location}
    (hname : IsIdentifier name) (htype : IsIdentifier type) :
    IsWritable (.variable name type (.absent l)) := by
  refine ⟨_, .variableAbsent, ?_⟩
  rw [List.forall_mem_cons, List.forall_mem_cons, List.forall_mem_singleton]
  exact ⟨Terminal.isWritable_identifier hname, Terminal.isWritable_operator (by decide),
    Terminal.isWritable_identifier htype⟩

theorem isWritable_variable {name type : String} {value : Tree} (hname : IsIdentifier name)
    (htype : IsIdentifier type) (hvalue : IsWritable (.expression value)) :
    IsWritable (.variable name type value) := by
  obtain ⟨w, hw, hwritable⟩ := hvalue
  refine ⟨_, .variableValue hw, ?_⟩
  rw [List.forall_mem_cons, List.forall_mem_cons, List.forall_mem_cons, List.forall_mem_cons]
  exact ⟨Terminal.isWritable_identifier hname, Terminal.isWritable_operator (by decide),
    Terminal.isWritable_identifier htype, Terminal.isWritable_operator (by decide), hwritable⟩

/-- A variable becomes a definition, and a parameter, by its qualifier. -/
theorem isWritable_definition {name type : String} {isConst : Bool} {value : Tree} {l : Location}
    (h : IsWritable (.variable name type value)) :
    IsWritable (.expression (.definition name type isConst value l)) ∧
      IsWritable (.element .parameters (.definition name type isConst value l)) := by
  obtain ⟨w, hw, hwritable⟩ := h
  have hqualifier : (Terminal.keyword (qualifier isConst)).IsWritable := by
    cases isConst with
    | true => exact Terminal.isWritable_keyword (by decide) (by decide)
    | false => exact Terminal.isWritable_keyword (by decide) (by decide)
  have hall : ∀ x ∈ Terminal.keyword (qualifier isConst) :: w, x.IsWritable :=
    List.forall_mem_cons.mpr ⟨hqualifier, hwritable⟩
  exact ⟨⟨_, .definition hw, hall⟩, ⟨_, .formal (.parameterQualified hw), hall⟩⟩

theorem isWritable_function {name result : String} {ps xs : List Tree} {l l' : Location}
    (hname : IsIdentifier name) (hresult : IsIdentifier result)
    (hps : IsWritable (.list .parameters ps)) (hxs : IsWritable (.list .block xs)) :
    IsWritable (.expression (.function name result ps (.block xs l') l)) := by
  obtain ⟨v, hv, hvwritable⟩ := hps
  obtain ⟨w, hw, hwwritable⟩ := hxs
  refine ⟨_, .function hv hw, ?_⟩
  rw [List.forall_mem_cons, List.forall_mem_cons, List.forall_mem_append, List.forall_mem_cons,
    List.forall_mem_cons]
  exact ⟨Terminal.isWritable_keyword (by decide) (by decide),
    Terminal.isWritable_identifier hname, hvwritable, Terminal.isWritable_operator (by decide),
    Terminal.isWritable_identifier hresult, hwwritable⟩

theorem isWritable_operation {op : Operator} {left right : Tree} {l : Location}
    (hleft : IsWritable (.expression left)) (hright : IsWritable (.expression right)) :
    IsWritable (.expression (.operation op left right l)) := by
  obtain ⟨v, hv, hvwritable⟩ := isWritable_chain hleft op.precedence
  obtain ⟨w, hw, hwwritable⟩ := isWritable_chain hright (op.precedence + 1)
  have hop : (Terminal.operator op.symbol).IsWritable := by
    apply Terminal.isWritable_operator
    cases op <;> decide
  refine ⟨_, .expression (.operation (Nat.zero_le _) hv hw), ?_⟩
  rw [List.forall_mem_append, List.forall_mem_cons]
  exact ⟨hvwritable, hop, hwwritable⟩

theorem isWritable_call {f : Tree} {xs : List Tree} {l : Location}
    (hf : IsWritable (.expression f)) (hxs : IsWritable (.list .arguments xs)) :
    IsWritable (.expression (.call f xs l)) := by
  obtain ⟨v, hv, hvwritable⟩ := (isWritable_parens hf).2
  obtain ⟨w, hw, hwwritable⟩ := hxs
  exact ⟨_, .expression (.chain (.call hv hw)),
    List.forall_mem_append.mpr ⟨hvwritable, hwwritable⟩⟩

end Form

/-- Every expression can be written, and every definition also as a parameter. -/
theorem Tree.IsExpression.isWritable {t : Tree} (h : t.IsExpression) :
    Form.IsWritable (.expression t) ∧
      (t.IsDefinition → Form.IsWritable (.element .parameters t)) := by
  induction h with
  | @bool x l =>
      refine ⟨Form.isWritable_token .bool ?_, fun hdefinition => hdefinition.elim⟩
      cases x with
      | true => exact Terminal.isWritable_keyword (by decide) (by decide)
      | false => exact Terminal.isWritable_keyword (by decide) (by decide)
  | char => exact ⟨Form.isWritable_token .char (Terminal.isWritable_char _), False.elim⟩
  | @int n l hnonneg hmax =>
      -- any digits with this value will do
      obtain ⟨ds, hds, hn⟩ := exists_digits n.toNat
      have hvalue : (ofDigits ds : Int) = n := by omega
      have hlexeme : IsLexeme [' '] .int (String.ofList ds).toList ds := by
        rw [String.toList_ofList]
        exact .int hds (stopsAt_cons.mpr (by decide))
      refine ⟨?_, False.elim⟩
      rw [← hvalue]
      exact Form.isWritable_token (.int hds (by omega)) (Terminal.isWritable_of_isLexeme hlexeme)
  | @float text l htext =>
      have hlexeme : IsLexeme [' '] .float (String.ofList text).toList text := by
        obtain ⟨ds, es, rfl, hds, hes⟩ := htext
        rw [String.toList_ofList]
        exact .float hds hes (stopsAt_cons.mpr (by decide))
      exact ⟨Form.isWritable_token (.float htext) (Terminal.isWritable_of_isLexeme hlexeme),
        False.elim⟩
  | string => exact ⟨Form.isWritable_token .string (Terminal.isWritable_string _), False.elim⟩
  | reference hname =>
      exact ⟨Form.isWritable_token .reference (Terminal.isWritable_identifier hname), False.elim⟩
  | operation _ _ ihleft ihright =>
      exact ⟨Form.isWritable_operation ihleft.1 ihright.1, False.elim⟩
  | call _ _ ihf ihxs =>
      have hxs := Form.isWritable_expressions (b := .arguments) (by decide)
        fun x hx => (ihxs x hx).1
      exact ⟨Form.isWritable_call ihf.1 hxs, False.elim⟩
  | block _ ih =>
      obtain ⟨w, hw, hwritable⟩ :=
        Form.isWritable_expressions (b := .block) (by decide) fun x hx => (ih x hx).1
      exact ⟨⟨w, .expression (.chain (.block hw)), hwritable⟩, False.elim⟩
  | absentDefinition hname htype =>
      obtain ⟨hexpression, hparameter⟩ :=
        Form.isWritable_definition (Form.isWritable_variable_absent hname htype)
      exact ⟨hexpression, fun _ => hparameter⟩
  | definition hname htype _ ih =>
      obtain ⟨hexpression, hparameter⟩ :=
        Form.isWritable_definition (Form.isWritable_variable hname htype ih.1)
      exact ⟨hexpression, fun _ => hparameter⟩
  | function hname hresult hdefinitions _ _ ihps ihxs =>
      have hps := Form.isWritable_list fun p hp => (ihps p hp).2 (hdefinitions p hp)
      have hxs := Form.isWritable_expressions (b := .block) (by decide) fun x hx => (ihxs x hx).1
      exact ⟨Form.isWritable_function hname hresult hps hxs, False.elim⟩

theorem isWritable_statements {xs : List Tree}
    (h : ∀ x ∈ xs, Form.IsWritable (.expression x)) : Form.IsWritable (.statements xs) := by
  induction xs with
  | nil => exact ⟨[], .noStatements, by simp⟩
  | cons x xs ih =>
      obtain ⟨v, hv, hvwritable⟩ := h x (List.mem_cons_self ..)
      obtain ⟨w, hw, hwwritable⟩ := ih fun y hy => h y (List.mem_cons_of_mem x hy)
      refine ⟨_, .statements hv hw, ?_⟩
      rw [List.forall_mem_append, List.forall_mem_cons]
      exact ⟨hvwritable, Terminal.isWritable_punctuation rfl (by decide), hwwritable⟩

/-- Terminals that can be written are the terminals of a word that is written. -/
theorem exists_word {w : List Terminal} (h : ∀ x ∈ w, x.IsWritable) :
    ∃ word : List Writing, word.map Writing.terminal = w := by
  induction w with
  | nil => exact ⟨[], rfl⟩
  | cons x w ih =>
      obtain ⟨⟨p, rfl⟩, hw⟩ := List.forall_mem_cons.mp h
      obtain ⟨word, rfl⟩ := ih hw
      exact ⟨p :: word, rfl⟩

/-- Every program can be written. -/
theorem Tree.IsProgram.exists_printsAs {t : Tree} (h : t.IsProgram) : ∃ text, t.PrintsAs text := by
  obtain ⟨xs, l, rfl, hxs⟩ := h
  obtain ⟨w, hw, hwritable⟩ := isWritable_statements fun x hx => (hxs x hx).isWritable.1
  obtain ⟨word, rfl⟩ := exists_word hwritable
  exact ⟨String.ofList _, xs, l, word, rfl, hw, String.toList_ofList⟩

end ExprLang
