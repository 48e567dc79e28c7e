import ExprLang.Parser.Program

set_option autoImplicit false

/-! # What the productions take off a stream

`Parses c s r` says that the construct `c`, which carries its own result, is read off the front of
the stream `s` and leaves `r`. It has one rule for each way through a production, with the
look-ahead that makes the parser go this way as a premise. The rules leave out the sizes of
streams and the log, so facts about everything that the parser accepts are inductions over them.
That the productions and the rules agree is proved in `Proofs/Parses/Equivalence.lean`.

`Parses.begins` says with which tokens a construct can begin.
-/

namespace ExprLang

namespace Parser

/-- A production together with the result it comes to. -/
inductive Construct where
  | expression (t : Tree)
  /-- The operators behind `left` that bind tighter than `floor`. -/
  | chain (floor : Nat) (left t : Tree)
  | applied (callee t : Tree)
  | atom (t : Tree)
  | primary (t : Tree)
  | block (t : Tree)
  | function (t : Tree)
  | definition (t : Tree)
  | parameter (t : Tree)
  | variableBody (isConst : Bool) (l : Location) (t : Tree)
  | items (b : Bracketing) (ts : List Tree)
  | moreItems (b : Bracketing) (ts : List Tree)
  | element (b : Bracketing) (t : Tree)
  | statements (ts : List Tree)
  | program (t : Tree)

/-- The construct is read off the first stream, and the second one is left. -/
inductive Parses : Construct → TokenStream → TokenStream → Prop where
  | expression {first e t : Tree} {s r r' r'' : TokenStream} : Parses (.atom first) s r →
      Parses (.chain 0 first e) r r' → Parses (.applied e t) r' r'' →
      Parses (.expression t) s r''
  | chainStop {floor : Nat} {left : Tree} {s : TokenStream} {u : Token} : s.head = .ok u →
      (∀ op, u.operator? = some op → op.precedence ≤ floor) →
      Parses (.chain floor left left) s s
  | chainLink {floor : Nat} {left first right t : Tree} {s r r' r'' : TokenStream} {u : Token}
      {op : Operator} : u.operator? = some op → floor < op.precedence →
      Parses (.atom first) s r → Parses (.chain op.precedence first right) r r' →
      Parses (.chain floor (.operation op left right u.location) t) r' r'' →
      Parses (.chain floor left t) (.token u s) r''
  | call {callee : Tree} {arguments : List Tree} {s r : TokenStream} {u : Token} :
      u.isPunctuation "(" = true → Parses (.items .arguments arguments) s r →
      Parses (.applied callee (.call callee arguments callee.location)) (.token u s) r
  | noCall {callee : Tree} {s : TokenStream} {u : Token} : s.head = .ok u →
      u.isPunctuation "(" = false → Parses (.applied callee callee) s s
  | atom {p t : Tree} {s r r' : TokenStream} : Parses (.primary p) s r →
      Parses (.applied p t) r r' → Parses (.atom t) s r'
  | parens {t : Tree} {s r : TokenStream} {u v : Token} : u.isPunctuation "(" = true →
      Parses (.expression t) s (.token v r) → v.isPunctuation ")" = true →
      Parses (.primary t) (.token u s) r
  | blockPrimary {t : Tree} {s r : TokenStream} : Parses (.block t) s r →
      Parses (.primary t) s r
  | functionPrimary {t : Tree} {s r : TokenStream} : Parses (.function t) s r →
      Parses (.primary t) s r
  | definitionPrimary {t : Tree} {s r : TokenStream} : Parses (.definition t) s r →
      Parses (.primary t) s r
  | operand {t : Tree} {s : TokenStream} {u : Token} : u.operand = .ok t →
      Parses (.primary t) (.token u s) s
  | block {statements : List Tree} {s r : TokenStream} {u : Token} :
      u.isPunctuation "\x7b" = true → Parses (.items .block statements) s r →
      Parses (.block (.block statements u.location)) (.token u s) r
  | function {parameters : List Tree} {body : Tree} {s r r' : TokenStream}
      {word name bracket arrow result : Token} : word.isKeyword "def" = true →
      name.kind = .identifier → bracket.isPunctuation "(" = true →
      Parses (.items .parameters parameters) s (.token arrow (.token result r)) →
      arrow.isOperator "->" = true → result.kind = .identifier → Parses (.block body) r r' →
      Parses (.function (.function name.value result.value parameters body word.location))
        (.token word (.token name (.token bracket s))) r'
  | definition {t : Tree} {s r : TokenStream} {u : Token} :
      u.isKeyword "const" = true ∨ u.isKeyword "mut" = true →
      Parses (.variableBody (u.isKeyword "const") u.location t) s r →
      Parses (.definition t) (.token u s) r
  | parameterDefinition {t : Tree} {s r : TokenStream} : Parses (.definition t) s r →
      Parses (.parameter t) s r
  | parameterVariable {t : Tree} {s r : TokenStream} {u : Token} :
      Parses (.variableBody false u.location t) (.token u s) r →
      Parses (.parameter t) (.token u s) r
  | variableAbsent {isConst : Bool} {l : Location} {s : TokenStream}
      {name colon type u : Token} : name.kind = .identifier → colon.isOperator ":" = true →
      type.kind = .identifier → s.head = .ok u → u.isOperator "=" = false →
      Parses (.variableBody isConst l (.definition name.value type.value isConst
        (.absent u.location) l)) (.token name (.token colon (.token type s))) s
  | variableValue {isConst : Bool} {l : Location} {value : Tree} {s r : TokenStream}
      {name colon type sign : Token} : name.kind = .identifier → colon.isOperator ":" = true →
      type.kind = .identifier → sign.isOperator "=" = true → Parses (.expression value) s r →
      Parses (.variableBody isConst l (.definition name.value type.value isConst value l))
        (.token name (.token colon (.token type (.token sign s)))) r
  | itemsClose {b : Bracketing} {s : TokenStream} {u : Token} :
      u.isPunctuation b.closing = true → Parses (.items b []) (.token u s) s
  | itemsCons {b : Bracketing} {x : Tree} {xs : List Tree} {s r r' : TokenStream} :
      Parses (.element b x) s r → Parses (.moreItems b xs) r r' →
      Parses (.items b (x :: xs)) s r'
  | moreClose {b : Bracketing} {s : TokenStream} {u : Token} :
      u.isPunctuation b.closing = true → Parses (.moreItems b []) (.token u s) s
  | moreTrailing {b : Bracketing} {s : TokenStream} {u v : Token} :
      u.isPunctuation b.separator = true → v.isPunctuation b.closing = true →
      Parses (.moreItems b []) (.token u (.token v s)) s
  | moreCons {b : Bracketing} {x : Tree} {xs : List Tree} {s r r' : TokenStream} {u : Token} :
      u.isPunctuation b.separator = true → Parses (.element b x) s r →
      Parses (.moreItems b xs) r r' → Parses (.moreItems b (x :: xs)) (.token u s) r'
  | argument {t : Tree} {s r : TokenStream} : Parses (.expression t) s r →
      Parses (.element .arguments t) s r
  | formal {t : Tree} {s r : TokenStream} : Parses (.parameter t) s r →
      Parses (.element .parameters t) s r
  | statement {t : Tree} {s r : TokenStream} : Parses (.expression t) s r →
      Parses (.element .block t) s r
  | noStatements {s : TokenStream} {u : Token} : s.head = .ok u → u.isEof = true →
      Parses (.statements []) s s
  | statements {t : Tree} {ts : List Tree} {s r r' : TokenStream} {u : Token} :
      Parses (.expression t) s (.token u r) → u.isPunctuation ";" = true →
      Parses (.statements ts) r r' → Parses (.statements (t :: ts)) s r'
  | program {ts : List Tree} {s r : TokenStream} {u : Token} : s.head = .ok u →
      Parses (.statements ts) s r → Parses (.program (.block ts u.location)) s r

end Parser

/-! ## First tokens -/

namespace Token

/-- Can a construct begin with this token? -/
def Begins (t : Token) : Prop :=
  t.kind ≠ .eof ∧ t.kind ≠ .operator ∧ (t.kind = .punctuation → t.value = "(" ∨ t.value = "\x7b")

/-- A token has only one kind and one value. -/
theorem is_eq_false {t : Token} {k k' : Kind} {v v' : String} (h : t.is k v = true)
    (hne : k ≠ k' ∨ v ≠ v') : t.is k' v' = false := by
  obtain ⟨rfl, rfl⟩ := is_iff.mp h
  rw [Bool.eq_false_iff]
  intro h'
  obtain ⟨hk, hv⟩ := is_iff.mp h'
  exact hne.elim (fun hne => hne hk) (fun hne => hne hv)

theorem begins_of_isPunctuation {t : Token}
    (h : t.isPunctuation "(" = true ∨ t.isPunctuation "\x7b" = true) : t.Begins := by
  rcases h with h | h
  · obtain ⟨hk, hv⟩ := is_iff.mp h
    simp [Begins, hk, hv]
  · obtain ⟨hk, hv⟩ := is_iff.mp h
    simp [Begins, hk, hv]

theorem begins_of_isKeyword {t : Token} {word : String} (h : t.isKeyword word = true) :
    t.Begins := by
  obtain ⟨hk, -⟩ := is_iff.mp h
  simp [Begins, hk]

theorem begins_of_identifier {t : Token} (h : t.kind = .identifier) : t.Begins := by
  simp [Begins, h]

theorem kind_of_operand {t : Token} {e : Tree} (h : t.operand = .ok e) :
    t.kind ≠ .eof ∧ t.kind ≠ .operator ∧ t.kind ≠ .punctuation := by
  unfold operand at h
  refine ⟨?_, ?_, ?_⟩ <;> intro hk <;> simp [hk] at h

theorem begins_of_operand {t : Token} {e : Tree} (h : t.operand = .ok e) : t.Begins := by
  obtain ⟨heof, hop, hpunct⟩ := kind_of_operand h
  exact ⟨heof, hop, fun hk => absurd hk hpunct⟩

/-- A reserved word that stands for no truth value is no operand. -/
theorem isKeyword_of_operand {t : Token} {e : Tree} (h : t.operand = .ok e) {word : String}
    (htrue : word ≠ "true") (hfalse : word ≠ "false") : t.isKeyword word = false := by
  rw [Bool.eq_false_iff]
  intro hword
  obtain ⟨hk, rfl⟩ := is_iff.mp hword
  simp [operand, hk, htrue, hfalse] at h

theorem Begins.isEof {t : Token} (h : t.Begins) : t.isEof = false := by
  simpa [Token.isEof] using h.1

/-- No construct begins with the end of a list. -/
theorem Begins.not_closing {t : Token} (h : t.Begins) (b : Bracketing) :
    t.isPunctuation b.closing = false := by
  rw [Bool.eq_false_iff]
  intro hclose
  obtain ⟨hk, hv⟩ := is_iff.mp hclose
  have hvalue := h.2.2 hk
  rw [hv] at hvalue
  cases b <;> simp [Bracketing.closing] at hvalue

end Token

namespace Parser

/-- How a construct begins that takes a token in any case. -/
def Construct.Begins : Construct → TokenStream → Prop
  | .chain _ _ _, _ => True
  | .applied _ _, _ => True
  | .items _ _, _ => True
  | .moreItems _ _, _ => True
  | .statements _, _ => True
  | .program _, _ => True
  | _, s => ∃ u r, s = .token u r ∧ u.Begins

theorem Parses.begins {c : Construct} {s r : TokenStream} (h : Parses c s r) : c.Begins s := by
  induction h with
  | expression _ _ _ ih => exact ih
  | atom _ _ ih => exact ih
  | parens hu => exact ⟨_, _, rfl, Token.begins_of_isPunctuation (.inl hu)⟩
  | blockPrimary _ ih => exact ih
  | functionPrimary _ ih => exact ih
  | definitionPrimary _ ih => exact ih
  | operand hu => exact ⟨_, _, rfl, Token.begins_of_operand hu⟩
  | block hu => exact ⟨_, _, rfl, Token.begins_of_isPunctuation (.inr hu)⟩
  | function hu => exact ⟨_, _, rfl, Token.begins_of_isKeyword hu⟩
  | definition hu =>
      exact ⟨_, _, rfl, hu.elim Token.begins_of_isKeyword Token.begins_of_isKeyword⟩
  | parameterDefinition _ ih => exact ih
  | parameterVariable _ ih => exact ih
  | variableAbsent hu => exact ⟨_, _, rfl, Token.begins_of_identifier hu⟩
  | variableValue hu => exact ⟨_, _, rfl, Token.begins_of_identifier hu⟩
  | argument _ ih => exact ih
  | formal _ ih => exact ih
  | statement _ ih => exact ih
  | _ => trivial

end Parser

end ExprLang
