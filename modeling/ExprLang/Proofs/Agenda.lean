import ExprLang.Proofs.Grammar

set_option autoImplicit false

/-! # Agendas

An agenda is a stack of goals: what a parser is still to read, the next goal first. A goal that is
a demand takes one token or refuses it; every other goal makes a plan by the next token, and the
plan takes its place on the agenda. `Run gs ts hs s` says that with the tokens `ts` in front of `s`
the agenda `gs` takes exactly these tokens, and `hs` is what it comes to.

Agendas know nothing of trees and of precedence, so one step is simple, and what holds of every
step holds of every run. A run is determined by the kinds and the values of the tokens it takes and
of the one behind them (`Run.congr`), and it ends in one way only (`Run.unique`). That the parser
keeps to its agenda is proved in `Proofs/Agenda/Descent.lean`.
-/

namespace ExprLang

/-- What the next token has to be. -/
inductive Demand where
  | exactly (kind : Token.Kind) (value : String)
  | identifier
  | operand

namespace Demand

/-- Why the token does not meet the demand. -/
def refusal (t : Token) : Demand → Option SyntaxError
  | exactly kind value =>
    if t.is kind value then none else some (.expectedToken t kind value)
  | identifier =>
    if t.kind == .identifier then none else some (.expectedToken t .identifier "")
  | operand =>
    match t.operand with
    | .ok _ => none
    | .error e => some e

/-- What is left when the next token is refused. What is no operand is taken nevertheless. -/
def left (s : TokenStream) : Demand → TokenStream
  | operand => s.tail
  | _ => s

end Demand

/-- What a parser is to read. -/
inductive Goal where
  | demand (d : Demand)
  /-- Statements up to the end of the text. -/
  | statements
  /-- Operators with the atoms behind them, as far as they go. -/
  | links
  /-- Arguments, if there are any. -/
  | application
  | primary
  | definition
  | parameter
  /-- The value of a variable, if there is one. -/
  | value
  /-- A list from behind its opening bracket, from behind an element, or from behind a
  separator. -/
  | items (b : Bracketing)
  | moreItems (b : Bracketing)
  | nextItem (b : Bracketing)

/-- What a parser is still to read, in order. -/
abbrev Agenda := List Goal

namespace Agenda

def atom : Agenda := [.primary, .application]

def expression : Agenda := [.primary, .application, .links, .application]

def block : Agenda :=
  [.demand (.exactly .punctuation Bracketing.block.opening), .items .block]

def variableBody : Agenda :=
  [.demand .identifier, .demand (.exactly .operator ":"), .demand .identifier, .value]

def function : Agenda :=
  [.demand (.exactly .keyword "def"), .demand .identifier,
    .demand (.exactly .punctuation Bracketing.parameters.opening), .items .parameters,
    .demand (.exactly .operator "->"), .demand .identifier,
    .demand (.exactly .punctuation Bracketing.block.opening), .items .block]

def element : Bracketing → Agenda
  | .arguments => expression
  | .parameters => [.parameter]
  | .block => expression

/-- The list is over. -/
def close (b : Bracketing) : Agenda := [.demand (.exactly .punctuation b.closing)]

end Agenda

/-- What a goal comes to when `u` is the next token. Demands make no plans. -/
def Goal.plan (u : Token) : Goal → Option Agenda
  | .demand _ => none
  | .statements =>
    if u.isEof then some []
    else some (Agenda.expression ++ [.demand (.exactly .punctuation ";"), .statements])
  | .links =>
    match u.operator? with
    | some op => some (.demand (.exactly .operator op.symbol) :: (Agenda.atom ++ [.links]))
    | none => some []
  | .application =>
    if u.isPunctuation Bracketing.arguments.opening then
      some [.demand (.exactly .punctuation Bracketing.arguments.opening), .items .arguments]
    else some []
  | .primary =>
    if u.isPunctuation "(" then
      some (.demand (.exactly .punctuation "(") :: (Agenda.expression ++
        [.demand (.exactly .punctuation ")")]))
    else if u.isPunctuation Bracketing.block.opening then some Agenda.block
    else if u.isKeyword "def" then some Agenda.function
    else if u.isKeyword "const" || u.isKeyword "mut" then some [.definition]
    else some [.demand .operand]
  | .definition =>
    some (.demand (.exactly .keyword (if u.isKeyword "const" then "const" else "mut")) ::
      Agenda.variableBody)
  | .parameter =>
    if u.isKeyword "const" || u.isKeyword "mut" then some [.definition]
    else some Agenda.variableBody
  | .value =>
    if u.isOperator Operator.assign.symbol then
      some (.demand (.exactly .operator Operator.assign.symbol) :: Agenda.expression)
    else some []
  | .items b =>
    if u.isEof || u.isPunctuation b.closing then some (Agenda.close b)
    else some (Agenda.element b ++ [.moreItems b])
  | .moreItems b =>
    if u.isEof || u.isPunctuation b.closing then some (Agenda.close b)
    else some [.demand (.exactly .punctuation b.separator), .nextItem b]
  | .nextItem b =>
    if u.isPunctuation b.closing then some (Agenda.close b)
    else some (Agenda.element b ++ [.moreItems b])

/-- The agenda takes the tokens in front of the stream, and the second agenda is left. -/
inductive Run : Agenda → List Token → Agenda → TokenStream → Prop where
  | done {gs : Agenda} {s : TokenStream} : Run gs [] gs s
  | plan {g : Goal} {plan gs hs : Agenda} {ts : List Token} {s : TokenStream} {u : Token} :
      (s.prepend ts).head = .ok u → g.plan u = some plan → Run (plan ++ gs) ts hs s →
      Run (g :: gs) ts hs s
  | take {d : Demand} {gs hs : Agenda} {ts : List Token} {s : TokenStream} {u : Token} :
      d.refusal u = none → Run gs ts hs s → Run (.demand d :: gs) (u :: ts) hs s

/-- The goal cannot be read off the stream, and the second stream is left. -/
inductive Goal.Fails : Goal → TokenStream → ParseError → TokenStream → Prop where
  | lexical {g : Goal} {s : TokenStream} {e : LexError} : s.head = .error e →
      Fails g s (.lexical e) s.tail
  | refused {d : Demand} {s : TokenStream} {u : Token} {e : SyntaxError} : s.head = .ok u →
      d.refusal u = some e → Fails (.demand d) s (.syntactic e) (d.left s)

/-- The agenda is empty, or its first goal fails. -/
def Agenda.Ends (gs : Agenda) (s : TokenStream) : Prop :=
  gs = [] ∨ ∃ g hs e r, gs = g :: hs ∧ g.Fails s e r

namespace Run

variable {gs hs ks : Agenda} {ts us : List Token} {s r : TokenStream}

theorem trans (h : Run gs ts hs (s.prepend us)) (h' : Run hs us ks s) :
    Run gs (ts ++ us) ks s := by
  generalize hr : s.prepend us = r at h
  induction h with
  | done => exact h'
  | plan hhead hplan _ ih =>
      subst hr
      rw [← TokenStream.prepend_append] at hhead
      exact .plan hhead hplan (ih h' rfl)
  | take hmet _ ih => exact .take hmet (ih h' hr)

/-! ## One end -/

theorem not_plan_of_fails {g : Goal} {e : ParseError} {u : Token} (h : g.Fails s e r)
    (hhead : s.head = .ok u) : g.plan u = none := by
  cases h with
  | lexical herror =>
      rw [hhead] at herror
      cases herror
  | refused => rfl

theorem refusal_of_fails {d : Demand} {e : ParseError} {u : Token}
    (h : Goal.Fails (.demand d) (.token u s) e r) : d.refusal u ≠ none := by
  cases h with
  | lexical herror => cases herror
  | refused hhead hrefusal =>
      cases hhead
      rw [hrefusal]
      exact Option.some_ne_none _

/-- An agenda that ends takes nothing. -/
theorem eq_of_ends (h : Run gs ts hs s) (hends : gs.Ends (s.prepend ts)) : hs = gs ∧ ts = [] := by
  cases h with
  | done => exact ⟨rfl, rfl⟩
  | plan hhead hplan _ =>
      obtain hnil | ⟨g, gs, e, r, hgs, hfails⟩ := hends
      · cases hnil
      · cases hgs
        rw [not_plan_of_fails hfails hhead] at hplan
        cases hplan
  | take hmet _ =>
      obtain hnil | ⟨g, gs, e, r, hgs, hfails⟩ := hends
      · cases hnil
      · cases hgs
        exact absurd hmet (refusal_of_fails hfails)

/-- Two runs of an agenda that go on until it ends are the same. -/
theorem unique (h : Run gs ts hs s) (h' : Run gs us ks r) (hsame : s.prepend ts = r.prepend us)
    (hends : hs.Ends s) (hends' : ks.Ends r) : hs = ks ∧ ts = us ∧ s = r := by
  induction h generalizing us with
  | done =>
      obtain rfl : _ = r.prepend us := hsame
      obtain ⟨rfl, rfl⟩ := h'.eq_of_ends hends
      exact ⟨rfl, rfl, rfl⟩
  | plan hhead hplan hrun ih =>
      cases h' with
      | done =>
          rw [TokenStream.prepend_nil] at hsame
          rw [← hsame] at hends'
          have hstop := (Run.plan hhead hplan hrun).eq_of_ends hends'
          obtain ⟨rfl, rfl⟩ := hstop
          exact ⟨rfl, rfl, hsame⟩
      | plan hhead' hplan' hrun' =>
          obtain rfl := Except.ok.inj (hhead.symm.trans ((congrArg _ hsame).trans hhead'))
          obtain rfl := Option.some.inj (hplan.symm.trans hplan')
          exact ih hrun' hsame hends
      | take => cases hplan
  | take hmet hrun ih =>
      cases h' with
      | done =>
          rw [TokenStream.prepend_nil] at hsame
          rw [← hsame] at hends'
          have hstop := (Run.take hmet hrun).eq_of_ends hends'
          cases hstop.2
      | plan _ hplan' _ => cases hplan'
      | take _ hrun' =>
          obtain ⟨rfl, htail⟩ := TokenStream.token.inj hsame
          obtain ⟨rfl, rfl, rfl⟩ := ih hrun' htail hends
          exact ⟨rfl, rfl, rfl⟩

end Run

/-! ## Kinds and values

A run looks at the kinds and the values of tokens only. -/

theorem Demand.refusal_congr {d : Demand} {t u : Token} (h : t.terminal = u.terminal)
    (ht : d.refusal t = none) : d.refusal u = none := by
  obtain ⟨hkind, hvalue⟩ := Prod.mk.inj h
  cases d with
  | exactly kind value => simpa [refusal, Token.is_iff, hkind, hvalue] using ht
  | identifier => simpa [refusal, hkind] using ht
  | operand =>
      cases hoperand : t.operand with
      | ok e =>
          obtain ⟨e', he'⟩ := Token.exists_operand (h ▸ Token.isOperand_of_operand hoperand)
          simp only [refusal, he']
      | error e => simp [refusal, hoperand] at ht

theorem Goal.plan_congr {t u : Token} (h : t.terminal = u.terminal) (g : Goal) :
    g.plan t = g.plan u := by
  -- only the locations differ, and no plan depends on them
  obtain ⟨kind, value, l⟩ := t
  obtain ⟨kind', value', l'⟩ := u
  obtain ⟨rfl, rfl⟩ := Prod.mk.inj h
  cases g <;> rfl

/-- The next tokens have the same kind and value. -/
def TokenStream.Agree (s r : TokenStream) : Prop :=
  ∀ u, s.head = .ok u → ∃ v, r.head = .ok v ∧ u.terminal = v.terminal

theorem TokenStream.Agree.prepend {s r : TokenStream} (h : s.Agree r) {ts us : List Token}
    (hword : word ts = word us) : (s.prepend ts).Agree (r.prepend us) := by
  cases ts with
  | nil =>
      obtain rfl := List.map_eq_nil_iff.mp hword.symm
      exact h
  | cons t ts =>
      obtain ⟨u, us, rfl, hu, -⟩ := List.map_eq_cons_iff.mp hword.symm
      intro v hv
      cases hv
      exact ⟨u, rfl, hu.symm⟩

/-- Tokens of the same kinds and values are taken in the same way. -/
theorem Run.congr {gs hs : Agenda} {ts us : List Token} {s r : TokenStream} (h : Run gs ts hs s)
    (hword : word ts = word us) (hahead : s.Agree r) : Run gs us hs r := by
  induction h generalizing us with
  | done =>
      obtain rfl := List.map_eq_nil_iff.mp hword.symm
      exact .done
  | plan hhead hplan _ ih =>
      obtain ⟨v, hv, hterminal⟩ := hahead.prepend hword _ hhead
      rw [Goal.plan_congr hterminal] at hplan
      exact .plan hv hplan (ih hword hahead)
  | take hmet _ ih =>
      obtain ⟨u, us, rfl, hu, hus⟩ := List.map_eq_cons_iff.mp hword.symm
      exact .take (Demand.refusal_congr hu.symm hmet) (ih hus.symm hahead)

/-- What is refused is refused again if it has the same kind and value. -/
theorem Goal.Fails.congr {g : Goal} {s s' r : TokenStream} {e : SyntaxError} {u v : Token}
    (h : g.Fails s (.syntactic e) s') (hu : s.head = .ok u) (hv : r.head = .ok v)
    (hterminal : u.terminal = v.terminal) : ∃ e' r', g.Fails r (.syntactic e') r' := by
  cases h with
  | @refused d _ u' _ hhead hrefusal =>
      obtain rfl : u = u' := Except.ok.inj (hu.symm.trans hhead)
      cases hrefused : d.refusal v with
      | none =>
          rw [Demand.refusal_congr hterminal.symm hrefused] at hrefusal
          cases hrefusal
      | some e' => exact ⟨e', _, .refused hv hrefused⟩

/-! ## The token at fault -/

/-- What is no operand is no token to begin with, or a literal that stands for no value. -/
theorem Token.operand_eq_error {t : Token} {e : SyntaxError} (h : t.operand = .error e) :
    e = .unexpectedToken t ∨ ∃ reason, e = .invalidLiteral t reason := by
  obtain ⟨kind, value, l⟩ := t
  cases kind with
  | int =>
      simp only [operand] at h
      split at h <;> cases h
      exact .inr ⟨_, rfl⟩
  | float => cases h
  | char =>
      simp only [operand] at h
      split at h <;> cases h
      exact .inr ⟨_, rfl⟩
  | string => cases h
  | identifier => cases h
  | keyword =>
      simp only [operand] at h
      split at h
      · cases h
      · split at h <;> cases h
        exact .inl rfl
  | operator => cases h; exact .inl rfl
  | punctuation => cases h; exact .inl rfl
  | eof => cases h; exact .inl rfl

theorem Token.found_of_operand {t : Token} {e : SyntaxError} (h : t.operand = .error e) :
    e.found = t := by
  rcases Token.operand_eq_error h with rfl | ⟨reason, rfl⟩
  · rfl
  · rfl

/-- A token is refused because it is no operand, or because another one is expected. -/
theorem Demand.refusal_eq_some {d : Demand} {t : Token} {e : SyntaxError}
    (h : d.refusal t = some e) :
    d = .operand ∧ t.operand = .error e ∨
      d ≠ .operand ∧ ∃ kind value, e = .expectedToken t kind value := by
  cases d with
  | exactly kind value =>
      simp only [refusal] at h
      split at h <;> cases h
      exact .inr ⟨nofun, kind, value, rfl⟩
  | identifier =>
      simp only [refusal] at h
      split at h <;> cases h
      exact .inr ⟨nofun, .identifier, "", rfl⟩
  | operand =>
      simp only [refusal] at h
      split at h
      · cases h
      · rename_i e' he'
        cases h
        exact .inl ⟨rfl, he'⟩

/-- A refusal names the token that is refused. -/
theorem Demand.found_of_refusal {d : Demand} {t : Token} {e : SyntaxError}
    (h : d.refusal t = some e) : e.found = t := by
  rcases refusal_eq_some h with ⟨-, hoperand⟩ | ⟨-, kind, value, rfl⟩
  · exact Token.found_of_operand hoperand
  · rfl

/-- A goal is refused at the next token. -/
theorem Goal.Fails.head_eq {g : Goal} {s r : TokenStream} {e : SyntaxError}
    (h : g.Fails s (.syntactic e) r) : s.head = .ok e.found := by
  cases h with
  | refused hhead hrefusal => rw [hhead, Demand.found_of_refusal hrefusal]

/-- A goal that is refused is refused in the same way wherever the token at fault comes next. -/
theorem Goal.Fails.of_head_eq {g : Goal} {s r s' : TokenStream} {e : SyntaxError}
    (h : g.Fails s (.syntactic e) r) (hhead : s'.head = .ok e.found) :
    ∃ r', g.Fails s' (.syntactic e) r' := by
  cases h with
  | refused _ hrefusal =>
      rw [Demand.found_of_refusal hrefusal] at hhead
      exact ⟨_, .refused hhead hrefusal⟩

end ExprLang
