import ExprLang.Proofs.Agenda
import ExprLang.Proofs.Chain

set_option autoImplicit false

/-! # The parser keeps to its agenda

`Outcome.Leads x s gs hs` says that a production that ends in `x` on the stream `s` works off the
agenda `gs` down to `hs`: if it succeeds, the agenda takes exactly the tokens that the production
takes; if it fails, the agenda comes to a goal that fails in the same way. Every production leads
from its own agenda to what is behind it. Precedence does not show: a chain stops with its
operators still on the agenda, and the loop around it goes on from there.

`parse_eq_error_iff` tells the errors of a text by the runs of the agenda of a program.
-/

namespace ExprLang

namespace Outcome

variable {α β : Type} {m n : Nat} {s : TokenStream} {gs hs ks : Agenda}

/-- The production works off the agenda `gs` down to `hs`, or fails where the agenda does. -/
def Leads (x : Outcome α n) (s : TokenStream) (gs hs : Agenda) : Prop :=
  match x.result with
  | .ok _ => ∃ ts, s = x.rest.prepend ts ∧ Run gs ts hs x.rest
  | .error e => ∃ ts g ks t, s = t.prepend ts ∧ Run gs ts (g :: ks) t ∧ g.Fails t e x.rest

/-- Nothing is taken. -/
theorem leads_ok (a : α) (h : s.size < n) (log : Log) :
    (Outcome.ok a s h log).Leads s gs gs := ⟨[], rfl, .done⟩

/-- The first goal fails. -/
theorem leads_fail {g : Goal} {e : ParseError} {r : TokenStream} (h : g.Fails s e r) (log : Log) :
    (Outcome.fail e r log : Outcome α n).Leads s (g :: gs) hs :=
  ⟨[], g, gs, s, rfl, .done, h⟩

@[simp] theorem leads_preceded {before : Log} {x : Outcome α n} :
    (x.preceded before).Leads s gs hs ↔ x.Leads s gs hs := by
  simp [Leads]

@[simp] theorem leads_widen {le : m ≤ n} {x : Outcome α m} :
    (x.widen le).Leads s gs hs ↔ x.Leads s gs hs := by
  simp [Leads]

theorem Leads.exists_run {x : Outcome α n} {a : α} {r : TokenStream} (h : x.Leads s gs hs)
    (hx : x.Yields a r) : ∃ ts, s = r.prepend ts ∧ Run gs ts hs r := by
  obtain ⟨hresult, rfl⟩ := hx
  simpa only [Leads, hresult] using h

theorem Leads.exists_fails {x : Outcome α n} {e : ParseError} (h : x.Leads s gs hs)
    (hx : x.result = .error e) :
    ∃ ts g ks t, s = t.prepend ts ∧ Run gs ts (g :: ks) t ∧ g.Fails t e x.rest := by
  simpa only [Leads, hx] using h

/-- Tokens are taken in front of what the production does. -/
theorem Leads.after {x : Outcome α n} {ts : List Token} {r : TokenStream}
    (hs' : s = r.prepend ts) (hrun : Run gs ts hs r) (h : x.Leads r hs ks) : x.Leads s gs ks := by
  subst hs'
  cases hresult : x.result with
  | ok a =>
      obtain ⟨us, hr, hrun'⟩ := h.exists_run ⟨hresult, rfl⟩
      rw [hr] at hrun
      simp only [Leads, hresult]
      refine ⟨ts ++ us, ?_, hrun.trans hrun'⟩
      rw [TokenStream.prepend_append, ← hr]
  | error e =>
      obtain ⟨us, g, ks, t, hr, hrun', hfails⟩ := h.exists_fails hresult
      rw [hr] at hrun
      simp only [Leads, hresult]
      refine ⟨ts ++ us, g, ks, t, ?_, hrun.trans hrun', hfails⟩
      rw [TokenStream.prepend_append, ← hr]

/-- A sequence leads where its second step leads from where its first step leads. -/
theorem Leads.andThen {x : Outcome α m} {f : α → (r : TokenStream) → r.size < m → Outcome β n}
    (hx : x.Leads s gs hs)
    (hf : ∀ (a : α) (r : TokenStream) (h : x.Yields a r), (f a r h.size_lt).Leads r hs ks) :
    (x.andThen f).Leads s gs ks := by
  cases x with
  | ok a r h log =>
      obtain ⟨ts, hs', hrun⟩ := hx
      rw [andThen_ok, leads_preceded]
      exact .after hs' hrun (hf a r ⟨rfl, rfl⟩)
  | fail e r log => exact hx

/-- What leads from the plan leads from the goal that makes it. -/
theorem Leads.plan {x : Outcome α n} {g : Goal} {plan : Agenda} {u : Token}
    (hu : s.head = .ok u) (hplan : g.plan u = some plan) (h : x.Leads s (plan ++ gs) hs) :
    x.Leads s (g :: gs) hs := by
  cases hresult : x.result with
  | ok a =>
      obtain ⟨ts, rfl, hrun⟩ := h.exists_run ⟨hresult, rfl⟩
      simp only [Leads, hresult]
      exact ⟨ts, rfl, .plan hu hplan hrun⟩
  | error e =>
      obtain ⟨ts, g, ks, t, rfl, hrun, hfails⟩ := h.exists_fails hresult
      simp only [Leads, hresult]
      exact ⟨ts, g, ks, t, rfl, .plan hu hplan hrun, hfails⟩

end Outcome

namespace Parser

open Outcome

variable {α : Type} {n : Nat} {gs hs : Agenda} {g : Goal}

/-! ## One token -/

theorem leads_look {s : TokenStream} {decide : Token → Outcome α n}
    (h : ∀ u, s.head = .ok u → (decide u).Leads s (g :: gs) hs) :
    (look s decide).Leads s (g :: gs) hs := by
  cases hhead : s.head with
  | ok u =>
      simp only [look, hhead]
      exact h u hhead
  | error e =>
      simp only [look, hhead]
      exact leads_fail (.lexical hhead) []

/-- A token that is required is a demand, if only tokens meet it that are not the end. -/
theorem leads_require {test : Token → Bool} {kind : Token.Kind} {value : String} {d : Demand}
    (hrefusal : ∀ t, d.refusal t = if test t then none else some (.expectedToken t kind value))
    (hleft : ∀ s, d.left s = s) (hend : ∀ l, test (.eof l) = false) (s : TokenStream) :
    (require test kind value s).Leads s (.demand d :: gs) gs := by
  have hrefused : ∀ t, test t = false → d.refusal t = some (.expectedToken t kind value) := by
    intro t ht
    rw [hrefusal, ht]
    rfl
  cases s with
  | token t rest =>
      cases ht : test t with
      | true =>
          have hmet : d.refusal t = none := by rw [hrefusal, ht, if_pos rfl]
          simp only [require, ht, if_true]
          exact ⟨[t], rfl, .take hmet .done⟩
      | false =>
          have hfails : Goal.Fails (.demand d) (.token t rest) _ _ :=
            .refused rfl (hrefused t ht)
          rw [hleft] at hfails
          simp only [require, ht, Bool.false_eq_true, if_false]
          exact leads_fail hfails _
  | fault e rest => exact leads_fail (.lexical rfl) _
  | stuck x l => exact leads_fail (.lexical rfl) _
  | ending l =>
      have hfails : Goal.Fails (.demand d) (.ending l) _ _ := .refused rfl (hrefused _ (hend l))
      rw [hleft] at hfails
      exact leads_fail hfails _

theorem leads_expect {kind : Token.Kind} (hkind : kind ≠ .eof) (value : String)
    (s : TokenStream) :
    (expect kind value s).Leads s (.demand (.exactly kind value) :: gs) gs := by
  refine leads_require (fun _ => rfl) (fun _ => rfl) (fun l => ?_) s
  rw [Bool.eq_false_iff]
  intro h
  exact hkind (Token.is_iff.mp h).1.symm

theorem leads_identifier (s : TokenStream) :
    (identifier s).Leads s (.demand .identifier :: gs) gs :=
  leads_require (fun _ => rfl) (fun _ => rfl) (fun _ => rfl) s

theorem leads_operand (s : TokenStream) : (operand s).Leads s (.demand .operand :: gs) gs := by
  cases s with
  | token t rest =>
      cases ht : t.operand with
      | ok e =>
          simp only [operand, ht]
          exact ⟨[t], rfl, .take (by simp only [Demand.refusal, ht]) .done⟩
      | error e =>
          simp only [operand, ht]
          exact leads_fail (.refused rfl (by simp only [Demand.refusal, ht])) _
  | fault e rest => exact leads_fail (.lexical rfl) _
  | stuck x l => exact leads_fail (.lexical rfl) _
  | ending l => exact leads_fail (.refused rfl rfl) _

theorem leads_close (b : Bracketing) (s : TokenStream) :
    (close b s).Leads s (Agenda.close b ++ gs) gs := by
  refine (leads_expect (by decide) b.closing s).andThen fun _ r _ => ?_
  exact leads_ok ..

/-! ## The productions -/

/-- A chain with the lowest floor stops in front of a token that is no operator. -/
theorem plan_links_of_chain {left e : Tree} {s r : TokenStream}
    (h : (chain 0 left s).Yields e r) :
    ∃ u, r.head = .ok u ∧ Goal.links.plan u = some [] := by
  obtain ⟨-, -, -, ⟨u, hu, hop⟩, -⟩ := Chain.exists_of_chain (parses_chain h)
  refine ⟨u, hu, ?_⟩
  simp only [Goal.plan, Chain.operator_of_stops ⟨u, hu, hop⟩ hu]

mutual

theorem leads_expression (s : TokenStream) (gs : Agenda) :
    (expression s).Leads s (Agenda.expression ++ gs) gs := by
  rw [expression]
  refine (leads_atom s _).andThen fun first r₁ hfirst => ?_
  have hr₁ := hfirst.size_lt
  refine (leads_chain 0 first r₁ _).andThen fun e r₂ he => ?_
  have hr₂ := he.size_lt
  rw [leads_widen]
  obtain ⟨u, hu, hplan⟩ := plan_links_of_chain he
  exact .plan hu hplan (leads_applied e r₂ gs)
termination_by 8 * s.size + 4

theorem leads_chain (floor : Nat) (left : Tree) (s : TokenStream) (gs : Agenda) :
    (chain floor left s).Leads s (.links :: gs) (.links :: gs) := by
  rw [chain]
  refine leads_look fun u hu => ?_
  cases hop : u.operator? with
  | none => exact leads_ok ..
  | some op =>
      simp only
      by_cases hfloor : op.precedence ≤ floor
      · rw [if_pos hfloor]
        exact leads_ok ..
      · rw [if_neg hfloor]
        have hplan : Goal.links.plan u =
            some (.demand (.exactly .operator op.symbol) :: (Agenda.atom ++ [.links])) := by
          simp only [Goal.plan, hop]
        refine .plan hu hplan ?_
        refine (leads_expect (by decide) op.symbol s).andThen fun sign r₁ hsign => ?_
        have hr₁ := hsign.size_lt
        refine (leads_atom r₁ _).andThen fun first r₂ hfirst => ?_
        have hr₂ := hfirst.size_lt
        refine (leads_chain op.precedence first r₂ _).andThen fun right r₃ hright => ?_
        have hr₃ := hright.size_lt
        rw [leads_widen]
        exact leads_chain floor _ r₃ gs
termination_by 8 * s.size

theorem leads_applied (callee : Tree) (s : TokenStream) (gs : Agenda) :
    (applied callee s).Leads s (.application :: gs) gs := by
  rw [applied]
  refine leads_look fun u hu => ?_
  by_cases hopen : u.isPunctuation Bracketing.arguments.opening = true
  · rw [if_pos hopen]
    refine .plan hu (if_pos hopen) ?_
    refine (leads_expect (by decide) _ s).andThen fun bracket r₁ hbracket => ?_
    have hr₁ := hbracket.size_lt
    rw [leads_preceded]
    refine (leads_items .arguments r₁ gs).andThen fun arguments r₂ _ => ?_
    exact leads_ok ..
  · rw [if_neg hopen]
    exact .plan hu (if_neg hopen) (leads_ok ..)
termination_by 8 * s.size

theorem leads_atom (s : TokenStream) (gs : Agenda) :
    (atom s).Leads s (Agenda.atom ++ gs) gs := by
  rw [atom]
  refine (leads_primary s _).andThen fun e r₁ he => ?_
  have hr₁ := he.size_lt
  rw [leads_widen]
  exact leads_applied e r₁ gs
termination_by 8 * s.size + 3

theorem leads_primary (s : TokenStream) (gs : Agenda) :
    (primary s).Leads s (.primary :: gs) gs := by
  rw [primary]
  refine leads_look fun u hu => ?_
  by_cases hopen : u.isPunctuation "(" = true
  · rw [if_pos hopen]
    refine .plan hu (if_pos hopen) ?_
    refine (leads_expect (by decide) "(" s).andThen fun bracket r₁ hbracket => ?_
    have hr₁ := hbracket.size_lt
    refine (leads_expression r₁ _).andThen fun e r₂ _ => ?_
    refine (leads_expect (by decide) ")" r₂).andThen fun _ r₃ _ => ?_
    exact leads_ok ..
  rw [if_neg hopen]
  by_cases hblock : u.isPunctuation Bracketing.block.opening = true
  · rw [if_pos hblock]
    exact .plan hu (by rw [Goal.plan, if_neg hopen, if_pos hblock]) (leads_block s gs)
  rw [if_neg hblock]
  by_cases hdef : u.isKeyword "def" = true
  · rw [if_pos hdef]
    exact .plan hu (by rw [Goal.plan, if_neg hopen, if_neg hblock, if_pos hdef])
      (leads_function s gs)
  rw [if_neg hdef]
  by_cases hword : (u.isKeyword "const" || u.isKeyword "mut") = true
  · rw [if_pos hword]
    exact .plan hu (by rw [Goal.plan, if_neg hopen, if_neg hblock, if_neg hdef, if_pos hword])
      (leads_definition s gs)
  · rw [if_neg hword]
    exact .plan hu (by rw [Goal.plan, if_neg hopen, if_neg hblock, if_neg hdef, if_neg hword])
      (leads_operand s)
termination_by 8 * s.size + 2

theorem leads_block (s : TokenStream) (gs : Agenda) :
    (block s).Leads s (Agenda.block ++ gs) gs := by
  rw [block]
  refine (leads_expect (by decide) _ s).andThen fun bracket r₁ hbracket => ?_
  have hr₁ := hbracket.size_lt
  refine (leads_items .block r₁ gs).andThen fun statements r₂ _ => ?_
  exact leads_ok ..
termination_by 8 * s.size + 1

theorem leads_function (s : TokenStream) (gs : Agenda) :
    (function s).Leads s (Agenda.function ++ gs) gs := by
  rw [function]
  refine (leads_expect (by decide) "def" s).andThen fun word r₁ hword => ?_
  have hr₁ := hword.size_lt
  refine (leads_identifier r₁).andThen fun name r₂ hname => ?_
  have hr₂ := hname.size_lt
  rw [leads_preceded]
  refine (leads_expect (by decide) _ r₂).andThen fun bracket r₃ hbracket => ?_
  have hr₃ := hbracket.size_lt
  refine (leads_items .parameters r₃ _).andThen fun parameters r₄ hparameters => ?_
  have hr₄ := hparameters.size_lt
  refine (leads_expect (by decide) "->" r₄).andThen fun arrow r₅ harrow => ?_
  have hr₅ := harrow.size_lt
  refine (leads_identifier r₅).andThen fun result r₆ hresult => ?_
  have hr₆ := hresult.size_lt
  refine (leads_block r₆ gs).andThen fun body r₇ _ => ?_
  exact leads_ok ..
termination_by 8 * s.size + 1

theorem leads_definition (s : TokenStream) (gs : Agenda) :
    (definition s).Leads s (.definition :: gs) gs := by
  rw [definition]
  refine leads_look fun u hu => .plan hu rfl ?_
  refine (leads_expect (by decide) _ s).andThen fun word r₁ hword => ?_
  have hr₁ := hword.size_lt
  rw [leads_widen]
  exact leads_variableBody _ _ r₁ gs
termination_by 8 * s.size + 1

theorem leads_parameter (s : TokenStream) (gs : Agenda) :
    (parameter s).Leads s (.parameter :: gs) gs := by
  rw [parameter]
  refine leads_look fun u hu => ?_
  by_cases hword : (u.isKeyword "const" || u.isKeyword "mut") = true
  · rw [if_pos hword]
    exact .plan hu (if_pos hword) (leads_definition s gs)
  · rw [if_neg hword]
    exact .plan hu (if_neg hword) (leads_variableBody _ _ s gs)
termination_by 8 * s.size + 2

theorem leads_variableBody (isConst : Bool) (l : Location) (s : TokenStream) (gs : Agenda) :
    (variableBody isConst l s).Leads s (Agenda.variableBody ++ gs) gs := by
  rw [variableBody]
  refine (leads_identifier s).andThen fun name r₁ hname => ?_
  have hr₁ := hname.size_lt
  refine (leads_expect (by decide) ":" r₁).andThen fun colon r₂ hcolon => ?_
  have hr₂ := hcolon.size_lt
  refine (leads_identifier r₂).andThen fun type r₃ htype => ?_
  have hr₃ := htype.size_lt
  refine leads_look fun u hu => ?_
  by_cases hsign : u.isOperator Operator.assign.symbol = true
  · rw [if_pos hsign]
    refine .plan hu (if_pos hsign) ?_
    refine (leads_expect (by decide) _ r₃).andThen fun sign r₄ hassign => ?_
    have hr₄ := hassign.size_lt
    refine (leads_expression r₄ gs).andThen fun value r₅ _ => ?_
    exact leads_ok ..
  · rw [if_neg hsign]
    exact .plan hu (if_neg hsign) (leads_ok ..)
termination_by 8 * s.size

theorem leads_items (b : Bracketing) (s : TokenStream) (gs : Agenda) :
    (items b s).Leads s (.items b :: gs) gs := by
  rw [items]
  refine leads_look fun u hu => ?_
  by_cases hclose : (u.isEof || u.isPunctuation b.closing) = true
  · rw [if_pos hclose]
    exact .plan hu (if_pos hclose) (leads_close b s)
  · rw [if_neg hclose]
    refine .plan hu (if_neg hclose) ?_
    rw [List.append_assoc]
    refine (leads_element b s _).andThen fun x r₁ hx => ?_
    have hr₁ := hx.size_lt
    refine (leads_moreItems b r₁ gs).andThen fun xs r₂ _ => ?_
    exact leads_ok ..
termination_by 8 * s.size + 6

theorem leads_moreItems (b : Bracketing) (s : TokenStream) (gs : Agenda) :
    (moreItems b s).Leads s (.moreItems b :: gs) gs := by
  rw [moreItems]
  refine leads_look fun u hu => ?_
  by_cases hclose : (u.isEof || u.isPunctuation b.closing) = true
  · rw [if_pos hclose]
    exact .plan hu (if_pos hclose) (leads_close b s)
  · rw [if_neg hclose]
    refine .plan hu (if_neg hclose) ?_
    refine (leads_expect (by decide) b.separator s).andThen fun sign r₁ hsign => ?_
    have hr₁ := hsign.size_lt
    refine leads_look fun v hv => ?_
    by_cases hlast : v.isPunctuation b.closing = true
    · rw [if_pos hlast, leads_widen]
      exact .plan hv (if_pos hlast) (leads_close b r₁)
    · rw [if_neg hlast]
      refine .plan hv (if_neg hlast) ?_
      rw [List.append_assoc]
      refine (leads_element b r₁ _).andThen fun x r₂ hx => ?_
      have hr₂ := hx.size_lt
      refine (leads_moreItems b r₂ gs).andThen fun xs r₃ _ => ?_
      exact leads_ok ..
termination_by 8 * s.size

theorem leads_element (b : Bracketing) (s : TokenStream) (gs : Agenda) :
    (element b s).Leads s (Agenda.element b ++ gs) gs := by
  cases b with
  | arguments =>
      rw [element]
      exact leads_expression s gs
  | parameters =>
      rw [element]
      exact leads_parameter s gs
  | block =>
      rw [element]
      exact leads_expression s gs
termination_by 8 * s.size + 5

end

theorem leads_statements (s : TokenStream) : (statements s).Leads s [.statements] [] := by
  rw [statements]
  refine leads_look fun u hu => ?_
  by_cases heof : u.isEof = true
  · rw [if_pos heof]
    exact .plan hu (if_pos heof) (leads_ok ..)
  · rw [if_neg heof]
    refine .plan hu (if_neg heof) ?_
    refine (leads_expression s _).andThen fun e r₁ he => ?_
    have hr₁ := he.size_lt
    refine (leads_expect (by decide) ";" r₁).andThen fun semicolon r₂ hsemicolon => ?_
    have hr₂ := hsemicolon.size_lt
    refine (leads_statements r₂).andThen fun es r₃ _ => ?_
    exact leads_ok ..
termination_by s.size

theorem leads_program (s : TokenStream) : (program s).Leads s [.statements] [] := by
  rw [program]
  refine leads_look fun u hu => ?_
  refine (leads_statements s).andThen fun es r _ => ?_
  exact leads_ok ..

end Parser

/-- A goal fails in one way. -/
theorem Goal.Fails.unique {g : Goal} {s r r' : TokenStream} {e e' : ParseError}
    (h : g.Fails s e r) (h' : g.Fails s e' r') : e = e' := by
  cases h with
  | lexical hhead =>
      cases h' with
      | lexical hhead' => rw [Except.error.inj (hhead.symm.trans hhead')]
      | refused hhead' => rw [hhead] at hhead'; cases hhead'
  | refused hhead hrefusal =>
      cases h' with
      | lexical hhead' => rw [hhead] at hhead'; cases hhead'
      | refused hhead' hrefusal' =>
          obtain rfl := Except.ok.inj (hhead.symm.trans hhead')
          rw [Option.some.inj (hrefusal.symm.trans hrefusal')]

/-- A stream is refused with the error `e` if and only if the agenda of a program comes to a goal
that fails with `e`. -/
theorem Parser.program_eq_error_iff {s : TokenStream} {e : ParseError} :
    (Parser.program s).result = .error e ↔
      ∃ ts g ks t r, s = TokenStream.prepend t ts ∧ Run [.statements] ts (g :: ks) t ∧
        g.Fails t e r := by
  have hleads := Parser.leads_program s
  constructor
  · intro h
    obtain ⟨ts, g, ks, t, hstream, hrun, hfails⟩ := hleads.exists_fails h
    exact ⟨ts, g, ks, t, _, hstream, hrun, hfails⟩
  · rintro ⟨ts, g, ks, t, r, hstream, hrun, hfails⟩
    have hends : Agenda.Ends (g :: ks) t := .inr ⟨g, ks, e, r, rfl, hfails⟩
    cases hresult : (Parser.program s).result with
    | ok _ =>
        obtain ⟨us, hstream', hrun'⟩ := hleads.exists_run ⟨hresult, rfl⟩
        cases (hrun.unique hrun' (hstream.symm.trans hstream') hends (.inl rfl)).1
    | error e' =>
        obtain ⟨us, g', ks', t', hstream', hrun', hfails'⟩ := hleads.exists_fails hresult
        obtain ⟨hgoals, -, rfl⟩ := hrun.unique hrun' (hstream.symm.trans hstream') hends
          (.inr ⟨g', ks', e', _, rfl, hfails'⟩)
        cases hgoals
        rw [hfails.unique hfails']

/-- A text is refused with the error `e` if and only if the agenda of a program comes to a goal
that fails with `e`. -/
theorem parse_eq_error_iff {text : String} {e : ParseError} :
    parse text = .error e ↔
      ∃ ts g ks s r, .ofText text = TokenStream.prepend s ts ∧ Run [.statements] ts (g :: ks) s ∧
        g.Fails s e r :=
  Parser.program_eq_error_iff

end ExprLang
