import ExprLang.Proofs.Narration
import ExprLang.Proofs.Parses.Equivalence

set_option autoImplicit false

/-! # The parser tells what it takes

`Outcome.Tells x s P` says that a production that ends in `x` on the stream `s` tells the tokens it
takes, each of them once, and that its log has the property `P` if it succeeds. If it fails, it
tells the tokens up to the failure. Every production tells the passage that it parses: the calls and
the functions in it are told once each, where they begin.

A parser that has a lexer tells the same (`Proofs/PullParser.lean`), and
`Proofs/Narration/Records.lean` compares what is recorded of a text when it is parsed and when all
its tokens are taken.
-/

namespace ExprLang

namespace Log

variable {log before : List Event} {s r : TokenStream}

/-- The log tells the tokens of the stream up to this one, which is the next one of `r`. -/
def TellsUpTo (log : List Event) (s : TokenStream) (u : Token) (r : TokenStream) : Prop :=
  ∃ ts, s = r.prepend ts ∧ r.head = .ok u ∧ tokens log = ts ++ [u]

/-- The log of a failure tells the tokens in front of what cannot be read, or the tokens up to the
one that is refused. -/
def TellsFailure (log : List Event) (s : TokenStream) : ParseError → Prop
  | .lexical e => ∃ r : TokenStream, s = r.prepend (tokens log) ∧ r.head = .error e
  | .syntactic e => ∃ r, TellsUpTo log s e.found r

theorem tellsFailure_refused {e : SyntaxError} (h : s.head = .ok e.found) :
    TellsFailure [.read e.found] s (.syntactic e) := ⟨s, [], rfl, h, rfl⟩

/-- Tokens are taken in front. -/
theorem TellsUpTo.after {u : Token} {t : TokenStream} (hs : s = r.prepend (tokens before))
    (h : TellsUpTo log r u t) : TellsUpTo (before ++ log) s u t := by
  subst hs
  obtain ⟨ts, rfl, hu, htokens⟩ := h
  refine ⟨tokens before ++ ts, ?_, hu, ?_⟩
  · rw [TokenStream.prepend_append]
  · rw [tokens_append, htokens, List.append_assoc]

theorem TellsFailure.after {e : ParseError} (hs : s = r.prepend (tokens before))
    (h : TellsFailure log r e) : TellsFailure (before ++ log) s e := by
  cases e with
  | lexical e =>
      obtain ⟨t, rfl, ht⟩ := h
      refine ⟨t, ?_, ht⟩
      rw [hs, tokens_append, TokenStream.prepend_append]
  | syntactic e =>
      obtain ⟨t, ht⟩ := h
      exact ⟨t, ht.after hs⟩

end Log

namespace Outcome

variable {α β : Type} {m n : Nat} {s r : TokenStream}

/-- No complete program is told, a success has the property `P`, and a failure is told. -/
def Logs (x : Outcome α n) (s : TokenStream) (P : α → TokenStream → List Event → Prop) : Prop :=
  Log.IsOpen x.log ∧
    match x.result with
    | .ok a => P a x.rest x.log
    | .error e => Log.TellsFailure x.log s e

/-- The tokens that are taken are told, by a log with the property `P`. -/
def Tells (x : Outcome α n) (s : TokenStream) (P : α → List Event → Prop) : Prop :=
  x.Logs s fun a r log => s = r.prepend (Log.tokens log) ∧ P a log

theorem Logs.mono {x : Outcome α n} {P Q : α → TokenStream → List Event → Prop}
    (h : x.Logs s P) (hPQ : ∀ a r log, P a r log → Q a r log) : x.Logs s Q := by
  cases x with
  | ok a r lt log => exact ⟨h.1, hPQ a r log h.2⟩
  | fail e r log => exact h

theorem Tells.mono {x : Outcome α n} {P Q : α → List Event → Prop} (h : x.Tells s P)
    (hPQ : ∀ a log, P a log → Q a log) : x.Tells s Q :=
  Logs.mono h fun a _ log ha => ⟨ha.1, hPQ a log ha.2⟩

/-- Something is told in front of what the production does. -/
theorem Logs.after {x : Outcome α n} {before : List Event}
    {P : α → TokenStream → List Event → Prop} (hs : s = r.prepend (Log.tokens before))
    (hopen : Log.IsOpen before) (h : x.Logs r fun a t log => P a t (before ++ log)) :
    (x.preceded before).Logs s P := by
  cases x with
  | ok a t lt log => exact ⟨hopen.append h.1, h.2⟩
  | fail e t log => exact ⟨hopen.append h.1, .after hs h.2⟩

theorem Logs.andThen {x : Outcome α m} {f : α → (r : TokenStream) → r.size < m → Outcome β n}
    {P : α → TokenStream → List Event → Prop} {Q : β → TokenStream → List Event → Prop}
    (hx : x.Logs s P) (hf : ∀ (a : α) (r : TokenStream) (h : r.size < m) (log : List Event),
      Log.IsOpen log → P a r log → ((f a r h).preceded log).Logs s Q) :
    (x.andThen f).Logs s Q := by
  cases x with
  | ok a r h log => exact hf a r h log hx.1 hx.2
  | fail e r log => exact hx

theorem Tells.logs_andThen {x : Outcome α m}
    {f : α → (r : TokenStream) → r.size < m → Outcome β n} {P : α → List Event → Prop}
    {Q : β → TokenStream → List Event → Prop} (hx : x.Tells s P)
    (hf : ∀ (a : α) (r : TokenStream) (h : r.size < m) (log : List Event),
      s = r.prepend (Log.tokens log) → P a log →
        (f a r h).Logs r fun b t log' => Q b t (log ++ log')) :
    (x.andThen f).Logs s Q :=
  Logs.andThen hx fun a r h log hopen ha => .after ha.1 hopen (hf a r h log ha.1 ha.2)

/-- Something is told besides the tokens in front of what the production does. -/
theorem Tells.preceded {x : Outcome α n} {before : List Event} {P : α → List Event → Prop}
    (htokens : Log.tokens before = []) (hopen : Log.IsOpen before)
    (h : x.Tells s fun a log => P a (before ++ log)) : (x.preceded before).Tells s P := by
  refine Logs.after (r := s) (by rw [htokens, TokenStream.prepend_nil]) hopen (Logs.mono h ?_)
  intro a t log ha
  rw [Log.tokens_append, htokens, List.nil_append]
  exact ha

/-- A sequence tells what its steps tell. -/
theorem Tells.andThen {x : Outcome α m} {f : α → (r : TokenStream) → r.size < m → Outcome β n}
    {P : α → List Event → Prop} {Q : β → List Event → Prop} (hx : x.Tells s P)
    (hf : ∀ (a : α) (r : TokenStream) (h : r.size < m) (log : List Event), P a log →
      (f a r h).Tells r fun b log' => Q b (log ++ log')) :
    (x.andThen f).Tells s Q := by
  refine hx.logs_andThen fun a r h log hs ha => Logs.mono (hf a r h log ha) ?_
  rintro b t log' ⟨rfl, hb⟩
  rw [Log.tokens_append, TokenStream.prepend_append]
  exact ⟨hs, hb⟩

/-- The first step takes one token. -/
theorem Tells.read_andThen {x : Outcome Token m}
    {f : Token → (r : TokenStream) → r.size < m → Outcome β n} {test : Token → Prop}
    {Q : β → List Event → Prop} (hx : x.Tells s fun u log => test u ∧ log = [.read u])
    (hf : ∀ (u : Token) (r : TokenStream) (h : r.size < m), test u →
      (f u r h).Tells r fun b log => Q b (.read u :: log)) :
    (x.andThen f).Tells s Q := by
  refine hx.andThen fun u r h log hu => ?_
  obtain ⟨hu, rfl⟩ := hu
  exact hf u r h hu

/-- Nothing is taken. -/
theorem tells_ok {a : α} {P : α → List Event → Prop} (h : s.size < n) (ha : P a []) :
    (Outcome.ok a s h []).Tells s P := ⟨Log.isOpen_nil, rfl, ha⟩

theorem Logs.widen {x : Outcome α m} {P : α → TokenStream → List Event → Prop} (h : x.Logs s P)
    (le : m ≤ n) : (x.widen le).Logs s P := by
  cases x with
  | ok a r lt log => exact h
  | fail e r log => exact h

theorem Tells.widen {x : Outcome α m} {P : α → List Event → Prop} (h : x.Tells s P)
    (le : m ≤ n) : (x.widen le).Tells s P := Logs.widen h le

end Outcome

namespace Parser

open Outcome

variable {α : Type} {n : Nat}

/-! ## One token -/

theorem logs_look {s : TokenStream} {decide : Token → Outcome α n}
    {P : α → TokenStream → List Event → Prop} (h : ∀ u, s.head = .ok u → (decide u).Logs s P) :
    (look s decide).Logs s P := by
  cases hhead : s.head with
  | ok u =>
      simp only [look, hhead]
      exact h u hhead
  | error e =>
      simp only [look, hhead]
      exact ⟨Log.isOpen_nil, s, rfl, hhead⟩

theorem tells_look {s : TokenStream} {decide : Token → Outcome α n} {P : α → List Event → Prop}
    (h : ∀ u, s.head = .ok u → (decide u).Tells s P) : (look s decide).Tells s P :=
  logs_look h

theorem isOpen_read (u : Token) : Log.IsOpen [.read u] := Log.isOpen_cons rfl Log.isOpen_nil

theorem tells_require (test : Token → Bool) (kind : Token.Kind) (value : String)
    (s : TokenStream) :
    (require test kind value s).Tells s fun u log => test u = true ∧ log = [.read u] := by
  cases s with
  | token u rest =>
      cases hu : test u with
      | true =>
          simp only [require, hu, if_true]
          exact ⟨isOpen_read u, rfl, hu, rfl⟩
      | false =>
          simp only [require, hu, Bool.false_eq_true, if_false]
          exact ⟨isOpen_read u, Log.tellsFailure_refused rfl⟩
  | fault e rest => exact ⟨Log.isOpen_nil, _, rfl, rfl⟩
  | stuck x l => exact ⟨Log.isOpen_nil, _, rfl, rfl⟩
  | ending l => exact ⟨isOpen_read _, Log.tellsFailure_refused rfl⟩

theorem tells_expect (kind : Token.Kind) (value : String) (s : TokenStream) :
    (expect kind value s).Tells s fun u log => u.is kind value = true ∧ log = [.read u] :=
  tells_require ..

theorem tells_identifier (s : TokenStream) :
    (identifier s).Tells s fun u log => u.kind = .identifier ∧ log = [.read u] :=
  (tells_require ..).mono fun _ _ h => ⟨eq_of_beq h.1, h.2⟩

theorem tells_operand (s : TokenStream) :
    (operand s).Tells s fun t log => Recounts (.tree t) log := by
  cases s with
  | token u rest =>
      cases hu : u.operand with
      | ok t =>
          simp only [operand, hu]
          exact ⟨isOpen_read u, rfl, .operand hu⟩
      | error e =>
          simp only [operand, hu]
          obtain rfl := Token.found_of_operand hu
          exact ⟨isOpen_read _, Log.tellsFailure_refused rfl⟩
  | fault e rest => exact ⟨Log.isOpen_nil, _, rfl, rfl⟩
  | stuck x l => exact ⟨Log.isOpen_nil, _, rfl, rfl⟩
  | ending l => exact ⟨isOpen_read _, Log.tellsFailure_refused rfl⟩

/-- The end of a list is the last token of it. -/
theorem tells_close (b : Bracketing) (s : TokenStream) :
    (close b s).Tells s fun xs log =>
      xs = [] ∧ ∃ u : Token, u.isPunctuation b.closing = true ∧ log = [.read u] := by
  refine (tells_expect .punctuation b.closing s).read_andThen fun u r hr hu => ?_
  exact tells_ok _ ⟨rfl, u, hu, rfl⟩

/-! ## The productions -/

mutual

theorem tells_expression (s : TokenStream) :
    (expression s).Tells s fun t log => Recounts (.tree t) log := by
  rw [expression]
  refine (tells_atom s).andThen fun first r₁ hr₁ log₁ hfirst => ?_
  refine (tells_chain 0 first r₁).andThen fun left r₂ hr₂ log₂ hleft => ?_
  refine ((tells_applied left r₂).mono fun t log₃ ht => ?_).widen _
  rw [← List.append_assoc]
  exact ht _ (hleft _ hfirst)
termination_by 8 * s.size + 4

/-- The chain is told behind its left operand. -/
theorem tells_chain (floor : Nat) (left : Tree) (s : TokenStream) :
    (chain floor left s).Tells s fun t log =>
      ∀ log₀, Recounts (.tree left) log₀ → Recounts (.tree t) (log₀ ++ log) := by
  rw [chain]
  have hstop : ∀ log₀, Recounts (.tree left) log₀ → Recounts (.tree left) (log₀ ++ []) := by
    intro log₀ h
    rwa [List.append_nil]
  refine tells_look fun u hu => ?_
  cases hop : u.operator? with
  | none => exact tells_ok _ hstop
  | some op =>
      simp only
      by_cases hfloor : op.precedence ≤ floor
      · rw [if_pos hfloor]
        exact tells_ok _ hstop
      · rw [if_neg hfloor]
        refine (tells_expect .operator op.symbol s).read_andThen fun sign r₁ hr₁ hsign => ?_
        refine (tells_atom r₁).andThen fun first r₂ hr₂ log₂ hfirst => ?_
        refine (tells_chain op.precedence first r₂).andThen fun right r₃ hr₃ log₃ hright => ?_
        refine ((tells_chain floor (.operation op left right sign.location) r₃).mono
          fun t log₄ ht log₀ hlog₀ => ?_).widen _
        have hoperation := hlog₀.operation (Token.operator?_eq_some.mpr hsign) (hright _ hfirst)
        simpa using ht _ hoperation
termination_by 8 * s.size

/-- The arguments are told behind the callee. -/
theorem tells_applied (callee : Tree) (s : TokenStream) :
    (applied callee s).Tells s fun t log =>
      ∀ log₀, Recounts (.tree callee) log₀ → Recounts (.tree t) (log₀ ++ log) := by
  rw [applied]
  refine tells_look fun u hu => ?_
  by_cases hopen : u.isPunctuation Bracketing.arguments.opening = true
  · rw [if_pos hopen]
    refine (tells_expect .punctuation _ s).read_andThen fun bracket r₁ hr₁ hbracket => ?_
    refine Tells.preceded rfl (Log.isOpen_cons rfl Log.isOpen_nil) ?_
    refine (tells_items .arguments r₁).andThen fun arguments r₂ hr₂ log₂ harguments => ?_
    refine tells_ok _ fun log₀ hlog₀ => ?_
    simpa using hlog₀.call hbracket harguments
  · rw [if_neg hopen]
    refine tells_ok _ fun log₀ hlog₀ => ?_
    rwa [List.append_nil]
termination_by 8 * s.size

theorem tells_atom (s : TokenStream) :
    (atom s).Tells s fun t log => Recounts (.tree t) log := by
  rw [atom]
  refine (tells_primary s).andThen fun callee r₁ hr₁ log₁ hcallee => ?_
  exact ((tells_applied callee r₁).mono fun t log₂ ht => ht _ hcallee).widen _
termination_by 8 * s.size + 3

theorem tells_primary (s : TokenStream) :
    (primary s).Tells s fun t log => Recounts (.tree t) log := by
  rw [primary]
  refine tells_look fun u hu => ?_
  by_cases hopen : u.isPunctuation "(" = true
  · rw [if_pos hopen]
    refine (tells_expect .punctuation "(" s).read_andThen fun bracket r₁ hr₁ hbracket => ?_
    refine (tells_expression r₁).andThen fun t r₂ hr₂ log₂ ht => ?_
    refine (tells_expect .punctuation ")" r₂).read_andThen fun close r₃ hr₃ hclose => ?_
    exact tells_ok _ (.parens hbracket ht hclose)
  rw [if_neg hopen]
  by_cases hblock : u.isPunctuation Bracketing.block.opening = true
  · rw [if_pos hblock]
    exact (tells_block s).mono fun _ _ h => .treeBlock h
  rw [if_neg hblock]
  by_cases hdef : u.isKeyword "def" = true
  · rw [if_pos hdef]
    exact tells_function s
  rw [if_neg hdef]
  by_cases hword : (u.isKeyword "const" || u.isKeyword "mut") = true
  · rw [if_pos hword]
    exact (tells_definition s).mono fun _ _ h => .treeDefinition h
  · rw [if_neg hword]
    exact tells_operand s
termination_by 8 * s.size + 2

theorem tells_block (s : TokenStream) :
    (block s).Tells s fun t log => Recounts (.block t) log := by
  rw [block]
  refine (tells_expect .punctuation _ s).read_andThen fun bracket r₁ hr₁ hbracket => ?_
  refine (tells_items .block r₁).andThen fun statements r₂ hr₂ log₂ hstatements => ?_
  refine tells_ok _ ?_
  rw [List.append_nil]
  exact .block hbracket hstatements
termination_by 8 * s.size + 1

theorem tells_function (s : TokenStream) :
    (function s).Tells s fun t log => Recounts (.tree t) log := by
  rw [function]
  refine (tells_expect .keyword "def" s).read_andThen fun word r₁ hr₁ hword => ?_
  refine (tells_identifier r₁).read_andThen fun name r₂ hr₂ hname => ?_
  refine Tells.preceded rfl (Log.isOpen_cons rfl Log.isOpen_nil) ?_
  refine (tells_expect .punctuation _ r₂).read_andThen fun bracket r₃ hr₃ hbracket => ?_
  refine (tells_items .parameters r₃).andThen fun parameters r₄ hr₄ log₄ hparameters => ?_
  refine (tells_expect .operator "->" r₄).read_andThen fun arrow r₅ hr₅ harrow => ?_
  refine (tells_identifier r₅).read_andThen fun result r₆ hr₆ hresult => ?_
  refine (tells_block r₆).andThen fun body r₇ hr₇ log₇ hbody => ?_
  refine tells_ok _ ?_
  rw [List.append_nil]
  exact .function hword hname hbracket hparameters harrow hresult hbody
termination_by 8 * s.size + 1

theorem tells_definition (s : TokenStream) :
    (definition s).Tells s fun t log => Recounts (.definition t) log := by
  rw [definition]
  refine tells_look fun u hu => ?_
  refine (tells_expect .keyword _ s).read_andThen fun word r₁ hr₁ hword => ?_
  have hwords : word.isKeyword "const" = true ∨ word.isKeyword "mut" = true := by
    split at hword
    · exact .inl hword
    · exact .inr hword
  exact ((tells_variableBody _ _ r₁).mono fun _ _ h => .definition hwords h).widen _
termination_by 8 * s.size + 1

theorem tells_parameter (s : TokenStream) :
    (parameter s).Tells s fun t log => Recounts (.parameter t) log := by
  rw [parameter]
  refine tells_look fun u hu => ?_
  by_cases hword : (u.isKeyword "const" || u.isKeyword "mut") = true
  · rw [if_pos hword]
    exact (tells_definition s).mono fun _ _ h => .parameterDefinition h
  · rw [if_neg hword]
    exact (tells_variableBody _ _ s).mono fun _ _ h => .parameterVariable h
termination_by 8 * s.size + 2

theorem tells_variableBody (isConst : Bool) (l : Location) (s : TokenStream) :
    (variableBody isConst l s).Tells s fun t log => Recounts (.variable t) log := by
  rw [variableBody]
  refine (tells_identifier s).read_andThen fun name r₁ hr₁ hname => ?_
  refine (tells_expect .operator ":" r₁).read_andThen fun colon r₂ hr₂ hcolon => ?_
  refine (tells_identifier r₂).read_andThen fun type r₃ hr₃ htype => ?_
  refine tells_look fun u hu => ?_
  by_cases hsign : u.isOperator Operator.assign.symbol = true
  · rw [if_pos hsign]
    refine (tells_expect .operator _ r₃).read_andThen fun sign r₄ hr₄ hassign => ?_
    refine (tells_expression r₄).andThen fun value r₅ hr₅ log₅ hvalue => ?_
    refine tells_ok _ ?_
    rw [List.append_nil]
    exact .variableValue hname hcolon htype hassign hvalue
  · rw [if_neg hsign]
    exact tells_ok _ (.variableAbsent hname hcolon htype)
termination_by 8 * s.size

theorem tells_items (b : Bracketing) (s : TokenStream) :
    (items b s).Tells s fun xs log => Recounts (.items b xs) log := by
  rw [items]
  refine tells_look fun u hu => ?_
  by_cases hclose : (u.isEof || u.isPunctuation b.closing) = true
  · rw [if_pos hclose]
    refine (tells_close b s).mono ?_
    rintro xs log ⟨rfl, v, hv, rfl⟩
    exact .noItems hv
  · rw [if_neg hclose]
    refine (tells_element b s).andThen fun x r₁ hr₁ log₁ hx => ?_
    refine (tells_moreItems b r₁).andThen fun xs r₂ hr₂ log₂ hxs => ?_
    refine tells_ok _ ?_
    rw [List.append_nil]
    exact .items hx hxs
termination_by 8 * s.size + 6

theorem tells_moreItems (b : Bracketing) (s : TokenStream) :
    (moreItems b s).Tells s fun xs log => Recounts (.moreItems b xs) log := by
  rw [moreItems]
  refine tells_look fun u hu => ?_
  by_cases hclose : (u.isEof || u.isPunctuation b.closing) = true
  · rw [if_pos hclose]
    refine (tells_close b s).mono ?_
    rintro xs log ⟨rfl, v, hv, rfl⟩
    exact .noMoreItems hv
  · rw [if_neg hclose]
    refine (tells_expect .punctuation b.separator s).read_andThen fun sign r₁ hr₁ hsign => ?_
    refine tells_look fun v hv => ?_
    by_cases hlast : v.isPunctuation b.closing = true
    · rw [if_pos hlast]
      refine ((tells_close b r₁).mono ?_).widen _
      rintro xs log ⟨rfl, w, hw, rfl⟩
      exact .trailing hsign hw
    · rw [if_neg hlast]
      refine (tells_element b r₁).andThen fun x r₂ hr₂ log₂ hx => ?_
      refine (tells_moreItems b r₂).andThen fun xs r₃ hr₃ log₃ hxs => ?_
      refine tells_ok _ ?_
      rw [List.append_nil]
      exact .moreItems hsign hx hxs
termination_by 8 * s.size

theorem tells_element (b : Bracketing) (s : TokenStream) :
    (element b s).Tells s fun x log => Recounts (.element b x) log := by
  cases b with
  | arguments =>
      rw [element]
      exact tells_expression s
  | parameters =>
      rw [element]
      exact tells_parameter s
  | block =>
      rw [element]
      exact tells_expression s
termination_by 8 * s.size + 5

end

/-- The end is told behind the statements, and stays ahead. -/
theorem logs_statements (s : TokenStream) :
    (statements s).Logs s fun xs r log =>
      ∃ u, u.isEof = true ∧ Log.TellsUpTo log s u r ∧ Recounts (.statements xs) log := by
  rw [statements]
  refine logs_look fun u hu => ?_
  by_cases heof : u.isEof = true
  · rw [if_pos heof]
    -- nothing is taken, but the end that is looked at is told
    exact ⟨isOpen_read u, u, heof, ⟨[], rfl, hu, rfl⟩, .noStatements heof⟩
  · rw [if_neg heof]
    refine (tells_expression s).logs_andThen fun x r₁ hr₁ log₁ hs₁ hx => ?_
    refine (tells_expect .punctuation ";" r₁).logs_andThen fun sign r₂ hr₂ log₂ hs₂ hsign => ?_
    obtain ⟨hsign, rfl⟩ := hsign
    refine (logs_statements r₂).andThen fun xs r₃ hr₃ log₃ hopen hxs => ?_
    obtain ⟨v, hv, hupTo, hrecounts⟩ := hxs
    rw [preceded, List.append_nil]
    exact ⟨hopen, v, hv, (hupTo.after hs₂).after hs₁, .statements hx hsign hrecounts⟩
termination_by s.size

/-- A failure tells no program. A success tells the statements and the end, and their number
last. -/
theorem log_program (s : TokenStream) :
    (∀ e, (program s).result = .error e →
      Log.IsOpen (program s).log ∧ Log.TellsFailure (program s).log s e) ∧
    ∀ t, (program s).result = .ok t → ∃ xs l log u r, t = .block xs l ∧
      (program s).log = log ++ [.program xs.length] ∧ Log.IsOpen log ∧ u.isEof = true ∧
        Log.TellsUpTo log s u r ∧ Recounts (.statements xs) log := by
  rw [program]
  cases hhead : s.head with
  | error e =>
      simp only [look, hhead]
      refine ⟨fun e' he => ?_, fun t ht => by cases ht⟩
      cases he
      exact ⟨Log.isOpen_nil, s, rfl, hhead⟩
  | ok v =>
      simp only [look, hhead]
      have hstatements := logs_statements s
      cases hx : statements s with
      | ok xs r lt log =>
          rw [hx] at hstatements
          obtain ⟨hopen, u, hu, hupTo, hrecounts⟩ := hstatements
          refine ⟨fun e he => (by cases he), fun t ht => ?_⟩
          cases ht
          exact ⟨xs, v.location, log, u, r, rfl, rfl, hopen, hu, hupTo, hrecounts⟩
      | fail e r log =>
          rw [hx] at hstatements
          refine ⟨fun e' he => ?_, fun t ht => by cases ht⟩
          cases he
          exact hstatements

end Parser

end ExprLang
