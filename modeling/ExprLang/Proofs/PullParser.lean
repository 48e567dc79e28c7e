import ExprLang.Parser.Program
import ExprLang.Proofs.Delivery.Telling
import ExprLang.PullParser.Program

set_option autoImplicit false

/-! # A parser that has a lexer

A pull parser does off a lexer what a parser does on the stream of that lexer: it comes to the same
result or the same error, it leaves a lexer of the stream that is left, and what it tells is the
account of the stream, except what had been told before. `Follows before after x y` says this of
two outcomes. It holds of one look and of one token, a sequence keeps it, and so it holds of every
production.

A token may be looked at many times before it is taken, or be refused and stay. It is told at the
first look only, while the account has it where it is taken or refused; `program_of_reads` says that
nothing is lost or told twice on the way.
-/

namespace ExprLang.PullParser

open Lexer

variable {α β : Type} {k m n m' n' : Nat} {before log : Log} {after mid : Lexer → Log} {l : Lexer}
  {s : TokenStream} {t : Token} {e : LexError}

/-! ## Outcomes that follow each other -/

/-- The outcome off a lexer, when `before` has been told already, is that on a stream. After a
success more may have been told than is in the account: what `after` says of the lexer. -/
inductive Follows (before : Log) (after : Lexer → Log) :
    Outcome α m → ExprLang.Outcome α n → Prop where
  | ok {a : α} {l : Lexer} {r : TokenStream} {hl : l.size < m} {hr : r.size < n}
      {log account : Log} : l.Reads r → before ++ log = account ++ after l →
      Follows before after (.ok a l hl log) (.ok a r hr account)
  | fail {e : ParseError} {l : Lexer} {r : TokenStream} {log account : Log} : l.Reads r →
      before ++ log = account → Follows before after (.fail e l log) (.fail e r account)

namespace Follows

/-- Nothing is taken. -/
theorem nothing {a : α} (h : l.Reads s) (hl : l.size < m) (hr : s.size < n) :
    Follows l.told told (.ok a l hl []) (.ok a s hr []) :=
  .ok h (List.append_nil _)

variable {x : Outcome α m} {y : ExprLang.Outcome α n}

theorem widen_left (h : Follows before after x y) (le : m ≤ k) :
    Follows before after (x.widen le) y := by
  cases h with
  | ok hreads hlog => exact .ok hreads hlog
  | fail hreads hlog => exact .fail hreads hlog

theorem widen_right (h : Follows before after x y) (le : n ≤ k) :
    Follows before after x (y.widen le) := by
  cases h with
  | ok hreads hlog => exact .ok hreads hlog
  | fail hreads hlog => exact .fail hreads hlog

/-- What the pull parser tells in front has been told. -/
theorem preceded_left (h : Follows (before ++ log) after x y) :
    Follows before after (x.preceded log) y := by
  cases h with
  | ok hreads hlog => exact .ok hreads (by rw [← hlog, List.append_assoc])
  | fail hreads hlog => exact .fail hreads (by rw [← hlog, List.append_assoc])

/-- What is in front in the account had been told. -/
theorem preceded_right (h : Follows before after x y) :
    Follows (log ++ before) after x (y.preceded log) := by
  cases h with
  | ok hreads hlog => exact .ok hreads (by rw [List.append_assoc, hlog, List.append_assoc])
  | fail hreads hlog => exact .fail hreads (by rw [List.append_assoc, hlog])

/-- Both tell the same in front, where nothing had been told. -/
theorem preceded (hbefore : before = []) (h : Follows before after x y) :
    Follows before after (x.preceded log) (y.preceded log) := by
  subst hbefore
  have hfront : Follows (log ++ []) after x (y.preceded log) := h.preceded_right
  rw [List.append_nil] at hfront
  exact .preceded_left hfront

/-- Behind a success a sequence goes on from what is left and has been told. -/
theorem ok_andThen {a : α} {r : TokenStream} {hl : l.size < m} {hr : r.size < n}
    {log account pending : Log} {f : α → (l : Lexer) → l.size < m → Outcome β m'}
    {g : α → (r : TokenStream) → r.size < n → ExprLang.Outcome β n'}
    (hlog : before ++ log = account ++ pending)
    (h : Follows pending after (f a l hl) (g a r hr)) :
    Follows before after ((Outcome.ok a l hl log).andThen f)
      ((ExprLang.Outcome.ok a r hr account).andThen g) := by
  refine .preceded_left ?_
  rw [hlog]
  exact .preceded_right h

theorem andThen {f : α → (l : Lexer) → l.size < m → Outcome β m'}
    {g : α → (r : TokenStream) → r.size < n → ExprLang.Outcome β n'} (h : Follows before mid x y)
    (hfg : ∀ (a : α) (l : Lexer) (r : TokenStream) (hl : l.size < m) (hr : r.size < n),
      l.Reads r → Follows (mid l) after (f a l hl) (g a r hr)) :
    Follows before after (x.andThen f) (y.andThen g) := by
  cases h with
  | ok hreads hlog => exact .ok_andThen hlog (hfg _ _ _ _ _ hreads)
  | fail hreads hlog => exact .fail hreads hlog

end Follows

theorem Outcome.preceded_nil (x : Outcome α n) : x.preceded [] = x := by
  cases x <;> rfl

/-! ## Looks -/

section Look

variable {decide : Token → (l' : Lexer) → l'.size ≤ l.size → Outcome α m}

theorem look_of_tellPeek {l' : Lexer} (h : l.tellPeek = ⟨(.ok t, l'), log⟩) :
    look l decide = (decide t l' (size_tellPeek_le h)).preceded log := by
  unfold look
  split <;> rename_i hpeek <;> cases h.symm.trans hpeek
  rfl

theorem look_of_tellPeek_error {l' : Lexer} (h : l.tellPeek = ⟨(.error e, l'), log⟩) :
    look l decide = .fail (.lexical e) l' log := by
  unfold look
  split <;> rename_i hpeek <;> cases h.symm.trans hpeek
  rfl

/-- A second look finds the same token and tells nothing. -/
theorem look_of_ahead (h : l.ahead = some t) : look l decide = decide t l (Nat.le_refl _) := by
  rw [look_of_tellPeek (tellPeek_of_ahead h), Outcome.preceded_nil]

/-- To ask for the end is to look at the next token. -/
theorem lookForEnd_eq {decide : Bool → (l' : Lexer) → l'.size ≤ l.size → Outcome α m} :
    lookForEnd l decide = look l fun t => decide t.isEof := by
  cases hpeek : l.tellPeek with
  | mk answer log =>
      obtain ⟨found, l'⟩ := answer
      cases found with
      | ok t =>
          have hend : l.tellIsAtEnd = ⟨(.ok t.isEof, l'), log⟩ := by
            rw [tellIsAtEnd, hpeek]
            rfl
          rw [look_of_tellPeek hpeek]
          unfold lookForEnd
          split <;> rename_i h <;> cases hend.symm.trans h
          rfl
      | error e =>
          have hend : l.tellIsAtEnd = ⟨(.error e, l'), log⟩ := by
            rw [tellIsAtEnd, hpeek]
            rfl
          rw [look_of_tellPeek_error hpeek]
          unfold lookForEnd
          split <;> rename_i h <;> cases hend.symm.trans h
          rfl

theorem follows_look {choose : Token → ExprLang.Outcome α n} (h : l.Reads s)
    (hdecide : ∀ (t : Token) (l' : Lexer) (le : l'.size ≤ l.size), l'.Reads s →
      l'.ahead = some t → s.head = .ok t → Follows l'.told after (decide t l' le) (choose t)) :
    Follows l.told after (look l decide) (Parser.look s choose) := by
  cases hhead : s.head with
  | ok t =>
      obtain ⟨l', log, hpeek, hreads, hahead, htold⟩ := h.tellPeek_eq hhead
      rw [look_of_tellPeek hpeek]
      simp only [Parser.look, hhead]
      refine .preceded_left ?_
      rw [htold]
      exact hdecide t l' _ hreads hahead hhead
  | error e =>
      obtain ⟨l', hpeek, hreads, htold⟩ := h.tellPeek_eq_error hhead
      rw [look_of_tellPeek_error hpeek]
      simp only [Parser.look, hhead]
      exact .fail hreads (by rw [htold]; rfl)

end Look

/-! ## One token -/

section Require

variable {test : Token → Bool} {htest : ∀ t, test t = true → t.isEof = false}
  {kind : Token.Kind} {value : String}

theorem require_of_passed {l' : Lexer} (h : l.tellPeek = ⟨(.ok t, l'), log⟩)
    (ht : test t = true) :
    require test htest kind value l = .ok t (ofCursor l'.cursor)
      (size_tellPeek_tellNext_lt h (tellNext_of_ahead (ahead_of_tellPeek h)) (htest t ht))
      log := by
  have hnext := tellNext_of_ahead (ahead_of_tellPeek h)
  unfold require
  split <;> rename_i hpeek <;> cases h.symm.trans hpeek
  rw [dif_pos ht]
  split <;> rename_i hnext' <;> cases hnext.symm.trans hnext'
  simp only [List.append_nil]

theorem require_of_refused {l' : Lexer} (h : l.tellPeek = ⟨(.ok t, l'), log⟩)
    (ht : test t = false) :
    require test htest kind value l =
      .fail (.syntactic (.expectedToken t kind value)) l' log := by
  unfold require
  split <;> rename_i hpeek <;> cases h.symm.trans hpeek
  rw [dif_neg (by simp [ht])]

theorem require_of_tellPeek_error {l' : Lexer} (h : l.tellPeek = ⟨(.error e, l'), log⟩) :
    require test htest kind value l = .fail (.lexical e) l' log := by
  unfold require
  split <;> rename_i hpeek <;> cases h.symm.trans hpeek
  rfl

/-- A token is required of a lexer as it is of the stream: both fail alike, or both take the same
token, and then nothing is told yet of what is behind it. -/
theorem require_cases (h : l.Reads s) :
    (∃ e l' r log account, require test htest kind value l = .fail e l' log ∧
      Parser.require test kind value s = .fail e r account ∧ l'.Reads r ∧
      l.told ++ log = account) ∨
    ∃ t l' r hl hr log, require test htest kind value l = .ok t l' hl log ∧
      Parser.require test kind value s = .ok t r hr [.read t] ∧ l'.Reads r ∧
      l.told ++ log = [.read t] ∧ s.head = .ok t ∧ l'.told = [] := by
  cases hhead : s.head with
  | error e =>
      obtain ⟨l', hpeek, hreads, htold⟩ := h.tellPeek_eq_error hhead
      refine .inl ⟨_, _, s.tail, _, [], require_of_tellPeek_error hpeek, ?_, hreads,
        by rw [htold]; rfl⟩
      cases s <;> cases hhead <;> rfl
  | ok t =>
      obtain ⟨l', log, hpeek, hreads, hahead, htold⟩ := h.tellPeek_eq hhead
      rw [told_of_ahead hahead] at htold
      cases ht : test t with
      | false =>
          refine .inl ⟨_, _, s, _, _, require_of_refused hpeek ht, ?_, hreads, htold⟩
          cases s with
          | token u r => cases hhead; simp only [Parser.require, ht, Bool.false_eq_true, if_false]
          | fault e r => cases hhead
          | stuck x m => cases hhead
          | ending m => cases hhead; rfl
      | true =>
          obtain ⟨c, log', hnext, htaken, -⟩ := hreads.tellNext_eq hhead
          cases (tellNext_of_ahead hahead).symm.trans hnext
          cases s with
          | token u r =>
              cases hhead
              refine .inr ⟨t, _, r, _, TokenStream.size_lt_token t r, _,
                require_of_passed hpeek ht, ?_, htaken, htold, rfl, rfl⟩
              simp only [Parser.require, ht, if_true]
          | fault e r => cases hhead
          | stuck x m => cases hhead
          | ending m => cases hhead; cases htest _ ht

theorem follows_require_andThen {f : Token → (l' : Lexer) → l'.size < l.size → Outcome β m}
    {g : Token → (r : TokenStream) → r.size < s.size → ExprLang.Outcome β n} (h : l.Reads s)
    (hfg : ∀ (t : Token) (l' : Lexer) (r : TokenStream) (hl : l'.size < l.size)
      (hr : r.size < s.size), s.head = .ok t → l'.Reads r → l'.told = [] →
        Follows l'.told after (f t l' hl) (g t r hr)) :
    Follows l.told after ((require test htest kind value l).andThen f)
      ((Parser.require test kind value s).andThen g) := by
  rcases require_cases h with ⟨e, l', r, log, account, hpull, hstream, hreads, hlog⟩ |
    ⟨t, l', r, hl, hr, log, hpull, hstream, hreads, hlog, hhead, htold⟩
  · rw [hpull, hstream]
    exact .fail hreads hlog
  · rw [hpull, hstream]
    refine .ok_andThen ?_ (hfg t l' r hl hr hhead hreads htold)
    rw [hlog, htold, List.append_nil]

/-- The same where the token was looked at, and both tell something else: the pull parser when it
has looked at the token, the account when the token is taken. -/
theorem follows_require_preceded {f : Token → (l' : Lexer) → l'.size < l.size → Outcome β m}
    {g : Token → (r : TokenStream) → r.size < s.size → ExprLang.Outcome β n} (h : l.Reads s)
    (hahead : l.ahead = some t) (ht : test t = true)
    (hfg : ∀ (l' : Lexer) (r : TokenStream) (hl : l'.size < l.size) (hr : r.size < s.size),
      l'.Reads r → Follows l'.told after (f t l' hl) (g t r hr)) :
    Follows l.told after (((require test htest kind value l).andThen f).preceded log)
      ((Parser.require test kind value s).andThen fun u r hr => (g u r hr).preceded log) := by
  have hpassed : require test htest kind value l = _ :=
    require_of_passed (tellPeek_of_ahead hahead) ht
  rcases require_cases h with ⟨_, _, _, _, _, hpull, -⟩ |
    ⟨u, l', r, hl, hr, log', hpull, hstream, hreads, hlog, -, htold⟩
  · cases hpassed.symm.trans hpull
  · rw [hpull, hstream]
    cases hpassed.symm.trans hpull
    have hrest : Follows (log ++ told _) after (f t _ hl) ((g t r hr).preceded log) :=
      .preceded_right (hfg _ r hl hr hreads)
    rw [htold, List.append_nil] at hrest
    refine .preceded_left (.ok_andThen ?_ hrest)
    rw [told_of_ahead hahead, List.append_nil]

/-- On a stream a look in front of a requirement changes nothing. -/
theorem look_require_andThen
    {g : Token → (r : TokenStream) → r.size < s.size → ExprLang.Outcome β n} :
    Parser.look s (fun _ => (Parser.require test kind value s).andThen g) =
      (Parser.require test kind value s).andThen g := by
  cases s <;> rfl

end Require

/-- What is no operand is told, as it is taken nevertheless. -/
theorem follows_operand (h : l.Reads s) :
    Follows l.told told (operand l) (Parser.operand s) := by
  cases hhead : s.head with
  | error e =>
      obtain ⟨c, hnext, hreads, htold⟩ := h.tellNext_eq_error hhead
      unfold operand
      split <;> rename_i hnext' <;> cases hnext.symm.trans hnext'
      cases s with
      | token u r => cases hhead
      | fault e r => cases hhead; exact .fail hreads (by rw [htold]; rfl)
      | stuck x m => cases hhead; exact .fail hreads (by rw [htold]; rfl)
      | ending m => cases hhead
  | ok t =>
      obtain ⟨c, log, hnext, hreads, htold⟩ := h.tellNext_eq hhead
      unfold operand
      split <;> rename_i hnext' <;> cases hnext.symm.trans hnext'
      cases s with
      | token u r =>
          cases hhead
          rw [Parser.operand]
          split <;> rename_i htree <;> simp only [htree]
          · exact .ok hreads (by rw [htold]; rfl)
          · exact .fail hreads htold
      | fault e r => cases hhead
      | stuck x m => cases hhead
      | ending m =>
          cases hhead
          split <;> rename_i htree <;> cases htree
          exact .fail hreads htold

/-- The end of a list. -/
theorem follows_close (b : Bracketing) (h : l.Reads s) :
    Follows l.told told (close b l) (Parser.close b s) :=
  follows_require_andThen h fun _ _ _ _ _ _ hreads _ => .nothing hreads _ _

/-! ## Productions -/

mutual

theorem follows_expression {l : Lexer} {s : TokenStream} (h : l.Reads s) :
    Follows l.told told (expression l) (Parser.expression s) := by
  rw [expression, Parser.expression]
  refine (follows_atom h).andThen fun first l₁ r₁ hl₁ hr₁ h₁ => ?_
  refine (follows_chain 0 first h₁).andThen fun e l₂ r₂ hl₂ hr₂ h₂ => ?_
  exact ((follows_applied e h₂).widen_left _).widen_right _
termination_by 8 * s.size + 4

theorem follows_chain (floor : Nat) (left : Tree) {l : Lexer} {s : TokenStream} (h : l.Reads s) :
    Follows l.told told (chain floor left l) (Parser.chain floor left s) := by
  rw [chain, lookForOperator, Parser.chain]
  refine follows_look h fun t l₁ hl₁ h₁ hahead hhead => ?_
  cases t.operator? with
  | none => exact .nothing h₁ _ _
  | some op =>
      simp only
      by_cases hop : op.precedence ≤ floor
      · rw [if_pos hop, if_pos hop]
        exact .nothing h₁ _ _
      · rw [if_neg hop, if_neg hop]
        refine follows_require_andThen h₁ fun sign l₂ r₂ hl₂ hr₂ _ h₂ _ => ?_
        refine (follows_atom h₂).andThen fun first l₃ r₃ hl₃ hr₃ h₃ => ?_
        refine (follows_chain _ first h₃).andThen fun right l₄ r₄ hl₄ hr₄ h₄ => ?_
        exact ((follows_chain floor _ h₄).widen_left _).widen_right _
termination_by 8 * s.size

theorem follows_applied (callee : Tree) {l : Lexer} {s : TokenStream} (h : l.Reads s) :
    Follows l.told told (applied callee l) (Parser.applied callee s) := by
  rw [applied, Parser.applied]
  refine follows_look h fun t l₁ hl₁ h₁ hahead hhead => ?_
  by_cases ht : t.isPunctuation Bracketing.arguments.opening = true
  · rw [if_pos ht, if_pos ht]
    refine follows_require_preceded h₁ hahead ht fun l₂ r₂ hl₂ hr₂ h₂ => ?_
    exact (follows_items .arguments h₂).andThen fun xs l₃ r₃ hl₃ hr₃ h₃ => .nothing h₃ _ _
  · rw [if_neg ht, if_neg ht]
    exact .nothing h₁ _ _
termination_by 8 * s.size

theorem follows_atom {l : Lexer} {s : TokenStream} (h : l.Reads s) :
    Follows l.told told (atom l) (Parser.atom s) := by
  rw [atom, Parser.atom]
  refine (follows_primary h).andThen fun e l₁ r₁ hl₁ hr₁ h₁ => ?_
  exact ((follows_applied e h₁).widen_left _).widen_right _
termination_by 8 * s.size + 3

theorem follows_primary {l : Lexer} {s : TokenStream} (h : l.Reads s) :
    Follows l.told told (primary l) (Parser.primary s) := by
  rw [primary, Parser.primary]
  refine follows_look h fun t l₁ hl₁ h₁ hahead hhead => ?_
  by_cases hparen : t.isPunctuation "(" = true
  · rw [if_pos hparen, if_pos hparen]
    refine follows_require_andThen h₁ fun _ l₂ r₂ hl₂ hr₂ _ h₂ _ => ?_
    refine (follows_expression h₂).andThen fun e l₃ r₃ hl₃ hr₃ h₃ => ?_
    exact follows_require_andThen h₃ fun _ _ _ _ _ _ h₄ _ => .nothing h₄ _ _
  rw [if_neg hparen, if_neg hparen, look_of_ahead hahead]
  by_cases hblock : t.isPunctuation Bracketing.block.opening = true
  · rw [if_pos hblock, if_pos hblock]
    exact (follows_block h₁).widen_left _
  rw [if_neg hblock, if_neg hblock, look_of_ahead hahead]
  by_cases hdef : t.isKeyword "def" = true
  · rw [if_pos hdef, if_pos hdef]
    exact (follows_function h₁).widen_left _
  rw [if_neg hdef, if_neg hdef, look_of_ahead hahead]
  by_cases hword : (t.isKeyword "const" || t.isKeyword "mut") = true
  · rw [if_pos hword, if_pos hword]
    exact (follows_definition h₁).widen_left _
  · rw [if_neg hword, if_neg hword]
    exact (follows_operand h₁).widen_left _
termination_by 8 * s.size + 2

theorem follows_block {l : Lexer} {s : TokenStream} (h : l.Reads s) :
    Follows l.told told (block l) (Parser.block s) := by
  rw [block, Parser.block, Parser.expect, ← look_require_andThen]
  refine follows_look h fun t l₁ hl₁ h₁ hahead hhead => ?_
  refine follows_require_andThen h₁ fun u l₂ r₂ hl₂ hr₂ hs h₂ _ => ?_
  -- the bracket that is taken is the one that was looked at for its location
  obtain rfl : t = u := Except.ok.inj (hhead.symm.trans hs)
  exact (follows_items .block h₂).andThen fun xs l₃ r₃ hl₃ hr₃ h₃ => .nothing h₃ _ _
termination_by 8 * s.size + 1

theorem follows_function {l : Lexer} {s : TokenStream} (h : l.Reads s) :
    Follows l.told told (function l) (Parser.function s) := by
  rw [function, Parser.function]
  refine follows_require_andThen h fun word l₁ r₁ hl₁ hr₁ _ h₁ _ => ?_
  refine follows_require_andThen h₁ fun name l₂ r₂ hl₂ hr₂ _ h₂ htold => ?_
  refine .preceded htold ?_
  refine follows_require_andThen h₂ fun _ l₃ r₃ hl₃ hr₃ _ h₃ _ => ?_
  refine (follows_items .parameters h₃).andThen fun parameters l₄ r₄ hl₄ hr₄ h₄ => ?_
  refine follows_require_andThen h₄ fun _ l₅ r₅ hl₅ hr₅ _ h₅ _ => ?_
  refine follows_require_andThen h₅ fun result l₆ r₆ hl₆ hr₆ _ h₆ _ => ?_
  exact (follows_block h₆).andThen fun body l₇ r₇ hl₇ hr₇ h₇ => .nothing h₇ _ _
termination_by 8 * s.size + 1

theorem follows_definition {l : Lexer} {s : TokenStream} (h : l.Reads s) :
    Follows l.told told (definition l) (Parser.definition s) := by
  rw [definition, Parser.definition]
  refine follows_look h fun t l₁ hl₁ h₁ hahead hhead => ?_
  refine follows_require_andThen h₁ fun word l₂ r₂ hl₂ hr₂ _ h₂ _ => ?_
  exact ((follows_variableBody _ _ h₂).widen_left _).widen_right _
termination_by 8 * s.size + 1

theorem follows_parameter {l : Lexer} {s : TokenStream} (h : l.Reads s) :
    Follows l.told told (parameter l) (Parser.parameter s) := by
  rw [parameter, Parser.parameter]
  refine follows_look h fun t l₁ hl₁ h₁ hahead hhead => ?_
  by_cases hword : (t.isKeyword "const" || t.isKeyword "mut") = true
  · rw [if_pos hword, if_pos hword]
    exact (follows_definition h₁).widen_left _
  · rw [if_neg hword, if_neg hword, look_of_ahead hahead]
    exact (follows_variableBody false _ h₁).widen_left _
termination_by 8 * s.size + 2

theorem follows_variableBody (isConst : Bool) (location : Location) {l : Lexer} {s : TokenStream}
    (h : l.Reads s) :
    Follows l.told told (variableBody isConst location l)
      (Parser.variableBody isConst location s) := by
  rw [variableBody, Parser.variableBody]
  refine follows_require_andThen h fun name l₁ r₁ hl₁ hr₁ _ h₁ _ => ?_
  refine follows_require_andThen h₁ fun _ l₂ r₂ hl₂ hr₂ _ h₂ _ => ?_
  refine follows_require_andThen h₂ fun type l₃ r₃ hl₃ hr₃ _ h₃ _ => ?_
  refine follows_look h₃ fun t l₄ hl₄ h₄ hahead hhead => ?_
  by_cases ht : t.isOperator Operator.assign.symbol = true
  · rw [if_pos ht, if_pos ht]
    refine follows_require_andThen h₄ fun _ l₅ r₅ hl₅ hr₅ _ h₅ _ => ?_
    exact (follows_expression h₅).andThen fun value l₆ r₆ hl₆ hr₆ h₆ => .nothing h₆ _ _
  · rw [if_neg ht, if_neg ht, look_of_ahead hahead]
    exact .nothing h₄ _ _
termination_by 8 * s.size

theorem follows_items (b : Bracketing) {l : Lexer} {s : TokenStream} (h : l.Reads s) :
    Follows l.told told (items b l) (Parser.items b s) := by
  rw [items, Parser.items, lookForEnd_eq]
  refine follows_look h fun t l₁ hl₁ h₁ hahead hhead => ?_
  cases t.isEof with
  | true =>
      rw [Bool.true_or, if_pos rfl, if_pos rfl]
      exact (follows_close b h₁).widen_left _
  | false =>
      rw [if_neg Bool.false_ne_true, look_of_ahead hahead, Bool.false_or]
      by_cases ht : t.isPunctuation b.closing = true
      · rw [if_pos ht, if_pos ht]
        exact (follows_close b h₁).widen_left _
      · rw [if_neg ht, if_neg ht]
        refine (follows_element b h₁).andThen fun x l₂ r₂ hl₂ hr₂ h₂ => ?_
        exact (follows_moreItems b h₂).andThen fun xs l₃ r₃ hl₃ hr₃ h₃ => .nothing h₃ _ _
termination_by 8 * s.size + 6

theorem follows_moreItems (b : Bracketing) {l : Lexer} {s : TokenStream} (h : l.Reads s) :
    Follows l.told told (moreItems b l) (Parser.moreItems b s) := by
  rw [moreItems, Parser.moreItems, lookForEnd_eq]
  refine follows_look h fun t l₁ hl₁ h₁ hahead hhead => ?_
  cases t.isEof with
  | true =>
      rw [Bool.true_or, if_pos rfl, if_pos rfl]
      exact (follows_close b h₁).widen_left _
  | false =>
      rw [if_neg Bool.false_ne_true, look_of_ahead hahead, Bool.false_or]
      by_cases ht : t.isPunctuation b.closing = true
      · rw [if_pos ht, if_pos ht]
        exact (follows_close b h₁).widen_left _
      · rw [if_neg ht, if_neg ht]
        refine follows_require_andThen h₁ fun _ l₂ r₂ hl₂ hr₂ _ h₂ _ => ?_
        refine follows_look h₂ fun u l₃ hl₃ h₃ hahead' hhead' => ?_
        by_cases hu : u.isPunctuation b.closing = true
        · rw [if_pos hu, if_pos hu]
          exact ((follows_close b h₃).widen_left _).widen_right _
        · rw [if_neg hu, if_neg hu]
          refine (follows_element b h₃).andThen fun x l₄ r₄ hl₄ hr₄ h₄ => ?_
          exact (follows_moreItems b h₄).andThen fun xs l₅ r₅ hl₅ hr₅ h₅ => .nothing h₅ _ _
termination_by 8 * s.size

theorem follows_element (b : Bracketing) {l : Lexer} {s : TokenStream} (h : l.Reads s) :
    Follows l.told told (element b l) (Parser.element b s) := by
  cases b with
  | arguments =>
      rw [element, Parser.element]
      exact follows_expression h
  | parameters =>
      rw [element, Parser.element]
      exact follows_parameter h
  | block =>
      rw [element, Parser.element]
      exact follows_expression h
termination_by 8 * s.size + 5

end

/-- The end is told when it is asked for. -/
theorem follows_statements {l : Lexer} {s : TokenStream} (h : l.Reads s) :
    Follows l.told (fun _ => []) (statements l) (Parser.statements s) := by
  rw [statements, Parser.statements, lookForEnd_eq]
  refine follows_look h fun t l₁ hl₁ h₁ hahead hhead => ?_
  by_cases ht : t.isEof = true
  · rw [if_pos ht, if_pos ht]
    exact .ok h₁ (by rw [told_of_ahead hahead])
  · rw [if_neg ht, if_neg ht]
    refine (follows_expression h₁).andThen fun e l₂ r₂ hl₂ hr₂ h₂ => ?_
    refine follows_require_andThen h₂ fun _ l₃ r₃ hl₃ hr₃ _ h₃ _ => ?_
    exact (follows_statements h₃).andThen fun es l₄ r₄ hl₄ hr₄ h₄ => .ok h₄ rfl
termination_by s.size

theorem follows_program (h : l.Reads s) :
    Follows l.told (fun _ => []) (program l) (Parser.program s) := by
  rw [program, Parser.program]
  refine follows_look h fun t l₁ hl₁ h₁ hahead hhead => ?_
  exact (follows_statements h₁).andThen fun es l₂ r₂ hl₂ hr₂ h₂ => .ok h₂ rfl

/-- A program is parsed off a lexer as on its stream, and everything in the account is told, unless
it has been told before. So a token that was refused is told no more when parsing goes on. -/
theorem program_of_reads (h : l.Reads s) :
    (program l).result = (Parser.program s).result ∧
      (program l).left.Reads (Parser.program s).rest ∧
      l.told ++ (program l).log = (Parser.program s).log := by
  have hfollows := follows_program h
  revert hfollows
  generalize program l = x
  generalize Parser.program s = y
  rintro (⟨hreads, hlog⟩ | ⟨hreads, hlog⟩)
  · rw [List.append_nil] at hlog
    exact ⟨rfl, hreads, hlog⟩
  · exact ⟨rfl, hreads, hlog⟩

/-- Parsing a text off its lexer is parsing it. -/
theorem result_program_ofText (text : String) : (program (.ofText text)).result = parse text :=
  (program_of_reads (reads_ofCursor (.ofText text))).1

end ExprLang.PullParser
