import ExprLang.Proofs.Chain
import ExprLang.Proofs.Pending
import ExprLang.Proofs.Segmentation

set_option autoImplicit false

/-! # The parser accepts what the grammar derives

The parser reads an expression off every word that is pending at its start, and leaves a word that
is pending behind the expression (`Parser.accepts_expression`). The induction is on the length of
the word. What is inside of brackets is derived by itself and is outside of all values, so it is
read exactly; at the other places the parser makes its greedy choices, and what it leaves is
pending by the inclusions between the stages.
-/

namespace ExprLang

/-! ## Tokens that end an expression -/

/-- The next token cannot go on with any expression. -/
def TokenStream.Blocks (s : TokenStream) : Prop :=
  ∃ u, s.head = .ok u ∧ u.isPunctuation "(" = false ∧ u.operator? = none

namespace Token

theorem operator?_of_terminal {t : Token} {op : Operator} (h : t.terminal = .operator op.symbol) :
    t.operator? = some op := by
  obtain ⟨hkind, hvalue⟩ := Prod.mk.inj h
  simp [operator?, hkind, hvalue]

theorem isOperator_assign_of_operator? {t : Token} (h : t.operator? = none) :
    t.isOperator Operator.assign.symbol = false := by
  rw [Bool.eq_false_iff]
  intro hassign
  rw [operator?_of_terminal (terminal_eq_of_is hassign)] at h
  cases h

theorem operator?_of_punctuation {t : Token} {value : String}
    (h : t.isPunctuation value = true) : t.operator? = none := by
  obtain ⟨hkind, -⟩ := is_iff.mp h
  simp [operator?, hkind]

theorem blocks_of_isPunctuation {t : Token} {value : String} (h : t.isPunctuation value = true)
    (hvalue : value ≠ "(") (s : TokenStream) : (TokenStream.token t s).Blocks :=
  ⟨t, rfl, is_eq_false h (.inr hvalue), operator?_of_punctuation h⟩

theorem kind_of_terminal_identifier {t : Token} {name : String}
    (h : t.terminal = .identifier name) : t.kind = .identifier := (Prod.mk.inj h).1

/-- A qualifier is one of two reserved words. -/
theorem isKeyword_of_isQualifier {t : Token} (h : t.terminal.IsQualifier) :
    t.isKeyword "const" = true ∨ t.isKeyword "mut" = true :=
  h.imp is_of_terminal_eq is_of_terminal_eq

end Token

/-- Neither the end of a list nor a separator goes on with an element. -/
theorem Bracketing.blocks_of_separator {b : Bracketing} {t : Token}
    (h : t.isPunctuation b.separator = true ∨ t.isPunctuation b.closing = true)
    (s : TokenStream) : (TokenStream.token t s).Blocks := by
  rcases h with h | h
  · exact Token.blocks_of_isPunctuation h (by cases b <;> decide) s
  · exact Token.blocks_of_isPunctuation h (by cases b <;> decide) s

namespace Parser

/-- An expression is read off every shorter word that is pending at its start. -/
def Accepts (k : Nat) : Prop :=
  ∀ (n : Nat) (ts : List Token) (behind : TokenStream), ts.length < k → behind.Blocks →
    Pending .start n (word ts) →
    ∃ t us, Parses (.expression t) (behind.prepend ts) (behind.prepend us) ∧
      Pending .done n (word us)

/-- What is ahead behind all operators of the outermost chain. -/
theorem stops_prepend {us : List Token} {behind : TokenStream} (hblocks : behind.Blocks)
    (hhead : ∀ u ∈ us.head?, u.operator? = none) : Chain.Stops 0 (behind.prepend us) := by
  cases us with
  | nil =>
      obtain ⟨u, hu, -, hoperator⟩ := hblocks
      exact ⟨u, hu, fun op hop => by rw [hoperator] at hop; cases hop⟩
  | cons u us =>
      refine ⟨u, rfl, fun op hop => ?_⟩
      rw [hhead u rfl] at hop
      cases hop

section

variable {k : Nat} (ih : Accepts k)

include ih

/-! ## Words that are derived by themselves -/

theorem accepts_derived {ts : List Token} {behind : TokenStream} (hlength : ts.length < k)
    (hblocks : behind.Blocks) (h : Derives .expression (word ts)) :
    ∃ t, Parses (.expression t) (behind.prepend ts) behind := by
  obtain ⟨t, us, hparses, hdone⟩ := ih 0 ts behind hlength hblocks h.pending
  -- outside of all values nothing may be left
  have hus : us = [] := List.map_eq_nil_iff.mp hdone.eq_nil_of_done
  subst hus
  exact ⟨t, hparses⟩

theorem accepts_variable {ts : List Token} {behind : TokenStream} (hlength : ts.length < k)
    (hblocks : behind.Blocks) (h : Derives .variable (word ts)) (isConst : Bool) (l : Location) :
    ∃ t, Parses (.variableBody isConst l t) (behind.prepend ts) behind := by
  generalize hw : word ts = w at h
  cases h with
  | variableAbsent =>
      obtain ⟨name, colon, type, ts, rfl, hname, hcolon, htype, hts⟩ := exists_of_word_typed hw
      obtain rfl := List.map_eq_nil_iff.mp hts
      obtain ⟨u, hu, -, hoperator⟩ := hblocks
      have hassign := Token.isOperator_assign_of_operator? hoperator
      exact ⟨_, .variableAbsent hname.1 hcolon htype.1 hu hassign⟩
  | variableValue hvalue =>
      obtain ⟨name, colon, type, ts, rfl, hname, hcolon, htype, hts⟩ := exists_of_word_typed hw
      obtain ⟨sign, ts, rfl, hsign, rfl⟩ := List.map_eq_cons_iff.mp hts
      simp only [List.length_cons] at hlength
      obtain ⟨value, hparses⟩ := accepts_derived ih (by omega) hblocks hvalue
      have hassign : sign.isOperator Operator.assign.symbol = true := Token.is_of_terminal_eq hsign
      exact ⟨_, .variableValue hname.1 hcolon htype.1 hassign hparses⟩

theorem accepts_parameter {ts : List Token} {behind : TokenStream} (hlength : ts.length < k)
    (hblocks : behind.Blocks) (h : Derives .parameter (word ts)) :
    ∃ t, Parses (.parameter t) (behind.prepend ts) behind := by
  generalize hw : word ts = w at h
  cases h with
  | parameterVariable hvariable =>
      subst hw
      cases ts with
      | nil => cases hvariable
      | cons u ts =>
          obtain ⟨t, ht⟩ := accepts_variable ih hlength hblocks hvariable false u.location
          exact ⟨t, .parameterVariable ht⟩
  | parameterDefinition hword hvariable =>
      obtain ⟨u, ts, rfl, hu, rfl⟩ := List.map_eq_cons_iff.mp hw
      have hqualifier : u.isKeyword "const" = true ∨ u.isKeyword "mut" = true :=
        Token.isKeyword_of_isQualifier (hu ▸ Terminal.isQualifier_keyword hword)
      simp only [List.length_cons] at hlength
      obtain ⟨t, ht⟩ :=
        accepts_variable ih (by omega) hblocks hvariable (u.isKeyword "const") u.location
      exact ⟨t, .parameterDefinition (.definition hqualifier ht)⟩

theorem accepts_element {b : Bracketing} {ts : List Token} {behind : TokenStream}
    (hlength : ts.length < k) (hblocks : behind.Blocks) (h : Derives (.element b) (word ts)) :
    ∃ t, Parses (.element b t) (behind.prepend ts) behind := by
  cases h with
  | argument hexpression =>
      obtain ⟨t, ht⟩ := accepts_derived ih hlength hblocks hexpression
      exact ⟨t, .argument ht⟩
  | formal hparameter =>
      obtain ⟨t, ht⟩ := accepts_parameter ih hlength hblocks hparameter
      exact ⟨t, .formal ht⟩
  | statement hexpression =>
      obtain ⟨t, ht⟩ := accepts_derived ih hlength hblocks hexpression
      exact ⟨t, .statement ht⟩

/-- A row of elements is read if what is behind it is read as the rest of a list. -/
theorem accepts_row {b : Bracketing} {ts : List Token} (hlength : ts.length < k)
    (h : Derives (.row b) (word ts)) {u : Token} {s r : TokenStream} {xs : List Tree}
    (hu : u.isPunctuation b.separator = true ∨ u.isPunctuation b.closing = true)
    (hmore : Parses (.moreItems b xs) (.token u s) r) :
    ∃ ys, Parses (.items b ys) ((TokenStream.token u s).prepend ts) r := by
  generalize hp : Phrase.row b = p at h
  generalize hw : word ts = w at h
  induction h generalizing ts u s xs with
  | single helement =>
      cases hp
      subst hw
      obtain ⟨x, hx⟩ := accepts_element ih hlength (Bracketing.blocks_of_separator hu s) helement
      exact ⟨x :: xs, .itemsCons hx hmore⟩
  | row _ helement ihrow =>
      cases hp
      obtain ⟨ts, sign, us, rfl, hts, hsign, rfl⟩ := exists_of_word_separated hw
      have hseparator : sign.isPunctuation b.separator = true := Token.is_of_terminal_eq hsign
      simp only [List.length_append, List.length_cons] at hlength
      obtain ⟨x, hx⟩ :=
        accepts_element ih (by omega) (Bracketing.blocks_of_separator hu s) helement
      rw [TokenStream.prepend_append, TokenStream.prepend_cons]
      exact ihrow (by omega) (.inl hseparator) (.moreCons hseparator hx hmore) rfl hts
  | _ => cases hp

/-- A list with its brackets is read from behind the opening one. -/
theorem accepts_list {b : Bracketing} {ts : List Token} (hlength : ts.length ≤ k)
    (h : Derives (.list b) (word ts)) :
    ∃ u us, ts = u :: us ∧ u.isPunctuation b.opening = true ∧
      ∀ behind : TokenStream, ∃ xs, Parses (.items b xs) (behind.prepend us) behind := by
  generalize hw : word ts = w at h
  cases h with
  | emptyList =>
      obtain ⟨u, ts, rfl, hu, hw⟩ := List.map_eq_cons_iff.mp hw
      obtain ⟨v, ts, rfl, hv, hw⟩ := List.map_eq_cons_iff.mp hw
      obtain rfl := List.map_eq_nil_iff.mp hw
      refine ⟨u, [v], rfl, Token.is_of_terminal_eq hu, fun behind => ⟨[], ?_⟩⟩
      exact .itemsClose (Token.is_of_terminal_eq hv)
  | list hrow =>
      obtain ⟨u, ts, v, rfl, hu, rfl, hv⟩ := exists_of_word_brackets hw
      have hclosing : v.isPunctuation b.closing = true := Token.is_of_terminal_eq hv
      simp only [List.length_cons, List.length_append] at hlength
      refine ⟨u, ts ++ [v], rfl, Token.is_of_terminal_eq hu, fun behind => ?_⟩
      rw [TokenStream.prepend_append]
      exact accepts_row ih (by omega) hrow (.inr hclosing) (.moreClose hclosing)
  | listTrailing hrow =>
      obtain ⟨u, ts, sign, v, rfl, hu, rfl, hsign, hv⟩ := exists_of_word_trailing hw
      have hseparator : sign.isPunctuation b.separator = true := Token.is_of_terminal_eq hsign
      simp only [List.length_cons, List.length_append] at hlength
      refine ⟨u, ts ++ [sign, v], rfl, Token.is_of_terminal_eq hu, fun behind => ?_⟩
      rw [TokenStream.prepend_append]
      exact accepts_row ih (by omega) hrow (.inl hseparator)
        (.moreTrailing hseparator (Token.is_of_terminal_eq hv))

/-- A primary that does not define a variable is read exactly. -/
theorem accepts_closed {ts : List Token} (hlength : ts.length ≤ k)
    (h : Derives .primary (word ts)) (hhead : ∀ x ∈ (word ts).head?, ¬ x.IsQualifier)
    (behind : TokenStream) : ∃ t, Parses (.primary t) (behind.prepend ts) behind := by
  generalize hw : word ts = w at h hhead
  cases h with
  | parens hexpression =>
      obtain ⟨u, ts, v, rfl, hu, rfl, hv⟩ := exists_of_word_brackets hw
      have hclose : v.isPunctuation ")" = true := Token.is_of_terminal_eq hv
      simp only [List.length_cons, List.length_append] at hlength
      obtain ⟨t, ht⟩ := accepts_derived ih (by omega)
        (Token.blocks_of_isPunctuation hclose (by decide) behind) hexpression
      refine ⟨t, ?_⟩
      rw [TokenStream.prepend_cons, TokenStream.prepend_append]
      exact .parens (Token.is_of_terminal_eq hu) ht hclose
  | block hlist =>
      subst hw
      obtain ⟨u, us, rfl, hu, hitems⟩ := accepts_list ih hlength hlist
      obtain ⟨xs, hxs⟩ := hitems behind
      exact ⟨_, .blockPrimary (.block hu hxs)⟩
  | function hparameters hblock =>
      obtain ⟨keyword, ts, rfl, hkeyword, hw⟩ := List.map_eq_cons_iff.mp hw
      obtain ⟨name, ts, rfl, hname, hw⟩ := List.map_eq_cons_iff.mp hw
      obtain ⟨ts, arrow, us, rfl, rfl, harrow, hus⟩ := exists_of_word_separated hw
      obtain ⟨result, us, rfl, hresult, rfl⟩ := List.map_eq_cons_iff.mp hus
      simp only [List.length_cons, List.length_append] at hlength
      obtain ⟨u, ts, rfl, hu, hparameters⟩ := accepts_list ih (by omega) hparameters
      obtain ⟨v, us, rfl, hv, hbody⟩ := accepts_list ih (by omega) hblock
      obtain ⟨statements, hstatements⟩ := hbody behind
      obtain ⟨parameters, hparsed⟩ :=
        hparameters (behind.prepend (arrow :: result :: v :: us))
      rw [TokenStream.prepend_cons, TokenStream.prepend_cons, TokenStream.prepend_append]
      exact ⟨_, .functionPrimary (.function (Token.is_of_terminal_eq hkeyword)
        (Token.kind_of_terminal_identifier hname) hu hparsed (Token.is_of_terminal_eq harrow)
        (Token.kind_of_terminal_identifier hresult) (.block hv hstatements))⟩
  | definition hword =>
      -- it would begin with its qualifier
      exact absurd (Terminal.isQualifier_keyword hword) (hhead _ rfl)
  | operand hx =>
      obtain ⟨u, ts, rfl, rfl, hts⟩ := List.map_eq_cons_iff.mp hw
      obtain rfl := List.map_eq_nil_iff.mp hts
      obtain ⟨t, ht⟩ := Token.exists_operand hx
      exact ⟨t, .operand ht⟩

/-! ## Words with open values -/

/-- The value of a variable is read as far as it goes. -/
theorem accepts_value {n : Nat} {ts : List Token} {behind : TokenStream}
    {x name colon type sign : Token} (hlength : ts.length < k) (hblocks : behind.Blocks)
    (hx : x.terminal.IsQualifier) (hname : name.kind = .identifier)
    (hcolon : colon.isOperator ":" = true) (htype : type.kind = .identifier)
    (hsign : sign.isOperator Operator.assign.symbol = true)
    (h : Pending .start (n + 1) (word ts)) :
    ∃ t us, Parses (.primary t) (behind.prepend (x :: name :: colon :: type :: sign :: ts))
      (behind.prepend us) ∧ Pending .called n (word us) := by
  obtain ⟨value, us, hvalue, hdone⟩ := ih (n + 1) ts behind hlength hblocks h
  have hbody : ∀ isConst l, Parses
      (.variableBody isConst l (.definition name.value type.value isConst value l))
      (behind.prepend (name :: colon :: type :: sign :: ts)) (behind.prepend us) :=
    fun _ _ => .variableValue hname hcolon htype hsign hvalue
  -- what is left behind the value is behind the variable, which is a primary
  cases hdone with
  | up hcalled =>
      exact ⟨_, us, .definitionPrimary
        (.definition (Token.isKeyword_of_isQualifier hx) (hbody _ x.location)), hcalled⟩

theorem accepts_primary {n : Nat} {ts : List Token} {behind : TokenStream}
    (hlength : ts.length ≤ k) (hblocks : behind.Blocks) (h : Pending .start n (word ts)) :
    ∃ t us, Parses (.primary t) (behind.prepend ts) (behind.prepend us) ∧
      Pending .called n (word us) := by
  generalize hw : word ts = w at h
  cases h with
  | primary hprimary hhead hcalled =>
      obtain ⟨ts, us, rfl, rfl, rfl⟩ := List.map_eq_append_iff.mp hw
      simp only [List.length_append] at hlength
      obtain ⟨t, ht⟩ := accepts_closed ih (by omega) hprimary hhead (behind.prepend us)
      refine ⟨t, us, ?_, hcalled⟩
      rwa [TokenStream.prepend_append]
  | absent hx hcalled =>
      obtain ⟨x, ts, rfl, rfl, htail⟩ := List.map_eq_cons_iff.mp hw
      obtain ⟨name, colon, type, ts, rfl, ⟨hname, -⟩, hcolon, ⟨htype, -⟩, rfl⟩ :=
        exists_of_word_typed htail
      simp only [List.length_cons] at hlength
      have habsent : ∀ u, (behind.prepend ts).head = .ok u →
          u.isOperator Operator.assign.symbol = false →
          ∃ t us, Parses (.primary t) (behind.prepend (x :: name :: colon :: type :: ts))
            (behind.prepend us) ∧ Pending .called n (word us) := by
        intro u hu hassign
        exact ⟨_, ts, .definitionPrimary (.definition (Token.isKeyword_of_isQualifier hx)
          (.variableAbsent hname hcolon htype hu hassign)), hcalled⟩
      cases ts with
      | nil =>
          obtain ⟨u, hu, -, hoperator⟩ := hblocks
          exact habsent u hu (Token.isOperator_assign_of_operator? hoperator)
      | cons sign us =>
          by_cases hassign : sign.isOperator Operator.assign.symbol = true
          · -- an equality sign here was an operator for the grammar, but it begins a value
            have hcalled : Pending .called n
                (.operator Operator.assign.symbol :: word us) := by
              rwa [word, List.map_cons, Token.terminal_eq_of_is hassign] at hcalled
            have hstart := (hcalled.start_of_operator (by simp)).succ
            simp only [List.length_cons] at hlength
            exact accepts_value ih (by omega) hblocks hx hname hcolon htype hassign hstart
          · exact habsent sign rfl (Bool.eq_false_iff.mpr hassign)
  | value hx hstart =>
      obtain ⟨x, ts, rfl, rfl, htail⟩ := List.map_eq_cons_iff.mp hw
      obtain ⟨name, colon, type, ts, rfl, ⟨hname, -⟩, hcolon, ⟨htype, -⟩, hts⟩ :=
        exists_of_word_typed htail
      obtain ⟨sign, ts, rfl, hsign, rfl⟩ := List.map_eq_cons_iff.mp hts
      simp only [List.length_cons] at hlength
      exact accepts_value ih (by omega) hblocks hx hname hcolon htype
        (Token.is_of_terminal_eq hsign) hstart

/-- Arguments are taken wherever a bracket is ahead. -/
theorem accepts_applied {stage : Stage} {n : Nat} {ts : List Token} {behind : TokenStream}
    (hlength : ts.length ≤ k) (hblocks : behind.Blocks) (hstage : stage ≠ .start)
    (h : Pending stage n (word ts))
    (hnone : (word ts).head? ≠ some Bracketing.arguments.openTerminal →
      Pending (Pending.behindArguments stage) n (word ts)) (callee : Tree) :
    ∃ t us, Parses (.applied callee t) (behind.prepend ts) (behind.prepend us) ∧
      us.length ≤ ts.length ∧ Pending (Pending.behindArguments stage) n (word us) := by
  cases ts with
  | nil =>
      obtain ⟨u, hu, hopen, -⟩ := hblocks
      exact ⟨callee, [], .noCall hu hopen, Nat.le_refl _, hnone (by simp)⟩
  | cons u ts =>
      by_cases hopen : u.isPunctuation Bracketing.arguments.opening = true
      · have hbracket : u.terminal = Bracketing.arguments.openTerminal :=
          Token.terminal_eq_of_is hopen
        obtain ⟨v, w, hsplit, hv, hw⟩ := h.exists_arguments hstage hbracket
        rw [← List.map_cons] at hsplit
        obtain ⟨vs, us, hvs, rfl, rfl⟩ := List.map_eq_append_iff.mp hsplit
        have htotal := congrArg List.length hvs
        simp only [List.length_cons, List.length_append] at htotal hlength
        obtain ⟨u', vs, rfl, hu', hitems⟩ := accepts_list ih (by omega) hv
        obtain ⟨xs, hxs⟩ := hitems (behind.prepend us)
        have hshort : us.length ≤ (u :: ts).length := by
          simp only [List.length_cons]
          omega
        rw [hvs, TokenStream.prepend_append]
        exact ⟨_, us, .call hu' hxs, hvs ▸ hshort, hw⟩
      · rw [Bool.not_eq_true] at hopen
        refine ⟨callee, u :: ts, .noCall rfl hopen, Nat.le_refl _, hnone ?_⟩
        intro hhead
        have hbracket : u.isPunctuation Bracketing.arguments.opening = true :=
          Token.is_of_terminal_eq (Option.some.inj hhead)
        rw [hbracket] at hopen
        cases hopen

theorem accepts_atom {n : Nat} {ts : List Token} {behind : TokenStream} (hlength : ts.length ≤ k)
    (hblocks : behind.Blocks) (h : Pending .start n (word ts)) :
    ∃ t us, Parses (.atom t) (behind.prepend ts) (behind.prepend us) ∧
      us.length < ts.length ∧ Pending .linked n (word us) := by
  obtain ⟨p, us, hp, hcalled⟩ := accepts_primary ih hlength hblocks h
  -- every primary takes a token, so the words behind it are shorter
  have hsize : (behind.prepend us).size < (behind.prepend ts).size :=
    hp.yields.size_lt
  rw [TokenStream.size_prepend, TokenStream.size_prepend] at hsize
  obtain ⟨t, vs, ht, hle, hlinked⟩ :=
    accepts_applied ih (by omega) hblocks (by simp) hcalled hcalled.linked_of_called p
  exact ⟨t, vs, .atom hp ht, by omega, hlinked⟩

/-- Operators with their operands are taken as long as an operator is ahead. -/
theorem accepts_links {n : Nat} {ts : List Token} {behind : TokenStream} (hlength : ts.length ≤ k)
    (hblocks : behind.Blocks) (h : Pending .linked n (word ts)) :
    ∃ links us, Chain.Links links (behind.prepend ts) (behind.prepend us) ∧
      us.length ≤ ts.length ∧ Pending .linked n (word us) ∧
      ∀ u ∈ us.head?, u.operator? = none := by
  induction hm : ts.length using Nat.strongRecOn generalizing ts with
  | ind m ihlinks =>
      cases ts with
      | nil => exact ⟨[], [], .nil, by simp, h, by simp⟩
      | cons u ts =>
          cases hop : u.operator? with
          | none =>
              refine ⟨[], u :: ts, .nil, by omega, h, fun v hv => ?_⟩
              obtain rfl : u = v := Option.some.inj hv
              exact hop
          | some op =>
              rw [word, List.map_cons, Token.terminal_eq_of_operator hop] at h
              simp only [List.length_cons] at hlength hm
              obtain ⟨t, us, ht, hshort, hlinked⟩ := accepts_atom ih (by omega) hblocks
                (h.start_of_operator (by simp))
              obtain ⟨links, vs, hlinks, hle, hlast, hhead⟩ :=
                ihlinks us.length (by omega) (by omega) hlinked rfl
              obtain ⟨o, hsplit, -, hatom⟩ := Chain.exists_operand ht
              refine ⟨⟨u, op, o⟩ :: links, vs, ?_, by omega, hlast, hhead⟩
              rw [TokenStream.prepend_cons, hsplit]
              rw [hsplit] at hatom
              exact .cons hop hatom hlinks

theorem accepts_step : Accepts (k + 1) := by
  intro n ts behind hlength hblocks h
  obtain ⟨first, us, hfirst, hshort, hlinked⟩ := accepts_atom ih (by omega) hblocks h
  obtain ⟨links, vs, hlinks, hle, hlinked', hhead⟩ :=
    accepts_links ih (by omega) hblocks hlinked
  obtain ⟨e, he⟩ := Chain.parses_of_links hlinks (fun l _ => l.op.precedence_pos)
    (stops_prepend hblocks hhead) first
  -- the chain has taken all operators, so only arguments can follow
  have hoperator : ∀ op : Operator, (word vs).head? ≠ some (.operator op.symbol) := by
    intro op hop
    rw [List.head?_map] at hop
    obtain ⟨v, hv, hterminal⟩ := Option.map_eq_some_iff.mp hop
    have hnone := hhead v hv
    rw [Token.operator?_of_terminal hterminal] at hnone
    cases hnone
  obtain ⟨t, rs, ht, -, hdone⟩ := accepts_applied ih (by omega) hblocks (by simp) hlinked'
    (fun hopen => hlinked'.done_of_linked hopen hoperator) e
  exact ⟨t, rs, .expression hfirst he ht, hdone⟩

end

/-- The parser reads an expression off every word that is pending at its start, and what it leaves
is pending behind the expression. -/
theorem accepts_expression (k : Nat) : Accepts k := by
  induction k with
  | zero => exact fun n ts behind hlength => absurd hlength (Nat.not_lt_zero _)
  | succ k ih => exact accepts_step ih

/-! ## Programs -/

/-- Statements are read up to the end of the text. -/
theorem parses_of_derives_statements {ts : List Token} (h : Derives .statements (word ts))
    (l : Location) :
    ∃ xs, Parses (.statements xs) ((TokenStream.ending l).prepend ts) (.ending l) := by
  generalize hp : Phrase.statements = p at h
  generalize hw : word ts = w at h
  induction h generalizing ts with
  | noStatements =>
      obtain rfl := List.map_eq_nil_iff.mp hw
      exact ⟨[], .noStatements rfl rfl⟩
  | statements hexpression _ _ ih =>
      obtain ⟨ts, sign, us, rfl, rfl, hsign, rfl⟩ := exists_of_word_separated hw
      have hsemicolon : sign.isPunctuation ";" = true := Token.is_of_terminal_eq hsign
      obtain ⟨xs, hxs⟩ := ih hp rfl
      obtain ⟨x, hx⟩ := accepts_derived (accepts_expression (ts.length + 1)) (Nat.lt_succ_self _)
        (Token.blocks_of_isPunctuation hsemicolon (by decide)
          ((TokenStream.ending l).prepend us)) hexpression
      refine ⟨x :: xs, ?_⟩
      rw [TokenStream.prepend_append, TokenStream.prepend_cons]
      exact .statements hx hsemicolon hxs
  | _ => cases hp

/-- Statements go on up to an end token. -/
theorem Parses.head_isEof {xs : List Tree} {s r : TokenStream} (h : Parses (.statements xs) s r) :
    ∃ u, r.head = .ok u ∧ u.isEof = true := by
  generalize hc : Construct.statements xs = c at h
  induction h generalizing xs with
  | noStatements hhead heof => exact ⟨_, hhead, heof⟩
  | statements _ _ _ _ ih =>
      cases hc
      exact ih rfl
  | _ => cases hc

/-- A program is read off a stream that ends exactly if the grammar derives its tokens. -/
theorem exists_program_iff {ts : List Token} {l : Location} (hts : ∀ t ∈ ts, t.kind ≠ .eof) :
    (∃ t r, Parses (.program t) ((TokenStream.ending l).prepend ts) r) ↔
      Derives .program (word (ts ++ [.eof l])) := by
  have hword : word (ts ++ [.eof l]) = word ts ++ [(.eof, "")] := List.map_append
  rw [hword]
  constructor
  · rintro ⟨t, r, h⟩
    cases h with
    | program hhead hstatements =>
        obtain ⟨us, hus, hderives⟩ := hstatements.derives
        obtain ⟨u, hu, heof⟩ := hstatements.head_isEof
        obtain ⟨vs, rfl, rfl⟩ := TokenStream.exists_of_prepend_eq_ending hus
        cases vs with
        | nil =>
            rw [List.append_nil]
            exact .program hderives
        | cons v vs =>
            -- the end is not told by a token before it
            obtain rfl : v = u := Except.ok.inj hu
            exact absurd (beq_iff_eq.mp heof) (hts v (by simp))
  · intro h
    generalize hw : word ts ++ [(.eof, "")] = w at h
    cases h with
    | program hstatements =>
        obtain ⟨rfl, -⟩ := List.append_inj' hw rfl
        obtain ⟨xs, hxs⟩ := parses_of_derives_statements hstatements l
        cases ts with
        | nil => exact ⟨_, _, .program rfl hxs⟩
        | cons t ts => exact ⟨_, _, .program rfl hxs⟩

end Parser

/-- The tokens of a text in front of its end token are no end tokens. -/
theorem exists_of_tokenize {text : String} {ts : List Token} (h : tokenize text = .ok ts) :
    ∃ us l, ts = us ++ [.eof l] ∧ (∀ t ∈ us, t.kind ≠ .eof) ∧
      TokenStream.ofText text = (TokenStream.ending l).prepend us := by
  obtain ⟨us, l, hus, hstream⟩ := tokenize_eq_ok_iff_stream.mp h
  obtain ⟨g, ⟨-, hvalid⟩, htokens⟩ := tokenize_eq_ok_iff_segmentation.mp h
  obtain ⟨vs, hvs, hkind⟩ := g.tokens_eq_append hvalid .start
  obtain ⟨rfl, -⟩ := List.append_inj' (hus.symm.trans (htokens.symm.trans hvs)) rfl
  exact ⟨us, l, hus, hkind, hstream⟩

/-- A text that falls into tokens is parsed if and only if the grammar derives the kinds and values
of its tokens. So no choice that the parser makes costs it a program. -/
theorem parse_succeeds_iff_derives {text : String} {ts : List Token}
    (h : tokenize text = .ok ts) :
    (∃ t, parse text = .ok t) ↔ Derives .program (ts.map Token.terminal) := by
  obtain ⟨us, l, rfl, hkind, hstream⟩ := exists_of_tokenize h
  rw [← Parser.exists_program_iff hkind, ← hstream]
  constructor
  · rintro ⟨t, ht⟩
    exact ⟨t, parse_eq_ok_iff.mp ht⟩
  · rintro ⟨t, ht⟩
    exact ⟨t, parse_eq_ok_iff.mpr ht⟩

/-- The second equality sign could begin nothing, and the second argument list could belong to the
definition; the parser takes both into the value. -/
theorem parse_succeeds_iff_derives_definition :
    let ts : List Token :=
      [⟨.keyword, "mut", ⟨1, 1⟩⟩, ⟨.identifier, "a", ⟨1, 5⟩⟩, ⟨.operator, ":", ⟨1, 6⟩⟩,
        ⟨.identifier, "b", ⟨1, 8⟩⟩, ⟨.operator, "=", ⟨1, 10⟩⟩, ⟨.identifier, "c", ⟨1, 12⟩⟩,
        ⟨.punctuation, "(", ⟨1, 13⟩⟩, ⟨.punctuation, ")", ⟨1, 14⟩⟩,
        ⟨.punctuation, "(", ⟨1, 15⟩⟩, ⟨.punctuation, ")", ⟨1, 16⟩⟩,
        ⟨.punctuation, ";", ⟨1, 17⟩⟩, .eof ⟨1, 18⟩]
    tokenize "mut a: b = c()();" = .ok ts ∧
      ((∃ t, parse "mut a: b = c()();" = .ok t) ↔ Derives .program (ts.map Token.terminal)) := by
  intro ts
  have htokens : tokenize "mut a: b = c()();" = .ok ts := by with_unfolding_all rfl
  exact ⟨htokens, parse_succeeds_iff_derives htokens⟩

end ExprLang
