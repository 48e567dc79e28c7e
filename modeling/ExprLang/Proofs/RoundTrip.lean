import ExprLang.Proofs.Acceptance
import ExprLang.Proofs.Printing

set_option autoImplicit false

/-! # Parsing undoes printing

What is printed is read back as the tree that it was printed from, up to locations
(`Form.reads_of_prints`). The induction is over the ways to print. An operand is read as a chain
whose operators bind tight enough for the place where it stands, so that the chain of the whole
operation has its operator as the last of the loosest ones.

A text with one space between its tokens has a segmentation in which these spaces are the gaps
(`Segmentation.valid_ofWritings`), and `parse_undoes_printing` puts both together.
-/

namespace ExprLang

open ExprLang.Parser (Parses)
open ExprLang.Chain (Links HasTree)

/-- The next token is no list of arguments. -/
def TokenStream.NoCall (s : TokenStream) : Prop :=
  ∃ u, s.head = .ok u ∧ u.isPunctuation Bracketing.arguments.opening = false

theorem TokenStream.Blocks.noCall {s : TokenStream} (h : s.Blocks) : s.NoCall := by
  obtain ⟨u, hu, hopen, -⟩ := h
  exact ⟨u, hu, hopen⟩

namespace Tree

theorem unlocatedAll_eq_map (xs : List Tree) : unlocatedAll xs = xs.map unlocated := by
  induction xs with
  | nil => rfl
  | cons x xs ih => rw [unlocatedAll, ih, List.map_cons]

end Tree

/-- The tokens are read as the form, up to locations, when something is behind them that does not
go on with it. -/
def Form.Reads : Form → List Token → Prop
  | .expression t, ts => ∀ behind : TokenStream, behind.Blocks →
      ∃ t', Parses (.expression t') (behind.prepend ts) behind ∧ t'.unlocated = t.unlocated
  | .chain bound t, ts => ∀ behind : TokenStream, behind.NoCall →
      ∃ first links t' r, Parses (.atom first) (behind.prepend ts) r ∧ Links links r behind ∧
        (∀ l ∈ links, bound ≤ l.op.precedence) ∧ HasTree first links t' ∧
        t'.unlocated = t.unlocated
  | .atom t, ts => ∀ behind : TokenStream, behind.NoCall →
      ∃ t', Parses (.atom t') (behind.prepend ts) behind ∧ t'.unlocated = t.unlocated
  | .callee t, ts => ∀ behind : TokenStream,
      ∃ t', Parses (.primary t') (behind.prepend ts) behind ∧ t'.unlocated = t.unlocated
  | .list b xs, ts => ∃ u us, ts = u :: us ∧ u.isPunctuation b.opening = true ∧
      ∀ behind : TokenStream, ∃ ys, Parses (.items b ys) (behind.prepend us) behind ∧
        ys.map Tree.unlocated = xs.map Tree.unlocated
  | .row b xs, ts => ∀ (u : Token) (s r : TokenStream),
      u.isPunctuation b.separator = true ∨ u.isPunctuation b.closing = true →
      Parses (.moreItems b []) (.token u s) r →
      ∃ y ys r', Parses (.element b y) ((TokenStream.token u s).prepend ts) r' ∧
        Parses (.moreItems b ys) r' r ∧ (y :: ys).map Tree.unlocated = xs.map Tree.unlocated
  | .element b t, ts => ∀ behind : TokenStream, behind.Blocks →
      ∃ t', Parses (.element b t') (behind.prepend ts) behind ∧ t'.unlocated = t.unlocated
  | .parameter t, ts => ∀ behind : TokenStream, behind.Blocks →
      ∃ t', Parses (.parameter t') (behind.prepend ts) behind ∧ t'.unlocated = t.unlocated
  | .variable name type value, ts => (∃ u us, ts = u :: us) ∧
      ∀ behind : TokenStream, behind.Blocks → ∃ value', value'.unlocated = value.unlocated ∧
        ∀ isConst l, Parses (.variableBody isConst l (.definition name type isConst value' l))
          (behind.prepend ts) behind
  | .statements xs, ts => ∀ l : Location,
      ∃ ys, Parses (.statements ys) ((TokenStream.ending l).prepend ts) (.ending l) ∧
        ys.map Tree.unlocated = xs.map Tree.unlocated

/-! ## Operations -/

/-- A chain that is read is an expression. -/
theorem reads_expression_of_chain {t : Tree} {ts : List Token} (h : Form.Reads (.chain 0 t) ts) :
    Form.Reads (.expression t) ts := by
  intro behind hblocks
  obtain ⟨first, links, t', r, hfirst, hlinks, -, htree, hsame⟩ := h behind hblocks.noCall
  have hstop : Chain.Stops 0 (behind.prepend []) := Parser.stops_prepend hblocks (by simp)
  have hchain := Chain.parses_of_hasTree hlinks (fun l _ => l.op.precedence_pos) hstop htree
  obtain ⟨u, hu, hopen, -⟩ := hblocks
  exact ⟨t', .expression hfirst hchain (.noCall hu hopen), hsame⟩

/-- An atom is a chain without operators. -/
theorem reads_chain_of_atom {t : Tree} {ts : List Token} (h : Form.Reads (.atom t) ts)
    (bound : Nat) : Form.Reads (.chain bound t) ts := by
  intro behind hnoCall
  obtain ⟨t', ht', hsame⟩ := h behind hnoCall
  exact ⟨t', [], t', behind, ht', .nil, by simp, .operand, hsame⟩

/-- The operator of an operation is the last of the loosest ones in the chain of its operands. -/
theorem reads_operation {bound : Nat} {op : Operator} {left right : Tree} {l : Location}
    {ts us : List Token} {sign : Token} (hbound : bound ≤ op.precedence)
    (hsign : sign.operator? = some op) (hleft : Form.Reads (.chain op.precedence left) ts)
    (hright : Form.Reads (.chain (op.precedence + 1) right) us) :
    Form.Reads (.chain bound (.operation op left right l)) (ts ++ sign :: us) := by
  intro behind hnoCall
  -- from the right, where it is known what is behind
  obtain ⟨first', ms, right', r', hfirst', hms, hmsop, hmsTree, hrightSame⟩ :=
    hright behind hnoCall
  have hopen : sign.isPunctuation Bracketing.arguments.opening = false := by
    rw [Bool.eq_false_iff]
    intro hopen
    rw [Token.operator?_of_punctuation hopen] at hsign
    cases hsign
  obtain ⟨first, ls, left', r, hfirst, hls, hlsop, hlsTree, hleftSame⟩ :=
    hleft (.token sign (behind.prepend us)) ⟨sign, rfl, hopen⟩
  obtain ⟨o, hsplit, rfl, hyields⟩ := Chain.exists_operand hfirst'
  rw [hsplit] at hyields
  have hlink : Links (⟨sign, op, o⟩ :: ms) (.token sign (behind.prepend us)) behind := by
    rw [hsplit]
    exact .cons hsign hyields hms
  -- the links of the left operand bind at least as tight as the operator, those of the right one
  -- tighter
  have htree : HasTree first (ls ++ ⟨sign, op, o⟩ :: ms)
      (.operation op left' right' sign.location) := .operation hlsop hmsop hlsTree hmsTree
  refine ⟨first, ls ++ ⟨sign, op, o⟩ :: ms, _, r, ?_, hls.append hlink, ?_, htree, ?_⟩
  · rw [TokenStream.prepend_append]
    exact hfirst
  · intro m hm
    rcases List.mem_append.mp hm with hm | hm
    · exact Nat.le_trans hbound (hlsop m hm)
    rcases List.mem_cons.mp hm with rfl | hm
    · exact hbound
    · exact Nat.le_trans hbound (Nat.le_of_lt (hmsop m hm))
  · rw [Tree.unlocated, Tree.unlocated, hleftSame, hrightSame]

/-! ## Atoms -/

/-- An operand of one token is an atom. -/
theorem reads_operand {t t' : Tree} {u : Token} (hu : u.operand = .ok t')
    (hsame : t'.unlocated = t.unlocated) : Form.Reads (.atom t) [u] := by
  intro behind hnoCall
  obtain ⟨v, hv, hopen⟩ := hnoCall
  exact ⟨t', .atom (.operand hu) (.noCall hv hopen), hsame⟩

/-- An expression in parentheses is a primary. -/
theorem reads_parens {t : Tree} {ts : List Token} {u v : Token}
    (h : Form.Reads (.expression t) ts) (hu : u.isPunctuation "(" = true)
    (hv : v.isPunctuation ")" = true) : Form.Reads (.callee t) (u :: (ts ++ [v])) := by
  intro behind
  obtain ⟨t', ht', hsame⟩ :=
    h (.token v behind) (Token.blocks_of_isPunctuation hv (by decide) behind)
  refine ⟨t', ?_, hsame⟩
  rw [TokenStream.prepend_cons, TokenStream.prepend_append]
  exact .parens hu ht' hv

/-- A primary is an atom where no arguments follow. -/
theorem reads_atom_of_callee {t : Tree} {ts : List Token} (h : Form.Reads (.callee t) ts) :
    Form.Reads (.atom t) ts := by
  intro behind hnoCall
  obtain ⟨t', ht', hsame⟩ := h behind
  obtain ⟨v, hv, hopen⟩ := hnoCall
  exact ⟨t', .atom ht' (.noCall hv hopen), hsame⟩

theorem reads_call {f : Tree} {xs : List Tree} {l : Location} {ts us : List Token}
    (hf : Form.Reads (.callee f) ts) (hxs : Form.Reads (.list .arguments xs) us) :
    Form.Reads (.atom (.call f xs l)) (ts ++ us) := by
  intro behind _
  obtain ⟨u, us, rfl, hu, hitems⟩ := hxs
  obtain ⟨ys, hys, hysSame⟩ := hitems behind
  obtain ⟨f', hf', hfSame⟩ := hf (behind.prepend (u :: us))
  refine ⟨.call f' ys f'.location, ?_, ?_⟩
  · rw [TokenStream.prepend_append]
    exact .atom hf' (.call hu hys)
  · rw [Tree.unlocated, Tree.unlocated, hfSame, Tree.unlocatedAll_eq_map,
      Tree.unlocatedAll_eq_map, hysSame]

/-- A block in brackets, wherever a block may stand. -/
theorem exists_block {xs : List Tree} {l : Location} {ts : List Token}
    (h : Form.Reads (.list .block xs) ts) (behind : TokenStream) :
    ∃ t', Parses (.block t') (behind.prepend ts) behind ∧
      t'.unlocated = (Tree.block xs l).unlocated := by
  obtain ⟨u, us, rfl, hu, hitems⟩ := h
  obtain ⟨ys, hys, hsame⟩ := hitems behind
  refine ⟨.block ys u.location, .block hu hys, ?_⟩
  rw [Tree.unlocated, Tree.unlocated, Tree.unlocatedAll_eq_map, Tree.unlocatedAll_eq_map, hsame]

/-! ## Lists -/

/-- The separator or the bracket behind a row completes it to a list. -/
theorem reads_list_of_row {b : Bracketing} {xs : List Tree} {ts us : List Token} {u v : Token}
    (h : Form.Reads (.row b xs) ts) (hu : u.isPunctuation b.opening = true)
    (hv : v.isPunctuation b.separator = true ∨ v.isPunctuation b.closing = true)
    (hmore : ∀ behind : TokenStream,
      Parses (.moreItems b []) (.token v (behind.prepend us)) behind) :
    Form.Reads (.list b xs) (u :: (ts ++ v :: us)) := by
  refine ⟨u, ts ++ v :: us, rfl, hu, fun behind => ?_⟩
  obtain ⟨y, ys, r, hy, hys, hsame⟩ := h v (behind.prepend us) behind hv (hmore behind)
  refine ⟨y :: ys, ?_, hsame⟩
  rw [TokenStream.prepend_append]
  exact .itemsCons hy hys

theorem reads_row {b : Bracketing} {x : Tree} {xs : List Tree} {ts us : List Token}
    {sign : Token} (hx : Form.Reads (.element b x) ts)
    (hsign : sign.isPunctuation b.separator = true) (hxs : Form.Reads (.row b xs) us) :
    Form.Reads (.row b (x :: xs)) (ts ++ sign :: us) := by
  intro u s r hu hmore
  obtain ⟨y, ys, r', hy, hys, hsame⟩ := hxs u s r hu hmore
  obtain ⟨x', hx', hxSame⟩ := hx (.token sign ((TokenStream.token u s).prepend us))
    (Bracketing.blocks_of_separator (.inl hsign) _)
  refine ⟨x', y :: ys, _, ?_, .moreCons hsign hy hys, ?_⟩
  · rw [TokenStream.prepend_append]
    exact hx'
  · rw [List.map_cons, hsame, hxSame, List.map_cons]

/-! ## Variables -/

theorem reads_variable_absent {name colon type : Token} {l : Location}
    (hname : name.kind = .identifier) (hcolon : colon.isOperator ":" = true)
    (htype : type.kind = .identifier) :
    Form.Reads (.variable name.value type.value (.absent l)) [name, colon, type] := by
  refine ⟨⟨name, _, rfl⟩, fun behind hblocks => ?_⟩
  obtain ⟨u, hu, -, hoperator⟩ := hblocks
  exact ⟨.absent u.location, rfl, fun isConst l' => .variableAbsent hname hcolon htype hu
    (Token.isOperator_assign_of_operator? hoperator)⟩

theorem reads_variable_value {name colon type sign : Token} {value : Tree} {ts : List Token}
    (hname : name.kind = .identifier) (hcolon : colon.isOperator ":" = true)
    (htype : type.kind = .identifier) (hsign : sign.isOperator Operator.assign.symbol = true)
    (hvalue : Form.Reads (.expression value) ts) :
    Form.Reads (.variable name.value type.value value) (name :: colon :: type :: sign :: ts) := by
  refine ⟨⟨name, _, rfl⟩, fun behind hblocks => ?_⟩
  obtain ⟨value', hparses, hsame⟩ := hvalue behind hblocks
  exact ⟨value', hsame, fun isConst l => .variableValue hname hcolon htype hsign hparses⟩

theorem isKeyword_const_of_qualifier {u : Token} {isConst : Bool}
    (hu : u.terminal = .keyword (qualifier isConst)) : u.isKeyword "const" = isConst := by
  cases isConst with
  | true => exact Token.is_of_terminal_eq hu
  | false => exact Token.is_eq_false (Token.is_of_terminal_eq hu) (.inr (by decide))

/-- A definition with its qualifier, as an expression or as a parameter. -/
theorem exists_definition {name type : String} {isConst : Bool} {value : Tree} {l : Location}
    {u : Token} {ts : List Token} (h : Form.Reads (.variable name type value) ts)
    (hu : u.terminal = .keyword (qualifier isConst)) {behind : TokenStream}
    (hblocks : behind.Blocks) :
    ∃ t', Parses (.definition t') (behind.prepend (u :: ts)) behind ∧
      t'.unlocated = (Tree.definition name type isConst value l).unlocated := by
  obtain ⟨value', hsame, hparses⟩ := h.2 behind hblocks
  have hword : qualifier isConst = "const" ∨ qualifier isConst = "mut" := by
    cases isConst with
    | true => exact .inl rfl
    | false => exact .inr rfl
  have hqualifier : u.isKeyword "const" = true ∨ u.isKeyword "mut" = true :=
    Token.isKeyword_of_isQualifier (hu ▸ Terminal.isQualifier_keyword hword)
  refine ⟨_, .definition hqualifier (hparses _ _), ?_⟩
  rw [Tree.unlocated, Tree.unlocated, hsame, isKeyword_const_of_qualifier hu]

/-- A definition behind its qualifier is over where its value is. -/
theorem reads_definition {name type : String} {isConst : Bool} {value : Tree} {l : Location}
    {u : Token} {ts : List Token} (h : Form.Reads (.variable name type value) ts)
    (hu : u.terminal = .keyword (qualifier isConst)) :
    Form.Reads (.expression (.definition name type isConst value l)) (u :: ts) := by
  intro behind hblocks
  obtain ⟨t', ht', hsame⟩ := exists_definition (l := l) h hu hblocks
  obtain ⟨v, hv, hopen, hoperator⟩ := hblocks
  refine ⟨t', .expression (.atom (.definitionPrimary ht') (.noCall hv hopen))
    (.chainStop hv fun op hop => ?_) (.noCall hv hopen), hsame⟩
  rw [hoperator] at hop
  cases hop

theorem reads_function {name result : String} {ps xs : List Tree} {l l' : Location}
    {word arrow x y : Token} {ts us : List Token} (hword : word.isKeyword "def" = true)
    (hx : x.terminal = .identifier name) (hy : y.terminal = .identifier result)
    (harrow : arrow.isOperator "->" = true) (hps : Form.Reads (.list .parameters ps) ts)
    (hxs : Form.Reads (.list .block xs) us) :
    Form.Reads (.expression (.function name result ps (.block xs l') l))
      (word :: x :: (ts ++ arrow :: y :: us)) := by
  intro behind hblocks
  obtain ⟨body, hbody, hbodySame⟩ := exists_block (l := l') hxs behind
  obtain ⟨bracket, ts, rfl, hbracket, hitems⟩ := hps
  obtain ⟨ps', hps', hpsSame⟩ := hitems (behind.prepend (arrow :: y :: us))
  obtain ⟨v, hv, hopen, hoperator⟩ := hblocks
  obtain ⟨hxkind, rfl⟩ := Prod.mk.inj hx
  obtain ⟨hykind, rfl⟩ := Prod.mk.inj hy
  have hfunction : Parses (.function (.function x.value y.value ps' body word.location))
      (behind.prepend (word :: x :: (bracket :: ts ++ arrow :: y :: us))) behind := by
    rw [TokenStream.prepend_cons, TokenStream.prepend_cons, TokenStream.prepend_append]
    exact .function hword hxkind hbracket hps' harrow hykind hbody
  refine ⟨_, .expression (.atom (.functionPrimary hfunction) (.noCall hv hopen))
    (.chainStop hv fun op hop => ?_) (.noCall hv hopen), ?_⟩
  · rw [hoperator] at hop
    cases hop
  · rw [Tree.unlocated, Tree.unlocated, hbodySame, Tree.unlocatedAll_eq_map,
      Tree.unlocatedAll_eq_map, hpsSame]

/-! ## All forms -/

/-- What a form is printed as is read as the form. -/
theorem Form.reads_of_prints {f : Form} {ts : List Token} (h : Prints f (word ts)) :
    f.Reads ts := by
  generalize hw : word ts = w at h
  induction h generalizing ts with
  | expression _ ih => exact reads_expression_of_chain (ih hw)
  | definition _ ih =>
      obtain ⟨u, ts, rfl, hu, hts⟩ := List.map_eq_cons_iff.mp hw
      exact reads_definition (ih hts) hu
  | function _ _ ihps ihxs =>
      obtain ⟨u, ts, rfl, hu, htail⟩ := List.map_eq_cons_iff.mp hw
      obtain ⟨x, ts, rfl, hx, htail⟩ := List.map_eq_cons_iff.mp htail
      obtain ⟨ts, arrow, us, rfl, hts, harrow, hus⟩ := exists_of_word_separated htail
      obtain ⟨y, us, rfl, hy, hus⟩ := List.map_eq_cons_iff.mp hus
      exact reads_function (Token.is_of_terminal_eq hu) hx hy (Token.is_of_terminal_eq harrow)
        (ihps hts) (ihxs hus)
  | chain _ ih => exact reads_chain_of_atom (ih hw) _
  | operation hbound _ _ ihleft ihright =>
      obtain ⟨ts, sign, us, rfl, hts, hsign, hus⟩ := exists_of_word_separated hw
      exact reads_operation hbound (Token.operator?_of_terminal hsign) (ihleft hts) (ihright hus)
  | parens _ ih =>
      obtain ⟨u, ts, v, rfl, hu, hts, hv⟩ := exists_of_word_brackets hw
      exact reads_atom_of_callee
        (reads_parens (ih hts) (Token.is_of_terminal_eq hu) (Token.is_of_terminal_eq hv))
  | @bool x l =>
      obtain ⟨l', rfl⟩ := exists_of_word_token hw
      cases x with
      | true => exact reads_operand rfl rfl
      | false => exact reads_operand rfl rfl
  | @char c l =>
      obtain ⟨l', rfl⟩ := exists_of_word_token hw
      have hoperand : Token.operand ⟨.char, .ofList [c], l'⟩ = .ok (.char c l') := by
        simp [Token.operand]
      exact reads_operand hoperand rfl
  | @int ds l _ hmax =>
      obtain ⟨l', rfl⟩ := exists_of_word_token hw
      have hoperand : Token.operand ⟨.int, .ofList ds, l'⟩ =
          .ok (.int (Numeral.ofDigits ds) l') := by
        simp [Token.operand, hmax]
      exact reads_operand hoperand rfl
  | @float text l =>
      obtain ⟨l', rfl⟩ := exists_of_word_token hw
      have hoperand : Token.operand ⟨.float, .ofList text, l'⟩ =
          .ok (.float (.ofDecimal (.ofText text)) l') := by
        simp [Token.operand]
      exact reads_operand hoperand rfl
  | string =>
      obtain ⟨l', rfl⟩ := exists_of_word_token hw
      exact reads_operand rfl rfl
  | reference =>
      obtain ⟨l', rfl⟩ := exists_of_word_token hw
      exact reads_operand rfl rfl
  | call _ _ ihf ihxs =>
      obtain ⟨ts, us, rfl, hts, hus⟩ := List.map_eq_append_iff.mp hw
      exact reads_call (ihf hts) (ihxs hus)
  | block _ ih =>
      intro behind hnoCall
      obtain ⟨t', ht', hsame⟩ := exists_block (ih hw) behind
      obtain ⟨v, hv, hopen⟩ := hnoCall
      exact ⟨t', .atom (.blockPrimary ht') (.noCall hv hopen), hsame⟩
  | callee _ ih =>
      obtain ⟨u, ts, v, rfl, hu, hts, hv⟩ := exists_of_word_brackets hw
      exact reads_parens (ih hts) (Token.is_of_terminal_eq hu) (Token.is_of_terminal_eq hv)
  | calleeReference =>
      obtain ⟨l', rfl⟩ := exists_of_word_token hw
      exact fun behind => ⟨.reference _ l', .operand rfl, rfl⟩
  | emptyList =>
      obtain ⟨u, ts, rfl, hu, hts⟩ := List.map_eq_cons_iff.mp hw
      obtain ⟨v, ts, rfl, hv, hts⟩ := List.map_eq_cons_iff.mp hts
      obtain rfl := List.map_eq_nil_iff.mp hts
      exact ⟨u, [v], rfl, Token.is_of_terminal_eq hu,
        fun behind => ⟨[], .itemsClose (Token.is_of_terminal_eq hv), rfl⟩⟩
  | @list b _ _ _ ih =>
      obtain ⟨u, ts, v, rfl, hu, hts, hv⟩ := exists_of_word_brackets hw
      have hclosing : v.isPunctuation b.closing = true := Token.is_of_terminal_eq hv
      exact reads_list_of_row (ih hts) (Token.is_of_terminal_eq hu) (.inr hclosing)
        fun behind => .moreClose hclosing
  | @listTrailing b _ _ _ ih =>
      obtain ⟨u, ts, sign, v, rfl, hu, hts, hsign, hv⟩ := exists_of_word_trailing hw
      have hseparator : sign.isPunctuation b.separator = true := Token.is_of_terminal_eq hsign
      exact reads_list_of_row (ih hts) (Token.is_of_terminal_eq hu) (.inl hseparator)
        fun behind => .moreTrailing hseparator (Token.is_of_terminal_eq hv)
  | single _ ih =>
      intro u s r hu hmore
      obtain ⟨t', ht', hsame⟩ := ih hw (.token u s) (Bracketing.blocks_of_separator hu s)
      exact ⟨t', [], _, ht', hmore, by rw [List.map_singleton, hsame, List.map_singleton]⟩
  | row _ _ ihx ihxs =>
      obtain ⟨ts, sign, us, rfl, hts, hsign, hus⟩ := exists_of_word_separated hw
      exact reads_row (ihx hts) (Token.is_of_terminal_eq hsign) (ihxs hus)
  | argument _ ih =>
      intro behind hblocks
      obtain ⟨t', ht', hsame⟩ := ih hw behind hblocks
      exact ⟨t', .argument ht', hsame⟩
  | formal _ ih =>
      intro behind hblocks
      obtain ⟨t', ht', hsame⟩ := ih hw behind hblocks
      exact ⟨t', .formal ht', hsame⟩
  | statement _ ih =>
      intro behind hblocks
      obtain ⟨t', ht', hsame⟩ := ih hw behind hblocks
      exact ⟨t', .statement ht', hsame⟩
  | parameter _ ih =>
      intro behind hblocks
      obtain ⟨⟨u, us, rfl⟩, hvariable⟩ := ih hw
      obtain ⟨value', hsame, hparses⟩ := hvariable behind hblocks
      refine ⟨_, .parameterVariable (hparses _ _), ?_⟩
      rw [Tree.unlocated, Tree.unlocated, hsame]
  | parameterQualified _ ih =>
      intro behind hblocks
      obtain ⟨u, ts, rfl, hu, hts⟩ := List.map_eq_cons_iff.mp hw
      obtain ⟨t', ht', hsame⟩ := exists_definition (ih hts) hu hblocks
      exact ⟨t', .parameterDefinition ht', hsame⟩
  | variableAbsent =>
      obtain ⟨name, colon, type, ts, rfl, ⟨hname, rfl⟩, hcolon, ⟨htype, rfl⟩, hts⟩ :=
        exists_of_word_typed hw
      obtain rfl := List.map_eq_nil_iff.mp hts
      exact reads_variable_absent hname hcolon htype
  | variableValue _ ih =>
      obtain ⟨name, colon, type, ts, rfl, ⟨hname, rfl⟩, hcolon, ⟨htype, rfl⟩, htail⟩ :=
        exists_of_word_typed hw
      obtain ⟨sign, ts, rfl, hsign, hts⟩ := List.map_eq_cons_iff.mp htail
      exact reads_variable_value hname hcolon htype (Token.is_of_terminal_eq hsign) (ih hts)
  | noStatements =>
      obtain rfl := List.map_eq_nil_iff.mp hw
      exact fun l => ⟨[], .noStatements rfl rfl, rfl⟩
  | statements _ _ ihx ihxs =>
      intro l
      obtain ⟨ts, sign, us, rfl, hts, hsign, hus⟩ := exists_of_word_separated hw
      have hsemicolon : sign.isPunctuation ";" = true := Token.is_of_terminal_eq hsign
      obtain ⟨ys, hys, hysSame⟩ := ihxs hus l
      obtain ⟨x', hx', hxSame⟩ := ihx hts (.token sign ((TokenStream.ending l).prepend us))
        (Token.blocks_of_isPunctuation hsemicolon (by decide) _)
      refine ⟨x' :: ys, ?_, ?_⟩
      · rw [TokenStream.prepend_append]
        exact .statements hx' hsemicolon hys
      · rw [List.map_cons, List.map_cons, hxSame, hysSame]

/-! ## Texts with spaces -/

/-- A lexeme in front of a blank is one in front of every blank, and at the end of the text. -/
theorem IsLexeme.of_space {kind : Token.Kind} {value text rest : List Char}
    (h : IsLexeme [' '] kind value text) (hrest : ∀ c ∈ rest.head?, c = ' ') :
    IsLexeme rest kind value text := by
  refine h.congr_ahead fun p _ hp c hc => ?_
  rw [hrest c hc]
  exact stopsAt_cons.mp hp

namespace Segmentation

/-- The tokens as they are written, each behind a gap. -/
def ofWritings (gap : List Char) : List Writing → Segmentation
  | [] => .last []
  | p :: ps => .lexeme gap p.terminal.1 p.terminal.2.toList p.text (ofWritings [' '] ps)

theorem text_ofWritings (gap : List Char) (p : Writing) (ps : List Writing) :
    (ofWritings gap (p :: ps)).text = gap ++ [' '].intercalate ((p :: ps).map Writing.text) := by
  induction ps generalizing gap p with
  | nil => simp [ofWritings, text]
  | cons q qs ih =>
      rw [ofWritings, text, ih, List.map_cons, List.map_cons, List.map_cons,
        List.intercalate_cons_cons]
      simp

theorem head_ofWritings (ps : List Writing) :
    ∀ c ∈ (ofWritings [' '] ps).text.head?, c = ' ' := by
  intro c hc
  cases ps with
  | nil => cases hc
  | cons p ps =>
      cases hc
      rfl

theorem valid_ofWritings {gap : List Char} (hgap : gap = [] ∨ gap = [' ']) (ps : List Writing) :
    (ofWritings gap ps).Valid := by
  induction ps generalizing gap with
  | nil => exact isLongestGap_iff.mpr ⟨.nil, stopsAt_nil _⟩
  | cons p ps ih =>
      -- a lexeme is in front of a space, or of the end of the text
      have hlexeme := p.isLexeme.of_space (head_ofWritings ps)
      refine ⟨isLongestGap_iff.mpr ⟨?_, hlexeme.stopsAt_gap⟩, hlexeme, ih (.inr rfl)⟩
      rcases hgap with rfl | rfl
      · exact .nil
      · exact .blank (by decide) .nil

theorem tokens_ofWritings (gap : List Char) (ps : List Writing) (l : Location) :
    ∃ ts l', (ofWritings gap ps).tokens l = ts ++ [.eof l'] ∧
      word ts = ps.map Writing.terminal := by
  induction ps generalizing gap l with
  | nil => exact ⟨[], l, rfl, rfl⟩
  | cons p ps ih =>
      obtain ⟨ts, l', hts, hword⟩ := ih [' '] (l.after (gap ++ p.text))
      refine ⟨⟨p.terminal.1, .ofList p.terminal.2.toList, l.after gap⟩ :: ts, l', ?_, ?_⟩
      · rw [ofWritings, tokens, hts]
        rfl
      · show Token.terminal _ :: word ts = p.terminal :: ps.map Writing.terminal
        rw [hword, Token.terminal, String.ofList_toList]

end Segmentation

/-- A text with one space between its tokens falls into these tokens. -/
theorem exists_stream_of_writings {text : String} {ps : List Writing}
    (h : text.toList = [' '].intercalate (ps.map Writing.text)) :
    ∃ ts l, TokenStream.ofText text = (TokenStream.ending l).prepend ts ∧
      word ts = ps.map Writing.terminal := by
  obtain ⟨ts, l, hts, hword⟩ := Segmentation.tokens_ofWritings [] ps .start
  have htext : (Segmentation.ofWritings [] ps).text = text.toList := by
    rw [h]
    cases ps with
    | nil => rfl
    | cons p ps => exact Segmentation.text_ofWritings [] p ps
  have htokens : tokenize text = .ok (ts ++ [.eof l]) := tokenize_eq_ok_iff_segmentation.mpr
    ⟨_, ⟨htext, Segmentation.valid_ofWritings (.inl rfl) ps⟩, hts⟩
  obtain ⟨us, l', hus, hstream⟩ := tokenize_eq_ok_iff_stream.mp htokens
  obtain ⟨rfl, -⟩ := List.append_inj' hus rfl
  exact ⟨ts, l', hstream, hword⟩

/-! ## Programs -/

/-- Every way to write a program is parsed as the program again, up to locations; and there is a
way to write it. -/
theorem parse_undoes_printing {t : Tree} (h : t.IsProgram) :
    (∃ text, t.PrintsAs text) ∧ ∀ text, t.PrintsAs text →
      ∃ t', parse text = .ok t' ∧ t'.unlocated = t.unlocated := by
  refine ⟨h.exists_printsAs, ?_⟩
  rintro text ⟨xs, l, ps, rfl, hprints, htext⟩
  obtain ⟨ts, l', hstream, hword⟩ := exists_stream_of_writings htext
  rw [← hword] at hprints
  obtain ⟨ys, hys, hsame⟩ := Form.reads_of_prints hprints l'
  have hhead : ∃ u, ((TokenStream.ending l').prepend ts).head = .ok u := by
    cases ts with
    | nil => exact ⟨_, rfl⟩
    | cons u us => exact ⟨u, rfl⟩
  obtain ⟨u, hu⟩ := hhead
  refine ⟨.block ys u.location, parse_eq_ok_iff.mpr ⟨.ending l', ?_⟩, ?_⟩
  · rw [hstream]
    exact .program hu hys
  · rw [Tree.unlocated, Tree.unlocated, Tree.unlocatedAll_eq_map, Tree.unlocatedAll_eq_map, hsame]

/-- A sum as the left operand of a product, which needs its parentheses. -/
theorem parse_undoes_printing_product :
    let t : Tree := .block [.operation .multiply
      (.operation .add (.reference "x" ⟨1, 2⟩) (.int 1 ⟨1, 6⟩) ⟨1, 4⟩) (.int 2 ⟨1, 11⟩) ⟨1, 9⟩]
      ⟨1, 1⟩
    t.IsProgram ∧ (∃ text, t.PrintsAs text) ∧ ∀ text, t.PrintsAs text →
      ∃ t', parse text = .ok t' ∧ t'.unlocated = t.unlocated := by
  intro t
  have hx : Tree.IsExpression (.reference "x" ⟨1, 2⟩) := .reference ⟨by decide, by decide⟩
  have hone : Tree.IsExpression (.int 1 ⟨1, 6⟩) := .int (by decide) (by decide)
  have htwo : Tree.IsExpression (.int 2 ⟨1, 11⟩) := .int (by decide) (by decide)
  have hprogram : t.IsProgram :=
    ⟨_, _, rfl, List.forall_mem_singleton.mpr (.operation (.operation hx hone) htwo)⟩
  exact ⟨hprogram, parse_undoes_printing hprogram⟩

end ExprLang
