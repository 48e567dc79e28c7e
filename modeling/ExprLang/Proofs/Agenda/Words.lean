import ExprLang.Proofs.Agenda
import ExprLang.Proofs.Printing

set_option autoImplicit false

/-! # The words of an agenda

What an agenda is still to read is told by words of the grammar: `Agenda.Spells gs w` says that the
goals of `gs` derive the parts of `w` in order. No plan adds a word to its goal
(`Goal.spells_of_plan`), so the tokens that a run takes, with a word of what it comes to behind
them, are a word of the agenda that it began with (`Run.spells`).

No goal that is planned is impossible: for each of them there is a word of terminals that can be
written (`Agenda.exists_word`). Hence what a run takes can always be completed.
-/

namespace ExprLang

/-- A token of this kind and value meets the demand. -/
def Demand.Meets : Demand → Terminal → Prop
  | exactly kind value, x => x = (kind, value)
  | identifier, x => ∃ name, x = .identifier name
  | operand, x => x.IsOperand

/-- The goal can be read off these terminals, as far as the grammar knows. What is left of a list is
told by what completes the list. -/
def Goal.Spells : Goal → List Terminal → Prop
  | .demand d, w => ∃ x, w = [x] ∧ d.Meets x
  | .statements, w => Derives .statements w
  | .links, w => Derives .links w
  | .application, w => Derives .application w
  | .primary, w => Derives .primary w
  | .definition, w =>
    ∃ word v, w = .keyword word :: v ∧ (word = "const" ∨ word = "mut") ∧ Derives .variable v
  | .parameter, w => Derives .parameter w
  | .value, w => w = [] ∨ ∃ v, w = .operator Operator.assign.symbol :: v ∧ Derives .expression v
  | .items b, w => Derives (.list b) (b.openTerminal :: w)
  | .moreItems b, w => ∀ v, Derives (.row b) v → Derives (.list b) (b.openTerminal :: (v ++ w))
  | .nextItem b, w => ∀ v, Derives (.row b) v →
    Derives (.list b) (b.openTerminal :: (v ++ b.separatorTerminal :: w))

/-- The goals can be read off these terminals one by one. -/
def Agenda.Spells : Agenda → List Terminal → Prop
  | [], w => w = []
  | g :: gs, w => ∃ u v, w = u ++ v ∧ g.Spells u ∧ Agenda.Spells gs v

namespace Agenda

theorem spells_append {gs hs : Agenda} {w : List Terminal} :
    Spells (gs ++ hs) w ↔ ∃ u v, w = u ++ v ∧ Spells gs u ∧ Spells hs v := by
  induction gs generalizing w with
  | nil =>
      constructor
      · intro h
        exact ⟨[], w, rfl, rfl, h⟩
      · rintro ⟨u, v, rfl, rfl, hv⟩
        exact hv
  | cons g gs ih =>
      constructor
      · rintro ⟨u, v, rfl, hu, hv⟩
        obtain ⟨v, w, rfl, hv, hw⟩ := ih.mp hv
        exact ⟨u ++ v, w, (List.append_assoc u v w).symm, ⟨u, v, rfl, hu, hv⟩, hw⟩
      · rintro ⟨-, w, rfl, ⟨u, v, rfl, hu, hv⟩, hw⟩
        exact ⟨u, v ++ w, List.append_assoc u v w, hu, ih.mpr ⟨v, w, rfl, hv, hw⟩⟩

theorem spells_singleton {g : Goal} {w : List Terminal} : Spells [g] w ↔ g.Spells w := by
  constructor
  · rintro ⟨u, v, rfl, hu, rfl⟩
    rwa [List.append_nil]
  · intro h
    exact ⟨w, [], (List.append_nil w).symm, h, rfl⟩

theorem spells_exactly {kind : Token.Kind} {value : String} {gs : Agenda} {w : List Terminal} :
    Spells (.demand (.exactly kind value) :: gs) w ↔ ∃ v, w = (kind, value) :: v ∧ Spells gs v := by
  constructor
  · rintro ⟨u, v, rfl, ⟨x, rfl, rfl⟩, hv⟩
    exact ⟨v, rfl, hv⟩
  · rintro ⟨v, rfl, hv⟩
    exact ⟨[_], v, rfl, ⟨_, rfl, rfl⟩, hv⟩

theorem spells_identifier {gs : Agenda} {w : List Terminal} :
    Spells (.demand .identifier :: gs) w ↔ ∃ name v, w = .identifier name :: v ∧ Spells gs v := by
  constructor
  · rintro ⟨u, v, rfl, ⟨x, rfl, name, rfl⟩, hv⟩
    exact ⟨name, v, rfl, hv⟩
  · rintro ⟨name, v, rfl, hv⟩
    exact ⟨[_], v, rfl, ⟨_, rfl, name, rfl⟩, hv⟩

/-! ## Words of plans -/

theorem derives_of_atom {w : List Terminal} (h : Spells atom w) : Derives .atom w := by
  obtain ⟨u, -, rfl, hu, v, -, rfl, hv, rfl⟩ := h
  rw [List.append_nil]
  exact .atom hu hv

theorem derives_of_expression {w : List Terminal} (h : Spells expression w) :
    Derives .expression w := by
  have hsplit : Spells (atom ++ [.links, .application]) w := h
  obtain ⟨u, v, rfl, hu, hv⟩ := spells_append.mp hsplit
  obtain ⟨v, -, rfl, hv, w, -, rfl, hw, rfl⟩ := hv
  rw [List.append_nil]
  exact .expression (derives_of_atom hu) hv hw

theorem derives_of_block {w : List Terminal} (h : Spells block w) : Derives (.list .block) w := by
  obtain ⟨v, rfl, hv⟩ := spells_exactly.mp h
  exact spells_singleton.mp hv

theorem derives_of_variableBody {w : List Terminal} (h : Spells variableBody w) :
    Derives .variable w := by
  obtain ⟨name, v, rfl, hcolon⟩ := spells_identifier.mp h
  obtain ⟨v, rfl, htype⟩ := spells_exactly.mp hcolon
  obtain ⟨type, v, rfl, hvalue⟩ := spells_identifier.mp htype
  obtain rfl | ⟨v, rfl, hv⟩ := spells_singleton.mp hvalue
  · exact .variableAbsent
  · exact .variableValue hv

theorem derives_of_function {w : List Terminal} (h : Spells function w) : Derives .primary w := by
  obtain ⟨v, rfl, hname⟩ := spells_exactly.mp h
  obtain ⟨name, v, rfl, hbracket⟩ := spells_identifier.mp hname
  obtain ⟨v, rfl, hitems⟩ := spells_exactly.mp hbracket
  obtain ⟨u, v, rfl, hu, harrow⟩ := hitems
  obtain ⟨v, rfl, hresult⟩ := spells_exactly.mp harrow
  obtain ⟨result, v, rfl, hblock⟩ := spells_identifier.mp hresult
  exact .function hu (derives_of_block hblock)

theorem derives_of_element {b : Bracketing} {w : List Terminal} (h : Spells (element b) w) :
    Derives (.element b) w := by
  cases b with
  | arguments => exact .argument (derives_of_expression h)
  | parameters => exact .formal (spells_singleton.mp h)
  | block => exact .statement (derives_of_expression h)

theorem eq_of_close {b : Bracketing} {w : List Terminal} (h : Spells (close b) w) :
    w = [b.closeTerminal] := by
  obtain ⟨v, rfl, rfl⟩ := spells_exactly.mp h
  rfl

end Agenda

/-- A plan has no words that its goal has not. -/
theorem Goal.spells_of_plan {g : Goal} {u : Token} {plan : Agenda} (h : g.plan u = some plan)
    {w : List Terminal} (hw : plan.Spells w) : g.Spells w := by
  cases g with
  | demand d => cases h
  | statements =>
      simp only [Goal.plan] at h
      split at h <;> cases h
      · obtain rfl := hw
        exact .noStatements
      · obtain ⟨v, w, rfl, hv, hw⟩ := Agenda.spells_append.mp hw
        obtain ⟨w, rfl, hrest⟩ := Agenda.spells_exactly.mp hw
        exact .statements (Agenda.derives_of_expression hv) (Agenda.spells_singleton.mp hrest)
  | links =>
      simp only [Goal.plan] at h
      split at h <;> cases h
      · obtain ⟨w, rfl, hatom⟩ := Agenda.spells_exactly.mp hw
        obtain ⟨v, w, rfl, hv, hrest⟩ := Agenda.spells_append.mp hatom
        exact .links (Agenda.derives_of_atom hv) (Agenda.spells_singleton.mp hrest)
      · obtain rfl := hw
        exact .noLinks
  | application =>
      simp only [Goal.plan] at h
      split at h <;> cases h
      · obtain ⟨w, rfl, hitems⟩ := Agenda.spells_exactly.mp hw
        exact .arguments (Agenda.spells_singleton.mp hitems)
      · obtain rfl := hw
        exact .noArguments
  | primary =>
      simp only [Goal.plan] at h
      split at h
      · cases h
        obtain ⟨w, rfl, hinside⟩ := Agenda.spells_exactly.mp hw
        obtain ⟨v, w, rfl, hv, hclose⟩ := Agenda.spells_append.mp hinside
        obtain ⟨w, rfl, rfl⟩ := Agenda.spells_exactly.mp hclose
        exact .parens (Agenda.derives_of_expression hv)
      split at h
      · cases h
        exact .block (Agenda.derives_of_block hw)
      split at h
      · cases h
        exact Agenda.derives_of_function hw
      split at h
      · cases h
        obtain ⟨word, v, rfl, hword, hv⟩ := Agenda.spells_singleton.mp hw
        exact .definition hword hv
      · cases h
        obtain ⟨x, rfl, hx⟩ := Agenda.spells_singleton.mp hw
        exact .operand hx
  | definition =>
      cases h
      obtain ⟨w, rfl, hbody⟩ := Agenda.spells_exactly.mp hw
      refine ⟨_, w, rfl, ?_, Agenda.derives_of_variableBody hbody⟩
      split
      · exact .inl rfl
      · exact .inr rfl
  | parameter =>
      simp only [Goal.plan] at h
      split at h <;> cases h
      · obtain ⟨word, v, rfl, hword, hv⟩ := Agenda.spells_singleton.mp hw
        exact .parameterDefinition hword hv
      · exact .parameterVariable (Agenda.derives_of_variableBody hw)
  | value =>
      simp only [Goal.plan] at h
      split at h <;> cases h
      · obtain ⟨w, rfl, hexpression⟩ := Agenda.spells_exactly.mp hw
        exact .inr ⟨w, rfl, Agenda.derives_of_expression hexpression⟩
      · exact .inl hw
  | items b =>
      simp only [Goal.plan] at h
      split at h <;> cases h
      · rw [Agenda.eq_of_close hw]
        exact .emptyList
      · obtain ⟨v, w, rfl, hv, hw⟩ := Agenda.spells_append.mp hw
        exact Agenda.spells_singleton.mp hw v (.single (Agenda.derives_of_element hv))
  | moreItems b =>
      simp only [Goal.plan] at h
      split at h <;> cases h
      · rw [Agenda.eq_of_close hw]
        exact fun v hv => .list hv
      · obtain ⟨w, rfl, hnext⟩ := Agenda.spells_exactly.mp hw
        have hitem : Goal.Spells (.nextItem b) w := Agenda.spells_singleton.mp hnext
        exact hitem
  | nextItem b =>
      simp only [Goal.plan] at h
      split at h <;> cases h
      · rw [Agenda.eq_of_close hw]
        exact fun v hv => .listTrailing hv
      · obtain ⟨v, w, rfl, hv, hw⟩ := Agenda.spells_append.mp hw
        intro u hu
        -- the element makes the row longer
        have hrow := Derives.row hu (Agenda.derives_of_element hv)
        have hlist := Agenda.spells_singleton.mp hw _ hrow
        rwa [List.append_assoc, List.cons_append] at hlist

theorem Demand.meets_of_refusal {d : Demand} {t : Token} (h : d.refusal t = none) :
    d.Meets t.terminal := by
  cases d with
  | exactly kind value =>
      have ht : t.is kind value = true := by simpa [refusal] using h
      exact Token.terminal_eq_of_is ht
  | identifier =>
      have ht : t.kind = .identifier := by simpa [refusal] using h
      exact ⟨t.value, Token.terminal_eq_of_identifier ht⟩
  | operand =>
      cases hoperand : t.operand with
      | ok e => exact Token.isOperand_of_operand hoperand
      | error e => simp [refusal, hoperand] at h

/-- What a run takes, with a word of what is left behind it, is a word of the agenda. -/
theorem Run.spells {gs hs : Agenda} {ts : List Token} {s : TokenStream} (h : Run gs ts hs s)
    {w : List Terminal} (hw : hs.Spells w) : gs.Spells (word ts ++ w) := by
  induction h with
  | done => exact hw
  | plan _ hplan _ ih =>
      obtain ⟨u, v, huv, hu, hv⟩ := Agenda.spells_append.mp (ih hw)
      exact ⟨u, v, huv, Goal.spells_of_plan hplan hu, hv⟩
  | @take _ _ _ _ _ u hmet _ ih =>
      exact ⟨[u.terminal], _, rfl, ⟨_, rfl, Demand.meets_of_refusal hmet⟩, ih hw⟩

/-! ## Completion -/

/-- The goal has a word that can be written. -/
def Goal.Completes (g : Goal) : Prop := ∃ w, g.Spells w ∧ ∀ x ∈ w, x.IsWritable

namespace Goal

theorem isWritable_name : (Terminal.identifier "x").IsWritable :=
  Terminal.isWritable_identifier ⟨by decide, by decide⟩

/-- Only a demand for one token may have no word that can be written. -/
theorem completes_of_exactly {g : Goal}
    (h : ∀ kind value, g = .demand (.exactly kind value) → Terminal.IsWritable (kind, value)) :
    g.Completes := by
  have hcolon : (Terminal.operator ":").IsWritable := Terminal.isWritable_operator (by decide)
  have hmut : (Terminal.keyword "mut").IsWritable :=
    Terminal.isWritable_keyword (by decide) (by decide)
  have hvariable : Derives .variable [.identifier "x", .operator ":", .identifier "x"] ∧
      ∀ x ∈ [Terminal.identifier "x", .operator ":", .identifier "x"], x.IsWritable :=
    ⟨.variableAbsent, by simp [isWritable_name, hcolon]⟩
  have hclose : ∀ b : Bracketing, ∀ x ∈ [b.closeTerminal], x.IsWritable :=
    fun b => List.forall_mem_singleton.mpr (Form.isWritable_brackets b).2.1
  have hname : ∀ x ∈ [Terminal.identifier "x"], x.IsWritable :=
    List.forall_mem_singleton.mpr isWritable_name
  cases g with
  | demand d =>
      cases d with
      | exactly kind value =>
          exact ⟨_, ⟨_, rfl, rfl⟩, List.forall_mem_singleton.mpr (h kind value rfl)⟩
      | identifier => exact ⟨_, ⟨_, rfl, "x", rfl⟩, hname⟩
      | operand => exact ⟨_, ⟨_, rfl, .identifier⟩, hname⟩
  | statements => exact ⟨[], .noStatements, by simp⟩
  | links => exact ⟨[], .noLinks, by simp⟩
  | application => exact ⟨[], .noArguments, by simp⟩
  | primary => exact ⟨_, .operand .identifier, hname⟩
  | definition =>
      exact ⟨_, ⟨"mut", _, rfl, .inr rfl, hvariable.1⟩,
        List.forall_mem_cons.mpr ⟨hmut, hvariable.2⟩⟩
  | parameter => exact ⟨_, .parameterVariable hvariable.1, hvariable.2⟩
  | value => exact ⟨[], .inl rfl, by simp⟩
  | items b => exact ⟨_, .emptyList, hclose b⟩
  | moreItems b => exact ⟨_, fun v hv => .list hv, hclose b⟩
  | nextItem b => exact ⟨_, fun v hv => .listTrailing hv, hclose b⟩

theorem isWritable_symbol (op : Operator) : (Terminal.operator op.symbol).IsWritable := by
  refine Terminal.isWritable_operator ?_
  cases op <;> decide

end Goal

namespace Agenda

/-- All tokens that the goals demand can be written. -/
def IsWritable (gs : Agenda) : Prop :=
  ∀ kind value, .demand (.exactly kind value) ∈ gs → Terminal.IsWritable (kind, value)

theorem isWritable_nil : IsWritable [] := fun _ _ h => nomatch h

theorem isWritable_exactly {kind : Token.Kind} {value : String} {gs : Agenda}
    (h : Terminal.IsWritable (kind, value)) (hgs : gs.IsWritable) :
    IsWritable (.demand (.exactly kind value) :: gs) := by
  intro kind' value' hmem
  rcases List.mem_cons.mp hmem with heq | hmem
  · cases heq
    exact h
  · exact hgs kind' value' hmem

theorem isWritable_cons {g : Goal} {gs : Agenda}
    (h : ∀ kind value, g ≠ .demand (.exactly kind value)) (hgs : gs.IsWritable) :
    IsWritable (g :: gs) := by
  intro kind value hmem
  rcases List.mem_cons.mp hmem with heq | hmem
  · exact absurd heq.symm (h kind value)
  · exact hgs kind value hmem

theorem isWritable_append {gs hs : Agenda} (hgs : gs.IsWritable) (hhs : hs.IsWritable) :
    IsWritable (gs ++ hs) :=
  fun kind value hmem => (List.mem_append.mp hmem).elim (hgs kind value) (hhs kind value)

theorem isWritable_atom : IsWritable atom :=
  isWritable_cons nofun (isWritable_cons nofun isWritable_nil)

theorem isWritable_expression : IsWritable expression :=
  isWritable_append isWritable_atom
    (isWritable_cons nofun (isWritable_cons nofun isWritable_nil))

theorem isWritable_close (b : Bracketing) : IsWritable (close b) :=
  isWritable_exactly (Form.isWritable_brackets b).2.1 isWritable_nil

theorem isWritable_open (b : Bracketing) {gs : Agenda} (h : gs.IsWritable) :
    IsWritable (.demand (.exactly .punctuation b.opening) :: .items b :: gs) :=
  isWritable_exactly (Form.isWritable_brackets b).1 (isWritable_cons nofun h)

theorem isWritable_variableBody : IsWritable variableBody :=
  isWritable_cons nofun (isWritable_exactly (Terminal.isWritable_operator (by decide))
    (isWritable_cons nofun (isWritable_cons nofun isWritable_nil)))

theorem isWritable_keyword {word : String} {gs : Agenda} (hname : IsName word.toList)
    (hword : CharClass.isKeyword word = true) (h : gs.IsWritable) :
    IsWritable (.demand (.exactly .keyword word) :: gs) :=
  isWritable_exactly (Terminal.isWritable_keyword hname hword) h

theorem isWritable_function : IsWritable function := by
  have hblock : IsWritable block := isWritable_open .block isWritable_nil
  have harrow : (Terminal.operator "->").IsWritable := Terminal.isWritable_operator (by decide)
  have hresult := isWritable_exactly harrow
    (isWritable_cons (g := .demand .identifier) nofun hblock)
  exact isWritable_keyword (by decide) (by decide)
    (isWritable_cons nofun (isWritable_open .parameters hresult))

theorem isWritable_element (b : Bracketing) : IsWritable (element b) := by
  cases b with
  | arguments => exact isWritable_expression
  | parameters => exact isWritable_cons nofun isWritable_nil
  | block => exact isWritable_expression

end Agenda

/-- The tokens that a plan demands can be written. -/
theorem Goal.isWritable_of_plan {g : Goal} {u : Token} {plan : Agenda}
    (h : g.plan u = some plan) : plan.IsWritable := by
  have hbrackets := Form.isWritable_brackets
  cases g with
  | demand d => cases h
  | statements =>
      simp only [Goal.plan] at h
      split at h <;> cases h
      · exact Agenda.isWritable_nil
      · exact Agenda.isWritable_append Agenda.isWritable_expression
          (Agenda.isWritable_exactly (hbrackets .block).2.2
            (Agenda.isWritable_cons nofun Agenda.isWritable_nil))
  | links =>
      simp only [Goal.plan] at h
      split at h <;> cases h
      · exact Agenda.isWritable_exactly (isWritable_symbol _)
          (Agenda.isWritable_append Agenda.isWritable_atom
            (Agenda.isWritable_cons nofun Agenda.isWritable_nil))
      · exact Agenda.isWritable_nil
  | application =>
      simp only [Goal.plan] at h
      split at h <;> cases h
      · exact Agenda.isWritable_open .arguments Agenda.isWritable_nil
      · exact Agenda.isWritable_nil
  | primary =>
      simp only [Goal.plan] at h
      split at h
      · cases h
        exact Agenda.isWritable_exactly (hbrackets .arguments).1
          (Agenda.isWritable_append Agenda.isWritable_expression
            (Agenda.isWritable_close .arguments))
      split at h
      · cases h
        exact Agenda.isWritable_open .block Agenda.isWritable_nil
      split at h
      · cases h
        exact Agenda.isWritable_function
      split at h
      · cases h
        exact Agenda.isWritable_cons nofun Agenda.isWritable_nil
      · cases h
        exact Agenda.isWritable_cons nofun Agenda.isWritable_nil
  | definition =>
      cases h
      split
      · exact Agenda.isWritable_keyword (by decide) (by decide) Agenda.isWritable_variableBody
      · exact Agenda.isWritable_keyword (by decide) (by decide) Agenda.isWritable_variableBody
  | parameter =>
      simp only [Goal.plan] at h
      split at h <;> cases h
      · exact Agenda.isWritable_cons nofun Agenda.isWritable_nil
      · exact Agenda.isWritable_variableBody
  | value =>
      simp only [Goal.plan] at h
      split at h <;> cases h
      · exact Agenda.isWritable_exactly (isWritable_symbol .assign) Agenda.isWritable_expression
      · exact Agenda.isWritable_nil
  | items b =>
      simp only [Goal.plan] at h
      split at h <;> cases h
      · exact Agenda.isWritable_close b
      · exact Agenda.isWritable_append (Agenda.isWritable_element b)
          (Agenda.isWritable_cons nofun Agenda.isWritable_nil)
  | moreItems b =>
      simp only [Goal.plan] at h
      split at h <;> cases h
      · exact Agenda.isWritable_close b
      · exact Agenda.isWritable_exactly (hbrackets b).2.2
          (Agenda.isWritable_cons nofun Agenda.isWritable_nil)
  | nextItem b =>
      simp only [Goal.plan] at h
      split at h <;> cases h
      · exact Agenda.isWritable_close b
      · exact Agenda.isWritable_append (Agenda.isWritable_element b)
          (Agenda.isWritable_cons nofun Agenda.isWritable_nil)

/-- The goals that a run comes to can be completed if those can with which it begins. -/
theorem Run.completes {gs hs : Agenda} {ts : List Token} {s : TokenStream} (h : Run gs ts hs s)
    (hgs : ∀ g ∈ gs, g.Completes) : ∀ g ∈ hs, g.Completes := by
  induction h with
  | done => exact hgs
  | plan _ hplan _ ih =>
      refine ih (List.forall_mem_append.mpr ⟨fun g hg => ?_, (List.forall_mem_cons.mp hgs).2⟩)
      refine Goal.completes_of_exactly ?_
      rintro kind value rfl
      exact Goal.isWritable_of_plan hplan kind value hg
  | take _ _ ih => exact ih (List.forall_mem_cons.mp hgs).2

/-- Goals that can be completed one by one can be completed together. -/
theorem Agenda.exists_word {gs : Agenda} (h : ∀ g ∈ gs, g.Completes) :
    ∃ w, gs.Spells w ∧ ∀ x ∈ w, x.IsWritable := by
  induction gs with
  | nil => exact ⟨[], rfl, by simp⟩
  | cons g gs ih =>
      obtain ⟨⟨u, hu, huwritable⟩, hgs⟩ := List.forall_mem_cons.mp h
      obtain ⟨v, hv, hvwritable⟩ := ih hgs
      exact ⟨u ++ v, ⟨u, v, rfl, hu, hv⟩, List.forall_mem_append.mpr ⟨huwritable, hvwritable⟩⟩

/-- What the agenda of a program takes can be completed to statements, with terminals that can be
written. -/
theorem Run.exists_completion {gs : Agenda} {ts : List Token} {s : TokenStream}
    (h : Run [.statements] ts gs s) :
    ∃ w, Derives .statements (word ts ++ w) ∧ ∀ x ∈ w, x.IsWritable := by
  have hstatements : Goal.statements.Completes := ⟨[], .noStatements, by simp⟩
  obtain ⟨w, hw, hwritable⟩ :=
    Agenda.exists_word (h.completes (List.forall_mem_singleton.mpr hstatements))
  exact ⟨w, Agenda.spells_singleton.mp (h.spells hw), hwritable⟩

end ExprLang
