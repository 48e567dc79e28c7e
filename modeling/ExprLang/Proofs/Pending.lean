import ExprLang.Proofs.Grammar

set_option autoImplicit false

/-! # What may follow inside an expression

The grammar does not say whether an operator or a list of arguments belongs to the value of a
variable or to what is around the variable. The words that may follow inside an expression do not
depend on this: `Pending stage n w` says that `w` may complete an expression that has come to a
stage, inside the values of `n` variables that are all still open.

`Derives.pending` finds these words for every derived expression. The greedy choices are then
inclusions between the stages: arguments that are ahead can be taken at once
(`Pending.exists_arguments`), and behind an operator the innermost value can go on
(`Pending.start_of_operator`).
-/

namespace ExprLang

/-- Does the definition of a variable begin with this terminal? -/
def Terminal.IsQualifier (x : Terminal) : Prop := x = .keyword "const" ∨ x = .keyword "mut"

theorem Terminal.isQualifier_keyword {word : String} (h : word = "const" ∨ word = "mut") :
    (Terminal.keyword word).IsQualifier := by
  rcases h with rfl | rfl
  · exact .inl rfl
  · exact .inr rfl

/-- How far the innermost expression has come. -/
inductive Stage where
  /-- An atom is due. -/
  | start
  /-- Behind a primary, so it may be applied to arguments. -/
  | called
  /-- Behind an atom, so an operator may follow, or arguments for the whole chain. -/
  | linked
  /-- Behind all of the expression. -/
  | done

/-- The word may complete an expression at the stage, inside the values of `n` variables. -/
inductive Pending : Stage → Nat → List Terminal → Prop where
  | primary {n : Nat} {v w : List Terminal} : Derives .primary v →
      (∀ x ∈ v.head?, ¬ x.IsQualifier) → Pending .called n w → Pending .start n (v ++ w)
  | absent {n : Nat} {x : Terminal} {name type : String} {w : List Terminal} : x.IsQualifier →
      Pending .called n w →
      Pending .start n (x :: .identifier name :: .operator ":" :: .identifier type :: w)
  | value {n : Nat} {x : Terminal} {name type : String} {w : List Terminal} : x.IsQualifier →
      Pending .start (n + 1) w →
      Pending .start n (x :: .identifier name :: .operator ":" :: .identifier type ::
        .operator Operator.assign.symbol :: w)
  | arguments {n : Nat} {v w : List Terminal} : Derives (.list .arguments) v →
      Pending .linked n w → Pending .called n (v ++ w)
  | noArguments {n : Nat} {w : List Terminal} : Pending .linked n w → Pending .called n w
  | link {n : Nat} {op : Operator} {w : List Terminal} : Pending .start n w →
      Pending .linked n (.operator op.symbol :: w)
  | application {n : Nat} {v w : List Terminal} : Derives (.list .arguments) v →
      Pending .done n w → Pending .linked n (v ++ w)
  | noApplication {n : Nat} {w : List Terminal} : Pending .done n w → Pending .linked n w
  | out : Pending .done 0 []
  /-- The value of a variable is the end of a primary. -/
  | up {n : Nat} {w : List Terminal} : Pending .called n w → Pending .done (n + 1) w

/-! ## Derived words -/

/-- A word of the phrase leads from the stage before the phrase to the one behind it. -/
def Phrase.Leads : Phrase → List Terminal → Prop
  | .expression, v => ∀ n w, Pending .done n w → Pending .start n (v ++ w)
  | .links, v => ∀ n w, Pending .linked n w → Pending .linked n (v ++ w)
  | .application, v => ∀ n w, (Pending .linked n w → Pending .called n (v ++ w)) ∧
      (Pending .done n w → Pending .linked n (v ++ w))
  | .atom, v => ∀ n w, Pending .linked n w → Pending .start n (v ++ w)
  | .primary, v => ∀ n w, Pending .called n w → Pending .start n (v ++ w)
  | .variable, v => ∀ x n w, x.IsQualifier → Pending .called n w → Pending .start n (x :: (v ++ w))
  | _, _ => True

theorem not_isQualifier_of_isOperand {x : Terminal} (h : x.IsOperand) : ¬ x.IsQualifier := by
  cases h <;> simp [Terminal.IsQualifier, Terminal.keyword, Terminal.identifier]

theorem exists_of_derives_list {b : Bracketing} {v : List Terminal} (h : Derives (.list b) v) :
    ∃ w, v = b.openTerminal :: w := by
  cases h with
  | emptyList => exact ⟨_, rfl⟩
  | list => exact ⟨_, rfl⟩
  | listTrailing => exact ⟨_, rfl⟩

theorem Derives.leads {p : Phrase} {v : List Terminal} (h : Derives p v) : p.Leads v := by
  induction h with
  | expression _ _ _ ih₁ ih₂ ih₃ =>
      intro n w hw
      rw [List.append_assoc, List.append_assoc]
      exact ih₁ n _ (ih₂ n _ ((ih₃ n w).2 hw))
  | noLinks => exact fun n w hw => hw
  | links _ _ ih₁ ih₂ =>
      intro n w hw
      rw [List.cons_append, List.append_assoc]
      exact .link (ih₁ n _ (ih₂ n w hw))
  | noArguments => exact fun n w => ⟨.noArguments, .noApplication⟩
  | arguments hlist => exact fun n w => ⟨.arguments hlist, .application hlist⟩
  | atom _ _ ih₁ ih₂ =>
      intro n w hw
      rw [List.append_assoc]
      exact ih₁ n _ ((ih₂ n w).1 hw)
  | parens hexpression =>
      intro n w hw
      refine .primary (.parens hexpression) ?_ hw
      simp [Terminal.IsQualifier, Terminal.punctuation, Terminal.keyword]
  | block hlist =>
      intro n w hw
      refine .primary (.block hlist) ?_ hw
      obtain ⟨v, rfl⟩ := exists_of_derives_list hlist
      simp [Terminal.IsQualifier, Terminal.punctuation, Terminal.keyword,
        Bracketing.openTerminal]
  | function hlist hblock =>
      intro n w hw
      refine .primary (.function hlist hblock) ?_ hw
      simp [Terminal.IsQualifier, Terminal.keyword]
  | definition hword _ ih =>
      intro n w hw
      exact ih _ n w (Terminal.isQualifier_keyword hword) hw
  | operand hx =>
      intro n w hw
      refine .primary (.operand hx) ?_ hw
      simpa using not_isQualifier_of_isOperand hx
  | variableAbsent => exact fun x n w hx hw => .absent hx hw
  -- the value is an expression of its own, inside one more variable
  | variableValue _ ih => exact fun x n w hx hw => .value hx (ih (n + 1) w (.up hw))
  | _ => trivial

/-- A derived expression is complete by itself. -/
theorem Derives.pending {v : List Terminal} (h : Derives .expression v) : Pending .start 0 v := by
  have hleads := h.leads 0 [] .out
  rwa [List.append_nil] at hleads

/-! ## Greedy choices -/

namespace Pending

/-- With one more value open, the same words may follow. -/
theorem succ {stage : Stage} {n : Nat} {w : List Terminal} (h : Pending stage n w) :
    Pending stage (n + 1) w := by
  induction h with
  | primary hv hhead _ ih => exact .primary hv hhead ih
  | absent hx _ ih => exact .absent hx ih
  | value hx _ ih => exact .value hx ih
  | arguments hv _ ih => exact .arguments hv ih
  | noArguments _ ih => exact .noArguments ih
  | link _ ih => exact .link ih
  | application hv _ ih => exact .application hv ih
  | noApplication _ ih => exact .noApplication ih
  -- the value that is open in addition ends where the expression does
  | out => exact .up (.noArguments (.noApplication .out))
  | up _ ih => exact .up ih

/-- The stage behind arguments that are taken at a stage. -/
def behindArguments : Stage → Stage
  | .called => .linked
  | _ => .done

/-- If a bracket is ahead behind a primary or behind an atom, its arguments can be taken there. -/
theorem exists_arguments {stage : Stage} {n : Nat} {x : Terminal} {u : List Terminal}
    (h : Pending stage n (x :: u)) (hstage : stage ≠ .start)
    (hx : x = Bracketing.arguments.openTerminal) :
    ∃ v w, x :: u = v ++ w ∧ Derives (.list .arguments) v ∧
      Pending (behindArguments stage) n w := by
  generalize hword : x :: u = word at h
  induction h with
  | primary => exact absurd rfl hstage
  | absent => exact absurd rfl hstage
  | value => exact absurd rfl hstage
  | arguments hv hw => exact ⟨_, _, rfl, hv, hw⟩
  | noArguments _ ih =>
      obtain ⟨v, w, hsplit, hv, hw⟩ := ih (by simp) hword
      exact ⟨v, w, hsplit, hv, .noApplication hw⟩
  | link =>
      obtain ⟨hsign, -⟩ := List.cons.inj hword
      rw [hx] at hsign
      cases hsign
  | application hv hw => exact ⟨_, _, rfl, hv, hw⟩
  | noApplication _ ih => exact ih (by simp) hword
  | out => cases hword
  | up _ ih =>
      -- the arguments belong to something further out, but the innermost expression may have them
      obtain ⟨v, w, hsplit, hv, hw⟩ := ih (by simp) hword
      exact ⟨v, w, hsplit, hv, .up (.noArguments hw)⟩

/-- If an operator is ahead, the innermost expression can go on behind it. -/
theorem start_of_operator {stage : Stage} {n : Nat} {op : Operator} {u : List Terminal}
    (h : Pending stage n (.operator op.symbol :: u)) (hstage : stage ≠ .start) :
    Pending .start n u := by
  generalize hword : Terminal.operator op.symbol :: u = word at h
  have hbracket : ∀ v w, Derives (.list .arguments) v →
      Terminal.operator op.symbol :: u ≠ v ++ w := by
    intro v w hv hsplit
    obtain ⟨v, rfl⟩ := exists_of_derives_list hv
    cases (List.cons.inj hsplit).1
  induction h with
  | primary => exact absurd rfl hstage
  | absent => exact absurd rfl hstage
  | value => exact absurd rfl hstage
  | arguments hv => exact absurd hword (hbracket _ _ hv)
  | noArguments _ ih => exact ih (by simp) hword
  | link hw =>
      obtain ⟨-, rfl⟩ := List.cons.inj hword
      exact hw
  | application hv => exact absurd hword (hbracket _ _ hv)
  | noApplication _ ih => exact ih (by simp) hword
  | out => cases hword
  -- the operator belongs to something further out, so the value stays open a little longer
  | up _ ih => exact (ih (by simp) hword).succ

/-- Without a bracket ahead there are no arguments behind a primary. -/
theorem linked_of_called {n : Nat} {w : List Terminal} (h : Pending .called n w)
    (hhead : w.head? ≠ some Bracketing.arguments.openTerminal) : Pending .linked n w := by
  cases h with
  | arguments hv =>
      obtain ⟨v, rfl⟩ := exists_of_derives_list hv
      exact absurd rfl hhead
  | noArguments hw => exact hw

/-- Without a bracket and without an operator ahead the expression is over behind an atom. -/
theorem done_of_linked {n : Nat} {w : List Terminal} (h : Pending .linked n w)
    (hhead : w.head? ≠ some Bracketing.arguments.openTerminal)
    (hoperator : ∀ op : Operator, w.head? ≠ some (.operator op.symbol)) : Pending .done n w := by
  cases h with
  | link => exact absurd rfl (hoperator _)
  | application hv =>
      obtain ⟨v, rfl⟩ := exists_of_derives_list hv
      exact absurd rfl hhead
  | noApplication hw => exact hw

/-- Outside of all values nothing follows. -/
theorem eq_nil_of_done {w : List Terminal} (h : Pending .done 0 w) : w = [] := by
  cases h
  rfl

end Pending

end ExprLang
