import ExprLang.Proofs.Grammar

set_option autoImplicit false

/-! # Parts of phrases

Where a phrase stands in the words of another one. `Phrase.Part p v q w` is one step of this: a rule
for `p` has `q` on its right side, and `v` and `w` are words of what is around it. `Phrase.Within`
is any number of steps. As the grammar is context-free, a part can be replaced by every word of its
phrase (`Phrase.Within.derives`).

A list is read from its opening bracket on (`Bracketing.Begins`) and goes on to its closing bracket
(`Bracketing.Completes`). In between there are three kinds of places: behind the opening bracket,
behind an element and behind a separator.
-/

namespace ExprLang

namespace Phrase

/-- A rule of the grammar derives `v ++ x ++ w` from `p` for every word `x` of `q`. -/
inductive Part : Phrase → List Terminal → Phrase → List Terminal → Prop where
  | statement {w : List Terminal} : Derives .statements w →
      Part .statements [] .expression (.punctuation ";" :: w)
  | laterStatements {v : List Terminal} : Derives .expression v →
      Part .statements (v ++ [.punctuation ";"]) .statements []
  | firstAtom {v w : List Terminal} : Derives .links v → Derives .application w →
      Part .expression [] .atom (v ++ w)
  | links {u w : List Terminal} : Derives .atom u → Derives .application w →
      Part .expression u .links w
  | wholeApplication {u v : List Terminal} : Derives .atom u → Derives .links v →
      Part .expression (u ++ v) .application []
  | linkedAtom {op : Operator} {w : List Terminal} : Derives .links w →
      Part .links [.operator op.symbol] .atom w
  | laterLinks {op : Operator} {v : List Terminal} : Derives .atom v →
      Part .links (.operator op.symbol :: v) .links []
  | arguments : Part .application [] (.list .arguments) []
  | primary {w : List Terminal} : Derives .application w → Part .atom [] .primary w
  | atomApplication {v : List Terminal} : Derives .primary v → Part .atom v .application []
  | parens : Part .primary [.punctuation "("] .expression [.punctuation ")"]
  | block : Part .primary [] (.list .block) []
  | parameters {name result : String} {w : List Terminal} : Derives (.list .block) w →
      Part .primary [.keyword "def", .identifier name] (.list .parameters)
        (.operator "->" :: .identifier result :: w)
  | body {name result : String} {v : List Terminal} : Derives (.list .parameters) v →
      Part .primary (.keyword "def" :: .identifier name ::
        (v ++ [.operator "->", .identifier result])) (.list .block) []
  | definition {word : String} : word = "const" ∨ word = "mut" →
      Part .primary [.keyword word] .variable []
  | row {b : Bracketing} : Part (.list b) [b.openTerminal] (.row b) [b.closeTerminal]
  | rowTrailing {b : Bracketing} :
      Part (.list b) [b.openTerminal] (.row b) [b.separatorTerminal, b.closeTerminal]
  | single {b : Bracketing} : Part (.row b) [] (.element b) []
  | earlierElements {b : Bracketing} {w : List Terminal} : Derives (.element b) w →
      Part (.row b) [] (.row b) (b.separatorTerminal :: w)
  | lastElement {b : Bracketing} {v : List Terminal} : Derives (.row b) v →
      Part (.row b) (v ++ [b.separatorTerminal]) (.element b) []
  | argument : Part (.element .arguments) [] .expression []
  | formal : Part (.element .parameters) [] .parameter []
  | blockStatement : Part (.element .block) [] .expression []
  | parameterVariable : Part .parameter [] .variable []
  | parameterDefinition {word : String} : word = "const" ∨ word = "mut" →
      Part .parameter [.keyword word] .variable []
  | value {name type : String} : Part .variable [.identifier name, .operator ":",
      .identifier type, .operator Operator.assign.symbol] .expression []

/-- The phrase `q` stands in a word of `p`, between `v` and `w`. -/
inductive Within (q : Phrase) : Phrase → List Terminal → List Terminal → Prop where
  | here : Within q q [] []
  | inside {p r : Phrase} {u v w x : List Terminal} : Part p u r x → Within q r v w →
      Within q p (u ++ v) (w ++ x)

/-- A rule does not look at how its parts are derived. -/
theorem Part.derives {p q : Phrase} {v w x : List Terminal} (h : Part p v q w)
    (hx : Derives q x) : Derives p (v ++ (x ++ w)) := by
  cases h with
  | statement hw => exact .statements hx hw
  | laterStatements hv => simpa using Derives.statements hv hx
  | firstAtom hv hw => simpa using Derives.expression hx hv hw
  | links hu hw => exact .expression hu hx hw
  | wholeApplication hu hv => simpa using Derives.expression hu hv hx
  | linkedAtom hw => simpa using Derives.links hx hw
  | laterLinks hv => simpa using Derives.links hv hx
  | arguments => simpa using Derives.arguments hx
  | primary hw => simpa using Derives.atom hx hw
  | atomApplication hv => simpa using Derives.atom hv hx
  | parens => exact .parens hx
  | block => simpa using Derives.block hx
  | parameters hw => exact .function hx hw
  | body hv => simpa using Derives.function hv hx
  | definition hword => simpa using Derives.definition hword hx
  | row => exact .list hx
  | rowTrailing => exact .listTrailing hx
  | single => simpa using Derives.single hx
  | earlierElements hw => exact .row hx hw
  | lastElement hv => simpa using Derives.row hv hx
  | argument => simpa using Derives.argument hx
  | formal => simpa using Derives.formal hx
  | blockStatement => simpa using Derives.statement hx
  | parameterVariable => simpa using Derives.parameterVariable hx
  | parameterDefinition hword => simpa using Derives.parameterDefinition hword hx
  | value => simpa using Derives.variableValue hx

/-- A phrase in a word can be replaced by every word that it derives. -/
theorem Within.derives {p q : Phrase} {v w x : List Terminal} (h : Within q p v w)
    (hx : Derives q x) : Derives p (v ++ (x ++ w)) := by
  induction h with
  | here => simpa using hx
  | inside hpart _ ih => simpa only [List.append_assoc] using hpart.derives ih

end Phrase

/-! ## Places in a list -/

/-- A place in a list in brackets. -/
inductive Place where
  /-- Behind the opening bracket. -/
  | opening
  /-- Behind an element. -/
  | element
  /-- Behind a separator. -/
  | separator
  deriving DecidableEq, Repr

namespace Bracketing

variable {b : Bracketing}

/-- A list begins with these terminals, which go up to such a place. -/
inductive Begins (b : Bracketing) : Place → List Terminal → Prop where
  | opening : Begins b .opening [b.openTerminal]
  | element {place : Place} {v w : List Terminal} : place ≠ .element → Begins b place v →
      Derives (.element b) w → Begins b .element (v ++ w)
  | separator {v : List Terminal} : Begins b .element v →
      Begins b .separator (v ++ [b.separatorTerminal])

/-- From such a place a list goes on with these terminals, and is over. -/
inductive Completes (b : Bracketing) : Place → List Terminal → Prop where
  | closing {place : Place} : Completes b place [b.closeTerminal]
  | element {place : Place} {v w : List Terminal} : place ≠ .element →
      Derives (.element b) v → Completes b .element w → Completes b place (v ++ w)
  | separator {w : List Terminal} : Completes b .separator w →
      Completes b .element (b.separatorTerminal :: w)

/-- What is in front of a place, as the grammar has it. -/
theorem Begins.exists_row {place : Place} {v : List Terminal} (h : b.Begins place v) :
    match place with
    | .opening => v = [b.openTerminal]
    | .element => ∃ w, Derives (.row b) w ∧ v = b.openTerminal :: w
    | .separator =>
      ∃ w, Derives (.row b) w ∧ v = b.openTerminal :: (w ++ [b.separatorTerminal]) := by
  induction h with
  | opening => rfl
  | @element before v w hplace _ hw ih =>
      cases before with
      | opening =>
          obtain rfl : v = [b.openTerminal] := ih
          exact ⟨w, .single hw, rfl⟩
      | element => exact absurd rfl hplace
      | separator =>
          obtain ⟨u, hu, rfl⟩ := ih
          exact ⟨_, .row hu hw, by simp⟩
  | separator _ ih =>
      obtain ⟨w, hw, rfl⟩ := ih
      exact ⟨w, hw, rfl⟩

/-- A list falls apart at each of its places. -/
theorem Begins.derives {place : Place} {v w : List Terminal} (hv : b.Begins place v)
    (hw : b.Completes place w) : Derives (.list b) (v ++ w) := by
  induction hw generalizing v with
  | @closing before =>
      have hrow := hv.exists_row
      cases before with
      | opening =>
          obtain rfl : v = [b.openTerminal] := hrow
          exact .emptyList
      | element =>
          obtain ⟨u, hu, rfl⟩ := hrow
          exact .list hu
      | separator =>
          obtain ⟨u, hu, rfl⟩ := hrow
          simpa using Derives.listTrailing hu
  | element hplace helement _ ih =>
      rw [← List.append_assoc]
      exact ih (.element hplace hv helement)
  | separator _ ih =>
      have hlist := ih (.separator hv)
      rwa [List.append_assoc] at hlist

end Bracketing

end ExprLang
