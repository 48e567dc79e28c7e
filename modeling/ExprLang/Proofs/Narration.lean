import ExprLang.Proofs.Agenda
import Mathlib.Data.List.Chain

set_option autoImplicit false

/-! # What a log tells

A log tells the tokens that are read (`Log.tokens`), and among them the calls and the functions that
begin (`Log.productions`). `Recounts p log` says that the log tells the passage `p` of a text: a
tree, a list, a row of statements. It tells the tokens of each part in their order, and besides them
a call right behind the bracket of its arguments, a function right behind its name, and nothing
else.

So the calls and the functions of a tree are told once each, in the order of the text
(`Recounts.productions_eq`), and promptly (`Recounts.isPrompt`).
-/

namespace ExprLang

/-! ## Events -/

namespace Event

/-- What is recorded of an event: its level and its message. -/
def record (e : Event) : String × String := (e.level, e.message)

/-- The token that is read. -/
def token? : Event → Option Token
  | .read t => some t
  | _ => none

/-- Does a call or a function begin? -/
def isProduction : Event → Bool
  | .call _ => true
  | .function _ _ => true
  | _ => false

/-- Is a program complete? -/
def isProgram : Event → Bool
  | .program _ => true
  | _ => false

/-- The first event may come right before the second one: before a call the bracket of its arguments
is read, and before a function its name. -/
def Prompts (before : Event) : Event → Prop
  | .call _ => ∃ u, before = .read u ∧ u.isPunctuation Bracketing.arguments.opening = true
  | .function name _ => ∃ u, before = .read u ∧ u.kind = .identifier ∧ u.value = name
  | _ => True

theorem prompts_of_isProduction {before e : Event} (h : e.isProduction = false) :
    before.Prompts e := by
  cases e with
  | call => cases h
  | function => cases h
  | _ => trivial

end Event

namespace Log

/-- The tokens that are told. -/
def tokens (log : List Event) : List Token := log.filterMap Event.token?

/-- The calls and the functions that are told. -/
def productions (log : List Event) : List Event := log.filter Event.isProduction

/-- No complete program is told. -/
def IsOpen (log : List Event) : Prop := ∀ e ∈ log, e.isProgram = false

/-- Each call and each function is told right behind the token that shows it. -/
def IsPrompt (log : List Event) : Prop :=
  (∀ e ∈ log.head?, e.isProduction = false) ∧ log.IsChain Event.Prompts

variable {log log' : List Event}

theorem tokens_append : tokens (log ++ log') = tokens log ++ tokens log' := List.filterMap_append

@[simp] theorem tokens_nil : tokens [] = [] := rfl

@[simp] theorem tokens_read (t : Token) (log : List Event) :
    tokens (.read t :: log) = t :: tokens log := rfl

theorem productions_append : productions (log ++ log') = productions log ++ productions log' :=
  List.filter_append ..

@[simp] theorem productions_nil : productions [] = [] := rfl

@[simp] theorem productions_read (t : Token) (log : List Event) :
    productions (.read t :: log) = productions log := rfl

@[simp] theorem productions_call (l : Location) (log : List Event) :
    productions (.call l :: log) = .call l :: productions log := rfl

@[simp] theorem productions_function (name : String) (l : Location) (log : List Event) :
    productions (.function name l :: log) = .function name l :: productions log := rfl

theorem IsOpen.append (h : IsOpen log) (h' : IsOpen log') : IsOpen (log ++ log') :=
  List.forall_mem_append.mpr ⟨h, h'⟩

theorem isOpen_nil : IsOpen [] := nofun

theorem isOpen_cons {e : Event} (he : e.isProgram = false) (h : IsOpen log) : IsOpen (e :: log) :=
  List.forall_mem_cons.mpr ⟨he, h⟩

theorem isPrompt_nil : IsPrompt [] := ⟨nofun, .nil⟩

theorem IsPrompt.append (h : IsPrompt log) (h' : IsPrompt log') : IsPrompt (log ++ log') := by
  refine ⟨fun e he => ?_, List.isChain_append.mpr ⟨h.2, h'.2, fun _ _ e he => ?_⟩⟩
  · cases log with
    | nil => exact h'.1 e he
    | cons x log => exact h.1 e he
  · exact Event.prompts_of_isProduction (h'.1 e he)

/-- A token may be read at any time. -/
theorem IsPrompt.read (t : Token) (h : IsPrompt log) : IsPrompt (.read t :: log) := by
  have hone : IsPrompt [.read t] := ⟨by simp [Event.isProduction], .singleton _⟩
  exact hone.append h

theorem IsPrompt.call {u : Token} (hu : u.isPunctuation Bracketing.arguments.opening = true)
    (l : Location) (h : IsPrompt log) : IsPrompt (.read u :: .call l :: log) := by
  have hcall : IsPrompt [.read u, .call l] :=
    ⟨by simp [Event.isProduction], .cons_cons ⟨u, rfl, hu⟩ (.singleton _)⟩
  exact hcall.append h

theorem IsPrompt.function {u : Token} (hu : u.kind = .identifier) (l : Location)
    (h : IsPrompt log) : IsPrompt (.read u :: .function u.value l :: log) := by
  have hfunction : IsPrompt [.read u, .function u.value l] :=
    ⟨by simp [Event.isProduction], .cons_cons ⟨u, rfl, hu, rfl⟩ (.singleton _)⟩
  exact hfunction.append h

end Log

/-! ## Calls and functions of a tree -/

namespace Tree

mutual

/-- The calls and the functions of the tree, in the order in which they begin in the text: a call
begins behind its callee. -/
def productions : Tree → List Event
  | .operation _ left right _ => left.productions ++ right.productions
  | .call callee arguments l => callee.productions ++ .call l :: productionsAll arguments
  | .definition _ _ _ value _ => value.productions
  | .function name _ parameters body l =>
    .function name l :: (productionsAll parameters ++ body.productions)
  | .block statements _ => productionsAll statements
  | _ => []

/-- The calls and the functions of the trees of a list. -/
def productionsAll : List Tree → List Event
  | [] => []
  | x :: xs => x.productions ++ productionsAll xs

end

end Tree

/-! ## Passages -/

/-- What a log may tell. -/
inductive Passage where
  | tree (t : Tree)
  | block (t : Tree)
  /-- A variable with the word in front of it. -/
  | definition (t : Tree)
  /-- A variable from its name on. -/
  | variable (t : Tree)
  | parameter (t : Tree)
  /-- A list from behind its opening bracket, or from behind an element. -/
  | items (b : Bracketing) (xs : List Tree)
  | moreItems (b : Bracketing) (xs : List Tree)
  /-- Statements and the end. -/
  | statements (xs : List Tree)

namespace Passage

/-- An element of a list. -/
def element : Bracketing → Tree → Passage
  | .arguments, x => .tree x
  | .parameters, x => .parameter x
  | .block, x => .tree x

/-- The calls and the functions of a passage. -/
def productions : Passage → List Event
  | .tree t => t.productions
  | .block t => t.productions
  | .definition t => t.productions
  | .variable t => t.productions
  | .parameter t => t.productions
  | .items _ xs => Tree.productionsAll xs
  | .moreItems _ xs => Tree.productionsAll xs
  | .statements xs => Tree.productionsAll xs

theorem productions_element (b : Bracketing) (x : Tree) :
    (element b x).productions = x.productions := by
  cases b <;> rfl

end Passage

/-- The log tells the passage. -/
inductive Recounts : Passage → List Event → Prop where
  | operand {u : Token} {t : Tree} : u.operand = .ok t → Recounts (.tree t) [.read u]
  | parens {u v : Token} {t : Tree} {log : List Event} : u.isPunctuation "(" = true →
      Recounts (.tree t) log → v.isPunctuation ")" = true →
      Recounts (.tree t) (.read u :: (log ++ [.read v]))
  | operation {op : Operator} {left right : Tree} {u : Token} {log log' : List Event} :
      Recounts (.tree left) log → u.operator? = some op → Recounts (.tree right) log' →
      Recounts (.tree (.operation op left right u.location)) (log ++ .read u :: log')
  | call {callee : Tree} {xs : List Tree} {u : Token} {log log' : List Event} :
      Recounts (.tree callee) log → u.isPunctuation Bracketing.arguments.opening = true →
      Recounts (.items .arguments xs) log' →
      Recounts (.tree (.call callee xs callee.location))
        (log ++ .read u :: .call callee.location :: log')
  | treeBlock {t : Tree} {log : List Event} : Recounts (.block t) log → Recounts (.tree t) log
  | block {xs : List Tree} {u : Token} {log : List Event} :
      u.isPunctuation Bracketing.block.opening = true → Recounts (.items .block xs) log →
      Recounts (.block (.block xs u.location)) (.read u :: log)
  | function {ps : List Tree} {body : Tree} {word name bracket arrow result : Token}
      {log log' : List Event} : word.isKeyword "def" = true → name.kind = .identifier →
      bracket.isPunctuation Bracketing.parameters.opening = true →
      Recounts (.items .parameters ps) log → arrow.isOperator "->" = true →
      result.kind = .identifier → Recounts (.block body) log' →
      Recounts (.tree (.function name.value result.value ps body word.location))
        (.read word :: .read name :: .function name.value word.location :: .read bracket ::
          (log ++ .read arrow :: .read result :: log'))
  | treeDefinition {t : Tree} {log : List Event} : Recounts (.definition t) log →
      Recounts (.tree t) log
  | definition {t : Tree} {word : Token} {log : List Event} :
      word.isKeyword "const" = true ∨ word.isKeyword "mut" = true →
      Recounts (.variable t) log → Recounts (.definition t) (.read word :: log)
  | variableAbsent {isConst : Bool} {name colon type : Token} {l m : Location} :
      name.kind = .identifier → colon.isOperator ":" = true → type.kind = .identifier →
      Recounts (.variable (.definition name.value type.value isConst (.absent m) l))
        [.read name, .read colon, .read type]
  | variableValue {isConst : Bool} {value : Tree} {name colon type sign : Token} {l : Location}
      {log : List Event} : name.kind = .identifier → colon.isOperator ":" = true →
      type.kind = .identifier → sign.isOperator Operator.assign.symbol = true →
      Recounts (.tree value) log →
      Recounts (.variable (.definition name.value type.value isConst value l))
        (.read name :: .read colon :: .read type :: .read sign :: log)
  | parameterDefinition {t : Tree} {log : List Event} : Recounts (.definition t) log →
      Recounts (.parameter t) log
  | parameterVariable {t : Tree} {log : List Event} : Recounts (.variable t) log →
      Recounts (.parameter t) log
  | noItems {b : Bracketing} {u : Token} : u.isPunctuation b.closing = true →
      Recounts (.items b []) [.read u]
  | items {b : Bracketing} {x : Tree} {xs : List Tree} {log log' : List Event} :
      Recounts (.element b x) log → Recounts (.moreItems b xs) log' →
      Recounts (.items b (x :: xs)) (log ++ log')
  | noMoreItems {b : Bracketing} {u : Token} : u.isPunctuation b.closing = true →
      Recounts (.moreItems b []) [.read u]
  | trailing {b : Bracketing} {u v : Token} : u.isPunctuation b.separator = true →
      v.isPunctuation b.closing = true → Recounts (.moreItems b []) [.read u, .read v]
  | moreItems {b : Bracketing} {x : Tree} {xs : List Tree} {u : Token} {log log' : List Event} :
      u.isPunctuation b.separator = true → Recounts (.element b x) log →
      Recounts (.moreItems b xs) log' →
      Recounts (.moreItems b (x :: xs)) (.read u :: (log ++ log'))
  | noStatements {u : Token} : u.isEof = true → Recounts (.statements []) [.read u]
  | statements {x : Tree} {xs : List Tree} {u : Token} {log log' : List Event} :
      Recounts (.tree x) log → u.isPunctuation ";" = true → Recounts (.statements xs) log' →
      Recounts (.statements (x :: xs)) (log ++ .read u :: log')

/-- An operand of one token is neither a call nor a function. -/
theorem Token.productions_of_operand {u : Token} {t : Tree} (h : u.operand = .ok t) :
    t.productions = [] := by
  obtain ⟨kind, value, l⟩ := u
  cases kind with
  | int =>
      simp only [operand] at h
      split at h <;> cases h
      rfl
  | float => cases h; rfl
  | char =>
      simp only [operand] at h
      split at h <;> cases h
      rfl
  | string => cases h; rfl
  | identifier => cases h; rfl
  | keyword =>
      simp only [operand] at h
      split at h
      · cases h; rfl
      · split at h <;> cases h
        rfl
  | operator => cases h
  | punctuation => cases h
  | eof => cases h

namespace Recounts

variable {p : Passage} {log : List Event}

/-- The calls and the functions that are told are those of the passage, in their order. -/
theorem productions_eq (h : Recounts p log) : Log.productions log = p.productions := by
  induction h with
  | operand hu => exact (Token.productions_of_operand hu).symm
  | parens _ _ _ ih => simp [Log.productions_append, ih, Passage.productions]
  | operation _ _ _ ih ih' =>
      simp [Log.productions_append, ih, ih', Passage.productions, Tree.productions]
  | call _ _ _ ih ih' =>
      simp [Log.productions_append, ih, ih', Passage.productions, Tree.productions]
  | treeBlock _ ih => exact ih
  | block _ _ ih => simp [ih, Passage.productions, Tree.productions]
  | function _ _ _ _ _ _ _ ih ih' =>
      simp [Log.productions_append, ih, ih', Passage.productions, Tree.productions]
  | treeDefinition _ ih => exact ih
  | definition _ _ ih => exact ih
  | variableAbsent => rfl
  | variableValue _ _ _ _ _ ih => exact ih
  | parameterDefinition _ ih => exact ih
  | parameterVariable _ ih => exact ih
  | noItems => rfl
  | items _ _ ih ih' =>
      rw [Log.productions_append, ih, ih', Passage.productions_element]
      rfl
  | noMoreItems => rfl
  | trailing => rfl
  | moreItems _ _ _ ih ih' =>
      rw [Log.productions_read, Log.productions_append, ih, ih', Passage.productions_element]
      rfl
  | noStatements => rfl
  | statements _ _ _ ih ih' =>
      rw [Log.productions_append, Log.productions_read, ih, ih']
      rfl

/-- Each of them is told promptly. -/
theorem isPrompt (h : Recounts p log) : Log.IsPrompt log := by
  induction h with
  | operand => exact Log.isPrompt_nil.read _
  | parens _ _ _ ih => exact (ih.append (Log.isPrompt_nil.read _)).read _
  | operation _ _ _ ih ih' => exact ih.append (ih'.read _)
  | call _ hu _ ih ih' => exact ih.append (ih'.call hu _)
  | treeBlock _ ih => exact ih
  | block _ _ ih => exact ih.read _
  | function _ hname _ _ _ _ _ ih ih' =>
      exact (((ih.append ((ih'.read _).read _)).read _).function hname _).read _
  | treeDefinition _ ih => exact ih
  | definition _ _ ih => exact ih.read _
  | variableAbsent => exact ((Log.isPrompt_nil.read _).read _).read _
  | variableValue _ _ _ _ _ ih => exact (((ih.read _).read _).read _).read _
  | parameterDefinition _ ih => exact ih
  | parameterVariable _ ih => exact ih
  | noItems => exact Log.isPrompt_nil.read _
  | items _ _ ih ih' => exact ih.append ih'
  | noMoreItems => exact Log.isPrompt_nil.read _
  | trailing => exact (Log.isPrompt_nil.read _).read _
  | moreItems _ _ _ ih ih' => exact (ih.append ih').read _
  | noStatements => exact Log.isPrompt_nil.read _
  | statements _ _ _ ih ih' => exact ih.append (ih'.read _)

/-- The end is told last. -/
theorem exists_end {xs : List Tree} (h : Recounts (.statements xs) log) :
    ∃ front u, log = front ++ [.read u] := by
  induction xs generalizing log with
  | nil =>
      cases h with
      | noStatements => exact ⟨[], _, rfl⟩
  | cons x xs ih =>
      cases h with
      | @statements _ _ v log₁ _ _ _ hxs =>
          obtain ⟨front, u, rfl⟩ := ih hxs
          exact ⟨log₁ ++ .read v :: front, u, by simp⟩

end Recounts

end ExprLang
