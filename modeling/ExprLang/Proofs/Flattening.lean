import ExprLang.Proofs.Agreement
import Mathlib.Data.List.Forall2

set_option autoImplicit false

/-! # Trees and the tokens they come from

`Tree.items` reads a tree in the order of the text, as the tokens that mean something: all but the
punctuation, the word `mut` and the end. `Tree.marks` says in addition where the tree is: each of
its items stands at a location or at none, and between the items there are places for the brackets
of blocks, for the word `mut` and for the value that a variable has not. `Spelled ms ts` says that
the tokens `ts` have these items at these places, one by one.

The parser loses, repeats, moves and misplaces nothing: the tokens of a program spell the marks of
its tree (`parse_keeps_every_token`). For the parts of a program the same is an induction over the
rules of `Parses`, from the end of the text to its beginning (`Construct.Marked`).
-/

namespace ExprLang

open Numeral (Binary64 Decimal ofDigits)

/-! ## Items -/

/-- A token as a tree tells it. -/
inductive Item where
  | exactly (kind : Token.Kind) (value : String)
  | int (value : Int)
  | float (value : Binary64)

namespace Item

/-- The token is the one that is told. Numbers are told by their values. -/
def Denotes : Item → Token → Prop
  | exactly kind value, t => t.kind = kind ∧ t.value = value
  | int value, t => t.kind = .int ∧ (ofDigits t.value.toList : Int) = value
  | float value, t => t.kind = .float ∧ Binary64.ofDecimal (Decimal.ofText t.value.toList) = value

def keyword (word : String) : Item := exactly .keyword word

def identifier (name : String) : Item := exactly .identifier name

def operator (symbol : String) : Item := exactly .operator symbol

end Item

/-- Does the token show in a tree? -/
def Token.isSignificant (t : Token) : Bool :=
  !(t.kind == .punctuation || t.isKeyword "mut" || t.isEof)

namespace Tree

mutual

/-- The tokens that show in the tree, in the order of the text. -/
def items : Tree → List Item
  | .absent _ => []
  | .bool value _ => [.keyword (if value then "true" else "false")]
  | .char value _ => [.exactly .char (String.singleton value)]
  | .int value _ => [.int value]
  | .float value _ => [.float value]
  | .string value _ => [.exactly .string value]
  | .reference name _ => [.identifier name]
  | .operation op left right _ => left.items ++ .operator op.symbol :: right.items
  | .call callee arguments _ => callee.items ++ itemsAll arguments
  | .definition name type isConst value _ =>
    (if isConst then [.keyword "const"] else []) ++
      .identifier name :: .operator ":" :: .identifier type ::
        match value with
        | .absent _ => []
        | _ => .operator "=" :: value.items
  | .function name result parameters body _ =>
    .keyword "def" :: .identifier name :: (itemsAll parameters ++
      .operator "->" :: .identifier result :: body.items)
  | .block statements _ => itemsAll statements

/-- The tokens that show in the trees of a list. -/
def itemsAll : List Tree → List Item
  | [] => []
  | x :: xs => x.items ++ itemsAll xs

end

end Tree

/-! ## Marks -/

/-- Something in a tree that has a place among the tokens. -/
inductive Mark where
  /-- A token, which may be where a node is. -/
  | item (x : Item) (l : Option Location)
  /-- The name of a variable that is not constant, and where the variable is. -/
  | variable (name : String) (isParameter : Bool) (l : Location)
  /-- The type of a variable without a value, and where the value is that it has not. -/
  | valueless (type : String) (l : Location)
  /-- The bracket of a block, which is where the block is. -/
  | block (l : Location)

/-- The token that shows in the tree, if the mark is one of a token. -/
def Mark.items : Mark → List Item
  | .item x _ => [x]
  | .variable name _ _ => [.identifier name]
  | .valueless type _ => [.identifier type]
  | .block _ => []

namespace Tree

mutual

/-- The marks of the tree in the order of the text. A variable that is a parameter may be told by
its name alone. A call has no mark of its own. -/
def marks (isParameter : Bool) : Tree → List Mark
  | .absent _ => []
  | .bool value l => [.item (.keyword (if value then "true" else "false")) (some l)]
  | .char value l => [.item (.exactly .char (String.singleton value)) (some l)]
  | .int value l => [.item (.int value) (some l)]
  | .float value l => [.item (.float value) (some l)]
  | .string value l => [.item (.exactly .string value) (some l)]
  | .reference name l => [.item (.identifier name) (some l)]
  | .operation op left right l =>
    left.marks false ++ .item (.operator op.symbol) (some l) :: right.marks false
  | .call callee arguments _ => callee.marks false ++ marksAll false arguments
  | .definition name type isConst value l =>
    (if isConst then [.item (.keyword "const") (some l), .item (.identifier name) none]
      else [.variable name isParameter l]) ++
      .item (.operator ":") none ::
        match value with
        | .absent m => [.valueless type m]
        | _ => .item (.identifier type) none :: .item (.operator "=") none :: value.marks false
  | .function name result parameters body l =>
    .item (.keyword "def") (some l) :: .item (.identifier name) none ::
      (marksAll true parameters ++
        .item (.operator "->") none :: .item (.identifier result) none :: body.marks false)
  | .block statements l => .block l :: marksAll false statements

/-- The marks of the trees of a list. -/
def marksAll (areParameters : Bool) : List Tree → List Mark
  | [] => []
  | x :: xs => x.marks areParameters ++ marksAll areParameters xs

end

mutual

/-- The marks of tokens are the tokens that show in the tree. -/
theorem items_of_marks (isParameter : Bool) (t : Tree) :
    (t.marks isParameter).flatMap Mark.items = t.items := by
  cases t with
  | absent l => rfl
  | bool value l => rfl
  | char value l => rfl
  | int value l => rfl
  | float value l => rfl
  | string value l => rfl
  | reference name l => rfl
  | operation op left right l =>
      rw [marks, items, List.flatMap_append, List.flatMap_cons, items_of_marks false left,
        items_of_marks false right]
      rfl
  | call callee arguments l =>
      rw [marks, items, List.flatMap_append, items_of_marks false callee,
        items_of_marksAll false arguments]
  | definition name type isConst value l =>
      have hvalue := items_of_marks false value
      cases isConst <;> cases value <;> simp_all [marks, items, Mark.items]
  | function name result parameters body l =>
      rw [marks, items]
      simp only [List.flatMap_cons, List.flatMap_append, items_of_marksAll true parameters,
        items_of_marks false body, Mark.items, List.singleton_append]
  | block statements l =>
      rw [marks, items, List.flatMap_cons, items_of_marksAll false statements]
      rfl

theorem items_of_marksAll (areParameters : Bool) (ts : List Tree) :
    (marksAll areParameters ts).flatMap Mark.items = itemsAll ts := by
  cases ts with
  | nil => rfl
  | cons t ts =>
      rw [marksAll, itemsAll, List.flatMap_append, items_of_marks areParameters t,
        items_of_marksAll areParameters ts]

end

end Tree

/-! ## Tokens that spell marks -/

/-- The tokens have the marks at their places, one by one, up to the end token. Only punctuation
that opens no block is not told by a mark. -/
inductive Spelled : List Mark → List Token → Prop where
  | nil {l : Location} : Spelled [] [.eof l]
  | skip {ms : List Mark} {ts : List Token} {t : Token} : t.kind = .punctuation →
      t.value ≠ Bracketing.block.opening → Spelled ms ts → Spelled ms (t :: ts)
  | item {x : Item} {l : Option Location} {ms : List Mark} {ts : List Token} {t : Token} :
      x.Denotes t → t.isSignificant = true → (∀ m ∈ l, t.location = m) → Spelled ms ts →
      Spelled (.item x l :: ms) (t :: ts)
  /-- A variable is where the word in front of its name is. -/
  | qualified {isParameter : Bool} {ms : List Mark} {ts : List Token} {word name : Token} :
      word.isKeyword "mut" = true → name.kind = .identifier → Spelled ms ts →
      Spelled (.variable name.value isParameter word.location :: ms) (word :: name :: ts)
  /-- A parameter without such a word is where its name is. -/
  | unqualified {ms : List Mark} {ts : List Token} {name : Token} : name.kind = .identifier →
      Spelled ms ts → Spelled (.variable name.value true name.location :: ms) (name :: ts)
  /-- What is absent is where the token behind the type is. -/
  | valueless {ms : List Mark} {ts : List Token} {type u : Token} : type.kind = .identifier →
      Spelled ms (u :: ts) → Spelled (.valueless type.value u.location :: ms) (type :: u :: ts)
  | block {ms : List Mark} {ts : List Token} {t : Token} :
      t.isPunctuation Bracketing.block.opening = true → Spelled ms ts →
      Spelled (.block t.location :: ms) (t :: ts)

namespace Token

theorem isSignificant_of_kind {t : Token} (hpunctuation : t.kind ≠ .punctuation)
    (hkeyword : t.kind ≠ .keyword) (heof : t.kind ≠ .eof) : t.isSignificant = true := by
  simp [isSignificant, isKeyword, is, isEof, hpunctuation, hkeyword, heof]

theorem isSignificant_of_isKeyword {t : Token} {word : String} (h : t.isKeyword word = true)
    (hword : word ≠ "mut") : t.isSignificant = true := by
  obtain ⟨hkind, rfl⟩ := is_iff.mp h
  simp [isSignificant, isKeyword, is, isEof, hkind, hword]

theorem isSignificant_of_identifier {t : Token} (h : t.kind = .identifier) :
    t.isSignificant = true :=
  isSignificant_of_kind (by simp [h]) (by simp [h]) (by simp [h])

theorem isSignificant_of_isOperator {t : Token} {symbol : String}
    (h : t.isOperator symbol = true) : t.isSignificant = true := by
  obtain ⟨hkind, -⟩ := is_iff.mp h
  exact isSignificant_of_kind (by simp [hkind]) (by simp [hkind]) (by simp [hkind])

theorem isSignificant_of_operand {t : Token} {e : Tree} (h : t.operand = .ok e) :
    t.isSignificant = true := by
  obtain ⟨heof, -, hpunctuation⟩ := kind_of_operand h
  have hmut : t.isKeyword "mut" = false := isKeyword_of_operand h (by decide) (by decide)
  simp [isSignificant, hmut, isEof, heof, hpunctuation]

end Token

/-- The items of the marks are the tokens that show in a tree, one by one. -/
theorem Spelled.denotes {ms : List Mark} {ts : List Token} (h : Spelled ms ts) :
    List.Forall₂ Item.Denotes (ms.flatMap Mark.items) (ts.filter Token.isSignificant) := by
  induction h with
  | nil => exact .nil
  | @skip _ _ t hkind _ _ ih =>
      have ht : t.isSignificant = false := by simp [Token.isSignificant, hkind]
      rwa [List.filter_cons_of_neg (Bool.eq_false_iff.mp ht)]
  | item hx ht _ _ ih =>
      rw [List.filter_cons_of_pos ht]
      exact .cons hx ih
  | @qualified _ _ _ word name hword hname _ ih =>
      have hmut : word.isSignificant = false := by simp [Token.isSignificant, hword]
      rw [List.filter_cons_of_neg (Bool.eq_false_iff.mp hmut),
        List.filter_cons_of_pos (Token.isSignificant_of_identifier hname)]
      exact .cons ⟨hname, rfl⟩ ih
  | unqualified hname _ ih =>
      rw [List.filter_cons_of_pos (Token.isSignificant_of_identifier hname)]
      exact .cons ⟨hname, rfl⟩ ih
  | valueless htype _ ih =>
      rw [List.filter_cons_of_pos (Token.isSignificant_of_identifier htype)]
      exact .cons ⟨htype, rfl⟩ ih
  | @block _ _ t hopen _ ih =>
      have ht : t.isSignificant = false := by
        simp [Token.isSignificant, (Token.is_iff.mp hopen).1]
      rwa [List.filter_cons_of_neg (Bool.eq_false_iff.mp ht)]

/-- The stream has no failure, and its tokens spell the marks. -/
def TokenStream.Spells (s : TokenStream) (ms : List Mark) : Prop :=
  ∃ ts, s.tokens = .ok ts ∧ Spelled ms ts

namespace TokenStream

variable {s : TokenStream} {ms : List Mark} {t : Token}

theorem tokens_token {ts : List Token} (h : s.tokens = .ok ts) :
    (token t s).tokens = .ok (t :: ts) := by
  rw [tokens, h]

theorem Spells.skip (h : s.Spells ms) {value : String} (ht : t.isPunctuation value = true)
    (hvalue : value ≠ Bracketing.block.opening) : (token t s).Spells ms := by
  obtain ⟨ts, hts, hspelled⟩ := h
  obtain ⟨hkind, rfl⟩ := Token.is_iff.mp ht
  exact ⟨t :: ts, tokens_token hts, .skip hkind hvalue hspelled⟩

theorem Spells.item (h : s.Spells ms) {x : Item} {l : Option Location} (hx : x.Denotes t)
    (ht : t.isSignificant = true) (hl : ∀ m ∈ l, t.location = m) :
    (token t s).Spells (.item x l :: ms) := by
  obtain ⟨ts, hts, hspelled⟩ := h
  exact ⟨t :: ts, tokens_token hts, .item hx ht hl hspelled⟩

theorem Spells.keyword (h : s.Spells ms) {word : String} (ht : t.isKeyword word = true)
    (hword : word ≠ "mut") :
    (token t s).Spells (.item (.keyword word) (some t.location) :: ms) :=
  h.item (Token.is_iff.mp ht) (Token.isSignificant_of_isKeyword ht hword)
    (fun _ hm => Option.some.inj hm)

theorem Spells.identifier (h : s.Spells ms) (ht : t.kind = .identifier) :
    (token t s).Spells (.item (.identifier t.value) none :: ms) :=
  h.item ⟨ht, rfl⟩ (Token.isSignificant_of_identifier ht) nofun

theorem Spells.operator (h : s.Spells ms) {symbol : String} {l : Option Location}
    (ht : t.isOperator symbol = true) (hl : ∀ m ∈ l, t.location = m) :
    (token t s).Spells (.item (.operator symbol) l :: ms) :=
  h.item (Token.is_iff.mp ht) (Token.isSignificant_of_isOperator ht) hl

theorem Spells.qualified (h : s.Spells ms) {word : Token} (isParameter : Bool)
    (hword : word.isKeyword "mut" = true) (ht : t.kind = .identifier) :
    (token word (token t s)).Spells (.variable t.value isParameter word.location :: ms) := by
  obtain ⟨ts, hts, hspelled⟩ := h
  exact ⟨word :: t :: ts, tokens_token (tokens_token hts), .qualified hword ht hspelled⟩

theorem Spells.unqualified (h : s.Spells ms) (ht : t.kind = .identifier) :
    (token t s).Spells (.variable t.value true t.location :: ms) := by
  obtain ⟨ts, hts, hspelled⟩ := h
  exact ⟨t :: ts, tokens_token hts, .unqualified ht hspelled⟩

theorem Spells.block (h : s.Spells ms) (ht : t.isPunctuation Bracketing.block.opening = true) :
    (token t s).Spells (.block t.location :: ms) := by
  obtain ⟨ts, hts, hspelled⟩ := h
  exact ⟨t :: ts, tokens_token hts, .block ht hspelled⟩

/-- The next token is the first one. -/
theorem exists_of_head {u : Token} {ts : List Token} (hhead : s.head = .ok u)
    (h : s.tokens = .ok ts) : ∃ us, ts = u :: us := by
  obtain ⟨us, l, rfl, rfl⟩ := tokens_eq_ok_iff.mp h
  cases us with
  | nil => exact ⟨[], by rw [← Except.ok.inj hhead]; rfl⟩
  | cons v us => exact ⟨us ++ [.eof l], by rw [← Except.ok.inj hhead]; rfl⟩

theorem Spells.valueless (h : s.Spells ms) (ht : t.kind = .identifier) {u : Token}
    (hu : s.head = .ok u) : (token t s).Spells (.valueless t.value u.location :: ms) := by
  obtain ⟨ts, hts, hspelled⟩ := h
  obtain ⟨us, rfl⟩ := exists_of_head hu hts
  exact ⟨t :: u :: us, tokens_token hts, .valueless ht hspelled⟩

end TokenStream

/-! ## Nodes -/

namespace Tree

/-- The tree itself and all trees in it are such. -/
inductive Every (P : Tree → Prop) : Tree → Prop where
  | intro {t : Tree} : P t → (∀ x ∈ t.children, Every P x) → Every P t

theorem sizeOf_lt_of_mem_children {t x : Tree} (h : x ∈ t.children) : sizeOf x < sizeOf t := by
  cases t with
  | operation op left right l =>
      rcases List.mem_cons.mp h with rfl | h
      · simp only [operation.sizeOf_spec]
        omega
      · obtain rfl := List.mem_singleton.mp h
        simp only [operation.sizeOf_spec]
        omega
  | call callee arguments l =>
      rcases List.mem_cons.mp h with rfl | h
      · simp only [call.sizeOf_spec]
        omega
      · have hlt := List.sizeOf_lt_of_mem h
        simp only [call.sizeOf_spec]
        omega
  | definition name type isConst value l =>
      obtain rfl := List.mem_singleton.mp h
      simp only [definition.sizeOf_spec]
      omega
  | function name result parameters body l =>
      rcases List.mem_append.mp h with h | h
      · have hlt := List.sizeOf_lt_of_mem h
        simp only [function.sizeOf_spec]
        omega
      · obtain rfl := List.mem_singleton.mp h
        simp only [function.sizeOf_spec]
        omega
  | block statements l =>
      have hmem : x ∈ statements := h
      have hlt := List.sizeOf_lt_of_mem hmem
      simp only [block.sizeOf_spec]
      omega
  | _ => cases h

/-- What goes down from a tree to its children holds of all trees in it. -/
theorem every_of_children {P Q : Tree → Prop} (hP : ∀ t, Q t → P t)
    (hchildren : ∀ t, Q t → ∀ x ∈ t.children, Q x) (t : Tree) (ht : Q t) : t.Every P :=
  .intro (hP t ht) fun x hx => every_of_children hP hchildren x (hchildren t ht x hx)
termination_by sizeOf t
decreasing_by exact sizeOf_lt_of_mem_children hx

/-- A call is where its callee is. -/
def IsAtCallee : Tree → Prop
  | .call callee _ l => l = callee.location
  | _ => True

def IsPresent : Tree → Prop
  | .absent _ => False
  | _ => True

/-- There is something, and all calls are where their callees are. -/
def IsPlaced (t : Tree) : Prop := t.IsPresent ∧ t.Every IsAtCallee

theorem isPlaced_leaf {t : Tree} (hpresent : t.IsPresent) (hcall : t.IsAtCallee)
    (h : t.children = []) : t.IsPlaced :=
  ⟨hpresent, .intro hcall (by simp [h])⟩

theorem isPlaced_operation {op : Operator} {left right : Tree} {l : Location}
    (hleft : left.IsPlaced) (hright : right.IsPlaced) : (operation op left right l).IsPlaced :=
  ⟨trivial, .intro trivial (by simpa [children] using ⟨hleft.2, hright.2⟩)⟩

theorem isPlaced_call {callee : Tree} {arguments : List Tree} (hcallee : callee.IsPlaced)
    (harguments : ∀ x ∈ arguments, x.IsPlaced) :
    (call callee arguments callee.location).IsPlaced :=
  ⟨trivial, .intro rfl (List.forall_mem_cons.mpr ⟨hcallee.2, fun x hx => (harguments x hx).2⟩)⟩

theorem isPlaced_definition {name type : String} {isConst : Bool} {value : Tree} {l : Location}
    (h : value.Every IsAtCallee) : (definition name type isConst value l).IsPlaced :=
  ⟨trivial, .intro trivial (List.forall_mem_singleton.mpr h)⟩

theorem isPlaced_function {name result : String} {parameters : List Tree} {body : Tree}
    {l : Location} (hparameters : ∀ x ∈ parameters, x.IsPlaced) (hbody : body.IsPlaced) :
    (function name result parameters body l).IsPlaced := by
  have hbody' := List.forall_mem_singleton.mpr hbody.2
  have hall := List.forall_mem_append.mpr ⟨fun x hx => (hparameters x hx).2, hbody'⟩
  exact ⟨trivial, .intro trivial hall⟩

theorem isPlaced_block {statements : List Tree} {l : Location}
    (h : ∀ x ∈ statements, x.IsPlaced) : (block statements l).IsPlaced :=
  ⟨trivial, .intro trivial fun x hx => (h x hx).2⟩

end Tree

/-- An operand is its token and stands where it is. -/
theorem Token.item_of_operand {t : Token} {e : Tree} (h : t.operand = .ok e) :
    (∃ x : Item, x.Denotes t ∧ ∀ p, e.marks p = [.item x (some t.location)]) ∧ e.IsPlaced := by
  obtain ⟨kind, value, l⟩ := t
  cases kind with
  | int =>
      simp only [operand] at h
      split at h <;> cases h
      exact ⟨⟨.int _, ⟨rfl, rfl⟩, fun _ => rfl⟩, Tree.isPlaced_leaf trivial trivial rfl⟩
  | float =>
      cases h
      exact ⟨⟨.float _, ⟨rfl, rfl⟩, fun _ => rfl⟩, Tree.isPlaced_leaf trivial trivial rfl⟩
  | char =>
      simp only [operand] at h
      split at h <;> cases h
      rename_i c hc
      have hvalue : value = String.singleton c := by
        rw [← String.toList_inj, hc]
        simp
      exact ⟨⟨.exactly .char _, ⟨rfl, hvalue⟩, fun _ => rfl⟩,
        Tree.isPlaced_leaf trivial trivial rfl⟩
  | string =>
      cases h
      exact ⟨⟨.exactly .string _, ⟨rfl, rfl⟩, fun _ => rfl⟩, Tree.isPlaced_leaf trivial trivial rfl⟩
  | identifier =>
      cases h
      exact ⟨⟨.identifier _, ⟨rfl, rfl⟩, fun _ => rfl⟩, Tree.isPlaced_leaf trivial trivial rfl⟩
  | keyword =>
      simp only [operand] at h
      by_cases htrue : value = "true"
      · subst htrue
        cases h
        exact ⟨⟨.keyword "true", ⟨rfl, rfl⟩, fun _ => rfl⟩, Tree.isPlaced_leaf trivial trivial rfl⟩
      by_cases hfalse : value = "false"
      · subst hfalse
        cases h
        exact ⟨⟨.keyword "false", ⟨rfl, rfl⟩, fun _ => rfl⟩, Tree.isPlaced_leaf trivial trivial rfl⟩
      · simp [htrue, hfalse] at h
  | operator => cases h
  | punctuation => cases h
  | eof => cases h

/-- Only a block begins with the bracket of a block. -/
theorem Bracketing.ne_opening (b : Bracketing) :
    b.closing ≠ block.opening ∧ b.separator ≠ block.opening := by
  cases b <;> decide

namespace Parser

/-- The result of the construct is placed, if what it begins with is. -/
def Construct.IsPlaced : Construct → Prop
  | .chain _ left t => left.IsPlaced → t.IsPlaced
  | .applied callee t => callee.IsPlaced → t.IsPlaced
  | .items _ ts => ∀ x ∈ ts, x.IsPlaced
  | .moreItems _ ts => ∀ x ∈ ts, x.IsPlaced
  | .statements ts => ∀ x ∈ ts, x.IsPlaced
  | .expression t => t.IsPlaced
  | .atom t => t.IsPlaced
  | .primary t => t.IsPlaced
  | .block t => t.IsPlaced
  | .function t => t.IsPlaced
  | .definition t => t.IsPlaced
  | .parameter t => t.IsPlaced
  | .variableBody _ _ t => t.IsPlaced
  | .element _ t => t.IsPlaced
  | .program t => t.IsPlaced

theorem Parses.isPlaced {c : Construct} {s r : TokenStream} (h : Parses c s r) : c.IsPlaced := by
  induction h with
  | expression _ _ _ ih₁ ih₂ ih₃ => exact ih₃ (ih₂ ih₁)
  | chainStop => exact id
  | chainLink _ _ _ _ _ ih₁ ih₂ ih₃ =>
      exact fun hleft => ih₃ (Tree.isPlaced_operation hleft (ih₂ ih₁))
  | call _ _ ih => exact fun hcallee => Tree.isPlaced_call hcallee ih
  | noCall => exact id
  | atom _ _ ih₁ ih₂ => exact ih₂ ih₁
  | parens _ _ _ ih => exact ih
  | blockPrimary _ ih => exact ih
  | functionPrimary _ ih => exact ih
  | definitionPrimary _ ih => exact ih
  | operand hu => exact (Token.item_of_operand hu).2
  | block _ _ ih => exact Tree.isPlaced_block ih
  | function _ _ _ _ _ _ _ ih₁ ih₂ => exact Tree.isPlaced_function ih₁ ih₂
  | definition _ _ ih => exact ih
  | parameterDefinition _ ih => exact ih
  | parameterVariable _ ih => exact ih
  | variableAbsent => exact Tree.isPlaced_definition (.intro trivial nofun)
  | variableValue _ _ _ _ _ ih => exact Tree.isPlaced_definition ih.2
  | itemsClose => exact nofun
  | itemsCons _ _ ih₁ ih₂ => exact List.forall_mem_cons.mpr ⟨ih₁, ih₂⟩
  | moreClose => exact nofun
  | moreTrailing => exact nofun
  | moreCons _ _ _ ih₁ ih₂ => exact List.forall_mem_cons.mpr ⟨ih₁, ih₂⟩
  | argument _ ih => exact ih
  | formal _ ih => exact ih
  | statement _ ih => exact ih
  | noStatements => exact nofun
  | statements _ _ _ ih₁ ih₂ => exact List.forall_mem_cons.mpr ⟨ih₁, ih₂⟩
  | program _ _ ih => exact Tree.isPlaced_block ih

/-! ## What is parsed is spelled -/

/-- The tokens of the construct, in front of tokens that spell some marks, spell the marks of its
result in front of these. What a chain or a call adds to its first operand comes behind the marks
of that operand; and the word in front of a variable is not part of its body. -/
def Construct.Marked : Construct → TokenStream → TokenStream → Prop
  | .chain _ left t, s, r => ∃ ns, t.marks false = left.marks false ++ ns ∧
    ∀ ms, r.Spells ms → s.Spells (ns ++ ms)
  | .applied callee t, s, r => ∃ ns, t.marks false = callee.marks false ++ ns ∧
    ∀ ms, r.Spells ms → s.Spells (ns ++ ms)
  | .variableBody isConst l t, s, r => ∃ name s' ns, s = .token name s' ∧
    name.kind = .identifier ∧ (∀ p, t.marks p =
      (if isConst then [.item (.keyword "const") (some l), .item (.identifier name.value) none]
        else [.variable name.value p l]) ++ ns) ∧
    ∀ ms, r.Spells ms → s'.Spells (ns ++ ms)
  | .definition t, s, r => ∀ p ms, r.Spells ms → s.Spells (t.marks p ++ ms)
  | .parameter t, s, r => ∀ ms, r.Spells ms → s.Spells (t.marks true ++ ms)
  | .element b t, s, r => ∀ ms, r.Spells ms → s.Spells (t.marks (b = .parameters) ++ ms)
  | .items b ts, s, r => ∀ ms, r.Spells ms → s.Spells (Tree.marksAll (b = .parameters) ts ++ ms)
  | .moreItems b ts, s, r =>
    ∀ ms, r.Spells ms → s.Spells (Tree.marksAll (b = .parameters) ts ++ ms)
  | .statements ts, s, r => ∀ ms, r.Spells ms → s.Spells (Tree.marksAll false ts ++ ms)
  | .program t, s, r => ∃ ts u, t = .block ts u.location ∧ s.head = .ok u ∧
    ∀ ms, r.Spells ms → s.Spells (Tree.marksAll false ts ++ ms)
  | .expression t, s, r => ∀ ms, r.Spells ms → s.Spells (t.marks false ++ ms)
  | .atom t, s, r => ∀ ms, r.Spells ms → s.Spells (t.marks false ++ ms)
  | .primary t, s, r => ∀ ms, r.Spells ms → s.Spells (t.marks false ++ ms)
  | .block t, s, r => ∀ ms, r.Spells ms → s.Spells (t.marks false ++ ms)
  | .function t, s, r => ∀ ms, r.Spells ms → s.Spells (t.marks false ++ ms)

/-- A value that is present shows behind an equality sign. -/
theorem marks_definition {name type : String} {isConst : Bool} {value : Tree} {l : Location}
    (h : value.IsPresent) (p : Bool) :
    (Tree.definition name type isConst value l).marks p =
      (if isConst then [.item (.keyword "const") (some l), .item (.identifier name) none]
        else [.variable name p l]) ++ .item (.operator ":") none :: .item (.identifier type) none ::
          .item (.operator Operator.assign.symbol) none :: value.marks false := by
  cases value with
  | absent m => exact h.elim
  | _ => rfl

theorem Parses.marked {c : Construct} {s r : TokenStream} (h : Parses c s r) : c.Marked s r := by
  induction h with
  | expression _ _ _ ih₁ ih₂ ih₃ =>
      obtain ⟨ns, hns, hchain⟩ := ih₂
      obtain ⟨ns', hns', happlied⟩ := ih₃
      intro ms hms
      rw [hns', hns, List.append_assoc, List.append_assoc]
      exact ih₁ _ (hchain _ (happlied ms hms))
  | chainStop => exact ⟨[], (List.append_nil _).symm, fun ms hms => hms⟩
  | @chainLink _ left _ right _ _ _ _ _ u op hop _ _ _ _ ih₁ ih₂ ih₃ =>
      obtain ⟨ns, hns, hright⟩ := ih₂
      obtain ⟨ns', hns', hrest⟩ := ih₃
      refine ⟨.item (.operator op.symbol) (some u.location) :: (right.marks false ++ ns'), ?_, ?_⟩
      · rw [hns', Tree.marks, List.append_assoc, List.cons_append]
      · intro ms hms
        rw [hns, List.cons_append, List.append_assoc, List.append_assoc]
        have hoperand := ih₁ _ (hright _ (hrest ms hms))
        exact hoperand.operator (Token.operator?_eq_some.mp hop) (fun _ hm => Option.some.inj hm)
  | @call _ arguments _ _ _ hopen _ ih =>
      exact ⟨Tree.marksAll false arguments, rfl, fun ms hms => (ih ms hms).skip hopen (by decide)⟩
  | noCall => exact ⟨[], (List.append_nil _).symm, fun ms hms => hms⟩
  | atom _ _ ih₁ ih₂ =>
      obtain ⟨ns, hns, happlied⟩ := ih₂
      intro ms hms
      rw [hns, List.append_assoc]
      exact ih₁ _ (happlied ms hms)
  | parens hopen _ hclose ih =>
      intro ms hms
      exact (ih ms (hms.skip hclose (by decide))).skip hopen (by decide)
  | blockPrimary _ ih => exact ih
  | functionPrimary _ ih => exact ih
  | definitionPrimary _ ih => exact ih false
  | operand hu =>
      obtain ⟨⟨x, hx, hmarks⟩, -⟩ := Token.item_of_operand hu
      intro ms hms
      rw [hmarks]
      exact hms.item hx (Token.isSignificant_of_operand hu) (fun _ hm => Option.some.inj hm)
  | block hopen _ ih => exact fun ms hms => (ih ms hms).block hopen
  | function hword hname hopen _ harrow hresult _ ih₁ ih₂ =>
      intro ms hms
      have hbody := (ih₂ ms hms).identifier hresult
      have hparameters := ih₁ _ (hbody.operator harrow (l := none) nofun)
      rw [Tree.marks, List.cons_append, List.cons_append, List.append_assoc]
      exact ((hparameters.skip hopen (by decide)).identifier hname).keyword hword (by decide)
  | @definition _ _ _ u hword _ ih =>
      obtain ⟨name, s', ns, rfl, hname, hmarks, hbody⟩ := ih
      intro p ms hms
      rw [hmarks, List.append_assoc]
      by_cases hconst : u.isKeyword "const" = true
      · rw [if_pos hconst]
        exact ((hbody ms hms).identifier hname).keyword hconst (by decide)
      · rw [if_neg hconst]
        exact (hbody ms hms).qualified p (hword.resolve_left hconst) hname
  | parameterDefinition _ ih => exact ih true
  | parameterVariable _ ih =>
      obtain ⟨name, s', ns, hstream, hname, hmarks, hbody⟩ := ih
      obtain ⟨rfl, rfl⟩ := TokenStream.token.inj hstream
      intro ms hms
      rw [hmarks, List.append_assoc]
      exact (hbody ms hms).unqualified hname
  | @variableAbsent _ _ _ name _ type u hname hcolon htype hu _ =>
      refine ⟨name, _, [.item (.operator ":") none, .valueless type.value u.location], rfl, hname,
        fun p => rfl, fun ms hms => ?_⟩
      exact (hms.valueless htype hu).operator hcolon nofun
  | @variableValue _ _ _ _ _ name _ _ _ hname hcolon htype hsign hvalue ih =>
      refine ⟨name, _, _, rfl, hname, marks_definition hvalue.isPlaced.1, fun ms hms => ?_⟩
      have hassign := (ih ms hms).operator hsign (l := none) nofun
      exact (hassign.identifier htype).operator hcolon nofun
  | @itemsClose b _ _ hclose => exact fun ms hms => hms.skip hclose b.ne_opening.1
  | itemsCons _ _ ih₁ ih₂ =>
      intro ms hms
      rw [Tree.marksAll, List.append_assoc]
      exact ih₁ _ (ih₂ ms hms)
  | @moreClose b _ _ hclose => exact fun ms hms => hms.skip hclose b.ne_opening.1
  | @moreTrailing b _ _ _ hseparator hclose =>
      intro ms hms
      exact (hms.skip hclose b.ne_opening.1).skip hseparator b.ne_opening.2
  | @moreCons b _ _ _ _ _ _ hseparator _ _ ih₁ ih₂ =>
      intro ms hms
      rw [Tree.marksAll, List.append_assoc]
      exact (ih₁ _ (ih₂ ms hms)).skip hseparator b.ne_opening.2
  | argument _ ih => exact ih
  | formal _ ih => exact ih
  | statement _ ih => exact ih
  | noStatements => exact fun ms hms => hms
  | statements _ hsemicolon _ ih₁ ih₂ =>
      intro ms hms
      rw [Tree.marksAll, List.append_assoc]
      exact ih₁ _ ((ih₂ ms hms).skip hsemicolon (by decide))
  | program hhead _ ih => exact ⟨_, _, rfl, hhead, ih⟩

end Parser

/-- A program falls into tokens that have the tree of the program in their order: read in the order
of the text, the tree tells every token but the punctuation, the word `mut` and the end, and no
other. Its marks stand at the places of their tokens, the program is where the first token is, and
calls are where their callees are. -/
theorem parse_keeps_every_token {source : String} {t : Tree} (h : parse source = .ok t) :
    ∃ ts, tokenize source = .ok ts ∧
      List.Forall₂ Item.Denotes t.items (ts.filter Token.isSignificant) ∧
      (∃ xs first, t = .block xs first.location ∧ ts.head? = some first ∧
        Spelled (Tree.marksAll false xs) ts) ∧
      t.Every Tree.IsAtCallee := by
  obtain ⟨r, hparses⟩ := parse_eq_ok_iff.mp h
  obtain ⟨l, rfl⟩ := hparses.exists_ending
  have hend : (TokenStream.ending l).Spells [] := ⟨[.eof l], rfl, .nil⟩
  obtain ⟨xs, first, rfl, hhead, hmarked⟩ := hparses.marked
  obtain ⟨ts, hts, hspelled⟩ := hmarked [] hend
  rw [List.append_nil] at hspelled
  obtain ⟨us, rfl⟩ := TokenStream.exists_of_head hhead hts
  have htokenize : tokenize source = .ok (first :: us) :=
    (Lexer.drain_fst (.ofText source)).trans hts
  have hdenotes := hspelled.denotes
  rw [Tree.items_of_marksAll] at hdenotes
  exact ⟨_, htokenize, hdenotes, ⟨xs, first, rfl, rfl, hspelled⟩, hparses.isPlaced.2⟩

/-- The tree of `def f(a: t, const b: u = 1) -> v {mut c: w; (f(1) + x)(2)};`. -/
def functionTree : Tree :=
  .block [.function "f" "v"
    [.definition "a" "t" false (.absent ⟨1, 11⟩) ⟨1, 7⟩,
      .definition "b" "u" true (.int 1 ⟨1, 26⟩) ⟨1, 13⟩]
    (.block [.definition "c" "w" false (.absent ⟨1, 43⟩) ⟨1, 35⟩,
      .call (.operation .add (.call (.reference "f" ⟨1, 46⟩) [.int 1 ⟨1, 48⟩] ⟨1, 46⟩)
        (.reference "x" ⟨1, 53⟩) ⟨1, 51⟩) [.int 2 ⟨1, 56⟩] ⟨1, 51⟩] ⟨1, 34⟩) ⟨1, 1⟩] ⟨1, 1⟩

/-- A parameter without a word in front, one with `const`, two values that are absent, a block, and
a call whose callee is in parentheses. -/
theorem parse_keeps_every_token_function :
    parse "def f(a: t, const b: u = 1) -> v \x7bmut c: w; (f(1) + x)(2)\x7d;" =
        .ok functionTree ∧
      ∃ ts, tokenize "def f(a: t, const b: u = 1) -> v \x7bmut c: w; (f(1) + x)(2)\x7d;" =
          .ok ts ∧
        List.Forall₂ Item.Denotes functionTree.items (ts.filter Token.isSignificant) ∧
        (∃ xs first, functionTree = .block xs first.location ∧ ts.head? = some first ∧
          Spelled (Tree.marksAll false xs) ts) ∧
        functionTree.Every Tree.IsAtCallee := by
  have hparse : parse "def f(a: t, const b: u = 1) -> v \x7bmut c: w; (f(1) + x)(2)\x7d;" =
      .ok functionTree := by with_unfolding_all rfl
  exact ⟨hparse, parse_keeps_every_token hparse⟩

end ExprLang
