import ExprLang.Proofs.Relocation
import ExprLang.Proofs.Repetition
import ExprLang.Proofs.ViablePrefix
import Mathlib.Algebra.Ring.Int.Defs

set_option autoImplicit false

/-! # Well-formed trees

What is parsed is a program in the sense of `Tree.IsProgram`: names are identifiers, because the
lexer makes identifiers of nothing else, and numbers are in their ranges. `Tree.IsSound` says of one
node what this means for it. Definitions are where the words in front of them are, which is told by
the marks of the tree (`Tree.marks`), and all locations are those of tokens, so they count from one.

`answers_are_well_formed` says all of this of every program that is read off a source, also behind
calls that have failed.
-/

namespace ExprLang

open Lexer
open Numeral (Binary64 Decimal ofDigits)

/-! ## Numbers -/

namespace Numeral.Binary64

theorem bits_ofRank {k : Nat} (hk : k ≤ infinityRank) : (ofRank k).bits.toNat = k := by
  have hlt : k < Nat.pow 2 64 := Nat.lt_of_le_of_lt hk (by decide)
  show (UInt64.ofNat k).toNat = k
  rw [UInt64.toNat_ofNat']
  exact Nat.mod_eq_of_lt hlt

theorem rank_ofRank {k : Nat} (hk : k ≤ infinityRank) : (ofRank k).rank = k := by
  rw [rank, bits_ofRank hk]
  exact Nat.mod_eq_of_lt (Nat.lt_of_le_of_lt hk (by decide))

theorem ofRank_bounds {k : Nat} (hk : k ≤ infinityRank) :
    (ofRank k).isNaN = false ∧ (ofRank k).isNegative = false := by
  have hlt : k < Nat.pow 2 63 := Nat.lt_of_le_of_lt hk (by decide)
  refine ⟨?_, ?_⟩
  · rw [isNaN, rank_ofRank hk]
    exact decide_eq_false (Nat.not_lt.mpr hk)
  · rw [isNegative, bits_ofRank hk]
    exact decide_eq_false (Nat.not_le.mpr hlt)

/-- What is written in decimal is a number or infinity, and its sign is not set. -/
theorem ofDecimal_bounds (x : Decimal) :
    (ofDecimal x).isNaN = false ∧ (ofDecimal x).isNegative = false := by
  have hnearest : ∀ n d, nearest n d ≤ infinityRank := fun n d => Nat.min_le_left ..
  unfold ofDecimal
  split
  · exact ofRank_bounds (hnearest ..)
  · exact ofRank_bounds (hnearest ..)

end Numeral.Binary64

/-! ## Tokens -/

namespace Terminal

theorem IsWritable.isIdentifier {value : String} (h : (identifier value).IsWritable) :
    IsIdentifier value := by
  obtain ⟨⟨terminal, text, hlexeme⟩, rfl⟩ := h
  cases hlexeme with
  | identifier hname _ hword =>
      rw [String.ofList_toList] at hword
      exact ⟨hname, hword⟩

theorem IsWritable.isFraction {value : String} (h : IsWritable (.float, value)) :
    IsFraction value.toList := by
  obtain ⟨⟨terminal, text, hlexeme⟩, hterminal⟩ := h
  obtain rfl : terminal = (.float, value) := hterminal
  generalize value.toList = cs at hlexeme
  cases hlexeme with
  | @float ds es hds hes _ => exact ⟨ds, es, rfl, hds, hes⟩

end Terminal

namespace TokenStream

/-- All tokens up to the first failure can be written. -/
def AllWritable : TokenStream → Prop
  | .token t rest => t.terminal.IsWritable ∧ rest.AllWritable
  | _ => True

theorem allWritable_prepend {r : TokenStream} {ts : List Token} (h : ∀ x ∈ word ts, x.IsWritable)
    (hr : r.AllWritable) : (r.prepend ts).AllWritable := by
  induction ts with
  | nil => exact hr
  | cons t ts ih =>
      obtain ⟨ht, hts⟩ := List.forall_mem_cons.mp h
      exact ⟨ht, ih hts⟩

theorem allWritable_ofCursor (c : Cursor) : (ofCursor c).AllWritable := by
  obtain ⟨ts, r, hstream, hr⟩ := (ofCursor c).exists_prepend
  rw [hstream]
  refine allWritable_prepend (isWritable_of_ofCursor hstream) ?_
  cases r with
  | token t rest => exact absurd rfl (hr t rest)
  | _ => trivial

end TokenStream

/-- A token that can be written stands for an expression, or for none. -/
theorem Token.isExpression_of_operand {t : Token} {e : Tree} (h : t.operand = .ok e)
    (ht : t.terminal.IsWritable) : e.IsExpression := by
  obtain ⟨kind, value, l⟩ := t
  cases kind with
  | int =>
      simp only [operand] at h
      split at h
      · rename_i hle
        cases h
        exact .int (Int.natCast_nonneg _) (Int.ofNat_le.mpr hle)
      · cases h
  | float =>
      cases h
      exact .float ht.isFraction
  | char =>
      simp only [operand] at h
      split at h <;> cases h
      exact .char
  | string =>
      cases h
      exact .string
  | identifier =>
      cases h
      exact .reference ht.isIdentifier
  | keyword =>
      simp only [operand] at h
      split at h
      · cases h
        exact .bool
      · split at h <;> cases h
        exact .bool
  | operator => cases h
  | punctuation => cases h
  | eof => cases h

theorem Token.isIdentifier_of_kind {t : Token} (ht : t.kind = .identifier)
    (hwritable : t.terminal.IsWritable) : IsIdentifier t.value := by
  rw [terminal_eq_of_identifier ht] at hwritable
  exact hwritable.isIdentifier

/-! ## Trees -/

namespace Parser

/-- What may stand in a list. -/
def IsElement (b : Bracketing) (t : Tree) : Prop :=
  t.IsExpression ∧ (b = .parameters → t.IsDefinition)

/-- The result of the construct is an expression, if what it begins with is. -/
def Construct.Expresses : Construct → Prop
  | .chain _ left t => left.IsExpression → t.IsExpression
  | .applied callee t => callee.IsExpression → t.IsExpression
  | .block t => ∃ xs l, t = .block xs l ∧ ∀ x ∈ xs, x.IsExpression
  | .definition t => IsElement .parameters t
  | .parameter t => IsElement .parameters t
  | .variableBody _ _ t => IsElement .parameters t
  | .items b ts => ∀ x ∈ ts, IsElement b x
  | .moreItems b ts => ∀ x ∈ ts, IsElement b x
  | .element b t => IsElement b t
  | .statements ts => ∀ x ∈ ts, x.IsExpression
  | .program t => t.IsProgram
  | .expression t => t.IsExpression
  | .atom t => t.IsExpression
  | .primary t => t.IsExpression
  | .function t => t.IsExpression

/-- What is read of tokens that can be written are expressions. -/
theorem Parses.expresses {c : Construct} {s r : TokenStream} (h : Parses c s r)
    (hs : s.AllWritable) : c.Expresses ∧ r.AllWritable := by
  induction h with
  | expression _ _ _ ih₁ ih₂ ih₃ =>
      obtain ⟨hfirst, hr⟩ := ih₁ hs
      obtain ⟨hchain, hr'⟩ := ih₂ hr
      obtain ⟨happlied, hr''⟩ := ih₃ hr'
      exact ⟨happlied (hchain hfirst), hr''⟩
  | chainStop => exact ⟨id, hs⟩
  | chainLink _ _ _ _ _ ih₁ ih₂ ih₃ =>
      obtain ⟨hfirst, hr⟩ := ih₁ hs.2
      obtain ⟨hright, hr'⟩ := ih₂ hr
      obtain ⟨hrest, hr''⟩ := ih₃ hr'
      exact ⟨fun hleft => hrest (.operation hleft (hright hfirst)), hr''⟩
  | call _ _ ih =>
      obtain ⟨harguments, hr⟩ := ih hs.2
      exact ⟨fun hcallee => .call hcallee fun x hx => (harguments x hx).1, hr⟩
  | noCall => exact ⟨id, hs⟩
  | atom _ _ ih₁ ih₂ =>
      obtain ⟨hprimary, hr⟩ := ih₁ hs
      obtain ⟨happlied, hr'⟩ := ih₂ hr
      exact ⟨happlied hprimary, hr'⟩
  | parens _ _ _ ih =>
      obtain ⟨hinside, hr⟩ := ih hs.2
      exact ⟨hinside, hr.2⟩
  | blockPrimary _ ih =>
      obtain ⟨⟨xs, l, rfl, hxs⟩, hr⟩ := ih hs
      exact ⟨.block hxs, hr⟩
  | functionPrimary _ ih => exact ih hs
  | definitionPrimary _ ih => exact ⟨(ih hs).1.1, (ih hs).2⟩
  | operand hu => exact ⟨Token.isExpression_of_operand hu hs.1, hs.2⟩
  | block _ _ ih =>
      obtain ⟨hstatements, hr⟩ := ih hs.2
      exact ⟨⟨_, _, rfl, fun x hx => (hstatements x hx).1⟩, hr⟩
  | function _ hname _ _ _ hresult _ ih₁ ih₂ =>
      obtain ⟨-, hnameWritable, -, hs⟩ := hs
      obtain ⟨hparameters, -, hresultWritable, hr⟩ := ih₁ hs
      obtain ⟨⟨xs, l, rfl, hxs⟩, hr'⟩ := ih₂ hr
      exact ⟨.function (Token.isIdentifier_of_kind hname hnameWritable)
        (Token.isIdentifier_of_kind hresult hresultWritable)
        (fun x hx => (hparameters x hx).2 rfl) (fun x hx => (hparameters x hx).1) hxs, hr'⟩
  | definition _ _ ih => exact ih hs.2
  | parameterDefinition _ ih => exact ih hs
  | parameterVariable _ ih => exact ih hs
  | variableAbsent hname _ htype _ _ =>
      obtain ⟨hnameWritable, -, htypeWritable, hr⟩ := hs
      exact ⟨⟨.absentDefinition (Token.isIdentifier_of_kind hname hnameWritable)
        (Token.isIdentifier_of_kind htype htypeWritable), fun _ => trivial⟩, hr⟩
  | variableValue hname _ htype _ _ ih =>
      obtain ⟨hnameWritable, -, htypeWritable, -, hs⟩ := hs
      obtain ⟨hvalue, hr⟩ := ih hs
      exact ⟨⟨.definition (Token.isIdentifier_of_kind hname hnameWritable)
        (Token.isIdentifier_of_kind htype htypeWritable) hvalue, fun _ => trivial⟩, hr⟩
  | itemsClose => exact ⟨nofun, hs.2⟩
  | itemsCons _ _ ih₁ ih₂ =>
      obtain ⟨hx, hr⟩ := ih₁ hs
      obtain ⟨hxs, hr'⟩ := ih₂ hr
      exact ⟨List.forall_mem_cons.mpr ⟨hx, hxs⟩, hr'⟩
  | moreClose => exact ⟨nofun, hs.2⟩
  | moreTrailing => exact ⟨nofun, hs.2.2⟩
  | moreCons _ _ _ ih₁ ih₂ =>
      obtain ⟨hx, hr⟩ := ih₁ hs.2
      obtain ⟨hxs, hr'⟩ := ih₂ hr
      exact ⟨List.forall_mem_cons.mpr ⟨hx, hxs⟩, hr'⟩
  | argument _ ih => exact ⟨⟨(ih hs).1, nofun⟩, (ih hs).2⟩
  | formal _ ih => exact ih hs
  | statement _ ih => exact ⟨⟨(ih hs).1, nofun⟩, (ih hs).2⟩
  | noStatements => exact ⟨nofun, hs⟩
  | statements _ _ _ ih₁ ih₂ =>
      obtain ⟨ht, hr⟩ := ih₁ hs
      obtain ⟨hts, hr'⟩ := ih₂ hr.2
      exact ⟨List.forall_mem_cons.mpr ⟨ht, hts⟩, hr'⟩
  | program _ _ ih =>
      obtain ⟨hstatements, hr⟩ := ih hs
      exact ⟨⟨_, _, rfl, hstatements⟩, hr⟩

end Parser

namespace Tree

/-- Is the tree a row of statements? -/
def IsBlock : Tree → Prop
  | .block _ _ => True
  | _ => False

/-- What is said of a node and of the trees directly below it. Nothing is absent but the value of a
variable. -/
def IsSound : Tree → Prop
  | .int n _ => 0 ≤ n ∧ n ≤ 2 ^ 63 - 1
  | .float x _ => x.isNaN = false ∧ x.isNegative = false
  | .reference name _ => IsIdentifier name
  | .operation _ left right _ => left.IsPresent ∧ right.IsPresent
  | .call callee arguments _ => callee.IsPresent ∧ ∀ x ∈ arguments, x.IsPresent
  | .definition name type _ _ _ => IsIdentifier name ∧ IsIdentifier type
  | .function name result parameters body _ =>
    IsIdentifier name ∧ IsIdentifier result ∧ (∀ x ∈ parameters, x.IsDefinition) ∧ body.IsBlock
  | .block statements _ => ∀ x ∈ statements, x.IsPresent
  | _ => True

theorem IsExpression.isPresent {t : Tree} (h : t.IsExpression) : t.IsPresent := by
  cases h <;> trivial

theorem IsExpression.isSound {t : Tree} (h : t.IsExpression) : t.IsSound := by
  cases h with
  | int hnonneg hle => exact ⟨hnonneg, hle⟩
  | float => exact Binary64.ofDecimal_bounds _
  | reference hname => exact hname
  | operation hleft hright => exact ⟨hleft.isPresent, hright.isPresent⟩
  | call hcallee harguments => exact ⟨hcallee.isPresent, fun x hx => (harguments x hx).isPresent⟩
  | block hstatements => exact fun x hx => (hstatements x hx).isPresent
  | absentDefinition hname htype => exact ⟨hname, htype⟩
  | definition hname htype _ => exact ⟨hname, htype⟩
  | function hname hresult hparameters _ _ => exact ⟨hname, hresult, hparameters, trivial⟩
  | _ => trivial

/-- Below an expression there are expressions, and what is absent. -/
theorem IsExpression.children {t : Tree} (h : t.IsExpression) :
    ∀ x ∈ t.children, x.IsExpression ∨ ∃ l, x = .absent l := by
  intro x hx
  cases h with
  | operation hleft hright =>
      rcases List.mem_cons.mp hx with rfl | hx
      · exact .inl hleft
      · obtain rfl := List.mem_singleton.mp hx
        exact .inl hright
  | call hcallee harguments =>
      rcases List.mem_cons.mp hx with rfl | hx
      · exact .inl hcallee
      · exact .inl (harguments x hx)
  | block hstatements => exact .inl (hstatements x hx)
  | absentDefinition =>
      obtain rfl := List.mem_singleton.mp hx
      exact .inr ⟨_, rfl⟩
  | definition _ _ hvalue =>
      obtain rfl := List.mem_singleton.mp hx
      exact .inl hvalue
  | function _ _ _ hparameters hstatements =>
      rcases List.mem_append.mp hx with hx | hx
      · exact .inl (hparameters x hx)
      · obtain rfl := List.mem_singleton.mp hx
        exact .inl (.block hstatements)
  | _ => cases hx

theorem IsProgram.every_isSound {t : Tree} (h : t.IsProgram) : t.Every IsSound := by
  obtain ⟨xs, l, rfl, hxs⟩ := h
  refine every_of_children (Q := fun x => x.IsExpression ∨ ∃ l, x = .absent l) ?_ ?_ _
    (.inl (.block hxs))
  · rintro x (hx | ⟨m, rfl⟩)
    · exact hx.isSound
    · trivial
  · rintro x (hx | ⟨m, rfl⟩)
    · exact hx.children
    · exact nofun

theorem Every.and {P Q : Tree → Prop} {t : Tree} (hP : t.Every P) (hQ : t.Every Q) :
    t.Every fun x => P x ∧ Q x := by
  induction hP with
  | intro hP _ ih =>
      cases hQ with
      | intro hQ hchildren => exact .intro ⟨hP, hQ⟩ fun x hx => ih x hx (hchildren x hx)

theorem Every.imp {P Q : Tree → Prop} {t : Tree} (h : t.Every P) (himp : ∀ x, P x → Q x) :
    t.Every Q := by
  induction h with
  | intro hP _ ih => exact .intro (himp _ hP) ih

end Tree

/-! ## Definitions and the words in front of them -/

/-- The token that the mark tells is where the mark is. -/
def Mark.IsIn (ts : List Token) : Mark → Prop
  | .item x (some l) => ∃ t ∈ ts, x.Denotes t ∧ t.location = l
  | .variable name isParameter l =>
    (∃ t ∈ ts, t.isKeyword "mut" = true ∧ t.location = l) ∨
      isParameter = true ∧ ∃ t ∈ ts, t.kind = .identifier ∧ t.value = name ∧ t.location = l
  | _ => True

theorem Mark.IsIn.mono {m : Mark} {ts us : List Token} (h : m.IsIn ts) (hsub : ts ⊆ us) :
    m.IsIn us := by
  have hmove : ∀ P : Token → Prop, (∃ t ∈ ts, P t) → ∃ t ∈ us, P t :=
    fun P ⟨t, ht, hP⟩ => ⟨t, hsub ht, hP⟩
  rcases m with ⟨x, _ | l⟩ | ⟨name, isParameter, l⟩ | ⟨type, l⟩ | l
  · trivial
  · exact hmove _ h
  · rcases h with hword | ⟨hparameter, hname⟩
    · exact .inl (hmove _ hword)
    · exact .inr ⟨hparameter, hmove _ hname⟩
  · trivial
  · trivial

/-- All marks that are spelled are in the tokens. -/
theorem Spelled.isIn {ms : List Mark} {ts : List Token} (h : Spelled ms ts) :
    ∀ m ∈ ms, m.IsIn ts := by
  induction h with
  | nil => exact nofun
  | skip _ _ _ ih => exact fun m hm => (ih m hm).mono (List.subset_cons_self ..)
  | @item x l _ _ t hx _ hl _ ih =>
      refine List.forall_mem_cons.mpr ⟨?_, fun m hm => (ih m hm).mono (List.subset_cons_self ..)⟩
      cases l with
      | none => trivial
      | some l => exact ⟨t, List.mem_cons_self .., hx, hl l rfl⟩
  | @qualified _ _ ts word name hword _ _ ih =>
      have hsub : ts ⊆ word :: name :: ts :=
        List.subset_cons_of_subset word (List.subset_cons_self ..)
      exact List.forall_mem_cons.mpr ⟨.inl ⟨word, List.mem_cons_self .., hword, rfl⟩,
        fun m hm => (ih m hm).mono hsub⟩
  | @unqualified _ _ name hname _ ih =>
      refine List.forall_mem_cons.mpr ⟨?_, fun m hm => (ih m hm).mono (List.subset_cons_self ..)⟩
      exact .inr ⟨rfl, name, List.mem_cons_self .., hname, rfl, rfl⟩
  | valueless _ _ ih =>
      exact List.forall_mem_cons.mpr ⟨trivial,
        fun m hm => (ih m hm).mono (List.subset_cons_self ..)⟩
  | block _ _ ih =>
      exact List.forall_mem_cons.mpr ⟨trivial,
        fun m hm => (ih m hm).mono (List.subset_cons_self ..)⟩

namespace Tree

/-- The parameters of a function. -/
def parameters : Tree → List Tree
  | .function _ _ parameters _ _ => parameters
  | _ => []

/-- The trees directly below that are no parameters. -/
def parts : Tree → List Tree
  | .function _ _ _ body _ => [body]
  | t => t.children

theorem mem_parameters_or_parts {t x : Tree} (h : x ∈ t.children) :
    x ∈ t.parameters ∨ x ∈ t.parts := by
  cases t with
  | function name result parameters body l => exact List.mem_append.mp h
  | _ => exact .inr h

/-- A variable is where its word is, which says whether it is constant. A parameter that is not
constant may be where its name is. -/
def IsIntroduced (ts : List Token) (isParameter : Bool) : Tree → Prop
  | .definition name _ isConst _ l =>
    (∃ t ∈ ts, t.isKeyword (qualifier isConst) = true ∧ t.location = l) ∨
      isParameter = true ∧ isConst = false ∧
        ∃ t ∈ ts, t.kind = .identifier ∧ t.value = name ∧ t.location = l
  | _ => True

/-- The variables directly below the tree are introduced by tokens. -/
def Introduces (ts : List Token) (t : Tree) : Prop :=
  (∀ x ∈ t.parameters, x.IsIntroduced ts true) ∧ ∀ x ∈ t.parts, x.IsIntroduced ts false

variable {ts : List Token} {x t : Tree} {p : Bool}

theorem isIntroduced_of_marks (h : ∀ m ∈ t.marks p, m.IsIn ts) : t.IsIntroduced ts p := by
  cases t with
  | definition name type isConst value l =>
      cases isConst with
      | true =>
          have hmark : Mark.item (.keyword "const") (some l) ∈
              (definition name type true value l).marks p := by
            simp [marks]
          obtain ⟨word, hword, hdenotes, hl⟩ := h _ hmark
          exact .inl ⟨word, hword, Token.is_iff.mpr hdenotes, hl⟩
      | false =>
          have hmark : Mark.variable name p l ∈ (definition name type false value l).marks p := by
            simp [marks]
          obtain hword | ⟨hparameter, hname⟩ := h _ hmark
          · exact .inl hword
          · exact .inr ⟨hparameter, rfl, hname⟩
  | _ => trivial

theorem marks_subset_marksAll {xs : List Tree} (hx : x ∈ xs) : x.marks p ⊆ marksAll p xs := by
  induction xs with
  | nil => cases hx
  | cons y ys ih =>
      rw [marksAll]
      rcases List.mem_cons.mp hx with rfl | hx
      · exact List.subset_append_left ..
      · exact List.Subset.trans (ih hx) (List.subset_append_right ..)

theorem marks_parameter (hx : x ∈ t.parameters) : x.marks true ⊆ t.marks p := by
  cases t with
  | function name result parameters body l =>
      intro m hm
      have hmem : m ∈ marksAll true parameters := marks_subset_marksAll hx hm
      simp [marks, hmem]
  | _ => cases hx

theorem marks_part (hx : x ∈ t.parts) : x.marks false ⊆ t.marks p := by
  intro m hm
  cases t with
  | operation op left right l =>
      rcases List.mem_cons.mp hx with rfl | hx
      · simp [marks, hm]
      · obtain rfl := List.mem_singleton.mp hx
        simp [marks, hm]
  | call callee arguments l =>
      rcases List.mem_cons.mp hx with rfl | hx
      · simp [marks, hm]
      · have hmem : m ∈ marksAll false arguments := marks_subset_marksAll hx hm
        simp [marks, hmem]
  | definition name type isConst value l =>
      obtain rfl := List.mem_singleton.mp hx
      have hpresent : x.IsPresent := by
        cases x with
        | absent l => cases hm
        | _ => trivial
      rw [Parser.marks_definition hpresent]
      simp [hm]
  | function name result parameters body l =>
      obtain rfl := List.mem_singleton.mp hx
      simp [marks, hm]
  | block statements l =>
      have hmem : m ∈ marksAll false statements := marks_subset_marksAll hx hm
      simp [marks, hmem]
  | _ => cases hx

/-- If the marks of a tree are in the tokens, its variables are introduced by them. -/
theorem every_introduces (h : ∀ m ∈ t.marks p, m.IsIn ts) : t.Every (Introduces ts) := by
  refine every_of_children (Q := fun x => ∃ q, ∀ m ∈ x.marks q, m.IsIn ts) ?_ ?_ t ⟨p, h⟩
  · rintro y ⟨q, hy⟩
    exact ⟨fun x hx => isIntroduced_of_marks fun m hm => hy m (marks_parameter hx hm),
      fun x hx => isIntroduced_of_marks fun m hm => hy m (marks_part hx hm)⟩
  · rintro y ⟨q, hy⟩ x hx
    rcases mem_parameters_or_parts hx with hx | hx
    · exact ⟨true, fun m hm => hy m (marks_parameter hx hm)⟩
    · exact ⟨false, fun m hm => hy m (marks_part hx hm)⟩

end Tree

/-! ## Places count from one -/

/-- Lines and columns count from one. -/
def Location.IsPlace (l : Location) : Prop := 1 ≤ l.line ∧ 1 ≤ l.column

theorem Location.IsPlace.after {l : Location} (h : l.IsPlace) (text : List Char) :
    (l.after text).IsPlace := by
  induction text generalizing l with
  | nil => exact h
  | cons c cs ih =>
      refine ih ?_
      unfold advance
      split
      · exact ⟨Nat.le_succ_of_le h.1, Nat.le_refl _⟩
      · exact ⟨h.1, Nat.le_succ_of_le h.2⟩

theorem Lexer.Delivers.isPlace {c : Cursor} {ts : List Token} {l : Lexer}
    (h : (ofCursor c).Delivers ts l) (hc : c.location.IsPlace) : ∀ t ∈ ts, t.location.IsPlace := by
  generalize hm : ofCursor c = m at h
  induction h generalizing c with
  | nil => exact nofun
  | cons hnext ht _ ih =>
      subst hm
      obtain ⟨behind, hread, rfl⟩ := exists_of_next_token hnext ht
      obtain ⟨gap, _, _, text, -, -, -, rfl, hbehind⟩ := Cursor.exists_of_read_token hread
      have hplace : behind.location.IsPlace := by
        rw [hbehind]
        exact hc.after _
      exact List.forall_mem_cons.mpr ⟨hc.after gap, ih hplace rfl⟩

theorem Cursor.Reaches.isPlace {c d : Cursor} (h : c.Reaches d) (hc : c.location.IsPlace) :
    d.location.IsPlace := by
  obtain ⟨text, -, hlocation⟩ := h
  rw [hlocation]
  exact hc.after text

/-- All tokens of a text are at places, and so is its end. -/
theorem TokenStream.isPlace_of_tokens {c : Cursor} {us : List Token} {l : Location}
    (h : ofCursor c = (ending l).prepend us) (hc : c.location.IsPlace) :
    ∀ m ∈ l :: us.map Token.location, m.IsPlace := by
  obtain ⟨d, hdelivers, hend⟩ := exists_delivers h
  have hl : l.IsPlace := by
    rw [location_of_ending hend]
    exact (hdelivers.reaches.1.isPlace hc).after d.rest
  exact List.forall_mem_cons.mpr ⟨hl, List.forall_mem_map.mpr (hdelivers.isPlace hc)⟩

namespace Parser

/-- Every program that is read off a source, by the first call or by a later one, is well formed:
it is a row of statements, each of its nodes is sound, and all variables but parameters are
introduced by `const` or `mut` among the tokens that the call has found; lines and columns count
from one. -/
theorem answers_are_well_formed (source : String) (k : Nat) {t : Tree}
    (h : answer (.ofText source) k = .ok t) :
    ∃ xs l ts, t = .block xs l ∧ (remaining (.ofText source) k).tokens = .ok ts ∧
      t.Every fun x => x.IsSound ∧ x.Introduces ts ∧
        1 ≤ x.location.line ∧ 1 ≤ x.location.column := by
  obtain ⟨c, hc, hreaches, -⟩ := exists_remaining (.ofText source) k
  rw [answer, TokenStream.ofText, hc] at h
  rw [TokenStream.ofText, hc]
  obtain ⟨r, hparses⟩ := program_eq_ok_iff.mp h
  obtain ⟨_, rfl⟩ := hparses.exists_ending
  have hsound : t.Every Tree.IsSound :=
    (hparses.expresses (TokenStream.allWritable_ofCursor c)).1.every_isSound
  obtain ⟨xs, first, rfl, -, hmarked⟩ := hparses.marked
  obtain ⟨ts, hts, hspelled⟩ := hmarked [] ⟨_, rfl, .nil⟩
  rw [List.append_nil] at hspelled
  have hmarks : ∀ x ∈ xs, ∀ m ∈ x.marks false, m.IsIn ts := fun x hx m hm =>
    hspelled.isIn m (Tree.marks_subset_marksAll hx hm)
  have hintroduces : (Tree.block xs first.location).Every (Tree.Introduces ts) :=
    .intro ⟨fun x hx => (by cases hx), fun x hx => Tree.isIntroduced_of_marks (hmarks x hx)⟩
      fun x hx => Tree.every_introduces (hmarks x hx)
  -- every location is that of a token, and tokens are at places
  obtain ⟨us, l, -, hstream⟩ := TokenStream.tokens_eq_ok_iff.mp hts
  have hc : c.location.IsPlace := hreaches.isPlace ⟨Nat.le_refl 1, Nat.le_refl 1⟩
  have hplaces := TokenStream.isPlace_of_tokens hstream hc
  have hend : ∀ t rest, TokenStream.ending l ≠ .token t rest := fun t rest htoken => by cases htoken
  rw [hstream] at h
  have hlocations := (location_mem_of_program hend us).1 _ h
  exact ⟨xs, first.location, ts, rfl, hts,
    hsound.and (hintroduces.and (hlocations.imp fun x hx => hplaces _ hx))⟩

/-- The first call is refused a bracket, and the second one reads a definition. -/
theorem answers_are_well_formed_definition :
    let s := TokenStream.ofText ")const x: t = 1;"
    let t : Tree := .block [.definition "x" "t" true (.int 1 ⟨1, 15⟩) ⟨1, 2⟩] ⟨1, 2⟩
    answer s 1 = .ok t ∧ ∃ xs l ts, t = .block xs l ∧ (remaining s 1).tokens = .ok ts ∧
      t.Every fun x => x.IsSound ∧ x.Introduces ts ∧
        1 ≤ x.location.line ∧ 1 ≤ x.location.column := by
  intro s t
  have hanswer : answer s 1 = .ok t := by with_unfolding_all rfl
  exact ⟨hanswer, answers_are_well_formed _ 1 hanswer⟩

end Parser

end ExprLang
