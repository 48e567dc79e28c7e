import ExprLang.Proofs.Chain
import Mathlib.Data.List.Chain
import Mathlib.Data.List.Perm.Subperm

set_option autoImplicit false

/-! # How deep chains nest

The parser of a chain calls itself for the right operand of each operator that it takes, with the
precedence of that operator as the floor. `Chain.Enters a b` says that the call `b` is made in this
way while the call `a` is open; a list of calls of which each enters the next one is a nest. The
operator that opens a call binds tighter than the floor of the call around it
(`Chain.Enters.floor_lt`), so the floors of a nest ascend, and there are only as many as there are
levels of operators.

`Chain.limited` is the parser of a chain with a limit on how many of these calls are open at once.
As long as no nest is deeper than the limit, the limit makes no difference (`Chain.limited_eq`).
-/

namespace ExprLang

namespace Chain

/-- The precedences of operators. -/
def levels : List Nat := [1, 2, 3, 7, 10, 20]

theorem precedence_mem_levels (op : Operator) : op.precedence ∈ levels := by
  cases op <;> decide

/-! ## Calls inside of calls -/

/-- A call of the parser of chains. -/
structure Call where
  floor : Nat
  left : Tree
  ahead : TokenStream

/-- The first call makes the second one for the right operand of an operator that it takes. -/
inductive Enters : Call → Call → Prop where
  /-- The operator is the next token. -/
  | next {floor : Nat} {left first : Tree} {u : Token} {op : Operator} {s r : TokenStream} :
      u.operator? = some op → floor < op.precedence → (Parser.atom s).Yields first r →
      Enters ⟨floor, left, .token u s⟩ ⟨op.precedence, first, r⟩
  /-- The operator is behind the next operator and its right operand. -/
  | later {floor : Nat} {left first right : Tree} {u : Token} {op : Operator}
      {s r r' : TokenStream} {b : Call} :
      u.operator? = some op → floor < op.precedence → (Parser.atom s).Yields first r →
      (Parser.chain op.precedence first r).Yields right r' →
      Enters ⟨floor, .operation op left right u.location, r'⟩ b →
      Enters ⟨floor, left, .token u s⟩ b

/-- A call is entered at a level above the floor of the call around it. -/
theorem Enters.floor_lt {a b : Call} (h : Enters a b) : a.floor < b.floor ∧ b.floor ∈ levels := by
  induction h with
  | @next _ _ _ _ op _ _ _ hfloor _ => exact ⟨hfloor, precedence_mem_levels op⟩
  | later _ _ _ _ _ ih => exact ih

/-- Calls that are open at once, the outermost first. -/
def IsNest (nest : List Call) : Prop := nest.IsChain Enters

theorem IsNest.floors_ascend {nest : List Call} (h : IsNest nest) :
    (nest.map Call.floor).Pairwise (· < ·) := by
  rw [← List.isChain_iff_pairwise, List.isChain_map]
  exact h.imp fun _ _ h => h.floor_lt.1

/-- Only the outermost call can have a floor that is no level. -/
theorem IsNest.floors_subset {a : Call} {nest : List Call} (h : IsNest (a :: nest)) :
    nest.map Call.floor ⊆ levels := by
  induction nest generalizing a with
  | nil => exact List.nil_subset levels
  | cons b nest ih =>
      obtain ⟨henters, hnest⟩ := List.isChain_cons_cons.mp h
      exact List.cons_subset.mpr ⟨henters.floor_lt.2, ih hnest⟩

/-- A nest inside of the call for a right operand is one deeper around that call. -/
theorem IsNest.next {floor : Nat} {left first : Tree} {u : Token} (op : Operator)
    {s r : TokenStream} {nest : List Call} (hop : u.operator? = some op)
    (hfloor : floor < op.precedence) (hfirst : (Parser.atom s).Yields first r)
    (h : IsNest (⟨op.precedence, first, r⟩ :: nest)) :
    IsNest (⟨floor, left, .token u s⟩ :: ⟨op.precedence, first, r⟩ :: nest) :=
  .cons_cons (.next hop hfloor hfirst) h

/-- Behind a right operand a call goes on, and enters what it enters there. -/
theorem IsNest.later {floor : Nat} {left first right : Tree} {u : Token} {op : Operator}
    {s r r' : TokenStream} {nest : List Call} (hop : u.operator? = some op)
    (hfloor : floor < op.precedence) (hfirst : (Parser.atom s).Yields first r)
    (hright : (Parser.chain op.precedence first r).Yields right r')
    (h : IsNest (⟨floor, .operation op left right u.location, r'⟩ :: nest)) :
    IsNest (⟨floor, left, .token u s⟩ :: nest) := by
  cases nest with
  | nil => exact List.isChain_singleton _
  | cons b nest =>
      obtain ⟨henters, hnest⟩ := List.isChain_cons_cons.mp h
      exact .cons_cons (.later hop hfloor hfirst hright henters) hnest

theorem IsNest.length_le {nest : List Call} (h : IsNest nest) : nest.length ≤ 7 := by
  cases nest with
  | nil => exact Nat.zero_le 7
  | cons a nest =>
      have hnodup : (nest.map Call.floor).Nodup :=
        (List.pairwise_cons.mp h.floors_ascend).2.imp Nat.ne_of_lt
      have hlength := (List.subperm_of_subset hnodup h.floors_subset).length_le
      rw [List.length_map] at hlength
      exact Nat.succ_le_succ hlength

/-! ## A limit on open calls -/

/-- The operators behind `left` that bind tighter than `floor`, with their right operands, where no
more calls than the limit may be open at once; it fails in the call beyond. -/
def limited (tooDeep : ParseError) (limit floor : Nat) (left : Tree) (s : TokenStream) :
    Outcome Tree (s.size + 1) :=
  match limit with
  | 0 => .fail tooDeep s []
  | inner + 1 =>
    Parser.look s fun t =>
      match t.operator? with
      | none => .ok left s (Nat.lt_succ_self _) []
      | some op =>
        if op.precedence ≤ floor then .ok left s (Nat.lt_succ_self _) []
        else
          (Parser.expect .operator op.symbol s).andThen fun sign r _ =>
          (Parser.atom r).andThen fun first r' _ =>
          (limited tooDeep inner op.precedence first r').andThen fun right r'' _ =>
          -- going on behind an operand opens no further call
          (limited tooDeep (inner + 1) floor (.operation op left right sign.location) r'').widen
            (by omega)
termination_by s.size

/-- If no nest is deeper than the limit, the limit makes no difference. -/
theorem limited_eq (tooDeep : ParseError) {limit floor : Nat} {left : Tree} {s : TokenStream}
    (h : ∀ nest, IsNest (⟨floor, left, s⟩ :: nest) → nest.length < limit) :
    limited tooDeep limit floor left s = Parser.chain floor left s := by
  obtain ⟨n, hn⟩ : ∃ n, s.size < n := ⟨_, Nat.lt_succ_self s.size⟩
  induction n generalizing limit floor left s with
  | zero => exact absurd hn (Nat.not_lt_zero _)
  | succ n ih =>
      have hlimit : 0 < limit := h [] (List.isChain_singleton _)
      obtain ⟨inner, rfl⟩ := Nat.exists_eq_succ_of_ne_zero (Nat.ne_of_gt hlimit)
      rw [limited, Parser.chain]
      cases s with
      | token u s =>
          cases hop : u.operator? with
          | none => simp only [Parser.look, TokenStream.head, hop]
          | some op =>
              by_cases hfloor : op.precedence ≤ floor
              · simp only [Parser.look, TokenStream.head, hop, hfloor, if_true]
              have hsign : u.is .operator op.symbol = true := Token.operator?_eq_some.mp hop
              simp only [Parser.look, TokenStream.head, hop, hfloor, if_false, Parser.expect,
                Parser.require, hsign, if_true, Outcome.andThen_ok]
              have hfloor := Nat.lt_of_not_le hfloor
              simp only [TokenStream.size] at hn
              refine congrArg _ (Outcome.andThen_congr fun first r hfirst => ?_)
              have hr := hfirst.size_lt
              have hinner : ∀ nest, IsNest (⟨op.precedence, first, r⟩ :: nest) →
                  nest.length < inner := fun nest hnest =>
                Nat.lt_of_succ_lt_succ (h (_ :: nest) (hnest.next op hop hfloor hfirst))
              rw [ih hinner (by omega)]
              refine Outcome.andThen_congr fun right r' hright => ?_
              have hr' := hright.size_lt
              have hlater : ∀ nest,
                  IsNest (⟨floor, .operation op left right u.location, r'⟩ :: nest) →
                    nest.length < inner + 1 := fun nest hnest =>
                h nest (hnest.later hop hfloor hfirst hright)
              rw [ih hlater (by omega)]
      | fault e rest => rfl
      | stuck x l => rfl
      | ending l => rfl

/-- The floors of a nest ascend, so no more than seven calls are open at once, and in an expression,
whose chain has the floor 0, the other floors are the levels of operators. A limit of seven on the
open calls makes no difference to any call on any stream. -/
theorem nests_are_bounded :
    (∀ nest, IsNest nest → (nest.map Call.floor).Pairwise (· < ·) ∧ nest.length ≤ 7 ∧
      ((∀ a ∈ nest.head?, a.floor = 0) → ∀ a ∈ nest, a.floor ∈ [0, 1, 2, 3, 7, 10, 20])) ∧
    ∀ tooDeep floor left s, limited tooDeep 7 floor left s = Parser.chain floor left s := by
  refine ⟨fun nest h => ⟨h.floors_ascend, h.length_le, fun hhead => ?_⟩, ?_⟩
  · cases nest with
    | nil => exact nofun
    | cons a nest =>
        have ha : a.floor = 0 := hhead a rfl
        refine List.forall_mem_cons.mpr ⟨ha ▸ List.mem_cons_self .., fun b hb => ?_⟩
        exact List.mem_cons_of_mem 0 (h.floors_subset (List.mem_map_of_mem hb))
  · exact fun tooDeep floor left s => limited_eq tooDeep fun nest h => h.length_le

/-- What is ahead in `a = b || c && d < e + f * g;` behind the first `n` tokens. -/
def levelsStream (n : Nat) : TokenStream :=
  (TokenStream.ending ⟨1, 29⟩).prepend <| List.drop n
    [⟨.identifier, "a", ⟨1, 1⟩⟩, ⟨.operator, "=", ⟨1, 3⟩⟩, ⟨.identifier, "b", ⟨1, 5⟩⟩,
      ⟨.operator, "||", ⟨1, 7⟩⟩, ⟨.identifier, "c", ⟨1, 10⟩⟩, ⟨.operator, "&&", ⟨1, 12⟩⟩,
      ⟨.identifier, "d", ⟨1, 15⟩⟩, ⟨.operator, "<", ⟨1, 17⟩⟩, ⟨.identifier, "e", ⟨1, 19⟩⟩,
      ⟨.operator, "+", ⟨1, 21⟩⟩, ⟨.identifier, "f", ⟨1, 23⟩⟩, ⟨.operator, "*", ⟨1, 25⟩⟩,
      ⟨.identifier, "g", ⟨1, 27⟩⟩, ⟨.punctuation, ";", ⟨1, 28⟩⟩]

/-- The calls that are open where the last operand of `a = b || c && d < e + f * g` is read. -/
def levelsNest : List Call :=
  [⟨0, .reference "a" ⟨1, 1⟩, levelsStream 1⟩, ⟨1, .reference "b" ⟨1, 5⟩, levelsStream 3⟩,
    ⟨2, .reference "c" ⟨1, 10⟩, levelsStream 5⟩, ⟨3, .reference "d" ⟨1, 15⟩, levelsStream 7⟩,
    ⟨7, .reference "e" ⟨1, 19⟩, levelsStream 9⟩, ⟨10, .reference "f" ⟨1, 23⟩, levelsStream 11⟩,
    ⟨20, .reference "g" ⟨1, 27⟩, levelsStream 13⟩]

/-- A chain with an operator of each level, looser ones first, needs all seven calls. -/
theorem nests_are_bounded_levels :
    IsNest levelsNest ∧ levelsNest.map Call.floor = [0, 1, 2, 3, 7, 10, 20] ∧
      levelsNest.length ≤ 7 ∧ (∀ a ∈ levelsNest, a.floor ∈ [0, 1, 2, 3, 7, 10, 20]) ∧
      ∀ tooDeep, limited tooDeep 7 0 (.reference "a" ⟨1, 1⟩) (levelsStream 1) =
          Parser.chain 0 (.reference "a" ⟨1, 1⟩) (levelsStream 1) ∧
        (limited tooDeep 6 0 (.reference "a" ⟨1, 1⟩) (levelsStream 1)).result = .error tooDeep := by
  have hatom : ∀ {name : String} {l : Location} {u : Token} {s : TokenStream},
      u.isPunctuation "(" = false →
      (Parser.atom (.token ⟨.identifier, name, l⟩ (.token u s))).Yields (.reference name l)
        (.token u s) :=
    fun hu => (Parser.Parses.atom (.operand rfl) (.noCall rfl hu)).yields
  have hnest : IsNest levelsNest :=
    .next .assign rfl (by decide) (hatom rfl) <| .next .or rfl (by decide) (hatom rfl) <|
      .next .and rfl (by decide) (hatom rfl) <| .next .less rfl (by decide) (hatom rfl) <|
      .next .add rfl (by decide) (hatom rfl) <| .next .multiply rfl (by decide) (hatom rfl) <|
      List.isChain_singleton _
  obtain ⟨hnests, hlimited⟩ := nests_are_bounded
  obtain ⟨-, hlength, hfloors⟩ := hnests levelsNest hnest
  refine ⟨hnest, rfl, hlength, hfloors fun a ha => ?_, fun tooDeep => ⟨hlimited _ _ _ _, ?_⟩⟩
  · cases ha
    rfl
  · with_unfolding_all rfl

end Chain

end ExprLang
