import ExprLang.Proofs.Rendering.Floats
import ExprLang.Proofs.WellFormed
import Mathlib.Data.List.Induction
import Mathlib.Data.Nat.Digits.Defs

set_option autoImplicit false

/-! # Literals and their values

An integer literal stands for the number that its digits denote in decimal, each digit times its
power of ten (`Numeral.decimalValue`), however many there are, and a character literal for its
character. `Token.IsInvalid` says which literals stand for no value. There are no others: what a
lexer delivers as a floating literal is digits with a point among them, and reading it never fails,
even if the function that reads it refuses everything else (`Token.operandBy`).

`literals_are_exact` says this of the literals of every source.
-/

namespace ExprLang

open Lexer
open CharClass (isDigit)
open Numeral (Binary64 Decimal digitValue ofDigits)

/-! ## Values of digits -/

namespace Numeral

/-- The sum of the digits, each times its power of ten. -/
def decimalValue (cs : List Char) : Nat := Nat.ofDigits 10 (cs.reverse.map digitValue)

/-- Reading digits from the left comes to their sum. -/
theorem ofDigits_eq_decimalValue (cs : List Char) : ofDigits cs = decimalValue cs := by
  induction cs using List.reverseRecOn with
  | nil => rfl
  | append_singleton cs c ih =>
      have hread : ofDigits (cs ++ [c]) = 10 * ofDigits cs + digitValue c := List.foldl_append
      rw [hread, ih, decimalValue, decimalValue, List.reverse_append, List.map_append,
        List.reverse_singleton, List.map_singleton, List.singleton_append, Nat.ofDigits_cons]
      omega

/-- Zeros in front of the digits of a number do not change it. -/
theorem decimalValue_zeros_append (k n : Nat) :
    decimalValue (List.replicate k '0' ++ Nat.toDigits 10 n) = n := by
  rw [← ofDigits_eq_decimalValue, ofDigits_zeros_append, ofDigits_toDigits]

end Numeral

open Numeral (decimalValue)

/-! ## Literals that stand for no value -/

namespace Token

/-- The token is a literal that stands for no value, for this reason. -/
def IsInvalid (t : Token) (reason : String) : Prop :=
  t.kind = .int ∧ 2 ^ 63 - 1 < decimalValue t.value.toList ∧
      reason = "number too large to fit in target type" ∨
    t.kind = .char ∧ t.value.length ≠ 1 ∧
      reason = "char literal must hold exactly one character"

/-- The expression that a token is by itself, where floating literals are read by a function that
may refuse them. -/
def operandBy (readFloat : String → Except String Binary64) (t : Token) :
    Except SyntaxError Tree :=
  if t.kind = .float then
    match readFloat t.value with
    | .ok x => .ok (.float x t.location)
    | .error reason => .error (.invalidLiteral t reason)
  else t.operand

theorem operand_of_int {t : Token} (h : t.kind = .int) :
    t.operand = if decimalValue t.value.toList ≤ 2 ^ 63 - 1 then
        .ok (.int (decimalValue t.value.toList) t.location)
      else .error (.invalidLiteral t "number too large to fit in target type") := by
  simp only [operand, h, ← Numeral.ofDigits_eq_decimalValue]
  rfl

theorem operand_of_char {t : Token} (h : t.kind = .char) :
    t.operand = match t.value.toList with
      | [c] => .ok (.char c t.location)
      | _ => .error (.invalidLiteral t "char literal must hold exactly one character") := by
  simp only [operand, h]
  rfl

theorem isInvalid_iff_of_int {t : Token} (h : t.kind = .int) (reason : String) :
    t.IsInvalid reason ↔ 2 ^ 63 - 1 < decimalValue t.value.toList ∧
      reason = "number too large to fit in target type" := by
  simp only [IsInvalid, h, true_and, reduceCtorEq, false_and, or_false]

theorem isInvalid_iff_of_char {t : Token} (h : t.kind = .char) (reason : String) :
    t.IsInvalid reason ↔ t.value.length ≠ 1 ∧
      reason = "char literal must hold exactly one character" := by
  simp only [IsInvalid, h, true_and, reduceCtorEq, false_and, false_or]

/-- A token is refused as a literal if and only if it stands for no value. -/
theorem operand_eq_invalidLiteral_iff {t u : Token} {reason : String} :
    t.operand = .error (.invalidLiteral u reason) ↔ u = t ∧ t.IsInvalid reason := by
  cases hkind : t.kind with
  | int =>
      rw [operand_of_int hkind, isInvalid_iff_of_int hkind]
      split
      · rename_i hle
        exact ⟨fun h => (by cases h), fun h => absurd hle (Nat.not_le.mpr h.2.1)⟩
      · rename_i hle
        constructor
        · intro h
          cases h
          exact ⟨rfl, Nat.not_le.mp hle, rfl⟩
        · rintro ⟨rfl, -, rfl⟩
          rfl
  | char =>
      rw [operand_of_char hkind, isInvalid_iff_of_char hkind, ← String.length_toList]
      split
      · rename_i c hvalue
        rw [hvalue]
        exact ⟨fun h => (by cases h), fun h => absurd rfl h.2.1⟩
      · rename_i hvalue
        constructor
        · intro h
          cases h
          refine ⟨rfl, fun hlength => ?_, rfl⟩
          obtain ⟨c, hc⟩ := List.length_eq_one_iff.mp hlength
          exact hvalue c hc
        · rintro ⟨rfl, -, rfl⟩
          rfl
  | keyword =>
      simp only [operand, hkind, IsInvalid, reduceCtorEq, false_and, or_self, and_false, iff_false]
      intro h
      split at h
      · cases h
      · split at h <;> cases h
  | _ => simp [operand, hkind, IsInvalid]

end Token

/-! ## Tokens of a source -/

/-- The digits of an integer literal are digits, and there are some. -/
theorem Terminal.IsWritable.isRun {value : String} (h : IsWritable (.int, value)) :
    IsRun isDigit value.toList := by
  obtain ⟨⟨terminal, text, hlexeme⟩, hterminal⟩ := h
  obtain rfl : terminal = (.int, value) := hterminal
  generalize value.toList = cs at hlexeme
  cases hlexeme with
  | int hds _ => exact hds

theorem Cursor.isWritable_of_read {c behind : Cursor} {t : Token} (h : c.read = .token t behind) :
    t.terminal.IsWritable := by
  have hstream : TokenStream.ofCursor c = (TokenStream.ofCursor behind).prepend [t] :=
    TokenStream.ofCursor_of_token h
  exact isWritable_of_ofCursor hstream _ (by simp [word])

/-- A primary that begins with a literal of a number or of a character is this literal. -/
theorem Parser.primary_of_literal {s r : TokenStream} {t : Token} (hs : s = .token t r)
    (ht : t.kind = .int ∨ t.kind = .char) :
    (primary s).rest = r ∧ (primary s).result = match t.operand with
      | .ok tree => .ok tree
      | .error e => .error (.syntactic e) := by
  subst hs
  have hpunctuation : ∀ value, t.isPunctuation value = false := by
    rcases ht with ht | ht <;> simp [Token.isPunctuation, Token.is, ht]
  have hkeyword : ∀ value, t.isKeyword value = false := by
    rcases ht with ht | ht <;> simp [Token.isKeyword, Token.is, ht]
  rw [primary]
  simp only [look, TokenStream.head, hpunctuation, hkeyword, Bool.false_eq_true, if_false,
    Bool.or_self]
  cases hoperand : t.operand <;> simp [operand, hoperand, Outcome.result, Outcome.rest]

/-- Reading floating literals cannot fail, whatever else the function that reads them refuses. -/
theorem Token.operandBy_eq {readFloat : String → Except String Binary64}
    (hread : ∀ text : String, IsFraction text.toList →
      readFloat text = .ok (Binary64.ofDecimal (Decimal.ofText text.toList)))
    {t : Token} (ht : t.terminal.IsWritable) : t.operandBy readFloat = t.operand := by
  obtain ⟨kind, value, l⟩ := t
  unfold operandBy
  split
  · rename_i hkind
    obtain rfl : kind = .float := hkind
    simp only [hread value ht.isFraction, operand]
  · rfl

namespace Numeral

/-- Reads digits with a point among them, and nothing else. -/
def readFraction (text : String) : Except String Binary64 :=
  let cs := text.toList
  let point := (cs.dropWhile isDigit).head?
  let fraction := (cs.dropWhile isDigit).drop 1
  if (cs.head?.any isDigit && point == some '.' && fraction.all isDigit) = true then
    .ok (Binary64.ofDecimal (Decimal.ofText cs))
  else .error "invalid float literal"

theorem readFraction_of_isFraction {text : String} (h : IsFraction text.toList) :
    readFraction text = .ok (Binary64.ofDecimal (Decimal.ofText text.toList)) := by
  obtain ⟨ds, es, htext, hds, hes⟩ := h
  obtain ⟨d, ds', rfl, hd⟩ := hds.exists_cons
  have hpoint : StopsAt isDigit ('.' :: es) := stopsAt_cons.mpr (by decide)
  have hdrop : text.toList.dropWhile isDigit = '.' :: es := by
    rw [htext, dropWhile_append_of_stopsAt hds.2 hpoint]
  have hhead : text.toList.head?.any isDigit = true := by
    rw [htext]
    exact hd
  have hall : es.all isDigit = true := List.all_eq_true.mpr hes
  simp [readFraction, hdrop, hhead, hall]

end Numeral

/-- A parser refuses a literal if and only if it takes it as an operand and the literal stands for
no value. -/
theorem parse_eq_invalidLiteral_iff {source : String} {t : Token} {reason : String} :
    parse source = .error (.syntactic (.invalidLiteral t reason)) ↔
      t.IsInvalid reason ∧ ∃ ts l gs, (ofText source).Delivers ts l ∧ l.next.1 = .ok t ∧
        Run [.statements] ts (.demand .operand :: gs) l.stream := by
  constructor
  · intro h
    obtain ⟨ts, l, g, gs, r, hdelivers, -, hnext, hrun, hfails⟩ := exists_delivers_of_syntactic h
    cases hfails with
    | refused hhead hrefusal =>
        obtain ⟨rfl, hoperand⟩ | ⟨-, kind, value, he⟩ := Demand.refusal_eq_some hrefusal
        · obtain ⟨rfl, hinvalid⟩ := Token.operand_eq_invalidLiteral_iff.mp hoperand
          exact ⟨hinvalid, ts, l, gs, hdelivers, hnext, hrun⟩
        · cases he
  · rintro ⟨hinvalid, ts, l, gs, hdelivers, hnext, hrun⟩
    have hhead : l.stream.head = .ok t := by
      rw [← next_fst (hdelivers.stream_eq (sound_ofCursor _)).2, hnext]
    have hoperand := Token.operand_eq_invalidLiteral_iff.mpr ⟨rfl, hinvalid⟩
    have hrefusal : Demand.operand.refusal t = some (.invalidLiteral t reason) := by
      simp only [Demand.refusal, hoperand]
    exact parse_eq_error_of_run hdelivers hrun (.refused hhead hrefusal)

/-- A literal is refused by a parser if and only if it is an operand that is an integer above the
largest one, or a character literal that does not hold one character. Wherever a parser stands, an
integer literal that comes next is the number of its digits, with any number of zeros in front, and
a character literal is its character, unless they are refused so; and a floating literal is digits
with a point among them, so it is not refused by any function that reads these. -/
theorem literals_are_exact :
    (∀ source t reason, parse source = .error (.syntactic (.invalidLiteral t reason)) ↔
      t.IsInvalid reason ∧ ∃ ts l gs, (ofText source).Delivers ts l ∧ l.next.1 = .ok t ∧
        Run [.statements] ts (.demand .operand :: gs) l.stream) ∧
    (∀ k n, decimalValue (List.replicate k '0' ++ Nat.toDigits 10 n) = n) ∧
    ∀ c t behind, Cursor.read c = .token t behind →
      let taken := Parser.primary (.ofCursor c)
      (t.kind = .int → IsRun isDigit t.value.toList ∧ taken.rest = .ofCursor behind ∧
        taken.result = if decimalValue t.value.toList ≤ 2 ^ 63 - 1 then
            .ok (.int (decimalValue t.value.toList) t.location)
          else .error (.syntactic
            (.invalidLiteral t "number too large to fit in target type"))) ∧
      (t.kind = .char → taken.rest = .ofCursor behind ∧
        taken.result = match t.value.toList with
          | [x] => .ok (.char x t.location)
          | _ => .error (.syntactic
            (.invalidLiteral t "char literal must hold exactly one character"))) ∧
      (t.kind = .float → IsFraction t.value.toList) ∧
      ∀ readFloat : String → Except String Binary64,
        (∀ text : String, IsFraction text.toList →
          readFloat text = .ok (Binary64.ofDecimal (Decimal.ofText text.toList))) →
        t.operandBy readFloat = t.operand := by
  refine ⟨fun _ _ _ => parse_eq_invalidLiteral_iff, Numeral.decimalValue_zeros_append, ?_⟩
  intro c t behind hread taken
  have hwritable := Cursor.isWritable_of_read hread
  have hstream := TokenStream.ofCursor_of_token hread
  refine ⟨fun hkind => ?_, fun hkind => ?_, fun hkind => ?_, fun readFloat hfloat => ?_⟩
  · obtain ⟨hrest, hresult⟩ := Parser.primary_of_literal hstream (.inl hkind)
    refine ⟨(hkind ▸ hwritable : Terminal.IsWritable (.int, t.value)).isRun, hrest, ?_⟩
    rw [hresult, Token.operand_of_int hkind]
    by_cases hle : decimalValue t.value.toList ≤ 2 ^ 63 - 1
    · rw [if_pos hle, if_pos hle]
    · rw [if_neg hle, if_neg hle]
  · obtain ⟨hrest, hresult⟩ := Parser.primary_of_literal hstream (.inr hkind)
    refine ⟨hrest, ?_⟩
    rw [hresult, Token.operand_of_char hkind]
    cases t.value.toList with
    | nil => rfl
    | cons x xs => cases xs <;> rfl
  · exact (hkind ▸ hwritable : Terminal.IsWritable (.float, t.value)).isFraction
  · exact Token.operandBy_eq hfloat hwritable

/-- One more than the largest integer, a small number behind zeros, an escaped character, and digits
with a point behind them, where nothing but digits with a point among them is read as a number. -/
theorem literals_are_exact_zeros :
    let large : Token := ⟨.int, "009223372036854775808", ⟨1, 1⟩⟩
    let float : Token := ⟨.float, "1.", ⟨1, 1⟩⟩
    parse "009223372036854775808;" = .error (.syntactic
        (.invalidLiteral large "number too large to fit in target type")) ∧
      2 ^ 63 - 1 < decimalValue large.value.toList ∧
      (Parser.primary (.ofText "0042;")).result = .ok (.int 42 ⟨1, 1⟩) ∧
      (Parser.primary (.ofText "'\\n'")).result = .ok (.char '\n' ⟨1, 1⟩) ∧
      float.operandBy Numeral.readFraction = float.operand := by
  intro large float
  obtain ⟨hinvalid, hzeros, hliterals⟩ := literals_are_exact
  have hparse : parse "009223372036854775808;" = .error (.syntactic
      (.invalidLiteral large "number too large to fit in target type")) := by
    with_unfolding_all rfl
  have hint : (Cursor.ofText "0042;").read = .token ⟨.int, "0042", ⟨1, 1⟩⟩ ⟨[';'], ⟨1, 5⟩⟩ := by
    with_unfolding_all rfl
  have hchar : (Cursor.ofText "'\\n'").read = .token ⟨.char, "\n", ⟨1, 1⟩⟩ ⟨[], ⟨1, 5⟩⟩ := by
    with_unfolding_all rfl
  have hfloat : (Cursor.ofText "1.").read = .token float ⟨[], ⟨1, 3⟩⟩ := by
    with_unfolding_all rfl
  refine ⟨hparse, ?_, ?_, ?_, ?_⟩
  · obtain ⟨⟨-, hlarge, -⟩ | ⟨hkind, -⟩, -⟩ := (hinvalid _ _ _).mp hparse
    · exact hlarge
    · cases hkind
  · have hresult := ((hliterals _ _ _ hint).1 rfl).2.2
    have hvalue : decimalValue "0042".toList = 42 := hzeros 2 42
    rw [hvalue] at hresult
    exact hresult
  · exact ((hliterals _ _ _ hchar).2.1 rfl).2
  · exact (hliterals _ _ _ hfloat).2.2.2 _ fun _ => Numeral.readFraction_of_isFraction

end ExprLang
