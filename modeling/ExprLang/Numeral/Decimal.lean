set_option autoImplicit false

/-! # Decimal numbers

A decimal number is a natural number of digits times a power of ten. The digits of a text are
read by Horner's rule (`ofDigits`), so leading zeros do not matter and no length is too long.
-/

namespace ExprLang.Numeral

/-- The number `digits * 10 ^ exponent`. -/
structure Decimal where
  digits : Nat
  exponent : Int
  deriving DecidableEq, Repr

/-- The value of a digit from 0 to 9. -/
def digitValue (c : Char) : Nat := c.toNat - '0'.toNat

/-- The number that a sequence of digits denotes. -/
def ofDigits (cs : List Char) : Nat := cs.foldl (fun n c => 10 * n + digitValue c) 0

/-- The number that digits with a point among them denote: each digit behind the point divides
by ten once more. -/
def Decimal.ofText (cs : List Char) : Decimal :=
  let whole := cs.takeWhile (· != '.')
  let fraction := (cs.dropWhile (· != '.')).drop 1
  ⟨ofDigits (whole ++ fraction), -(fraction.length : Int)⟩

end ExprLang.Numeral
