import ExprLang.Numeral.Shortest

set_option autoImplicit false

/-! # How floating point numbers are written

A number is written by its shortest decimal, either plainly, with a point and at least one
digit on each side of it, or scientifically, with the point behind the first digit and a power
of ten. Which of the two depends on the exponent of the first digit.
-/

namespace ExprLang.Numeral

/-- The exponents of the first digit for which a number is written plainly. -/
structure Layout where
  lowest : Int
  highest : Int
  deriving DecidableEq, Repr

/-- Numbers are written plainly from `0.0001` up to sixteen digits before the point. -/
def Layout.standard : Layout := ⟨-4, 15⟩

/-- Digits with a point behind the first `whole` of them; zeros stand in for missing ones. -/
def plain (digits : List Char) (whole : Nat) : List Char :=
  let front := (digits ++ List.replicate (whole - digits.length) '0').take whole
  let back := digits.drop whole
  front ++ '.' :: (if back.isEmpty then ['0'] else back)

/-- Digits with a point behind the first of them, if there are others, and a power of ten. -/
def scientific (digits : List Char) (exponent : Int) : List Char :=
  let fraction := digits.drop 1
  digits.take 1 ++ (if fraction.isEmpty then [] else '.' :: fraction) ++
    'e' :: (toString exponent).toList

/-- A decimal number in a layout. -/
def Decimal.write (layout : Layout) (d : Decimal) : List Char :=
  let digits := Nat.toDigits 10 d.digits
  let exponent := d.exponent + digits.length - 1
  if exponent < layout.lowest || layout.highest < exponent then scientific digits exponent
  else
    match exponent with
    | .ofNat e => plain digits (e + 1)
    -- the first digit stands `e + 1` places behind the point
    | .negSucc e => plain (List.replicate (e + 1) '0' ++ digits) 1

/-- A floating point number in a layout. -/
def Binary64.write (layout : Layout) (x : Binary64) : List Char :=
  if x.isNaN then ['N', 'a', 'N']
  else
    let sign := if x.isNegative then ['-'] else []
    sign ++ if x.isInfinite then ['i', 'n', 'f'] else x.shortest.write layout

/-- A floating point number as text. -/
def Binary64.text (x : Binary64) : String := String.ofList (x.write .standard)

example : Decimal.write .standard ⟨15, -1⟩ = ['1', '.', '5'] := by decide +kernel

example : Decimal.write .standard ⟨2, 3⟩ = ['2', '0', '0', '0', '.', '0'] := by decide +kernel

example : Decimal.write .standard ⟨12, -5⟩ = ['0', '.', '0', '0', '0', '1', '2'] := by
  decide +kernel

example : Decimal.write .standard ⟨12, 19⟩ = ['1', '.', '2', 'e', '2', '0'] := by
  decide +kernel

example : Decimal.write .standard ⟨9, -5⟩ = ['9', 'e', '-', '5'] := by decide +kernel

end ExprLang.Numeral
