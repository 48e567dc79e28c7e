import ExprLang.Numeral.Binary64

set_option autoImplicit false

/-! # The shortest decimal that reads back

Of all decimal numbers that round to a given floating point number, `Binary64.shortest` takes
one on the coarsest grid of tens that holds any. On a grid only the two neighbours of the
number come into question; if both round to it, the nearer one is taken, and the upper one if
they are equally near.
-/

namespace ExprLang.Numeral.Binary64

/-- A decimal on the grid `10 ^ n` above the last digit of `x.exact` that rounds to `x`, if a
neighbour of `x` on that grid does. -/
def onGrid? (x : Binary64) (n : Nat) : Option Decimal :=
  let step := Nat.pow 10 n
  let below := x.exact.digits / step
  let exponent := x.exact.exponent + n
  let readsBack (digits : Nat) : Bool := (ofDecimal ⟨digits, exponent⟩).rank == x.rank
  match readsBack below, readsBack (below + 1) with
  | true, true =>
    -- twice the distance from below against one step of the grid
    some ⟨if 2 * (x.exact.digits % step) < step then below else below + 1, exponent⟩
  | true, false => some ⟨below, exponent⟩
  | false, true => some ⟨below + 1, exponent⟩
  | false, false => none

/-- The first hit on a grid from `10 ^ n` downwards; the number itself at the end. -/
def shortestFrom (x : Binary64) : Nat → Decimal
  | 0 => x.exact
  | n + 1 =>
    match x.onGrid? (n + 1) with
    | some d => d
    | none => shortestFrom x n

/-- The shortest decimal that rounds to the finite number `x`, without its sign. The first
grid is above the first digit of the number. -/
def shortest (x : Binary64) : Decimal :=
  if x.rank = 0 then ⟨0, 0⟩ else x.shortestFrom (Nat.toDigits 10 x.exact.digits).length

end ExprLang.Numeral.Binary64
