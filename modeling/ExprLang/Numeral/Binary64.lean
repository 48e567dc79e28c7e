import ExprLang.Numeral.Decimal

set_option autoImplicit false

/-! # Binary floating point numbers of 64 bits

A number is kept as its interchange format: one bit of sign and 63 bits of magnitude. Read as
a natural number, the magnitude is the *rank* of the number among all that are not negative,
in ascending order. Finite numbers are multiples of 2 ^ -1074, and `Binary64.units` says which
multiple. `Binary64.nearest` rounds any fraction to the closest number, and to the one of even
rank if two are equally close. All of it is exact arithmetic on natural numbers.
-/

namespace ExprLang.Numeral

/-- A floating point number, as the word that stands for it. -/
structure Binary64 where
  bits : UInt64
  deriving DecidableEq, Repr

namespace Binary64

/-- The count of significands of one exponent. -/
def binade : Nat := Nat.pow 2 52

/-- The rank of infinity, behind all finite numbers. -/
def infinityRank : Nat := 2047 * binade

/-- Is the sign bit set? -/
def isNegative (x : Binary64) : Bool := Nat.pow 2 63 ≤ x.bits.toNat

/-- The place of the number without its sign among all numbers from zero on. -/
def rank (x : Binary64) : Nat := x.bits.toNat % Nat.pow 2 63

/-- The number of a rank that is not negative. -/
def ofRank (k : Nat) : Binary64 := ⟨UInt64.ofNat k⟩

/-- Is it no number at all? -/
def isNaN (x : Binary64) : Bool := infinityRank < x.rank

/-- Is it infinity, of either sign? -/
def isInfinite (x : Binary64) : Bool := x.rank == infinityRank

/-- Equality of numbers. What is no number equals nothing, and both zeros are equal. -/
def same (x y : Binary64) : Bool :=
  !x.isNaN && !y.isNaN && (x.bits == y.bits || (x.rank == 0 && y.rank == 0))

/-- The finite number of rank `k`, in units of 2 ^ -1074. The first two binades are spaced by
one unit, and the spacing doubles with each further binade. -/
def units (k : Nat) : Nat :=
  if k < 2 * binade then k else (binade + k % binade) * Nat.pow 2 (k / binade - 1)

/-- The whole number nearest to `n / d`, the even one of two. -/
def roundHalfEven (n d : Nat) : Nat :=
  let floor := n / d
  let twice := 2 * (n % d)
  if twice < d then floor
  else if d < twice then floor + 1
  else if floor % 2 = 0 then floor else floor + 1

/-- The rank of the number nearest to `n / d` units. Rounding is to the spacing of the binade
in which the fraction lies; rounding up to the next binade lands on its first rank. -/
def nearest (n d : Nat) : Nat :=
  -- the whole part decides the binade; in the first two the subtraction stops at zero
  let shift := (n / d).log2 - 52
  min infinityRank (shift * binade + roundHalfEven n (d * Nat.pow 2 shift))

/-- The number nearest to a decimal number. -/
def ofDecimal (x : Decimal) : Binary64 :=
  match x.exponent with
  | .ofNat e => ofRank (nearest (x.digits * Nat.pow 10 e * Nat.pow 2 1074) 1)
  | .negSucc e => ofRank (nearest (x.digits * Nat.pow 2 1074) (Nat.pow 10 (e + 1)))

/-- A finite number written out in decimal, without its sign. One unit is 5 ^ 1074 times
10 ^ -1074. -/
def exact (x : Binary64) : Decimal := ⟨units x.rank * Nat.pow 5 1074, -1074⟩

example : ofDecimal ⟨15, -1⟩ = ⟨0x3ff8000000000000⟩ := by decide +kernel

example : ofDecimal ⟨5, -324⟩ = ⟨1⟩ := by decide +kernel

example : ofDecimal ⟨2, -324⟩ = ⟨0⟩ := by decide +kernel

example : ofDecimal ⟨1, 309⟩ = ⟨0x7ff0000000000000⟩ := by decide +kernel

/-- A number halfway between two neighbours goes to the even one. -/
example : ofDecimal ⟨9007199254740993, 0⟩ = ofDecimal ⟨9007199254740992, 0⟩ := by
  decide +kernel

end Binary64

end ExprLang.Numeral
