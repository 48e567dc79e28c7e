set_option autoImplicit false

/-! # Blank characters

The characters with the Unicode property `White_Space`, as a table of ranges.
-/

namespace ExprLang.Text

/-- The code points with the property `White_Space`, as ranges that include both ends, in
ascending order. -/
def blankRanges : List (Nat × Nat) :=
  [(0x09, 0x0D), (0x20, 0x20), (0x85, 0x85), (0xA0, 0xA0), (0x1680, 0x1680), (0x2000, 0x200A),
    (0x2028, 0x2029), (0x202F, 0x202F), (0x205F, 0x205F), (0x3000, 0x3000)]

/-- Is `c` a blank? -/
def isBlank (c : Char) : Bool :=
  blankRanges.any fun r => r.1 ≤ c.toNat && c.toNat ≤ r.2

/-- The table holds 25 characters. -/
example : (blankRanges.map fun r => r.2 + 1 - r.1).sum = 25 := by decide

/-- The ranges ascend and do not meet. -/
example : blankRanges.Pairwise fun r s => r.2 + 1 < s.1 := by decide

end ExprLang.Text
