/-
Rounding to binary64. `Binary64.nearest a b` is the value nearest to the quotient a / b; of two
values equally near it is the one with an even significand, and a quotient of at least
2^1024 - 2^970 is infinity. The quotient is measured in units of 2^-1074, which every value is a
multiple of, so one division and one comparison decide.
-/
import EcmaTokens.Number.Binary64

namespace EcmaTokens

/-- The integer nearest to the quotient `a / b`, the even one of two equally near. -/
def roundHalfEven (a b : Nat) : Nat :=
  let q := a / b
  let r := a % b
  if 2 * r < b then q
  else if b < 2 * r then q + 1
  else q + q % 2

namespace Binary64

/-- The pattern of the value nearest to `a / b`. The quotient keeps 53 bits, or those above the
smallest unit; adding the rounded quotient to the exponent field carries into it by itself. -/
def nearestPattern (a b : Nat) : Nat :=
  let scaled := a * Nat.pow 2 1074
  let shift := (scaled / b).log2 - 52
  min (shift * Nat.pow 2 52 + roundHalfEven scaled (b * Nat.pow 2 shift)) infinityPattern

/-- The value nearest to the quotient `a / b`. -/
def nearest (a b : Nat) : Binary64 :=
  ofPattern (nearestPattern a b)

end Binary64

end EcmaTokens
