/-
IEEE 754 binary64 values as bit patterns. The pattern of a magnitude is a natural number, and
`units` gives its value as a multiple of 2^-1074, the smallest positive value. `units` is strictly
increasing, so patterns are ordered as the values they stand for, and the pattern of infinity is
where the next value would stand if the format went on.
-/

namespace EcmaTokens

structure Binary64 where
  bits : UInt64
deriving DecidableEq, Repr, Inhabited

namespace Binary64

/-- The bits below the sign. -/
def pattern (x : Binary64) : Nat :=
  x.bits.toNat % Nat.pow 2 63

def isNegative (x : Binary64) : Bool :=
  Nat.pow 2 63 ≤ x.bits.toNat

/-- The pattern of infinity; larger ones are not numbers. -/
def infinityPattern : Nat :=
  2047 * Nat.pow 2 52

def isNaN (x : Binary64) : Bool :=
  infinityPattern < x.pattern

def isInfinite (x : Binary64) : Bool :=
  x.pattern == infinityPattern

def isZero (x : Binary64) : Bool :=
  x.pattern == 0

/-- The non-negative value of a pattern. -/
def ofPattern (p : Nat) : Binary64 :=
  ⟨UInt64.ofNat p⟩

def infinity : Binary64 :=
  ofPattern infinityPattern

def zero : Binary64 :=
  ofPattern 0

/-- The integer significand of a pattern. The leading bit is implied from the exponent 1 on. -/
def significand (p : Nat) : Nat :=
  if p / Nat.pow 2 52 = 0 then p % Nat.pow 2 52 else Nat.pow 2 52 + p % Nat.pow 2 52

/-- How often the significand of a pattern is doubled. -/
def scale (p : Nat) : Nat :=
  p / Nat.pow 2 52 - 1

/-- The value of a pattern, as a multiple of 2^-1074. -/
def units (p : Nat) : Nat :=
  significand p * Nat.pow 2 (scale p)

end Binary64

end EcmaTokens
