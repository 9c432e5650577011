/-
Integers as binary64 values. An integer of at most 64 bits is rounded to the nearest value. How a wider one is
converted is left open: everything that reads numerals takes the conversion as a parameter. An integer that
the conversion gives up on is infinity.
-/
import EcmaTokens.Number.Nearest

namespace EcmaTokens

/-- A conversion of integers of more than 64 bits. -/
class WideConversion where
  toBinary64? : Nat → Option Binary64

/-- The value of an integer. -/
def Binary64.ofNat [WideConversion] (n : Nat) : Binary64 :=
  if n < Nat.pow 2 64 then nearest n 1 else (WideConversion.toBinary64? n).getD infinity

end EcmaTokens
