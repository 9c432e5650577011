/-
Decimal numerals: digits with an optional point and an optional exponent. `Decimal.ofText?` reads
exactly these, and `Decimal.toBinary64` is the nearest value. An exponent can have any number of
digits, so a power of ten is formed only where the result can be finite and positive.
-/
import EcmaTokens.Source.Character
import EcmaTokens.Number.Nearest

namespace EcmaTokens

/-- The number `digits · 10^exponent`. -/
structure Decimal where
  digits : List Char
  exponent : Int
deriving DecidableEq, Repr

namespace Decimal

/-! ## Reading -/

/-- Reads an exponent: digits with an optional sign. -/
def exponentOfText? (cs : List Char) : Option Int :=
  let unsigned (digits : List Char) : Option Nat :=
    if !digits.isEmpty && digits.all isDecimalDigit then some (digitsValue 10 digits) else none
  match cs with
  | '+' :: digits => (unsigned digits).map Int.ofNat
  | '-' :: digits => (unsigned digits).map fun n => -Int.ofNat n
  | digits => (unsigned digits).map Int.ofNat

/-- Reads what follows the digits: nothing, or `e` or `E` and an exponent. -/
def exponentPartOfText? : List Char → Option Int
  | [] => some 0
  | c :: cs => if c == 'e' || c == 'E' then exponentOfText? cs else none

/-- Reads a whole text as a decimal numeral. There is a digit before or behind the point. -/
def ofText? (cs : List Char) : Option Decimal :=
  let whole := cs.takeWhile isDecimalDigit
  let (fraction, tail) := match cs.dropWhile isDecimalDigit with
    | '.' :: cs => (cs.takeWhile isDecimalDigit, cs.dropWhile isDecimalDigit)
    | cs => ([], cs)
  if whole.isEmpty && fraction.isEmpty then none
  else (exponentPartOfText? tail).map fun e => ⟨whole ++ fraction, e - fraction.length⟩

/-! ## Value -/

def coefficient (d : Decimal) : Nat :=
  digitsValue 10 d.digits

/-- The value nearest to a decimal. A positive number with an exponent above 310 exceeds every
finite value, and one below 10^-330 is less than half of the smallest. -/
def toBinary64 (d : Decimal) : Binary64 :=
  if d.coefficient = 0 then .zero
  else if 310 < d.exponent then .infinity
  else if (d.digits.length : Int) + d.exponent < -330 then .zero
  else .nearest (d.coefficient * Nat.pow 10 d.exponent.toNat) (Nat.pow 10 (-d.exponent).toNat)

end Decimal

end EcmaTokens
