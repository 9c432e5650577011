/-
Numerals: hexadecimal behind `0x`, octal behind a leading zero, and decimal. A numeral takes as much
of the text as it can, and no word may begin directly behind it.
-/
import EcmaTokens.Number.Decimal
import EcmaTokens.Number.Integer
import EcmaTokens.Source.Scan

namespace EcmaTokens

/-- A number, and whether it is written in the octal form of older editions. -/
structure Numeral where
  value : Binary64
  legacyOctal : Bool
deriving DecidableEq, Repr

namespace Numeral

/-- The width of the decimal digits at the front of a text. -/
def digitRun (cs : List Char) : Nat :=
  (cs.takeWhile isDecimalDigit).length

/-- The numeral of the first `n` characters, unless a word begins behind them. -/
def close (cs : List Char) (n : Nat) (numeral : Option Numeral) : Scan Numeral :=
  if (cs.drop n).head?.any opensWord then .malformed n
  else match numeral with
    | some x => .read x n
    | none => .malformed n

/-! ## Digits of a power of two -/

/-- Reads the digits behind `0x`. -/
def scanHexadecimal [WideConversion] (cs : List Char) : Scan Numeral :=
  let digits := cs.takeWhile isHexDigit
  if digits.isEmpty then .malformed 0
  else close cs digits.length (some ⟨.ofNat (digitsValue 16 digits), false⟩)

/-- Reads the digits behind a leading zero. They cannot run into the digits eight and nine. -/
def scanOctal [WideConversion] (cs : List Char) : Scan Numeral :=
  let digits := cs.takeWhile isOctalDigit
  if (cs.drop digits.length).head?.any isDecimalDigit then .malformed digits.length
  else close cs digits.length (some ⟨.ofNat (digitsValue 8 digits), true⟩)

/-! ## Decimal -/

/-- The width of the digits and of a point among them. -/
def mantissaWidth (cs : List Char) : Nat :=
  let n := digitRun cs
  match cs.drop n with
  | '.' :: fraction => n + 1 + digitRun fraction
  | _ => n

/-- Reads an exponent, if there is one. It is malformed where its digits are missing. -/
def scanExponent : List Char → Scan Unit
  | [] => .read () 0
  | e :: cs =>
    if e == 'e' || e == 'E' then
      let sign := if cs.head?.any (fun c => c == '+' || c == '-') then 1 else 0
      let n := digitRun (cs.drop sign)
      if n = 0 then .malformed (1 + sign) else .read () (1 + sign + n)
    else .read () 0

/-- Finds the end of a decimal numeral. -/
def scanDecimalExtent (cs : List Char) : Scan Unit :=
  let n := mantissaWidth cs
  (scanExponent (cs.drop n)).after n

/-- Reads a decimal numeral. -/
def scanDecimal (cs : List Char) : Scan Numeral :=
  match scanDecimalExtent cs with
  | .malformed n => .malformed n
  | .read () n => close cs n ((Decimal.ofText? (cs.take n)).map fun d => ⟨d.toBinary64, false⟩)

/-- Reads a numeral. -/
def scan [WideConversion] (cs : List Char) : Scan Numeral :=
  match cs with
  | '0' :: c :: rest =>
    if c == 'x' || c == 'X' then (scanHexadecimal rest).after 2
    else if isDecimalDigit c then (scanOctal (c :: rest)).after 1
    else scanDecimal cs
  | _ => scanDecimal cs

end Numeral

end EcmaTokens
