/-
The text of a number. The digits are the shortest that read back. From 1e-6 up to below 1e21 they are
written in positional notation; smaller and larger numbers are written in scientific notation, and their
exponents then get a sign each.
-/
import EcmaTokens.Number.Nearest
import EcmaTokens.Number.Shortest

namespace EcmaTokens

namespace Scientific

/-- The decimal digits of the coefficient. -/
def digits (x : Scientific) : List Char :=
  Nat.toDigits 10 x.coefficient

/-- The exponent `n` for which the number is `0.d1…dk · 10^n`. -/
def pointPosition (x : Scientific) : Int :=
  x.digits.length + x.exponent

/-- Positional notation, with zeros where the digits do not reach the point. -/
def positional (x : Scientific) : List Char :=
  let ds := x.digits
  let n := x.pointPosition
  if n ≤ 0 then '0' :: '.' :: (List.replicate (-n).toNat '0' ++ ds)
  else if n < ds.length then ds.take n.toNat ++ '.' :: ds.drop n.toNat
  else ds ++ List.replicate (n.toNat - ds.length) '0'

/-- One digit, and the others behind a point if there are any. -/
def mantissa : List Char → List Char
  | d :: ds@(_ :: _) => d :: '.' :: ds
  | ds => ds

/-- Scientific notation, in which an exponent has no sign but a minus. -/
def exponential (x : Scientific) : List Char :=
  let e := x.pointPosition - 1
  let exponent := Nat.toDigits 10 e.natAbs
  mantissa x.digits ++ 'e' :: (if e < 0 then '-' :: exponent else exponent)

end Scientific

/-- Puts a plus in front of the exponent that a text ends with, unless it has a minus. -/
def signExponent (cs : List Char) : List Char :=
  let front := cs.takeWhile (· != 'e')
  match cs.dropWhile (· != 'e') with
  | [] => cs
  | _ :: '-' :: digits => front ++ 'e' :: '-' :: digits
  | _ :: digits => front ++ 'e' :: '+' :: digits

namespace Binary64

/-- The smallest number in positional notation. -/
def leastPositional : Binary64 :=
  .nearest 1 (Nat.pow 10 6)

/-- The smallest number above those in positional notation. -/
def leastLarge : Binary64 :=
  .nearest (Nat.pow 10 21) 1

/-- A text with the sign of a number in front of it. -/
def signed (x : Binary64) (cs : List Char) : List Char :=
  if x.isNegative then '-' :: cs else cs

/-- The text of a number. Both zeros are `0`. -/
def text (x : Binary64) : String :=
  if x.isNaN then "NaN"
  else if x.isZero then "0"
  else if x.isInfinite then String.ofList (x.signed "Infinity".toList)
  else if leastPositional.pattern ≤ x.pattern && x.pattern < leastLarge.pattern then
    String.ofList (x.signed (shortest x.pattern).positional)
  else String.ofList (signExponent (x.signed (shortest x.pattern).exponential))

end Binary64

end EcmaTokens
