/-
The shortest decimal digits that read back as a given binary64 value. The reals that round to a
value are those between the midpoints to its two neighbours, the midpoints included exactly for an
even pattern. The digits are a multiple of the largest power of ten that has a multiple there; of
several it is the one nearest to the value, and the larger of two equally near. All comparisons
are exact, over natural numbers.
-/
import EcmaTokens.Number.Binary64

namespace EcmaTokens

/-- The number `coefficient · 10^exponent`. -/
structure Scientific where
  coefficient : Nat
  exponent : Int
deriving DecidableEq, Repr

namespace Shortest

/-! ## The interval of a value -/

/-- Twice the midpoint between a pattern's value and the one below, in units of 2^-1074. -/
def lower (p : Nat) : Nat :=
  Binary64.units (p - 1) + Binary64.units p

/-- Twice the midpoint between a pattern's value and the one above, in units of 2^-1074. -/
def upper (p : Nat) : Nat :=
  Binary64.units p + Binary64.units (p + 1)

/-- The fraction `a / b` of 2^-1075 rounds to a pattern's value. -/
def roundsTo (p a b : Nat) : Bool :=
  if p % 2 = 0 then lower p * b ≤ a && a ≤ upper p * b
  else lower p * b < a && a < upper p * b

/-! ## Multiples of a power of ten -/

/-- Measured in 2^-1075, the number `10^t` is the fraction `step t / unit t`. -/
def step (t : Int) : Nat :=
  Nat.pow 10 t.toNat * Nat.pow 2 1075

def unit (t : Int) : Nat :=
  Nat.pow 10 (-t).toNat

/-- The largest multiple of `10^t` not above a pattern's value. -/
def floorMultiple (p : Nat) (t : Int) : Nat :=
  2 * Binary64.units p * unit t / step t

/-- A multiple of `10^t` reads back as a pattern's value. -/
def readsBack (p : Nat) (t : Int) (d : Nat) : Bool :=
  roundsTo p (d * step t) (unit t)

/-- A pattern's value lies nearer to the multiple `d` of `10^t` than to the next one. -/
def nearerBelow (p : Nat) (t : Int) (d : Nat) : Bool :=
  2 * (2 * Binary64.units p * unit t) < (2 * d + 1) * step t

/-- Of the two multiples of `10^t` around a pattern's value, the nearest that reads back. -/
def multiple? (p : Nat) (t : Int) : Option Nat :=
  let d := floorMultiple p t
  if readsBack p t d then
    if readsBack p t (d + 1) && !nearerBelow p t d then some (d + 1) else some d
  else if readsBack p t (d + 1) then some (d + 1)
  else none

/-! ## The search -/

/-- The number of decimal digits. -/
def digitCount (n : Nat) : Nat :=
  (Nat.toDigits 10 n).length

/-- An exponent of ten that the pattern's value stays below: the number of digits before the point
if there are any, and otherwise what the digits before the point of the reciprocal leave. -/
def decade (p : Nat) : Int :=
  let u := Binary64.units p
  if Nat.pow 2 1074 ≤ u then digitCount (u / Nat.pow 2 1074)
  else 1 - (digitCount (Nat.pow 2 1074 / u) : Int)

/-- Tries the powers of ten from `10^t` down, `n + 1` of them. -/
def search (p : Nat) : Nat → Int → Scientific
  | 0, t => ⟨(multiple? p t).getD (floorMultiple p t), t⟩
  | n + 1, t =>
    match multiple? p t with
    | some d => ⟨d, t⟩
    | none => search p n (t - 1)

end Shortest

/-- The shortest digits of a positive finite pattern. Seventeen digits always suffice. -/
def shortest (p : Nat) : Scientific :=
  Shortest.search p 17 (Shortest.decade p)

end EcmaTokens
