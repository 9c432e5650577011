/-
Integers of any size as binary64 values. What is expected of a conversion of wide integers is that it rounds to the
nearest value, and gives up only on integers that no finite value is near to. Then every integer is rounded to the
nearest value, on either side of 64 bits.
-/
import EcmaTokens.Number.Integer
import EcmaTokens.Proofs.Number.Rounding

namespace EcmaTokens

namespace WideConversion

/-- The conversion rounds to the nearest value, ties to even, and gives up only on integers beyond the format. -/
structure Rounds [WideConversion] : Prop where
  nearest {n : Nat} {x : Binary64} : 2 ^ 64 ≤ n → toBinary64? n = some x → Binary64.RoundsTo n x
  beyond {n : Nat} : 2 ^ 64 ≤ n → toBinary64? n = none → (2 ^ 1024 - 2 ^ 970 : ℚ) ≤ n

/-- The conversion that computes the nearest value. -/
@[reducible]
def exact : WideConversion where
  toBinary64? n := some (.nearest n 1)

end WideConversion

namespace Binary64

theorem roundsTo_nearest_nat (n : Nat) : RoundsTo n (nearest n 1) := by
  simpa using roundsTo_nearest n (b := 1) Nat.one_pos

/-- Both conversions of integers round in the same way. -/
theorem roundsTo_ofNat [WideConversion] (h : WideConversion.Rounds) (n : Nat) : RoundsTo n (ofNat n) := by
  unfold ofNat
  split
  · exact roundsTo_nearest_nat n
  · next hn =>
    have hwide : 2 ^ 64 ≤ n := Nat.not_lt.1 hn
    cases hx : WideConversion.toBinary64? n with
    | none => exact .infinity (h.beyond hwide hx)
    | some x => exact h.nearest hwide hx

end Binary64

theorem WideConversion.rounds_exact : @Rounds exact := by
  refine @Rounds.mk exact ?_ ?_
  · rintro n x - hx
    cases hx
    exact Binary64.roundsTo_nearest_nat n
  · rintro n - hn
    cases hn

end EcmaTokens
