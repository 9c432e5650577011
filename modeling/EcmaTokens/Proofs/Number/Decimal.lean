/-
Decimal numerals are rounded to the nearest value, whatever their digits and their exponent. Where no power of
ten is formed the number is beyond the format on the one side or the other.
-/
import EcmaTokens.Number.Decimal
import EcmaTokens.Proofs.Number.Rounding
import EcmaTokens.Proofs.Source.Text
import Mathlib.Algebra.Order.Field.Power

namespace EcmaTokens

namespace Decimal

open Binary64 (RoundsTo Within)

variable {d : Decimal}

/-- The number that is written. -/
def value (d : Decimal) : ℚ :=
  d.coefficient * 10 ^ d.exponent

/-- A number of digits and their power of ten bound the value. -/
theorem value_lt (hd : ∀ c ∈ d.digits, isDecimalDigit c = true) :
    d.value < 10 ^ ((d.digits.length : Int) + d.exponent) := by
  have hlt : d.coefficient < 10 ^ d.digits.length := digitsValue_lt fun c hc => digitValue_lt_of_decimal (hd c hc)
  have hlt' : (d.coefficient : ℚ) < 10 ^ d.digits.length := by exact_mod_cast hlt
  rw [value, zpow_add₀ (by norm_num), zpow_natCast]
  exact mul_lt_mul_of_pos_right hlt' (by positivity)

theorem value_nonneg (d : Decimal) : 0 ≤ d.value := by
  unfold value
  positivity

theorem value_eq_div (d : Decimal) :
    d.value = (d.coefficient * Nat.pow 10 d.exponent.toNat : Nat) / (Nat.pow 10 (-d.exponent).toNat : Nat) := by
  rw [value, Binary64.ten_zpow, Nat.cast_mul, mul_div_assoc]

/-- At most half of the smallest positive value is rounded to zero. -/
theorem roundsTo_zero {q : ℚ} (h₀ : 0 ≤ q) (h₁ : q * 2 ^ 1075 ≤ 1) : RoundsTo q .zero := by
  have hw : Within 0 (q * 2 ^ 1075) := ⟨by
    rw [show Shortest.lower 0 = 0 from rfl, Nat.cast_zero]
    positivity, by rwa [show Shortest.upper 0 = 1 from rfl, Nat.cast_one], fun _ => rfl⟩
  exact hw.roundsTo

theorem overflow_le : (2 : ℚ) ^ 1024 ≤ 10 ^ (311 : Int) := by
  have : 2 ^ 1024 ≤ 10 ^ 311 := by decide +kernel
  rw [zpow_ofNat]
  exact_mod_cast this

theorem underflow_le : (2 : ℚ) ^ 1075 ≤ 10 ^ 331 := by
  have : 2 ^ 1075 ≤ 10 ^ 331 := by decide +kernel
  exact_mod_cast this

/-- A decimal is rounded to the nearest value. -/
theorem roundsTo (hd : ∀ c ∈ d.digits, isDecimalDigit c = true) : RoundsTo d.value d.toBinary64 := by
  unfold toBinary64
  split
  · next h =>
    rw [value, h, Nat.cast_zero, zero_mul]
    exact roundsTo_zero le_rfl (by norm_num)
  · next h =>
    split
    · next he =>
      refine .infinity ?_
      have hc : (1 : ℚ) ≤ d.coefficient := by exact_mod_cast Nat.one_le_iff_ne_zero.2 h
      calc (2 : ℚ) ^ 1024 - 2 ^ 970 ≤ 2 ^ 1024 := sub_le_self _ (by positivity)
        _ ≤ 10 ^ (311 : Int) := overflow_le
        _ ≤ 10 ^ d.exponent := zpow_le_zpow_right₀ (by norm_num) he
        _ ≤ d.value := le_mul_of_one_le_left (by positivity) hc
    · split
      · next he =>
        refine roundsTo_zero (value_nonneg d) ?_
        calc d.value * 2 ^ 1075
            ≤ 10 ^ ((d.digits.length : Int) + d.exponent) * 2 ^ 1075 :=
              mul_le_mul_of_nonneg_right (value_lt hd).le (by positivity)
          _ ≤ 10 ^ (-331 : Int) * 10 ^ 331 :=
              mul_le_mul (zpow_le_zpow_right₀ (by norm_num) (by omega)) underflow_le (by positivity) (by positivity)
          _ = 1 := by rw [zpow_neg, zpow_ofNat]; exact inv_mul_cancel₀ (by positivity)
      · rw [value_eq_div]
        exact Binary64.roundsTo_nearest _ (Nat.pow_pos (by decide))

end Decimal

end EcmaTokens
