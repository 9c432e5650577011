/-
The values of binary64 patterns, and the midpoints between them. From a pattern to the next the value grows
by a power of two, the same one for all patterns of a scale. The numbers between the two midpoints around a
value are the interval of its pattern; a midpoint belongs to the even one of the two patterns beside it.
-/
import EcmaTokens.Number.Shortest
import Mathlib.Algebra.Order.Field.Basic
import Mathlib.Data.Rat.Cast.Order
import Mathlib.Order.Monotone.Basic
import Mathlib.Tactic.Ring

namespace EcmaTokens

namespace Binary64

open Shortest (lower upper roundsTo)

/-! ## Values -/

/-- The value of a significand and a scale. A significand that has grown to `2 ^ 53` counts for the next scale. -/
theorem units_eq {s q : Nat} (hs : s = 0 ∨ 2 ^ 52 ≤ q) (hq : q ≤ 2 ^ 53) :
    units (s * 2 ^ 52 + q) = q * 2 ^ s := by
  show significand _ * 2 ^ scale _ = _
  unfold significand scale
  simp only [Nat.pow_eq]
  rcases Nat.lt_or_ge q (2 ^ 52) with hlt | hge
  · obtain rfl : s = 0 := by omega
    rw [Nat.zero_mul, Nat.zero_add, Nat.div_eq_of_lt hlt, if_pos rfl, Nat.mod_eq_of_lt hlt]
  · rcases Nat.lt_or_eq_of_le hq with hlt | rfl
    · have hdiv : (s * 2 ^ 52 + q) / 2 ^ 52 = s + 1 := by omega
      have hmod : (s * 2 ^ 52 + q) % 2 ^ 52 = q - 2 ^ 52 := by omega
      rw [hdiv, hmod, if_neg (Nat.succ_ne_zero s), Nat.add_sub_cancel' hge, Nat.add_sub_cancel]
    · have hdiv : (s * 2 ^ 52 + 2 ^ 53) / 2 ^ 52 = s + 2 := by omega
      have hmod : (s * 2 ^ 52 + 2 ^ 53) % 2 ^ 52 = 0 := by omega
      rw [hdiv, hmod, if_neg (Nat.succ_ne_zero _), Nat.add_zero, Nat.add_sub_assoc (by decide), Nat.pow_add,
        Nat.pow_succ 2 52]
      ring

/-- Every pattern has a scale and a significand, of 53 bits unless the scale is the lowest. -/
theorem exists_parts (p : Nat) : ∃ s q, p = s * 2 ^ 52 + q ∧ (s = 0 ∨ 2 ^ 52 ≤ q) ∧ q < 2 ^ 53 :=
  ⟨p / 2 ^ 52 - 1, p - (p / 2 ^ 52 - 1) * 2 ^ 52, by omega, by omega, by omega⟩

theorem units_lt_succ (p : Nat) : units p < units (p + 1) := by
  obtain ⟨s, q, rfl, hs, hq⟩ := exists_parts p
  rw [Nat.add_assoc, units_eq hs hq.le, units_eq (by omega) hq]
  exact Nat.mul_lt_mul_of_pos_right q.lt_succ_self (Nat.two_pow_pos s)

/-- Patterns are ordered as their values. -/
theorem units_strictMono : StrictMono units :=
  strictMono_nat_of_lt_succ units_lt_succ

/-! ## Midpoints -/

theorem lower_lt {p : Nat} (h : 0 < p) : lower p < 2 * units p := by
  have := units_strictMono (show p - 1 < p by omega)
  unfold lower
  omega

theorem lt_upper (p : Nat) : 2 * units p < upper p := by
  have := units_lt_succ p
  unfold upper
  omega

theorem upper_eq_lower_succ (p : Nat) : upper p = lower (p + 1) :=
  rfl

theorem lower_lt_lower {p p' : Nat} (h : p < p') : lower p < lower p' := by
  have h₁ : units (p - 1) ≤ units (p' - 1) := units_strictMono.monotone (by omega)
  have h₂ : units p < units p' := units_strictMono h
  unfold lower
  omega

/-- The midpoint above a significand. -/
theorem upper_eq {s q : Nat} (hs : s = 0 ∨ 2 ^ 52 ≤ q) (hq : q < 2 ^ 53) :
    upper (s * 2 ^ 52 + q) = (2 * q + 1) * 2 ^ s := by
  rw [upper, Nat.add_assoc, units_eq hs hq.le, units_eq (hs.imp_right fun h => h.trans q.le_succ) hq,
    ← Nat.add_mul, Nat.two_mul, Nat.add_assoc]

theorem lower_succ_eq {s q : Nat} (hs : s = 0 ∨ 2 ^ 52 ≤ q) (hq : q < 2 ^ 53) :
    lower (s * 2 ^ 52 + (q + 1)) = (2 * q + 1) * 2 ^ s := by
  rw [← Nat.add_assoc, ← upper_eq_lower_succ, upper_eq hs hq]

/-! ## Intervals -/

/-- The number `s`, in units of 2^-1075, lies between the midpoints around a pattern's value. It can be a midpoint
if the pattern is even. -/
structure Within (p : Nat) (s : ℚ) : Prop where
  lower_le : (lower p : ℚ) ≤ s
  le_upper : s ≤ upper p
  even : s = lower p ∨ s = upper p → p % 2 = 0

theorem roundsTo_iff {p a b : Nat} : roundsTo p a b = true ↔
    lower p * b ≤ a ∧ a ≤ upper p * b ∧ (a = lower p * b ∨ a = upper p * b → p % 2 = 0) := by
  unfold roundsTo
  split
  · next h => simp [h]
  · next h =>
    simp only [Bool.and_eq_true, decide_eq_true_eq, h, imp_false]
    omega

/-- The powers of the definitions, as rational numbers. -/
theorem cast_natPow (m n : Nat) : ((Nat.pow m n : Nat) : ℚ) = (m : ℚ) ^ n :=
  Nat.cast_pow m n

/-- A power of ten as the quotient of two, one of which is 1. -/
theorem ten_zpow (e : Int) : (10 : ℚ) ^ e = (Nat.pow 10 e.toNat : Nat) / (Nat.pow 10 (-e).toNat : Nat) := by
  rw [cast_natPow, cast_natPow, Nat.cast_ofNat]
  rcases e.eq_nat_or_neg with ⟨n, rfl | rfl⟩
  · simp
  · simp

theorem within_iff {p a b : Nat} (hb : 0 < b) : Within p (a / b) ↔ roundsTo p a b = true := by
  have hb' : (0 : ℚ) < b := Nat.cast_pos.2 hb
  have hl : (a / b : ℚ) = lower p ↔ a = lower p * b := by
    rw [div_eq_iff hb'.ne']; exact_mod_cast Iff.rfl
  have hu : (a / b : ℚ) = upper p ↔ a = upper p * b := by
    rw [div_eq_iff hb'.ne']; exact_mod_cast Iff.rfl
  have hl' : (lower p : ℚ) ≤ a / b ↔ lower p * b ≤ a := by
    rw [le_div_iff₀ hb']; exact_mod_cast Iff.rfl
  have hu' : (a / b : ℚ) ≤ upper p ↔ a ≤ upper p * b := by
    rw [div_le_iff₀ hb']; exact_mod_cast Iff.rfl
  rw [roundsTo_iff, ← hl, ← hu, ← hl', ← hu']
  exact ⟨fun h => ⟨h.1, h.2, h.3⟩, fun h => ⟨h.1, h.2.1, h.2.2⟩⟩

end Binary64

end EcmaTokens
