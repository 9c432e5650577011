/-
The shortest digits of a positive value read back as the value. Of 17 digits, a power of ten has a multiple
within the interval of every pattern, so the search ends with one that reads back.
-/
import EcmaTokens.Proofs.Number.Units
import Mathlib.Algebra.Order.Field.Power
import Mathlib.Tactic.Linarith
import Mathlib.Tactic.NormNum
import Mathlib.Tactic.Positivity

namespace EcmaTokens

/-- The number that a coefficient and an exponent stand for. -/
def Scientific.value (x : Scientific) : ℚ :=
  x.coefficient * 10 ^ x.exponent

namespace Shortest

open Binary64 (units Within units_eq exists_parts units_strictMono lower_lt lt_upper upper_eq lower_succ_eq
  roundsTo_iff within_iff ten_zpow cast_natPow)

variable {p n d : Nat} {t : Int}

/-! ## Multiples -/

theorem step_pos (t : Int) : 0 < step t := by
  unfold step
  generalize 1075 = k
  exact Nat.mul_pos (Nat.pow_pos (by decide)) (Nat.two_pow_pos k)

theorem unit_pos (t : Int) : 0 < unit t :=
  Nat.pow_pos (by decide)

/-- The fraction that measures a power of ten. -/
theorem step_div_unit (t : Int) : (step t / unit t : ℚ) = 10 ^ t * 2 ^ 1075 := by
  unfold step unit
  generalize 1075 = k
  rw [ten_zpow, Nat.cast_mul, mul_div_right_comm, cast_natPow 2 k, Nat.cast_ofNat]

theorem readsBack_iff : readsBack p t d = true ↔ Within p (d * 10 ^ t * 2 ^ 1075) := by
  rw [readsBack, ← within_iff (unit_pos t), Nat.cast_mul, mul_div_assoc, step_div_unit, mul_assoc]

theorem readsBack_of_multiple? (h : multiple? p t = some d) : readsBack p t d = true := by
  unfold multiple? at h
  dsimp only at h
  split at h
  · next hd =>
    split at h
    · next hd' => cases h; exact (Bool.and_eq_true_iff.1 hd').1
    · cases h; exact hd
  · split at h
    · next hd => cases h; exact hd
    · cases h

/-- What lies strictly between the midpoints reads back. -/
theorem roundsTo_of_lt {a b : Nat} (hl : lower p * b < a) (hu : a < upper p * b) : roundsTo p a b = true :=
  roundsTo_iff.2 ⟨hl.le, hu.le, fun h => by omega⟩

/-- A step shorter than the interval has a multiple in it. -/
theorem exists_multiple? (hp : 0 < p) (h : lower p * unit t + step t < upper p * unit t) :
    ∃ d, multiple? p t = some d := by
  have hle : floorMultiple p t * step t ≤ 2 * units p * unit t := Nat.div_mul_le_self _ _
  have hlt : 2 * units p * unit t < floorMultiple p t * step t + step t := Nat.lt_div_mul_add (step_pos t)
  have hlow := Nat.mul_lt_mul_of_pos_right (lower_lt hp) (unit_pos t)
  have hupp := Nat.mul_lt_mul_of_pos_right (lt_upper p) (unit_pos t)
  have hread : readsBack p t (floorMultiple p t) = true ∨ readsBack p t (floorMultiple p t + 1) = true := by
    rcases Nat.lt_or_ge ((floorMultiple p t + 1) * step t) (upper p * unit t) with hnext | hnext
    · exact .inr (roundsTo_of_lt (by rw [Nat.succ_mul]; omega) hnext)
    · rw [Nat.succ_mul] at hnext
      exact .inl (roundsTo_of_lt (by omega) (by omega))
  unfold multiple?
  dsimp only
  split
  · split <;> exact ⟨_, rfl⟩
  · next hno => exact ⟨_, if_pos (hread.resolve_left hno)⟩

/-! ## Seventeen digits -/

/-- The interval of a value is longer than the value divided by `10 ^ 16`. -/
theorem width (hp : 0 < p) : lower p * 10 ^ 16 + 2 * units p < upper p * 10 ^ 16 := by
  obtain ⟨s, q, rfl, hs, hq⟩ := exists_parts p
  obtain ⟨k, rfl⟩ : ∃ k, q = k + 1 := ⟨q - 1, by omega⟩
  rw [units_eq hs hq.le, upper_eq hs hq]
  by_cases hk : s = 0 ∨ 2 ^ 52 ≤ k
  · rw [lower_succ_eq hk (by omega)]
    have hpos := Nat.two_pow_pos s
    have := Nat.mul_le_mul_right (2 ^ s) (show k + 1 ≤ 2 ^ 53 by omega)
    generalize 2 ^ s = w at *
    have h₁ : (2 * k + 1) * w = 2 * (k * w) + w := by ring
    have h₂ : (2 * (k + 1) + 1) * w = 2 * (k * w) + 3 * w := by ring
    have h₃ : (k + 1) * w = k * w + w := by ring
    omega
  · -- the lowest significand of its scale: the pattern below belongs to the scale below
    obtain ⟨s, rfl⟩ : ∃ r, s = r + 1 := ⟨s - 1, by omega⟩
    obtain rfl : k = 2 ^ 52 - 1 := by omega
    rw [show (s + 1) * 2 ^ 52 + (2 ^ 52 - 1 + 1) = s * 2 ^ 52 + (2 ^ 53 - 1 + 1) by omega,
      lower_succ_eq (by omega) (by decide), pow_succ 2 s]
    have hpos := Nat.two_pow_pos s
    generalize 2 ^ s = w at *
    omega

theorem digitCount_bounds (hn : 0 < n) :
    0 < digitCount n ∧ 10 ^ (digitCount n - 1) ≤ n ∧ n < 10 ^ digitCount n := by
  have hpos : 0 < digitCount n := Nat.length_toDigits_pos
  refine ⟨hpos, ?_, (Nat.length_toDigits_le_iff (by decide) hpos).1 (Nat.le_refl _)⟩
  rcases Nat.eq_zero_or_pos (digitCount n - 1) with h | h
  · rw [h]; exact hn
  · rw [← Nat.not_lt, ← Nat.length_toDigits_le_iff (by decide) h]
    show ¬ digitCount n ≤ _
    omega

/-- A value is at least a tenth of its decade. -/
theorem decade_le (hp : 0 < p) : (10 : ℚ) ^ (decade p - 1) ≤ units p / 2 ^ 1074 := by
  have hu : 0 < units p := Nat.zero_lt_of_lt (units_strictMono hp)
  have general : ∀ k, (10 : ℚ) ^ ((if Nat.pow 2 k ≤ units p then (digitCount (units p / Nat.pow 2 k) : Int)
      else 1 - (digitCount (Nat.pow 2 k / units p) : Int)) - 1) ≤ units p / 2 ^ k := by
    intro k
    have hpow : (0 : ℚ) < 2 ^ k := by positivity
    have hu' : (0 : ℚ) < units p := Nat.cast_pos.2 hu
    rw [Nat.pow_eq]
    split
    · next hle =>
      obtain ⟨hpos, hlow, -⟩ := digitCount_bounds (Nat.div_pos hle (Nat.two_pow_pos k))
      rw [← Nat.cast_one, ← Nat.cast_sub hpos, zpow_natCast, le_div_iff₀ hpow]
      have := (Nat.le_div_iff_mul_le (Nat.two_pow_pos k)).1 hlow
      exact_mod_cast this
    · next hlt =>
      obtain ⟨-, -, hupp⟩ := digitCount_bounds (Nat.div_pos (Nat.not_le.1 hlt).le hu)
      rw [sub_sub_cancel_left, zpow_neg, zpow_natCast, inv_le_comm₀ (by positivity) (by positivity), inv_div,
        div_le_iff₀ hu']
      have := ((Nat.div_lt_iff_lt_mul hu).1 hupp).le
      exact_mod_cast this
  exact general 1074

/-- A value is at most its decade. -/
theorem le_decade (hp : 0 < p) : (units p / 2 ^ 1074 : ℚ) ≤ 10 ^ decade p := by
  have hu : 0 < units p := Nat.zero_lt_of_lt (units_strictMono hp)
  have general : ∀ k, (units p / 2 ^ k : ℚ) ≤ 10 ^ (if Nat.pow 2 k ≤ units p then
      (digitCount (units p / Nat.pow 2 k) : Int) else 1 - (digitCount (Nat.pow 2 k / units p) : Int)) := by
    intro k
    have hpow : (0 : ℚ) < 2 ^ k := by positivity
    have hu' : (0 : ℚ) < units p := Nat.cast_pos.2 hu
    rw [Nat.pow_eq]
    split
    · next hle =>
      obtain ⟨-, -, hupp⟩ := digitCount_bounds (Nat.div_pos hle (Nat.two_pow_pos k))
      rw [zpow_natCast, div_le_iff₀ hpow]
      have := ((Nat.div_lt_iff_lt_mul (Nat.two_pow_pos k)).1 hupp).le
      exact_mod_cast this
    · next hlt =>
      obtain ⟨hpos, hlow, -⟩ := digitCount_bounds (Nat.div_pos (Nat.not_le.1 hlt).le hu)
      rw [← neg_sub, ← Nat.cast_one, ← Nat.cast_sub hpos, zpow_neg, zpow_natCast,
        le_inv_comm₀ (by positivity) (by positivity), inv_div, le_div_iff₀ hu']
      have := (Nat.le_div_iff_mul_le hu).1 hlow
      exact_mod_cast this
  exact general 1074

/-- The power of ten by which a value has seventeen digits is shorter than the interval of the value. -/
theorem step_lt (hp : 0 < p) : (lower p : ℚ) + step (decade p - 17) / unit (decade p - 17) < upper p := by
  have hw : (lower p * 10 ^ 16 + 2 * units p : ℚ) < upper p * 10 ^ 16 := by exact_mod_cast width hp
  have hhalf : ∀ k m, m = k + 1 → (units p / 2 ^ k * 2 ^ m : ℚ) = 2 * units p := by
    rintro k _ rfl
    rw [pow_succ, ← mul_assoc, div_mul_cancel₀ _ (by positivity), mul_comm]
  have hstep : (10 : ℚ) ^ (decade p - 17) * 2 ^ 1075 * 10 ^ 16 ≤ 2 * units p := by
    calc (10 : ℚ) ^ (decade p - 17) * 2 ^ 1075 * 10 ^ 16
        = 10 ^ (decade p - 17) * 10 ^ (16 : Int) * 2 ^ 1075 := by rw [zpow_ofNat, mul_right_comm]
      _ = 10 ^ (decade p - 1) * 2 ^ 1075 := by
          rw [← zpow_add₀ (by norm_num), show decade p - 17 + 16 = decade p - 1 by omega]
      _ ≤ units p / 2 ^ 1074 * 2 ^ 1075 := mul_le_mul_of_nonneg_right (decade_le hp) (by positivity)
      _ = 2 * units p := hhalf 1074 1075 rfl
  rw [step_div_unit]
  generalize (10 : ℚ) ^ (decade p - 17) * 2 ^ 1075 = h at *
  linarith

/-- The decade of a value and sixteen digits behind it have a multiple that reads back. -/
theorem exists_seventeen (hp : 0 < p) : ∃ d, multiple? p (decade p - 17) = some d := by
  have hu : (0 : ℚ) < unit (decade p - 17) := Nat.cast_pos.2 (unit_pos _)
  have h := mul_lt_mul_of_pos_right (step_lt hp) hu
  rw [add_mul, div_mul_cancel₀ _ hu.ne'] at h
  exact exists_multiple? hp (by exact_mod_cast h)

/-! ## The search -/

/-- The search ends at the largest power of ten with a multiple that reads back, if there is one at its last. -/
theorem search_spec {steps : Nat} (h : ∃ d, multiple? p (t - steps) = some d) :
    multiple? p (search p steps t).exponent = some (search p steps t).coefficient ∧
      ∀ e, (search p steps t).exponent < e → e ≤ t → multiple? p e = none := by
  induction steps generalizing t with
  | zero =>
    obtain ⟨d, hd⟩ := h
    rw [Nat.cast_zero, Int.sub_zero] at hd
    rw [search, hd]
    exact ⟨rfl, fun e he hle => absurd hle (Int.not_le.2 he)⟩
  | succ steps ih =>
    rw [search]
    split
    · next d hd => exact ⟨hd, fun e he hle => absurd hle (Int.not_le.2 he)⟩
    · next hnone =>
      rw [Nat.cast_succ, Int.add_comm, ← Int.sub_sub] at h
      obtain ⟨hread, hlast⟩ := ih h
      refine ⟨hread, fun e he hle => ?_⟩
      rcases Int.lt_or_eq_of_le hle with hlt | rfl
      · exact hlast e he (by omega)
      · exact hnone

end Shortest

open Binary64 (Within)

variable {p : Nat}

/-- The shortest digits lie in the interval of the value. -/
theorem within_shortest (hp : 0 < p) : Within p ((shortest p).value * 2 ^ 1075) :=
  Shortest.readsBack_iff.1 (Shortest.readsBack_of_multiple? (Shortest.search_spec (Shortest.exists_seventeen hp)).1)

theorem shortest_pos (hp : 0 < p) : 0 < (shortest p).coefficient := by
  rw [Nat.pos_iff_ne_zero]
  intro h
  have hw := (within_shortest hp).lower_le
  rw [Scientific.value, h, Nat.cast_zero, zero_mul, zero_mul] at hw
  have : Shortest.lower p ≤ 0 := by exact_mod_cast hw
  have := Binary64.units_strictMono hp
  unfold Shortest.lower at *
  omega

end EcmaTokens
