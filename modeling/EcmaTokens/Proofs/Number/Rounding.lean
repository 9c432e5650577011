/-
Rounding to binary64, measured by the numbers themselves. The value a number is rounded to is the nearest of
all finite values, and the one with an even significand where two are equally near; from the midpoint
between the largest finite value and the one that would follow it on, it is infinity. There is one such
value, that of the pattern whose interval the number lies in, and `nearest` finds it.
-/
import EcmaTokens.Number.Nearest
import EcmaTokens.Proofs.Number.Units
import Mathlib.Algebra.Order.Ring.Abs
import Mathlib.Tactic.FieldSimp
import Mathlib.Tactic.Linarith
import Mathlib.Tactic.Positivity

namespace EcmaTokens

/-! ## Integers -/

/-- The quotient is at most half away from the integer, and if it is half away the integer is even. -/
theorem roundHalfEven_spec (a : Nat) {b : Nat} (hb : 0 < b) :
    2 * roundHalfEven a b * b ≤ 2 * a + b ∧ 2 * a ≤ (2 * roundHalfEven a b + 1) * b ∧
      (2 * roundHalfEven a b * b = 2 * a + b ∨ 2 * a = (2 * roundHalfEven a b + 1) * b →
        roundHalfEven a b % 2 = 0) := by
  have hdiv : a = a / b * b + a % b := by rw [Nat.mul_comm]; exact (Nat.div_add_mod a b).symm
  have hlt := Nat.mod_lt a hb
  unfold roundHalfEven
  dsimp only
  generalize a / b = q at *
  generalize a % b = r at *
  have hq : 2 * (q + 1) * b = 2 * q * b + 2 * b := by ring
  have hq' : (2 * q + 1) * b = 2 * q * b + b := by ring
  have hq'' : (2 * (q + 1) + 1) * b = 2 * q * b + 3 * b := by ring
  have ha : 2 * a = 2 * q * b + 2 * r := by rw [hdiv]; ring
  split
  · omega
  · split
    · omega
    · rcases Nat.mod_two_eq_zero_or_one q with h | h
      · rw [h, Nat.add_zero]; omega
      · rw [h]; omega

namespace Binary64

open Shortest (lower upper roundsTo)

/-! ## The nearest pattern -/

/-- The scale by which a quotient keeps 53 bits, or the lowest one. -/
theorem scale_bounds (c : Nat) {b : Nat} (hb : 0 < b) :
    ((c / b).log2 - 52 = 0 ∨ 2 ^ 52 * (b * 2 ^ ((c / b).log2 - 52)) ≤ c) ∧
      c < 2 ^ 53 * (b * 2 ^ ((c / b).log2 - 52)) := by
  constructor
  · by_cases hs : (c / b).log2 ≤ 52
    · exact .inl (Nat.sub_eq_zero_of_le hs)
    · right
      have hne : c / b ≠ 0 := by
        intro h
        rw [h] at hs
        exact hs (by decide)
      calc 2 ^ 52 * (b * 2 ^ ((c / b).log2 - 52))
          = 2 ^ (52 + ((c / b).log2 - 52)) * b := by rw [Nat.pow_add]; ring
        _ = 2 ^ (c / b).log2 * b := by rw [Nat.add_sub_cancel' (by omega)]
        _ ≤ c / b * b := Nat.mul_le_mul_right b (Nat.log2_self_le hne)
        _ ≤ c := Nat.div_mul_le_self c b
  · calc c < c / b * b + b := Nat.lt_div_mul_add hb
      _ = (c / b + 1) * b := (Nat.succ_mul ..).symm
      _ ≤ 2 ^ ((c / b).log2 + 1) * b := Nat.mul_le_mul_right b Nat.lt_log2_self
      _ ≤ 2 ^ (53 + ((c / b).log2 - 52)) * b :=
          Nat.mul_le_mul_right b (Nat.pow_le_pow_right (by decide) (by omega))
      _ = 2 ^ 53 * (b * 2 ^ ((c / b).log2 - 52)) := by rw [Nat.pow_add]; ring

section Scale

variable {a b s q : Nat}

/-- The interval above a rounded quotient holds the quotient. It ends half above unless a binade begins there, and
then the quotient lies below the value itself. -/
theorem le_upper_of_scale (hb : 0 < b) (hs : s = 0 ∨ 2 ^ 52 ≤ q) (hq : q ≤ 2 ^ 53)
    (hhigh : a < 2 ^ 53 * (b * 2 ^ s)) (h : 2 * a ≤ (2 * q + 1) * (b * 2 ^ s)) :
    2 * a ≤ upper (s * 2 ^ 52 + q) * b ∧
      (2 * a = upper (s * 2 ^ 52 + q) * b → 2 * a = (2 * q + 1) * (b * 2 ^ s)) := by
  have hmul : ∀ k, k * 2 ^ s * b = k * (b * 2 ^ s) := fun k => by ring
  rcases Nat.lt_or_eq_of_le hq with hlt | heq
  · rw [upper_eq hs hlt, hmul]
    exact ⟨h, id⟩
  · have := Nat.mul_lt_mul_of_pos_right (lt_upper (s * 2 ^ 52 + q)) hb
    rw [units_eq hs hq, Nat.mul_assoc, hmul] at this
    rw [heq] at this ⊢
    omega

/-- The interval below a rounded quotient holds the quotient. It begins half below unless the value begins a binade,
and then the quotient lies at the value itself or above. -/
theorem lower_le_of_scale (hb : 0 < b) (hs : s = 0 ∨ 2 ^ 52 ≤ q) (hq : q ≤ 2 ^ 53)
    (hlow : s = 0 ∨ 2 ^ 52 * (b * 2 ^ s) ≤ a) (h : 2 * q * (b * 2 ^ s) ≤ 2 * a + b * 2 ^ s) :
    lower (s * 2 ^ 52 + q) * b ≤ 2 * a ∧
      (2 * a = lower (s * 2 ^ 52 + q) * b → q % 2 = 0 ∨ 2 * q * (b * 2 ^ s) = 2 * a + b * 2 ^ s) := by
  have hmul : ∀ k, k * 2 ^ s * b = k * (b * 2 ^ s) := fun k => by ring
  cases q with
  | zero =>
    obtain rfl : s = 0 := by omega
    exact ⟨(Nat.zero_mul b).symm ▸ Nat.zero_le _, fun _ => .inl rfl⟩
  | succ k =>
    by_cases hsk : s = 0 ∨ 2 ^ 52 ≤ k
    · rw [lower_succ_eq hsk hq, hmul]
      have : 2 * (k + 1) * (b * 2 ^ s) = (2 * k + 1) * (b * 2 ^ s) + b * 2 ^ s := by ring
      omega
    · have hk : (k + 1) * (b * 2 ^ s) = 2 ^ 52 * (b * 2 ^ s) := by
        rw [show k + 1 = 2 ^ 52 by omega]
      have hpos : 0 < b * 2 ^ s := Nat.mul_pos hb (Nat.two_pow_pos s)
      have := Nat.mul_lt_mul_of_pos_right (lower_lt (p := s * 2 ^ 52 + (k + 1)) (by omega)) hb
      rw [units_eq hs hq, Nat.mul_assoc, hmul, hk] at this
      omega

/-- A quotient that keeps 53 bits at a scale, or less at the lowest one, lies in the interval of the pattern that
its rounded significand makes up with the scale. -/
theorem roundsTo_of_scale (hb : 0 < b) (hlow : s = 0 ∨ 2 ^ 52 * (b * 2 ^ s) ≤ a)
    (hhigh : a < 2 ^ 53 * (b * 2 ^ s)) :
    roundsTo (s * 2 ^ 52 + roundHalfEven a (b * 2 ^ s)) (2 * a) b = true := by
  have hpos : 0 < b * 2 ^ s := Nat.mul_pos hb (Nat.two_pow_pos s)
  obtain ⟨h₁, h₂, h₃⟩ := roundHalfEven_spec a hpos
  generalize roundHalfEven a (b * 2 ^ s) = q at *
  have hq : q ≤ 2 ^ 53 := by
    by_contra hlt
    have := Nat.mul_le_mul_right (b * 2 ^ s) (show 2 ^ 54 + 2 ≤ 2 * q by omega)
    rw [Nat.add_mul] at this
    omega
  have hs : s = 0 ∨ 2 ^ 52 ≤ q := by
    refine hlow.imp_right fun hlow => ?_
    by_contra hlt
    have := Nat.mul_le_mul_right (b * 2 ^ s) (show 2 * q + 1 + 1 ≤ 2 ^ 53 by omega)
    rw [Nat.add_mul (2 * q + 1)] at this
    omega
  obtain ⟨hupper, hupper'⟩ := le_upper_of_scale hb hs hq hhigh h₂
  obtain ⟨hlower, hlower'⟩ := lower_le_of_scale hb hs hq hlow h₁
  refine roundsTo_iff.2 ⟨hlower, hupper, fun h => ?_⟩
  have hparity : (s * 2 ^ 52 + q) % 2 = q % 2 := by omega
  rw [hparity]
  rcases h with h | h
  · exact (hlower' h).elim id fun h => h₃ (.inl h)
  · exact h₃ (.inr (hupper' h))

end Scale

/-- A quotient lies in the interval of the nearest pattern, or of one beyond the format. -/
theorem exists_within (a : Nat) {b : Nat} (hb : 0 < b) :
    ∃ p, nearestPattern a b = min p infinityPattern ∧ Within p (a / b * 2 ^ 1075) := by
  have hcast : ∀ k, (a / b * 2 ^ (k + 1) : ℚ) = ((2 * (a * Nat.pow 2 k) : Nat) : ℚ) / b := by
    intro k
    rw [pow_succ, Nat.cast_mul, Nat.cast_mul, cast_natPow, Nat.cast_ofNat]
    ring
  refine ⟨_, rfl, ?_⟩
  rw [hcast 1074, within_iff hb]
  obtain ⟨hlow, hhigh⟩ := scale_bounds (a * Nat.pow 2 1074) hb
  exact roundsTo_of_scale hb hlow hhigh

/-! ## Nearest values -/

def IsFinite (x : Binary64) : Prop :=
  x.pattern < infinityPattern

/-- The value of a finite pattern with its sign. -/
def toRat (x : Binary64) : ℚ :=
  (if x.isNegative then -1 else 1) * units x.pattern / 2 ^ 1074

/-- No finite value is nearer to `q`, and where another one is as near the significand of `x` is even. -/
structure IsNearest (q : ℚ) (x : Binary64) : Prop where
  finite : x.IsFinite
  positive : x.isNegative = false
  nearest : ∀ y : Binary64, y.IsFinite → |q - x.toRat| ≤ |q - y.toRat|
  even : ∀ y : Binary64, y.IsFinite → |q - y.toRat| = |q - x.toRat| → y.toRat = x.toRat ∨ x.pattern % 2 = 0

/-- A number that is not negative is rounded to the nearest value, ties to even. -/
inductive RoundsTo (q : ℚ) : Binary64 → Prop
  | infinity : 2 ^ 1024 - 2 ^ 970 ≤ q → RoundsTo q infinity
  | finite {x : Binary64} : q < 2 ^ 1024 - 2 ^ 970 → IsNearest q x → RoundsTo q x

/-! ## Patterns -/

theorem toNat_ofPattern {p : Nat} (h : p < 2 ^ 63) : (ofPattern p).bits.toNat = p :=
  UInt64.toNat_ofNat_of_lt' (h.trans (by decide))

theorem pattern_ofPattern {p : Nat} (h : p < 2 ^ 63) : (ofPattern p).pattern = p := by
  rw [pattern, toNat_ofPattern h]
  exact Nat.mod_eq_of_lt h

theorem isNegative_ofPattern {p : Nat} (h : p < 2 ^ 63) : (ofPattern p).isNegative = false := by
  rw [isNegative, toNat_ofPattern h]
  exact decide_eq_false (Nat.not_le.2 h)

theorem ofPattern_pattern {x : Binary64} (h : x.isNegative = false) : ofPattern x.pattern = x := by
  have hlt : x.bits.toNat < 2 ^ 63 := Nat.not_le.1 (of_decide_eq_false h)
  rw [ofPattern, pattern, Nat.pow_eq, Nat.mod_eq_of_lt hlt, UInt64.ofNat_toNat]

theorem toRat_of_positive {x : Binary64} (h : x.isNegative = false) : x.toRat = units x.pattern / 2 ^ 1074 := by
  rw [toRat, h, if_neg Bool.false_ne_true, one_mul]

/-! ## Distances -/

section Distance

variable {a b q w : ℚ}

/-- Of two values on the same side of the midpoint between them and `q` the one is no nearer. -/
theorem dist_le_of_midpoint (hw : 0 < w) (h : 0 ≤ (a - b) * (2 * q * w - a - b)) : |q - a / w| ≤ |q - b / w| := by
  apply sq_le_sq.1
  rw [← sub_nonneg]
  have heq : (q - b / w) ^ 2 - (q - a / w) ^ 2 = (a - b) * (2 * q * w - a - b) / w ^ 2 := by
    field_simp
    ring
  rw [heq]
  positivity

/-- Two values are as near as each other only where `q` is the midpoint between them. -/
theorem eq_or_midpoint_of_dist_eq (hw : 0 < w) (h : |q - b / w| = |q - a / w|) : b = a ∨ 2 * q * w = a + b := by
  rcases abs_eq_abs.1 h with h | h
  · left
    have : b / w = a / w := by linarith
    exact (div_left_inj' hw.ne').1 this
  · right
    have : 2 * q = a / w + b / w := by linarith
    rw [this]
    field_simp

/-- What lies between two values that are equally near is nearer. -/
theorem dist_lt_of_between {c : ℚ} (h : |q - b| = |q - a|) (hac : a < c) (hcb : c < b) : |q - c| < |q - a| := by
  rcases abs_eq_abs.1 h with h | h
  · linarith
  · rw [abs_of_pos (show 0 < q - a by linarith), abs_lt]
    constructor <;> linarith

end Distance

theorem toRat_lt {x y : Binary64} (hx : x.isNegative = false) (hy : y.isNegative = false)
    (h : x.pattern < y.pattern) : x.toRat < y.toRat := by
  rw [toRat_of_positive hx, toRat_of_positive hy, div_lt_div_iff_of_pos_right (by positivity)]
  exact_mod_cast units_strictMono h

/-- Every finite value is the value of a pattern or lies beyond its neighbours. -/
theorem toRat_cases (p : Nat) (y : Binary64) : ∃ b : ℚ, y.toRat = b / 2 ^ 1074 ∧
    (b = units p ∨ b < units p ∧ units p + b ≤ lower p ∨ units p < b ∧ upper p ≤ units p + b) := by
  refine ⟨_, rfl, ?_⟩
  cases hy : y.isNegative with
  | true =>
    have hle : (units p : ℚ) ≤ lower p := by exact_mod_cast Nat.le_add_left ..
    have h₁ : (0 : ℚ) ≤ units p := Nat.cast_nonneg _
    have h₂ : (0 : ℚ) ≤ units y.pattern := Nat.cast_nonneg _
    rw [if_pos rfl, neg_one_mul]
    rcases eq_or_ne (-units y.pattern : ℚ) (units p) with heq | hne
    · exact .inl heq
    · exact .inr (.inl ⟨lt_of_le_of_ne (by linarith) hne, by linarith⟩)
  | false =>
    rw [if_neg Bool.false_ne_true, one_mul]
    rcases Nat.lt_trichotomy y.pattern p with hlt | heq | hlt
    · have h : units y.pattern ≤ units (p - 1) := units_strictMono.monotone (by omega)
      have h : units p + units y.pattern ≤ lower p := by rw [lower]; omega
      exact .inr (.inl ⟨by exact_mod_cast units_strictMono hlt, by exact_mod_cast h⟩)
    · exact .inl (by rw [heq])
    · have h : units (p + 1) ≤ units y.pattern := units_strictMono.monotone hlt
      have h : upper p ≤ units p + units y.pattern := by rw [upper]; omega
      exact .inr (.inr ⟨by exact_mod_cast units_strictMono hlt, by exact_mod_cast h⟩)

section Within

variable {p : Nat} {q : ℚ} {x y : Binary64}

theorem infinityPattern_lt : infinityPattern < 2 ^ 63 := by
  decide

/-- A number in the interval of a finite pattern is rounded to its value. -/
theorem Within.isNearest (h : Within p (q * 2 ^ 1075)) (hp : p < infinityPattern) : IsNearest q (ofPattern p) := by
  have hp' := hp.trans infinityPattern_lt
  have hw : (0 : ℚ) < 2 ^ 1074 := by positivity
  have hs : 2 * q * 2 ^ 1074 = q * 2 ^ 1075 := by rw [mul_comm 2 q, mul_assoc, ← pow_succ']
  generalize q * 2 ^ 1075 = s at h hs
  have hx : (ofPattern p).toRat = units p / 2 ^ 1074 := by
    rw [toRat_of_positive (isNegative_ofPattern hp'), pattern_ofPattern hp']
  refine ⟨by rwa [IsFinite, pattern_ofPattern hp'], isNegative_ofPattern hp', fun y _ => ?_, fun y _ hy => ?_⟩
  · obtain ⟨b, hb, hcases⟩ := toRat_cases p y
    rw [hx, hb]
    apply dist_le_of_midpoint hw
    rw [hs]
    rcases hcases with rfl | ⟨hlt, hle⟩ | ⟨hlt, hle⟩
    · rw [sub_self, zero_mul]
    · have := h.lower_le
      exact mul_nonneg (by linarith) (by linarith)
    · have := h.le_upper
      exact mul_nonneg_of_nonpos_of_nonpos (by linarith) (by linarith)
  · obtain ⟨b, hb, hcases⟩ := toRat_cases p y
    rw [hx, hb] at hy ⊢
    rw [pattern_ofPattern hp']
    rcases eq_or_midpoint_of_dist_eq hw hy with rfl | hmid
    · exact .inl rfl
    · rw [hs] at hmid
      rcases hcases with rfl | ⟨-, hle⟩ | ⟨-, hle⟩
      · exact .inl rfl
      · exact .inr (h.even (.inl (le_antisymm (hmid ▸ hle) h.lower_le)))
      · exact .inr (h.even (.inr (le_antisymm h.le_upper (hmid ▸ hle))))

/-- One value alone is the nearest with an even significand in case of a tie. -/
theorem IsNearest.unique (hx : IsNearest q x) (hy : IsNearest q y) : x = y := by
  -- a value between two that are equally near would be nearer
  have apart : ∀ {x y : Binary64}, IsNearest q x → IsNearest q y → ¬ x.pattern < y.pattern := by
    intro x y hx hy hlt
    have hval : x.toRat < y.toRat := toRat_lt hx.positive hy.positive hlt
    have hdist : |q - y.toRat| = |q - x.toRat| := le_antisymm (hy.nearest x hx.finite) (hx.nearest y hy.finite)
    have hx2 := (hx.even y hy.finite hdist).resolve_left hval.ne'
    have hy2 := (hy.even x hx.finite hdist.symm).resolve_left hval.ne
    have hz : x.pattern + 1 < y.pattern := by omega
    have hfin : x.pattern + 1 < infinityPattern := hz.trans hy.finite
    have hz' := hfin.trans infinityPattern_lt
    have hpos := isNegative_ofPattern hz'
    have hpat := pattern_ofPattern hz'
    refine absurd (hx.nearest (ofPattern (x.pattern + 1)) (by rwa [IsFinite, hpat])) (not_le.2 ?_)
    exact dist_lt_of_between hdist (toRat_lt hx.positive hpos (by rw [hpat]; exact Nat.lt_succ_self _))
      (toRat_lt hpos hy.positive (by rwa [hpat]))
  have hpat : x.pattern = y.pattern := by
    rcases Nat.lt_trichotomy x.pattern y.pattern with hlt | heq | hlt
    · exact absurd hlt (apart hx hy)
    · exact heq
    · exact absurd hlt (apart hy hx)
  rw [← ofPattern_pattern hx.positive, ← ofPattern_pattern hy.positive, hpat]

/-- The midpoint between the largest finite value and the one that would follow it. -/
theorem lower_infinityPattern : (lower infinityPattern : ℚ) = (2 ^ 1024 - 2 ^ 970) * 2 ^ 1075 := by
  have hparts : infinityPattern = 2045 * 2 ^ 52 + (2 ^ 53 - 1 + 1) := by decide
  rw [hparts, lower_succ_eq (by decide) (by decide), Nat.cast_mul, Nat.cast_pow, sub_mul, ← pow_add, ← pow_add,
    Nat.cast_ofNat]
  rw [show 1024 + 1075 = 54 + 2045 from rfl, show 970 + 1075 = 2045 from rfl, pow_add _ 54, ← sub_one_mul]
  norm_num

/-- A number in the interval of a pattern is rounded to the value of the pattern, or to infinity if the pattern is
beyond the format. -/
theorem Within.roundsTo (h : Within p (q * 2 ^ 1075)) : RoundsTo q (ofPattern (min p infinityPattern)) := by
  have hw : (0 : ℚ) < 2 ^ 1075 := by positivity
  rcases Nat.lt_or_ge p infinityPattern with hp | hp
  · rw [Nat.min_eq_left hp.le]
    refine .finite ?_ (h.isNearest hp)
    apply lt_of_mul_lt_mul_right _ hw.le
    rw [← lower_infinityPattern]
    rcases Nat.lt_or_eq_of_le hp with hlt | heq
    · have : upper p < lower infinityPattern := lower_lt_lower hlt
      exact h.le_upper.trans_lt (by exact_mod_cast this)
    · -- the pattern of the largest finite value is odd
      rw [← heq, ← upper_eq_lower_succ]
      refine lt_of_le_of_ne h.le_upper fun hs => ?_
      have := h.even (.inr hs)
      rw [infinityPattern, Nat.pow_eq] at heq
      omega
  · rw [Nat.min_eq_right hp]
    refine .infinity ?_
    apply le_of_mul_le_mul_right _ hw
    rw [← lower_infinityPattern]
    have : lower infinityPattern ≤ lower p := by
      rcases Nat.lt_or_eq_of_le hp with hlt | heq
      · exact (lower_lt_lower hlt).le
      · rw [heq]
    exact le_trans (by exact_mod_cast this) h.lower_le

theorem RoundsTo.unique (hx : RoundsTo q x) (hy : RoundsTo q y) : x = y := by
  cases hx with
  | infinity hle =>
    cases hy with
    | infinity => rfl
    | finite hlt => exact absurd hle (not_le.2 hlt)
  | finite hlt hx =>
    cases hy with
    | infinity hle => exact absurd hle (not_le.2 hlt)
    | finite _ hy => exact hx.unique hy

theorem RoundsTo.eq_infinity_iff (h : RoundsTo q x) : x = .infinity ↔ 2 ^ 1024 - 2 ^ 970 ≤ q := by
  cases h with
  | infinity hle => exact iff_of_true rfl hle
  | finite hlt hx =>
    refine iff_of_false ?_ (not_le.2 hlt)
    rintro rfl
    exact Nat.lt_irrefl infinityPattern hx.finite

/-- `nearest` finds the value that a quotient is rounded to. -/
theorem roundsTo_nearest (a : Nat) {b : Nat} (hb : 0 < b) : RoundsTo (a / b) (nearest a b) := by
  obtain ⟨p, hp, hw⟩ := exists_within a hb
  rw [nearest, hp]
  exact hw.roundsTo

end Within

end Binary64

end EcmaTokens
