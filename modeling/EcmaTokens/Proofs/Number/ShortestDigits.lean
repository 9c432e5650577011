/-
The digits that are found are the shortest. No multiple of a larger power of ten reads back, so every number of fewer
digits that did would have a power of ten between itself and the digits that were found. Of the numbers of as many
digits none is nearer to the value, and only the next smaller one can be as near.
-/
import EcmaTokens.Proofs.Number.Layout
import EcmaTokens.Proofs.Number.Rounding

namespace EcmaTokens

namespace Shortest

open Binary64 (units Within units_eq exists_parts units_strictMono lower_lt lt_upper upper_eq)

variable {p d d' : Nat} {t e : Int} {q q' w : ℚ}

/-! ## Numbers that read back -/

/-- The value of a pattern. -/
def value (p : Nat) : ℚ :=
  units p / 2 ^ 1074

/-- The number reads back as a pattern's value. -/
def Reads (p : Nat) (q : ℚ) : Prop :=
  Within p (q * 2 ^ 1075)

theorem value_mul (p : Nat) : value p * 2 ^ 1075 = 2 * units p := by
  have general : ∀ k, (units p / 2 ^ k * 2 ^ (k + 1) : ℚ) = 2 * units p := by
    intro k
    rw [pow_succ, ← mul_assoc, div_mul_cancel₀ _ (by positivity), mul_comm]
  exact general 1074

theorem scale_pos : (0 : ℚ) < 2 ^ 1075 := by
  positivity

theorem reads_multiple_iff : readsBack p t d = true ↔ Reads p (d * 10 ^ t) :=
  readsBack_iff

theorem reads_value (hp : 0 < p) : Reads p (value p) := by
  rw [Reads, value_mul]
  have hl : (lower p : ℚ) < 2 * units p := by exact_mod_cast lower_lt hp
  have hu : (2 * units p : ℚ) < upper p := by exact_mod_cast lt_upper p
  exact ⟨hl.le, hu.le, fun h => h.elim (fun h => absurd h hl.ne') fun h => absurd h hu.ne⟩

/-- What lies between two numbers that read back does so too. -/
theorem Reads.between (h : Reads p q) (h' : Reads p q') (hw : q ≤ w) (hw' : w ≤ q') : Reads p w := by
  have hle := mul_le_mul_of_nonneg_right hw scale_pos.le
  have hle' := mul_le_mul_of_nonneg_right hw' scale_pos.le
  refine ⟨h.lower_le.trans hle, hle'.trans h'.le_upper, fun hends => ?_⟩
  rcases hends with hends | hends
  · exact h.even (.inl (le_antisymm (hle.trans hends.le) h.lower_le))
  · exact h'.even (.inr (le_antisymm h'.le_upper (hends.ge.trans hle')))

theorem not_reads_zero (hp : 0 < p) : ¬ Reads p 0 := by
  intro h
  have hl := h.lower_le
  rw [zero_mul] at hl
  have hl : lower p ≤ 0 := by exact_mod_cast hl
  have := units_strictMono hp
  unfold lower at hl
  omega

/-- From a pattern to the next the value does not more than double. -/
theorem reads_lt (hp : 0 < p) (h : Reads p q) : q < 10 * value p := by
  have hup : upper p < 20 * units p := by
    obtain ⟨s, c, rfl, hs, hc⟩ := exists_parts p
    have hpos := Nat.two_pow_pos s
    have hc₀ : 1 ≤ c := by omega
    have := Nat.mul_le_mul_right (2 ^ s) hc₀
    rw [upper_eq hs hc, units_eq hs hc.le, Nat.add_mul, Nat.mul_assoc, Nat.one_mul]
    omega
  refine lt_of_mul_lt_mul_right ?_ scale_pos.le
  calc q * 2 ^ 1075 ≤ upper p := h.le_upper
    _ < 20 * units p := by exact_mod_cast hup
    _ = 10 * value p * 2 ^ 1075 := by rw [mul_assoc, value_mul]; ring

/-! ## Multiples around a value -/

/-- Comparisons of the search, as comparisons of numbers. -/
theorem lt_step_iff {a b : Nat} : a * (2 * units p * unit t) < b * step t ↔ a * value p < b * 10 ^ t := by
  have hu : (0 : ℚ) < unit t := Nat.cast_pos.2 (unit_pos t)
  rw [← Nat.mul_assoc, ← Nat.cast_lt (α := ℚ), Nat.cast_mul, Nat.cast_mul b, ← lt_div_iff₀ hu, mul_div_assoc,
    step_div_unit, Nat.cast_mul, Nat.cast_mul, Nat.cast_ofNat, ← value_mul, ← mul_assoc, ← mul_assoc,
    mul_lt_mul_iff_of_pos_right scale_pos]

theorem floorMultiple_le (p : Nat) (t : Int) : floorMultiple p t * 10 ^ t ≤ value p := by
  have hle : floorMultiple p t * step t ≤ 2 * units p * unit t := Nat.div_mul_le_self _ _
  rw [← Nat.one_mul (2 * units p * unit t), ← Nat.not_lt, lt_step_iff, Nat.cast_one, one_mul] at hle
  exact not_lt.1 hle

theorem lt_floorMultiple_succ (p : Nat) (t : Int) : value p < (floorMultiple p t + 1 : Nat) * 10 ^ t := by
  have hlt : 2 * units p * unit t < floorMultiple p t * step t + step t := Nat.lt_div_mul_add (step_pos t)
  rwa [← Nat.succ_mul, ← Nat.one_mul (2 * units p * unit t), lt_step_iff, Nat.cast_one, one_mul] at hlt

theorem nearerBelow_iff : nearerBelow p t d = true ↔ 2 * value p < (2 * d + 1) * 10 ^ t := by
  rw [nearerBelow, decide_eq_true_iff, lt_step_iff]
  push_cast
  rfl

/-! ## The choice among them -/

/-- The number `a` is preferred to `b`: it is nearer to `v`, or the larger of two that are equally near. -/
def Beats (v a b : ℚ) : Prop :=
  |a - v| < |b - v| ∨ a = b ∨ b < v ∧ v < a ∧ b + a = 2 * v

section Beats

variable {v a b : ℚ}

theorem Beats.dist_le (h : Beats v a b) : |a - v| ≤ |b - v| := by
  rcases h with h | rfl | ⟨hb, ha, h⟩
  · exact h.le
  · exact le_rfl
  · rw [abs_of_pos (sub_pos.2 ha), abs_of_neg (sub_neg.2 hb)]
    linarith

theorem beats_above (ha : v ≤ a) (hab : a ≤ b) : Beats v a b := by
  rcases hab.lt_or_eq with hab | hab
  · left
    rw [abs_of_nonneg (sub_nonneg.2 ha), abs_of_nonneg (by linarith)]
    linarith
  · exact .inr (.inl hab)

theorem beats_below (hab : b ≤ a) (ha : a ≤ v) : Beats v a b := by
  rcases hab.lt_or_eq with hab | hab
  · left
    rw [abs_of_nonpos (sub_nonpos.2 ha), abs_of_nonpos (by linarith)]
    linarith
  · exact .inr (.inl hab.symm)

/-- The larger of two numbers around `v` is preferred unless the other is nearer. -/
theorem beats_across (hb : b ≤ v) (ha : v < a) (h : a + b ≤ 2 * v) : Beats v a b := by
  rcases h.lt_or_eq with h | h
  · left
    rw [abs_of_pos (sub_pos.2 ha), abs_of_nonpos (sub_nonpos.2 hb)]
    linarith
  · exact .inr (.inr ⟨by linarith, ha, by linarith⟩)

theorem dist_lt_of_across (ha : a ≤ v) (hb : v ≤ b) (h : 2 * v < a + b) : |a - v| < |b - v| := by
  rw [abs_of_nonpos (sub_nonpos.2 ha), abs_of_nonneg (sub_nonneg.2 hb)]
  linarith

end Beats

/-- Multiples of a power of ten are ordered as their factors. -/
theorem multiple_le (t : Int) (h : d ≤ d') : (d * 10 ^ t : ℚ) ≤ d' * 10 ^ t :=
  mul_le_mul_of_nonneg_right (Nat.cast_le.2 h) (by positivity)

theorem reads_floorMultiple (hp : 0 < p) (h : Reads p (d * 10 ^ t)) (hd : d ≤ floorMultiple p t) :
    readsBack p t (floorMultiple p t) = true :=
  reads_multiple_iff.2 (h.between (reads_value hp) (multiple_le t hd) (floorMultiple_le p t))

theorem reads_floorMultiple_succ (hp : 0 < p) (h : Reads p (d * 10 ^ t)) (hd : floorMultiple p t < d) :
    readsBack p t (floorMultiple p t + 1) = true :=
  reads_multiple_iff.2 ((reads_value hp).between h (lt_floorMultiple_succ p t).le (multiple_le t hd))

/-- Where a multiple reads back one is found. -/
theorem exists_multiple?_of_reads (hp : 0 < p) (h : Reads p (d * 10 ^ t)) : ∃ d, multiple? p t = some d := by
  unfold multiple?
  dsimp only
  split
  · split <;> exact ⟨_, rfl⟩
  · next hno =>
    have hd : floorMultiple p t < d := by
      by_contra hd
      exact hno (reads_floorMultiple hp h (Nat.not_lt.1 hd))
    exact ⟨_, if_pos (reads_floorMultiple_succ hp h hd)⟩

/-- The multiple that is found is preferred to every other one that reads back. -/
theorem beats_of_multiple? (hp : 0 < p) (h : multiple? p t = some d) (h' : Reads p (d' * 10 ^ t)) :
    Beats (value p) (d * 10 ^ t) (d' * 10 ^ t) := by
  have hlow := floorMultiple_le p t
  have hupp := lt_floorMultiple_succ p t
  have hmid : ((floorMultiple p t + 1 : Nat) * 10 ^ t + floorMultiple p t * 10 ^ t : ℚ) =
      (2 * floorMultiple p t + 1) * 10 ^ t := by
    push_cast
    ring
  unfold multiple? at h
  dsimp only at h
  split at h
  · split at h
    · next hb =>
      cases h
      have hnear : ¬ nearerBelow p t (floorMultiple p t) = true := by
        simpa using (Bool.and_eq_true_iff.1 hb).2
      rw [nearerBelow_iff, not_lt] at hnear
      rcases Nat.lt_or_ge (floorMultiple p t) d' with hd | hd
      · exact beats_above hupp.le (multiple_le t hd)
      · have := multiple_le t hd
        exact beats_across (by linarith) hupp (by linarith)
    · next hb =>
      cases h
      rcases Nat.lt_or_ge (floorMultiple p t) d' with hd | hd
      · have hnear : nearerBelow p t (floorMultiple p t) = true := by
          simpa [reads_floorMultiple_succ hp h' hd] using hb
        rw [nearerBelow_iff] at hnear
        have := multiple_le t (Nat.succ_le_of_lt hd)
        exact .inl (dist_lt_of_across hlow (by linarith) (by linarith))
      · exact beats_below (multiple_le t hd) hlow
  · next hno =>
    split at h
    · cases h
      rcases Nat.lt_or_ge (floorMultiple p t) d' with hd | hd
      · exact beats_above hupp.le (multiple_le t hd)
      · exact absurd (reads_floorMultiple hp h' hd) hno
    · cases h

/-! ## No shorter digits -/

/-- No multiple of a larger power of ten reads back. -/
theorem not_reads_of_exponent_lt (hp : 0 < p) (he : (shortest p).exponent < e) : ¬ Reads p (d * 10 ^ e) := by
  intro h
  rcases lt_or_ge (decade p) e with hlt | hle
  · have hd : 1 ≤ d := by
      rw [Nat.one_le_iff_ne_zero]
      rintro rfl
      rw [Nat.cast_zero, zero_mul] at h
      exact not_reads_zero hp h
    have hone := multiple_le e hd
    have hdecade : value p ≤ 10 ^ decade p := le_decade hp
    have hstep : (10 : ℚ) ^ (decade p + 1) ≤ 10 ^ e := zpow_le_zpow_right₀ (by norm_num) hlt
    have := reads_lt hp h
    rw [zpow_add_one₀ (by norm_num)] at hstep
    rw [Nat.cast_one, one_mul] at hone
    linarith
  · obtain ⟨c, hc⟩ := exists_multiple?_of_reads hp h
    rw [(search_spec (exists_seventeen hp)).2 e he hle] at hc
    cases hc

theorem reads_shortest (hp : 0 < p) : Reads p (shortest p).value :=
  within_shortest hp

/-- A number that reads back is below the shortest digits by a power of ten only if these are a single digit. -/
theorem single_of_reads (hp : 0 < p) (h : Reads p q) (hq : q ≤ 10 ^ ((shortest p).pointPosition - 1)) :
    (shortest p).digits.length = 1 ∧ Reads p (10 ^ (shortest p).exponent) := by
  have hle : (10 : ℚ) ^ ((shortest p).pointPosition - 1) ≤ (shortest p).value :=
    (Scientific.zpow_le_value_iff (shortest_pos hp) _).2 (by omega)
  have hread := h.between (reads_shortest hp) hq hle
  have hpos := (shortest p).pointPosition_eq
  have hlen := (shortest p).length_digits_pos
  have hexp : (shortest p).pointPosition - 1 = (shortest p).exponent := by
    by_contra hne
    have hlt : (shortest p).exponent < (shortest p).pointPosition - 1 := by omega
    exact not_reads_of_exponent_lt (d := 1) hp hlt (by rwa [Nat.cast_one, one_mul])
  rw [hexp] at hread
  exact ⟨by omega, hread⟩

/-- Digits stay below the power of ten that they do not reach. -/
theorem multiple_lt_zpow {j : Nat} {m : Int} (hd : d < 10 ^ j) (hm : j + e ≤ m) : (d * 10 ^ e : ℚ) < 10 ^ m := by
  have hd : (d : ℚ) < 10 ^ j := by exact_mod_cast hd
  calc (d * 10 ^ e : ℚ) < 10 ^ j * 10 ^ e := mul_lt_mul_of_pos_right hd (by positivity)
    _ = 10 ^ (j + e) := by rw [zpow_add₀ (by norm_num), zpow_natCast]
    _ ≤ 10 ^ m := zpow_le_zpow_right₀ (by norm_num) hm

/-- No number of fewer digits reads back. -/
theorem length_digits_le {j : Nat} (hp : 0 < p) (h : Reads p (d * 10 ^ e)) (hd : d < 10 ^ j) :
    (shortest p).digits.length ≤ j := by
  by_contra hj
  have he : e ≤ (shortest p).exponent := by
    by_contra he
    exact not_reads_of_exponent_lt hp (Int.not_le.1 he) h
  have hpos := (shortest p).pointPosition_eq
  obtain ⟨hone, -⟩ := single_of_reads hp h (multiple_lt_zpow hd (by omega)).le
  obtain rfl : j = 0 := by omega
  obtain rfl : d = 0 := by omega
  rw [Nat.cast_zero, zero_mul] at h
  exact not_reads_zero hp h

/-- No other digits of their number spell the same value. -/
theorem eq_of_value_eq (hp : 0 < p) (hd : d < 10 ^ (shortest p).digits.length)
    (h : (d * 10 ^ e : ℚ) = (shortest p).value) :
    d = (shortest p).coefficient ∧ e = (shortest p).exponent := by
  have hread : Reads p (d * 10 ^ e) := h ▸ reads_shortest hp
  have hpos := (shortest p).pointPosition_eq
  rcases lt_trichotomy e (shortest p).exponent with hlt | rfl | hgt
  · have hle : (10 : ℚ) ^ ((shortest p).pointPosition - 1) ≤ (shortest p).value :=
      (Scientific.zpow_le_value_iff (shortest_pos hp) _).2 (by omega)
    exact absurd h ((multiple_lt_zpow hd (by omega)).trans_le hle).ne
  · refine ⟨?_, rfl⟩
    have hpow : (10 : ℚ) ^ (shortest p).exponent ≠ 0 := by positivity
    exact Nat.cast_injective (mul_right_cancel₀ hpow h)
  · exact absurd hread (not_reads_of_exponent_lt hp hgt)

/-! ## No nearer digits -/

/-- The interval of a value is no longer than a tenth of it, but for the smallest values. -/
theorem narrow (hp : 10 ≤ p) : 10 * upper p ≤ 2 * units p + 10 * lower p := by
  obtain ⟨s, q, rfl, hs, hq⟩ := exists_parts p
  obtain ⟨k, rfl⟩ : ∃ k, q = k + 1 := ⟨q - 1, by omega⟩
  rw [units_eq hs hq.le, upper_eq hs hq]
  by_cases hk : s = 0 ∨ 2 ^ 52 ≤ k
  · rw [Binary64.lower_succ_eq hk (by omega)]
    have := Nat.mul_le_mul_right (2 ^ s) (show 10 ≤ k + 1 by omega)
    generalize 2 ^ s = w at *
    have h₁ : (2 * (k + 1) + 1) * w = (2 * k + 1) * w + 2 * w := by ring
    omega
  · -- the lowest significand of its scale
    obtain ⟨s, rfl⟩ : ∃ r, s = r + 1 := ⟨s - 1, by omega⟩
    obtain rfl : k = 2 ^ 52 - 1 := by omega
    rw [show (s + 1) * 2 ^ 52 + (2 ^ 52 - 1 + 1) = s * 2 ^ 52 + (2 ^ 53 - 1 + 1) by omega,
      Binary64.lower_succ_eq (by omega) (by decide), pow_succ 2 s]
    generalize 2 ^ s = w at *
    omega

/-- Of the smallest values only twice the smallest one is just below its single digit, and it is far above the next
smaller number of a single digit. -/
theorem tiny : ∀ p < 10, 0 < p →
    1 * (2 * units p * unit (shortest p).exponent) < 1 * step (shortest p).exponent →
    ¬ 4 * (2 * units p * unit ((shortest p).exponent - 1)) < 39 * step ((shortest p).exponent - 1) := by
  decide +kernel

theorem zpow_eq_ten_mul (e : Int) : (10 : ℚ) ^ e = 10 * 10 ^ (e - 1) := by
  rw [← zpow_one_add₀ (by norm_num), add_sub_cancel]

/-- A power of ten that reads back is nearer to a value below it than a smaller number of a single digit is. -/
theorem lt_of_nine (hp : 0 < p) (hnine : Reads p (9 * 10 ^ ((shortest p).exponent - 1)))
    (hten : Reads p (10 ^ (shortest p).exponent)) (hv : value p < 10 ^ (shortest p).exponent) :
    19 * (10 : ℚ) ^ ((shortest p).exponent - 1) < 2 * value p := by
  have hpow := zpow_eq_ten_mul (shortest p).exponent
  have hpos : (0 : ℚ) < 10 ^ ((shortest p).exponent - 1) := by positivity
  rcases Nat.lt_or_ge p 10 with hlt | hge
  · have h := tiny p hlt hp
    rw [lt_step_iff, lt_step_iff] at h
    push_cast at h
    rw [one_mul, one_mul, not_lt] at h
    have := h hv
    linarith
  · -- both numbers would lie in an interval that is too short for them
    have hnarrow : (10 * upper p : ℚ) ≤ 2 * units p + 10 * lower p := by exact_mod_cast narrow hge
    have hlow := hnine.lower_le
    have hupp := hten.le_upper
    have hval := value_mul p
    have hv' := mul_lt_mul_of_pos_right hv scale_pos
    rw [hpow] at hupp hv'
    rw [hval] at hv'
    generalize (10 : ℚ) ^ ((shortest p).exponent - 1) = x at *
    generalize (2 : ℚ) ^ 1075 = w at *
    linarith

/-- The shortest digits are preferred to all others of their number. -/
theorem beats_shortest (hp : 0 < p) (h : Reads p (d * 10 ^ e)) (hd : d < 10 ^ (shortest p).digits.length) :
    Beats (value p) (shortest p).value (d * 10 ^ e) := by
  have hmult := (search_spec (exists_seventeen hp)).1
  rcases lt_trichotomy e (shortest p).exponent with hlt | rfl | hgt
  · have hpos := (shortest p).pointPosition_eq
    obtain ⟨hone, hten⟩ := single_of_reads hp h (multiple_lt_zpow hd (by omega)).le
    have hbeats : Beats (value p) (shortest p).value ((1 : Nat) * 10 ^ (shortest p).exponent) :=
      beats_of_multiple? hp hmult (by rwa [Nat.cast_one, one_mul])
    rw [Nat.cast_one, one_mul] at hbeats
    refine .inl (hbeats.dist_le.trans_lt ?_)
    have hpow := zpow_eq_ten_mul (shortest p).exponent
    have hx : (0 : ℚ) < 10 ^ ((shortest p).exponent - 1) := by positivity
    have hnine : (d * 10 ^ e : ℚ) ≤ 9 * 10 ^ ((shortest p).exponent - 1) := by
      rw [hone] at hd
      have hd : (d : ℚ) ≤ 9 := by exact_mod_cast Nat.le_of_lt_succ hd
      have he : (10 : ℚ) ^ e ≤ 10 ^ ((shortest p).exponent - 1) := zpow_le_zpow_right₀ (by norm_num) (by omega)
      exact mul_le_mul hd he (by positivity) (by norm_num)
    rcases le_or_gt ((10 : ℚ) ^ (shortest p).exponent) (value p) with hv | hv
    · rw [abs_of_nonpos (sub_nonpos.2 hv), abs_of_nonpos (by linarith)]
      linarith
    · have hreads := h.between hten hnine (by rw [hpow]; linarith)
      have := lt_of_nine hp hreads hten hv
      rw [abs_of_pos (sub_pos.2 hv), abs_of_neg (by linarith)]
      linarith
  · exact beats_of_multiple? hp hmult h
  · exact absurd h (not_reads_of_exponent_lt hp hgt)

end Shortest

end EcmaTokens
