/-
The layout of the text of a number. It follows from the digits and from where the point stands among them. That it
does is no matter of course: the notation is chosen by comparing the number with 1e-6, which is no binary64 value,
and with 1e21, while the digits are those of a number that is only rounded to it.
-/
import EcmaTokens.Number.Text
import EcmaTokens.Proofs.Number.Digits

namespace EcmaTokens

/-! ## Layouts -/

namespace Scientific

/-- The exponent of ten with its sign. -/
def exponentText (e : Int) : List Char :=
  (if e < 0 then '-' else '+') :: Nat.toDigits 10 e.natAbs

/-- One digit, the others behind a point if there are any, and the exponent. -/
def exponentForm (ds : List Char) (n : Int) : List Char :=
  mantissa ds ++ 'e' :: exponentText (n - 1)

/-- How the number `0.d1…dk · 10^n` is written. -/
def layout (ds : List Char) (n : Int) : List Char :=
  if ds.length ≤ n ∧ n ≤ 21 then ds ++ List.replicate (n - ds.length).toNat '0'
  else if 0 < n ∧ n ≤ 21 then ds.take n.toNat ++ '.' :: ds.drop n.toNat
  else if -6 < n ∧ n ≤ 0 then '0' :: '.' :: (List.replicate (-n).toNat '0' ++ ds)
  else exponentForm ds n

variable {x : Scientific}

theorem pointPosition_eq (x : Scientific) : x.pointPosition = x.digits.length + x.exponent :=
  rfl

theorem length_digits_pos (x : Scientific) : 0 < x.digits.length :=
  Nat.length_toDigits_pos

/-- In the middle of the range, positional notation is the layout. -/
theorem positional_eq (hlow : -6 < x.pointPosition) (hhigh : x.pointPosition ≤ 21) :
    x.positional = layout x.digits x.pointPosition := by
  have hk := x.length_digits_pos
  unfold positional layout
  dsimp only
  generalize x.pointPosition = n at *
  split
  · rw [if_neg (by omega), if_neg (by omega), if_pos (by omega)]
  · split
    · rw [if_neg (by omega), if_pos (by omega)]
    · rw [if_pos (by omega), Int.toNat_sub']

theorem mem_mantissa {c : Char} {ds : List Char} (h : c ∈ mantissa ds) : c = '.' ∨ c ∈ ds := by
  unfold mantissa at h
  split at h
  · simp only [List.mem_cons] at h ⊢
    tauto
  · exact .inr h

theorem digit_ne_e {ds : List Char} (hds : ∀ c ∈ ds, isDecimalDigit c = true) : ∀ c ∈ mantissa ds, c ≠ 'e' := by
  rintro c hc rfl
  rcases mem_mantissa hc with h | h
  · cases h
  · exact absurd (hds _ h) (by decide)

end Scientific

open Scientific (layout exponentForm exponentText)

theorem signExponent_append {front : List Char} (hfront : ∀ c ∈ front, c ≠ 'e') (e : Int) :
    signExponent (front ++ 'e' :: (if e < 0 then '-' :: Nat.toDigits 10 e.natAbs else Nat.toDigits 10 e.natAbs)) =
      front ++ 'e' :: exponentText e := by
  have hall : ∀ c ∈ front, (c != 'e') = true := fun c hc => by simpa using hfront c hc
  have htake : ∀ cs, (front ++ 'e' :: cs).takeWhile (· != 'e') = front := fun cs => takeWhile_append hall rfl
  have hdrop : ∀ cs, (front ++ 'e' :: cs).dropWhile (· != 'e') = 'e' :: cs := fun cs => by
    rw [List.dropWhile_append_of_pos hall]
    rfl
  rw [signExponent, htake, hdrop, exponentText]
  by_cases he : e < 0
  · rw [if_pos he, if_pos he]
    rfl
  · rw [if_neg he, if_neg he]
    -- the digits of the exponent do not begin with a minus
    have hdigit := digit_toDigits e.natAbs
    cases hds : Nat.toDigits 10 e.natAbs with
    | nil => exact absurd hds Nat.toDigits_ne_nil
    | cons d ds =>
      rw [hds] at hdigit
      have hd : d ≠ '-' := by
        rintro rfl
        exact absurd (hdigit '-' (List.mem_cons_self ..)) (by decide)
      split
      · next heq => cases heq
      · next heq => exact absurd (List.cons.inj (List.cons.inj heq).2).1 hd
      · next heq => rw [(List.cons.inj heq).2]

/-- Scientific notation with a sign in front of the exponent. -/
theorem signExponent_exponential (y : Binary64) (x : Scientific) :
    signExponent (y.signed x.exponential) = y.signed (exponentForm x.digits x.pointPosition) := by
  have hne := Scientific.digit_ne_e (digit_toDigits x.coefficient)
  unfold Binary64.signed Scientific.exponential exponentForm
  dsimp only
  split
  · have hne' : ∀ c ∈ '-' :: Scientific.mantissa x.digits, c ≠ 'e' := List.forall_mem_cons.2 ⟨by decide, hne⟩
    rw [← List.cons_append, signExponent_append hne', List.cons_append]
  · exact signExponent_append hne _

/-! ## Thresholds -/

namespace Scientific

variable {x : Scientific}

/-- The position of the point tells the powers of ten that the number reaches. -/
theorem zpow_le_value_iff (hx : 0 < x.coefficient) (m : Int) : (10 : ℚ) ^ m ≤ x.value ↔ m < x.pointPosition := by
  obtain ⟨hpos, hlow, hhigh⟩ := Shortest.digitCount_bounds hx
  have hk : x.pointPosition = Shortest.digitCount x.coefficient + x.exponent := rfl
  have hten : (0 : ℚ) < 10 ^ x.exponent := by positivity
  have hlow' : (10 : ℚ) ^ (x.pointPosition - 1) ≤ x.value := by
    have : ((10 ^ (Shortest.digitCount x.coefficient - 1) : Nat) : ℚ) ≤ x.coefficient := Nat.cast_le.2 hlow
    rw [show x.pointPosition - 1 = ((Shortest.digitCount x.coefficient - 1 : Nat) : Int) + x.exponent by omega,
      zpow_add₀ (by norm_num), zpow_natCast, value]
    exact mul_le_mul_of_nonneg_right (by exact_mod_cast this) hten.le
  have hhigh' : x.value < (10 : ℚ) ^ x.pointPosition := by
    have : (x.coefficient : ℚ) < ((10 ^ Shortest.digitCount x.coefficient : Nat) : ℚ) := Nat.cast_lt.2 hhigh
    rw [hk, zpow_add₀ (by norm_num), zpow_natCast, value]
    exact mul_lt_mul_of_pos_right (by exact_mod_cast this) hten
  constructor
  · intro h
    exact (zpow_lt_zpow_iff_right₀ (by norm_num)).1 (h.trans_lt hhigh')
  · intro h
    exact (zpow_le_zpow_right₀ (by norm_num) (by omega)).trans hlow'

end Scientific

namespace Binary64

open Shortest (lower upper step unit)

theorem upper_le_lower {p q : Nat} (h : p < q) : upper p ≤ lower q := by
  rw [upper_eq_lower_succ]
  rcases Nat.lt_or_eq_of_le (Nat.succ_le_of_lt h) with h | h
  · exact (lower_lt_lower h).le
  · rw [← h]

/-- A pattern is at least that of a power of ten exactly if its shortest digits are, however the power of ten is
rounded: its own shortest digits have to be those of the power. -/
theorem le_iff_zpow_le {b p : Nat} {m : Int} (hb : shortest b = ⟨1, m⟩) (hl : lower b * unit m < step m)
    (hb₀ : 0 < b) (hp : 0 < p) : b ≤ p ↔ (10 : ℚ) ^ m ≤ (shortest p).value := by
  have hw : (0 : ℚ) < 2 ^ 1075 := by positivity
  have hval : (shortest b).value = 10 ^ m := by rw [hb, Scientific.value, Nat.cast_one, one_mul]
  have hwithin := within_shortest hp
  constructor
  · intro h
    rcases Nat.lt_or_eq_of_le h with h | rfl
    · refine le_of_mul_le_mul_right ?_ hw
      rw [← hval]
      exact (within_shortest hb₀).le_upper.trans
        (le_trans (by exact_mod_cast upper_le_lower h) hwithin.lower_le)
    · exact hval.ge
  · intro h
    by_contra hlt
    have hpow : (lower b : ℚ) < 10 ^ m * 2 ^ 1075 := by
      rw [← Shortest.step_div_unit, lt_div_iff₀ (Nat.cast_pos.2 (Shortest.unit_pos m))]
      exact_mod_cast hl
    have hle : (upper p : ℚ) ≤ lower b := by exact_mod_cast upper_le_lower (Nat.not_le.1 hlt)
    exact absurd (hwithin.le_upper.trans_lt (hle.trans_lt hpow)) (not_lt.2 (mul_le_mul_of_nonneg_right h hw.le))

theorem leastPositional_le_iff {p : Nat} (hp : 0 < p) :
    leastPositional.pattern ≤ p ↔ -6 < (shortest p).pointPosition :=
  (le_iff_zpow_le (by decide +kernel) (by decide +kernel) (by decide +kernel) hp).trans
    (Scientific.zpow_le_value_iff (shortest_pos hp) (-6))

theorem leastLarge_le_iff {p : Nat} (hp : 0 < p) : leastLarge.pattern ≤ p ↔ 21 < (shortest p).pointPosition :=
  (le_iff_zpow_le (by decide +kernel) (by decide +kernel) (by decide +kernel) hp).trans
    (Scientific.zpow_le_value_iff (shortest_pos hp) 21)

/-- The text of a finite number that is not zero is the layout of its shortest digits. -/
theorem text_eq {x : Binary64} (hf : x.pattern < infinityPattern) (hx : 0 < x.pattern) :
    x.text = String.ofList (x.signed (layout (shortest x.pattern).digits (shortest x.pattern).pointPosition)) := by
  have hnan : x.isNaN = false := decide_eq_false (Nat.lt_asymm hf)
  have hinf : x.isInfinite = false := by simpa [isInfinite] using hf.ne
  have hzero : x.isZero = false := by simpa [isZero] using hx.ne'
  have hlow := leastPositional_le_iff hx
  have hhigh := leastLarge_le_iff hx
  rw [text, hnan, hzero, hinf, if_neg Bool.false_ne_true, if_neg Bool.false_ne_true, if_neg Bool.false_ne_true]
  split
  · next h =>
    obtain ⟨h₁, h₂⟩ : leastPositional.pattern ≤ x.pattern ∧ x.pattern < leastLarge.pattern := by simpa using h
    rw [Scientific.positional_eq (hlow.1 h₁) (by omega)]
  · next h =>
    have h : leastPositional.pattern ≤ x.pattern → leastLarge.pattern ≤ x.pattern := by simpa using h
    rw [signExponent_exponential]
    have hk := (shortest x.pattern).length_digits_pos
    have hout : ¬ (-6 < (shortest x.pattern).pointPosition ∧ (shortest x.pattern).pointPosition ≤ 21) := by
      rintro ⟨h₁, h₂⟩
      have := hhigh.1 (h (hlow.2 h₁))
      omega
    rw [layout, if_neg (by omega), if_neg (by omega), if_neg (by omega)]

end Binary64

end EcmaTokens
