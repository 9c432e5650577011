/-
How a number is written, told from the number alone. Its digits are the shortest that are rounded to it, and of
these the nearest to it; the layout follows from them and from the position of the point.
-/
import EcmaTokens.Proofs.Number.ShortestDigits

namespace EcmaTokens

open Scientific (layout)

/-- The number `0.d1…dk · 10^n`. -/
def pointValue (ds : List Char) (n : Int) : ℚ :=
  digitsValue 10 ds * 10 ^ (n - ds.length)

theorem pointValue_nonneg (ds : List Char) (n : Int) : 0 ≤ pointValue ds n := by
  unfold pointValue
  positivity

theorem pointValue_digits (x : Scientific) : pointValue x.digits x.pointPosition = x.value := by
  rw [pointValue, Scientific.digits, digitsValue_toDigits, Scientific.pointPosition, Scientific.digits,
    add_sub_cancel_left]
  rfl

namespace Binary64

/-! ## Shortest digits -/

/-- The number without its sign. -/
def abs (x : Binary64) : Binary64 :=
  ofPattern x.pattern

/-- Of all digits that are rounded to the number without its sign these are the shortest, and of those that are as
short none are nearer to it. Neither the first nor the last of them is a zero. -/
structure ShortestDigits (x : Binary64) (ds : List Char) (n : Int) : Prop where
  digit : ∀ c ∈ ds, isDecimalDigit c = true
  first : ∃ d ∈ ds.head?, d ≠ '0'
  last : ∃ d ∈ ds.getLast?, d ≠ '0'
  readsBack : RoundsTo (pointValue ds n) x.abs
  shortest : ∀ ds' n', (∀ c ∈ ds', isDecimalDigit c = true) → RoundsTo (pointValue ds' n') x.abs →
    ds.length ≤ ds'.length
  nearest : ∀ ds' n', (∀ c ∈ ds', isDecimalDigit c = true) → ds'.length = ds.length →
    RoundsTo (pointValue ds' n') x.abs → |pointValue ds n - (|x.toRat|)| ≤ |pointValue ds' n' - (|x.toRat|)|

open Shortest (Reads Beats value)

variable {x : Binary64} {p : Nat} {q : ℚ} {ds : List Char} {n : Int}

theorem abs_toRat (x : Binary64) : |x.toRat| = value x.pattern := by
  have hpos : (0 : ℚ) ≤ value x.pattern := by
    unfold value
    positivity
  rw [toRat, mul_div_assoc, abs_mul]
  rw [show |(units x.pattern / 2 ^ 1074 : ℚ)| = _ from abs_of_nonneg hpos]
  split <;> simp [value]

/-- To be rounded to a finite number is to lie in its interval. -/
theorem roundsTo_iff_reads (hp : p < infinityPattern) (hq : 0 ≤ q) : RoundsTo q (ofPattern p) ↔ Reads p q := by
  constructor
  · intro h
    have hnum : (q.num.toNat : ℚ) = q.num := by exact_mod_cast Int.toNat_of_nonneg (Rat.num_nonneg.2 hq)
    have heq : q = q.num.toNat / q.den := by rw [hnum, Rat.num_div_den]
    obtain ⟨p', -, hw⟩ := exists_within q.num.toNat q.den_pos
    rw [← heq] at hw
    have hpat := congrArg pattern (h.unique hw.roundsTo)
    have hmin : min p' infinityPattern ≤ infinityPattern := Nat.min_le_right ..
    rw [pattern_ofPattern (hp.trans infinityPattern_lt), pattern_ofPattern (hmin.trans_lt infinityPattern_lt)] at hpat
    obtain rfl : p = p' := by omega
    exact hw
  · intro h
    have hr := Within.roundsTo h
    rwa [Nat.min_eq_left hp.le] at hr

theorem digitsValue_lt_pow (h : ∀ c ∈ ds, isDecimalDigit c = true) : digitsValue 10 ds < 10 ^ ds.length :=
  digitsValue_lt fun c hc => digitValue_lt_of_decimal (h c hc)

/-- The last digit of a number is a zero only if ten divides the number. -/
theorem getLast?_toDigits {k : Nat} (h : ¬ 10 ∣ k) : ∃ d ∈ (Nat.toDigits 10 k).getLast?, d ≠ '0' := by
  have hv := digitsValue_toDigits k
  rcases List.eq_nil_or_concat (Nat.toDigits 10 k) with hnil | ⟨front, d, hds⟩
  · exact absurd hnil Nat.toDigits_ne_nil
  · refine ⟨d, by rw [hds, List.concat_eq_append, List.getLast?_concat]; rfl, ?_⟩
    rintro rfl
    rw [hds, List.concat_eq_append, digitsValue_append] at hv
    exact h ⟨digitsValue 10 front, by rw [← hv, Nat.mul_comm]; rfl⟩

/-- The digits that are found are the shortest, and the nearest of them. -/
theorem shortestDigits (hf : x.IsFinite) (hx : 0 < x.pattern) :
    x.ShortestDigits (shortest x.pattern).digits (shortest x.pattern).pointPosition := by
  have hten : ¬ 10 ∣ (shortest x.pattern).coefficient := by
    rintro ⟨c, hc⟩
    refine Shortest.not_reads_of_exponent_lt (d := c) hx (lt_add_one _) ?_
    have hread := Shortest.reads_shortest hx
    rw [Scientific.value, hc] at hread
    rw [zpow_add_one₀ (by norm_num)]
    convert hread using 1
    push_cast
    ring
  obtain ⟨d, ds, hds, hd⟩ := toDigits_eq_cons (shortest_pos hx)
  have reads : ∀ ds n, RoundsTo (pointValue ds n) x.abs → Reads x.pattern (pointValue ds n) :=
    fun ds n => (roundsTo_iff_reads hf (pointValue_nonneg ds n)).1
  refine ⟨digit_toDigits _, ⟨d, by rw [Scientific.digits, hds]; rfl, hd⟩, getLast?_toDigits hten, ?_,
    fun ds' n' hds' h => Shortest.length_digits_le hx (reads _ _ h) (digitsValue_lt_pow hds'),
    fun ds' n' hds' hlen h => ?_⟩
  · rw [pointValue_digits]
    exact (roundsTo_iff_reads hf ((pointValue_digits _).symm ▸ pointValue_nonneg _ _)).2 (Shortest.reads_shortest hx)
  · rw [pointValue_digits, abs_toRat]
    exact (Shortest.beats_shortest hx (reads _ _ h) (hlen ▸ digitsValue_lt_pow hds')).dist_le

/-- No other digits are the shortest and as near, unless the number lies in the middle above them. -/
theorem ShortestDigits.eq_or_tie (h : x.ShortestDigits ds n) (hf : x.IsFinite) (hx : 0 < x.pattern) :
    (ds = (EcmaTokens.shortest x.pattern).digits ∧ n = (EcmaTokens.shortest x.pattern).pointPosition) ∨
      pointValue ds n < |x.toRat| ∧ |x.toRat| < (EcmaTokens.shortest x.pattern).value ∧
        pointValue ds n + (EcmaTokens.shortest x.pattern).value = 2 * |x.toRat| := by
  have hs := shortestDigits hf hx
  have hlen : ds.length = (EcmaTokens.shortest x.pattern).digits.length :=
    Nat.le_antisymm (h.shortest _ _ hs.digit hs.readsBack) (hs.shortest _ _ h.digit h.readsBack)
  have hread := (roundsTo_iff_reads hf (pointValue_nonneg ds n)).1 h.readsBack
  have hlt := digitsValue_lt_pow h.digit
  have hnear := h.nearest _ _ hs.digit hlen.symm hs.readsBack
  rw [pointValue_digits, abs_toRat] at hnear
  rw [hlen] at hlt
  rw [abs_toRat]
  rcases Shortest.beats_shortest hx hread hlt with hdist | heq | htie
  · exact absurd hnear (not_le.2 hdist)
  · obtain ⟨hd, he⟩ := Shortest.eq_of_value_eq hx hlt heq.symm
    refine .inl ⟨digitsValue_inj h.digit hs.digit hlen ?_, ?_⟩
    · rw [hd, Scientific.digits, digitsValue_toDigits]
    · rw [Scientific.pointPosition, ← he, hlen]
      omega
  · exact .inr htie

/-! ## The text -/

/-- The text of a finite number that is not zero: a minus if the number is negative, and the layout of the shortest
digits that are rounded to the number without its sign, the nearest of them to it. They are the only such digits but
where the number lies in the middle between two, of which the larger is written. -/
theorem text_layout (hf : x.IsFinite) (hx : x.isZero = false) :
    ∃ ds n, x.ShortestDigits ds n ∧ x.text = String.ofList (x.signed (layout ds n)) ∧
      ∀ ds' n', x.ShortestDigits ds' n' → (ds' = ds ∧ n' = n) ∨
        pointValue ds' n' < |x.toRat| ∧ |x.toRat| < pointValue ds n ∧
          pointValue ds' n' + pointValue ds n = 2 * |x.toRat| := by
  have hpos : 0 < x.pattern := Nat.pos_of_ne_zero (by simpa [isZero] using hx)
  refine ⟨_, _, shortestDigits hf hpos, text_eq hf hpos, fun ds' n' h => ?_⟩
  rw [pointValue_digits]
  exact h.eq_or_tie hf hpos

/-- The number next to a millionth, which is no binary64 value itself, is written without an exponent. -/
theorem text_layout_millionth :
    ∃ ds n, (⟨0xBEB0C6F7A0B5ED8D⟩ : Binary64).ShortestDigits ds n ∧
      (⟨0xBEB0C6F7A0B5ED8D⟩ : Binary64).text = String.ofList ('-' :: layout ds n) ∧
      '-' :: layout ds n = "-0.000001".toList := by
  have hf : (⟨0xBEB0C6F7A0B5ED8D⟩ : Binary64).IsFinite := by
    rw [IsFinite]
    decide +kernel
  obtain ⟨ds, n, hds, htext, -⟩ := text_layout hf (by decide +kernel)
  have hneg : (⟨0xBEB0C6F7A0B5ED8D⟩ : Binary64).isNegative = true := by decide +kernel
  have hval : (⟨0xBEB0C6F7A0B5ED8D⟩ : Binary64).text = "-0.000001" := by decide +kernel
  rw [signed, hneg, if_pos rfl] at htext
  refine ⟨ds, n, hds, htext, ?_⟩
  rw [← hval, htext, String.toList_ofList]

end Binary64

end EcmaTokens
