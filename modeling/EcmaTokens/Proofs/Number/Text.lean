/-
The text of a number is a decimal numeral, in each of its layouts, and the numeral is rounded to the number.
-/
import EcmaTokens.Proofs.Lexeme.NumeralForm
import EcmaTokens.Proofs.Number.Decimal
import EcmaTokens.Proofs.Number.Layout

namespace EcmaTokens

open Numeral (Form Whole Mantissa Sign Exponent)

/-! ## Numerals -/

namespace Scientific

variable {x : Scientific} {d : Char} {ds : List Char}

/-- A signed exponent is read as itself. -/
theorem exponent_exponentText (e : Int) : Exponent ('e' :: exponentText e) e := by
  have hne : Nat.toDigits 10 e.natAbs ≠ [] := Nat.toDigits_ne_nil
  have hd := digit_toDigits e.natAbs
  have hv := digitsValue_toDigits e.natAbs
  unfold exponentText
  split
  · next h =>
    have hx := Exponent.some (.inl rfl) .minus hne hd
    rw [hv] at hx
    rwa [show -1 * (e.natAbs : Int) = e by omega] at hx
  · next h =>
    have hx := Exponent.some (.inl rfl) .plus hne hd
    rw [hv] at hx
    rwa [show 1 * (e.natAbs : Int) = e by omega] at hx

/-- One digit in front of the point, the others behind it, and an exponent. -/
theorem exponentForm_spelled (hd : d ≠ '0') (hds : ∀ c ∈ d :: ds, isDecimalDigit c = true) (n : Int) :
    (Form.decimal ⟨d :: ds, n - (d :: ds).length⟩).Spelled (exponentForm (d :: ds) n) := by
  have he := exponent_exponentText (n - 1)
  have hds' := List.forall_mem_cons.1 hds
  have hone : Whole [d] := .digits hd (by simpa using hds'.1)
  cases ds with
  | nil =>
    have hs := Form.Spelled.decimal (.whole hone) he
    rwa [show n - 1 - ((0 : Nat) : Int) = n - [d].length by simp] at hs
  | cons c cs =>
    have hs := Form.Spelled.decimal (.point hone hds'.2) he
    rwa [show n - 1 - ((c :: cs).length : Int) = n - (d :: c :: cs).length by simp; omega] at hs

/-- Digits around a point. -/
theorem point_spelled {fs : List Char} (hw : Whole ds) (hf : ∀ c ∈ fs, isDecimalDigit c = true) :
    (Form.decimal ⟨ds ++ fs, -fs.length⟩).Spelled (ds ++ '.' :: fs) := by
  have hs := Form.Spelled.decimal (.point hw hf) .none
  rwa [List.append_nil, Int.zero_sub] at hs

/-- Digits without a point. -/
theorem whole_spelled (hw : Whole ds) : (Form.decimal ⟨ds, 0⟩).Spelled ds := by
  have hs := Form.Spelled.decimal (.whole hw) .none
  rwa [List.append_nil, Nat.cast_zero, Int.sub_zero] at hs

theorem digit_zeros (k : Nat) : ∀ c ∈ List.replicate k '0', isDecimalDigit c = true := by
  intro c hc
  rw [List.eq_of_mem_replicate hc]
  rfl

/-- The layout of a positive number is a decimal numeral of its value. -/
theorem layout_spelled (hx : 0 < x.coefficient) :
    ∃ d : Decimal, (Form.decimal d).Spelled (layout x.digits x.pointPosition) ∧ d.value = x.value := by
  obtain ⟨d, ds, heq, hd⟩ := toDigits_eq_cons hx
  have hds := digit_toDigits x.coefficient
  have hv := digitsValue_toDigits x.coefficient
  have hpos : x.pointPosition = (d :: ds).length + x.exponent := by rw [pointPosition, digits, heq]
  rw [heq] at hds hv
  -- all layouts but the first keep the coefficient and the exponent
  have same : ∀ {cs : List Char} {e : Int} {text : List Char}, digitsValue 10 cs = x.coefficient → e = x.exponent →
      (Form.decimal ⟨cs, e⟩).Spelled text → ∃ d : Decimal, (Form.decimal d).Spelled text ∧ d.value = x.value := by
    rintro cs e text hcs rfl hs
    refine ⟨_, hs, ?_⟩
    rw [Decimal.value, Decimal.coefficient, hcs]
    rfl
  rw [digits, heq, layout]
  generalize x.pointPosition = n at *
  split
  · next hn =>
    rw [List.cons_append]
    refine ⟨_, whole_spelled (.digits hd (List.forall_mem_append.2 ⟨hds, digit_zeros _⟩)), ?_⟩
    have he : x.exponent = ((n - (d :: ds).length).toNat : Int) := by omega
    generalize (n - (d :: ds).length).toNat = k at *
    rw [Decimal.value, Decimal.coefficient, ← List.cons_append, digitsValue_append, digitsValue_zeros, hv,
      List.length_replicate, Scientific.value, he, zpow_natCast, zpow_zero, mul_one, Nat.add_zero]
    exact_mod_cast rfl
  · split
    · next hlt hn =>
      obtain ⟨k, hk⟩ : ∃ k, n.toNat = k + 1 := ⟨n.toNat - 1, by omega⟩
      have hds' := List.forall_mem_cons.1 hds
      rw [hk, List.take_succ_cons, List.drop_succ_cons]
      refine same ?_ ?_ (point_spelled (.digits hd (List.forall_mem_cons.2 ⟨hds'.1, fun c hc => ?_⟩))
        fun c hc => hds'.2 c (List.mem_of_mem_drop hc))
      · rw [List.cons_append, List.take_append_drop, hv]
      · rw [List.length_drop]
        rw [List.length_cons] at hlt hpos
        omega
      · exact hds'.2 c (List.mem_of_mem_take hc)
    · split
      · next hn =>
        refine same ?_ ?_ (point_spelled .zero (List.forall_mem_append.2 ⟨digit_zeros _, hds⟩))
        · rw [digitsValue_append, digitsValue_append, digitsValue_zeros, hv]
          show 0 * _ + _ = _
          rw [Nat.zero_mul, Nat.zero_mul, Nat.zero_add, Nat.zero_add]
        · rw [List.length_append, List.length_replicate]
          omega
      · exact same hv (by omega) (exponentForm_spelled hd hds n)

end Scientific

/-- The text of a finite number without a sign is a decimal numeral that is rounded to the number. -/
theorem Binary64.text_spelled {x : Binary64} (hx : x.isNegative = false) (hf : x.IsFinite) :
    ∃ d : Decimal, (Form.decimal d).Spelled x.text.toList ∧ d.toBinary64 = x := by
  have hxp := ofPattern_pattern hx
  rcases Nat.eq_zero_or_pos x.pattern with hz | hpos
  · have hzero : x.text = "0" := by
      rw [← hxp, hz]
      decide +kernel
    rw [hzero]
    refine ⟨_, Scientific.whole_spelled .zero, ?_⟩
    rw [← hxp, hz]
    rfl
  · obtain ⟨d, hd, hval⟩ := Scientific.layout_spelled (shortest_pos hpos)
    have hround := (within_shortest hpos).roundsTo
    rw [Nat.min_eq_left (Nat.le_of_lt hf), hxp, ← hval] at hround
    refine ⟨d, ?_, (d.roundsTo hd.digit).unique hround⟩
    rw [text_eq hf hpos, signed, if_neg (by rw [hx]; exact Bool.false_ne_true), String.toList_ofList]
    exact hd

end EcmaTokens
