/-
Decimal digits and the numbers that they spell. A number has one spelling of every length that is long enough.
-/
import EcmaTokens.Proofs.Number.Shortest
import EcmaTokens.Proofs.Source.Text

namespace EcmaTokens

variable {n : Nat}

theorem digit_toDigits (n : Nat) : ∀ c ∈ Nat.toDigits 10 n, isDecimalDigit c = true := by
  intro c hc
  have h := Nat.isDigit_of_mem_toDigits (by decide) (by decide) hc
  have h' : 48 ≤ c.val ∧ c.val ≤ 57 := by simpa [Char.isDigit] using h
  have hc : '0' ≤ c ∧ c ≤ '9' := h'
  simpa [isDecimalDigit] using hc

theorem digitsValue_append (radix : Nat) (cs ds : List Char) :
    digitsValue radix (cs ++ ds) = digitsValue radix cs * radix ^ ds.length + digitsValue radix ds := by
  have general : ∀ n, ds.foldl (fun n c => n * radix + digitValue c) n =
      n * radix ^ ds.length + digitsValue radix ds := by
    induction ds with
    | nil => intro n; simp [digitsValue]
    | cons d ds ih =>
      intro n
      have hcons : digitsValue radix (d :: ds) =
          ds.foldl (fun n c => n * radix + digitValue c) (0 * radix + digitValue d) := rfl
      rw [List.foldl_cons, ih, hcons, ih, List.length_cons]
      ring
  rw [digitsValue, List.foldl_append, general]
  rfl

theorem digitsValue_zeros (radix k : Nat) : digitsValue radix (List.replicate k '0') = 0 := by
  induction k with
  | zero => rfl
  | succ k ih =>
    rw [List.replicate_succ', digitsValue_append, ih, Nat.zero_mul, Nat.zero_add]
    exact Nat.zero_mul radix

theorem digitsValue_toDigits (n : Nat) : digitsValue 10 (Nat.toDigits 10 n) = n := by
  have general : ∀ {cs : List Char}, (∀ c ∈ cs, isDecimalDigit c = true) → ∀ n,
      cs.foldl (fun n c => n * 10 + digitValue c) n = Nat.ofDigitChars 10 cs n := by
    intro cs hcs
    induction cs with
    | nil => intro n; rfl
    | cons c cs ih =>
      intro n
      obtain ⟨hc, hcs⟩ := List.forall_mem_cons.1 hcs
      rw [List.foldl_cons, ih hcs, Nat.ofDigitChars_cons, digitValue_of_decimal hc, Nat.mul_comm]
  rw [digitsValue, general (digit_toDigits n), Nat.ofDigitChars_toDigits (by decide) (by decide)]

/-- The digits of a positive number do not begin with a zero. -/
theorem toDigits_eq_cons (hn : 0 < n) : ∃ d ds, Nat.toDigits 10 n = d :: ds ∧ d ≠ '0' := by
  have hd := digit_toDigits n
  have hv := digitsValue_toDigits n
  obtain ⟨-, hlow, -⟩ := Shortest.digitCount_bounds hn
  rw [Shortest.digitCount] at hlow
  cases hds : Nat.toDigits 10 n with
  | nil => exact absurd hds Nat.toDigits_ne_nil
  | cons d ds =>
    refine ⟨d, ds, rfl, ?_⟩
    rintro rfl
    rw [hds] at hd hv hlow
    have hlt : digitsValue 10 ds < 10 ^ ds.length :=
      digitsValue_lt fun c hc => digitValue_lt_of_decimal (hd c (List.mem_cons_of_mem _ hc))
    have hzero : digitsValue 10 ('0' :: ds) = digitsValue 10 ds := rfl
    rw [List.length_cons, Nat.add_sub_cancel] at hlow
    omega

theorem digitsValue_cons (radix : Nat) (c : Char) (cs : List Char) :
    digitsValue radix (c :: cs) = digitValue c * radix ^ cs.length + digitsValue radix cs := by
  have hone : digitsValue radix [c] = digitValue c := by
    show 0 * radix + digitValue c = _
    rw [Nat.zero_mul, Nat.zero_add]
  rw [← List.singleton_append, digitsValue_append, hone]

theorem digitValue_inj {c d : Char} (hc : isDecimalDigit c = true) (hd : isDecimalDigit d = true)
    (h : digitValue c = digitValue d) : c = d := by
  have le : ∀ {c : Char}, isDecimalDigit c = true → '0'.toNat ≤ c.toNat := by
    intro c hc
    simp only [isDecimalDigit, Bool.and_eq_true, decide_eq_true_eq] at hc
    exact hc.1
  have hc' := le hc
  have hd' := le hd
  rw [digitValue_of_decimal hc, digitValue_of_decimal hd] at h
  exact Char.toNat_inj.1 (by omega)

/-- Decimal digits of the same number and the same length are the same. -/
theorem digitsValue_inj {cs ds : List Char} (hcs : ∀ c ∈ cs, isDecimalDigit c = true)
    (hds : ∀ c ∈ ds, isDecimalDigit c = true) (hlen : cs.length = ds.length)
    (h : digitsValue 10 cs = digitsValue 10 ds) : cs = ds := by
  induction cs generalizing ds with
  | nil => exact (List.length_eq_zero_iff.1 hlen.symm).symm
  | cons c cs ih =>
    cases ds with
    | nil => cases hlen
    | cons d ds =>
      obtain ⟨hc, hcs⟩ := List.forall_mem_cons.1 hcs
      obtain ⟨hd, hds⟩ := List.forall_mem_cons.1 hds
      have hlen : cs.length = ds.length := Nat.succ.inj hlen
      have hlt : digitsValue 10 cs < 10 ^ ds.length :=
        hlen ▸ digitsValue_lt fun c hc => digitValue_lt_of_decimal (hcs c hc)
      have hlt' : digitsValue 10 ds < 10 ^ ds.length :=
        digitsValue_lt fun c hc => digitValue_lt_of_decimal (hds c hc)
      -- the first digit is the quotient by the power of ten, the others are the remainder
      have hpos : 0 < 10 ^ ds.length := Nat.pow_pos (by decide)
      rw [digitsValue_cons, digitsValue_cons, hlen, Nat.add_comm, Nat.mul_comm, Nat.add_comm _ (digitsValue 10 ds),
        Nat.mul_comm _ (10 ^ ds.length)] at h
      have hdiv := (Nat.div_mod_unique hpos).2 ⟨h, hlt⟩
      have hdiv' := (Nat.div_mod_unique (d := digitValue d) hpos).2 ⟨rfl, hlt'⟩
      rw [digitValue_inj hc hd (hdiv.1.symm.trans hdiv'.1), ih hcs hds hlen (hdiv.2.symm.trans hdiv'.2)]

end EcmaTokens
