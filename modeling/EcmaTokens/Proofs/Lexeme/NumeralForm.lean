/-
How numerals are written: hexadecimal digits behind `0x`, octal digits behind a zero, and decimals with an
optional point and an optional exponent. The forms are a grammar of their own, in which a text has one form
at most; a decimal is read from its text as what the form says.
-/
import EcmaTokens.Proofs.Lexeme.Numeral

namespace EcmaTokens

namespace Numeral

/-! ## Forms -/

/-- What a numeral is made of. -/
inductive Form where
  | hexadecimal (digits : List Char)
  | legacyOctal (digits : List Char)
  | decimal (d : Decimal)
deriving DecidableEq, Repr

/-- A zero alone, or digits that begin with another one. -/
inductive Whole : List Char → Prop
  | zero : Whole ['0']
  | digits {d : Char} {ds : List Char} :
      d ≠ '0' → (∀ c ∈ d :: ds, isDecimalDigit c = true) → Whole (d :: ds)

/-- The text is written with the digits `ds`, the last `k` of them behind a point. -/
inductive Mantissa : List Char → List Char → Nat → Prop
  | whole {ds : List Char} : Whole ds → Mantissa ds ds 0
  | point {ds fs : List Char} : Whole ds → (∀ c ∈ fs, isDecimalDigit c = true) →
      Mantissa (ds ++ '.' :: fs) (ds ++ fs) fs.length
  | fraction {fs : List Char} : fs ≠ [] → (∀ c ∈ fs, isDecimalDigit c = true) →
      Mantissa ('.' :: fs) fs fs.length

inductive Sign : List Char → Int → Prop
  | none : Sign [] 1
  | plus : Sign ['+'] 1
  | minus : Sign ['-'] (-1)

/-- The text is nothing, or a letter and the exponent. -/
inductive Exponent : List Char → Int → Prop
  | none : Exponent [] 0
  | some {e : Char} {sign ds : List Char} {s : Int} :
      e = 'e' ∨ e = 'E' → Sign sign s → ds ≠ [] → (∀ c ∈ ds, isDecimalDigit c = true) →
      Exponent (e :: (sign ++ ds)) (s * digitsValue 10 ds)

namespace Form

/-- The text is a numeral of the form. -/
inductive Spelled : Form → List Char → Prop
  | hexadecimal {x : Char} {digits : List Char} :
      x = 'x' ∨ x = 'X' → digits ≠ [] → (∀ c ∈ digits, isHexDigit c = true) →
      Spelled (.hexadecimal digits) ('0' :: x :: digits)
  | legacyOctal {digits : List Char} :
      digits ≠ [] → (∀ c ∈ digits, isOctalDigit c = true) → Spelled (.legacyOctal digits) ('0' :: digits)
  | decimal {mantissa exponent ds : List Char} {k : Nat} {e : Int} :
      Mantissa mantissa ds k → Exponent exponent e →
      Spelled (.decimal ⟨ds, e - k⟩) (mantissa ++ exponent)

def isLegacyOctal : Form → Bool
  | legacyOctal _ => true
  | _ => false

/-- The number that is read of the form. -/
def toBinary64 [WideConversion] : Form → Binary64
  | hexadecimal digits => .ofNat (digitsValue 16 digits)
  | legacyOctal digits => .ofNat (digitsValue 8 digits)
  | decimal d => d.toBinary64

end Form

/-! ## Digits -/

section Digits

variable {p : Char → Bool} {front rest : List Char}

theorem length_le_takeWhile (h : ∀ c ∈ front, p c = true) (rest : List Char) :
    front.length ≤ ((front ++ rest).takeWhile p).length := by
  rw [List.takeWhile_append_of_pos h, List.length_append]
  exact Nat.le_add_right ..

theorem dropWhile_append (h : ∀ c ∈ front, p c = true) (hr : rest.head?.any p = false) :
    (front ++ rest).dropWhile p = rest := by
  rw [List.dropWhile_append_of_pos h]
  cases rest with
  | nil => rfl
  | cons c rest => rw [List.dropWhile_cons, if_neg (by simpa using hr)]

end Digits

/-! ## Mantissas -/

section Mantissa

variable {m ds rest : List Char} {k : Nat}

theorem Whole.digit {ds : List Char} (h : Whole ds) : ∀ c ∈ ds, isDecimalDigit c = true := by
  cases h with
  | zero =>
    intro c hc
    rw [List.mem_singleton.1 hc]
    rfl
  | digits _ hd => exact hd

theorem Whole.ne_nil {ds : List Char} (h : Whole ds) : ds ≠ [] := by
  cases h <;> exact List.cons_ne_nil _ _

theorem Mantissa.digit (h : Mantissa m ds k) : ∀ c ∈ ds, isDecimalDigit c = true := by
  cases h with
  | whole hw => exact hw.digit
  | point hw hf => exact fun c hc => (List.mem_append.1 hc).elim (hw.digit c) (hf c)
  | fraction _ hf => exact hf

/-- The digits of a mantissa end in front of the point or of what follows. -/
theorem Mantissa.length_le (h : Mantissa m ds k) (rest : List Char) : m.length ≤ mantissaWidth (m ++ rest) := by
  have point : ∀ {ds fs : List Char}, (∀ c ∈ ds, isDecimalDigit c = true) →
      (∀ c ∈ fs, isDecimalDigit c = true) →
      (ds ++ '.' :: fs).length ≤ mantissaWidth (ds ++ '.' :: fs ++ rest) := by
    intro ds fs hd hf
    rw [List.append_assoc, List.cons_append, mantissaWidth_point hd, List.length_append, List.length_cons]
    have : fs.length ≤ digitRun (fs ++ rest) := length_le_takeWhile hf rest
    omega
  cases h with
  | whole hw =>
    have hle : m.length ≤ digitRun (m ++ rest) := length_le_takeWhile hw.digit rest
    unfold mantissaWidth
    dsimp only
    split <;> omega
  | point hw hf => exact point hw.digit hf
  | fraction _ hf => exact point (List.forall_mem_nil _) hf

/-- In front of a character that is no digit and no point a mantissa is all there is. -/
theorem Mantissa.length_eq (h : Mantissa m ds k)
    (hr : rest.head?.any (fun c => c == '.' || isDecimalDigit c) = false) :
    mantissaWidth (m ++ rest) = m.length := by
  have hd : rest.head?.any isDecimalDigit = false := by
    cases rest with
    | nil => rfl
    | cons c rest => exact (Bool.or_eq_false_iff.1 hr).2
  have point : ∀ {ds fs : List Char}, (∀ c ∈ ds, isDecimalDigit c = true) →
      (∀ c ∈ fs, isDecimalDigit c = true) →
      mantissaWidth (ds ++ '.' :: fs ++ rest) = (ds ++ '.' :: fs).length := by
    intro ds fs hds hf
    rw [List.append_assoc, List.cons_append, mantissaWidth_point hds, digitRun_append hf hd, List.length_append,
      List.length_cons]
    omega
  cases h with
  | whole hw => exact mantissaWidth_plain hw.digit hr
  | point hw hf => exact point hw.digit hf
  | fraction _ hf => exact point (List.forall_mem_nil _) hf

/-- Digits in front of a text are the whole part of a mantissa, unless more follow a zero. -/
theorem whole_takeWhile {c : Char} {cs : List Char} (hc : isDecimalDigit c = true)
    (hz : c = '0' → cs.head?.any isDecimalDigit = false) : Whole ((c :: cs).takeWhile isDecimalDigit) := by
  rw [List.takeWhile_cons, if_pos hc]
  by_cases h0 : c = '0'
  · have hnil : cs.takeWhile isDecimalDigit = [] := takeWhile_append (List.forall_mem_nil _) (hz h0)
    rw [hnil, h0]
    exact .zero
  · exact .digits h0 (List.forall_mem_cons.2 ⟨hc, takeWhile_decimal cs⟩)

/-- The mantissa in front of a text, with no digit behind it. -/
theorem exists_mantissa {c : Char} {cs : List Char} (h : opensNumeral (c :: cs) = true)
    (hz : c = '0' → cs.head?.any isDecimalDigit = false) :
    ∃ m ds k rest, c :: cs = m ++ rest ∧ Mantissa m ds k ∧ mantissaWidth (c :: cs) = m.length ∧
      rest.head?.any isDecimalDigit = false := by
  by_cases hc : isDecimalDigit c = true
  · have hw := whole_takeWhile hc hz
    have hsplit := (List.takeWhile_append_dropWhile (p := isDecimalDigit) (l := c :: cs)).symm
    have hend := head_dropWhile_any isDecimalDigit (c :: cs)
    generalize (c :: cs).takeWhile isDecimalDigit = ds at hw hsplit
    generalize (c :: cs).dropWhile isDecimalDigit = tail at hsplit hend
    by_cases hp : tail.head? = some '.'
    · obtain ⟨fraction, rfl⟩ := List.head?_eq_some_iff.1 hp
      refine ⟨_, _, _, fraction.dropWhile isDecimalDigit, ?_, .point hw (takeWhile_decimal fraction), ?_,
        head_dropWhile_any ..⟩
      · rw [hsplit, List.append_assoc, List.cons_append, List.takeWhile_append_dropWhile]
      · rw [hsplit, mantissaWidth_point hw.digit, List.length_append, List.length_cons, digitRun, Nat.add_assoc,
          Nat.add_comm 1]
    · refine ⟨_, _, _, tail, hsplit, .whole hw, ?_, hend⟩
      rw [hsplit]
      apply mantissaWidth_plain hw.digit
      cases tail with
      | nil => rfl
      | cons d tail => simp_all
  · -- a point, and a digit behind it
    obtain ⟨rfl, hd⟩ : c = '.' ∧ cs.head?.any isDecimalDigit = true := by simpa [opensNumeral, hc] using h
    have hne : cs.takeWhile isDecimalDigit ≠ [] := by
      cases cs with
      | nil => cases hd
      | cons d cs => simp_all
    refine ⟨_, _, _, cs.dropWhile isDecimalDigit, ?_, .fraction hne (takeWhile_decimal cs), ?_,
      head_dropWhile_any ..⟩
    · rw [List.cons_append, List.takeWhile_append_dropWhile]
    · rw [← List.nil_append ('.' :: cs), mantissaWidth_point (by simp), List.length_cons, digitRun, List.length_nil]
      omega

end Mantissa

/-! ## Exponents -/

section Exponent

variable {t cs rest : List Char} {e : Int} {n : Nat}

theorem Sign.width (h : Sign cs e) {ds : List Char} (hne : ds ≠ []) (hd : ∀ c ∈ ds, isDecimalDigit c = true)
    (rest : List Char) : signWidth (cs ++ ds ++ rest) = cs.length := by
  cases h with
  | none =>
    cases ds with
    | nil => exact absurd rfl hne
    | cons d ds =>
      have hd := hd d (List.mem_cons_self ..)
      apply if_neg
      simp only [List.nil_append, List.cons_append, List.head?_cons, Option.any_some, Bool.or_eq_true, beq_iff_eq]
      rintro (rfl | rfl) <;> exact absurd hd (by decide)
  | plus => rfl
  | minus => rfl

theorem Sign.exists (cs : List Char) :
    ∃ sign s ds, cs = sign ++ ds ∧ Sign sign s ∧ signWidth cs = sign.length := by
  by_cases h : cs.head?.any (fun c => c == '+' || c == '-') = true
  · cases cs with
    | nil => cases h
    | cons c cs =>
      have hc : c = '+' ∨ c = '-' := by simpa using h
      rcases hc with rfl | rfl
      · exact ⟨_, _, cs, rfl, .plus, rfl⟩
      · exact ⟨_, _, cs, rfl, .minus, rfl⟩
  · exact ⟨[], 1, cs, rfl, .none, if_neg h⟩

/-- Where an exponent is written, one is read that is no shorter. -/
theorem Exponent.length_le (h : Exponent t e) (hne : t ≠ []) (rest : List Char) :
    ∃ n, scanExponent (t ++ rest) = .read () n ∧ t.length ≤ n := by
  cases h with
  | none => exact absurd rfl hne
  | @some l sign ds s hl hs hds hd =>
    have hle : ds.length ≤ digitRun (ds ++ rest) := length_le_takeWhile hd rest
    have hpos := List.length_pos_iff.2 hds
    rw [List.cons_append, scanExponent_letter (by simpa using hl), hs.width hds hd, List.append_assoc,
      List.drop_left, if_neg (by omega)]
    exact ⟨_, rfl, by simp; omega⟩

/-- An exponent that is read is written so, with no digit behind it. -/
theorem exists_exponent (h : scanExponent cs = .read () n) (hcs : cs.head?.any isDecimalDigit = false) :
    ∃ t e rest, cs = t ++ rest ∧ Exponent t e ∧ n = t.length ∧ rest.head?.any isDecimalDigit = false := by
  by_cases hl : cs.head?.any (fun c => c == 'e' || c == 'E') = true
  · cases cs with
    | nil => cases hl
    | cons l cs =>
      have hl : (l == 'e' || l == 'E') = true := by simpa using hl
      obtain ⟨sign, s, ds, rfl, hsign, hs⟩ := Sign.exists cs
      rw [scanExponent_letter hl, hs, List.drop_left] at h
      split at h
      · cases h
      · next hn =>
        cases h
        refine ⟨l :: (sign ++ ds.takeWhile isDecimalDigit), _, ds.dropWhile isDecimalDigit, ?_,
          .some (by simpa using hl) hsign ?_ (takeWhile_decimal ds), ?_, head_dropWhile_any ..⟩
        · rw [List.cons_append, List.append_assoc, List.takeWhile_append_dropWhile]
        · intro hnil
          exact hn (by rw [digitRun, hnil]; rfl)
        · rw [List.length_cons, List.length_append, digitRun]; omega
  · rw [scanExponent_eq_zero (by simpa using hl)] at h
    cases h
    exact ⟨[], 0, cs, rfl, .none, rfl, hcs⟩

/-- An exponent is malformed behind its letter. -/
theorem letter_of_malformed (h : scanExponent cs = .malformed n) : ∃ l ds, cs = l :: ds ∧ (l = 'e' ∨ l = 'E') := by
  cases cs with
  | nil => cases h
  | cons l cs =>
    refine ⟨l, cs, rfl, ?_⟩
    by_contra hl
    rw [scanExponent_eq_zero (by simpa using hl)] at h
    cases h

end Exponent

/-! ## Decimals -/

section Decimal

variable {text t cs : List Char} {e : Int} {d d' : Decimal} {c : Char}

theorem Exponent.head (h : Exponent t e) : t.head?.any (fun c => c == '.' || isDecimalDigit c) = false := by
  cases h with
  | none => rfl
  | some hl => rcases hl with rfl | rfl <;> rfl

theorem Exponent.head_digit (h : Exponent t e) : t.head?.any isDecimalDigit = false := by
  cases h with
  | none => rfl
  | some hl => rcases hl with rfl | rfl <;> rfl

theorem Exponent.read (h : Exponent t e) : Decimal.exponentPartOfText? t = .some e := by
  cases h with
  | none => rfl
  | @some l sign ds s hl hs hds hd =>
    have hall : (!ds.isEmpty && ds.all isDecimalDigit) = true := by
      rw [Bool.and_eq_true, List.all_eq_true]
      exact ⟨by simpa using hds, hd⟩
    rw [Decimal.exponentPartOfText?, if_pos (by simpa using hl)]
    unfold Decimal.exponentOfText?
    cases hs with
    | none =>
      rw [List.nil_append]
      dsimp only
      split
      · exact absurd (hd '+' (List.mem_cons_self ..)) (by decide)
      · exact absurd (hd '-' (List.mem_cons_self ..)) (by decide)
      · rw [if_pos hall]; simp
    | plus => exact (congrArg (Option.map Int.ofNat) (if_pos hall)).trans (by simp)
    | minus => exact (congrArg (Option.map fun n => -Int.ofNat n) (if_pos hall)).trans (by simp)

/-- Digits, a point and digits are read with what follows them as the exponent. -/
theorem ofText?_point {ds fs : List Char} (hd : ∀ c ∈ ds, isDecimalDigit c = true)
    (hf : ∀ c ∈ fs, isDecimalDigit c = true) (hne : ds ++ fs ≠ []) (h : Exponent t e) :
    Decimal.ofText? (ds ++ '.' :: fs ++ t) = some ⟨ds ++ fs, e - fs.length⟩ := by
  have hpoint : ('.' :: (fs ++ t)).head?.any isDecimalDigit = false := rfl
  have hempty : ¬ (ds.isEmpty && fs.isEmpty) = true := by simpa using hne
  rw [Decimal.ofText?, List.append_assoc, List.cons_append, takeWhile_append hd hpoint, dropWhile_append hd hpoint]
  split
  next fraction tail hsplit =>
    obtain ⟨rfl, rfl⟩ := Prod.mk.inj hsplit
    rw [takeWhile_append hf h.head_digit, dropWhile_append hf h.head_digit, if_neg hempty, h.read]
    rfl

/-- Digits without a point are read with what follows them as the exponent. -/
theorem ofText?_whole {ds : List Char} (hd : ∀ c ∈ ds, isDecimalDigit c = true) (hne : ds ≠ [])
    (h : Exponent t e) : Decimal.ofText? (ds ++ t) = some ⟨ds, e⟩ := by
  have hempty : ¬ (ds.isEmpty && ([] : List Char).isEmpty) = true := by simpa using hne
  rw [Decimal.ofText?, takeWhile_append hd h.head_digit, dropWhile_append hd h.head_digit]
  split
  next fraction tail hsplit =>
    split at hsplit
    · next cs => exact absurd h.head (by simp)
    · cases hsplit
      rw [if_neg hempty, h.read]
      simp

/-- A decimal numeral is read as what it says. -/
theorem Form.Spelled.read (h : (Form.decimal d).Spelled text) : Decimal.ofText? text = some d := by
  generalize hform : Form.decimal d = form at h
  cases h with
  | hexadecimal | legacyOctal => cases hform
  | @decimal m t ds k e hm ht =>
    cases hform
    cases hm with
    | whole hw =>
      rw [Nat.cast_zero, sub_zero]
      exact ofText?_whole hw.digit hw.ne_nil ht
    | point hw hf => exact ofText?_point hw.digit hf (by simp [hw.ne_nil]) ht
    | fraction hne hf => exact ofText?_point (List.forall_mem_nil _) hf hne ht

theorem Form.Spelled.digit (h : (Form.decimal d).Spelled text) : ∀ c ∈ d.digits, isDecimalDigit c = true := by
  generalize hform : Form.decimal d = form at h
  cases h with
  | hexadecimal | legacyOctal => cases hform
  | decimal hm _ => cases hform; exact hm.digit

end Decimal

/-! ## One form -/

section Form

open Form

variable {text rest cs : List Char} {c x : Char} {form form' : Form} {d : Decimal}

/-- A decimal numeral does not go on behind a leading zero with a digit or an `x`. -/
theorem Form.Spelled.zero (h : (Form.decimal d).Spelled ('0' :: c :: cs)) : endsDecimalZero c = false := by
  have digits : ∀ {d : Char} {ds us : List Char}, d ≠ '0' → d :: ds ++ us ≠ '0' :: c :: cs :=
    fun hd he => hd (List.cons.inj he).1
  generalize hform : Form.decimal d = form at h
  generalize htext : '0' :: c :: cs = text at h
  cases h with
  | hexadecimal | legacyOctal => cases hform
  | @decimal m t ds k e hm ht =>
    cases hm with
    | whole hw =>
      cases hw with
      | zero =>
        cases ht with
        | none => cases htext
        | some hl => cases htext; rcases hl with rfl | rfl <;> rfl
      | digits hd => exact absurd htext.symm (digits hd)
    | point hw =>
      cases hw with
      | zero => cases htext; rfl
      | digits hd => rw [List.append_assoc] at htext; exact absurd htext.symm (digits hd)
    | fraction => cases htext

theorem endsDecimalZero_letter (h : x = 'x' ∨ x = 'X') : endsDecimalZero x = true := by
  rcases h with rfl | rfl <;> rfl

theorem endsDecimalZero_digit (h : isDecimalDigit c = true) : endsDecimalZero c = true := by
  simp [endsDecimalZero, h]

/-- Behind a leading zero hexadecimal and octal numerals go on as no decimal one does. -/
theorem Form.Spelled.decimal_or_zero (h : form.Spelled text) :
    (∃ d, form = .decimal d) ∨ ∃ c cs, text = '0' :: c :: cs ∧ endsDecimalZero c = true := by
  cases h with
  | hexadecimal hx => exact .inr ⟨_, _, rfl, endsDecimalZero_letter hx⟩
  | @legacyOctal digits hne hd =>
    cases digits with
    | nil => exact absurd rfl hne
    | cons c cs =>
      exact .inr ⟨_, _, rfl, endsDecimalZero_digit (isDecimalDigit_of_octal (hd c (List.mem_cons_self ..)))⟩
  | decimal => exact .inl ⟨_, rfl⟩

/-- A text is written in one form. -/
theorem Form.Spelled.unique (h : form.Spelled text) (h' : form'.Spelled text) : form' = form := by
  have letter : ∀ {x c : Char}, x = 'x' ∨ x = 'X' → isOctalDigit c = true → x ≠ c := by
    rintro x c (rfl | rfl) hc rfl <;> exact absurd hc (by decide)
  have decimal : ∀ {d : Decimal} {form : Form}, (Form.decimal d).Spelled text → form.Spelled text →
      form = .decimal d := by
    intro d form hd hf
    rcases hf.decimal_or_zero with ⟨d', rfl⟩ | ⟨c, cs, rfl, hc⟩
    · rw [Option.some.inj (hd.read.symm.trans hf.read)]
    · rw [hd.zero] at hc
      cases hc
  cases form with
  | decimal d => exact decimal h h'
  | hexadecimal digits =>
    cases h' with
    | hexadecimal => cases h; rfl
    | legacyOctal hne hd =>
      cases h with
      | hexadecimal hx => exact absurd rfl (letter hx (hd _ (List.mem_cons_self ..)))
    | decimal hm ht => exact (decimal (.decimal hm ht) h).symm
  | legacyOctal digits =>
    cases h' with
    | hexadecimal hx =>
      cases h with
      | legacyOctal hne hd => exact absurd rfl (letter hx (hd _ (List.mem_cons_self ..)))
    | legacyOctal => cases h; rfl
    | decimal hm ht => exact (decimal (.decimal hm ht) h).symm

/-- What is spelled begins as numerals do. -/
theorem Form.Spelled.opens (h : form.Spelled text) : opensNumeral text = true := by
  have digits : ∀ {ds us : List Char}, Whole ds → opensNumeral (ds ++ us) = true := by
    intro ds us hw
    cases ds with
    | nil => exact absurd rfl hw.ne_nil
    | cons c ds => simp [opensNumeral, hw.digit c (List.mem_cons_self ..)]
  cases h with
  | hexadecimal | legacyOctal => rfl
  | @decimal m t ds k e hm ht =>
    cases hm with
    | whole hw => exact digits hw
    | point hw => rw [List.append_assoc]; exact digits hw
    | fraction hne hf =>
      cases ds with
      | nil => exact absurd rfl hne
      | cons c ds => simp [opensNumeral, hf c (List.mem_cons_self ..)]

theorem Form.Spelled.isLegacyOctal_iff (h : form.Spelled text) :
    form.isLegacyOctal = true ↔ ∃ digits, (Form.legacyOctal digits).Spelled text := by
  constructor
  · intro ho
    cases form with
    | legacyOctal digits => exact ⟨digits, h⟩
    | hexadecimal | decimal => cases ho
  · rintro ⟨digits, ho⟩
    rw [ho.unique h]
    rfl

end Form

end Numeral

end EcmaTokens
