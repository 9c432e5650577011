/-
Facts about texts and their characters that every recogniser shares: the longest run of a class of
characters, texts without line terminators, and blanks. A blank is white space or a line
terminator; it belongs to no word and no numeral, and opens no lexeme.
-/
import EcmaTokens.Source.Position
import EcmaTokens.Token.Punctuator
import Mathlib.Data.List.TakeWhile
import Mathlib.Tactic.IntervalCases

namespace EcmaTokens

/-! ## Runs of a class -/

section Run

variable {p : Char → Bool} {cs ds : List Char}

theorem take_length_takeWhile (p : Char → Bool) (cs : List Char) :
    cs.take (cs.takeWhile p).length = cs.takeWhile p :=
  (List.prefix_iff_eq_take.1 (List.takeWhile_prefix p)).symm

theorem drop_length_takeWhile (p : Char → Bool) (cs : List Char) :
    cs.drop (cs.takeWhile p).length = cs.dropWhile p := by
  conv_lhs => arg 2; rw [← List.takeWhile_append_dropWhile (p := p) (l := cs)]
  exact List.drop_left

/-- A run ends at a character outside the class. -/
theorem head_dropWhile {c : Char} (h : cs.dropWhile p = c :: ds) : p c = false := by
  have := List.dropWhile_get_zero_not p cs (by simp [h])
  simpa [h] using this

theorem head?_takeWhile_append (h : cs.takeWhile p ≠ []) (tail : List Char) :
    (cs.takeWhile p ++ tail).head? = cs.head? := by
  cases cs with
  | nil => exact absurd rfl h
  | cons c cs =>
    by_cases hc : p c = true
    · simp [hc]
    · exact absurd (by simp [hc]) h

end Run

/-! ## Texts without line terminators -/

@[simp] theorem hasLineTerminator_nil : hasLineTerminator [] = false := rfl

@[simp] theorem hasLineTerminator_cons (c : Char) (cs : List Char) :
    hasLineTerminator (c :: cs) = (isLineTerminator c || hasLineTerminator cs) := rfl

@[simp] theorem hasLineTerminator_append (a b : List Char) :
    hasLineTerminator (a ++ b) = (hasLineTerminator a || hasLineTerminator b) :=
  List.any_append

theorem hasLineTerminator_takeWhile {p : Char → Bool} (hp : ∀ c, p c = true → isLineTerminator c = false)
    (cs : List Char) : hasLineTerminator (cs.takeWhile p) = false := by
  rw [hasLineTerminator, List.any_eq_false]
  intro c hc
  simp [hp c (List.mem_takeWhile_imp hc)]

/-- A text begins with a line, which goes up to a line terminator or to the end of the text. -/
theorem exists_line (cs : List Char) :
    ∃ line rest, cs = line ++ rest ∧ hasLineTerminator line = false ∧ rest.head?.all isLineTerminator = true := by
  refine ⟨_, _, (List.takeWhile_append_dropWhile (p := fun c => !isLineTerminator c)).symm,
    hasLineTerminator_takeWhile (by simp) cs, ?_⟩
  cases hd : cs.dropWhile fun c => !isLineTerminator c with
  | nil => rfl
  | cons c ds => simpa using head_dropWhile hd

theorem hasLineTerminator_take_add {cs : List Char} {k n : Nat} (h₁ : hasLineTerminator (cs.take k) = false)
    (h₂ : hasLineTerminator ((cs.drop k).take n) = false) : hasLineTerminator (cs.take (k + n)) = false := by
  rw [List.take_add, hasLineTerminator_append, h₁, h₂]; rfl

/-- A line terminator is one character, unless it is a carriage return in front of a line feed. -/
theorem terminatorWidth_cons {c : Char} {cs : List Char} (h : c = '\r' → cs.head? ≠ some '\n') :
    terminatorWidth (c :: cs) = if isLineTerminator c then 1 else 0 := by
  unfold terminatorWidth
  split
  · next heq =>
    obtain ⟨rfl, rfl⟩ := List.cons.inj heq
    exact absurd rfl (h rfl)
  · next heq => rw [(List.cons.inj heq).1]
  · next heq => cases heq

/-! ## Blanks -/

/-- White space, line terminators included. -/
def isBlank (c : Char) : Bool :=
  isWhiteSpace c || isLineTerminator c

/-- Every blank. -/
def blanks : List Char :=
  ['\t', '\x0b', '\x0c', ' ', '\u00a0', '\ufeff', '\u1680', '\u180e', '\u2000', '\u2001', '\u2002',
   '\u2003', '\u2004', '\u2005', '\u2006', '\u2007', '\u2008', '\u2009', '\u200a', '\u202f', '\u205f',
   '\u3000', '\n', '\r', '\u2028', '\u2029']

theorem mem_blanks {c : Char} (h : isBlank c = true) : c ∈ blanks := by
  by_cases hr : '\u2000' ≤ c ∧ c ≤ '\u200a'
  · have h₁ : 0x2000 ≤ c.toNat := hr.1
    have h₂ : c.toNat ≤ 0x200a := hr.2
    rw [← Char.ofNat_toNat c]
    generalize c.toNat = n at h₁ h₂
    interval_cases n <;> decide
  · have hf : ('\u2000' ≤ c && c ≤ '\u200a') = false := by simpa using hr
    simp only [isBlank, isWhiteSpace, isLineTerminator, hf, Bool.or_false, Bool.or_eq_true, beq_iff_eq] at h
    simp only [blanks, List.mem_cons, List.not_mem_nil, or_false]
    grind

theorem eq_false_of_isBlank (q : Char → Bool) (hq : blanks.any q = false) {c : Char} (h : isBlank c = true) :
    q c = false := by
  simpa using List.any_eq_false.1 hq c (mem_blanks h)

/-- The character is part of no word, of no numeral and of no front of a punctuator. -/
structure Separates (c : Char) : Prop where
  part : isIdentifierPart c = false
  hex : isHexDigit c = false
  punctuator : Punctuator.ofChar? c = none
  other : c ∉ ['\\', 'u', 'x', 'X', 'e', 'E', '"', '\'']

theorem Separates.word {c : Char} (h : Separates c) : opensWord c = false := by
  have hb : c ≠ '\\' := fun hb => h.other (by simp [hb])
  by_contra hw
  have := isIdentifierPart_of_start (isIdentifierStart_of_opensWord (by simpa using hw) hb)
  rw [h.part] at this
  cases this

/-- All that is used of the ranges of XID_Continue. -/
theorem not_isXidContinue_of_isBlank {c : Char} (h : isBlank c = true) : isXidContinue c = false :=
  eq_false_of_isBlank isXidContinue (by decide +kernel) h

theorem not_isIdentifierPart_of_isBlank {c : Char} (h : isBlank c = true) : isIdentifierPart c = false := by
  unfold isIdentifierPart
  split
  · exact eq_false_of_isBlank (fun c => isAsciiLetter c || isDecimalDigit c || c == '$' || c == '_') (by decide) h
  · rw [not_isXidContinue_of_isBlank h, Bool.or_false]
    exact eq_false_of_isBlank (fun c => c == '\u200c' || c == '\u200d') (by decide) h

theorem separates_of_isBlank {c : Char} (h : isBlank c = true) : Separates c where
  part := not_isIdentifierPart_of_isBlank h
  hex := eq_false_of_isBlank isHexDigit (by decide) h
  punctuator := by
    simpa using eq_false_of_isBlank (fun c => (Punctuator.ofChar? c).isSome) (by decide) h
  other := by
    have hother := eq_false_of_isBlank ['\\', 'u', 'x', 'X', 'e', 'E', '"', '\''].contains (by decide) h
    simpa using hother

theorem separates_of_isLineTerminator {c : Char} (h : isLineTerminator c = true) : Separates c :=
  separates_of_isBlank (by simp [isBlank, h])

/-! ## Characters that end no line -/

theorem not_isLineTerminator_of_part {c : Char} (h : isIdentifierPart c = true) : isLineTerminator c = false := by
  by_contra hl
  have := (separates_of_isLineTerminator (by simpa using hl)).part
  rw [h] at this
  cases this

theorem not_isLineTerminator_of_hex {c : Char} (h : isHexDigit c = true) : isLineTerminator c = false := by
  by_contra hl
  have := (separates_of_isLineTerminator (by simpa using hl)).hex
  rw [h] at this
  cases this

theorem isHexDigit_of_decimal {c : Char} (h : isDecimalDigit c = true) : isHexDigit c = true := by
  have : '0' ≤ c ∧ c ≤ '9' := by simpa [isDecimalDigit] using h
  simp [isHexDigit, hexValue?, this]

theorem isDecimalDigit_of_octal {c : Char} (h : isOctalDigit c = true) : isDecimalDigit c = true := by
  have h' : '0' ≤ c ∧ c ≤ '7' := by simpa [isOctalDigit] using h
  have : c ≤ '9' := Char.le_trans h'.2 (by decide)
  simp [isDecimalDigit, h'.1, this]

theorem not_isLineTerminator_of_decimal {c : Char} (h : isDecimalDigit c = true) : isLineTerminator c = false :=
  not_isLineTerminator_of_hex (isHexDigit_of_decimal h)

theorem isHexDigit_of_hexQuad? {a b c d : Char} {n : Nat} (h : hexQuad? a b c d = some n) :
    isHexDigit a = true ∧ isHexDigit b = true ∧ isHexDigit c = true ∧ isHexDigit d = true := by
  simp only [hexQuad?, Option.bind_eq_bind, Option.bind_eq_some_iff, Option.pure_def] at h
  obtain ⟨_, ha, _, hb, _, hc, _, hd, _⟩ := h
  simp [isHexDigit, ha, hb, hc, hd]

theorem Separates.decimal {c : Char} (h : Separates c) : isDecimalDigit c = false := by
  by_contra hd
  have := isHexDigit_of_decimal (by simpa using hd)
  rw [h.hex] at this
  cases this

theorem Separates.octal {c : Char} (h : Separates c) : isOctalDigit c = false := by
  by_contra ho
  have := isDecimalDigit_of_octal (by simpa using ho)
  rw [h.decimal] at this
  cases this

/-! ## Values of digits -/

theorem digitValue_lt_of_hex {c : Char} (h : isHexDigit c = true) : digitValue c < 16 := by
  obtain ⟨n, hn⟩ := Option.isSome_iff_exists.1 h
  rw [digitValue, hn, Option.getD_some]
  unfold hexValue? at hn
  simp only [Bool.and_eq_true, decide_eq_true_eq] at hn
  split at hn
  · next hc =>
    have hle : c.toNat ≤ '0'.toNat + 9 := hc.2
    cases hn; omega
  · split at hn
    · next hc =>
      have hle : c.toNat ≤ 'a'.toNat + 5 := hc.2
      cases hn; omega
    · split at hn
      · next hc =>
        have hle : c.toNat ≤ 'A'.toNat + 5 := hc.2
        cases hn; omega
      · cases hn

theorem digitValue_of_decimal {c : Char} (h : isDecimalDigit c = true) : digitValue c = c.toNat - '0'.toNat := by
  have hd : ('0' ≤ c && c ≤ '9') = true := h
  rw [digitValue, hexValue?, if_pos hd, Option.getD_some]

theorem digitValue_lt_of_decimal {c : Char} (h : isDecimalDigit c = true) : digitValue c < 10 := by
  rw [digitValue_of_decimal h]
  have hle : c.toNat ≤ '0'.toNat + 9 := by
    simp only [isDecimalDigit, Bool.and_eq_true, decide_eq_true_eq] at h
    exact h.2
  omega

theorem digitValue_lt_of_octal {c : Char} (h : isOctalDigit c = true) : digitValue c < 8 := by
  rw [digitValue_of_decimal (isDecimalDigit_of_octal h)]
  have hle : c.toNat ≤ '0'.toNat + 7 := by
    simp only [isOctalDigit, Bool.and_eq_true, decide_eq_true_eq] at h
    exact h.2
  omega

/-- Digits of a radix have a value below its power with as many digits. -/
theorem digitsValue_lt {radix : Nat} {digits : List Char} (h : ∀ c ∈ digits, digitValue c < radix) :
    digitsValue radix digits < radix ^ digits.length := by
  suffices ∀ n, digits.foldl (fun n c => n * radix + digitValue c) n < (n + 1) * radix ^ digits.length by
    simpa [digitsValue] using this 0
  induction digits with
  | nil => intro n; simp
  | cons c digits ih =>
    intro n
    have hc : digitValue c < radix := h c (List.mem_cons_self ..)
    calc (c :: digits).foldl (fun n c => n * radix + digitValue c) n
        < (n * radix + digitValue c + 1) * radix ^ digits.length :=
          ih (fun d hd => h d (List.mem_cons_of_mem _ hd)) _
      _ ≤ ((n + 1) * radix) * radix ^ digits.length := Nat.mul_le_mul_right _ (by rw [Nat.succ_mul]; omega)
      _ = (n + 1) * radix ^ (c :: digits).length := by rw [List.length_cons, Nat.pow_succ', Nat.mul_assoc]

/-! ## What follows -/

/-- Behind a lexeme `tail` can stand in the place of `rest`: it is empty, or begins alike, or with a
separating character. -/
def Replaces (rest tail : List Char) : Prop :=
  ∀ c, tail.head? = some c → Separates c ∨ rest.head? = some c

namespace Replaces

variable {rest tail : List Char}

theorem nil (rest : List Char) : Replaces rest [] := fun _ h => by cases h

theorem of_separates {c : Char} (h : Separates c) (rest cs : List Char) : Replaces rest (c :: cs) := by
  intro d hd
  obtain rfl : c = d := by simpa using hd
  exact .inl h

theorem append (h : Replaces rest tail) (cs : List Char) : Replaces (cs ++ rest) (cs ++ tail) := by
  cases cs with
  | nil => exact h
  | cons c cs => exact fun d hd => .inr hd

/-- What a class of characters rules out behind a lexeme stays ruled out. -/
theorem head_not {p : Char → Bool} (h : Replaces rest tail) (hp : ∀ c, Separates c → p c = false)
    (hr : rest.head?.any p = false) : tail.head?.any p = false := by
  cases hc : tail.head? with
  | none => rfl
  | some c =>
    rcases h c hc with hs | hs
    · exact hp c hs
    · rw [hs] at hr; exact hr

end Replaces

/-- A run ends where its class does. -/
theorem takeWhile_append {p : Char → Bool} {cs tail : List Char} (hcs : ∀ c ∈ cs, p c = true)
    (ht : tail.head?.any p = false) : (cs ++ tail).takeWhile p = cs := by
  rw [List.takeWhile_append_of_pos hcs]
  cases tail with
  | nil => simp
  | cons c tail => simpa [List.takeWhile_cons] using ht

/-- The run at the front of the next `k` characters has as many, or ends in front of a character outside the class. -/
theorem takeWhile_take_stop (p : Char → Bool) (k : Nat) (cs : List Char) :
    ((cs.take k).takeWhile p).length = k ∨ (cs.drop ((cs.take k).takeWhile p).length).head?.any p = false := by
  induction cs generalizing k with
  | nil => right; simp
  | cons c cs ih =>
    cases k with
    | zero => left; rfl
    | succ k =>
      cases hc : p c with
      | false => right; simp [hc]
      | true => simpa [hc] using ih k

theorem head_dropWhile_any (p : Char → Bool) (cs : List Char) : (cs.dropWhile p).head?.any p = false := by
  cases h : cs.dropWhile p with
  | nil => rfl
  | cons c ds => simpa using head_dropWhile h

end EcmaTokens
