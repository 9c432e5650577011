/-
The longest numeral in front of a text. Reading commits itself after a character or two: an `x` or a digit
behind a leading zero, a point, the letter of an exponent. No longer numeral is lost by that, and what is
refused is a numeral with a digit or a word directly behind it.
-/
import EcmaTokens.Proofs.Lexeme.NumeralForm

namespace EcmaTokens

namespace Numeral

/-- The character cannot directly follow a numeral. -/
def clings (c : Char) : Bool :=
  isDecimalDigit c || isIdentifierStart c || c == '\\'

namespace Form

/-- `text` is the longest numeral in front of a text, with `rest` behind it. -/
structure Longest (form : Form) (text rest : List Char) : Prop where
  spelled : form.Spelled text
  longest : ∀ form' text', Spelled form' text' → text' <+: text ++ rest → text'.length ≤ text.length

/-- The longest numeral is read, unless a digit or a word directly follows it. -/
structure Reads [WideConversion] (form : Form) (text rest : List Char) : Prop extends form.Longest text rest where
  refused : rest.head?.any clings = true → ∃ n, scan (text ++ rest) = .malformed n
  read : rest.head?.any clings = false →
    scan (text ++ rest) = .read ⟨form.toBinary64, form.isLegacyOctal⟩ text.length

end Form

/-! ## What follows -/

section Follow

variable {rest : List Char}

theorem opensWord_eq (c : Char) : opensWord c = (isIdentifierStart c || c == '\\') := by
  unfold opensWord isIdentifierStart opensAsciiWord
  split
  · rfl
  · next h =>
    have hc : (c == '\\') = false := by
      rw [beq_eq_false_iff_ne]
      rintro rfl
      exact h (by decide)
    rw [hc, Bool.or_false]

theorem clings_eq (c : Char) : clings c = (isDecimalDigit c || opensWord c) := by
  rw [clings, opensWord_eq, Bool.or_assoc]

/-- Where no digit follows, words alone are refused. -/
theorem any_clings (h : rest.head?.any isDecimalDigit = false) :
    rest.head?.any clings = rest.head?.any opensWord := by
  cases rest with
  | nil => rfl
  | cons c rest =>
    have hc : isDecimalDigit c = false := by simpa using h
    simp [clings_eq, hc]

theorem any_clings_of_decimal (h : rest.head?.any isDecimalDigit = true) : rest.head?.any clings = true := by
  cases rest with
  | nil => cases h
  | cons c rest =>
    have hc : isDecimalDigit c = true := h
    simp [clings, hc]

theorem any_decimal_of_hex (h : rest.head?.any isHexDigit = false) : rest.head?.any isDecimalDigit = false := by
  cases rest with
  | nil => rfl
  | cons c rest =>
    by_contra hd
    rw [List.head?_cons, Option.any_some, isHexDigit_of_decimal (by simpa using hd)] at h
    cases h

/-- A numeral is closed unless a word follows. -/
theorem close_append (front rest : List Char) (x : Numeral) :
    close (front ++ rest) front.length (some x) =
      if rest.head?.any opensWord then .malformed front.length else .read x front.length := by
  rw [close, List.drop_left]

theorem scanHexadecimal_eq [WideConversion] {cs : List Char} (hne : cs.takeWhile isHexDigit ≠ []) :
    scanHexadecimal cs = if (cs.dropWhile isHexDigit).head?.any clings
      then .malformed (cs.takeWhile isHexDigit).length
      else .read ⟨.ofNat (digitsValue 16 (cs.takeWhile isHexDigit)), false⟩ (cs.takeWhile isHexDigit).length := by
  rw [scanHexadecimal, if_neg (by simpa using hne), close, drop_length_takeWhile,
    any_clings (any_decimal_of_hex (head_dropWhile_any ..))]

theorem scanOctal_eq [WideConversion] (cs : List Char) :
    scanOctal cs = if (cs.dropWhile isOctalDigit).head?.any clings
      then .malformed (cs.takeWhile isOctalDigit).length
      else .read ⟨.ofNat (digitsValue 8 (cs.takeWhile isOctalDigit)), true⟩ (cs.takeWhile isOctalDigit).length := by
  unfold scanOctal
  dsimp only
  rw [close, drop_length_takeWhile]
  by_cases hd : (cs.dropWhile isOctalDigit).head?.any isDecimalDigit = true
  · rw [if_pos hd, if_pos (any_clings_of_decimal hd)]
  · rw [if_neg hd, any_clings (by simpa using hd)]

end Follow

/-! ## The longest numeral -/

section Longest

open Form

variable {text rest cs : List Char} {c x : Char} {form : Form} {d : Decimal}

/-- Behind a zero that makes a hexadecimal or octal numeral no decimal one is longer than the zero. -/
theorem Form.Spelled.length_le_of_zero (h : form.Spelled text) (hp : text <+: '0' :: c :: cs)
    (hc : endsDecimalZero c = true) : text.length ≤ 1 ∨
      (isDecimalDigit c = false ∧ cs.takeWhile isHexDigit ≠ [] ∧
        text.length ≤ 2 + (cs.takeWhile isHexDigit).length) ∨
      (isOctalDigit c = true ∧ text.length ≤ 1 + ((c :: cs).takeWhile isOctalDigit).length) := by
  obtain ⟨rest, hrest⟩ := hp
  cases h with
  | @hexadecimal x digits hx hne hd =>
    cases hrest
    have hle : digits.length ≤ ((digits ++ rest).takeWhile isHexDigit).length := length_le_takeWhile hd rest
    refine .inr (.inl ⟨by rcases hx with rfl | rfl <;> rfl, fun hnil => hne ?_, ?_⟩)
    · rw [show digits.append rest = digits ++ rest from rfl] at hnil
      rw [hnil] at hle
      exact List.length_eq_zero_iff.1 (Nat.le_zero.1 hle)
    · rw [List.length_cons, List.length_cons]
      show digits.length + 1 + 1 ≤ 2 + ((digits ++ rest).takeWhile isHexDigit).length
      omega
  | @legacyOctal digits hne hd =>
    have hrest : digits ++ rest = c :: cs := (List.cons.inj hrest).2
    have hle := length_le_takeWhile hd rest
    rw [hrest] at hle
    refine .inr (.inr ⟨?_, by rw [List.length_cons]; omega⟩)
    cases digits with
    | nil => exact absurd rfl hne
    | cons d ds => cases hrest; exact hd _ (List.mem_cons_self ..)
  | @decimal m t ds k e hm ht =>
    left
    have hs := Spelled.decimal hm ht
    generalize m ++ t = text at hs hrest
    rcases text with _ | ⟨a, _ | ⟨b, text⟩⟩
    · exact Nat.zero_le _
    · exact Nat.le_refl _
    · cases hrest
      rw [hs.zero] at hc
      cases hc

/-- A numeral that is closed behind its end is read. -/
theorem Form.Longest.reads [WideConversion] (h : form.Longest text rest)
    (hscan : scan (text ++ rest) = if rest.head?.any clings then .malformed text.length
      else .read ⟨form.toBinary64, form.isLegacyOctal⟩ text.length) : form.Reads text rest where
  toLongest := h
  refused hc := ⟨_, hscan.trans (if_pos hc)⟩
  read hc := by
    rw [hscan, hc]
    rfl

/-- A numeral is refused that goes on behind its end. -/
theorem Form.Longest.reads_of_malformed [WideConversion] {n : Nat} (h : form.Longest text rest)
    (hc : rest.head?.any clings = true) (hscan : scan (text ++ rest) = .malformed n) : form.Reads text rest where
  toLongest := h
  refused _ := ⟨n, hscan⟩
  read hno := by
    rw [hc] at hno
    cases hno

/-- A zero alone is the longest numeral where none goes on. -/
theorem longest_zero (h : ∀ form text, Form.Spelled form text → text <+: '0' :: rest → text.length ≤ 1) :
    (Form.decimal ⟨['0'], 0⟩).Longest ['0'] rest :=
  ⟨.decimal (.whole .zero) .none, h⟩

/-- The digits behind `0x`, or the zero alone where there are none. -/
theorem exists_reads_hexadecimal [WideConversion] (hx : x = 'x' ∨ x = 'X') (cs : List Char) :
    ∃ (form : Form) (text rest : List Char), '0' :: x :: cs = text ++ rest ∧ form.Reads text rest := by
  have ho : isOctalDigit x = false := by rcases hx with rfl | rfl <;> rfl
  have hscan : scan ('0' :: x :: cs) = (scanHexadecimal cs).after 2 := by
    rw [scan, if_pos (by simpa using hx)]
  have longest : ∀ form' text', Spelled form' text' → text' <+: '0' :: x :: cs → text'.length ≤ 1 ∨
      (cs.takeWhile isHexDigit ≠ [] ∧ text'.length ≤ 2 + (cs.takeWhile isHexDigit).length) := by
    intro form' text' h' hp
    rcases h'.length_le_of_zero hp (endsDecimalZero_letter hx) with hle | ⟨-, hle⟩ | ⟨ho', -⟩
    · exact .inl hle
    · exact .inr hle
    · rw [ho] at ho'
      cases ho'
  by_cases hne : cs.takeWhile isHexDigit = []
  · have hzero := longest_zero fun form' text' h' hp =>
      (longest form' text' h' hp).resolve_right fun h => h.1 hne
    refine ⟨_, _, _, rfl, hzero.reads_of_malformed (n := 2) ?_ ?_⟩
    · rcases hx with rfl | rfl <;> rfl
    · rw [List.singleton_append, hscan, scanHexadecimal, hne]
      rfl
  · have hsplit : cs = cs.takeWhile isHexDigit ++ cs.dropWhile isHexDigit := List.takeWhile_append_dropWhile.symm
    have htext : '0' :: x :: cs = '0' :: x :: cs.takeWhile isHexDigit ++ cs.dropWhile isHexDigit := by
      rw [List.cons_append, List.cons_append, ← hsplit]
    have hlong : (Form.hexadecimal (cs.takeWhile isHexDigit)).Longest ('0' :: x :: cs.takeWhile isHexDigit)
        (cs.dropWhile isHexDigit) := by
      refine ⟨.hexadecimal hx hne fun c hc => List.mem_takeWhile_imp hc, fun form' text' h' hp => ?_⟩
      rw [← htext] at hp
      have := longest form' text' h' hp
      rw [List.length_cons, List.length_cons]
      omega
    refine ⟨_, _, _, htext, hlong.reads ?_⟩
    rw [← htext, hscan, scanHexadecimal_eq hne, List.length_cons, List.length_cons, apply_ite (Scan.after 2)]
    simp only [Scan.after, Nat.add_comm 2, Form.toBinary64, Form.isLegacyOctal]

/-- The octal digits behind a zero, or the zero alone in front of an eight or a nine. -/
theorem exists_reads_octal [WideConversion] (hc : isDecimalDigit c = true) (cs : List Char) :
    ∃ (form : Form) (text rest : List Char), '0' :: c :: cs = text ++ rest ∧ form.Reads text rest := by
  have hx : ¬ (c == 'x' || c == 'X') = true := by
    simp only [Bool.or_eq_true, beq_iff_eq]
    rintro (rfl | rfl) <;> exact absurd hc (by decide)
  have hscan : scan ('0' :: c :: cs) = (scanOctal (c :: cs)).after 1 := by
    rw [scan, if_neg hx, if_pos hc]
  have longest : ∀ form' text', Spelled form' text' → text' <+: '0' :: c :: cs →
      text'.length ≤ 1 + ((c :: cs).takeWhile isOctalDigit).length := by
    intro form' text' h' hp
    rcases h'.length_le_of_zero hp (endsDecimalZero_digit hc) with hle | ⟨hc', -⟩ | ⟨-, hle⟩
    · omega
    · rw [hc] at hc'
      cases hc'
    · exact hle
  by_cases hne : (c :: cs).takeWhile isOctalDigit = []
  · have hzero := longest_zero fun form' text' h' hp => by
      have := longest form' text' h' hp
      rwa [hne] at this
    have hcling : (c :: cs).head?.any clings = true := any_clings_of_decimal hc
    have hrest : (c :: cs).dropWhile isOctalDigit = c :: cs := by
      have hsplit := List.takeWhile_append_dropWhile (p := isOctalDigit) (l := c :: cs)
      rwa [hne] at hsplit
    refine ⟨_, _, _, rfl, hzero.reads_of_malformed (n := 1) hcling ?_⟩
    rw [List.singleton_append, hscan, scanOctal_eq, hne, hrest, if_pos hcling]
    rfl
  · have hsplit : c :: cs = (c :: cs).takeWhile isOctalDigit ++ (c :: cs).dropWhile isOctalDigit :=
      List.takeWhile_append_dropWhile.symm
    have htext : '0' :: c :: cs =
        '0' :: (c :: cs).takeWhile isOctalDigit ++ (c :: cs).dropWhile isOctalDigit := by
      rw [List.cons_append, ← hsplit]
    have hlong : (Form.legacyOctal ((c :: cs).takeWhile isOctalDigit)).Longest
        ('0' :: (c :: cs).takeWhile isOctalDigit) ((c :: cs).dropWhile isOctalDigit) := by
      refine ⟨.legacyOctal hne fun d hd => List.mem_takeWhile_imp hd, fun form' text' h' hp => ?_⟩
      rw [← htext] at hp
      rw [List.length_cons, Nat.add_comm]
      exact longest form' text' h' hp
    refine ⟨_, _, _, htext, hlong.reads ?_⟩
    rw [← htext, hscan, scanOctal_eq, List.length_cons, apply_ite (Scan.after 1)]
    simp only [Scan.after, Nat.add_comm 1, Form.toBinary64, Form.isLegacyOctal]

/-- Another numeral in front of a text is decimal too: its mantissa is no longer, and if an exponent follows it is
the same. -/
theorem Form.Spelled.length_le_of_mantissa {m : List Char} (h : form.Spelled text) (hp : text <+: m ++ rest)
    (hw : mantissaWidth (m ++ rest) = m.length)
    (hz : ∀ c cs, m ++ rest = '0' :: c :: cs → endsDecimalZero c = false) :
    text.length ≤ m.length ∨ ∃ n, scanExponent rest = .read () n ∧ text.length ≤ m.length + n := by
  obtain ⟨tail, htail⟩ := hp
  rcases h.decimal_or_zero with ⟨d, rfl⟩ | ⟨b, bs, rfl, hb⟩
  · generalize hform : Form.decimal d = form at h
    cases h with
    | hexadecimal | legacyOctal => cases hform
    | @decimal m' t ds k e hm ht =>
      rw [List.append_assoc] at htail
      by_cases hnil : t = []
      · left
        have := hm.length_le (t ++ tail)
        rw [htail, hw] at this
        simpa [hnil] using this
      · right
        have hhead : (t ++ tail).head?.any (fun c => c == '.' || isDecimalDigit c) = false := by
          cases t with
          | nil => exact absurd rfl hnil
          | cons => exact ht.head
        have hlen : m'.length = m.length := by
          rw [← hw, ← htail, hm.length_eq hhead]
        obtain ⟨rfl, rfl⟩ := List.append_inj htail hlen
        obtain ⟨n, hn, hle⟩ := ht.length_le hnil tail
        refine ⟨n, hn, ?_⟩
        rw [List.length_append]
        omega
  · rw [hz b _ htail.symm] at hb
    cases hb

/-- A decimal mantissa, and the exponent behind it. -/
theorem exists_reads_decimal [WideConversion] (h : opensNumeral (c :: cs) = true)
    (hz : c = '0' → cs.head?.any endsDecimalZero = false) :
    ∃ (form : Form) (text rest : List Char), c :: cs = text ++ rest ∧ form.Reads text rest := by
  have hz' : c = '0' → cs.head?.any isDecimalDigit = false := by
    intro hc
    have := hz hc
    cases cs with
    | nil => rfl
    | cons d cs => exact (Bool.or_eq_false_iff.1 this).2
  obtain ⟨m, ds, k, rest, hcs, hm, hw, hr⟩ := exists_mantissa h hz'
  have hscan : scan (c :: cs) = scanDecimal (c :: cs) := scan_eq_scanDecimal hz
  rw [hcs] at hw hscan
  have hz : ∀ d ds, m ++ rest = '0' :: d :: ds → endsDecimalZero d = false := by
    intro d ds heq
    cases hcs.trans heq
    exact hz rfl
  have hextent : scanDecimalExtent (m ++ rest) = (scanExponent rest).after m.length := by
    rw [scanDecimalExtent, hw, List.drop_left]
  cases hx : scanExponent rest with
  | malformed n =>
    have hlong : (Form.decimal ⟨ds, 0 - k⟩).Longest m rest := by
      refine ⟨by simpa using Spelled.decimal hm .none, fun form' text' h' hp => ?_⟩
      rcases h'.length_le_of_mantissa hp hw hz with hle | ⟨_, hread, -⟩
      · exact hle
      · rw [hx] at hread
        cases hread
    refine ⟨_, m, rest, hcs, hlong.reads_of_malformed (n := m.length + n) ?_ ?_⟩
    · obtain ⟨l, us, rfl, hl⟩ := letter_of_malformed hx
      rcases hl with rfl | rfl <;> rfl
    · rw [hscan, scanDecimal, hextent, hx]
      rfl
  | read u n =>
    obtain ⟨t, e, rest, rfl, ht, rfl, hend⟩ := exists_exponent hx hr
    have hs : (Form.decimal ⟨ds, e - k⟩).Spelled (m ++ t) := .decimal hm ht
    have hlong : (Form.decimal ⟨ds, e - k⟩).Longest (m ++ t) rest := by
      refine ⟨hs, fun form' text' h' hp => ?_⟩
      rw [List.append_assoc] at hp
      rw [List.length_append]
      rcases h'.length_le_of_mantissa hp hw hz with hle | ⟨n, hread, hle⟩
      · omega
      · rw [hx] at hread
        cases hread
        exact hle
    refine ⟨_, m ++ t, rest, by rw [hcs, List.append_assoc], hlong.reads ?_⟩
    rw [any_clings hend, List.append_assoc, hscan, scanDecimal, hextent, hx]
    show close _ (m.length + t.length) _ = _
    rw [← List.length_append, ← List.append_assoc, List.take_left, hs.read]
    exact close_append ..

/-- A text that a numeral can begin has a longest numeral in front, and reading is settled by it. -/
theorem exists_reads [WideConversion] (h : opensNumeral cs = true) :
    ∃ (form : Form) (text rest : List Char), cs = text ++ rest ∧ form.Reads text rest := by
  cases cs with
  | nil => cases h
  | cons c cs =>
    by_cases hz : c = '0' → cs.head?.any endsDecimalZero = false
    · exact exists_reads_decimal h hz
    · obtain ⟨rfl, hd⟩ := Classical.not_imp.1 hz
      cases cs with
      | nil => exact absurd rfl hd
      | cons d cs =>
        have hd : endsDecimalZero d = true := by simpa using hd
        by_cases hx : (d == 'x' || d == 'X') = true
        · exact exists_reads_hexadecimal (by simpa using hx) cs
        · exact exists_reads_octal ((Bool.or_eq_true_iff.1 hd).resolve_left hx) cs

/-- A numeral that is read is written in its form. -/
theorem exists_spelled_of_scan [WideConversion] {x : Numeral} {n : Nat} (ho : opensNumeral cs = true)
    (h : scan cs = .read x n) :
    ∃ form : Form, form.Spelled (cs.take n) ∧ x = ⟨form.toBinary64, form.isLegacyOctal⟩ := by
  obtain ⟨form, text, rest, rfl, hr⟩ := exists_reads ho
  cases hc : rest.head?.any clings with
  | true =>
    obtain ⟨m, hm⟩ := hr.refused hc
    rw [hm] at h
    cases h
  | false =>
    rw [hr.read hc] at h
    cases h
    exact ⟨form, by rw [List.take_left]; exact hr.spelled, rfl⟩

/-- A text that is a numeral as a whole is read as a whole. -/
theorem Form.Spelled.scan_eq [WideConversion] (h : form.Spelled text) :
    scan text = .read ⟨form.toBinary64, form.isLegacyOctal⟩ text.length := by
  obtain ⟨form', text', rest, heq, hr⟩ := exists_reads h.opens
  obtain rfl : rest = [] := by
    have hle := hr.longest form text h (heq ▸ List.prefix_rfl)
    have hlen := congrArg List.length heq
    rw [List.length_append] at hlen
    exact List.length_eq_zero_iff.1 (by omega)
  rw [List.append_nil] at heq
  subst heq
  have hread := hr.read rfl
  rw [List.append_nil] at hread
  rw [hread, h.unique hr.spelled]

end Longest

end Numeral

end EcmaTokens
