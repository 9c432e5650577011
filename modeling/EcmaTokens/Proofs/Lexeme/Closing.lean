/-
Where a string literal ends. A plain scan knows of an escape only that the backslash takes the next
character with it. Reading takes more with some escapes, but never a quote, a backslash or a line
terminator, so it closes or fails where the plain scan does.
-/
import EcmaTokens.Proofs.Lexeme.Contents

namespace EcmaTokens

namespace Quoted

/-! ## The plain scan -/

/-- Looks for the closing quote behind the opening one. A backslash is skipped together with the next
character, or with a carriage return and its line feed. -/
def skim (quote : Char) : List Char → Scan Unit
  | [] => .malformed 0
  | ['\\'] => .malformed 1
  | '\\' :: '\r' :: '\n' :: cs => (skim quote cs).after 3
  | '\\' :: _ :: cs => (skim quote cs).after 2
  | c :: cs =>
    if c == quote then .read () 1
    else if isLineTerminator c then .malformed 0
    else (skim quote cs).after 1

section Skim

variable {quote c : Char} {cs rest : List Char}

theorem skim_cons (h : c ≠ '\\') (quote : Char) (cs : List Char) : skim quote (c :: cs) =
    if c == quote then .read () 1
    else if isLineTerminator c then .malformed 0
    else (skim quote cs).after 1 := by
  rw [skim]
  · rintro rfl; exact absurd rfl h
  · rintro _ rfl; exact absurd rfl h
  · rintro _ _ rfl; exact absurd rfl h

/-- A line terminator is skipped as a whole. -/
theorem skim_escape (h : Seam [c] cs) (quote : Char) :
    skim quote ('\\' :: c :: cs) = (skim quote cs).after 2 := by
  rw [skim]
  rintro ds rfl rfl
  exact absurd ⟨rfl, rfl⟩ h

/-- Digits are gone over one by one. -/
theorem skim_digits (hq : IsQuote quote) {digits : List Char} (h : ∀ c ∈ digits, isHexDigit c = true)
    (rest : List Char) : skim quote (digits ++ rest) = (skim quote rest).after digits.length := by
  induction digits with
  | nil => exact (Scan.after_zero _).symm
  | cons c digits ih =>
    obtain ⟨hc, hds⟩ := List.forall_mem_cons.1 h
    have hb : c ≠ '\\' := by
      rintro rfl
      exact absurd hc (by decide)
    have hne : c ≠ quote := by
      rintro rfl
      rw [isHexDigit, hq.hex] at hc
      cases hc
    rw [List.cons_append, skim_cons hb, if_neg (by simpa using hne),
      if_neg (by simp [not_isLineTerminator_of_hex hc]), ih hds, Scan.after_after, List.length_cons, Nat.add_comm 1]

/-- An escape is gone over as a whole. -/
theorem skim_spelled (hq : IsQuote quote) {item : Item} {text : List Char}
    (h : item.Spelled ('\\' :: text) rest) :
    skim quote ('\\' :: (text ++ rest)) = (skim quote rest).after (1 + text.length) := by
  have single : ∀ {e : Char}, e ≠ '\r' → skim quote ('\\' :: ([e] ++ rest)) = (skim quote rest).after (1 + 1) :=
    fun he => skim_escape (by simp [Seam, he]) quote
  -- the letter or the first digit is skipped with the backslash, and the digits behind it are gone over
  have digits : ∀ {e : Char} {ds : List Char}, e ≠ '\r' → (∀ c ∈ ds, isHexDigit c = true) →
      skim quote ('\\' :: (e :: ds ++ rest)) = (skim quote rest).after (1 + (e :: ds).length) := by
    intro e ds he hds
    rw [List.cons_append, skim_escape (by simp [Seam, he]), skim_digits hq hds, Scan.after_after, List.length_cons,
      Nat.add_comm ds.length, ← Nat.add_assoc]
  generalize hs : '\\' :: text = spelling at h
  cases h with
  | raw hc => cases hs; exact absurd rfl hc
  | control hc =>
    cases hs
    apply single
    rintro rfl
    simp [Item.controls] at hc
  | hex hk hd =>
    cases hs
    apply digits _ hd.2
    rintro rfl
    simp [Item.hexLetters] at hk
  | letter hk _ =>
    cases hs
    apply single
    rintro rfl
    simp [Item.hexLetters] at hk
  | octal hd _ _ =>
    cases hs
    obtain ⟨hd, hds⟩ := List.forall_mem_cons.1 hd
    apply digits _ fun c hc => isHexDigit_of_decimal (isDecimalDigit_of_octal (hds c hc))
    rintro rfl
    exact absurd hd (by decide)
  | lineEnd he =>
    cases hs
    cases he with
    | pair => rfl
    | single _ hseam => exact skim_escape hseam quote
  | other ht _ _ _ =>
    cases hs
    apply single
    rintro rfl
    exact absurd ht (by decide)

/-! ## Where reading ends -/

/-- The pieces of a literal end where the plain scan does, or fail where it fails. -/
theorem scanPieces_extent (hq : quote = '"' ∨ quote = '\'') (cs : List Char) :
    (scanPieces quote cs).map (fun _ => ()) = skim quote cs := by
  have hb : quote ≠ '\\' := by rcases hq with rfl | rfl <;> decide
  have hq : IsQuote quote := isQuote_of_eq (by simpa using hq)
  fun_induction scanPieces quote cs with
  | case1 => rfl
  | case2 c cs hc =>
    obtain rfl : c = quote := by simpa using hc
    rw [skim_cons hb, if_pos hc]
    rfl
  | case3 c cs hc hl =>
    rw [skim_cons (by rintro rfl; exact absurd hl (by decide)), if_neg hc, if_pos hl]
    rfl
  | case4 c cs hc hl hbs he =>
    obtain rfl : c = '\\' := by simpa using hbs
    cases cs with
    | nil => rfl
    | cons d ds =>
      obtain ⟨piece, n, hp, -⟩ := exists_spelled d ds
      rw [hp] at he
      cases he
  | case5 c cs hc hl hbs piece n he ih =>
    obtain rfl : c = '\\' := by simpa using hbs
    have hn : (cs.take n).length = n := by
      have := escape?_width he
      rw [List.length_take]
      omega
    have hs := skim_spelled hq (spelled_of_escape? he)
    rw [List.take_append_drop, hn] at hs
    rw [hs, ← ih]
    cases scanPieces quote (cs.drop n) <;> rfl
  | case6 c cs hc hl hbs ih =>
    rw [skim_cons (by simpa using hbs), if_neg hc, if_neg hl, ← ih]
    cases scanPieces quote cs <;> rfl

/-- A string literal ends where the plain scan does, or fails where it fails. -/
theorem scan_extent (hq : quote = '"' ∨ quote = '\'') (cs : List Char) :
    (scan (quote :: cs)).map (fun _ => ()) = (skim quote cs).after 1 := by
  rw [scan, ← scanPieces_extent hq]
  cases scanPieces quote cs <;> rfl

end Skim

end Quoted

end EcmaTokens
