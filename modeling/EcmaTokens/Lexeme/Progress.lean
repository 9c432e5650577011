/-
A lexeme is never empty: every recogniser that reads a lexeme goes over at least one character.
-/
import EcmaTokens.Lexeme.Basic

namespace EcmaTokens

/-! ## Words -/

namespace Word

theorem scanSpelled_pos {c : Char} {cs : List Char} {w : List Char} {n : Nat}
    (hc : allows true c = true ∨ c = '\\')
    (h : scanSpelled true (c :: cs) = .read w n) : 0 < n := by
  unfold scanSpelled at h
  split at h
  · next heq => cases heq
  · split at h
    · cases h
    · split at h
      · cases h
      · have := Scan.le_of_after h; omega
  · cases h
  · cases h
  · next heq =>
    cases heq
    split at h
    · have := Scan.le_of_after h; omega
    · next hn =>
      rcases hc with hc | hc
      · exact absurd hc hn
      · subst hc; simp_all

theorem scan_pos {c : Char} {cs : List Char} {w : List Char} {n : Nat}
    (hc : opensWord c = true) (h : scan (c :: cs) = .read w n) : 0 < n := by
  unfold scan at h
  dsimp only at h
  split at h
  · next hb => exact scanSpelled_pos (Or.inr (by simpa using hb)) h
  · next hb =>
    have hs := isIdentifierStart_of_opensWord hc (by simpa using hb)
    split at h
    · exact scanSpelled_pos (Or.inl (by simpa [allows] using hs)) h
    · cases h; omega

end Word

/-! ## Numerals -/

namespace Numeral

theorem eq_of_close {cs : List Char} {m : Nat} {v : Option Numeral} {x : Numeral} {n : Nat}
    (h : close cs m v = .read x n) : n = m := by
  unfold close at h
  split at h
  · cases h
  · split at h <;> cases h
    rfl

theorem mantissaWidth_pos {c : Char} {cs : List Char} (hc : c = '.' ∨ isDecimalDigit c = true) :
    0 < mantissaWidth (c :: cs) := by
  unfold mantissaWidth digitRun
  dsimp only
  rcases hc with rfl | hc
  · have : ('.' :: cs).takeWhile isDecimalDigit = [] := by
      rw [List.takeWhile_cons]; simp [isDecimalDigit]
    rw [this]
    simp only [List.length_nil, List.drop_zero]
    omega
  · have : 0 < ((c :: cs).takeWhile isDecimalDigit).length := by simp [hc]
    split <;> omega

theorem scanDecimal_pos {c : Char} {cs : List Char} {x : Numeral} {n : Nat}
    (hc : c = '.' ∨ isDecimalDigit c = true)
    (h : scanDecimal (c :: cs) = .read x n) : 0 < n := by
  unfold scanDecimal at h
  split at h
  · cases h
  · next heq =>
    have hn := eq_of_close h
    have := Scan.le_of_after heq
    have : 0 < mantissaWidth (c :: cs) := mantissaWidth_pos hc
    omega

theorem scan_pos [WideConversion] {c : Char} {cs : List Char} {x : Numeral} {n : Nat}
    (hc : c = '.' ∨ isDecimalDigit c = true) (h : scan (c :: cs) = .read x n) :
    0 < n := by
  unfold scan at h
  split at h
  · split at h
    · have := Scan.le_of_after h; omega
    · split at h
      · have := Scan.le_of_after h; omega
      · exact scanDecimal_pos hc h
  · exact scanDecimal_pos hc h

end Numeral

/-! ## Lexemes -/

namespace Lexeme

theorem scanPunctuator_pos {cs : List Char} {x : Lexeme} {n : Nat}
    (h : scanPunctuator cs = .read x n) : 0 < n := by
  unfold scanPunctuator at h
  split at h <;> cases h
  exact Punctuator.width_pos _

theorem scan_pos [WideConversion] {cs : List Char} {x : Lexeme} {n : Nat} (h : scan cs = .read x n) :
    0 < n ∧ 0 < cs.length := by
  unfold scan at h
  split at h
  · cases h
  · refine ⟨?_, by simp⟩
    split at h
    · exact scanPunctuator_pos h
    · split at h
      · next hc =>
        obtain ⟨w, hw⟩ := Scan.read_of_map h
        exact Word.scan_pos hc hw
      · split at h
        · exact scanPunctuator_pos h
        · split at h
          · next hc =>
            obtain ⟨w, hw⟩ := Scan.read_of_map h
            exact Numeral.scan_pos (by simpa using hc) hw
          · split at h
            · obtain ⟨w, hw⟩ := Scan.read_of_map h
              have := Scan.le_of_after (by simpa [Quoted.scan] using hw)
              omega
            · cases h

end Lexeme

end EcmaTokens
