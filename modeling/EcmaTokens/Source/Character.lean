/-
The character classes of the lexical grammar. White space and line terminators are short lists;
identifier characters are ASCII letters, digits, `$` and `_`, and above ASCII the Unicode
properties XID_Start and XID_Continue. Every identifier start is an identifier part, and no
identifier part is white space or a line terminator.
-/
import EcmaTokens.Source.IdentifierRanges

namespace EcmaTokens

/-! ## Blanks -/

/-- White space, line terminators excluded. -/
def isWhiteSpace (c : Char) : Bool :=
  c == '\t' || c == '\x0b' || c == '\x0c' || c == ' ' || c == '\u00a0' || c == '\ufeff' ||
  c == '\u1680' || c == '\u180e' || ('\u2000' ≤ c && c ≤ '\u200a') || c == '\u202f' ||
  c == '\u205f' || c == '\u3000'

/-- Line feed, carriage return, line separator and paragraph separator. -/
def isLineTerminator (c : Char) : Bool :=
  c == '\n' || c == '\r' || c == '\u2028' || c == '\u2029'

/-! ## Digits -/

/-- The digits `0` to `9`. -/
def isDecimalDigit (c : Char) : Bool :=
  '0' ≤ c && c ≤ '9'

/-- The digits `0` to `7`. -/
def isOctalDigit (c : Char) : Bool :=
  '0' ≤ c && c ≤ '7'

/-- The value of a hexadecimal digit of either case. -/
def hexValue? (c : Char) : Option Nat :=
  if '0' ≤ c && c ≤ '9' then some (c.toNat - '0'.toNat)
  else if 'a' ≤ c && c ≤ 'f' then some (c.toNat - 'a'.toNat + 10)
  else if 'A' ≤ c && c ≤ 'F' then some (c.toNat - 'A'.toNat + 10)
  else none

/-- The digits `0` to `9` and the letters `a` to `f` in either case. -/
def isHexDigit (c : Char) : Bool :=
  (hexValue? c).isSome

/-- The value of a digit of a radix up to sixteen, and zero for any other character. -/
def digitValue (c : Char) : Nat :=
  (hexValue? c).getD 0

/-- The positional value of a run of digits. -/
def digitsValue (radix : Nat) (digits : List Char) : Nat :=
  digits.foldl (fun n c => n * radix + digitValue c) 0

/-- The number that exactly four hexadecimal digits spell. -/
def hexQuad? (a b c d : Char) : Option Nat := do
  let a ← hexValue? a
  let b ← hexValue? b
  let c ← hexValue? c
  let d ← hexValue? d
  return ((a * 16 + b) * 16 + c) * 16 + d

/-! ## Identifiers -/

def isAscii (c : Char) : Bool :=
  c.toNat < 128

def isAsciiLetter (c : Char) : Bool :=
  ('a' ≤ c && c ≤ 'z') || ('A' ≤ c && c ≤ 'Z')

/-- A character that can start an identifier. -/
def isIdentifierStart (c : Char) : Bool :=
  if isAscii c then isAsciiLetter c || c == '$' || c == '_' else isXidStart c

/-- A character that can continue an identifier. The two joiners count beside XID_Continue. -/
def isIdentifierPart (c : Char) : Bool :=
  if isAscii c then isAsciiLetter c || isDecimalDigit c || c == '$' || c == '_'
  else c == '\u200c' || c == '\u200d' || isXidContinue c

/-- An ASCII character that opens a word: an identifier start, or the `\` of an escaped one. -/
def opensAsciiWord (c : Char) : Bool :=
  isAsciiLetter c || c == '$' || c == '_' || c == '\\'

/-- A character that opens a word. None of these may directly follow a numeral. -/
def opensWord (c : Char) : Bool :=
  if isAscii c then opensAsciiWord c else isIdentifierStart c

theorem isIdentifierPart_of_start {c : Char} (h : isIdentifierStart c = true) :
    isIdentifierPart c = true := by
  unfold isIdentifierStart at h
  unfold isIdentifierPart
  split at h
  · next ha =>
    simp only [ha, if_true]
    simp only [Bool.or_eq_true] at h ⊢
    rcases h with (h | h) | h <;> simp [h]
  · next ha => simp [ha, isXidContinue_of_isXidStart h]

/-- What opens a word starts an identifier, the backslash apart. -/
theorem isIdentifierStart_of_opensWord {c : Char} (h : opensWord c = true) (hb : c ≠ '\\') :
    isIdentifierStart c = true := by
  unfold opensWord at h
  split at h
  · next ha =>
    simp only [opensAsciiWord, Bool.or_eq_true, beq_iff_eq, hb, or_false] at h
    simp only [isIdentifierStart, ha, if_true, Bool.or_eq_true, beq_iff_eq]
    exact h
  · exact h

/-! ## Code points -/

/-- The character of a code point, unless it is a surrogate or lies beyond the last plane. -/
def charOfCode? (n : Nat) : Option Char :=
  if h : n.isValidChar then some (Char.ofNatAux n h) else none

/-- Stands for a code that is no character. -/
def replacementChar : Char := '\ufffd'

/-- The character of a code point, or the replacement character. -/
def charOfCode (n : Nat) : Char :=
  (charOfCode? n).getD replacementChar

end EcmaTokens
