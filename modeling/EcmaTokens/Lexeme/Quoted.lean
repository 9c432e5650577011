/-
String literals. The text between the quotes is first cut into pieces: plain characters, UTF-16
units written as `\u` and four hexadecimal digits, octal codes, and line continuations. The pieces
are then decoded: a high unit with a low one directly behind it is one character, and any other
surrogate unit is the replacement character.
-/
import EcmaTokens.Source.Position
import EcmaTokens.Source.Scan

namespace EcmaTokens

/-- The contents of a string, and whether an octal escape occurs in it. -/
structure Quoted where
  value : String
  legacyOctal : Bool
deriving DecidableEq, Repr

namespace Quoted

/-- A piece of a string literal. -/
inductive Piece where
  /-- A character, written as itself or by an escape of its own. -/
  | char (c : Char)
  /-- A UTF-16 unit, written as `\u` and four digits. -/
  | unit (code : Nat)
  /-- A code in octal digits. -/
  | octal (code : Nat)
  /-- An escaped line terminator, which stands for nothing. -/
  | continuation
deriving DecidableEq, Repr

/-! ## Escapes -/

/-- The characters that stand for a control character behind a backslash. -/
def controlEscape? : Char → Option Char
  | 'n' => some '\n'
  | 'r' => some '\r'
  | 't' => some '\t'
  | 'b' => some '\x08'
  | 'f' => some '\x0c'
  | 'v' => some '\x0b'
  | _ => none

/-- The code of the four hexadecimal digits at the front of a text. -/
def unitCode? : List Char → Option Nat
  | a :: b :: c :: d :: _ => hexQuad? a b c d
  | _ => none

/-- The character of the two hexadecimal digits at the front of a text. -/
def byteChar? : List Char → Option Char
  | a :: b :: _ => do
    let a ← hexValue? a
    let b ← hexValue? b
    charOfCode? (a * 16 + b)
  | _ => none

/-- The digits of an octal escape: three at most, or two if the first one is above three. -/
def octalDigits (first : Char) (cs : List Char) : List Char :=
  ((first :: cs).take (if first ≤ '3' then 3 else 2)).takeWhile isOctalDigit

/-- What a backslash in front of a text stands for, and the width it takes behind the backslash.
A `u` or `x` without its digits stands for itself, as other characters do. -/
def escape? : List Char → Option (Piece × Nat)
  | [] => none
  | c :: cs =>
    if isLineTerminator c then some (.continuation, terminatorWidth (c :: cs))
    else if isOctalDigit c then
      let digits := octalDigits c cs
      some (.octal (digitsValue 8 digits), digits.length)
    else if c == 'u' then
      match unitCode? cs with
      | some code => some (.unit code, 5)
      | none => some (.char c, 1)
    else if c == 'x' then
      match byteChar? cs with
      | some ch => some (.char ch, 3)
      | none => some (.char c, 1)
    else some (.char ((controlEscape? c).getD c), 1)

/-! ## Contents -/

/-- Reads the pieces up to and including the closing quote. The literal is malformed where its line
or the text ends. -/
def scanPieces (quote : Char) : List Char → Scan (List Piece)
  | [] => .malformed 0
  | c :: cs =>
    if c == quote then .read [] 1
    else if isLineTerminator c then .malformed 0
    else if c == '\\' then
      match escape? cs with
      | none => .malformed 1
      | some (piece, n) => ((scanPieces quote (cs.drop n)).map (piece :: ·)).after (1 + n)
    else ((scanPieces quote cs).map (.char c :: ·)).after 1
termination_by cs => cs.length
decreasing_by all_goals simp only [List.length_drop, List.length_cons]; omega

def isHighSurrogate (code : Nat) : Bool :=
  0xd800 ≤ code && code ≤ 0xdbff

def isLowSurrogate (code : Nat) : Bool :=
  0xdc00 ≤ code && code ≤ 0xdfff

/-- The code point of a surrogate pair. -/
def pairCode (high low : Nat) : Nat :=
  0x10000 + (high - 0xd800) * 0x400 + (low - 0xdc00)

/-- The characters of a list of pieces. -/
def decode : List Piece → List Char
  | [] => []
  | .unit high :: .unit low :: ps =>
    if isHighSurrogate high && isLowSurrogate low then charOfCode (pairCode high low) :: decode ps
    else charOfCode high :: decode (.unit low :: ps)
  | .unit code :: ps => charOfCode code :: decode ps
  | .octal code :: ps => charOfCode code :: decode ps
  | .char c :: ps => c :: decode ps
  | .continuation :: ps => decode ps

def Piece.isOctal : Piece → Bool
  | .octal _ => true
  | _ => false

def ofPieces (ps : List Piece) : Quoted :=
  ⟨String.ofList (decode ps), ps.any Piece.isOctal⟩

/-- Reads a string literal from its opening quote. -/
def scan : List Char → Scan Quoted
  | [] => .malformed 0
  | quote :: cs => ((scanPieces quote cs).map ofPieces).after 1

end Quoted

end EcmaTokens
