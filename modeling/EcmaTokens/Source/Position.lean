/-
Positions in a source text. Offsets and columns count UTF-8 bytes; a line ends after each line
terminator, where a carriage return and the line feed that follows it are one terminator. A
position is determined by the text read so far, so everything here is a function of that text.
-/
import EcmaTokens.Source.Character

namespace EcmaTokens

/-- A range of bytes, its end excluded. -/
structure Span where
  start : Nat := 0
  stop : Nat := 0
deriving DecidableEq, Repr, Inhabited

namespace Span

def length (s : Span) : Nat :=
  s.stop - s.start

def isEmpty (s : Span) : Bool :=
  s.start == s.stop

end Span

/-- Where a token begins: line and column from zero, and the offset in the source. -/
structure Location where
  line : Nat := 0
  column : Nat := 0
  offset : Nat := 0
deriving DecidableEq, Repr, Inhabited

/-- A position: the number of lines before it, the offset at which its line starts, and its own. -/
structure Position where
  line : Nat := 0
  lineStart : Nat := 0
  offset : Nat := 0
deriving DecidableEq, Repr, Inhabited

namespace Position

def location (p : Position) : Location :=
  ⟨p.line, p.offset - p.lineStart, p.offset⟩

/-- The position behind `width` bytes on the same line. -/
def along (p : Position) (width : Nat) : Position :=
  { p with offset := p.offset + width }

/-- The position behind a line terminator of `width` bytes. -/
def newLine (p : Position) (width : Nat) : Position :=
  ⟨p.line + 1, p.offset + width, p.offset + width⟩

/-- The position behind a text. -/
def advance (p : Position) : List Char → Position
  | [] => p
  | '\r' :: '\n' :: cs => (p.newLine 2).advance cs
  | c :: cs =>
    if isLineTerminator c then (p.newLine c.utf8Size).advance cs
    else (p.along c.utf8Size).advance cs

end Position

/-! ## Measures of a text -/

/-- The number of bytes of a text in UTF-8. -/
def utf8Length : List Char → Nat
  | [] => 0
  | c :: cs => c.utf8Size + utf8Length cs

/-- The number of line terminators of a text. -/
def lineCount : List Char → Nat
  | [] => 0
  | '\r' :: '\n' :: cs => lineCount cs + 1
  | c :: cs => if isLineTerminator c then lineCount cs + 1 else lineCount cs

@[simp] theorem utf8Length_nil : utf8Length [] = 0 :=
  rfl

@[simp] theorem utf8Length_cons (c : Char) (cs : List Char) :
    utf8Length (c :: cs) = c.utf8Size + utf8Length cs :=
  rfl

@[simp] theorem utf8Length_append (a b : List Char) :
    utf8Length (a ++ b) = utf8Length a + utf8Length b := by
  induction a with
  | nil => simp
  | cons c cs ih => simp [ih, Nat.add_assoc]

/-- Going over a text adds its bytes to the offset. -/
theorem Position.offset_advance (p : Position) (cs : List Char) :
    (p.advance cs).offset = p.offset + utf8Length cs := by
  fun_induction p.advance cs with
  | case1 => rfl
  | case2 p cs ih =>
    have hr : '\r'.utf8Size = 1 := by decide
    have hn : '\n'.utf8Size = 1 := by decide
    rw [ih, utf8Length_cons, utf8Length_cons, hr, hn]
    simp only [newLine]
    omega
  | case3 p c cs _ _ ih => rw [ih, utf8Length_cons]; simp only [newLine]; omega
  | case4 p c cs _ _ ih => rw [ih, utf8Length_cons]; simp only [along]; omega

/-- Going over a text adds its line terminators to the line. -/
theorem Position.line_advance (p : Position) (cs : List Char) :
    (p.advance cs).line = p.line + lineCount cs := by
  fun_induction p.advance cs with
  | case1 => rfl
  | case2 p cs ih => rw [ih, lineCount]; simp only [newLine]; omega
  | case3 p c cs hn hc ih =>
    rw [ih, lineCount, if_pos hc]
    · simp only [newLine]; omega
    · exact hn
  | case4 p c cs hn hc ih =>
    rw [ih, lineCount, if_neg hc]
    · simp only [along]
    · exact hn

/-! ## Line terminators -/

/-- A text contains a line terminator. -/
def hasLineTerminator (cs : List Char) : Bool :=
  cs.any isLineTerminator

/-- How many characters the line terminator at the front of a text takes, zero if there is none. -/
def terminatorWidth : List Char → Nat
  | '\r' :: '\n' :: _ => 2
  | c :: _ => if isLineTerminator c then 1 else 0
  | [] => 0

theorem terminatorWidth_pos {c : Char} {cs : List Char} (h : isLineTerminator c = true) :
    0 < terminatorWidth (c :: cs) := by
  unfold terminatorWidth
  split
  · omega
  · next heq => cases heq; simp [h]
  · next heq => cases heq

end EcmaTokens
