/-
Gaps: what may stand between tokens. A gap is skipped item by item, each of them a white space character,
a line terminator, a comment to the end of its line, or a block comment. Two more forms of comment
to the end of a line can be allowed: `<!--` anywhere, and `-->` where only the gap itself precedes
it on its line. A gap ends where no item begins; it is malformed if a block comment never closes.
-/
import EcmaTokens.Source.Position
import EcmaTokens.Source.Scan

namespace EcmaTokens

namespace Gap

/-- What is kept in mind while a gap is skipped. -/
structure Marks where
  /-- A `-->` would open a comment here. -/
  lineStart : Bool
  /-- A line terminator was skipped. -/
  lineBreak : Bool
deriving DecidableEq, Repr

/-- One round of skipping. -/
inductive Round where
  /-- An item of `width` characters is skipped. -/
  | item (width : Nat) (marks : Marks)
  /-- A block comment never closes. -/
  | unclosed (lineBreak : Bool)
  /-- No item begins here. -/
  | done
deriving DecidableEq, Repr

/-- The width of what is left of a line, its terminator included. -/
def lineWidth (cs : List Char) : Nat :=
  let n := (cs.takeWhile fun c => !isLineTerminator c).length
  n + terminatorWidth (cs.drop n)

/-- Skips what is left of a line behind an opening of `opening` characters. Only the end of the text is no
line terminator. -/
def skipLine (opening : Nat) (cs : List Char) (marks : Marks) : Round :=
  let rest := cs.dropWhile fun c => !isLineTerminator c
  .item (opening + lineWidth cs) { marks with lineBreak := marks.lineBreak || !rest.isEmpty }

/-- Looks for the closing of a block comment: the width up to and including it, and whether a line terminator was
crossed until then. -/
def blockEnd (crossed : Bool) : List Char → Option Nat × Bool
  | '*' :: '/' :: _ => (some 2, crossed)
  | c :: cs =>
    let (width?, crossed) := blockEnd (crossed || isLineTerminator c) cs
    (width?.map (· + 1), crossed)
  | [] => (none, crossed)

/-- Skips the block comment whose opening stands in front of the text. -/
def skipBlock (cs : List Char) (marks : Marks) : Round :=
  match blockEnd false cs with
  | (some n, crossed) => .item (2 + n) ⟨marks.lineStart || crossed, marks.lineBreak || crossed⟩
  | (none, crossed) => .unclosed (marks.lineBreak || crossed)

/-- Skips the item at the front of a text. `html` allows `<!--` and `-->`. -/
def round (html : Bool) (marks : Marks) : List Char → Round
  | [] => .done
  | c :: cs =>
    if isWhiteSpace c then .item 1 marks
    else if isLineTerminator c then .item (terminatorWidth (c :: cs)) ⟨true, true⟩
    else if ['/', '/'].isPrefixOf (c :: cs) then skipLine 2 (cs.drop 1) { marks with lineStart := true }
    else if ['/', '*'].isPrefixOf (c :: cs) then skipBlock (cs.drop 1) marks
    else if html && marks.lineStart && ['-', '-', '>'].isPrefixOf (c :: cs) then skipLine 3 (cs.drop 2) marks
    else if html && ['<', '!', '-', '-'].isPrefixOf (c :: cs) then
      skipLine 4 (cs.drop 3) { marks with lineStart := true }
    else .done

theorem skipBlock_pos {cs : List Char} {marks marks' : Marks} {n : Nat}
    (h : skipBlock cs marks = .item n marks') : 0 < n := by
  unfold skipBlock at h
  split at h <;> cases h
  omega

theorem round_pos {html : Bool} {marks marks' : Marks} {cs : List Char} {n : Nat}
    (h : round html marks cs = .item n marks') : 0 < n ∧ 0 < cs.length := by
  have line : ∀ {k : Nat} {ds : List Char} {m : Marks}, skipLine k ds m = .item n marks' → k ≤ n := by
    intro k ds m h
    cases h
    omega
  cases cs with
  | nil => cases h
  | cons c cs =>
    refine ⟨?_, Nat.succ_pos _⟩
    rw [round] at h
    split at h
    · cases h; omega
    split at h
    · next hc => cases h; exact terminatorWidth_pos hc
    split at h
    · have := line h; omega
    split at h
    · exact skipBlock_pos h
    split at h
    · have := line h; omega
    split at h
    · have := line h; omega
    · cases h

/-- Skips the gap at the front of a text, and tells whether a line terminator was among it. The gap is malformed
where an unclosed comment opens. -/
def skip (html : Bool) (marks : Marks) (cs : List Char) : Scan Unit × Bool :=
  match _h : round html marks cs with
  | .done => (.read () 0, marks.lineBreak)
  | .unclosed lineBreak => (.malformed 0, lineBreak)
  | .item n marks' => (skip html marks' (cs.drop n)).map (Scan.after n) id
termination_by cs.length
decreasing_by
  have := round_pos _h
  simp only [List.length_drop]
  omega

end Gap

end EcmaTokens
