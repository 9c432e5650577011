/-
Words: identifiers and everything spelled like one. Any character of a word may be written as `\u`
and four hexadecimal digits. Most words have no escapes and are read as one run of identifier
characters, the first of them unseen; if an escape ends the run, the word is read again character
by character.
-/
import EcmaTokens.Source.Character
import EcmaTokens.Source.Scan

namespace EcmaTokens

namespace Word

/-- The character may stand in a word, as the first one or a later one. -/
def allows (first : Bool) (c : Char) : Bool :=
  if first then isIdentifierStart c else isIdentifierPart c

/-- The character that an escape in a word stands for, if it may stand there. A backslash may not. -/
def escaped? (first : Bool) (code : Nat) : Option Char :=
  if code == '\\'.toNat then none else (charOfCode? code).filter (allows first)

/-- A backslash would be refused as it is no identifier character. -/
theorem escaped?_eq_some_iff {first : Bool} {code : Nat} {c : Char} :
    escaped? first code = some c ↔ charOfCode? code = some c ∧ allows first c = true := by
  unfold escaped?
  split
  · next h =>
    rw [beq_iff_eq.1 h]
    refine iff_of_false nofun ?_
    rintro ⟨hc, ha⟩
    cases hc
    cases first <;> exact absurd ha (by decide)
  · exact Option.filter_eq_some_iff

/-- Reads a word in which any character may be escaped. An escape is malformed behind the `\` if no
`u` follows, behind the `u` if four digits do not, and else behind the digits. -/
def scanSpelled (first : Bool) : List Char → Scan (List Char)
  | [] => .read [] 0
  | '\\' :: 'u' :: a :: b :: c :: d :: cs =>
    match hexQuad? a b c d with
    | none => .malformed 2
    | some code =>
      match escaped? first code with
      | none => .malformed 6
      | some ch => ((scanSpelled false cs).map (ch :: ·)).after 6
  | '\\' :: 'u' :: _ => .malformed 2
  | '\\' :: _ => .malformed 1
  | c :: cs =>
    if allows first c then ((scanSpelled false cs).map (c :: ·)).after 1 else .read [] 0

/-- Reads a word. Its first character is known to open one, and a run of identifier characters goes with it,
unless an escape ends the run. -/
def scan : List Char → Scan (List Char)
  | [] => .read [] 0
  | c :: cs =>
    if c == '\\' then scanSpelled true (c :: cs)
    else
      let run := cs.takeWhile isIdentifierPart
      if (cs.drop run.length).head? == some '\\' then scanSpelled true (c :: cs)
      else .read (c :: run) (1 + run.length)

end Word

end EcmaTokens
