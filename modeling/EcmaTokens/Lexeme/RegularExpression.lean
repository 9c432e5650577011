/-
Regular expression literals: a body between slashes, and flags. A backslash takes the next
character with it, and a slash inside brackets does not close the body. The body ends on its line.
-/
import EcmaTokens.Source.Character
import EcmaTokens.Source.Scan

namespace EcmaTokens

namespace RegularExpression

/-- Reads the body up to and including the closing slash. Brackets do not nest. -/
def scanBody (inClass : Bool) : List Char → Scan Unit
  | [] => .malformed 0
  | c :: cs =>
    if isLineTerminator c then .malformed 0
    else if c == '\\' then
      match cs with
      | [] => .malformed 1
      | d :: ds => if isLineTerminator d then .malformed 1 else (scanBody inClass ds).after 2
    else if c == '[' then (scanBody true cs).after 1
    else if c == ']' then (scanBody false cs).after 1
    else if c == '/' && !inClass then .read () 1
    else (scanBody inClass cs).after 1

/-- The width of the flags: a run of identifier characters and backslashes. -/
def flagsWidth (cs : List Char) : Nat :=
  (cs.takeWhile fun c => c == '\\' || isIdentifierPart c).length

/-- Reads a literal from its opening slash. -/
def scan : List Char → Scan Unit
  | [] => .malformed 0
  | _ :: cs =>
    match scanBody false cs with
    | .malformed n => .malformed (1 + n)
    | .read () n => .read () (1 + n + flagsWidth (cs.drop n))

end RegularExpression

end EcmaTokens
