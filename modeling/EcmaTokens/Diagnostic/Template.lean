/-
Message templates. A placeholder is a pair of braces around one or more digits, whatever number
they spell. Rendering puts the argument in place of every placeholder and keeps all other text;
the argument itself is never searched for placeholders.
-/
import EcmaTokens.Source.Character

namespace EcmaTokens

namespace Template

/-- The length of the digits if the text behind an opening brace completes a placeholder. -/
def placeholderDigits? (cs : List Char) : Option Nat :=
  let n := (cs.takeWhile isDecimalDigit).length
  if n != 0 && (cs.drop n).head? == some '}' then some n else none

/-- Puts the argument in place of each placeholder. -/
def fill (arg : List Char) : List Char → List Char
  | [] => []
  | c :: cs =>
    if c == '{' then
      match placeholderDigits? cs with
      | some n => arg ++ fill arg (cs.drop (n + 1))
      | none => c :: fill arg cs
    else c :: fill arg cs
termination_by cs => cs.length

/-- The template with its placeholders replaced; without an argument they are removed. -/
def render (template : String) (arg : Option String) : String :=
  String.ofList (fill (arg.getD "").toList template.toList)

end Template

end EcmaTokens
