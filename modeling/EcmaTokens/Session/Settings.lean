/-
Settings of a session, and how they are written down: as named flags, or as a list of flags in the
order of the fields. A flag that is left out has its default, and a name that means nothing is
ignored; a flag that is not a truth value, or one too many in a list, makes the whole unreadable.
-/

namespace EcmaTokens

structure Settings where
  /-- Words are resolved as in strict mode. -/
  strict : Bool := false
  /-- `<!--` and, at the start of a line, `-->` begin a comment to the end of the line. -/
  htmlComments : Bool := true
deriving DecidableEq, Repr, Inhabited

namespace Settings

/-- The settings for strict code. -/
def forStrictCode : Settings :=
  { strict := true }

/-- A written value where a flag is expected; `none` stands for anything but a truth value. -/
abbrev Written := Option Bool

/-- Reads one flag among named ones. -/
def flag? (fields : List (String × Written)) (name : String) (default : Bool) : Option Bool :=
  (fields.lookup name).getD (some default)

/-- Reads named flags. -/
def ofFields? (fields : List (String × Written)) : Option Settings := do
  let strict ← flag? fields "strict" false
  let htmlComments ← flag? fields "tolerate_html_comments" true
  return ⟨strict, htmlComments⟩

/-- Reads listed flags. -/
def ofList? : List Written → Option Settings
  | [] => some {}
  | [some strict] => some { strict }
  | [some strict, some htmlComments] => some ⟨strict, htmlComments⟩
  | _ => none

end Settings

end EcmaTokens
