/-
Diagnostics: what is wrong, and where, with lines and columns counted from one. Either a part of the
source is malformed, or a well-formed token stands where its reader did not expect it.
-/
import EcmaTokens.Diagnostic.Message
import EcmaTokens.Diagnostic.Template
import EcmaTokens.Token.Basic

namespace EcmaTokens

inductive DiagnosticKind where
  /-- Malformed text. -/
  | illegalLexeme
  /-- A well-formed token in the wrong place. -/
  | unexpectedToken
deriving DecidableEq, Repr, Inhabited

structure Diagnostic where
  kind : DiagnosticKind
  index : Nat
  line : Nat
  column : Nat
  description : String
deriving DecidableEq, Repr, Inhabited

namespace Diagnostic

def isIllegal (d : Diagnostic) : Bool :=
  d.kind == .illegalLexeme

/-- The description behind its line and column. -/
def message (d : Diagnostic) : String :=
  "[" ++ Nat.repr d.line ++ ":" ++ Nat.repr d.column ++ "]: " ++ d.description

/-- The diagnostic with a rendered template for its description. -/
def ofTemplate (kind : DiagnosticKind) (index line column : Nat) (template : String)
    (arg : Option String) : Diagnostic :=
  ⟨kind, index, line, column, Template.render template arg⟩

/-- The diagnostic at a location. -/
def atLocation (kind : DiagnosticKind) (loc : Location) (template : String)
    (arg : Option String) : Diagnostic :=
  ofTemplate kind loc.offset (loc.line + 1) (loc.column + 1) template arg

/-- Malformed text at a location. -/
def malformed (loc : Location) (m : Message) : Diagnostic :=
  atLocation .illegalLexeme loc m.template none

/-! ## Unexpected tokens -/

/-- What to say of a token that was not expected, and the spelling to say it with. -/
def unexpectedMessage (kind : Kind) : Message × Option String :=
  match kind with
  | .eof => (.unexpectedEnd, none)
  | .number _ _ => (.unexpectedNumber, none)
  | .string _ _ => (.unexpectedString, none)
  | .identifier _ => (.unexpectedIdentifier, none)
  | .keyword (.reserved _) => (.unexpectedReservedWord, none)
  | .keyword (.strictReserved _) => (.strictReservedWord, none)
  | _ => (.unexpectedToken, some (if kind.value.isEmpty then kind.tag.display else kind.value))

/-- The diagnostic of a token that was not expected, at its own location. -/
def unexpected (t : Token) : Diagnostic :=
  let (m, arg) := unexpectedMessage t.kind
  atLocation .unexpectedToken t.location m.template arg

end Diagnostic

end EcmaTokens
