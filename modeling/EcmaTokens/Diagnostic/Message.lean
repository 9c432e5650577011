/-
The messages of diagnostics, with the wording of each.
-/

namespace EcmaTokens

inductive Message where
  | unexpectedToken
  | illegalToken
  | unexpectedNumber
  | unexpectedString
  | unexpectedIdentifier
  | unexpectedReservedWord
  | unexpectedEnd
  | strictReservedWord
  | unterminatedRegExp
deriving DecidableEq, Repr, Inhabited

namespace Message

def all : List Message :=
  [.unexpectedToken, .illegalToken, .unexpectedNumber, .unexpectedString, .unexpectedIdentifier,
   .unexpectedReservedWord, .unexpectedEnd, .strictReservedWord, .unterminatedRegExp]

/-- The wording, with a placeholder where the spelling of a token belongs. -/
def template : Message → String
  | .unexpectedToken => "Unexpected token \x7b0\x7d"
  | .illegalToken => "Unexpected token ILLEGAL"
  | .unexpectedNumber => "Unexpected number"
  | .unexpectedString => "Unexpected string"
  | .unexpectedIdentifier => "Unexpected identifier"
  | .unexpectedReservedWord => "Unexpected reserved word"
  | .unexpectedEnd => "Unexpected end of input"
  | .strictReservedWord => "Use of future reserved word in strict mode"
  | .unterminatedRegExp => "Invalid regular expression: missing /"

end Message

end EcmaTokens
