/-
Tokens: a kind, and where and how it is written in the source.
-/
import EcmaTokens.Source.Position
import EcmaTokens.Token.Kind

namespace EcmaTokens

structure Token where
  kind : Kind
  span : Span
  location : Location
  /-- The part of the source that the span covers. -/
  text : String
deriving DecidableEq, Repr, Inhabited

namespace Token

def tag (t : Token) : TokenTag :=
  t.kind.tag

def tokenClass (t : Token) : TokenClass :=
  t.kind.tokenClass

def value (t : Token) : String :=
  t.kind.value

def isEof (t : Token) : Bool :=
  t.kind.isEof

def isLegacyOctal (t : Token) : Bool :=
  t.kind.isLegacyOctal

def isPunctuator (t : Token) (p : Punctuator) : Bool :=
  t.kind == .punctuator p

/-- The class, and the text between backquotes unless it is empty. -/
def display (t : Token) : String :=
  if t.text.isEmpty then t.tokenClass.name
  else t.tokenClass.name ++ " `" ++ t.text ++ "`"

end Token

end EcmaTokens
