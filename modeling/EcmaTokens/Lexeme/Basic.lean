/-
Lexemes: what a text begins with, once the gap in front is gone. The first character, or the first
two for a dot, decide which recogniser reads on. Nothing here depends on strict mode, which only
decides what a word means.
-/
import EcmaTokens.Lexeme.Numeral
import EcmaTokens.Lexeme.Quoted
import EcmaTokens.Lexeme.Word
import EcmaTokens.Token.Kind

namespace EcmaTokens

inductive Lexeme where
  | word (name : List Char)
  | numeral (numeral : Numeral)
  | quoted (quoted : Quoted)
  | punctuator (punctuator : Punctuator)
deriving Repr

namespace Lexeme

/-- Reads the longest punctuator. -/
def scanPunctuator (cs : List Char) : Scan Lexeme :=
  match Punctuator.longest? cs with
  | some p => .read (.punctuator p) p.width
  | none => .malformed 0

/-- Reads the lexeme at the front of a text. -/
def scan [WideConversion] : List Char → Scan Lexeme
  | [] => .malformed 0
  | c :: cs =>
    if Punctuator.isOpenedBy c then scanPunctuator (c :: cs)
    else if opensWord c then (Word.scan (c :: cs)).map word
    else if c == '.' && !cs.head?.any isDecimalDigit then scanPunctuator (c :: cs)
    else if c == '.' || isDecimalDigit c then (Numeral.scan (c :: cs)).map numeral
    else if c == '"' || c == '\'' then (Quoted.scan (c :: cs)).map quoted
    else .malformed 0

/-- The kind of token that a lexeme is in a mode. -/
def kind (strict : Bool) : Lexeme → Kind
  | word name => .ofWord strict (String.ofList name)
  | numeral x => .number x.value x.legacyOctal
  | quoted x => .string x.value x.legacyOctal
  | punctuator p => .punctuator p

end Lexeme

end EcmaTokens
