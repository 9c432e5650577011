/-
Kinds of tokens. A kind carries what was read: a name, a keyword, a number, the contents of a
string. Forgetting the varying contents leaves the tag, and forgetting which keyword, punctuator or
truth value it is leaves the class.
-/
import EcmaTokens.Number.Text
import EcmaTokens.Token.Keyword
import EcmaTokens.Token.Punctuator

namespace EcmaTokens

/-! ## Classes -/

inductive TokenClass where
  | eof | identifier | keyword | null | boolean | number | string | regExp | punctuator | illegal
deriving DecidableEq, Repr, Inhabited

def TokenClass.name : TokenClass → String
  | .eof => "<End>"
  | .identifier => "Identifier"
  | .keyword => "Keyword"
  | .null => "Null"
  | .boolean => "Boolean"
  | .number => "Numeric"
  | .string => "String"
  | .regExp => "RegularExpression"
  | .punctuator => "Punctuator"
  | .illegal => "Illegal"

/-! ## Tags -/

/-- What a token is, without the contents that differ from token to token. -/
inductive TokenTag where
  | eof
  | punctuator (punctuator : Punctuator)
  | keyword (keyword : Keyword)
  | null
  | boolean (value : Bool)
  | number
  | string
  | regExp
  | identifier
  | illegal
deriving DecidableEq, Repr, Inhabited

/-- The spelling of a truth value. -/
def booleanText (b : Bool) : String :=
  if b then "true" else "false"

namespace TokenTag

def tokenClass : TokenTag → TokenClass
  | .eof => .eof
  | .punctuator _ => .punctuator
  | .keyword _ => .keyword
  | .null => .null
  | .boolean _ => .boolean
  | .number => .number
  | .string => .string
  | .regExp => .regExp
  | .identifier => .identifier
  | .illegal => .illegal

/-- The fixed spelling, empty where it differs from token to token. -/
def name : TokenTag → String
  | .eof => "EOS"
  | .punctuator p => p.spelling
  | .keyword k => k.spelling
  | .null => "null"
  | .boolean b => booleanText b
  | .number | .string | .regExp | .identifier | .illegal => ""

/-- The fixed spelling, or else the name of the class. -/
def display (t : TokenTag) : String :=
  if t.name.isEmpty then t.tokenClass.name else t.name

end TokenTag

/-! ## Kinds -/

inductive Kind where
  | eof
  /-- The name has its escapes decoded. -/
  | identifier (name : String)
  | keyword (keyword : Keyword)
  | null
  | boolean (value : Bool)
  /-- The flag says that the number is written with a leading zero in base eight. -/
  | number (value : Binary64) (legacyOctal : Bool)
  /-- The contents have their escapes decoded; the flag says that one of them is octal. -/
  | string (value : String) (legacyOctal : Bool)
  /-- The literal as written, flags included. -/
  | regExp (text : String)
  | punctuator (punctuator : Punctuator)
  /-- Stands for malformed text. Reading a source reports such text and never yields this kind. -/
  | illegal
deriving DecidableEq, Repr, Inhabited

namespace Kind

def tag : Kind → TokenTag
  | .eof => .eof
  | .identifier _ => .identifier
  | .keyword k => .keyword k
  | .null => .null
  | .boolean b => .boolean b
  | .number _ _ => .number
  | .string _ _ => .string
  | .regExp _ => .regExp
  | .punctuator p => .punctuator p
  | .illegal => .illegal

def tokenClass (k : Kind) : TokenClass :=
  k.tag.tokenClass

def isEof : Kind → Bool
  | .eof => true
  | _ => false

/-- Pending, it can be read again as a regular expression. -/
def isSlash : Kind → Bool
  | .punctuator p => p.isSlash
  | _ => false

/-- A number or a string in which an octal form of older editions occurs. -/
def isLegacyOctal : Kind → Bool
  | .number _ octal => octal
  | .string _ octal => octal
  | _ => false

/-- The decoded value: a name, the contents of a string, the text of a number, and for the rest
the fixed spelling. -/
def value : Kind → String
  | .eof | .illegal => ""
  | .identifier name => name
  | .keyword k => k.spelling
  | .null => "null"
  | .boolean b => booleanText b
  | .number x _ => x.text
  | .string s _ => s
  | .regExp text => text
  | .punctuator p => p.spelling

/-- The kind of a word: a keyword of the mode, a literal, or else an identifier. A single character is an
identifier without further ado. -/
def ofWord (strict : Bool) (word : String) : Kind :=
  if word.length < 2 then .identifier word
  else match Keyword.ofWord? strict word with
    | some k => .keyword k
    | none =>
      if word == "null" then .null
      else if word == "true" then .boolean true
      else if word == "false" then .boolean false
      else .identifier word

/-- No single character is a keyword or a literal. -/
theorem ofWord_eq_lookup (strict : Bool) (word : String) :
    ofWord strict word = match Keyword.ofWord? strict word with
      | some k => .keyword k
      | none =>
        if word == "null" then .null
        else if word == "true" then .boolean true
        else if word == "false" then .boolean false
        else .identifier word := by
  unfold ofWord
  split
  · next h =>
    have long : ∀ text : String, 2 ≤ text.length → (word == text) = false := by
      intro text ht
      rw [beq_eq_false_iff_ne]
      rintro rfl
      omega
    have hnone : Keyword.ofWord? strict word = none := by
      rw [Keyword.ofWord?_eq_find?, List.find?_eq_none]
      intro k _ hk
      have := k.two_le_length_spelling
      rw [beq_iff_eq.1 hk] at this
      omega
    rw [hnone, long "null" (by decide), long "true" (by decide), long "false" (by decide)]
    rfl
  · rfl

end Kind

end EcmaTokens
