/-
Operators and punctuation. The catalogue lists each punctuator with its spelling; the punctuator at
the front of a text is found by its first character and up to three more, the longest one first.
-/

namespace EcmaTokens

inductive Punctuator where
  | leftParen | rightParen | leftBracket | rightBracket | leftBrace | rightBrace | colon
  | semicolon | dot | question | increment | decrement | assign | orAssign | xorAssign
  | andAssign | shiftLeftAssign | shiftRightAssign | unsignedShiftRightAssign | plusAssign
  | minusAssign | timesAssign | divideAssign | remainderAssign | comma | logicalOr | logicalAnd
  | bitOr | bitXor | bitAnd | shiftLeft | shiftRight | unsignedShiftRight | plus | minus | times
  | divide | remainder | equal | notEqual | strictEqual | strictNotEqual | less | greater
  | lessEqual | greaterEqual | logicalNot | bitNot
deriving DecidableEq, Repr, Inhabited

namespace Punctuator

/-! ## The catalogue -/

/-- Every punctuator: brackets and separators, updates, assignments, then operators. -/
def all : List Punctuator :=
  [.leftParen, .rightParen, .leftBracket, .rightBracket, .leftBrace, .rightBrace, .colon,
   .semicolon, .dot, .question, .increment, .decrement, .assign, .orAssign, .xorAssign,
   .andAssign, .shiftLeftAssign, .shiftRightAssign, .unsignedShiftRightAssign, .plusAssign,
   .minusAssign, .timesAssign, .divideAssign, .remainderAssign, .comma, .logicalOr, .logicalAnd,
   .bitOr, .bitXor, .bitAnd, .shiftLeft, .shiftRight, .unsignedShiftRight, .plus, .minus, .times,
   .divide, .remainder, .equal, .notEqual, .strictEqual, .strictNotEqual, .less, .greater,
   .lessEqual, .greaterEqual, .logicalNot, .bitNot]

def spelling : Punctuator → String
  | .leftParen => "("
  | .rightParen => ")"
  | .leftBracket => "["
  | .rightBracket => "]"
  | .leftBrace => "\x7b"
  | .rightBrace => "\x7d"
  | .colon => ":"
  | .semicolon => ";"
  | .dot => "."
  | .question => "?"
  | .increment => "++"
  | .decrement => "--"
  | .assign => "="
  | .orAssign => "|="
  | .xorAssign => "^="
  | .andAssign => "&="
  | .shiftLeftAssign => "<<="
  | .shiftRightAssign => ">>="
  | .unsignedShiftRightAssign => ">>>="
  | .plusAssign => "+="
  | .minusAssign => "-="
  | .timesAssign => "*="
  | .divideAssign => "/="
  | .remainderAssign => "%="
  | .comma => ","
  | .logicalOr => "||"
  | .logicalAnd => "&&"
  | .bitOr => "|"
  | .bitXor => "^"
  | .bitAnd => "&"
  | .shiftLeft => "<<"
  | .shiftRight => ">>"
  | .unsignedShiftRight => ">>>"
  | .plus => "+"
  | .minus => "-"
  | .times => "*"
  | .divide => "/"
  | .remainder => "%"
  | .equal => "=="
  | .notEqual => "!="
  | .strictEqual => "==="
  | .strictNotEqual => "!=="
  | .less => "<"
  | .greater => ">"
  | .lessEqual => "<="
  | .greaterEqual => ">="
  | .logicalNot => "!"
  | .bitNot => "~"

/-- The length of the spelling. Spellings are ASCII, so characters and bytes agree. -/
def width (p : Punctuator) : Nat :=
  p.spelling.length

theorem width_pos (p : Punctuator) : 0 < p.width := by
  cases p <;> decide

/-- The two punctuators at which a regular expression can begin instead. -/
def isSlash (p : Punctuator) : Bool :=
  p == .divide || p == .divideAssign

/-! ## Recognition -/

/-- The punctuator that one character spells. -/
def ofChar? : Char → Option Punctuator
  | '!' => some .logicalNot
  | '%' => some .remainder
  | '&' => some .bitAnd
  | '(' => some .leftParen
  | ')' => some .rightParen
  | '*' => some .times
  | '+' => some .plus
  | ',' => some .comma
  | '-' => some .minus
  | '.' => some .dot
  | '/' => some .divide
  | ':' => some .colon
  | ';' => some .semicolon
  | '<' => some .less
  | '=' => some .assign
  | '>' => some .greater
  | '?' => some .question
  | '[' => some .leftBracket
  | ']' => some .rightBracket
  | '^' => some .bitXor
  | '{' => some .leftBrace
  | '|' => some .bitOr
  | '}' => some .rightBrace
  | '~' => some .bitNot
  | _ => none

/-- The character begins a punctuator and nothing else. A dot can also begin a number. -/
def isOpenedBy (c : Char) : Bool :=
  c != '.' && (ofChar? c).isSome

/-- The character begins no punctuator but itself. -/
def standsAlone (c : Char) : Bool :=
  c == '.' || c == '(' || c == ')' || c == ';' || c == ',' || c == '{' || c == '}' || c == '[' || c == ']' ||
  c == ':' || c == '?' || c == '~'

/-- The punctuator that a character and an equality sign begin, in front of what follows. -/
def withEquals? (c : Char) (cs : List Char) : Option Punctuator :=
  let third := cs.head? == some '='
  match c with
  | '=' => some (if third then .strictEqual else .equal)
  | '!' => some (if third then .strictNotEqual else .notEqual)
  | '|' => some .orAssign
  | '+' => some .plusAssign
  | '-' => some .minusAssign
  | '*' => some .timesAssign
  | '<' => some .lessEqual
  | '>' => some .greaterEqual
  | '/' => some .divideAssign
  | '%' => some .remainderAssign
  | '^' => some .xorAssign
  | '&' => some .andAssign
  | _ => none

/-- The punctuator that a character written twice begins, in front of what follows. -/
def doubled? (c : Char) (cs : List Char) : Option Punctuator :=
  match c, cs with
  | '>', '>' :: '=' :: _ => some .unsignedShiftRightAssign
  | '>', '>' :: _ => some .unsignedShiftRight
  | '<', '=' :: _ => some .shiftLeftAssign
  | '>', '=' :: _ => some .shiftRightAssign
  | '+', _ => some .increment
  | '-', _ => some .decrement
  | '<', _ => some .shiftLeft
  | '>', _ => some .shiftRight
  | '&', _ => some .logicalAnd
  | '|', _ => some .logicalOr
  | _, _ => none

/-- The longest punctuator at the front of a text. What an equality sign behind the first character makes is
tried first, then what the same character again makes, then the character by itself. -/
def longest? : List Char → Option Punctuator
  | [] => none
  | c :: cs =>
    if standsAlone c then ofChar? c
    else
      let behind (d : Char) (form? : Char → List Char → Option Punctuator) : Option Punctuator :=
        if cs.head? == some d then form? c cs.tail else none
      (behind '=' withEquals?).or ((behind c doubled?).or (ofChar? c))

end Punctuator

end EcmaTokens
