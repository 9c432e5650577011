/-
Reserved words. Most are keywords in every mode, some of them without a use yet. In strict mode nine
more words are reserved; of these `let` and `yield` are keywords in other code as well, and the
other seven are plain identifiers there. `null`, `true` and `false` are literals and never keywords.
-/

namespace EcmaTokens

/-! ## Words -/

/-- A word reserved in every mode and without a use yet. -/
inductive ReservedWord where
  | «class» | enum | «export» | «extends» | «import» | super
deriving DecidableEq, Repr, Inhabited

namespace ReservedWord

def all : List ReservedWord :=
  [.«class», .enum, .«export», .«extends», .«import», .super]

def spelling : ReservedWord → String
  | .«class» => "class"
  | .enum => "enum"
  | .«export» => "export"
  | .«extends» => "extends"
  | .«import» => "import"
  | .super => "super"

end ReservedWord

/-- A word reserved in strict mode only. -/
inductive StrictWord where
  | implements | interface | «let» | package | «private» | «protected» | «public» | static | yield
deriving DecidableEq, Repr, Inhabited

namespace StrictWord

def all : List StrictWord :=
  [.implements, .interface, .«let», .package, .«private», .«protected», .«public», .static, .yield]

def spelling : StrictWord → String
  | .implements => "implements"
  | .interface => "interface"
  | .«let» => "let"
  | .package => "package"
  | .«private» => "private"
  | .«protected» => "protected"
  | .«public» => "public"
  | .static => "static"
  | .yield => "yield"

end StrictWord

/-- A keyword. `let` and `yield` stand for their use outside strict mode. -/
inductive Keyword where
  | «break» | «case» | «catch» | const | «continue» | debugger | «default» | delete | «do»
  | «else» | «finally» | «for» | function | «if» | «in» | instanceof | «let» | new | «return»
  | switch | this | throw | «try» | typeof | var | void | «while» | «with» | yield
  | reserved (word : ReservedWord)
  | strictReserved (word : StrictWord)
deriving DecidableEq, Repr, Inhabited

namespace Keyword

def spelling : Keyword → String
  | .«break» => "break"
  | .«case» => "case"
  | .«catch» => "catch"
  | .const => "const"
  | .«continue» => "continue"
  | .debugger => "debugger"
  | .«default» => "default"
  | .delete => "delete"
  | .«do» => "do"
  | .«else» => "else"
  | .«finally» => "finally"
  | .«for» => "for"
  | .function => "function"
  | .«if» => "if"
  | .«in» => "in"
  | .instanceof => "instanceof"
  | .«let» => "let"
  | .new => "new"
  | .«return» => "return"
  | .switch => "switch"
  | .this => "this"
  | .throw => "throw"
  | .«try» => "try"
  | .typeof => "typeof"
  | .var => "var"
  | .void => "void"
  | .«while» => "while"
  | .«with» => "with"
  | .yield => "yield"
  | .reserved word => word.spelling
  | .strictReserved word => word.spelling

/-- Reserved in every mode and without a use yet. -/
def isReserved : Keyword → Bool
  | .reserved _ => true
  | _ => false

/-- Reserved only because the code is strict. -/
def isStrictReserved : Keyword → Bool
  | .strictReserved _ => true
  | _ => false

/-! ## Resolution -/

/-- The keywords of every mode that have a use. -/
def plain : List Keyword :=
  [.«break», .«case», .«catch», .const, .«continue», .debugger, .«default», .delete, .«do»,
   .«else», .«finally», .«for», .function, .«if», .«in», .instanceof, .new, .«return», .switch,
   .this, .throw, .«try», .typeof, .var, .void, .«while», .«with»]

/-- The keywords of a mode. No two of one mode have the same spelling. -/
def ofMode (strict : Bool) : List Keyword :=
  plain ++ ReservedWord.all.map .reserved ++
    if strict then StrictWord.all.map .strictReserved else [.«let», .yield]

/-- The word is too short or too long for a keyword, which is seen without a look at its characters. -/
def isExcluded (word : String) : Bool :=
  word.utf8ByteSize == 1 || 10 < word.utf8ByteSize

/-- The keyword that a word is in a mode. -/
def ofWord? (strict : Bool) (word : String) : Option Keyword :=
  if isExcluded word then none else (ofMode strict).find? fun k => k.spelling == word

theorem isExcluded_spelling (k : Keyword) : isExcluded k.spelling = false := by
  cases k with
  | reserved word => cases word <;> decide
  | strictReserved word => cases word <;> decide
  | _ => decide

theorem two_le_length_spelling (k : Keyword) : 2 ≤ k.spelling.length := by
  cases k with
  | reserved word => cases word <;> decide
  | strictReserved word => cases word <;> decide
  | _ => decide

/-- A word that is excluded by its length is spelled like no keyword. -/
theorem ofWord?_eq_find? (strict : Bool) (word : String) :
    ofWord? strict word = (ofMode strict).find? fun k => k.spelling == word := by
  unfold ofWord?
  split
  · next h =>
    symm
    rw [List.find?_eq_none]
    intro k _ hk
    rw [← beq_iff_eq.1 hk, isExcluded_spelling] at h
    cases h
  · rfl

end Keyword

end EcmaTokens
