/-
A place in a source: its position, and the text that remains from there. Going forward moves
characters from the remaining text into the position and never loses one.
-/
import EcmaTokens.Source.Position

namespace EcmaTokens

structure Place where
  position : Position := {}
  rest : List Char
deriving DecidableEq, Repr

namespace Place

/-- The beginning of a source. -/
def start (source : List Char) : Place :=
  ⟨{}, source⟩

def offset (p : Place) : Nat :=
  p.position.offset

def location (p : Place) : Location :=
  p.position.location

/-- The place `n` characters further on. -/
def advance (p : Place) (n : Nat) : Place :=
  ⟨p.position.advance (p.rest.take n), p.rest.drop n⟩

/-- The place behind the whole remaining text. -/
def finish (p : Place) : Place :=
  ⟨p.position.advance p.rest, []⟩

@[simp] theorem rest_advance (p : Place) (n : Nat) : (p.advance n).rest = p.rest.drop n :=
  rfl

@[simp] theorem advance_zero (p : Place) : p.advance 0 = p := by
  cases p; simp [advance, Position.advance]

theorem offset_advance (p : Place) (n : Nat) :
    (p.advance n).offset = p.offset + utf8Length (p.rest.take n) :=
  Position.offset_advance _ _

/-- The bytes behind a place and the bytes in front of it make up the source. -/
theorem offset_add_rest (p : Place) (n : Nat) :
    (p.advance n).offset + utf8Length (p.advance n).rest = p.offset + utf8Length p.rest := by
  rw [offset_advance, rest_advance, Nat.add_assoc, ← utf8Length_append, List.take_append_drop]

end Place

end EcmaTokens
