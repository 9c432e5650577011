/-
What a recogniser reports of the text in front of it: the value it read, or that the text is
malformed, and in both cases how many characters it went over. The characters it went over are
always the first ones of the text, so a recogniser never needs to return the rest.
-/

namespace EcmaTokens

/-- The outcome of reading the front of a text. -/
inductive Scan (α : Type) where
  /-- The first `width` characters were read and mean `value`. -/
  | read (value : α) (width : Nat)
  /-- The text is malformed behind its first `width` characters. -/
  | malformed (width : Nat)
deriving DecidableEq, Repr

namespace Scan

/-- How many characters the recogniser went over. -/
def width {α : Type} : Scan α → Nat
  | read _ n => n
  | malformed n => n

/-- Changes the value that was read. -/
def map {α β : Type} (f : α → β) : Scan α → Scan β
  | read a n => read (f a) n
  | malformed n => malformed n

/-- The same outcome for a text with `k` more characters in front. -/
def after {α : Type} (k : Nat) : Scan α → Scan α
  | read a n => read a (k + n)
  | malformed n => malformed (k + n)

@[simp] theorem width_map {α β : Type} (f : α → β) (s : Scan α) : (s.map f).width = s.width := by
  cases s <;> rfl

@[simp] theorem width_after {α : Type} (k : Nat) (s : Scan α) :
    (s.after k).width = k + s.width := by
  cases s <;> rfl

theorem read_of_map {α β : Type} {f : α → β} {s : Scan α} {y : β} {n : Nat}
    (h : s.map f = read y n) : ∃ x, s = read x n := by
  cases s with
  | read x m => cases h; exact ⟨x, rfl⟩
  | malformed m => cases h

theorem le_of_after {α : Type} {k : Nat} {s : Scan α} {x : α} {n : Nat}
    (h : s.after k = read x n) : k ≤ n := by
  cases s with
  | read y m => cases h; omega
  | malformed m => cases h

end Scan

end EcmaTokens
