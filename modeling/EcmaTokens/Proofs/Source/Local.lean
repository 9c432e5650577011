/-
Recognisers that look one character ahead. What such a recogniser reads at the front of a text it
reads from the same characters in front of any other text that begins alike, or with a separating
character, or is empty.
-/
import EcmaTokens.Source.Scan
import EcmaTokens.Proofs.Source.Text

namespace EcmaTokens

/-- The first `n` characters of the text are read, whatever follows them that can follow. -/
def Scan.Local {α : Type} (f : List Char → Scan α) (cs : List Char) (x : α) (n : Nat) : Prop :=
  ∃ front rest, cs = front ++ rest ∧ n = front.length ∧
    ∀ tail, Replaces rest tail → f (front ++ tail) = .read x n

namespace Scan

variable {α β : Type}

theorem map_eq_read {f : α → β} {s : Scan α} {y : β} {n : Nat} (h : s.map f = .read y n) :
    ∃ x, s = .read x n ∧ f x = y := by
  cases s with
  | read x m => cases h; exact ⟨x, rfl, rfl⟩
  | malformed m => cases h

theorem after_eq_read {k : Nat} {s : Scan α} {x : α} {n : Nat} (h : s.after k = .read x n) :
    ∃ m, s = .read x m ∧ n = k + m := by
  cases s with
  | read x m => cases h; exact ⟨m, rfl, rfl⟩
  | malformed m => cases h

theorem map_id (s : Scan α) : s.map id = s := by
  cases s <;> rfl

/-- What is read of a text is read with the first character in front. -/
theorem Local.cons {f : List Char → Scan α} {c : Char} {cs : List Char} {x : α} {n : Nat}
    (h : Local f (c :: cs) x n) (hn : 0 < n) :
    ∃ front rest, cs = front ++ rest ∧ n = front.length + 1 ∧
      ∀ tail, Replaces rest tail → f (c :: (front ++ tail)) = .read x n := by
  obtain ⟨front, rest, heq, rfl, hl⟩ := h
  cases front with
  | nil => exact absurd hn (by simp)
  | cons d front =>
    obtain ⟨rfl, rfl⟩ := List.cons.inj heq
    exact ⟨front, rest, rfl, rfl, hl⟩

/-- A recogniser that hands a text over to another one after a look at its first two characters. -/
theorem Local.of_dispatch {f : List Char → Scan α} {g : List Char → Scan β} {k : α → β} {c : Char}
    {cs : List Char} {x : α} {n : Nat} (h : Local f (c :: cs) x n) (hn : 0 < n)
    (hg : ∀ ds, Replaces cs ds → (2 ≤ n → ds.head? = cs.head?) → g (c :: ds) = (f (c :: ds)).map k) :
    Local g (c :: cs) (k x) n := by
  obtain ⟨front, rest, rfl, rfl, hl⟩ := h.cons hn
  refine ⟨c :: front, rest, rfl, rfl, ?_⟩
  intro tail ht
  rw [List.cons_append, hg _ (ht.append front), hl tail ht]
  · rfl
  · -- the second character is in front of the tail unless the lexeme is the first one alone
    intro h2
    cases front with
    | nil => simp at h2
    | cons e front => rfl

end Scan

end EcmaTokens
