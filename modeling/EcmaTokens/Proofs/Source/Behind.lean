/-
A position is a function of the text in front of it. The line is the number of line terminators
there and the line starts behind the last of them, so a position reached in steps is the position
behind the whole text, unless a step ends between a carriage return and its line feed.
-/
import EcmaTokens.Source.Place
import Mathlib.Data.List.DropRight

namespace EcmaTokens

/-! ## Lines of a text -/

/-- The text up to and including its last line terminator. -/
def closedLines (cs : List Char) : List Char :=
  cs.rdropWhile fun c => !isLineTerminator c

/-- The text behind its last line terminator. -/
def openLine (cs : List Char) : List Char :=
  cs.rtakeWhile fun c => !isLineTerminator c

theorem closedLines_append_openLine (cs : List Char) : closedLines cs ++ openLine cs = cs :=
  List.rdropWhile_append_rtakeWhile

theorem closedLines_eq_nil {cs : List Char} (h : hasLineTerminator cs = false) : closedLines cs = [] := by
  rw [closedLines, List.rdropWhile_eq_nil_iff]
  intro c hc
  simpa using List.any_eq_false.1 h c hc

theorem closedLines_cons (c : Char) (cs : List Char) :
    closedLines (c :: cs) = if hasLineTerminator (c :: cs) then c :: closedLines cs else [] := by
  split
  · next h =>
    simp only [closedLines, List.rdropWhile, List.reverse_cons, List.dropWhile_append]
    cases hcs : hasLineTerminator cs with
    | true =>
      have hne : (cs.reverse.dropWhile fun c => !isLineTerminator c).isEmpty = false := by
        rw [List.isEmpty_eq_false_iff, ne_eq, List.dropWhile_eq_nil_iff]
        obtain ⟨d, hd, ht⟩ := List.any_eq_true.1 hcs
        intro hall
        simpa [ht] using hall d (List.mem_reverse.2 hd)
      simp [hne]
    | false =>
      have hc : isLineTerminator c = true := by
        have : (isLineTerminator c || hasLineTerminator cs) = true := by simpa [hasLineTerminator] using h
        simpa [hcs] using this
      have hnil : (cs.reverse.dropWhile fun c => !isLineTerminator c) = [] := by
        simpa [closedLines, List.rdropWhile] using closedLines_eq_nil hcs
      simp [hnil, hc]
  · next h => exact closedLines_eq_nil (by simpa using h)

theorem utf8Length_pos {cs : List Char} (h : cs ≠ []) : 0 < utf8Length cs := by
  cases cs with
  | nil => exact absurd rfl h
  | cons c cs => have := c.utf8Size_pos; rw [utf8Length_cons]; omega

theorem utf8Length_closedLines_pos {cs : List Char} (h : hasLineTerminator cs = true) :
    0 < utf8Length (closedLines cs) := by
  cases cs with
  | nil => cases h
  | cons c cs =>
    rw [closedLines_cons, if_pos h]
    exact utf8Length_pos (List.cons_ne_nil c _)

theorem lineCount_eq_zero_iff {cs : List Char} : lineCount cs = 0 ↔ hasLineTerminator cs = false := by
  fun_induction lineCount cs with
  | case1 => exact ⟨fun _ => rfl, fun _ => rfl⟩
  | case2 cs =>
    constructor
    · intro h; omega
    · intro h; cases h
  | case3 c cs _ hc =>
    have h : hasLineTerminator (c :: cs) = true := by simp [hasLineTerminator, hc]
    rw [h]
    constructor
    · intro h; omega
    · intro h; cases h
  | case4 c cs _ hc ih =>
    have h : hasLineTerminator (c :: cs) = hasLineTerminator cs := by simp [hasLineTerminator, hc]
    rw [h]; exact ih

/-! ## Positions behind a text -/

/-- The position behind a text: its lines, where the last one starts, and its bytes. -/
def Position.behind (cs : List Char) : Position :=
  ⟨lineCount cs, utf8Length (closedLines cs), utf8Length cs⟩

/-- The location behind a text: its lines, the bytes of the last one, and all its bytes. -/
def Location.behind (cs : List Char) : Location :=
  ⟨lineCount cs, utf8Length (openLine cs), utf8Length cs⟩

theorem utf8Length_lines (cs : List Char) :
    utf8Length (closedLines cs) + utf8Length (openLine cs) = utf8Length cs := by
  rw [← utf8Length_append, closedLines_append_openLine]

theorem Position.location_behind (cs : List Char) : (behind cs).location = .behind cs := by
  have := utf8Length_lines cs
  simp only [location, behind, Location.behind, Location.mk.injEq, true_and, and_true]
  omega

theorem Position.lineStart_behind_le (cs : List Char) : (behind cs).lineStart ≤ (behind cs).offset := by
  have := utf8Length_lines cs
  simp only [behind]
  omega

theorem Position.lineStart_advance (p : Position) (cs : List Char) :
    (p.advance cs).lineStart =
      if hasLineTerminator cs then p.offset + utf8Length (closedLines cs) else p.lineStart := by
  fun_induction p.advance cs with
  | case1 p => rfl
  | case2 p cs ih =>
    -- the line starts behind the last terminator of `cs`, or behind this pair if `cs` has none
    rw [ih, if_pos (show hasLineTerminator ('\r' :: '\n' :: cs) = true from rfl), closedLines_cons,
      if_pos (show hasLineTerminator ('\r' :: '\n' :: cs) = true from rfl), closedLines_cons,
      if_pos (show hasLineTerminator ('\n' :: cs) = true from rfl)]
    have hr : '\r'.utf8Size = 1 := by decide
    have hn : '\n'.utf8Size = 1 := by decide
    simp only [newLine, utf8Length_cons, hr, hn]
    split
    · omega
    · next h => rw [closedLines_eq_nil (by simpa using h), utf8Length_nil]
  | case3 p c cs _ hc ih =>
    have h : hasLineTerminator (c :: cs) = true := by simp [hasLineTerminator, hc]
    rw [ih, if_pos h, closedLines_cons, if_pos h]
    simp only [newLine, utf8Length_cons]
    split
    · omega
    · next h => rw [closedLines_eq_nil (by simpa using h), utf8Length_nil]; omega
  | case4 p c cs _ hc ih =>
    have h : hasLineTerminator (c :: cs) = hasLineTerminator cs := by simp [hasLineTerminator, hc]
    rw [ih, h, closedLines_cons, h]
    split
    · simp only [along, utf8Length_cons]; omega
    · rfl

/-- Going over a text without line terminators stays on the line. -/
theorem Position.same_line (p : Position) {cs : List Char} (h : hasLineTerminator cs = false) :
    (p.advance cs).line = p.line ∧ (p.advance cs).lineStart = p.lineStart := by
  rw [line_advance, lineCount_eq_zero_iff.2 h, lineStart_advance, h]
  exact ⟨rfl, rfl⟩

/-- Going over a text from the start of a source leads to the position behind it. -/
theorem Position.advance_start (cs : List Char) : ({} : Position).advance cs = .behind cs := by
  have h := lineStart_advance {} cs
  have hnil : hasLineTerminator cs = false → closedLines cs = [] := closedLines_eq_nil
  cases hp : ({} : Position).advance cs with
  | mk line lineStart offset =>
    have hl := line_advance {} cs
    have ho := offset_advance {} cs
    rw [hp] at h hl ho
    simp only [behind, Position.mk.injEq]
    refine ⟨by simpa using hl, ?_, by simpa using ho⟩
    cases ht : hasLineTerminator cs with
    | false =>
      rw [ht, if_neg (by simp)] at h
      rw [hnil ht]
      exact h
    | true =>
      rw [ht, if_pos rfl] at h
      simpa using h

/-! ## Seams -/

/-- Two texts meet without a carriage return and its line feed on either side. -/
def Seam (a b : List Char) : Prop :=
  ¬ (a.getLast? = some '\r' ∧ b.head? = some '\n')

theorem Seam.nil_left (b : List Char) : Seam [] b := by simp [Seam]

theorem Seam.nil_right (a : List Char) : Seam a [] := by simp [Seam]

theorem Seam.of_cons {c : Char} {a b : List Char} (h : Seam (c :: a) b) : Seam a b := by
  cases a with
  | nil => exact nil_left b
  | cons d ds => simpa [Seam] using h

theorem Seam.of_append {a b c : List Char} (h : Seam a (b ++ c)) : Seam a b := by
  cases b with
  | nil => exact nil_right a
  | cons d ds => exact h

theorem Seam.append {a b c : List Char} (h₁ : Seam a (b ++ c)) (h₂ : Seam b c) : Seam (a ++ b) c := by
  rcases List.eq_nil_or_concat b with rfl | ⟨b, d, rfl⟩
  · simpa using h₁
  · simpa [Seam, List.concat_eq_append] using h₂

/-- The position behind two texts that meet in a seam. -/
theorem Position.advance_append {a b : List Char} (h : Seam a b) (p : Position) :
    p.advance (a ++ b) = (p.advance a).advance b := by
  fun_induction p.advance a with
  | case1 p => rfl
  | case2 p cs ih => simpa [advance] using ih h.of_cons.of_cons
  | case3 p c cs hn hc ih =>
    rw [List.cons_append, advance, if_pos hc]
    · exact ih h.of_cons
    · -- the line feed of a pair would be the head of `b`
      rintro ds rfl heq
      cases cs with
      | nil => exact h ⟨rfl, by simpa using congrArg List.head? heq⟩
      | cons d ds' => exact hn ds' rfl (by rw [(List.cons.inj heq).1])
  | case4 p c cs hn hc ih =>
    rw [List.cons_append, advance, if_neg hc]
    · exact ih h.of_cons
    · rintro ds rfl
      exact absurd (by decide) hc

theorem Position.behind_append {a b : List Char} (h : Seam a b) : behind (a ++ b) = (behind a).advance b := by
  rw [← advance_start, advance_append h, advance_start]

/-- Taking `n` characters off a text leaves no line feed behind its carriage return. -/
def CutsClean (cs : List Char) (n : Nat) : Prop :=
  Seam (cs.take n) (cs.drop n)

namespace CutsClean

theorem zero (cs : List Char) : CutsClean cs 0 := Seam.nil_left _

theorem add {cs : List Char} {k n : Nat} (h₁ : CutsClean cs k) (h₂ : CutsClean (cs.drop k) n) :
    CutsClean cs (k + n) := by
  rw [CutsClean, List.take_add, ← List.drop_drop]
  refine Seam.append ?_ h₂
  rw [List.take_append_drop]
  exact h₁

theorem cons {c : Char} {cs : List Char} {n : Nat} (h : CutsClean cs n) (hc : c ≠ '\r') :
    CutsClean (c :: cs) (1 + n) :=
  add (by simp [CutsClean, Seam, hc]) (by simpa using h)

/-- A text without line terminators ends in no carriage return. -/
theorem of_lineFree {cs : List Char} {n : Nat} (h : hasLineTerminator (cs.take n) = false) :
    CutsClean cs n := by
  rintro ⟨hr, -⟩
  have := List.any_eq_false.1 h '\r' (List.mem_of_getLast? hr)
  exact this (by decide)

end CutsClean

/-! ## Places of a source -/

theorem Place.advance_of_rest_nil {p : Place} (h : p.rest = []) (n : Nat) : p.advance n = p := by
  rcases p with ⟨position, rest⟩
  obtain rfl : rest = [] := h
  simp [Place.advance, Position.advance]

/-- The further one goes, the greater the offset. -/
theorem Place.offset_advance_mono (p : Place) {m n : Nat} (h : m ≤ n) :
    (p.advance m).offset ≤ (p.advance n).offset := by
  obtain ⟨cs, hcs⟩ := List.take_prefix_take_left (l := p.rest) h
  rw [offset_advance, offset_advance, ← hcs, utf8Length_append]
  omega

/-- Going forward twice, if the first time leaves no line feed behind its carriage return. -/
theorem Place.advance_add {p : Place} {m : Nat} (h : CutsClean p.rest m) (n : Nat) :
    p.advance (m + n) = (p.advance m).advance n := by
  have hs : Seam (p.rest.take m) ((p.rest.drop m).take n) := by
    refine Seam.of_append (c := (p.rest.drop m).drop n) ?_
    rw [List.take_append_drop]
    exact h
  simp only [Place.advance, List.take_add, Position.advance_append hs, List.drop_drop]

/-- The place with another text behind the remaining one. -/
def Place.append (p : Place) (tail : List Char) : Place :=
  ⟨p.position, p.rest ++ tail⟩

@[simp] theorem Place.rest_append (p : Place) (tail : List Char) : (p.append tail).rest = p.rest ++ tail :=
  rfl

@[simp] theorem Place.offset_append (p : Place) (tail : List Char) : (p.append tail).offset = p.offset :=
  rfl

/-- Going forward in the remaining text, whatever comes behind it. -/
theorem Place.append_advance {p : Place} {n : Nat} (hn : n ≤ p.rest.length) (tail : List Char) :
    (p.append tail).advance n = (p.advance n).append tail := by
  simp only [advance, append, List.take_append_of_le_length hn, List.drop_append_of_le_length hn]

/-- The place stands in the source behind the text `before`, and in no pair of carriage return and
line feed. -/
structure Place.Behind (source before : List Char) (p : Place) : Prop where
  eq_append : source = before ++ p.rest
  seam : Seam before p.rest
  position : p.position = .behind before

namespace Place.Behind

variable {source before : List Char} {p : Place}

theorem start (source : List Char) : (Place.start source).Behind source [] :=
  ⟨rfl, Seam.nil_left _, rfl⟩

theorem advance (h : p.Behind source before) {n : Nat} (hn : CutsClean p.rest n) :
    (p.advance n).Behind source (before ++ p.rest.take n) := by
  have hs : Seam before (p.rest.take n ++ p.rest.drop n) := by
    rw [List.take_append_drop]; exact h.seam
  refine ⟨?_, hs.append hn, ?_⟩
  · rw [List.append_assoc, rest_advance, List.take_append_drop]; exact h.eq_append
  · rw [Position.behind_append hs.of_append, ← h.position]; rfl

theorem finish (h : p.Behind source before) : p.finish.Behind source source := by
  refine ⟨by simp [Place.finish], Seam.nil_right _, ?_⟩
  rw [Place.finish, h.position, ← Position.behind_append h.seam, ← h.eq_append]

theorem offset_eq (h : p.Behind source before) : p.offset = utf8Length before := by
  rw [offset, h.position]; rfl

theorem isEmpty_eq (h : p.Behind source before) : (p.offset == 0) = before.isEmpty := by
  rw [h.offset_eq]
  cases before with
  | nil => rfl
  | cons c cs => simpa using (utf8Length_pos (List.cons_ne_nil c cs)).ne'

/-- From one place of a source to a later one the text in between decides. -/
theorem position_eq {q : Place} {b : List Char} (hp : p.Behind source before)
    (hq : q.Behind source (before ++ b)) : q.position = p.position.advance b := by
  have hr : p.rest = b ++ q.rest := by
    have := hp.eq_append.symm.trans hq.eq_append
    rwa [List.append_assoc, List.append_cancel_left_eq] at this
  have hs := hp.seam
  rw [hr] at hs
  rw [hq.position, Position.behind_append hs.of_append, hp.position]

theorem location_eq (h : p.Behind source before) : p.location = .behind before := by
  rw [location, h.position, Position.location_behind]

theorem offset_le_length (h : p.Behind source before) : p.offset ≤ utf8Length source := by
  rw [h.offset_eq, h.eq_append, utf8Length_append]
  omega

/-- A place behind more of the source is further on. -/
theorem offset_le {q : Place} {b : List Char} (hp : p.Behind source before)
    (hq : q.Behind source (before ++ b)) : p.offset ≤ q.offset := by
  rw [hp.offset_eq, hq.offset_eq, utf8Length_append]
  omega

end Place.Behind

end EcmaTokens
