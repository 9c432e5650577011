/-
Gaps told from their text alone. What is skipped at the front of a text is an item, whatever was noticed before, but
that `-->` opens a comment only at the start of a line; and the marks that skipping keeps in mind are properties of
the text that was skipped: its start is a start of a line, or it contains a line terminator.
-/
import EcmaTokens.Lexeme.Gap
import EcmaTokens.Proofs.Source.Text

namespace EcmaTokens

namespace Gap

/-! ## Items -/

/-- What stands at the front of a gap. -/
inductive Item where
  /-- An item of `width` characters. -/
  | closed (width : Nat)
  /-- A block comment that never closes. -/
  | unclosed
deriving DecidableEq, Repr

/-- The width of a block comment behind its opening, up to and including the first closing. -/
def closeWidth? : List Char → Option Nat
  | '*' :: '/' :: _ => some 2
  | _ :: cs => (closeWidth? cs).map (· + 1)
  | [] => none

/-- The block comment whose opening stands in front of the text. -/
def blockComment (cs : List Char) : Item :=
  match closeWidth? cs with
  | some n => .closed (2 + n)
  | none => .unclosed

/-- The item at the front of a text. `html` allows `<!--` and `-->`, and `lineStart` says that
nothing but gap precedes on the line. -/
def item? (html lineStart : Bool) : List Char → Option Item
  | '/' :: '/' :: cs => some (.closed (2 + lineWidth cs))
  | '/' :: '*' :: cs => some (blockComment cs)
  | '-' :: '-' :: '>' :: cs =>
    if html && lineStart then some (.closed (3 + lineWidth cs)) else none
  | '<' :: '!' :: '-' :: '-' :: cs =>
    if html then some (.closed (4 + lineWidth cs)) else none
  | c :: cs =>
    if isWhiteSpace c then some (.closed 1)
    else if isLineTerminator c then some (.closed (terminatorWidth (c :: cs)))
    else none
  | [] => none

theorem width_pos_of_item? {html lineStart : Bool} {cs : List Char} {n : Nat}
    (h : item? html lineStart cs = some (.closed n)) : 0 < n ∧ 0 < cs.length := by
  unfold item? at h
  split at h
  · cases h; exact ⟨by omega, by simp⟩
  · unfold blockComment at h
    split at h <;> cases h
    exact ⟨by omega, by simp⟩
  · split at h <;> cases h
    exact ⟨by omega, by simp⟩
  · split at h <;> cases h
    exact ⟨by omega, by simp⟩
  · split at h
    · cases h; exact ⟨by omega, by simp⟩
    · split at h <;> cases h
      next hc => exact ⟨terminatorWidth_pos hc, by simp⟩
  · cases h

/-- The gap at the front of a text. It is malformed where an unclosed comment opens. -/
def scan (html lineStart : Bool) (cs : List Char) : Scan Unit :=
  match _h : item? html lineStart cs with
  | none => .read () 0
  | some .unclosed => .malformed 0
  | some (.closed n) =>
    (scan html (lineStart || hasLineTerminator (cs.take n)) (cs.drop n)).after n
termination_by cs.length
decreasing_by
  have := width_pos_of_item? ‹_›
  simp only [List.length_drop]
  omega

section Scan

variable {html lineStart : Bool} {cs : List Char}

theorem scan_of_none (h : item? html lineStart cs = none) : scan html lineStart cs = .read () 0 := by
  unfold scan
  split <;> simp_all

theorem scan_of_unclosed (h : item? html lineStart cs = some .unclosed) : scan html lineStart cs = .malformed 0 := by
  unfold scan
  split <;> simp_all

theorem scan_of_closed {n : Nat} (h : item? html lineStart cs = some (.closed n)) :
    scan html lineStart cs = (scan html (lineStart || hasLineTerminator (cs.take n)) (cs.drop n)).after n := by
  rw [scan]
  split <;> simp_all

theorem scan_nil (html lineStart : Bool) : scan html lineStart [] = .read () 0 :=
  scan_of_none rfl

end Scan

/-! ## Comments -/

theorem hasLineTerminator_take_terminatorWidth {c : Char} (hc : isLineTerminator c = true) (cs : List Char) :
    hasLineTerminator ((c :: cs).take (terminatorWidth (c :: cs))) = true := by
  have hpos : 0 < terminatorWidth (c :: cs) := terminatorWidth_pos hc
  obtain ⟨n, hn⟩ := Nat.exists_eq_add_of_le' hpos
  rw [hn, List.take_succ_cons, hasLineTerminator_cons, hc]
  rfl

/-- The rest of a line contains a line terminator unless the text ends with it. -/
theorem hasLineTerminator_take_lineWidth (cs : List Char) :
    hasLineTerminator (cs.take (lineWidth cs)) = !(cs.dropWhile fun c => !isLineTerminator c).isEmpty := by
  have hw : lineWidth cs = (cs.takeWhile fun c => !isLineTerminator c).length +
      terminatorWidth (cs.dropWhile fun c => !isLineTerminator c) := by
    rw [lineWidth, drop_length_takeWhile]
  rw [hw, List.take_add, take_length_takeWhile, drop_length_takeWhile, hasLineTerminator_append,
    hasLineTerminator_takeWhile (by simp) cs, Bool.false_or]
  cases hd : cs.dropWhile fun c => !isLineTerminator c with
  | nil => rfl
  | cons c ds =>
    exact hasLineTerminator_take_terminatorWidth (by simpa using head_dropWhile hd) ds

/-- Without a line terminator at its end, the rest of a line is all that is left of the text. -/
theorem drop_lineWidth_eq_nil {cs : List Char} (h : hasLineTerminator (cs.take (lineWidth cs)) = false) :
    cs.drop (lineWidth cs) = [] := by
  rw [hasLineTerminator_take_lineWidth] at h
  have hd : cs.dropWhile (fun c => !isLineTerminator c) = [] := by simpa using h
  rw [lineWidth, ← List.drop_drop, drop_length_takeWhile, hd, List.drop_nil]

/-- What is crossed in a block comment is a line terminator of its text. -/
theorem blockEnd_eq (crossed : Bool) (cs : List Char) :
    blockEnd crossed cs = (closeWidth? cs,
      crossed || hasLineTerminator (match closeWidth? cs with | some n => cs.take n | none => cs)) := by
  fun_induction blockEnd crossed cs with
  | case1 crossed cs =>
    have hnone : hasLineTerminator ['*', '/'] = false := rfl
    simp [closeWidth?, hnone]
  | case2 crossed c cs hn w crossed' hr ih =>
    rw [hr] at ih
    obtain ⟨rfl, rfl⟩ := Prod.mk.inj ih
    rw [closeWidth?]
    · cases closeWidth? cs with
      | none => simp [Bool.or_assoc]
      | some n => simp [Bool.or_assoc]
    · exact hn
  | case3 => simp [closeWidth?]

/-! ## Rounds -/

/-- The round skips the item, and marks behind it what follows from its text. Only at the end of the text does the
start of a line not matter. -/
inductive Agrees (marks : Marks) (cs : List Char) : Option Item → Round → Prop
  | done : Agrees marks cs none .done
  | unclosed : Agrees marks cs (some .unclosed) (.unclosed (marks.lineBreak || hasLineTerminator cs))
  | closed {n : Nat} {lineStart : Bool} :
      lineStart = (marks.lineStart || hasLineTerminator (cs.take n)) ∨ cs.drop n = [] →
      Agrees marks cs (some (.closed n)) (.item n ⟨lineStart, marks.lineBreak || hasLineTerminator (cs.take n)⟩)

section Round

variable {html : Bool} {marks : Marks} {cs : List Char}

/-- Behind an item the marks are what its text says, the start of a line among them. -/
theorem Agrees.of_take {n : Nat} {crossed : Bool} (h : hasLineTerminator (cs.take n) = crossed) :
    Agrees marks cs (some (.closed n)) (.item n ⟨marks.lineStart || crossed, marks.lineBreak || crossed⟩) := by
  subst h
  exact .closed (.inl rfl)

theorem agrees_skipLine (opening : List Char) (ho : hasLineTerminator opening = false) (cs : List Char) :
    Agrees marks (opening ++ cs) (some (.closed (opening.length + lineWidth cs)))
      (skipLine opening.length cs { marks with lineStart := true }) := by
  have hbreak : hasLineTerminator ((opening ++ cs).take (opening.length + lineWidth cs)) =
      hasLineTerminator (cs.take (lineWidth cs)) := by
    rw [List.take_length_add_append, hasLineTerminator_append, ho, Bool.false_or]
  rw [skipLine, ← hasLineTerminator_take_lineWidth, ← hbreak]
  refine .closed ?_
  cases hb : hasLineTerminator ((opening ++ cs).take (opening.length + lineWidth cs)) with
  | true => exact .inl (Bool.or_true _).symm
  | false =>
    rw [hbreak] at hb
    rw [List.drop_length_add_append]
    exact .inr (drop_lineWidth_eq_nil hb)

theorem agrees_skipBlock (cs : List Char) :
    Agrees marks ('/' :: '*' :: cs) (some (blockComment cs)) (skipBlock cs marks) := by
  rw [blockComment, skipBlock, blockEnd_eq]
  cases closeWidth? cs with
  | none => exact .unclosed
  | some n =>
    have hbreak : hasLineTerminator (('/' :: '*' :: cs).take (2 + n)) = hasLineTerminator (cs.take n) := by
      rw [Nat.add_comm]
      rfl
    show Agrees marks _ (some (.closed (2 + n))) (.item (2 + n) ⟨_ || (false || _), _ || (false || _)⟩)
    rw [Bool.false_or]
    exact .of_take hbreak

theorem not_isWhiteSpace_of_isLineTerminator {c : Char} (h : isLineTerminator c = true) :
    isWhiteSpace c = false := by
  simp only [isLineTerminator, Bool.or_eq_true, beq_iff_eq] at h
  rcases h with ((rfl | rfl) | rfl) | rfl <;> decide

/-- A round of skipping agrees with the item at the front of the text. -/
theorem agrees_round (html : Bool) (marks : Marks) (cs : List Char) :
    Agrees marks cs (item? html marks.lineStart cs) (round html marks cs) := by
  rcases marks with ⟨lineStart, lineBreak⟩
  unfold item?
  split
  · exact agrees_skipLine ['/', '/'] rfl _
  · exact agrees_skipBlock _
  · next ds =>
    cases html
    · exact .done
    cases lineStart
    · exact .done
    · exact agrees_skipLine ['-', '-', '>'] rfl ds
  · next ds =>
    cases html
    · exact .done
    · have hr : round true ⟨lineStart, lineBreak⟩ ('<' :: '!' :: '-' :: '-' :: ds) =
          skipLine 4 ds ⟨true, lineBreak⟩ := by
        cases lineStart <;> rfl
      rw [hr]
      exact agrees_skipLine ['<', '!', '-', '-'] rfl ds
  · next c ds hline hblock hclose hopen =>
    rw [round]
    by_cases hw : isWhiteSpace c = true
    · rw [if_pos hw, if_pos hw]
      have hl : isLineTerminator c = false := by
        by_contra hl
        rw [not_isWhiteSpace_of_isLineTerminator (by simpa using hl)] at hw
        cases hw
      have hnone : hasLineTerminator ((c :: ds).take 1) = false := by simp [hl]
      simpa using Agrees.of_take hnone
    rw [if_neg hw, if_neg hw]
    by_cases hl : isLineTerminator c = true
    · rw [if_pos hl, if_pos hl]
      simpa using Agrees.of_take (hasLineTerminator_take_terminatorWidth hl ds)
    rw [if_neg hl, if_neg hl]
    -- every other opening was recognised as one
    have not : ∀ opening : List Char, (∀ es, c :: ds ≠ opening ++ es) → opening.isPrefixOf (c :: ds) = false := by
      intro opening h
      by_contra hp
      obtain ⟨es, hes⟩ := List.isPrefixOf_iff_prefix.1 (Bool.not_eq_false _ ▸ hp)
      exact h es hes.symm
    rw [not ['/', '/'] (by simpa using hline), not ['/', '*'] (by simpa using hblock),
      not ['-', '-', '>'] (by simpa using hclose), not ['<', '!', '-', '-'] (by simpa using hopen), Bool.and_false,
      Bool.and_false]
    exact .done
  · exact .done

end Round

/-! ## Skipping -/

/-- The text that was gone over. A malformed gap is gone over to the end of the text. -/
def covered (cs : List Char) : Scan Unit → List Char
  | .read () n => cs.take n
  | .malformed _ => cs

theorem covered_after (cs : List Char) (n : Nat) (r : Scan Unit) :
    covered cs (r.after n) = cs.take n ++ covered (cs.drop n) r := by
  cases r with
  | read u m => exact List.take_add
  | malformed m => exact (List.take_append_drop n cs).symm

/-- A gap is skipped item by item, and the marks are what its text says. -/
theorem skip_eq (html : Bool) (marks : Marks) (cs : List Char) :
    skip html marks cs = (scan html marks.lineStart cs,
      marks.lineBreak || hasLineTerminator (covered cs (scan html marks.lineStart cs))) := by
  fun_induction skip html marks cs with
  | case1 marks cs hr =>
    have h := agrees_round html marks cs
    rw [hr] at h
    cases hi : item? html marks.lineStart cs with
    | some i => rw [hi] at h; cases h
    | none => simp [scan_of_none hi, covered]
  | case2 marks cs lineBreak hr =>
    have h := agrees_round html marks cs
    rw [hr] at h
    cases hi : item? html marks.lineStart cs with
    | none => rw [hi] at h; cases h
    | some i =>
      rw [hi] at h
      cases h with
      | unclosed => rw [scan_of_unclosed hi]; rfl
  | case3 marks cs n marks' hr ih =>
    have h := agrees_round html marks cs
    rw [hr] at h
    cases hi : item? html marks.lineStart cs with
    | none => rw [hi] at h; cases h
    | some i =>
      rw [hi] at h
      cases h with
      | closed hstart =>
        rw [ih, scan_of_closed hi, covered_after, hasLineTerminator_append, ← Bool.or_assoc]
        rcases hstart with rfl | hnil
        · rfl
        · -- at the end of the text the start of a line does not matter
          rw [hnil, scan_nil, scan_nil]
          rfl

end Gap

end EcmaTokens
