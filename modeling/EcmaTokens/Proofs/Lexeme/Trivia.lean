/-
What a gap is made of: white space, line terminators, comments to the end of a line and closed
block comments, each an item in its own right. A gap is a run of such items, the skipped text is
always one, and where skipping stops no pair of carriage return and line feed is cut.
-/
import EcmaTokens.Proofs.Lexeme.Gap
import EcmaTokens.Proofs.Source.Behind

namespace EcmaTokens

theorem not_isWhiteSpace_return {c : Char} (h : isWhiteSpace c = true) : c ≠ '\r' := by
  rintro rfl
  exact absurd h (by decide)

namespace Gap

/-! ## Items -/

/-- The text `e` is one line terminator in front of `rest`. A carriage return takes its line feed. -/
inductive LineEnd : List Char → List Char → Prop
  | pair (rest : List Char) : LineEnd ['\r', '\n'] rest
  | single {c : Char} {rest : List Char} :
      isLineTerminator c = true → Seam [c] rest → LineEnd [c] rest

/-- What opens a comment to the end of a line. -/
inductive Opening (html lineStart : Bool) : List Char → Prop
  | slashes : Opening html lineStart ['/', '/']
  | htmlOpen : html = true → Opening html lineStart ['<', '!', '-', '-']
  | htmlClose : html = true → lineStart = true → Opening html lineStart ['-', '-', '>']

/-- A text in front of `*/` in which, and at the end of which, no closing stands earlier. -/
def CommentBody (body : List Char) : Prop :=
  ¬ ['*', '/'] <:+: body ++ ['*']

/-- The text `item` in front of `rest` is one item of a gap. `lineStart` says that nothing but gap
precedes it on its line. -/
inductive Trivia (html lineStart : Bool) : List Char → List Char → Prop
  | whiteSpace {c : Char} {rest : List Char} :
      isWhiteSpace c = true → Trivia html lineStart [c] rest
  | lineEnd {e rest : List Char} : LineEnd e rest → Trivia html lineStart e rest
  | lineComment {opening body e rest : List Char} :
      Opening html lineStart opening → hasLineTerminator body = false →
      LineEnd e rest ∨ e = [] ∧ rest = [] →
      Trivia html lineStart (opening ++ body ++ e) rest
  | blockComment {body rest : List Char} :
      CommentBody body → Trivia html lineStart ('/' :: '*' :: (body ++ ['*', '/'])) rest

/-- The text `gap` in front of `rest` is a run of items. -/
inductive Filled (html : Bool) : Bool → List Char → List Char → Prop
  | nil {lineStart : Bool} {rest : List Char} : Filled html lineStart [] rest
  | cons {lineStart : Bool} {item gap rest : List Char} :
      Trivia html lineStart item (gap ++ rest) →
      Filled html (lineStart || hasLineTerminator item) gap rest →
      Filled html lineStart (item ++ gap) rest

/-! ## Seams behind items -/

theorem LineEnd.seam {e rest : List Char} (h : LineEnd e rest) : Seam e rest := by
  cases h with
  | pair => simp [Seam]
  | single _ hs => exact hs

theorem Trivia.seam {html lineStart : Bool} {item rest : List Char} (h : Trivia html lineStart item rest) :
    Seam item rest := by
  cases h with
  | whiteSpace hc =>
    rintro ⟨hr, -⟩
    exact not_isWhiteSpace_return hc (by simpa using hr)
  | lineEnd he => exact he.seam
  | lineComment _ _ he =>
    rcases he with he | ⟨rfl, rfl⟩
    · -- the terminator is the last part of the item and not empty
      cases he with
      | pair => simp [Seam]
      | single _ hs => simpa [Seam] using hs
    · exact Seam.nil_right _
  | blockComment _ => simp [Seam, List.getLast?_cons, List.getLast?_append]

theorem Filled.seam {html lineStart : Bool} {gap rest : List Char} (h : Filled html lineStart gap rest) :
    Seam gap rest := by
  induction h with
  | nil => exact Seam.nil_left _
  | cons hi _ ih => exact hi.seam.append ih

/-! ## Lines -/

theorem lineEnd_terminatorWidth {c : Char} (cs : List Char) (h : isLineTerminator c = true) :
    LineEnd ((c :: cs).take (terminatorWidth (c :: cs))) ((c :: cs).drop (terminatorWidth (c :: cs))) := by
  unfold terminatorWidth
  split
  · next heq => cases heq; exact .pair _
  · next hn heq =>
    cases heq
    simp only [h, if_true]
    refine .single h ?_
    rintro ⟨hr, hf⟩
    obtain rfl : c = '\r' := by simpa using hr
    cases cs with
    | nil => simp at hf
    | cons d ds =>
      obtain rfl : d = '\n' := by simpa using hf
      exact hn ds rfl rfl
  · next heq => cases heq

/-- The rest of a line, with its terminator unless the text ends there. -/
theorem take_lineWidth (cs : List Char) :
    ∃ body e, cs.take (lineWidth cs) = body ++ e ∧ hasLineTerminator body = false ∧
      (LineEnd e (cs.drop (lineWidth cs)) ∨ e = [] ∧ cs.drop (lineWidth cs) = []) := by
  have hw : lineWidth cs = (cs.takeWhile fun c => !isLineTerminator c).length +
      terminatorWidth (cs.dropWhile fun c => !isLineTerminator c) := by
    rw [lineWidth, drop_length_takeWhile]
  refine ⟨cs.takeWhile fun c => !isLineTerminator c,
    (cs.dropWhile fun c => !isLineTerminator c).take (terminatorWidth (cs.dropWhile fun c => !isLineTerminator c)),
    ?_, hasLineTerminator_takeWhile (by simp) cs, ?_⟩
  · rw [hw, List.take_add, take_length_takeWhile, drop_length_takeWhile]
  · rw [hw, ← List.drop_drop, drop_length_takeWhile]
    rcases htail : cs.dropWhile fun c => !isLineTerminator c with _ | ⟨c, ds⟩
    · exact .inr ⟨by simp, by simp⟩
    · exact .inl (lineEnd_terminatorWidth ds (by simpa using head_dropWhile htail))

/-! ## Block comments -/

theorem CommentBody.nil : CommentBody [] := by
  intro h
  have := h.length_le
  simp at this

theorem CommentBody.of_cons {c : Char} {body : List Char} (h : CommentBody (c :: body)) : CommentBody body := by
  intro hi
  exact h (hi.trans (List.suffix_cons c (body ++ ['*'])).isInfix)

theorem closeWidth?_append {body : List Char} (h : CommentBody body) (rest : List Char) :
    closeWidth? (body ++ '*' :: '/' :: rest) = some (body.length + 2) := by
  induction body with
  | nil => rfl
  | cons c body ih =>
    rw [List.cons_append, closeWidth?]
    · rw [ih h.of_cons]; simp
    · -- a closing right here would stand inside the body
      rintro ds rfl heq
      cases body with
      | nil => simp at heq
      | cons d body =>
        obtain ⟨rfl, -⟩ := List.cons.inj heq
        exact h ⟨[], body ++ ['*'], by simp⟩

theorem commentBody_of_closeWidth? {cs : List Char} {n : Nat} (h : closeWidth? cs = some n) :
    ∃ body rest, cs = body ++ '*' :: '/' :: rest ∧ n = body.length + 2 ∧ CommentBody body := by
  fun_induction closeWidth? cs generalizing n with
  | case1 rest => exact ⟨[], rest, rfl, by simpa using h.symm, .nil⟩
  | case2 c cs hn ih =>
    obtain ⟨m, hm, rfl⟩ := Option.map_eq_some_iff.1 h
    obtain ⟨body, rest, rfl, rfl, hb⟩ := ih hm
    refine ⟨c :: body, rest, rfl, by simp, ?_⟩
    rintro ⟨pre, post, heq⟩
    cases pre with
    | nil =>
      cases body with
      | nil => simp at heq
      | cons d body =>
        simp only [List.nil_append, List.cons_append, List.cons.injEq] at heq
        obtain ⟨rfl, rfl, -⟩ := heq
        exact hn (body ++ '*' :: '/' :: rest) rfl rfl
    | cons d pre =>
      simp only [List.cons_append, List.cons.injEq] at heq
      exact hb ⟨pre, post, heq.2⟩
  | case3 => cases h

/-! ## Skipping -/

/-- An item that is recognised is one. -/
theorem trivia_of_item? {html lineStart : Bool} {cs : List Char} {n : Nat}
    (h : item? html lineStart cs = some (.closed n)) :
    Trivia html lineStart (cs.take n) (cs.drop n) := by
  -- the three comments to the end of a line differ in their opening alone
  have line : ∀ {opening ds : List Char} {n : Nat}, Opening html lineStart opening →
      n = opening.length + lineWidth ds →
      Trivia html lineStart ((opening ++ ds).take n) ((opening ++ ds).drop n) := by
    rintro opening ds _ ho rfl
    obtain ⟨body, e, ht, hb, he⟩ := take_lineWidth ds
    rw [List.take_length_add_append, ht, List.drop_length_add_append, ← List.append_assoc]
    exact .lineComment ho hb he
  unfold item? at h
  split at h
  · cases h; exact line .slashes (by simp)
  · unfold blockComment at h
    split at h
    · next m hm =>
      cases h
      obtain ⟨body, rest, rfl, rfl, hb⟩ := commentBody_of_closeWidth? hm
      have : Trivia html lineStart ('/' :: '*' :: (body ++ ['*', '/'])) rest := .blockComment hb
      have hl : 2 + (body.length + 2) = ('/' :: '*' :: (body ++ ['*', '/'])).length := by simp; omega
      rw [hl, show '/' :: '*' :: (body ++ '*' :: '/' :: rest) = ('/' :: '*' :: (body ++ ['*', '/'])) ++ rest
        by simp, List.take_left, List.drop_left]
      exact this
    · cases h
  · split at h
    · next hh =>
      cases h
      simp only [Bool.and_eq_true] at hh
      exact line (.htmlClose hh.1 hh.2) (by simp)
    · cases h
  · split at h
    · next hh => cases h; exact line (.htmlOpen hh) (by simp)
    · cases h
  · split at h
    · next hw => cases h; exact .whiteSpace hw
    · split at h
      · next hc => cases h; exact .lineEnd (lineEnd_terminatorWidth _ hc)
      · cases h
  · cases h

/-- What is skipped is a run of items. -/
theorem filled_scan (html lineStart : Bool) (cs : List Char) :
    Filled html lineStart (cs.take (scan html lineStart cs).width) (cs.drop (scan html lineStart cs).width) := by
  fun_induction scan html lineStart cs with
  | case1 lineStart cs h => exact .nil
  | case2 lineStart cs h => exact .nil
  | case3 lineStart cs n h ih =>
    rw [Scan.width_after, List.take_add, ← List.drop_drop]
    refine .cons ?_ ih
    rw [List.take_append_drop]
    exact trivia_of_item? h

theorem cutsClean_of_scan {html lineStart : Bool} {cs : List Char} {r : Scan Unit}
    (h : scan html lineStart cs = r) : CutsClean cs r.width :=
  h ▸ (filled_scan html lineStart cs).seam

end Gap

end EcmaTokens
