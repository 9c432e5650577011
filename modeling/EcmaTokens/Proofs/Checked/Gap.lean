/-
Gaps, skipped with a checked cursor. Openings and closings of comments are gone over byte by byte, the text of a
comment character by character. Wherever the cursor stands the checks are passed, the cursor stops where the gap
ends, and it has noted a line terminator exactly if one was skipped; an unclosed comment is reported at its
opening, with the cursor at the end of the source.
-/
import EcmaTokens.Proofs.Checked.Cursor
import EcmaTokens.Proofs.Lexeme.Trivia

namespace EcmaTokens

namespace Checked

/-- Goes over the rest of a line and its terminator. -/
def restOfLine : Checked Unit := do
  bumpWhile fun c => !isLineTerminator c
  if (← bump).isSome then noteLineBreak

/-- Goes over the closing of a block comment, or over the next character. The result tells whether the comment has a
line terminator, of the characters gone over so far. -/
def blockRound (opening : Location) (crossed : Bool) : Checked (Turn Bool Bool) := do
  if ← startsWith ['*', '/'] then
    advanceAscii 2
    return .done crossed
  else match ← bump with
    | some c =>
      if isLineTerminator c then
        noteLineBreak
        return .again true
      else return .again crossed
    | none => throw (.malformed opening .illegalToken)

/-- Goes over what is left of a block comment. -/
def closeBlock (opening : Location) (crossed : Bool) : Checked Bool :=
  loop (blockRound opening) crossed

def block : Checked Bool := do
  let opening ← location
  advanceAscii 2
  closeBlock opening false

/-- Goes over an item of a gap, if there is one. The result tells whether the next item is at the start of a line. -/
def gapRound (html atLineStart : Bool) : Checked (Turn Bool Unit) := do
  match ← peek with
  | some c =>
    if isWhiteSpace c then
      let _ ← bump
      return .again atLineStart
    else if isLineTerminator c then
      let _ ← bump
      noteLineBreak
      return .again true
    else if ← startsWith ['/', '/'] then
      advanceAscii 2
      restOfLine
      return .again true
    else if ← startsWith ['/', '*'] then
      let crossed ← block
      return .again (atLineStart || crossed)
    else if html && atLineStart && (← startsWith ['-', '-', '>']) then
      advanceAscii 3
      restOfLine
      return .again atLineStart
    else if html && (← startsWith ['<', '!', '-', '-']) then
      advanceAscii 4
      restOfLine
      return .again true
    else return .done ()
  | none => return .done ()

/-- Goes over a gap. -/
def gap (html atLineStart : Bool) : Checked Unit :=
  loop (gapRound html) atLineStart

section Comments

variable {source : List Char} {b : Bool} {p : Place} {cs : List Char}

theorem restOfLine_at (hp : p.Within source) :
    restOfLine (p.cursor source b) = some (.ok (), (p.advance (Gap.lineWidth p.rest)).cursor source
      (b || !(p.rest.dropWhile fun c => !isLineTerminator c).isEmpty)) := by
  have hline := hasLineTerminator_takeWhile (p := fun c => !isLineTerminator c) (by simp) p.rest
  have hcut : CutsClean p.rest (p.rest.takeWhile fun c => !isLineTerminator c).length :=
    .of_lineFree (by rw [take_length_takeWhile, hline])
  have hp' := hp.advance (p.rest.takeWhile fun c => !isLineTerminator c).length
  have hrest : (p.advance (p.rest.takeWhile fun c => !isLineTerminator c).length).rest =
      p.rest.dropWhile fun c => !isLineTerminator c := by rw [Place.rest_advance, drop_length_takeWhile]
  rw [restOfLine, bind_of_ok (bumpWhile_at hp (by simp)), Gap.lineWidth, Place.advance_add hcut, drop_length_takeWhile]
  cases hd : p.rest.dropWhile fun c => !isLineTerminator c with
  | nil =>
    rw [bind_of_ok (bump_nil hp' (hrest.trans hd)), terminatorWidth, Place.advance_zero]
    cases b <;> rfl
  | cons c ds =>
    have hc : isLineTerminator c = true := by simpa using head_dropWhile hd
    rw [bind_of_ok (bump_terminator hp' (hrest.trans hd) hc)]
    cases b <;> rfl

/-- What comes of looking for the closing of a block comment. -/
def settleBlock (source : List Char) (b : Bool) (opening : Location) (p : Place) :
    Option Nat × Bool → Option (Except Diagnostic Bool × Cursor)
  | (some n, crossed) => some (.ok crossed, (p.advance n).cursor source (b || crossed))
  | (none, crossed) => some (.error (.malformed opening .illegalToken), p.finish.cursor source (b || crossed))

theorem finish_advance {n : Nat} (h : CutsClean p.rest n) : (p.advance n).finish = p.finish := by
  have hpos : p.position.advance p.rest = (p.position.advance (p.rest.take n)).advance (p.rest.drop n) := by
    rw [← Position.advance_append h, List.take_append_drop]
  rw [Place.finish, Place.finish, hpos]
  rfl

theorem settleBlock_advance {opening : Location} {k : Nat} (h : CutsClean p.rest k) (r : Option Nat × Bool) :
    settleBlock source b opening p (r.1.map (· + k), r.2) = settleBlock source b opening (p.advance k) r := by
  obtain ⟨_ | n, crossed⟩ := r
  · simp only [Option.map_none, settleBlock, finish_advance h]
  · simp only [Option.map_some, settleBlock, Nat.add_comm n, Place.advance_add h]

theorem blockEnd_cons {crossed : Bool} {c : Char} (h : ['*', '/'].isPrefixOf (c :: cs) = false) :
    Gap.blockEnd crossed (c :: cs) =
      ((Gap.blockEnd (crossed || isLineTerminator c) cs).1.map (· + 1),
        (Gap.blockEnd (crossed || isLineTerminator c) cs).2) := by
  rw [Gap.blockEnd]
  rintro ds rfl rfl
  cases h

/-- A pair of carriage return and line feed is looked at as one terminator. -/
theorem blockEnd_terminator {crossed : Bool} {c : Char} (h : isLineTerminator c = true) :
    Gap.blockEnd crossed (c :: cs) =
      ((Gap.blockEnd true ((c :: cs).drop (terminatorWidth (c :: cs)))).1.map (· + terminatorWidth (c :: cs)),
        (Gap.blockEnd true ((c :: cs).drop (terminatorWidth (c :: cs)))).2) := by
  have hstar : ∀ ds, ['*', '/'].isPrefixOf (c :: ds) = false := by
    intro ds
    have hc : ('*' == c) = false := by
      rw [beq_eq_false_iff_ne]
      rintro rfl
      cases h
    rw [List.isPrefixOf, hc, Bool.false_and]
  rw [blockEnd_cons (hstar cs), h, Bool.or_true]
  by_cases hpair : c = '\r' → cs.head? ≠ some '\n'
  · rw [terminatorWidth_cons hpair, if_pos h, List.drop_succ_cons, List.drop_zero]
  · obtain ⟨rfl, hhead⟩ := Classical.not_imp.1 hpair
    obtain ⟨ds, rfl⟩ := List.head?_eq_some_iff.1 (Classical.not_not.1 hhead)
    rw [blockEnd_cons (by rfl), terminatorWidth, Option.map_map]
    rfl

theorem blockRound_close (hp : p.Within source) (h : ['*', '/'] ++ cs = p.rest) (opening : Location) (crossed : Bool) :
    blockRound opening crossed (p.cursor source b) = some (.ok (.done crossed), (p.advance 2).cursor source b) := by
  have hskip : advanceAscii 2 (p.cursor source b) = some (.ok (), (p.advance 2).cursor source b) :=
    advanceAscii_at hp (w := ['*', '/']) h.symm rfl
  rw [blockRound, bind_of_ok (startsWith_at hp _), List.isPrefixOf_iff_prefix.2 ⟨cs, h⟩, if_pos rfl, bind_of_ok hskip]
  rfl

theorem blockRound_nil (hp : p.Within source) (h : p.rest = []) (opening : Location) (crossed : Bool) :
    blockRound opening crossed (p.cursor source b) =
      some (.error (.malformed opening .illegalToken), p.cursor source b) := by
  rw [blockRound, bind_of_ok (startsWith_at hp _), h, if_neg (by decide), bind_of_ok (bump_nil hp h)]
  rfl

theorem blockRound_terminator (hp : p.Within source) {c : Char} (h : p.rest = c :: cs)
    (hclose : ['*', '/'].isPrefixOf p.rest = false) (hc : isLineTerminator c = true) (opening : Location)
    (crossed : Bool) : blockRound opening crossed (p.cursor source b) =
      some (.ok (.again true), (p.advance (terminatorWidth p.rest)).cursor source true) := by
  rw [blockRound, bind_of_ok (startsWith_at hp _), hclose, if_neg (by decide), bind_of_ok (bump_terminator hp h hc)]
  dsimp only
  rw [if_pos hc, bind_of_ok noteLineBreak_at, ← h]
  rfl

theorem blockRound_char (hp : p.Within source) {c : Char} (h : p.rest = c :: cs)
    (hclose : ['*', '/'].isPrefixOf p.rest = false) (hc : isLineTerminator c = false) (opening : Location)
    (crossed : Bool) : blockRound opening crossed (p.cursor source b) =
      some (.ok (.again crossed), (p.advance 1).cursor source b) := by
  rw [blockRound, bind_of_ok (startsWith_at hp _), hclose, if_neg (by decide), bind_of_ok (bump_at hp h hc)]
  dsimp only
  rw [if_neg (by simp [hc])]
  rfl

theorem closeBlock_at (hp : p.Within source) (opening : Location) (crossed : Bool) :
    closeBlock opening crossed (p.cursor source (b || crossed)) =
      settleBlock source b opening p (Gap.blockEnd crossed p.rest) := by
  induction hlen : p.rest.length using Nat.strong_induction_on generalizing p crossed with
  | _ len ih =>
  subst hlen
  cases hclose : ['*', '/'].isPrefixOf p.rest with
  | true =>
    obtain ⟨ds, hds⟩ := List.isPrefixOf_iff_prefix.1 hclose
    have hend : Gap.blockEnd crossed p.rest = (some 2, crossed) := by rw [← hds]; rfl
    rw [hend]
    exact loop_of_done (blockRound_close hp hds opening crossed)
  | false =>
    cases hr : p.rest with
    | nil =>
      have hfinish : p.finish = p := by
        rw [Place.finish, hr]
        cases p
        cases hr
        rfl
      rw [Gap.blockEnd, settleBlock, hfinish]
      exact loop_of_error (blockRound_nil hp hr opening crossed)
    | cons c cs =>
      have hne : p.rest ≠ [] := by simp [hr]
      cases hc : isLineTerminator c with
      | true =>
        have hw : CutsClean p.rest (terminatorWidth p.rest) := by
          rw [hr]
          exact (Gap.lineEnd_terminatorWidth cs hc).seam
        have hpos : 0 < terminatorWidth p.rest := by rw [hr]; exact terminatorWidth_pos hc
        have hlt : (p.advance (terminatorWidth p.rest)).rest.length < p.rest.length := by
          have : 0 < p.rest.length := List.length_pos_iff.2 hne
          rw [Place.rest_advance, List.length_drop]
          omega
        rw [closeBlock, loop_at hp hne hpos (blockRound_terminator hp hr hclose hc opening crossed),
          blockEnd_terminator hc, ← hr, settleBlock_advance hw, ← Place.rest_advance,
          ← ih _ hlt (hp.advance _) true rfl, Bool.or_true, closeBlock]
      | false =>
        have hcs : (p.advance 1).rest = cs := Place.rest_next hr
        have hone : CutsClean p.rest 1 := Place.cutsClean_next hr hc
        have hnext := ih _ (by simp [hr]) (hp.advance 1) crossed rfl
        rw [closeBlock] at hnext
        rw [closeBlock, loop_at hp hne Nat.one_pos (blockRound_char hp hr hclose hc opening crossed), hnext, hcs,
          blockEnd_cons (hr ▸ hclose), hc, Bool.or_false, settleBlock_advance hone]

theorem block_at (hp : p.Within source) (h : p.rest = '/' :: '*' :: cs) :
    block (p.cursor source b) = settleBlock source b p.location (p.advance 2) (Gap.blockEnd false cs) := by
  have hskip : advanceAscii 2 (p.cursor source b) = some (.ok (), (p.advance 2).cursor source b) :=
    advanceAscii_at hp (w := ['/', '*']) h rfl
  have hcs : (p.advance 2).rest = cs := by rw [Place.rest_advance, h]; rfl
  have hclose := closeBlock_at (b := b) (hp.advance 2) p.location false
  rw [Bool.or_false, hcs] at hclose
  rw [block, bind_of_ok (location_at hp), bind_of_ok hskip, hclose]

end Comments

/-! ## Rounds -/

section Rounds

variable {source : List Char} {html : Bool} {marks : Gap.Marks} {p : Place}

/-- What comes of a round of skipping. -/
def settleRound (source : List Char) (b : Bool) (p : Place) :
    Gap.Round → Option (Except Diagnostic (Turn Bool Unit) × Cursor)
  | .item n marks => some (.ok (.again marks.lineStart), (p.advance n).cursor source marks.lineBreak)
  | .unclosed b => some (.error (.malformed p.location .illegalToken), p.finish.cursor source b)
  | .done => some (.ok (.done ()), p.cursor source b)

/-- What comes of skipping a gap. -/
def settleGap (source : List Char) (p : Place) : Scan Unit × Bool → Option (Except Diagnostic Unit × Cursor)
  | (.read () n, b) => some (.ok (), (p.advance n).cursor source b)
  | (.malformed n, b) => some (.error (.malformed (p.advance n).location .illegalToken), p.finish.cursor source b)

theorem line_at (hp : p.Within source) {opening cs : List Char} (h : opening ++ cs = p.rest)
    (ho : isPlain opening = true) (marks : Gap.Marks) :
    (do advanceAscii opening.length; restOfLine; return .again marks.lineStart : Checked (Turn Bool Unit))
        (p.cursor source marks.lineBreak) =
      settleRound source marks.lineBreak p (Gap.skipLine opening.length cs marks) := by
  have hcut : CutsClean p.rest opening.length := by
    refine .of_lineFree ?_
    rw [← h, List.take_left, hasLineTerminator_of_isPlain ho]
  have hcs : (p.advance opening.length).rest = cs := by rw [Place.rest_advance, ← h, List.drop_left]
  rw [bind_of_ok (advanceAscii_at hp h.symm ho), bind_of_ok (restOfLine_at (hp.advance _)), hcs, Gap.skipLine,
    settleRound, Place.advance_add hcut]
  rfl

theorem block_round (hp : p.Within source) {cs : List Char} (h : p.rest = '/' :: '*' :: cs) (marks : Gap.Marks) :
    (do let crossed ← block; return .again (marks.lineStart || crossed) : Checked (Turn Bool Unit))
        (p.cursor source marks.lineBreak) =
      settleRound source marks.lineBreak p (Gap.skipBlock cs marks) := by
  have htwo : CutsClean p.rest 2 := .of_lineFree (by rw [h]; rfl)
  have hblock := block_at (b := marks.lineBreak) hp h
  rw [Gap.skipBlock]
  obtain ⟨⟨_ | n, crossed⟩, hend⟩ : ∃ r, Gap.blockEnd false cs = r := ⟨_, rfl⟩
  all_goals rw [hend] at hblock ⊢
  · rw [settleBlock, finish_advance htwo] at hblock
    exact bind_of_error hblock
  · rw [settleBlock, ← Place.advance_add htwo] at hblock
    exact bind_of_ok hblock

/-- A round of the loop is a round of skipping. -/
theorem gapRound_at (hp : p.Within source) (marks : Gap.Marks) :
    gapRound html marks.lineStart (p.cursor source marks.lineBreak) =
      settleRound source marks.lineBreak p (Gap.round html marks p.rest) := by
  rw [gapRound, bind_of_ok (peek_at hp)]
  cases hr : p.rest with
  | nil => rfl
  | cons c cs =>
    rw [Gap.round]
    dsimp only [List.head?_cons]
    by_cases hw : isWhiteSpace c = true
    · have hl : isLineTerminator c = false := by
        by_contra hl
        rw [Gap.not_isWhiteSpace_of_isLineTerminator (by simpa using hl)] at hw
        cases hw
      rw [if_pos hw, if_pos hw, bind_of_ok (bump_at hp hr hl)]
      rfl
    rw [if_neg hw, if_neg hw]
    by_cases hl : isLineTerminator c = true
    · rw [if_pos hl, if_pos hl, bind_of_ok (bump_terminator hp hr hl), bind_of_ok noteLineBreak_at]
      rfl
    rw [if_neg hl, if_neg hl, bind_of_ok (startsWith_at hp _), hr]
    by_cases hline : ['/', '/'].isPrefixOf (c :: cs) = true
    · obtain ⟨ds, hds⟩ := List.isPrefixOf_iff_prefix.1 hline
      rw [if_pos hline, if_pos hline, ← (List.cons.inj hds).2]
      exact line_at hp (hds.trans hr.symm) rfl { marks with lineStart := true }
    rw [if_neg hline, if_neg hline, bind_of_ok (startsWith_at hp _), hr]
    by_cases hblock : ['/', '*'].isPrefixOf (c :: cs) = true
    · obtain ⟨ds, hds⟩ := List.isPrefixOf_iff_prefix.1 hblock
      rw [if_pos hblock, if_pos hblock, ← (List.cons.inj hds).2]
      exact block_round hp (hr.trans hds.symm) marks
    rw [if_neg hblock, if_neg hblock, bind_of_ok (startsWith_at hp _), hr]
    by_cases hclose : (html && marks.lineStart && ['-', '-', '>'].isPrefixOf (c :: cs)) = true
    · have hprefix := ((Bool.and_eq_true _ _).mp hclose).2
      obtain ⟨ds, hds⟩ := List.isPrefixOf_iff_prefix.1 hprefix
      rw [if_pos hclose, if_pos hclose, ← (List.cons.inj hds).2]
      exact line_at hp (hds.trans hr.symm) rfl marks
    rw [if_neg hclose, if_neg hclose, bind_of_ok (startsWith_at hp _), hr]
    by_cases hopen : (html && ['<', '!', '-', '-'].isPrefixOf (c :: cs)) = true
    · have hprefix := ((Bool.and_eq_true _ _).mp hopen).2
      obtain ⟨ds, hds⟩ := List.isPrefixOf_iff_prefix.1 hprefix
      rw [if_pos hopen, if_pos hopen, ← (List.cons.inj hds).2]
      exact line_at hp (hds.trans hr.symm) rfl { marks with lineStart := true }
    rw [if_neg hopen, if_neg hopen]
    rfl

theorem settleGap_after {n : Nat} (h : CutsClean p.rest n) (r : Scan Unit × Bool) :
    settleGap source p (r.map (Scan.after n) id) = settleGap source (p.advance n) r := by
  obtain ⟨_ | m, b⟩ := r
  · simp only [Prod.map, Scan.after, id, settleGap, Place.advance_add h]
  · simp only [Prod.map, Scan.after, id, settleGap, Place.advance_add h, finish_advance h]

theorem cutsClean_round {marks' : Gap.Marks} {cs : List Char} {n : Nat} (h : Gap.round html marks cs = .item n marks') :
    CutsClean cs n := by
  have hagrees := Gap.agrees_round html marks cs
  rw [h] at hagrees
  cases hi : Gap.item? html marks.lineStart cs with
  | none =>
    rw [hi] at hagrees
    cases hagrees
  | some i =>
    rw [hi] at hagrees
    cases hagrees
    exact (Gap.trivia_of_item? hi).seam

/-- The cursor stops where the gap ends. In front of an unclosed comment there is no end, and it goes on to the end of
the source. -/
theorem gap_at (hp : p.Within source) (marks : Gap.Marks) :
    gap html marks.lineStart (p.cursor source marks.lineBreak) =
      settleGap source p (Gap.skip html marks p.rest) := by
  induction hlen : p.rest.length using Nat.strong_induction_on generalizing p marks with
  | _ len ih =>
  subst hlen
  have hround : gapRound html marks.lineStart (p.cursor source marks.lineBreak) = _ := gapRound_at hp marks
  unfold Gap.skip
  split
  · next hr =>
    rw [hr] at hround
    rw [settleGap, Place.advance_zero]
    exact loop_of_done hround
  · next b hr =>
    rw [hr] at hround
    rw [settleGap, Place.advance_zero]
    exact loop_of_error hround
  · next n marks' hr =>
    obtain ⟨hn, hlen⟩ := Gap.round_pos hr
    have hlt : (p.advance n).rest.length < p.rest.length := by
      rw [Place.rest_advance, List.length_drop]
      omega
    have hnext := ih _ hlt (hp.advance n) marks' rfl
    rw [hr] at hround
    rw [gap, loop_at hp (List.length_pos_iff.1 (by omega)) hn hround]
    refine hnext.trans ?_
    rw [Place.rest_advance, ← settleGap_after (cutsClean_round hr)]

end Rounds

end Checked

end EcmaTokens
