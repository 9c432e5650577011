/-
Skipping gaps among other text. Blanks and closed comments are skipped one after the other, a lexeme
in front of a blank opens no item of a gap, and a gap in front of a line feed either ends where it
ended before or takes the line feed with it and goes on at the start of a line.
-/
import EcmaTokens.Proofs.Lexeme.Basic

namespace EcmaTokens

namespace Scan

variable {α : Type}

theorem after_after (s : Scan α) (m n : Nat) : (s.after m).after n = s.after (n + m) := by
  cases s <;> simp [after, Nat.add_assoc]

theorem after_zero (s : Scan α) : s.after 0 = s := by
  cases s <;> simp [after]

end Scan

namespace Gap

variable {html lineStart : Bool} {cs : List Char}

/-! ## One item -/

theorem item?_cons {c : Char} (h : c ∉ ['/', '-', '<']) (cs : List Char) :
    item? html lineStart (c :: cs) =
      if isWhiteSpace c then some (.closed 1)
      else if isLineTerminator c then some (.closed (terminatorWidth (c :: cs)))
      else none := by
  unfold item?
  split
  case h_5 heq => obtain ⟨rfl, rfl⟩ := List.cons.inj heq; rfl
  case h_6 heq => cases heq
  all_goals
    next heq =>
    obtain ⟨rfl, -⟩ := List.cons.inj heq
    exact absurd h (by decide)

theorem not_mem_of_isBlank {c : Char} (h : isBlank c = true) : c ∉ ['/', '-', '<'] := by
  have hs := (separates_of_isBlank h).punctuator
  intro hc
  simp only [List.mem_cons, List.not_mem_nil, or_false] at hc
  rcases hc with rfl | rfl | rfl <;> cases hs

/-- No item begins here: no blank, and none of the openings of comments that are allowed. -/
structure NoItem (html lineStart : Bool) (c : Char) (cs : List Char) : Prop where
  blank : isBlank c = false
  comment : c = '/' → cs.head? ≠ some '/' ∧ cs.head? ≠ some '*'
  htmlOpen : c = '<' → html = true → ¬ ['!', '-', '-'] <+: cs
  htmlClose : c = '-' → (html && lineStart) = true → ¬ ['-', '>'] <+: cs

theorem NoItem.item?_eq {c : Char} {cs : List Char} (h : NoItem html lineStart c cs) :
    item? html lineStart (c :: cs) = none := by
  have hb : isWhiteSpace c = false ∧ isLineTerminator c = false := by simpa [isBlank] using h.blank
  unfold item?
  split
  · next heq =>
    obtain ⟨rfl, rfl⟩ := List.cons.inj heq
    exact absurd rfl (h.comment rfl).1
  · next heq =>
    obtain ⟨rfl, rfl⟩ := List.cons.inj heq
    exact absurd rfl (h.comment rfl).2
  · next heq =>
    obtain ⟨rfl, rfl⟩ := List.cons.inj heq
    exact if_neg fun hh => h.htmlClose rfl hh ⟨_, rfl⟩
  · next heq =>
    obtain ⟨rfl, rfl⟩ := List.cons.inj heq
    exact if_neg fun hh => h.htmlOpen rfl hh ⟨_, rfl⟩
  · next heq =>
    obtain ⟨rfl, rfl⟩ := List.cons.inj heq
    rw [hb.1, hb.2]
    rfl
  · next heq => cases heq

theorem noItem_of_item? {c : Char} {cs : List Char} (h : item? html lineStart (c :: cs) = none) :
    NoItem html lineStart c cs := by
  refine ⟨?_, ?_, ?_, ?_⟩
  · by_contra hb
    have hb : isBlank c = true := by simpa using hb
    rw [item?_cons (not_mem_of_isBlank hb)] at h
    split at h
    · cases h
    · next hw =>
      rw [if_pos (by simpa [isBlank, hw] using hb)] at h
      cases h
  · rintro rfl
    constructor <;> intro hh <;> obtain ⟨ds, rfl⟩ := List.head?_eq_some_iff.1 hh <;> cases h
  · rintro rfl rfl ⟨ds, rfl⟩
    cases h
  · rintro rfl hh ⟨ds, rfl⟩
    have : (if (html && lineStart) = true then some (Item.closed (3 + lineWidth ds)) else none) = none := h
    rw [if_pos hh] at this
    cases this

/-- Blanks are skipped one at a time, a carriage return and its line feed among them. -/
theorem scan_blank {c : Char} (hc : isBlank c = true) (cs : List Char) :
    scan html lineStart (c :: cs) = (scan html (lineStart || isLineTerminator c) cs).after 1 := by
  have hi : item? html lineStart (c :: cs) = _ := item?_cons (not_mem_of_isBlank hc) cs
  by_cases hw : isWhiteSpace c = true
  · rw [if_pos hw] at hi
    rw [scan_of_closed hi]
    simp
  · have hl : isLineTerminator c = true := by simpa [isBlank, hw] using hc
    rw [if_neg hw, if_pos hl] at hi
    by_cases hp : c = '\r' → cs.head? ≠ some '\n'
    · rw [terminatorWidth_cons hp, if_pos hl] at hi
      rw [scan_of_closed hi]
      simp
    · -- the pair is one item, and its line feed by itself is one too
      obtain ⟨rfl, hn⟩ := Classical.not_imp.1 hp
      obtain ⟨ds, rfl⟩ := List.head?_eq_some_iff.1 (Classical.not_not.1 hn)
      have hf : item? html (lineStart || isLineTerminator '\r') ('\n' :: ds) = some (.closed 1) := by
        rw [item?_cons (by decide), if_neg (by decide), if_pos (by decide),
          terminatorWidth_cons fun h => absurd h (by decide), if_pos (by decide)]
      rw [scan_of_closed hi, scan_of_closed hf, Scan.after_after]
      simp [terminatorWidth, hl]

/-! ## Blanks and closed comments -/

/-- A text of blanks and closed block comments. -/
inductive Filler : List Char → Prop
  | nil : Filler []
  | blank {c : Char} {cs : List Char} : isBlank c = true → Filler cs → Filler (c :: cs)
  | comment {body cs : List Char} : CommentBody body → Filler cs → Filler ('/' :: '*' :: (body ++ '*' :: '/' :: cs))

theorem scan_filler {filler : List Char} (h : Filler filler) (lineStart : Bool) (rest : List Char) :
    ∃ ls, scan html lineStart (filler ++ rest) = (scan html ls rest).after filler.length := by
  induction h generalizing lineStart with
  | nil => exact ⟨lineStart, (Scan.after_zero _).symm⟩
  | @blank c cs hc _ ih =>
    obtain ⟨ls, hls⟩ := ih (lineStart || isLineTerminator c)
    refine ⟨ls, ?_⟩
    rw [List.cons_append, scan_blank hc, hls, Scan.after_after, List.length_cons, Nat.add_comm]
  | @comment body cs hb _ ih =>
    have hi : item? html lineStart ('/' :: '*' :: (body ++ '*' :: '/' :: (cs ++ rest))) =
        some (.closed (2 + (body.length + 2))) := by
      show some (blockComment _) = _
      rw [blockComment, closeWidth?_append hb]
    have hd : ('/' :: '*' :: (body ++ '*' :: '/' :: (cs ++ rest))).drop (2 + (body.length + 2)) = cs ++ rest := by
      rw [Nat.add_comm 2]
      simp [List.drop_append]
    obtain ⟨ls, hls⟩ := ih (lineStart || hasLineTerminator
      (('/' :: '*' :: (body ++ '*' :: '/' :: (cs ++ rest))).take (2 + (body.length + 2))))
    refine ⟨ls, ?_⟩
    rw [List.cons_append, List.cons_append, List.append_assoc, List.cons_append, List.cons_append,
      scan_of_closed hi, hd, hls, Scan.after_after]
    congr 1
    simp
    omega

/-! ## The front of a lexeme -/

/-- A punctuator opens no comment in front of what separates it from the next character. -/
theorem item?_spelling (p : Punctuator) {tail : List Char} (ht : Replaces [] tail) :
    item? html lineStart (p.spelling.toList ++ tail) = none := by
  have hne : ∀ c, (Punctuator.ofChar? c).isSome = true → tail.head? ≠ some c := by
    intro c hc hh
    rcases ht c hh with hs | hs
    · rw [hs.punctuator] at hc; cases hc
    · cases hs
  obtain ⟨c, ds, hp, hb, hslash, hminus, hless⟩ : ∃ c ds, p.spelling.toList = c :: ds ∧ isBlank c = false ∧
      (c = '/' → ds = [] ∨ ds = ['=']) ∧ (c = '-' → ds = [] ∨ ds = ['-'] ∨ ds = ['=']) ∧
      (c = '<' → ds = [] ∨ ds = ['<'] ∨ ds = ['='] ∨ ds = ['<', '=']) := by
    cases p <;> exact ⟨_, _, rfl, by decide, by decide, by decide, by decide⟩
  rw [hp, List.cons_append]
  refine NoItem.item?_eq ⟨hb, fun hc => ?_, ?_, ?_⟩
  · rcases hslash hc with rfl | rfl
    · exact ⟨hne '/' rfl, hne '*' rfl⟩
    · exact ⟨by simp, by simp⟩
  · rintro hc - ⟨rest, hr⟩
    have hh : (ds ++ tail).head? = some '!' := by rw [← hr]; rfl
    rcases hless hc with rfl | rfl | rfl | rfl
    · exact hne '!' rfl hh
    all_goals exact absurd hh (by simp)
  · rintro hc - ⟨rest, hr⟩
    rcases hminus hc with rfl | rfl | rfl
    · have htail : '-' :: '>' :: rest = tail := by simpa using hr
      exact hne '-' rfl (by rw [← htail]; rfl)
    · have htail : '>' :: rest = tail := by simpa using hr
      exact hne '>' rfl (by rw [← htail]; rfl)
    · exact absurd (List.cons.inj hr).1 (by decide)

/-- What is read as a lexeme is no gap in front of anything that separates it from the next character. -/
theorem item?_of_scan [WideConversion] {front rest : List Char} {x : Lexeme}
    (h : Lexeme.scan (front ++ rest) = .read x front.length) {tail : List Char} (ht : Replaces [] tail) :
    item? html lineStart (front ++ tail) = none := by
  obtain ⟨hpos, -⟩ := Lexeme.scan_pos h
  cases front with
  | nil => exact absurd hpos (by simp)
  | cons c front =>
    by_cases hp : Punctuator.isOpenedBy c = true
    · rw [List.cons_append, Lexeme.scan, if_pos hp] at h
      obtain ⟨p, -, hn, hl⟩ := Lexeme.longest?_of_scanPunctuator h
      have hspell := Punctuator.take_width_of_longest? hl
      rw [← List.cons_append, List.take_left' hn] at hspell
      rw [hspell]
      exact item?_spelling p ht
    · rw [List.cons_append]
      -- every opening of a comment begins with a punctuator, so only a blank is left
      refine NoItem.item?_eq ⟨?_, fun hc => ?_, fun hc => ?_, fun hc => ?_⟩
      · by_contra hb
        rw [List.cons_append, Lexeme.scan_of_separates (separates_of_isBlank (by simpa using hb))] at h
        cases h
      all_goals
        rw [hc] at hp
        exact absurd rfl hp

/-- Behind a filler a lexeme is not skipped. -/
theorem scan_filler_lexeme [WideConversion] {filler front rest tail : List Char} {x : Lexeme} (hf : Filler filler)
    (h : Lexeme.scan (front ++ rest) = .read x front.length) (ht : Replaces [] tail) :
    scan html lineStart (filler ++ (front ++ tail)) = .read () filler.length := by
  obtain ⟨ls, hls⟩ : ∃ ls, scan html lineStart (filler ++ (front ++ tail)) = _ := scan_filler hf lineStart _
  rw [hls, scan_of_none (item?_of_scan h ht)]
  rfl

/-! ## A line feed behind -/

/-- In front of a line feed a line terminator stays what it is, unless it is a carriage return. -/
theorem terminatorWidth_feed (cs b : List Char) :
    terminatorWidth cs ≤ cs.length ∧ (terminatorWidth (cs ++ '\n' :: b) = terminatorWidth cs ∧ cs ≠ [] ∨
      terminatorWidth cs = cs.length ∧ terminatorWidth (cs ++ '\n' :: b) = cs.length + 1) := by
  rcases cs with _ | ⟨c, _ | ⟨d, cs⟩⟩
  · exact ⟨Nat.le_refl 0, .inr ⟨rfl, rfl⟩⟩
  · have hw : terminatorWidth [c] = if isLineTerminator c then 1 else 0 := terminatorWidth_cons (by simp)
    refine ⟨by rw [hw]; split <;> simp, ?_⟩
    by_cases hc : c = '\r'
    · subst hc; exact .inr ⟨rfl, rfl⟩
    · refine .inl ⟨?_, by simp⟩
      rw [hw, List.singleton_append, terminatorWidth_cons fun h => absurd h hc]
  · by_cases hp : c = '\r' → d ≠ '\n'
    · rw [List.cons_append, List.cons_append, terminatorWidth_cons (by simpa using hp),
        terminatorWidth_cons (by simpa using hp)]
      exact ⟨by split <;> simp, .inl ⟨rfl, by simp⟩⟩
    · obtain ⟨rfl, hd⟩ := Classical.not_imp.1 hp
      obtain rfl := Classical.not_not.1 hd
      exact ⟨by simp [terminatorWidth], .inl ⟨rfl, by simp⟩⟩

/-- The rest of a line ends behind the first line terminator. -/
theorem lineWidth_append {body tail : List Char} (hb : ∀ c ∈ body, (!isLineTerminator c) = true)
    (ht : tail.head?.any (fun c => !isLineTerminator c) = false) :
    lineWidth (body ++ tail) = body.length + terminatorWidth tail := by
  rw [lineWidth, takeWhile_append hb ht, List.drop_left]

/-- The rest of a line takes a line feed with it only where the text ends. -/
theorem lineWidth_feed (cs b : List Char) :
    lineWidth cs ≤ cs.length ∧ (lineWidth (cs ++ '\n' :: b) = lineWidth cs ∨
      lineWidth cs = cs.length ∧ lineWidth (cs ++ '\n' :: b) = cs.length + 1) := by
  obtain ⟨body, rest, rfl, hb, hr⟩ : ∃ body rest, cs = body ++ rest ∧
      (∀ c ∈ body, (!isLineTerminator c) = true) ∧ rest.head?.any (fun c => !isLineTerminator c) = false :=
    ⟨_, _, (List.takeWhile_append_dropWhile (p := fun c => !isLineTerminator c) (l := cs)).symm,
      fun c => List.mem_takeWhile_imp, head_dropWhile_any _ cs⟩
  have hr' : (rest ++ '\n' :: b).head?.any (fun c => !isLineTerminator c) = false := by
    cases rest with
    | nil => rfl
    | cons c rest => exact hr
  rw [List.append_assoc, lineWidth_append hb hr, lineWidth_append hb hr', List.length_append]
  obtain ⟨hle, h | h⟩ := terminatorWidth_feed rest b
  · exact ⟨by omega, .inl (by omega)⟩
  · exact ⟨by omega, .inr ⟨by omega, by omega⟩⟩

/-- An item in front of a line feed is the same one, or takes it with it where the text ends. -/
theorem item?_feed {n : Nat} (h : item? html lineStart cs = some (.closed n)) (b : List Char) :
    n ≤ cs.length ∧ (item? html lineStart (cs ++ '\n' :: b) = some (.closed n) ∨
      n = cs.length ∧ item? html lineStart (cs ++ '\n' :: b) = some (.closed (n + 1))) := by
  -- the three comments to the end of a line differ in their opening alone
  have line : ∀ (opening : List Char) {ds : List Char}, cs = opening ++ ds → n = opening.length + lineWidth ds →
      (∀ es, item? html lineStart (opening ++ es) = some (.closed (opening.length + lineWidth es))) →
      n ≤ cs.length ∧ (item? html lineStart (cs ++ '\n' :: b) = some (.closed n) ∨
        n = cs.length ∧ item? html lineStart (cs ++ '\n' :: b) = some (.closed (n + 1))) := by
    rintro opening ds rfl rfl ho
    rw [List.append_assoc, ho, List.length_append]
    obtain ⟨hle, h | ⟨h₁, h₂⟩⟩ := lineWidth_feed ds b
    · exact ⟨by omega, .inl (by rw [h])⟩
    · exact ⟨by omega, .inr ⟨by omega, by rw [h₂, h₁]; rfl⟩⟩
  unfold item? at h
  split at h
  · next ds => cases h; exact line ['/', '/'] rfl rfl fun _ => rfl
  · next ds =>
    unfold blockComment at h
    split at h
    · next m hm =>
      cases h
      obtain ⟨body, rest, rfl, rfl, hb⟩ := commentBody_of_closeWidth? hm
      refine ⟨by simp; omega, .inl ?_⟩
      show some (blockComment (body ++ '*' :: '/' :: rest ++ '\n' :: b)) = _
      rw [List.append_assoc, List.cons_append, List.cons_append, blockComment, closeWidth?_append hb]
    · cases h
  · next ds =>
    split at h
    · next hh =>
      cases h
      apply line ['-', '-', '>'] rfl rfl
      intro es
      show (if (html && lineStart) = true then _ else _) = _
      rw [if_pos hh]
      rfl
    · cases h
  · next ds =>
    split at h
    · next hh =>
      cases h
      apply line ['<', '!', '-', '-'] rfl rfl
      intro es
      show (if html = true then _ else _) = _
      rw [if_pos hh]
      rfl
    · cases h
  · next c ds _ _ _ _ =>
    have cons : isBlank c = true → item? html lineStart (c :: ds ++ '\n' :: b) =
        if isWhiteSpace c then some (.closed 1)
        else if isLineTerminator c then some (.closed (terminatorWidth (c :: ds ++ '\n' :: b)))
        else none := fun hc => item?_cons (not_mem_of_isBlank hc) _
    split at h
    · next hw =>
      cases h
      exact ⟨by simp, .inl (by rw [cons (by simp [isBlank, hw]), if_pos hw])⟩
    · next hw =>
      split at h
      · next hl =>
        cases h
        rw [cons (by simp [isBlank, hl]), if_neg hw, if_pos hl]
        obtain ⟨hle, h | ⟨h₁, h₂⟩⟩ := terminatorWidth_feed (c :: ds) b
        · exact ⟨hle, .inl (by rw [h.1])⟩
        · exact ⟨hle, .inr ⟨h₁, by rw [h₂, h₁]⟩⟩
      · cases h
  · cases h

/-- Where no item begins, a line feed behind makes none. -/
theorem item?_feed_none (h : item? html lineStart cs = none) (hcs : cs ≠ []) (b : List Char) :
    item? html lineStart (cs ++ '\n' :: b) = none := by
  rcases cs with _ | ⟨c, cs⟩
  · exact absurd rfl hcs
  have hn := noItem_of_item? h
  -- a prefix without line feeds that the text gets was there before
  have before : ∀ {opening : List Char}, '\n' ∉ opening → opening <+: cs ++ '\n' :: b → opening <+: cs := by
    intro opening ho hp
    have hfeed : cs ++ ['\n'] <+: cs ++ '\n' :: b := ⟨b, by simp⟩
    rcases List.prefix_or_prefix_of_prefix hp hfeed with hp | hp
    · rcases List.prefix_concat_iff.1 hp with rfl | hp
      · exact absurd (by simp) ho
      · exact hp
    · exact absurd (hp.subset (by simp)) ho
  refine NoItem.item?_eq ⟨hn.blank, fun hc => ?_, fun hc hh hp => hn.htmlOpen hc hh (before (by decide) hp),
    fun hc hh hp => hn.htmlClose hc hh (before (by decide) hp)⟩
  cases cs with
  | nil => exact ⟨by simp, by simp⟩
  | cons d cs => exact hn.comment hc

/-- A gap in front of a line feed ends where it ended before, or takes the line feed with it and goes on
at the start of a line. -/
theorem scan_feed {n : Nat} (h : scan html lineStart cs = .read () n) (b : List Char) :
    n ≤ cs.length ∧ (n < cs.length → scan html lineStart (cs ++ '\n' :: b) = .read () n) ∧
      (n = cs.length → scan html lineStart (cs ++ '\n' :: b) = (scan html true b).after (cs.length + 1)) := by
  fun_induction scan html lineStart cs generalizing n with
  | case1 lineStart cs hi =>
    cases h
    refine ⟨by omega, fun hlt => ?_, fun hn => ?_⟩
    · have hne : cs ≠ [] := by rintro rfl; simp at hlt
      exact scan_of_none (item?_feed_none hi hne b)
    · obtain rfl : cs = [] := List.length_eq_zero_iff.1 hn.symm
      have hl : isLineTerminator '\n' = true := by decide
      rw [List.nil_append, scan_blank (by decide), hl, Bool.or_true]
      rfl
  | case2 => cases h
  | case3 lineStart cs k hi ih =>
    obtain ⟨m, hm, rfl⟩ := Scan.after_eq_read h
    obtain ⟨hmle, hlt, heq⟩ := ih hm
    rw [List.length_drop] at hmle hlt heq
    obtain ⟨hk, hi' | ⟨hlen, hi'⟩⟩ := item?_feed hi b
    · -- the item is unchanged, and the induction speaks of what follows it
      have hs := scan_of_closed hi'
      rw [List.take_append_of_le_length hk, List.drop_append_of_le_length hk] at hs
      refine ⟨by omega, fun h => ?_, fun h => ?_⟩
      · rw [hs, hlt (by omega)]; rfl
      · rw [hs, heq (by omega), Scan.after_after]
        congr 1
        omega
    · -- the item ends the text and takes the line feed with it
      refine ⟨by omega, fun h => by omega, fun _ => ?_⟩
      have ht : (cs ++ '\n' :: b).take (k + 1) = cs ++ ['\n'] := by
        rw [hlen, List.take_length_add_append]; rfl
      have hd : (cs ++ '\n' :: b).drop (k + 1) = b := by
        rw [hlen, List.drop_length_add_append]; rfl
      have hl : isLineTerminator '\n' = true := by decide
      rw [scan_of_closed hi', ht, hd, hasLineTerminator_append, hasLineTerminator_cons, hl, hlen]
      simp

end Gap

end EcmaTokens
