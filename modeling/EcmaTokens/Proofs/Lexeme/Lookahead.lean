/-
How far ahead gaps and lexemes look. A run of items is a gap exactly if no item follows it, and an item
is recognised by itself and the character behind it; that no item follows shows in the four bytes that
open the longest comment. So a text decides what stands in front of its last four bytes, and a lexeme
that ends inside it, whatever comes behind the text.
-/
import EcmaTokens.Proofs.Lexeme.Skip

namespace EcmaTokens

/-! ## Fronts of a text -/

/-- What the text has in front with another text behind, it has by itself if it is long enough. -/
theorem prefix_of_prefix_append {front cs tail : List Char} (h : front <+: cs ++ tail)
    (hl : utf8Length front ≤ utf8Length cs) : front <+: cs := by
  rcases List.prefix_or_prefix_of_prefix h (List.prefix_append cs tail) with hp | ⟨r, rfl⟩
  · exact hp
  · have hr : r = [] := by
      by_contra hne
      have := utf8Length_pos hne
      rw [utf8Length_append] at hl
      omega
    exact ⟨[], by rw [hr, List.append_nil, List.append_nil]⟩

/-- Characters with fewer bytes than the text end inside it. -/
theorem lt_length_of_utf8Length_take {cs tail : List Char} {n : Nat}
    (h : utf8Length ((cs ++ tail).take n) < utf8Length cs) : n < cs.length := by
  by_contra hn
  rw [List.take_append, List.take_of_length_le (by omega), utf8Length_append] at h
  omega

/-- Three bytes in front of the end of the text, `n` characters and `m` more end inside it, and behind the first
`n` there are four bytes. -/
theorem four_le_utf8Length_drop {cs tail : List Char} {n m : Nat} (hm : 0 < m)
    (h : utf8Length ((cs ++ tail).take (n + m)) + 3 ≤ utf8Length cs) :
    n + m < cs.length ∧ 4 ≤ utf8Length (cs.drop n) := by
  have hlen : n + m < cs.length :=
    lt_length_of_utf8Length_take (Nat.lt_of_lt_of_le (Nat.lt_add_of_pos_right (by decide)) h)
  refine ⟨hlen, ?_⟩
  have hpos : 0 < utf8Length ((cs.drop n).take m) := by
    apply utf8Length_pos
    rw [ne_eq, List.take_eq_nil_iff, List.drop_eq_nil_iff]
    omega
  have hsum := congrArg utf8Length (List.take_append_drop n cs)
  rw [utf8Length_append] at hsum
  rw [List.take_append_of_le_length hlen.le, List.take_add, utf8Length_append] at h
  omega

theorem head?_append_of_ne_nil {cs : List Char} (h : cs ≠ []) (x y : List Char) :
    (cs ++ x).head? = (cs ++ y).head? := by
  cases cs with
  | nil => exact absurd rfl h
  | cons c cs => rfl

namespace Gap

variable {html lineStart : Bool} {cs rest : List Char}

/-! ## The character behind an item -/

theorem LineEnd.of_head? {e rest' : List Char} (h : LineEnd e rest) (hh : rest'.head? = rest.head?) :
    LineEnd e rest' := by
  cases h with
  | pair => exact .pair rest'
  | single hc hs =>
    refine .single hc ?_
    rw [Seam, hh]
    exact hs

/-- An item is one in front of every text that begins alike. -/
theorem Trivia.of_head? {item rest' : List Char} (h : Trivia html lineStart item rest)
    (hh : rest'.head? = rest.head?) : Trivia html lineStart item rest' := by
  cases h with
  | whiteSpace hc => exact .whiteSpace hc
  | lineEnd he => exact .lineEnd (he.of_head? hh)
  | lineComment ho hb he =>
    refine .lineComment ho hb ?_
    rcases he with he | ⟨rfl, rfl⟩
    · exact .inl (he.of_head? hh)
    · exact .inr ⟨rfl, List.head?_eq_none_iff.1 hh⟩
  | blockComment hb => exact .blockComment hb

theorem Filled.of_head? {gap rest' : List Char} (h : Filled html lineStart gap rest)
    (hh : rest'.head? = rest.head?) : Filled html lineStart gap rest' := by
  induction h with
  | nil => exact .nil
  | cons hi _ ih =>
    refine .cons (hi.of_head? ?_) (ih hh)
    rw [List.head?_append, List.head?_append, hh]

/-! ## Items are recognised -/

theorem LineEnd.head {e : List Char} (h : LineEnd e rest) : ∃ c ds, e = c :: ds ∧ isLineTerminator c = true := by
  cases h with
  | pair => exact ⟨_, _, rfl, by decide⟩
  | single hc _ => exact ⟨_, _, rfl, hc⟩

theorem LineEnd.terminatorWidth_eq {e : List Char} (h : LineEnd e rest) :
    terminatorWidth (e ++ rest) = e.length := by
  cases h with
  | pair => rfl
  | single hc hs =>
    rw [List.singleton_append, terminatorWidth_cons, if_pos hc]
    · rfl
    · rintro rfl
      simpa [Seam] using hs

/-- The rest of a line goes as far as a comment to its end. -/
theorem lineWidth_eq {body e : List Char} (hb : hasLineTerminator body = false)
    (he : LineEnd e rest ∨ e = [] ∧ rest = []) : lineWidth (body ++ (e ++ rest)) = body.length + e.length := by
  have hb : ∀ c ∈ body, (!isLineTerminator c) = true := by
    intro c hc
    simpa using List.any_eq_false.1 hb c hc
  rcases he with he | ⟨rfl, rfl⟩
  · obtain ⟨c, ds, rfl, hc⟩ := he.head
    rw [lineWidth_append hb (by simp [hc]), he.terminatorWidth_eq]
  · rw [lineWidth_append hb rfl]
    rfl

/-- Every item is recognised. -/
theorem item?_of_trivia {item : List Char} (h : Trivia html lineStart item rest) :
    item? html lineStart (item ++ rest) = some (.closed item.length) := by
  cases h with
  | whiteSpace hc =>
    rw [List.singleton_append, item?_cons (not_mem_of_isBlank (by simp [isBlank, hc])), if_pos hc]
    rfl
  | lineEnd he =>
    obtain ⟨c, ds, rfl, hc⟩ := he.head
    have hw := he.terminatorWidth_eq
    rw [List.cons_append] at hw ⊢
    rw [item?_cons (not_mem_of_isBlank (by simp [isBlank, hc])),
      if_neg (by simp [not_isWhiteSpace_of_isLineTerminator hc]), if_pos hc, hw]
  | @lineComment opening body e _ ho hb he =>
    have hl : (opening ++ body ++ e).length = opening.length + lineWidth (body ++ (e ++ rest)) := by
      rw [lineWidth_eq hb he, List.append_assoc, List.length_append, List.length_append]
    rw [hl, List.append_assoc, List.append_assoc]
    cases ho with
    | slashes => rfl
    | htmlOpen hh =>
      show (if html = true then some (Item.closed (4 + _)) else none) = _
      rw [if_pos hh]
      rfl
    | htmlClose hh hs =>
      show (if (html && lineStart) = true then some (Item.closed (3 + _)) else none) = _
      rw [if_pos (by rw [hh, hs]; rfl)]
      rfl
  | @blockComment body _ hb =>
    show some (blockComment (body ++ ['*', '/'] ++ rest)) = _
    rw [List.append_assoc, blockComment, show ['*', '/'] ++ rest = '*' :: '/' :: rest from rfl,
      closeWidth?_append hb]
    simp
    omega

/-- A run of items is skipped if no item follows it. -/
theorem scan_of_filled {gap : List Char} (h : Filled html lineStart gap rest)
    (hn : item? html (lineStart || hasLineTerminator gap) rest = none) :
    scan html lineStart (gap ++ rest) = .read () gap.length := by
  induction h with
  | nil => exact scan_of_none (by simpa using hn)
  | @cons lineStart item gap rest hi _ ih =>
    rw [hasLineTerminator_append, ← Bool.or_assoc] at hn
    rw [List.append_assoc, scan_of_closed (item?_of_trivia hi), List.take_left, List.drop_left, ih hn,
      List.length_append]
    rfl

/-- Skipping goes on as long as items follow. -/
theorem item?_of_scan_read {n : Nat} (h : scan html lineStart cs = .read () n) :
    item? html (lineStart || hasLineTerminator (cs.take n)) (cs.drop n) = none := by
  fun_induction scan html lineStart cs generalizing n with
  | case1 lineStart cs hi => cases h; simpa using hi
  | case2 => cases h
  | case3 lineStart cs k hi ih =>
    obtain ⟨m, hm, rfl⟩ := Scan.after_eq_read h
    have := ih hm
    rwa [List.take_add, hasLineTerminator_append, ← Bool.or_assoc, ← List.drop_drop]

/-! ## Gaps in front of a text -/

/-- That no item follows shows in four bytes. -/
theorem item?_append_none {x : List Char} (h : item? html lineStart (cs ++ x) = none) (hn : 4 ≤ utf8Length cs)
    (y : List Char) : item? html lineStart (cs ++ y) = none := by
  cases cs with
  | nil => simp at hn
  | cons c cs =>
    have hi := noItem_of_item? h
    -- behind an opening character of one byte there are three more
    have three : c.utf8Size = 1 → 3 ≤ utf8Length cs := by
      intro hc
      rw [utf8Length_cons] at hn
      omega
    have before : ∀ {front : List Char}, utf8Length front ≤ utf8Length cs → front <+: cs ++ y →
        front <+: cs ++ x :=
      fun hl hp => (prefix_of_prefix_append hp hl).trans (List.prefix_append _ _)
    refine NoItem.item?_eq ⟨hi.blank, fun hc => ?_, fun hc hh hp => hi.htmlOpen hc hh (before ?_ hp),
      fun hc hh hp => hi.htmlClose hc hh (before ?_ hp)⟩
    · have hne : cs ≠ [] := by
        rintro rfl
        have := three (by rw [hc]; decide)
        simp at this
      show (cs ++ y).head? ≠ _ ∧ (cs ++ y).head? ≠ _
      rw [head?_append_of_ne_nil hne y x]
      exact hi.comment hc
    · exact Nat.le_trans (by decide) (three (by rw [hc]; decide))
    · exact Nat.le_trans (by decide) (three (by rw [hc]; decide))

/-- A gap that ends at least four bytes in front of the end of a text is the same whatever comes behind
the text. -/
theorem scan_append {x : List Char} {n : Nat} (h : scan html lineStart (cs ++ x) = .read () n)
    (hn : n < cs.length) (hd : 4 ≤ utf8Length (cs.drop n)) (y : List Char) :
    scan html lineStart (cs ++ y) = .read () n := by
  have hf := filled_scan html lineStart (cs ++ x)
  have hi := item?_of_scan_read h
  rw [h] at hf
  simp only [Scan.width, List.take_append_of_le_length hn.le, List.drop_append_of_le_length hn.le] at hf hi
  have hne : cs.drop n ≠ [] := by
    rw [ne_eq, List.drop_eq_nil_iff]
    omega
  have hs := scan_of_filled (hf.of_head? (head?_append_of_ne_nil hne y x)) (item?_append_none hi hd y)
  rwa [← List.append_assoc, List.take_append_drop, List.length_take, Nat.min_eq_left hn.le] at hs

end Gap

/-- A lexeme that ends inside a text is the same whatever comes behind the text. -/
theorem Lexeme.scan_append [WideConversion] {cs x : List Char} {l : Lexeme} {n : Nat} (h : scan (cs ++ x) = .read l n)
    (hn : n < cs.length) (y : List Char) : scan (cs ++ y) = .read l n := by
  obtain ⟨front, rest, heq, rfl, hl⟩ := scan_local h
  have hcs : cs = front ++ cs.drop front.length := by
    have ht := congrArg (List.take front.length) heq
    rw [List.take_append_of_le_length hn.le, List.take_left] at ht
    conv_lhs => rw [← List.take_append_drop front.length cs, ht]
  have hne : cs.drop front.length ≠ [] := by
    rw [ne_eq, List.drop_eq_nil_iff]
    omega
  rw [hcs, List.append_assoc, List.append_cancel_left_eq] at heq
  rw [hcs, List.append_assoc]
  apply hl
  intro c hc
  rw [head?_append_of_ne_nil hne y x, heq] at hc
  exact .inr hc

end EcmaTokens
