/-
Skipping a gap. The text at a place begins with items of a gap, one after the other up to where none begins, and in
one way only. They are what is skipped, and a line terminator among them is noticed; if what follows them opens a
block comment that never closes, everything is gone over, and the comment is reported where it opens.
-/
import EcmaTokens.Proofs.Lexeme.Lookahead
import EcmaTokens.Proofs.Session.Outcome

namespace EcmaTokens

namespace Gap

variable {html atStart lineStart : Bool} {cs rest x y : List Char} {items : List (List Char)}

/-! ## Items one after the other -/

/-- The text is made of items, each of them in front of the next, and of a rest at which no item begins. A line starts
where the source does, if `atStart` says that the text stands there, and behind a line terminator among the items. -/
structure Decomposes (html atStart : Bool) (cs : List Char) (items : List (List Char)) (rest : List Char) : Prop where
  eq_append : cs = items.flatten ++ rest
  item : ∀ before x after, items = before ++ x :: after →
    Trivia html (atStart || hasLineTerminator before.flatten) x (after.flatten ++ rest)
  maximal : ∀ x tail, rest = x ++ tail → ¬ Trivia html (atStart || hasLineTerminator items.flatten) x tail

namespace Decomposes

theorem nil (h : ∀ x tail, cs = x ++ tail → ¬ Trivia html atStart x tail) : Decomposes html atStart cs [] cs := by
  refine ⟨rfl, fun before x after hx => ?_, ?_⟩
  · cases before <;> cases hx
  · simpa using h

/-- One item more in front of the text. -/
theorem cons (hx : Trivia html atStart x cs) (h : Decomposes html (atStart || hasLineTerminator x) cs items rest) :
    Decomposes html atStart (x ++ cs) (x :: items) rest := by
  refine ⟨?_, fun before y after hy => ?_, ?_⟩
  · rw [List.flatten_cons, List.append_assoc, ← h.eq_append]
  · cases before with
    | nil =>
      obtain ⟨rfl, rfl⟩ := List.cons.inj hy
      rw [← h.eq_append]
      simpa using hx
    | cons z before =>
      obtain ⟨rfl, htail⟩ := List.cons.inj hy
      have := h.item before y after htail
      rwa [Bool.or_assoc, ← hasLineTerminator_append, ← List.flatten_cons] at this
  · have := h.maximal
    rwa [Bool.or_assoc, ← hasLineTerminator_append, ← List.flatten_cons] at this

theorem head (h : Decomposes html atStart cs (x :: items) rest) :
    Trivia html atStart x (items.flatten ++ rest) := by
  simpa using h.item [] x items rfl

theorem tail (h : Decomposes html atStart cs (x :: items) rest) :
    Decomposes html (atStart || hasLineTerminator x) (items.flatten ++ rest) items rest := by
  refine ⟨rfl, fun before y after hy => ?_, ?_⟩
  · have := h.item (x :: before) y after (by rw [hy, List.cons_append])
    rwa [List.flatten_cons, hasLineTerminator_append, ← Bool.or_assoc] at this
  · have := h.maximal
    rwa [List.flatten_cons, hasLineTerminator_append, ← Bool.or_assoc] at this

end Decomposes

/-- At most one item stands at the front of a text. -/
theorem trivia_unique {a b : List Char} (hx : Trivia html lineStart x a) (hy : Trivia html lineStart y b)
    (h : x ++ a = y ++ b) : x = y ∧ a = b := by
  have hi := item?_of_trivia hx
  rw [h, item?_of_trivia hy] at hi
  have hlen : x.length = y.length := (Item.closed.inj (Option.some.inj hi)).symm
  exact List.append_inj h hlen

/-- A text is made of items and a rest in one way only. -/
theorem Decomposes.unique {items' : List (List Char)} {rest' : List Char}
    (h : Decomposes html atStart cs items rest) (h' : Decomposes html atStart cs items' rest') :
    items' = items ∧ rest' = rest := by
  induction items generalizing atStart cs items' with
  | nil =>
    cases items' with
    | nil => exact ⟨rfl, h'.eq_append.symm.trans h.eq_append⟩
    | cons y items' =>
      have hrest : rest = y ++ (items'.flatten ++ rest') := by
        rw [← List.append_assoc, ← List.flatten_cons, ← h'.eq_append]
        exact h.eq_append.symm
      exact absurd h'.head (by simpa using h.maximal y _ hrest)
  | cons x items ih =>
    cases items' with
    | nil =>
      have hrest : rest' = x ++ (items.flatten ++ rest) := by
        rw [← List.append_assoc, ← List.flatten_cons, ← h.eq_append]
        exact h'.eq_append.symm
      exact absurd h.head (by simpa using h'.maximal x _ hrest)
    | cons y items' =>
      have hcs := h.eq_append.symm.trans h'.eq_append
      rw [List.flatten_cons, List.flatten_cons, List.append_assoc, List.append_assoc] at hcs
      obtain ⟨rfl, htail⟩ := trivia_unique h.head h'.head hcs
      have ht := h'.tail
      rw [← htail] at ht
      obtain ⟨rfl, rfl⟩ := ih h.tail ht
      exact ⟨rfl, rfl⟩

/-! ## Unclosed comments -/

/-- The text opens a block comment that never closes. -/
def Unclosed (cs : List Char) : Prop :=
  ∃ ds, cs = '/' :: '*' :: ds ∧ ¬ ['*', '/'] <:+: ds

theorem closeWidth?_eq_none_iff (cs : List Char) : closeWidth? cs = none ↔ ¬ ['*', '/'] <:+: cs := by
  fun_induction closeWidth? cs with
  | case1 rest => exact iff_of_false (Option.some_ne_none _) (not_not_intro ⟨[], rest, rfl⟩)
  | case2 c cs hn ih =>
    rw [Option.map_eq_none_iff, ih, List.infix_cons_iff, not_or]
    refine (and_iff_right ?_).symm
    rintro ⟨ds, hds⟩
    obtain ⟨rfl, rfl⟩ := List.cons.inj hds
    exact hn ds rfl rfl
  | case3 => exact ⟨fun _ h => by simpa using h.length_le, fun _ => rfl⟩

theorem item?_eq_unclosed_iff : item? html lineStart cs = some .unclosed ↔ Unclosed cs := by
  constructor
  · intro h
    unfold item? at h
    split at h
    · cases h
    · next ds =>
      refine ⟨ds, rfl, (closeWidth?_eq_none_iff ds).1 ?_⟩
      unfold blockComment at h
      split at h
      · cases h
      · next hn => exact hn
    · split at h <;> cases h
    · split at h <;> cases h
    · split at h
      · cases h
      · split at h <;> cases h
    · cases h
  · rintro ⟨ds, rfl, hn⟩
    show some (blockComment ds) = _
    rw [blockComment, (closeWidth?_eq_none_iff ds).2 hn]

/-! ## Skipping -/

/-- What the text has at its front is skipped, and nothing else. -/
theorem exists_decomposes (html lineStart : Bool) (cs : List Char) :
    ∃ items rest, Decomposes html lineStart cs items rest ∧
      (Unclosed rest → scan html lineStart cs = .malformed items.flatten.length) ∧
      (¬ Unclosed rest → scan html lineStart cs = .read () items.flatten.length ∧
        item? html (lineStart || hasLineTerminator items.flatten) rest = none) := by
  -- where there is an item it is recognised
  have none_of_item? : ∀ {lineStart : Bool} {cs : List Char}, (∀ n, item? html lineStart cs ≠ some (.closed n)) →
      Decomposes html lineStart cs [] cs := by
    intro lineStart cs hn
    refine .nil fun x tail hx ht => ?_
    rw [hx] at hn
    exact hn _ (item?_of_trivia ht)
  fun_induction scan html lineStart cs with
  | case1 lineStart cs hi =>
    refine ⟨[], cs, none_of_item? (by simp [hi]), fun hu => ?_, fun _ => ⟨rfl, by simpa using hi⟩⟩
    rw [item?_eq_unclosed_iff.2 hu] at hi
    cases hi
  | case2 lineStart cs hi =>
    exact ⟨[], cs, none_of_item? (by simp [hi]), fun _ => rfl, fun hn => absurd (item?_eq_unclosed_iff.1 hi) hn⟩
  | case3 lineStart cs n hi ih =>
    obtain ⟨items, rest, hd, hu, hc⟩ := ih
    have hn : (cs.take n).length + items.flatten.length = ((cs.take n) :: items).flatten.length := by simp
    have hlen : (cs.take n).length = n := List.length_take_of_le (item?_feed hi []).1
    rw [hlen] at hn
    have hdec := hd.cons (trivia_of_item? hi)
    rw [List.take_append_drop] at hdec
    refine ⟨cs.take n :: items, rest, hdec, fun h => ?_, fun h => ?_⟩
    · rw [hu h, ← hn]; rfl
    · obtain ⟨hs, hnone⟩ := hc h
      rw [hs, ← hn, List.flatten_cons, hasLineTerminator_append, ← Bool.or_assoc]
      exact ⟨rfl, hnone⟩

/-- Where no item begins, none begins in the middle of a line. -/
theorem item?_none_of_le {lineStart' : Bool} (h : item? html lineStart cs = none)
    (hle : lineStart' = true → lineStart = true) : item? html lineStart' cs = none := by
  cases cs with
  | nil => rfl
  | cons c cs =>
    have hn := noItem_of_item? h
    refine NoItem.item?_eq ⟨hn.blank, hn.comment, hn.htmlOpen, fun hc hh => hn.htmlClose hc ?_⟩
    rw [Bool.and_eq_true] at hh ⊢
    exact ⟨hh.1, hle hh.2⟩

end Gap

namespace Reading

open Gap (Decomposes Unclosed skip)

/-- What is read at an origin begins there, and keeps what was noticed in front of it. -/
theorem origin_ofOrigin [WideConversion] (strict lineBreak : Bool) (p : Place) :
    (ofOrigin strict lineBreak p).origin = p ∧ (ofOrigin strict lineBreak p).lineBreak = lineBreak := by
  unfold ofOrigin
  split
  · exact ⟨rfl, rfl⟩
  · split <;> exact ⟨rfl, rfl⟩

/-- Skipping a gap is exact, at every place and under all settings. The text at the place is made of items and a rest
at which no item begins, in one way only. Skipping fails exactly if the rest opens a block comment that never closes:
the comment is reported where it opens, with everything gone over to the end of the source. Otherwise it goes over
the items, and skipping again from there goes over nothing. In both cases a line terminator is noticed exactly if one
is in what was gone over. -/
theorem skip_exact [WideConversion] (settings : Settings) (p : Place) :
    ∃ items rest, Decomposes settings.htmlComments (p.offset == 0) p.rest items rest ∧
      (∀ items' rest', Decomposes settings.htmlComments (p.offset == 0) p.rest items' rest' →
        items' = items ∧ rest' = rest) ∧
      ((∃ n lineBreak, skip settings.htmlComments ⟨p.offset == 0, false⟩ p.rest = (.malformed n, lineBreak)) ↔
        Unclosed rest) ∧
      (Unclosed rest →
        skip settings.htmlComments ⟨p.offset == 0, false⟩ p.rest =
          (.malformed items.flatten.length, hasLineTerminator p.rest) ∧
        (ofPlace settings p).stop = p.finish ∧ (ofPlace settings p).lineBreak = hasLineTerminator p.rest ∧
        ∃ d opening, (ofPlace settings p).result = .error d ∧ d.kind = .illegalLexeme ∧
          opening = p.advance items.flatten.length ∧ opening.rest = rest ∧ d.index = opening.offset ∧
          d.line = opening.location.line + 1 ∧ d.column = opening.location.column + 1) ∧
      (¬ Unclosed rest →
        skip settings.htmlComments ⟨p.offset == 0, false⟩ p.rest =
          (.read () items.flatten.length, hasLineTerminator items.flatten) ∧
        (ofPlace settings p).lineBreak = hasLineTerminator items.flatten ∧
        ∃ origin, (ofPlace settings p).origin = origin ∧ origin = p.advance items.flatten.length ∧
          origin.rest = rest ∧
          skip settings.htmlComments ⟨origin.offset == 0, false⟩ origin.rest = (.read () 0, false)) := by
  obtain ⟨items, rest, hd, hunclosed, hclosed⟩ := Gap.exists_decomposes settings.htmlComments (p.offset == 0) p.rest
  have htake : p.rest.take items.flatten.length = items.flatten := by rw [hd.eq_append, List.take_left]
  have hdrop : (p.advance items.flatten.length).rest = rest := by
    rw [Place.rest_advance, hd.eq_append, List.drop_left]
  have hfail : Unclosed rest → skip settings.htmlComments ⟨p.offset == 0, false⟩ p.rest =
      (.malformed items.flatten.length, hasLineTerminator p.rest) := by
    intro hu
    rw [Gap.skip_eq, hunclosed hu]
    rfl
  have hread : ¬ Unclosed rest → skip settings.htmlComments ⟨p.offset == 0, false⟩ p.rest =
      (.read () items.flatten.length, hasLineTerminator items.flatten) := by
    intro hn
    rw [Gap.skip_eq, (hclosed hn).1, Gap.covered, htake]
    rfl
  refine ⟨items, rest, hd, fun _ _ => hd.unique, ⟨?_, fun hu => ⟨_, _, hfail hu⟩⟩, fun hu => ?_, fun hn => ?_⟩
  · rintro ⟨n, lineBreak, hs⟩
    by_contra hn
    rw [hread hn] at hs
    cases hs
  · have hr : ofPlace settings p =
        ⟨.error (.malformed (p.advance items.flatten.length).location .illegalToken),
          p.advance items.flatten.length, p.finish, hasLineTerminator p.rest⟩ := by
      rw [ofPlace, hfail hu]
    rw [hr]
    exact ⟨hfail hu, rfl, rfl, _, _, rfl, rfl, rfl, hdrop, rfl, rfl, rfl⟩
  · have hr : ofPlace settings p =
        ofOrigin settings.strict (hasLineTerminator items.flatten) (p.advance items.flatten.length) := by
      rw [ofPlace, hread hn]
    obtain ⟨horigin, hbreak⟩ := origin_ofOrigin settings.strict (hasLineTerminator items.flatten)
      (p.advance items.flatten.length)
    rw [hr]
    refine ⟨hread hn, hbreak, _, horigin, rfl, hdrop, ?_⟩
    -- the source starts here only if nothing was skipped
    have hle : ((p.advance items.flatten.length).offset == 0) = true →
        ((p.offset == 0) || hasLineTerminator items.flatten) = true := by
      intro h
      rw [Place.offset_advance, beq_iff_eq, Nat.add_eq_zero_iff] at h
      rw [h.1]
      rfl
    rw [Gap.skip_eq, hdrop, Gap.scan_of_none (Gap.item?_none_of_le (hclosed hn).2 hle)]
    simp [Gap.covered]

/-- Behind a line terminator `-->` opens a comment, and a slash directly behind the star does not close a block
comment: the failure is reported where that comment opens. -/
theorem skip_exact_unclosed :
    ∃ items rest d, Decomposes true true " \r\n--> c\n/*/ x".toList items rest ∧ Unclosed rest ∧
      items.flatten.length = 9 ∧ (ofPlace {} (.start " \r\n--> c\n/*/ x".toList)).result = .error d ∧ d.index = 9 ∧
      d.line = 3 ∧ d.column = 1 ∧ (ofPlace {} (.start " \r\n--> c\n/*/ x".toList)).lineBreak = true := by
  have hs : skip true ⟨true, false⟩ " \r\n--> c\n/*/ x".toList = (.malformed 9, true) := by decide +kernel
  obtain ⟨items, rest, hd, -, hiff, hfail, -⟩ := skip_exact {} (.start " \r\n--> c\n/*/ x".toList)
  have hu : Unclosed rest := hiff.1 ⟨9, true, hs⟩
  obtain ⟨hskip, -, hbreak, d, opening, hresult, -, hopening, -, hindex, hline, hcolumn⟩ := hfail hu
  have hlen : items.flatten.length = 9 := by
    have := hskip.symm.trans hs
    exact Scan.malformed.inj (Prod.mk.inj this).1
  rw [hlen] at hopening
  rw [hopening] at hindex hline hcolumn
  exact ⟨items, rest, d, hd, hu, hlen, hresult, hindex.trans (by decide +kernel), hline.trans (by decide +kernel),
    hcolumn.trans (by decide +kernel), hbreak.trans (by decide +kernel)⟩

end Reading

end EcmaTokens
