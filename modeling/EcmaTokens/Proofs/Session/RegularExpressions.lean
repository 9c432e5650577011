/-
Reading a slash again. As long as the cursor is on the line of a pending slash, the call gives an answer that the
text of the line decides: the literal up to the first slash that closes it, with its flags, or a failure at the end
of the line. A pending slash never opens a comment, as the gap in front of it would have gone on.
-/
import EcmaTokens.Proofs.Lexeme.ClosingSlash
import EcmaTokens.Proofs.Lexeme.Lookahead
import EcmaTokens.Proofs.Session.Coherence

namespace EcmaTokens

open EcmaTokens.RegularExpression (Closes Literal)

/-- A slash is read where no comment begins. -/
theorem Reading.Outcome.slash_alone [WideConversion] {settings : Settings} {p : Place} {r : Reading} {t : Token}
    (h : Outcome settings p r) (ht : r.result = .ok t) (hs : t.kind.isSlash = true) :
    ∃ cs, r.origin.rest = '/' :: cs ∧ cs.head? ≠ some '/' ∧ cs.head? ≠ some '*' := by
  obtain ⟨cs, hcs⟩ := List.head?_eq_some_iff.1 (h.slash ht hs).1
  refine ⟨cs, hcs, ?_⟩
  cases h with
  | unclosed => cases ht
  | eof => cases ht; cases hs
  | @lexeme n m x hg hx =>
    have hcs : p.rest.drop n = '/' :: cs := hcs
    have hi := Gap.item?_of_scan_read hg
    rw [hcs] at hi
    exact (Gap.noItem_of_item? hi).comment rfl
  | malformed => cases ht

namespace Session

variable {source : List Char} {s s' : Session} {t : Token}

/-! ## What is taken first -/

/-- No token has been taken and `t` is still pending, or `t` is the first token that was taken. -/
def HandsOutFirst (t : Token) (es : List Event) (s : Session) : Prop :=
  es.filterMap Event.taken? = [] ∧ s.pending = t ∧ s.atEnd? = none ∨ (es.filterMap Event.taken?).head? = some t

section

variable [WideConversion]

theorem HandsOutFirst.effect {es : List Event} {e : Event} (h : HandsOutFirst t es s) (hs : t.kind.isSlash = false)
    (hk : t.isEof = false) (he : s.Effect e s') : HandsOutFirst t (es ++ [e]) s' := by
  rw [HandsOutFirst, List.filterMap_append]
  obtain ⟨hnone, rfl, ha⟩ | hfirst := h
  · rw [hnone, List.nil_append]
    cases he with
    | setStrict => exact .inl ⟨rfl, rfl, ha⟩
    | exhausted => exact .inl ⟨rfl, rfl, ha⟩
    | @lexed c r s₁ hc hr =>
      cases hr with
      | atEnd h => rw [ha] at h; cases h
      | @stuck d =>
        have htaken := taken?_of_error hc d
        exact .inl ⟨by simp [htaken], rfl, ha⟩
      | handOut =>
        have htaken := taken?_deliver hc s.pending
        rw [if_neg (by simp [hk])] at htaken
        exact .inr (by simp [htaken])
    | rescanned hr =>
      cases hr with
      | unexpected => exact .inl ⟨rfl, rfl, ha⟩
      | unterminated h => rw [hs] at h; cases h
      | literal h => rw [hs] at h; cases h
  · refine .inr ?_
    rw [List.head?_append, hfirst]
    rfl

/-- The first token that is taken is the pending one, if it can neither be read again nor be left out. -/
theorem taken_first (ha : s.atEnd? = none) (hs : s.pending.kind.isSlash = false) (hk : s.pending.isEof = false)
    {es : List Event} (hr : Run s es s') (h : (es.filterMap Event.taken?).head? = some t) : t = s.pending := by
  have hfirst : HandsOutFirst s.pending es s' :=
    hr.keeps (HandsOutFirst s.pending) (.inl ⟨rfl, rfl, ha⟩) fun _ _ _ _ hI he => hI.effect hs hk he
  obtain ⟨hnone, -⟩ | hfirst := hfirst
  · rw [hnone] at h; cases h
  · exact Option.some.inj (h.symm.trans hfirst)

/-! ## Reading the slash again -/

/-- The slash of the session has become the literal `t`, spelled `text`: it spans its text from where the slash
stands, is pending now with everything but the cursor as before, and is what is handed out next. -/
structure BecomesLiteral (s : Session) (text : List Char) (t : Token) (s' : Session) : Prop where
  kind : t.kind = .regExp (String.ofList text)
  value : t.value = String.ofList text
  spelled : t.text = String.ofList text
  span : t.span = ⟨s.pending.span.start, s.pending.span.start + utf8Length text⟩
  location : t.location = s.pending.location
  state : s' = { s with place := s'.place, pending := t }
  cursor : s'.place.offset = t.span.stop
  first : ∀ es s'' u, Run s' es s'' → (es.filterMap Event.taken?).head? = some u → u = t

theorem becomesLiteral (h : s.Sound source) (hs : s.pending.kind.isSlash = true) {text tail : List Char}
    (hr : s.origin.rest = text ++ tail) :
    s.BecomesLiteral text (s.regExp text.length) { s.toOrigin text.length with pending := s.regExp text.length } := by
  obtain ⟨k, hk⟩ := h.pending
  have htake : s.origin.rest.take text.length = text := by rw [hr, List.take_left]
  have hoffset : (s.origin.advance text.length).offset = s.origin.offset + utf8Length text := by
    rw [Place.offset_advance, htake]
  have hstart : s.pending.span.start = s.origin.offset := by rw [hk]; rfl
  -- behind the end of the source no slash would be pending
  have hend : s.atEnd? = none := by
    by_contra hne
    have hp := h.last (Option.isSome_iff_ne_none.2 hne)
    rw [Sound.notEof_of_isSlash hs] at hp
    cases hp
  refine ⟨?_, ?_, ?_, ?_, ?_, rfl, rfl, ?_⟩
  · show Kind.regExp (String.ofList (s.origin.rest.take text.length)) = _
    rw [htake]
  · show String.ofList (s.origin.rest.take text.length) = _
    rw [htake]
  · show String.ofList (s.origin.rest.take text.length) = _
    rw [htake]
  · show (⟨s.origin.offset, (s.origin.advance text.length).offset⟩ : Span) = _
    rw [hoffset, hstart]
  · rw [hk]; rfl
  · intro es s'' u hrun hu
    have hend' : { s.toOrigin text.length with pending := s.regExp text.length }.atEnd? = none := hend
    exact taken_first hend' rfl rfl hrun hu

end

/-- Reading a slash again is exact, in every session that a run leads to. Let the cursor be on the line of the
pending slash, and let `line` be what is left of that line behind the slash. The call answers with a literal exactly
if some slash of the line closes the body: one that is active and in no class. The literal goes through the first
such slash and over all the flags behind it; it has the place of the slash, is pending now, and is handed out next,
and its second character is neither a slash nor a star. Otherwise the call fails at the end of the line. -/
theorem rescan_exact [WideConversion] {settings : Settings} {source : String} {s₀ s : Session} {es : List Event}
    (h₀ : start settings source = .ok s₀) (hr : Run s₀ es s) (hs : s.pending.kind.isSlash = true)
    (hl : s.place.position.line = s.pending.location.line) :
    ∃ before line rest r s', source.toList = before ++ '/' :: (line ++ rest) ∧
      s.pending.span.start = utf8Length before ∧ hasLineTerminator line = false ∧
      rest.head?.all isLineTerminator = true ∧ s.rescanRegExp? = some (r, s') ∧
      ((∃ t, r = .ok t) ↔ ∃ i, Closes line i) ∧
      (∀ t, r = .ok t → ∃ text tail, '/' :: (line ++ rest) = text ++ tail ∧ Literal line text tail ∧
        text[1]? ≠ some '/' ∧ text[1]? ≠ some '*' ∧ s.BecomesLiteral text t s') ∧
      ∀ d, r = .error d → d.kind = .illegalLexeme ∧ d.description = "Invalid regular expression: missing /" ∧
        d.index = utf8Length (before ++ '/' :: line) ∧ s' = { s with place := s'.place } := by
  have hsound := Sound.run h₀ hr
  obtain ⟨before, -, ho, -⟩ := hsound.cursor
  obtain ⟨cs, hcs, hslash, hstar⟩ := Run.pendingSlash
    (P := fun _ o => ∃ cs, o.rest = '/' :: cs ∧ cs.head? ≠ some '/' ∧ cs.head? ≠ some '*')
    Reading.Outcome.slash_alone h₀ hr hs
  obtain ⟨k, hk⟩ := hsound.pending
  have hstart : s.pending.span.start = s.origin.offset := by rw [hk]; rfl
  obtain ⟨⟨r, s'⟩, hcall⟩ := Option.ne_none_iff_exists'.1 fun hn => (hsound.rescan_eq_none_iff.1 hn).2 hl
  obtain ⟨line, rest, rfl, hline, hrest⟩ := exists_line cs
  refine ⟨before, line, rest, r, s', by rw [ho.eq_append, hcs], by rw [hstart, ho.offset_eq], hline, hrest, hcall, ?_⟩
  obtain ⟨text, tail, htext, hlit, hscan⟩ | ⟨hnone, hscan⟩ := RegularExpression.scan_line hline hrest
  · obtain ⟨body, flags, rfl, hclose, -⟩ := hlit.exists_parts
    have hsecond : ('/' :: (body ++ '/' :: flags))[1]? = (line ++ rest).head? := by
      have htail := congrArg List.tail htext
      simp only [List.tail_cons, List.cons_append, List.append_assoc] at htail
      rw [htail]
      cases body <;> rfl
    cases rescanned hcall with
    | unexpected h => rw [hs] at h; cases h
    | unterminated _ _ h => rw [hcs, hscan] at h; cases h
    | literal _ _ h =>
      rw [hcs, hscan] at h
      cases h
      refine ⟨⟨fun _ => ⟨_, hclose⟩, fun _ => ⟨_, rfl⟩⟩, fun t ht => ?_, fun d hd => (nomatch hd)⟩
      cases ht
      exact ⟨_, tail, htext, hlit, by rwa [hsecond], by rwa [hsecond],
        becomesLiteral hsound hs (hcs.trans htext)⟩
  · cases rescanned hcall with
    | unexpected h => rw [hs] at h; cases h
    | literal _ _ h => rw [hcs, hscan] at h; cases h
    | unterminated _ _ h =>
      rw [hcs, hscan] at h
      cases h
      refine ⟨⟨fun ⟨t, ht⟩ => (nomatch ht), fun ⟨i, hi⟩ => absurd hi (hnone i)⟩, fun t ht => (nomatch ht),
        fun d hd => ?_⟩
      cases hd
      have hrender : Template.render "Invalid regular expression: missing /" none =
          "Invalid regular expression: missing /" := by decide +kernel
      refine ⟨rfl, hrender, ?_, rfl⟩
      have htake : ('/' :: (line ++ rest)).take (1 + line.length) = '/' :: line := by
        rw [Nat.add_comm, List.take_succ_cons, List.take_left]
      show (s.origin.advance (1 + line.length)).offset = _
      rw [Place.offset_advance, hcs, htake, ho.offset_eq, ← utf8Length_append]

/-- A slash with an equality sign is read again as a literal with a slash in a class and a slash behind a backslash. -/
theorem rescan_exact_class :
    ∃ s₀ es s text t s', start {} "x /=[/]\\//g\n/" = .ok s₀ ∧ Run s₀ es s ∧ es.map Event.call = [.lex] ∧
      s.pending.kind.isSlash = true ∧ s.place.position.line = s.pending.location.line ∧
      s.rescanRegExp? = some (.ok t, s') ∧ s.BecomesLiteral text t s' ∧ text = "/=[/]\\//g".toList ∧
      t.span.start = 2 := by
  have h : ((start {} "x /=[/]\\//g\n/").toOption.bind fun s₀ => (s₀.performAll? [.lex]).map fun r =>
      r.2.pending.kind.isSlash && r.2.place.position.line == r.2.pending.location.line &&
        r.2.rescanRegExp?.any fun c => c.1.toOption.any fun t => t.text == "/=[/]\\//g" && t.span.start == 2) =
      some true := by decide +kernel
  obtain ⟨s₀, es, s, h₀, hr, hcalls, h⟩ := exists_run h
  simp only [Bool.and_eq_true, beq_iff_eq, Option.any_eq_true] at h
  obtain ⟨⟨hs, hl⟩, ⟨r, s'⟩, hc, t, ht, htext, hstart⟩ := h
  obtain ⟨before, line, rest, r', s'', -, -, -, -, hcall, -, hok, -⟩ := rescan_exact h₀ hr hs hl
  obtain ⟨rfl, rfl⟩ := Prod.mk.inj (Option.some.inj (hcall.symm.trans hc))
  obtain rfl : r' = .ok t := ok_of_toOption ht
  obtain ⟨text, tail, -, -, -, -, hlit⟩ := hok t rfl
  have hspelled : text = "/=[/]\\//g".toList := by
    rw [← htext, hlit.spelled, String.toList_ofList]
  exact ⟨s₀, es, s, text, t, s'', h₀, hr, hcalls, hs, hl, hcall, hlit, hspelled, hstart⟩

end Session

end EcmaTokens
