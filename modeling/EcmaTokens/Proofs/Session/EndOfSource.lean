/-
The end of the source absorbs. Once it is pending, the cursor is behind the whole source and stays there,
the token at the end stays pending and is handed out again and again, no slash is read again, and the count
grows by one at most, when that token is handed out first. Before the end, every token that is read takes
the cursor forward.
-/
import EcmaTokens.Proofs.Session.Sequence

namespace EcmaTokens

/-- The token at the end of a source. -/
def Token.endOf (source : List Char) : Token :=
  ⟨.eof, ⟨utf8Length source, utf8Length source⟩, .behind source, ""⟩

/-! ## Reading at the end -/

theorem Place.Behind.eq_finish {p : Place} {source before : List Char} (h : p.Behind source before)
    (hr : p.rest = []) : p = ⟨.behind source, []⟩ := by
  have hb : source = before := by rw [h.eq_append, hr, List.append_nil]
  rcases p with ⟨position, rest⟩
  obtain rfl : rest = [] := hr
  rw [hb, ← h.position]

/-- The token that is read behind a whole source is the one at its end. -/
theorem Token.ofPlace_eof (source : List Char) : ofPlace .eof ⟨.behind source, []⟩ 0 = .endOf source := by
  rw [ofPlace, Place.advance_zero, Place.location, Position.location_behind]
  rfl

namespace Reading.Outcome

variable {settings : Settings} {p : Place} {r : Reading} {t : Token} {source before : List Char}

/-- The end of the source is read behind the whole source. -/
theorem eof_token [WideConversion] (h : Outcome settings p r) (hp : p.Behind source before) (ht : r.result = .ok t)
    (hk : t.isEof = true) : t = .endOf source ∧ r.stop = ⟨.behind source, []⟩ := by
  obtain ⟨b, -, b', hs⟩ := h.behind hp
  have hstop := hs.eq_finish (h.stop_rest_of_eof ht hk)
  refine ⟨?_, hstop⟩
  cases h with
  | unclosed => cases ht
  | eof =>
    cases ht
    have hstop : p.advance _ = _ := hstop
    rw [hstop]
    exact Token.ofPlace_eof source
  | @lexeme n m x =>
    cases ht
    exact absurd ((kind_not_eof settings.strict x).symm.trans hk) Bool.noConfusion
  | malformed => cases ht

/-- A token that is read in front of the end takes the cursor forward. -/
theorem lt_stop [WideConversion] (h : Outcome settings p r) (ht : r.result = .ok t) (hk : t.isEof = false) :
    p.offset < r.stop.offset := by
  cases h with
  | unclosed => cases ht
  | eof => cases ht; cases hk
  | @lexeme n m x _ hx =>
    obtain ⟨hpos, hlen⟩ := Lexeme.scan_pos hx
    have hne : (p.rest.drop n).take m ≠ [] := by
      rw [ne_eq, List.take_eq_nil_iff, not_or]
      exact ⟨Nat.ne_of_gt hpos, List.ne_nil_of_length_pos hlen⟩
    have := utf8Length_pos hne
    show p.offset < ((p.advance n).advance m).offset
    rw [Place.offset_advance, Place.offset_advance, Place.rest_advance]
    omega
  | malformed => cases ht

end Reading.Outcome

/-! ## Sessions at the end -/

namespace Session

/-- Where the end of the source is pending, the cursor is behind the source; and what was handed out as the
end of the source is what is pending. -/
structure Closing (source : List Char) (s : Session) : Prop where
  pending : s.pending.isEof = true → s.pending = .endOf source ∧ s.place = ⟨.behind source, []⟩
  last : ∀ t, s.atEnd? = some t → t = s.pending

variable {source : List Char} {s s' : Session}

theorem isEof_of_atEnd? {t : Token} (h : s.atEnd? = some t) : t.isEof = true :=
  (Option.filter_eq_some_iff.1 h).2

namespace Closing

section

variable [WideConversion]

/-- At the end of the source its end is what is read. -/
theorem reading_eq (h : s.Closing source) (hk : s.pending.isEof = true) :
    s.reading.result = .ok (.endOf source) ∧ s.reading.stop = ⟨.behind source, []⟩ := by
  have hp := (h.pending hk).2
  have hb : s.place.Behind source source := by
    rw [hp]
    exact ⟨(List.append_nil _).symm, Seam.nil_right _, rfl⟩
  obtain ⟨t, ht, htk⟩ := Reading.eof_at_end s.settings (p := s.place) (by rw [hp])
  obtain ⟨rfl, hstop⟩ := s.outcome.eof_token hb ht htk
  exact ⟨ht, hstop⟩

theorem start {settings : Settings} {source : String} (h : Session.start settings source = .ok s) :
    s.Closing source.toList := by
  obtain ⟨t, ht, rfl⟩ := start_ok h
  have o : (firstReading settings source).Outcome settings (.start source.toList) := Reading.outcome _ _
  exact ⟨o.eof_token (.start source.toList) ht, fun t ht => by cases ht⟩

theorem lexed (h : s.Closing source) (hs : s.Sound source) {r : Except Diagnostic Token} (hr : s.Lexed r s') :
    s'.Closing source := by
  obtain ⟨before, b, -, hp⟩ := hs.cursor
  cases hr with
  | atEnd => exact h
  | @stuck d _ hd =>
    refine ⟨fun hk => ?_, h.last⟩
    -- behind the source nothing is malformed
    rw [(h.reading_eq hk).1] at hd
    cases hd
  | @handOut t _ ht =>
    refine ⟨s.outcome.eof_token hp ht, fun t' ht' => ?_⟩
    obtain ⟨heq, hk⟩ := Option.filter_eq_some_iff.1 ht'
    cases heq
    -- what is handed out is the end, and so is what is read behind it
    rw [(h.reading_eq hk).1] at ht
    exact (h.pending hk).1.trans (Except.ok.inj ht)

end

theorem rescanned (h : s.Closing source) (hs : s.Sound source) {r : Except Diagnostic Token}
    (hr : s.Rescanned r s') : s'.Closing source := by
  have notEof : s.pending.kind.isSlash = true → ¬ s.pending.isEof = true := fun hk => by
    rw [Sound.notEof_of_isSlash hk]
    exact Bool.noConfusion
  cases hr with
  | unexpected => exact h
  | unterminated hk => exact ⟨fun he => absurd he (notEof hk), h.last⟩
  | literal hk =>
    exact ⟨(nomatch ·), fun t ht => absurd (hs.last (Option.isSome_iff_exists.2 ⟨t, ht⟩)) (notEof hk)⟩

variable [WideConversion]

theorem effect (h : s.Closing source) (hs : s.Sound source) {e : Event} (he : s.Effect e s') :
    s'.Closing source := by
  cases he with
  | setStrict => exact ⟨h.pending, h.last⟩
  | exhausted => exact h
  | lexed _ hr =>
    have := h.lexed hs hr
    exact ⟨this.pending, this.last⟩
  | rescanned hr => exact h.rescanned hs hr

theorem run {settings : Settings} {source : String} {s₀ : Session} {es : List Event}
    (h₀ : Session.start settings source = .ok s₀) (hr : Run s₀ es s) : s.Closing source.toList := by
  have hboth : s.Sound source.toList ∧ s.Closing source.toList :=
    hr.keeps (fun _ s => s.Sound source.toList ∧ s.Closing source.toList) ⟨.start h₀, .start h₀⟩
      fun _ _ _ _ h he => ⟨h.1.effect he, h.2.effect h.1 he⟩
  exact hboth.2

/-- At the end `lex` hands out the end. -/
theorem lex_eq (h : s.Closing source) (hk : s.pending.isEof = true) : s.lex.1 = .ok s.pending := by
  cases ha : s.atEnd? with
  | some t => rw [lex_of_atEnd ha, h.last t ha]
  | none => rw [lex_of_ok ha (h.reading_eq hk).1]

/-- At the end the sequence of tokens has no more of them. -/
theorem next_eq_none (h : s.Closing source) (hk : s.pending.isEof = true) : s.next.1 = none := by
  cases hf : s.finished with
  | true => rw [next_of_finished hf]
  | false =>
    have hr := h.lex_eq hk
    rcases hl : s.lex with ⟨r, s₁⟩
    rw [hl] at hr
    obtain rfl : r = .ok s.pending := hr
    simp [next, hf, hl, hk]

end Closing

/-- The end of the source is no slash. -/
theorem rescan_at_end (hk : s.pending.isEof = true) :
    s.rescanRegExp? = some (.error (.unexpected s.pending), s) := by
  have hs : s.pending.kind.isSlash = false := by
    by_contra hs
    rw [Sound.notEof_of_isSlash (by simpa using hs)] at hk
    cases hk
  simp [rescanRegExp?, hs]

/-! ## What follows at the end -/

/-- The session `s'` has come from `s` at the end of the source: nothing has changed but that the end may
have been handed out for the first time. -/
structure Rests (s s' : Session) : Prop where
  pending : s'.pending = s.pending
  place : s'.place = s.place
  count : s'.count = s.count ∧ s'.atEnd? = s.atEnd? ∨ s'.count = s.count + 1 ∧ s'.atEnd?.isSome = true ∧ s.atEnd? = none

namespace Rests

variable {s₁ : Session}

/-- No call disturbs a session that rests. -/
theorem effect [WideConversion] (h : Rests s s₁) (hc : s₁.Closing source) (hk : s.pending.isEof = true) {e : Event}
    (he : s₁.Effect e s') : Rests s s' := by
  have hk₁ : s₁.pending.isEof = true := by rw [h.pending]; exact hk
  cases he with
  | setStrict => exact ⟨h.pending, h.place, h.count⟩
  | exhausted => exact h
  | lexed _ hr =>
    cases hr with
    | atEnd => exact ⟨h.pending, h.place, h.count⟩
    | stuck _ hd =>
      rw [(hc.reading_eq hk₁).1] at hd
      cases hd
    | @handOut t ha ht =>
      obtain ⟨hread, hstop⟩ := hc.reading_eq hk₁
      obtain ⟨hpend, hplace⟩ := hc.pending hk₁
      rw [hread] at ht
      cases ht
      refine ⟨hpend.symm.trans h.pending, (hstop.trans hplace.symm).trans h.place, .inr ?_⟩
      -- the end had not been handed out, so the count is still the one of `s`
      have hsome : ((some s₁.pending).filter Token.isEof).isSome = true := by simp [hk₁]
      rcases h.count with ⟨hn, hl⟩ | ⟨-, hl, -⟩
      · exact ⟨congrArg (· + 1) hn, hsome, hl ▸ ha⟩
      · rw [ha] at hl; cases hl
  | rescanned hr =>
    cases hr with
    | unexpected => exact h
    | unterminated hs =>
      rw [Sound.notEof_of_isSlash hs] at hk₁
      cases hk₁
    | literal hs =>
      rw [Sound.notEof_of_isSlash hs] at hk₁
      cases hk₁

theorem run [WideConversion] {es : List Event} (hs : s.Sound source) (hc : s.Closing source)
    (hk : s.pending.isEof = true) (hr : Run s es s') : s'.Closing source ∧ Rests s s' := by
  have hall : s'.Sound source ∧ s'.Closing source ∧ Rests s s' :=
    hr.keeps (fun _ s₁ => s₁.Sound source ∧ s₁.Closing source ∧ Rests s s₁)
      ⟨hs, hc, rfl, rfl, .inl ⟨rfl, rfl⟩⟩ fun _ _ _ _ h he =>
        ⟨h.1.effect he, h.2.1.effect h.1 he, h.2.2.effect h.2.1 hk he⟩
  exact hall.2

theorem count_le (h : Rests s s') : s.count ≤ s'.count ∧ s'.count ≤ s.count + 1 := by
  rcases h.count with ⟨hn, -⟩ | ⟨hn, -⟩ <;> omega

end Rests

/-! ## The end of the source -/

/-- The end of the source absorbs, in every session that a run leads to, behind failures too. Where it is
pending, the cursor is behind the whole source, and the pending token stands there without text. Whatever
calls follow, the cursor and the pending token stay as they are; `lex` hands out that token, the sequence has
no more tokens, and reading a slash again reports an unexpected token; and the count grows by one at most in
all. Where the end is neither handed out nor pending behind a call to `lex`, the call takes the cursor
forward. -/
theorem end_absorbing [WideConversion] {settings : Settings} {source : String} {s₀ s : Session} {es : List Event}
    (h₀ : start settings source = .ok s₀) (hr : Run s₀ es s) :
    (s.isAtEof = true →
      s.place = ⟨.behind source.toList, []⟩ ∧ s.place.offset = utf8Length source.toList ∧
      s.pending = .endOf source.toList ∧
      ∀ es' s', Run s es' s' →
        s'.isAtEof = true ∧ s'.place = s.place ∧ s'.pending = s.pending ∧
        s'.lex.1 = .ok s.pending ∧ s'.next.1 = none ∧
        (∃ d, s'.rescanRegExp? = some (.error d, s') ∧ d.kind = .unexpectedToken) ∧
        s.count ≤ s'.count ∧ s'.count ≤ s.count + 1) ∧
    (∀ t s', s.lex = (.ok t, s') → t.isEof = false → s'.isAtEof = false → s.place.offset < s'.place.offset) := by
  have hs := Sound.run h₀ hr
  have hc := Closing.run h₀ hr
  constructor
  · intro hk
    obtain ⟨hpend, hplace⟩ := hc.pending hk
    refine ⟨hplace, by rw [hplace]; rfl, hpend, fun es' s' hr' => ?_⟩
    obtain ⟨hc', h⟩ := Rests.run hs hc hk hr'
    have hk' : s'.pending.isEof = true := by rw [h.pending]; exact hk
    refine ⟨hk', h.place, h.pending, ?_, hc'.next_eq_none hk', ⟨_, rescan_at_end hk', rfl⟩, h.count_le⟩
    rw [← h.pending]
    exact hc'.lex_eq hk'
  · intro t s' hl ht hk
    have he := s.lexed
    rw [hl] at he
    cases he with
    | atEnd ha => rw [isEof_of_atEnd? ha] at ht; cases ht
    | handOut _ hread => exact s.outcome.lt_stop hread hk

/-- A string that never closes takes the cursor to the end while the word in front of it is still pending.
The end is pending behind the next call, and stays so. -/
theorem end_absorbing_unclosed :
    ∃ s₀ es s es' s', start {} "a '" = .ok s₀ ∧ Run s₀ es s ∧ es.map Event.call = [.lex, .lex] ∧
      s.place.offset = 3 ∧ s.pending = .endOf "a '".toList ∧
      Run s es' s' ∧ es'.map Event.call = [.rescan, .lex, .setStrict true, .next] ∧ s'.place = s.place ∧
      s'.lex.1 = .ok s.pending ∧ s.count = 1 ∧ s'.count = 2 ∧ s'.count ≤ s.count + 1 := by
  have h : ((start {} "a '").toOption.bind fun s₀ => (s₀.performAll? [.lex, .lex]).bind fun r =>
      (r.2.performAll? [.rescan, .lex, .setStrict true, .next]).map fun r' =>
        (r.1.map Event.call, r'.1.map Event.call, r.2.isAtEof, r.2.count, r'.2.count)) =
      some ([.lex, .lex], [.rescan, .lex, .setStrict true, .next], true, 1, 2) := by decide +kernel
  obtain ⟨s₀, h₀, h⟩ := Option.bind_eq_some_iff.1 h
  obtain ⟨⟨es, s⟩, hr, h⟩ := Option.bind_eq_some_iff.1 h
  obtain ⟨⟨es', s'⟩, hr', h⟩ := Option.map_eq_some_iff.1 h
  simp only [Prod.mk.injEq] at h
  obtain ⟨hcalls, hcalls', hk, hn, hn'⟩ := h
  have h₀ := ok_of_toOption h₀
  have hr := run_of_performAll? hr
  have hr' := run_of_performAll? hr'
  obtain ⟨-, hoffset, hpend, hrest⟩ := (end_absorbing h₀ hr).1 hk
  obtain ⟨-, hplace, -, hlex, -, -, -, hle⟩ := hrest es' s' hr'
  have hlen : utf8Length "a '".toList = 3 := by decide
  exact ⟨s₀, es, s, es', s', h₀, hr, hcalls, hoffset.trans hlen, hpend, hr', hcalls', hplace, hlex, hn, hn', hle⟩

end Session

end EcmaTokens
