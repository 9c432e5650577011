/-
Failures are contained. A token that cannot be read moves the cursor forward and sets the mark of a line
break, and changes nothing else; a slash that is read again in vain moves the cursor along its line, to
no place in front of the end of the slash; and where no slash is pending nothing changes. Only there is a
token unexpected: every other failure is of malformed text.
-/
import EcmaTokens.Proofs.Session.Coherence

namespace EcmaTokens

/-! ## Malformed text -/

/-- What cannot be read is malformed text. -/
theorem Reading.Outcome.kind_error [WideConversion] {settings : Settings} {p : Place} {r : Reading} {d : Diagnostic}
    (h : Outcome settings p r) (hd : r.result = .error d) : d.kind = .illegalLexeme := by
  cases h with
  | unclosed => cases hd; rfl
  | eof => cases hd
  | lexeme => cases hd
  | malformed => cases hd; rfl

/-- Where a token cannot be read the cursor is not taken back, nor beyond the source. -/
theorem Reading.Outcome.stop_within [WideConversion] {settings : Settings} {p : Place} {r : Reading}
    {source before : List Char} (h : Outcome settings p r) (hp : p.Behind source before) :
    p.offset ≤ r.stop.offset ∧ r.stop.offset ≤ utf8Length source := by
  obtain ⟨b, -, b', hs⟩ := h.behind hp
  have hs' := hs
  rw [List.append_assoc] at hs'
  exact ⟨hp.offset_le hs', hs.offset_le_length⟩

/-! ## The spelling of a pending slash -/

namespace Session

/-- A pending slash is the text of its token: the slash, or the slash and an equality sign. -/
def SlashSpelled (s : Session) : Prop :=
  s.pending.kind.isSlash = true →
    ∃ n, s.pending = .ofPlace s.pending.kind s.origin n ∧
      (s.origin.rest.take n = ['/'] ∨ s.origin.rest.take n = ['/', '='])

end Session

/-- A slash that is read is written at the origin of the reading. -/
theorem Reading.Outcome.slash_spelled [WideConversion] {settings : Settings} {p : Place} {r : Reading} {t : Token}
    (h : Outcome settings p r) (ht : r.result = .ok t) (hs : t.kind.isSlash = true) :
    ∃ n, t = .ofPlace t.kind r.origin n ∧
      (r.origin.rest.take n = ['/'] ∨ r.origin.rest.take n = ['/', '=']) := by
  cases h with
  | unclosed => cases ht
  | eof => cases ht; cases hs
  | lexeme hg hx => cases ht; exact ⟨_, rfl, Lexeme.spelling_of_slash hx hs⟩
  | malformed => cases ht

namespace Session

variable {source : List Char} {s s' : Session}

namespace SlashSpelled

theorem run [WideConversion] {settings : Settings} {source : String} {s₀ : Session} {es : List Event}
    (h₀ : Session.start settings source = .ok s₀) (hr : Run s₀ es s) : s.SlashSpelled :=
  Run.pendingSlash
    (P := fun t o => ∃ n, t = .ofPlace t.kind o n ∧ (o.rest.take n = ['/'] ∨ o.rest.take n = ['/', '=']))
    Reading.Outcome.slash_spelled h₀ hr

/-- A slash is not read again in vain without going over all of it. -/
theorem stop_le (h : s.SlashSpelled) (hs : s.pending.kind.isSlash = true) {n : Nat}
    (hn : RegularExpression.scan s.origin.rest = .malformed n) :
    s.pending.span.stop ≤ (s.origin.advance n).offset := by
  obtain ⟨m, heq, hm⟩ := h hs
  rw [← List.take_append_drop m s.origin.rest] at hn
  have hlen : (s.origin.rest.take m).length ≤ n := RegularExpression.length_le_of_malformed hm hn
  have hstop : s.pending.span.stop = (s.origin.advance (s.origin.rest.take m).length).offset := by
    rw [heq, Place.offset_advance, List.length_take, ← List.take_eq_take_min, ← Place.offset_advance]
    rfl
  rw [hstop]
  exact s.origin.offset_advance_mono hlen

end SlashSpelled

/-! ## Calls that fail -/

/-- A call to `lex` that fails has found malformed text, and the session is stuck there. -/
theorem lex_error [WideConversion] {d : Diagnostic} (h : s.lex = (.error d, s')) :
    s.reading.result = .error d ∧ s' = s.stuck := by
  have hl := s.lexed
  rw [h] at hl
  cases hl with
  | stuck _ hr => exact ⟨hr, rfl⟩

theorem next_error [WideConversion] {d : Diagnostic} (h : s.next = (some (.error d), s')) :
    ∃ s₁, s.lex = (.error d, s₁) ∧ s' = { s₁ with finished := true } := by
  unfold next at h
  split at h
  · cases h
  · split at h
    · next hl => cases h; exact ⟨_, hl, rfl⟩
    · split at h <;> cases h

/-- Reading a slash again fails only for want of its closing slash. -/
theorem rescan_error {d : Diagnostic} (hs : s.pending.kind.isSlash = true)
    (h : s.rescanRegExp? = some (.error d, s')) :
    ∃ n, RegularExpression.scan s.origin.rest = .malformed n ∧
      d = .malformed (s.origin.advance n).location .unterminatedRegExp ∧ s' = s.toOrigin n := by
  cases Session.rescanned h with
  | unexpected hn => rw [hs] at hn; cases hn
  | unterminated _ _ hn => exact ⟨_, hn, rfl, rfl⟩

/-- A token is unexpected only where a slash is read again and none is pending. -/
theorem rescan_of_unexpected [WideConversion] {c : Call} {d : Diagnostic} (h : s.perform? c = some (.failure d, s'))
    (hd : d.kind = .unexpectedToken) : c = .rescan ∧ s.pending.kind.isSlash = false := by
  have he := effect h
  generalize hev : (⟨c, .failure d⟩ : Event) = e at he
  cases he with
  | setStrict => cases hev
  | exhausted => cases hev
  | @lexed c' r s₁ _ hr =>
    obtain ⟨-, ha⟩ := Event.mk.inj hev
    cases hr with
    | stuck _ hr =>
      cases ha
      rw [s.outcome.kind_error hr] at hd
      cases hd
    | _ =>
      rw [deliver] at ha
      split at ha <;> cases ha
  | rescanned hr =>
    obtain ⟨hc, ha⟩ := Event.mk.inj hev
    refine ⟨hc, ?_⟩
    cases hr with
    | unexpected hs => exact hs
    | unterminated => cases ha; cases hd
    | literal => cases ha

/-! ## Containment -/

/-- Failures are contained, in every session that a run leads to, behind earlier failures too. A call to
`lex` that fails reports malformed text, takes the cursor forward within the source, and may change the mark
of a line break; everything else is as it was. The sequence of tokens fails where `lex` does, and is finished
then. Reading again what is no slash reports an unexpected token where the pending one stands, and changes
nothing at all. A slash read again in vain is reported as malformed text, and the cursor alone is moved, along
its line and to no place in front of the end of the slash. No other call reports an unexpected token, and the
start of a session does not either. -/
theorem failures_contained [WideConversion] (settings : Settings) (source : String) :
    (∀ d, start settings source = .error d → d.kind = .illegalLexeme) ∧
    ∀ s₀ es s, start settings source = .ok s₀ → Run s₀ es s →
      (∀ d s', s.lex = (.error d, s') → d.kind = .illegalLexeme ∧
        s' = { s with place := s'.place, lineBreak := s'.lineBreak } ∧
        s.place.offset ≤ s'.place.offset ∧ s'.place.offset ≤ utf8Length source.toList) ∧
      (∀ d s', s.next = (some (.error d), s') →
        ∃ s₁, s.lex = (.error d, s₁) ∧ s' = { s₁ with finished := true }) ∧
      (s.pending.kind.isSlash = false → ∃ d, s.rescanRegExp? = some (.error d, s) ∧ d.kind = .unexpectedToken ∧
        d.index = s.pending.location.offset ∧ d.line = s.pending.location.line + 1 ∧
        d.column = s.pending.location.column + 1) ∧
      (∀ d s', s.pending.kind.isSlash = true → s.rescanRegExp? = some (.error d, s') → d.kind = .illegalLexeme ∧
        s' = { s with place := s'.place } ∧ s'.place.position.line = s.place.position.line ∧
        s.pending.span.stop ≤ s'.place.offset ∧ s'.place.offset ≤ utf8Length source.toList) ∧
      (∀ c d s', s.perform? c = some (.failure d, s') → d.kind = .unexpectedToken →
        c = .rescan ∧ s.pending.kind.isSlash = false) := by
  constructor
  · intro d hd
    exact (Reading.outcome settings (.start source.toList)).kind_error (start_error hd)
  · intro s₀ es s h₀ hr
    have h := Coherent.run h₀ hr
    obtain ⟨before, b, ho, hp⟩ := h.sound.cursor
    refine ⟨fun d s' hl => ?_, fun d s' => next_error, fun hs => ?_, fun d s' hs hc => ?_,
      fun c d s' => rescan_of_unexpected⟩
    · obtain ⟨hd, rfl⟩ := lex_error hl
      exact ⟨s.outcome.kind_error hd, rfl, s.outcome.stop_within hp⟩
    · exact ⟨.unexpected s.pending, by simp [rescanRegExp?, hs], rfl, rfl, rfl, rfl⟩
    · have hline := (h.line_of_rescan hc).1
      obtain ⟨n, hn, rfl, rfl⟩ := rescan_error hs hc
      have hw := ho.advance (.of_lineFree (h.sound.lineFree_rescan hs hn))
      exact ⟨rfl, rfl, hline, (SlashSpelled.run h₀ hr).stop_le hs hn, hw.offset_le_length⟩

/-- Behind a first failure the next token fails again, and so does the slash in front of it when it is read
again. -/
theorem failures_contained_slash :
    ∃ s₀ es s d d' s₁ s₂, start {} "/= #" = .ok s₀ ∧ Run s₀ es s ∧ es.map Event.call = [.next] ∧
      s.lex = (.error d, s₁) ∧ s₁ = { s with place := s₁.place, lineBreak := s₁.lineBreak } ∧
      s.place.offset ≤ s₁.place.offset ∧ s.rescanRegExp? = some (.error d', s₂) ∧ d'.kind = .illegalLexeme ∧
      s₂ = { s with place := s₂.place } ∧ s.pending.span.stop ≤ s₂.place.offset := by
  have h : ((start {} "/= #").toOption.bind fun s₀ => (s₀.performAll? [.next]).map fun r =>
      r.2.pending.kind.isSlash && r.2.lex.1.toOption.isNone &&
        r.2.rescanRegExp?.any fun c => c.1.toOption.isNone) = some true := by decide +kernel
  obtain ⟨s₀, es, s, h₀, hr, hcalls, h⟩ := exists_run h
  simp only [Bool.and_eq_true, Option.any_eq_true] at h
  obtain ⟨⟨hs, hl⟩, c, hc, hn⟩ := h
  obtain ⟨hlex, -, -, hrescan, -⟩ := (failures_contained {} "/= #").2 s₀ es s h₀ hr
  rcases hlex' : s.lex with ⟨d | t, s₁⟩
  · rcases c with ⟨d' | t, s₂⟩
    · obtain ⟨-, heq, hle, -⟩ := hlex d s₁ hlex'
      obtain ⟨hk, heq', -, hle', -⟩ := hrescan d' s₂ hs hc
      exact ⟨s₀, es, s, d, d', s₁, s₂, h₀, hr, hcalls, hlex', heq, hle, hc, hk, heq', hle'⟩
    · cases hn
  · rw [hlex'] at hl; cases hl

end Session

end EcmaTokens
