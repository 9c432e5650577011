/-
What holds of a session through every run, continued after failures: the cursor and the origin of
the pending token stand in the source, in this order; the pending token is written at its origin; a
pending slash is one; and at the end of the source nothing is left to read.
-/
import EcmaTokens.Proofs.Session.Run

namespace EcmaTokens

/-! ## Tokens that are read -/

namespace Reading.Outcome

variable [WideConversion] {settings : Settings} {p : Place} {r : Reading} {t : Token}

/-- A token that is read is written at the origin of the reading. -/
theorem token_eq (h : Outcome settings p r) (ht : r.result = .ok t) :
    ∃ n, t = .ofPlace t.kind r.origin n ∧ r.stop = r.origin.advance n := by
  cases h with
  | unclosed => cases ht
  | eof => cases ht; exact ⟨0, rfl, (Place.advance_zero _).symm⟩
  | lexeme => cases ht; exact ⟨_, rfl, rfl⟩
  | malformed => cases ht

theorem origin_eq (h : Outcome settings p r) (ht : r.result = .ok t) : ∃ n, r.origin = p.advance n := by
  cases h with
  | unclosed => cases ht
  | eof => exact ⟨_, rfl⟩
  | lexeme => exact ⟨_, rfl⟩
  | malformed => cases ht

/-- Reading stops where the token ends, and not in front of where it began. -/
theorem stop_offset (h : Outcome settings p r) (ht : r.result = .ok t) :
    r.stop.offset = t.span.stop ∧ p.offset ≤ t.span.stop := by
  obtain ⟨n, ho⟩ := h.origin_eq ht
  obtain ⟨m, heq, hs⟩ := h.token_eq ht
  have hstop : r.stop.offset = t.span.stop := by rw [heq, hs]; rfl
  refine ⟨hstop, ?_⟩
  rw [← hstop, hs, ho, Place.offset_advance, Place.offset_advance]
  omega

theorem isEof_iff (h : Outcome settings p r) (ht : r.result = .ok t) :
    t.isEof = true ↔ r.origin.rest = [] := by
  cases h with
  | unclosed => cases ht
  | eof _ hr => cases ht; exact ⟨fun _ => hr, fun _ => rfl⟩
  | @lexeme n m x hg hx =>
    cases ht
    have hne : p.rest.drop n ≠ [] := List.ne_nil_of_length_pos (Lexeme.scan_pos hx).2
    have hk : (Token.ofPlace (x.kind settings.strict) (p.advance n) m).isEof = false := kind_not_eof _ x
    exact ⟨fun h => absurd (hk.symm.trans h) (by simp), fun hr => absurd hr hne⟩
  | malformed => cases ht

/-- Where the end of the source is read nothing is left. -/
theorem stop_rest_of_eof (h : Outcome settings p r) (ht : r.result = .ok t) (hk : t.isEof = true) :
    r.stop.rest = [] := by
  obtain ⟨n, -, hstop⟩ := h.token_eq ht
  rw [hstop, Place.rest_advance, (h.isEof_iff ht).1 hk, List.drop_nil]

/-- A slash that is read begins with a slash, and the session stays on its line. -/
theorem slash (h : Outcome settings p r) (ht : r.result = .ok t) (hs : t.kind.isSlash = true) :
    r.origin.rest.head? = some '/' ∧ r.stop.position.lineStart = r.origin.position.lineStart := by
  cases h with
  | unclosed => cases ht
  | eof => cases ht; cases hs
  | lexeme hg hx =>
    cases ht
    obtain ⟨hh, hl⟩ := Lexeme.slash_of_scan hx hs
    refine ⟨hh, ?_⟩
    show (Position.advance _ _).lineStart = _
    exact (Position.same_line _ hl).2
  | malformed => cases ht

theorem rest_eq_nil (h : Outcome settings p r) (hp : p.rest = []) : r.origin.rest = [] ∧ r.stop.rest = [] := by
  cases h <;> simp [Place.finish, hp]

end Reading.Outcome

/-! ## The invariant -/

namespace Session

/-- The session stands in its source. The origin of the pending token is kept through failures, as a
slash is read again from there. -/
structure Sound (source : List Char) (s : Session) : Prop where
  cursor : ∃ before b, s.origin.Behind source before ∧ s.place.Behind source (before ++ b)
  pending : ∃ n, s.pending = .ofPlace s.pending.kind s.origin n
  slash : s.pending.kind.isSlash = true → s.origin.rest.head? = some '/'
  eof : s.pending.isEof = true → s.place.rest = []
  last : s.atEnd?.isSome = true → s.pending.isEof = true

theorem outcome [WideConversion] (s : Session) : s.reading.Outcome s.settings s.place :=
  Reading.outcome _ _

namespace Sound

variable {source : List Char} {s : Session}

section

variable [WideConversion]

theorem start {settings : Settings} {source : String} (h : start settings source = .ok s) :
    s.Sound source.toList := by
  obtain ⟨t, ht, rfl⟩ := start_ok h
  have o : (firstReading settings source).Outcome settings (.start source.toList) := Reading.outcome _ _
  obtain ⟨b, ho, b', hs⟩ := o.behind (.start source.toList)
  obtain ⟨n, hn, -⟩ := o.token_eq ht
  exact ⟨⟨_, b', ho, hs⟩, ⟨n, hn⟩, fun h => (o.slash ht h).1, o.stop_rest_of_eof ht, fun h => by cases h⟩

theorem stuck (h : s.Sound source) : s.stuck.Sound source := by
  obtain ⟨before, b, ho, hp⟩ := h.cursor
  obtain ⟨b₁, -, b₂, hs⟩ := s.outcome.behind hp
  refine ⟨⟨before, b ++ b₁ ++ b₂, ho, ?_⟩, h.pending, h.slash, fun he => ?_, h.last⟩
  · show s.reading.stop.Behind source _
    simpa [List.append_assoc] using hs
  · exact (s.outcome.rest_eq_nil (h.eof he)).2

theorem handOut (h : s.Sound source) {t : Token} (ht : s.reading.result = .ok t) :
    (s.handOut t).Sound source := by
  obtain ⟨before, b, ho, hp⟩ := h.cursor
  obtain ⟨b₁, ho', b₂, hs⟩ := s.outcome.behind hp
  obtain ⟨n, hn, -⟩ := s.outcome.token_eq ht
  refine ⟨⟨_, b₂, ho', hs⟩, ⟨n, hn⟩, fun h => (s.outcome.slash ht h).1, s.outcome.stop_rest_of_eof ht, ?_⟩
  -- the end of the source was handed out, so it is what is read again
  intro hl
  obtain ⟨t', ht'⟩ := Option.isSome_iff_exists.1 hl
  obtain ⟨heq, hk⟩ := Option.filter_eq_some_iff.1 ht'
  cases heq
  exact (s.outcome.isEof_iff ht).2 (s.outcome.rest_eq_nil (h.eof hk)).1

end

/-- Reading a slash again stays on its line. -/
theorem lineFree_rescan (h : s.Sound source) (hs : s.pending.kind.isSlash = true) {r : Scan Unit}
    (hr : RegularExpression.scan s.origin.rest = r) :
    hasLineTerminator (s.origin.rest.take r.width) = false := by
  obtain ⟨cs, hcs⟩ := List.head?_eq_some_iff.1 (h.slash hs)
  rw [hcs] at hr ⊢
  rw [← hr]
  exact RegularExpression.hasLineTerminator_take_scan (by decide) cs

theorem notEof_of_isSlash {t : Token} (hs : t.kind.isSlash = true) : t.isEof = false := by
  rcases t with ⟨k, _⟩
  cases k <;> first | rfl | cases hs

theorem toOrigin (h : s.Sound source) (hs : s.pending.kind.isSlash = true) {n : Nat}
    (hn : CutsClean s.origin.rest n) : (s.toOrigin n).Sound source := by
  obtain ⟨before, b, ho, -⟩ := h.cursor
  refine ⟨⟨before, _, ho, ho.advance hn⟩, h.pending, h.slash, fun he => ?_, h.last⟩
  -- the cursor may go back from the end of the source, but not while the end is pending
  have hn := notEof_of_isSlash hs
  rw [show s.pending.isEof = true from he] at hn
  cases hn

theorem rescanned (h : s.Sound source) {r : Except Diagnostic Token} {s' : Session} (hr : s.Rescanned r s') :
    s'.Sound source := by
  cases hr with
  | unexpected _ => exact h
  | unterminated hs _ hr =>
    exact h.toOrigin hs (.of_lineFree (h.lineFree_rescan hs hr))
  | @literal n hs _ hr =>
    have ht := h.toOrigin hs (.of_lineFree (h.lineFree_rescan hs hr))
    refine ⟨ht.cursor, ⟨n, rfl⟩, (nomatch ·), (nomatch ·), ?_⟩
    intro hl
    have := h.last hl
    rw [notEof_of_isSlash hs] at this
    cases this

variable [WideConversion]

theorem lexed (h : s.Sound source) {r : Except Diagnostic Token} {s' : Session} (hr : s.Lexed r s') :
    s'.Sound source := by
  cases hr with
  | atEnd => exact h
  | stuck => exact h.stuck
  | handOut _ ht => exact h.handOut ht

theorem effect (h : s.Sound source) {e : Event} {s' : Session} (he : s.Effect e s') : s'.Sound source := by
  cases he with
  | setStrict => exact ⟨h.cursor, h.pending, h.slash, h.eof, h.last⟩
  | exhausted => exact h
  | lexed _ hr =>
    have := h.lexed hr
    exact ⟨this.cursor, this.pending, this.slash, this.eof, this.last⟩
  | rescanned hr => exact h.rescanned hr

/-- Every session that a run leads to stands in its source. -/
theorem run {settings : Settings} {source : String} {s₀ : Session} (h₀ : Session.start settings source = .ok s₀)
    {es : List Event} (hr : Run s₀ es s) : s.Sound source.toList :=
  hr.keeps (fun _ s => s.Sound source.toList) (start h₀) fun _ _ _ _ h he => h.effect he

end Sound

/-- What holds of every token where it is read, and of every regular expression literal, holds of the pending token
and of all that were given back, through every run. -/
theorem Run.tokens [WideConversion] {P : Token → Prop}
    (hread : ∀ {settings : Settings} {p : Place} {r : Reading} {t : Token}, Reading.Outcome settings p r →
      r.result = .ok t → P t)
    (hliteral : ∀ (s : Session) (n : Nat), P (s.regExp n)) {settings : Settings} {source : String}
    {s₀ s : Session} {es : List Event} (h₀ : Session.start settings source = .ok s₀) (hr : Run s₀ es s) :
    P s.pending ∧ ∀ e ∈ es, ∀ t, e.answer = .token t → P t := by
  have snoc : ∀ {es : List Event} {e : Event}, (∀ e ∈ es, ∀ t, e.answer = .token t → P t) →
      (∀ t, e.answer = .token t → P t) → ∀ e' ∈ es ++ [e], ∀ t, e'.answer = .token t → P t := by
    intro es e hes he e' he'
    rcases List.mem_append.1 he' with he' | he'
    · exact hes e' he'
    · obtain rfl : e' = e := by simpa using he'
      exact he
  have delivered : ∀ {c : Call} {t t' : Token}, P t → deliver c (.ok t) = .token t' → P t' := by
    intro c t t' ht heq
    by_cases hn : c = .next ∧ t.isEof = true
    · rw [deliver, if_pos hn] at heq
      cases heq
    · rw [deliver, if_neg hn] at heq
      cases heq
      exact ht
  have silent : ∀ {a : Answer}, a.isToken = false → ∀ t, a = .token t → P t := by
    rintro a ha t rfl
    cases ha
  suffices h : P s.pending ∧ (∀ t, s.last = some t → P t) ∧ ∀ e ∈ es, ∀ t, e.answer = .token t → P t from
    ⟨h.1, h.2.2⟩
  refine hr.keeps (fun es s => P s.pending ∧ (∀ t, s.last = some t → P t) ∧
    ∀ e ∈ es, ∀ t, e.answer = .token t → P t) ?_ ?_
  · obtain ⟨t, ht, rfl⟩ := start_ok h₀
    refine ⟨hread (Reading.outcome settings (.start source.toList)) ht, ?_, fun _ he => absurd he List.not_mem_nil⟩
    intro t h
    cases h
  · rintro es s e s' ⟨hp, hl, hes⟩ he
    cases he with
    | setStrict => exact ⟨hp, hl, snoc hes (silent rfl)⟩
    | exhausted => exact ⟨hp, hl, snoc hes (silent rfl)⟩
    | lexed _ hr =>
      cases hr with
      | atEnd ha =>
        have ht := hl _ (Option.filter_eq_some_iff.1 ha).1
        exact ⟨hp, hl, snoc hes fun _ => delivered ht⟩
      | stuck => exact ⟨hp, hl, snoc hes (silent rfl)⟩
      | handOut _ ht =>
        refine ⟨hread s.outcome ht, ?_, snoc hes fun _ => delivered hp⟩
        rintro _ ⟨⟩
        exact hp
    | rescanned hr =>
      cases hr with
      | unexpected => exact ⟨hp, hl, snoc hes (silent rfl)⟩
      | unterminated => exact ⟨hp, hl, snoc hes (silent rfl)⟩
      | @literal n =>
        refine ⟨hliteral s n, hl, snoc hes ?_⟩
        rintro _ ⟨⟩
        exact hliteral s n

/-- What holds of every slash where it is read holds of a pending slash where it begins, through every run. -/
theorem Run.pendingSlash [WideConversion] {P : Token → Place → Prop}
    (hread : ∀ {settings : Settings} {p : Place} {r : Reading} {t : Token}, Reading.Outcome settings p r →
      r.result = .ok t → t.kind.isSlash = true → P t r.origin)
    {settings : Settings} {source : String} {s₀ s : Session} {es : List Event}
    (h₀ : Session.start settings source = .ok s₀) (hr : Run s₀ es s) (hs : s.pending.kind.isSlash = true) :
    P s.pending s.origin := by
  obtain ⟨t, ht, rfl⟩ := start_ok h₀
  refine hr.keeps (fun _ s => s.pending.kind.isSlash = true → P s.pending s.origin)
    (hread (Reading.outcome settings (.start source.toList)) ht) (fun _ s e s' h he => ?_) hs
  cases he with
  | setStrict => exact h
  | exhausted => exact h
  | lexed _ hr =>
    cases hr with
    | atEnd => exact h
    | stuck => exact h
    | handOut _ ht => exact hread s.outcome ht
  | rescanned hr =>
    cases hr with
    | unexpected => exact h
    | unterminated => exact h
    | literal => exact (nomatch ·)

end Session

end EcmaTokens
