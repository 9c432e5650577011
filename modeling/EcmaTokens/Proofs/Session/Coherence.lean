/-
Positions are what the source says they are. Through every run of a session, continued after
failures, the cursor, the tokens and the diagnostics stand at a character of the source, never
between a carriage return and its line feed, with the line and column that follow from the text in
front of them alone; and a slash can be read again as long as no token behind it was malformed.
-/
import EcmaTokens.Proofs.Session.Invariant

namespace EcmaTokens

/-! ## Marks in a source -/

/-- The location is the one behind a front part of the source. -/
def Location.Marks (source : List Char) (loc : Location) : Prop :=
  ∃ before rest, source = before ++ rest ∧ Seam before rest ∧ loc = .behind before

/-- The token starts where its location says. -/
def Token.Marks (source : List Char) (t : Token) : Prop :=
  t.location.Marks source ∧ t.location.offset = t.span.start

/-- The diagnostic stands at a location of the source, with line and column counted from one. -/
def Diagnostic.Marks (source : List Char) (d : Diagnostic) : Prop :=
  ∃ loc : Location, loc.Marks source ∧ d.index = loc.offset ∧ d.line = loc.line + 1 ∧ d.column = loc.column + 1

/-- The token or diagnostic of an answer does. -/
def Answer.Marks (source : List Char) : Answer → Prop
  | .token t => t.Marks source
  | .failure d => d.Marks source
  | .nothing => True

section Marks

variable {source before : List Char} {p : Place}

theorem Place.Behind.marks (h : p.Behind source before) : p.location.Marks source :=
  ⟨before, p.rest, h.eq_append, h.seam, h.location_eq⟩

theorem Diagnostic.marks_malformed {loc : Location} (h : loc.Marks source) (m : Message) :
    (Diagnostic.malformed loc m).Marks source :=
  ⟨loc, h, rfl, rfl, rfl⟩

theorem Diagnostic.marks_unexpected {t : Token} (h : t.Marks source) : (Diagnostic.unexpected t).Marks source :=
  ⟨t.location, h.1, rfl, rfl, rfl⟩

theorem Token.marks_ofPlace (h : p.Behind source before) (k : Kind) (n : Nat) :
    (Token.ofPlace k p n).Marks source :=
  ⟨h.marks, rfl⟩

/-- A diagnostic from reading marks the source. -/
theorem Reading.Outcome.marks_error [WideConversion] {settings : Settings} {r : Reading} {d : Diagnostic}
    (h : Outcome settings p r) (hp : p.Behind source before) (hd : r.result = .error d) : d.Marks source := by
  obtain ⟨b, ho, b', hs⟩ := h.behind hp
  cases h with
  | unclosed => cases hd; exact Diagnostic.marks_malformed ho.marks _
  | eof => cases hd
  | lexeme => cases hd
  | malformed => cases hd; exact Diagnostic.marks_malformed hs.marks _

end Marks

/-! ## What the calls of a run gave back -/

/-- The call asked for a token, and a token or a failure came of it. -/
def Event.reads (e : Event) : Bool :=
  (e.call == .lex || e.call == .next) && e.answer != .nothing

/-- The last token that was asked for was malformed. -/
def lastReadFailed (es : List Event) : Bool :=
  (es.filter Event.reads).getLast?.any fun e => e.answer.isFailure

theorem lastReadFailed_append (es : List Event) (e : Event) :
    lastReadFailed (es ++ [e]) = if e.reads then e.answer.isFailure else lastReadFailed es := by
  cases h : e.reads <;> simp [lastReadFailed, List.filter_append, h]

namespace Session

variable {source : List Char} {s : Session}

namespace Sound

theorem marks_pending (h : s.Sound source) : s.pending.Marks source := by
  obtain ⟨n, hn⟩ := h.pending
  obtain ⟨before, _, ho, -⟩ := h.cursor
  rw [hn]
  exact Token.marks_ofPlace ho _ _

/-- The line of the cursor starts no later than the pending token exactly if it is the token's. -/
theorem line_iff (h : s.Sound source) :
    (s.place.position.lineStart ≤ s.origin.offset ↔ s.place.position.line = s.origin.position.line) ∧
      (s.place.position.line = s.origin.position.line →
        s.place.position.lineStart = s.origin.position.lineStart) := by
  obtain ⟨before, b, ho, hp⟩ := h.cursor
  have hle : s.origin.position.lineStart ≤ s.origin.offset := by
    rw [Place.offset, ho.position]; exact Position.lineStart_behind_le _
  have hline := Position.line_advance s.origin.position b
  have hstart := Position.lineStart_advance s.origin.position b
  rw [← ho.position_eq hp] at hline hstart
  -- everything hangs on whether a line ends between the token's origin and the cursor
  cases hb : hasLineTerminator b with
  | false =>
    have hz := lineCount_eq_zero_iff.2 hb
    rw [hb, if_neg (by simp)] at hstart
    refine ⟨?_, fun _ => hstart⟩
    constructor
    · intro _; omega
    · intro _; omega
  | true =>
    have hpos := utf8Length_closedLines_pos hb
    have hnz : lineCount b ≠ 0 := fun hz => by rw [lineCount_eq_zero_iff.1 hz] at hb; cases hb
    rw [hb, if_pos rfl] at hstart
    constructor
    · constructor
      · intro h
        rw [Place.offset] at h
        omega
      · intro h; omega
    · intro h; omega

/-- A slash is out of reach exactly where the cursor has left its line. -/
theorem rescan_eq_none_iff (h : s.Sound source) :
    s.rescanRegExp? = none ↔
      s.pending.kind.isSlash = true ∧ s.place.position.line ≠ s.pending.location.line := by
  obtain ⟨n, hn⟩ := h.pending
  have hl : s.pending.location.line = s.origin.position.line := by rw [hn]; rfl
  rw [hl, ne_eq, ← h.line_iff.1]
  unfold rescanRegExp?
  split
  · next hk => simp only [Bool.not_eq_true'] at hk; simp [hk]
  · next hk =>
    have hk' : s.pending.kind.isSlash = true := by simpa using hk
    split
    · next hlt => exact ⟨fun _ => ⟨hk', by omega⟩, fun _ => rfl⟩
    · next hle =>
      -- whatever is read from there, the call gives an answer
      split
      · exact ⟨fun h => (by cases h), fun h => absurd h.2 (by omega)⟩
      · exact ⟨fun h => (by cases h), fun h => absurd h.2 (by omega)⟩

end Sound

/-- What a run has handed out and reported marks the source, and the cursor is on the line of a
pending slash unless the token behind it was malformed. -/
structure Coherent (source : List Char) (es : List Event) (s : Session) : Prop where
  sound : s.Sound source
  last : ∀ t, s.last = some t → t.Marks source
  answers : ∀ e ∈ es, e.answer.Marks source
  line : lastReadFailed es = false → s.pending.kind.isSlash = true →
    s.place.position.lineStart = s.origin.position.lineStart

namespace Coherent

variable {es : List Event} {e : Event} {s' : Session}

theorem answers_append (h : s.Coherent source es) (he : e.answer.Marks source) :
    ∀ e' ∈ es ++ [e], e'.answer.Marks source := by
  intro e' he'
  rcases List.mem_append.1 he' with he' | he'
  · exact h.answers e' he'
  · obtain rfl : e' = e := by simpa using he'
    exact he

theorem marks_deliver {c : Call} {t : Token} (h : t.Marks source) : (deliver c (.ok t)).Marks source := by
  by_cases hn : c = .next ∧ t.isEof = true
  · rw [deliver, if_pos hn]; exact trivial
  · rw [deliver, if_neg hn]; exact h

theorem lexed [WideConversion] (h : s.Coherent source es) {c : Call} {r : Except Diagnostic Token} (hc : s.Asks c)
    (hr : s.Lexed r s') : s'.Coherent source (es ++ [⟨c, deliver c r⟩]) := by
  have hs := h.sound.lexed hr
  obtain ⟨before, b, -, hp⟩ := h.sound.cursor
  cases hr with
  | @atEnd t he =>
    have ht : s.last = some t := (Option.filter_eq_some_iff.1 he).1
    refine ⟨hs, h.last, h.answers_append (marks_deliver (h.last t ht)), ?_⟩
    intro _ hk
    -- behind the end of the source the pending token is the end again, and no slash
    have hn := Sound.notEof_of_isSlash hk
    rw [h.sound.last (by rw [he]; rfl)] at hn
    cases hn
  | @stuck d _ hd =>
    refine ⟨hs, h.last, h.answers_append (s.outcome.marks_error hp hd), ?_⟩
    intro hf
    have hreads : Event.reads ⟨c, .failure d⟩ = true := by
      rcases hc with rfl | ⟨rfl, -⟩ <;> rfl
    rw [lastReadFailed_append, deliver, if_pos hreads] at hf
    cases hf
  | @handOut t _ ht =>
    refine ⟨hs, fun t' ht' => ?_, h.answers_append (marks_deliver h.sound.marks_pending), fun _ hk => ?_⟩
    · cases ht'; exact h.sound.marks_pending
    · exact (s.outcome.slash ht hk).2

theorem rescanned (h : s.Coherent source es) {r : Except Diagnostic Token} (hr : s.Rescanned r s') :
    s'.Coherent source (es ++ [⟨.rescan, .ofResult r⟩]) := by
  have hs := h.sound.rescanned hr
  have hf : lastReadFailed (es ++ [⟨.rescan, .ofResult r⟩]) = lastReadFailed es := by
    rw [lastReadFailed_append]; rfl
  obtain ⟨before, b, ho, -⟩ := h.sound.cursor
  cases hr with
  | unexpected =>
    refine ⟨hs, h.last, h.answers_append (Diagnostic.marks_unexpected h.sound.marks_pending), ?_⟩
    rw [hf]; exact h.line
  | @unterminated n hk _ hn =>
    have hl := h.sound.lineFree_rescan hk hn
    have hm := ho.advance (CutsClean.of_lineFree hl)
    refine ⟨hs, h.last, h.answers_append (Diagnostic.marks_malformed hm.marks _), fun _ _ => ?_⟩
    show (Position.advance _ _).lineStart = _
    exact (s.origin.position.same_line hl).2
  | literal =>
    exact ⟨hs, h.last, h.answers_append (Token.marks_ofPlace ho _ _), fun _ => (nomatch ·)⟩

section

variable [WideConversion]

theorem effect (h : s.Coherent source es) (he : s.Effect e s') : s'.Coherent source (es ++ [e]) := by
  cases he with
  | setStrict strict =>
    refine ⟨h.sound.effect (.setStrict strict), h.last, h.answers_append trivial, ?_⟩
    rw [lastReadFailed_append]; exact h.line
  | exhausted hf =>
    refine ⟨h.sound, h.last, h.answers_append trivial, ?_⟩
    rw [lastReadFailed_append]; exact h.line
  | lexed hc hr =>
    have hl := h.lexed hc hr
    exact ⟨h.sound.effect (.lexed hc hr), hl.last, hl.answers, hl.line⟩
  | rescanned hr => exact h.rescanned hr

theorem start {settings : Settings} {source : String} (h : Session.start settings source = .ok s) :
    s.Coherent source.toList [] := by
  have hs := Sound.start h
  obtain ⟨t, ht, rfl⟩ := start_ok h
  have o : (firstReading settings source).Outcome settings (.start source.toList) := Reading.outcome _ _
  refine ⟨hs, ?_, ?_, fun _ hk => (o.slash ht hk).2⟩
  · intro t ht; cases ht
  · intro e he; cases he

theorem run {settings : Settings} {source : String} {s₀ : Session}
    (h₀ : Session.start settings source = .ok s₀) (hr : Run s₀ es s) : s.Coherent source.toList es :=
  hr.keeps (fun es s => s.Coherent source.toList es) (start h₀) fun _ _ _ _ h he => h.effect he

end

/-- The last token that was asked for behind a slash out of reach was malformed. -/
theorem failed_of_rescan_none (h : s.Coherent source es) (hn : s.rescanRegExp? = none) :
    lastReadFailed es = true := by
  obtain ⟨hk, hne⟩ := h.sound.rescan_eq_none_iff.1 hn
  by_contra hf
  obtain ⟨n, hp⟩ := h.sound.pending
  obtain ⟨before, _, ho, -⟩ := h.sound.cursor
  have hle := Position.lineStart_behind_le before
  rw [← ho.position, ← h.line (by simpa using hf) hk] at hle
  rw [hp] at hne
  exact hne (h.sound.line_iff.1.1 hle)

/-- Reading a slash again moves the cursor along its line. -/
theorem line_of_rescan (h : s.Coherent source es) {r : Except Diagnostic Token}
    (hr : s.rescanRegExp? = some (r, s')) :
    s'.place.position.line = s.place.position.line ∧
      s'.place.position.lineStart = s.place.position.lineStart := by
  have same : ∀ {n : Nat} {r : Scan Unit}, s.pending.kind.isSlash = true →
      s.place.position.lineStart ≤ s.origin.offset → RegularExpression.scan s.origin.rest = r → r.width = n →
      (s.origin.advance n).position.line = s.place.position.line ∧
        (s.origin.advance n).position.lineStart = s.place.position.lineStart := by
    rintro n r hk hle hn rfl
    have hl := h.sound.line_iff.1.1 hle
    rw [hl, h.sound.line_iff.2 hl]
    exact s.origin.position.same_line (h.sound.lineFree_rescan hk hn)
  cases Session.rescanned hr with
  | unexpected => exact ⟨rfl, rfl⟩
  | unterminated hk hle hn => exact same hk hle hn rfl
  | literal hk hle hn => exact same hk hle hn rfl

end Coherent

/-! ## Coherence -/

/-- Positions are coherent. A diagnostic that ends the start marks the source. After every run the
cursor stands at a character of the source, on the line and behind the line start that the text in
front of it has, and between no carriage return and its line feed; the pending token and every token
and diagnostic given back mark the source. Reading a slash again leaves the line and its start as
they are. It is out of reach exactly where the cursor has left the line of the slash, and there the
last token asked for was malformed. -/
theorem positions_coherent [WideConversion] (settings : Settings) (source : String) :
    (∀ d, start settings source = .error d → d.Marks source.toList) ∧
    ∀ s₀ es s, start settings source = .ok s₀ → Run s₀ es s →
      (∃ before, s.place.Behind source.toList before) ∧
      s.place.position.lineStart ≤ s.place.offset ∧ s.place.offset ≤ utf8Length source.toList ∧
      s.pending.Marks source.toList ∧ (∀ e ∈ es, e.answer.Marks source.toList) ∧
      (∀ r s', s.rescanRegExp? = some (r, s') → s'.place.position.line = s.place.position.line ∧
        s'.place.position.lineStart = s.place.position.lineStart) ∧
      (s.rescanRegExp? = none ↔
        s.pending.kind.isSlash = true ∧ s.place.position.line ≠ s.pending.location.line) ∧
      (s.rescanRegExp? = none → lastReadFailed es = true) := by
  constructor
  · intro d hd
    have o : (firstReading settings source).Outcome settings (.start source.toList) := Reading.outcome _ _
    exact o.marks_error (.start source.toList) (start_error hd)
  · intro s₀ es s h₀ hr
    have h := Coherent.run h₀ hr
    obtain ⟨before, b, -, hp⟩ := h.sound.cursor
    refine ⟨⟨_, hp⟩, ?_, ?_, h.sound.marks_pending, h.answers, fun r s' => h.line_of_rescan,
      h.sound.rescan_eq_none_iff, h.failed_of_rescan_none⟩
    · rw [Place.offset, hp.position]
      exact Position.lineStart_behind_le _
    · have := congrArg utf8Length hp.eq_append
      rw [utf8Length_append] at this
      rw [hp.offset_eq]
      omega

/-- A comment that never closes, and a slash whose line is lost behind a malformed string. -/
theorem positions_coherent_malformed :
    (∃ d, start {} " /*" = .error d ∧ d.Marks " /*".toList) ∧
    ∃ s₀ es s, start {} "a\r\n/\n'" = .ok s₀ ∧ Run s₀ es s ∧ es.map Event.call = [.lex, .next, .setStrict true] ∧
      (∃ before, s.place.Behind "a\r\n/\n'".toList before) ∧ (∀ e ∈ es, e.answer.Marks "a\r\n/\n'".toList) ∧
      s.rescanRegExp? = none ∧ lastReadFailed es = true := by
  constructor
  · cases hd : start {} " /*" with
    | error d => exact ⟨d, rfl, (positions_coherent {} " /*").1 d hd⟩
    | ok s =>
      have : (start {} " /*").toOption.isSome = false := by decide +kernel
      rw [hd] at this
      cases this
  · have h : ((start {} "a\r\n/\n'").toOption.bind fun s₀ =>
        (s₀.performAll? [.lex, .next, .setStrict true]).map fun r =>
          (r.1.map Event.call, r.2.rescanRegExp?.isNone)) = some ([.lex, .next, .setStrict true], true) := by
      decide +kernel
    obtain ⟨s₀, h₀, h⟩ := Option.bind_eq_some_iff.1 h
    obtain ⟨⟨es, s⟩, hr, h⟩ := Option.map_eq_some_iff.1 h
    obtain ⟨hcalls, hn⟩ := Prod.mk.inj h
    have h₀ := ok_of_toOption h₀
    have hr := run_of_performAll? hr
    have hn : s.rescanRegExp? = none := Option.isNone_iff_eq_none.1 hn
    obtain ⟨hp, -, -, -, he, -, -, hf⟩ := (positions_coherent {} "a\r\n/\n'").2 s₀ es s h₀ hr
    exact ⟨s₀, es, s, h₀, hr, hcalls, hp, he, hn, hf hn⟩

end Session

end EcmaTokens
