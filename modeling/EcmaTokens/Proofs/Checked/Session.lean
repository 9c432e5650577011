/-
Sessions that read with a checked cursor. Each of their calls is the call of a session, on the state that the session
has, and has no outcome if a check fails on the way. As long as a slash is read again only from its own line, no check
ever fails: not at the start, and not in any call of any run, continued after failures.
-/
import EcmaTokens.Proofs.Checked.Lexeme
import EcmaTokens.Proofs.Checked.RegularExpression
import EcmaTokens.Proofs.Session.Coherence

namespace EcmaTokens

/-- A session with a checked cursor. It keeps its line break with the cursor, and of the pending token only the
token. -/
structure CheckedSession where
  settings : Settings
  cursor : Cursor
  pending : Token
  last : Option Token
  count : Nat
  finished : Bool

namespace Checked

/-- Reads a regular expression from the offset of its slash. -/
def regExpFrom (start : Nat) (location : Location) : Checked Token := do
  reset start
  regExp
  let text ← sliceFrom start
  tokenFrom (.regExp (String.ofList text)) start location

section RegularExpressions

variable {source : List Char} {b : Bool} {p : Place}

theorem regExpFrom_at (hp : p.Within source) {n : Nat} (hn : hasLineTerminator (p.rest.take n) = false) {c : Char}
    {cs : List Char} (h : p.rest = c :: cs) (hc : isLineTerminator c = false) {r : Scan Unit}
    (hr : RegularExpression.scan p.rest = r) :
    regExpFrom p.offset p.location ((p.advance n).cursor source b) =
      (r.map fun _ => Token.ofPlace (.regExp (String.ofList (p.rest.take r.width))) p r.width).settle source b
        .unterminatedRegExp p := by
  have hregExp := regExp_at (b := b) hp h hc
  rw [hr] at hregExp
  rw [regExpFrom, bind_of_ok (reset_at hp hn)]
  cases r with
  | malformed m => exact bind_of_error hregExp
  | read u m =>
    refine (bind_of_ok hregExp).trans ((bind_of_ok (sliceFrom_at hp m)).trans ?_)
    exact tokenFrom_at hp _ m

end RegularExpressions

end Checked

namespace CheckedSession

variable [WideConversion]

def start (settings : Settings) (source : String) : Option (Except Diagnostic CheckedSession) := do
  let (r, cursor) ← Checked.token settings { source := source.toList }
  return r.map fun t => { settings, cursor, pending := t, last := none, count := 0, finished := false }

def lex (m : CheckedSession) : Option (Except Diagnostic Token × CheckedSession) :=
  match m.last.filter Token.isEof with
  | some t => some (.ok t, m)
  | none => do
    let (r, cursor) ← Checked.token m.settings { m.cursor with lineBreak := false }
    match r with
    | .error d => return (.error d, { m with cursor })
    | .ok t => return (.ok m.pending, { m with cursor, pending := t, last := some m.pending, count := m.count + 1 })

def next (m : CheckedSession) : Option (Option (Except Diagnostic Token) × CheckedSession) :=
  if m.finished then some (none, m)
  else do
    match ← m.lex with
    | (.error d, m) => return (some (.error d), { m with finished := true })
    | (.ok t, m) => return if t.isEof then (none, { m with finished := true }) else (some (.ok t), m)

def rescanRegExp (m : CheckedSession) : Option (Except Diagnostic Token × CheckedSession) :=
  if !m.pending.kind.isSlash then some (.error (.unexpected m.pending), m)
  else do
    let (r, cursor) ← Checked.regExpFrom m.pending.span.start m.pending.location m.cursor
    match r with
    | .error d => return (.error d, { m with cursor })
    | .ok t => return (.ok t, { m with cursor, pending := t })

/-- Performs a call. `none` if a check fails. -/
def perform? (m : CheckedSession) : Call → Option (Answer × CheckedSession)
  | .lex => m.lex.map fun (r, m') => (.ofResult r, m')
  | .next => m.next.map fun (r, m') => ((r.map .ofResult).getD .nothing, m')
  | .rescan => m.rescanRegExp.map fun (r, m') => (.ofResult r, m')
  | .setStrict strict => some (.nothing, { m with settings := { m.settings with strict } })

/-- A slash may be read again from its line alone. -/
def Allows (m : CheckedSession) (c : Call) : Prop :=
  c = .rescan → m.pending.kind.isSlash = true → m.cursor.line = m.pending.location.line

/-- A run of allowed calls, with its events. -/
inductive Run (m₀ : CheckedSession) : List Event → CheckedSession → Prop
  | start : Run m₀ [] m₀
  | step {es : List Event} {m m' : CheckedSession} {c : Call} {a : Answer} :
      Run m₀ es m → m.Allows c → m.perform? c = some (a, m') → Run m₀ (es ++ [⟨c, a⟩]) m'

end CheckedSession

/-! ## Sessions in their sources -/

namespace Session

/-- The session with a checked cursor that has the state of a session. -/
def checked (source : List Char) (s : Session) : CheckedSession :=
  ⟨s.settings, s.place.cursor source s.lineBreak, s.pending, s.last, s.count, s.finished⟩

variable {source : List Char} {s : Session}

theorem Sound.within_place (h : s.Sound source) : s.place.Within source := by
  obtain ⟨before, b, -, hp⟩ := h.cursor
  exact hp.within

theorem Sound.within_origin (h : s.Sound source) : s.origin.Within source := by
  obtain ⟨before, b, ho, -⟩ := h.cursor
  exact ho.within

section

variable [WideConversion]

theorem start_checked (settings : Settings) (source : String) :
    CheckedSession.start settings source = some ((start settings source).map (checked source.toList)) := by
  have h : Checked.token settings { source := source.toList } = _ :=
    Checked.token_at (Place.within_start source.toList) settings
  rw [CheckedSession.start, h, start, Checked.settleReading]
  cases (Reading.ofPlace settings (.start source.toList)).result <;> rfl

theorem lex_checked (h : s.Sound source) : (s.checked source).lex = some (s.lex.1, s.lex.2.checked source) := by
  have ht : Checked.token (s.checked source).settings { (s.checked source).cursor with lineBreak := false } =
      Checked.settleReading source s.reading := Checked.token_at h.within_place s.settings
  rw [CheckedSession.lex]
  cases he : s.atEnd? with
  | some t =>
    have he' : (s.checked source).last.filter Token.isEof = some t := he
    rw [lex_of_atEnd he, he']
  | none =>
    have he' : (s.checked source).last.filter Token.isEof = none := he
    rw [he', ht, Checked.settleReading]
    cases hr : s.reading.result with
    | error d =>
      rw [lex_of_error he hr]
      rfl
    | ok t =>
      rw [lex_of_ok he hr]
      rfl

theorem next_checked (h : s.Sound source) : (s.checked source).next = some (s.next.1, s.next.2.checked source) := by
  rw [CheckedSession.next, next]
  by_cases hf : s.finished = true
  · rw [if_pos hf]
    exact if_pos hf
  rw [if_neg hf]
  refine (if_neg hf).trans ?_
  rw [lex_checked h]
  obtain ⟨⟨d⟩ | ⟨t⟩, s', hl⟩ : ∃ r s', s.lex = (r, s') := ⟨_, _, rfl⟩
  · rw [hl]
    rfl
  · rw [hl]
    by_cases he : t.isEof = true
    · simp [he, checked]
    · simp [he]

end

/-- Where the cursor is on the line of the pending slash it is reached from there along the line. -/
theorem Sound.place_eq (h : s.Sound source) (hl : s.place.position.line = s.pending.location.line) :
    ∃ n, s.place = s.origin.advance n ∧ hasLineTerminator (s.origin.rest.take n) = false := by
  obtain ⟨before, b, ho, hp⟩ := h.cursor
  obtain ⟨k, hk⟩ := h.pending
  have hpos := ho.position_eq hp
  have hrest : s.origin.rest = b ++ s.place.rest := by
    have hsource := ho.eq_append.symm.trans hp.eq_append
    rwa [List.append_assoc, List.append_cancel_left_eq] at hsource
  have hcount := Position.line_advance s.origin.position b
  have hline : s.pending.location.line = s.origin.position.line := by rw [hk]; rfl
  rw [← hpos, hl, hline] at hcount
  refine ⟨b.length, ?_, ?_⟩
  · rw [Place.advance, hrest, List.take_left, List.drop_left, ← hpos]
  · rw [hrest, List.take_left, ← lineCount_eq_zero_iff]
    omega

theorem rescan_checked (h : s.Sound source) (ha : (s.checked source).Allows .rescan) :
    ∃ r s', s.rescanRegExp? = some (r, s') ∧ (s.checked source).rescanRegExp = some (r, s'.checked source) := by
  by_cases hs : s.pending.kind.isSlash = true
  · have hl : s.place.position.line = s.pending.location.line := ha rfl hs
    obtain ⟨n, hplace, hfree⟩ := h.place_eq hl
    obtain ⟨k, hk⟩ := h.pending
    obtain ⟨cs, hcs⟩ := List.head?_eq_some_iff.1 (h.slash hs)
    obtain ⟨⟨r, s'⟩, hr⟩ := Option.ne_none_iff_exists'.1 fun hn => (h.rescan_eq_none_iff.1 hn).2 hl
    refine ⟨r, s', hr, ?_⟩
    have hread {x : Scan Unit} (hx : RegularExpression.scan s.origin.rest = x) :=
      Checked.regExpFrom_at (b := s.lineBreak) h.within_origin hfree hcs rfl hx
    have hstart : (s.checked source).pending.span.start = s.origin.offset := by
      show s.pending.span.start = _
      rw [hk]
      rfl
    have hlocation : (s.checked source).pending.location = s.origin.location := by
      show s.pending.location = _
      rw [hk]
      rfl
    have hcursor : (s.checked source).cursor = (s.origin.advance n).cursor source s.lineBreak := by
      rw [← hplace]
      rfl
    rw [CheckedSession.rescanRegExp, hstart, hlocation, hcursor]
    have hn : ¬ (!s.pending.kind.isSlash) = true := by simpa using hs
    refine (if_neg hn).trans ?_
    cases rescanned hr with
    | unexpected hn => rw [hs] at hn; cases hn
    | unterminated _ _ hx => rw [hread hx]; rfl
    | literal _ _ hx => rw [hread hx]; rfl
  · have hn : (!s.pending.kind.isSlash) = true := by simpa using hs
    exact ⟨.error (.unexpected s.pending), s, if_pos hn, if_pos hn⟩

variable [WideConversion]

/-- An allowed call passes its checks, gives the answer of the session, and leaves the state of the session. -/
theorem perform_checked (h : s.Sound source) {c : Call} (ha : (s.checked source).Allows c) :
    ∃ a s', s.perform? c = some (a, s') ∧ (s.checked source).perform? c = some (a, s'.checked source) := by
  cases c with
  | lex => exact ⟨_, _, rfl, by rw [CheckedSession.perform?, lex_checked h]; rfl⟩
  | next => exact ⟨_, _, rfl, by rw [CheckedSession.perform?, next_checked h]; rfl⟩
  | rescan =>
    obtain ⟨r, s', hr, hm⟩ := rescan_checked h ha
    exact ⟨_, s', by rw [perform?, hr]; rfl, by rw [CheckedSession.perform?, hm]; rfl⟩
  | setStrict strict => exact ⟨_, _, rfl, rfl⟩

/-! ## Runs -/

theorem allows_of_perform? (h : s.Sound source) {c : Call} {a : Answer} {s' : Session}
    (hp : s.perform? c = some (a, s')) : (s.checked source).Allows c := by
  rintro rfl hs
  by_contra hl
  have hn : s.rescanRegExp? = none := h.rescan_eq_none_iff.2 ⟨hs, hl⟩
  rw [perform?, hn] at hp
  cases hp

/-- The runs with a checked cursor are the runs of the session. -/
theorem run_checked_iff {settings : Settings} {source : String} {s₀ : Session} (h₀ : start settings source = .ok s₀)
    {es : List Event} {m : CheckedSession} :
    (s₀.checked source.toList).Run es m ↔ ∃ s, Run s₀ es s ∧ m = s.checked source.toList := by
  constructor
  · intro h
    induction h with
    | start => exact ⟨s₀, .start, rfl⟩
    | step _ ha hp ih =>
      obtain ⟨s, hr, rfl⟩ := ih
      obtain ⟨a, s', hs, hm⟩ := perform_checked (Sound.run h₀ hr) ha
      obtain ⟨rfl, rfl⟩ := Prod.mk.inj (Option.some.inj (hm.symm.trans hp))
      exact ⟨s', .step hr hs, rfl⟩
  · rintro ⟨s, hr, rfl⟩
    induction hr with
    | start => exact .start
    | step hr hs ih =>
      have hsound := Sound.run h₀ hr
      have ha := allows_of_perform? hsound hs
      obtain ⟨a, s', hs', hm⟩ := perform_checked hsound ha
      obtain ⟨rfl, rfl⟩ := Prod.mk.inj (Option.some.inj (hs'.symm.trans hs))
      exact .step ih ha hm

end Session

namespace CheckedSession

/-- No check ever fails, and no loop stands still. A session with a checked cursor starts on every source, as the
session does; and in every state that a run of allowed calls leads to, continued after failures, the cursor stands
between two characters and not in front of its line, and every allowed call has an outcome. The run is one of the
session, and its state the state of the session. -/
theorem checks_pass [WideConversion] (settings : Settings) (source : String) :
    start settings source = some ((Session.start settings source).map (Session.checked source.toList)) ∧
      ∀ {m₀ m : CheckedSession} {es : List Event}, start settings source = some (.ok m₀) → m₀.Run es m →
        (splitBytes? m.cursor.source m.cursor.index).isSome = true ∧ m.cursor.lineStart ≤ m.cursor.index ∧
          (∀ c, m.Allows c → (m.perform? c).isSome = true) ∧
          ∃ s₀ s, Session.start settings source = .ok s₀ ∧ Session.Run s₀ es s ∧ m = s.checked source.toList := by
  have hstart := Session.start_checked settings source
  refine ⟨hstart, ?_⟩
  intro m₀ m es hm₀ hrun
  obtain ⟨s₀, h₀, rfl⟩ : ∃ s₀, Session.start settings source = .ok s₀ ∧ m₀ = s₀.checked source.toList := by
    rw [hstart] at hm₀
    cases hs : Session.start settings source with
    | error d => rw [hs] at hm₀; cases hm₀
    | ok s₀ => rw [hs] at hm₀; cases hm₀; exact ⟨s₀, rfl, rfl⟩
  obtain ⟨s, hr, rfl⟩ := (Session.run_checked_iff h₀).1 hrun
  have hsound := Session.Sound.run h₀ hr
  have hwithin := hsound.within_place
  refine ⟨?_, hwithin.line, fun c ha => ?_, s₀, s, h₀, hr, rfl⟩
  · obtain ⟨before, hs, ho⟩ := hwithin.text
    have hsplit : splitBytes? source.toList s.place.offset = some (before, s.place.rest) := by
      rw [hs, ho, splitBytes?_append]
    exact Option.isSome_iff_exists.2 ⟨_, hsplit⟩
  · obtain ⟨a, s', -, hm⟩ := Session.perform_checked hsound ha
    exact Option.isSome_iff_exists.2 ⟨_, hm⟩

/-- Behind a string with a lone surrogate and a word that is read twice, a slash is read again after a failure on its
line. -/
theorem checks_pass_failure : ∃ m₀ es m,
    start {} "'\\uD83D\\u0041\\x41\\377' 1.5e3 >>>= a\\u0062c /=\\u002d/g" = some (.ok m₀) ∧ m₀.Run es m ∧
      es.map Event.call = [.lex, .next, .setStrict true, .lex, .next, .lex] ∧
      (es.any fun e => e.answer.isFailure) = true ∧ m.pending.kind.isSlash = true ∧ m.Allows .rescan ∧
      (m.perform? .rescan).isSome = true := by
  have h : ((Session.start {} "'\\uD83D\\u0041\\x41\\377' 1.5e3 >>>= a\\u0062c /=\\u002d/g").toOption.bind fun s₀ =>
      (s₀.performAll? [.lex, .next, .setStrict true, .lex, .next, .lex]).map fun r =>
        (r.1.any fun e => e.answer.isFailure) && (r.2.pending.kind.isSlash &&
          r.2.place.position.line == r.2.pending.location.line)) = some true := by decide +kernel
  obtain ⟨s₀, es, s, h₀, hr, hcalls, h⟩ := Session.exists_run h
  simp only [Bool.and_eq_true, beq_iff_eq] at h
  obtain ⟨hfailure, hs, hl⟩ := h
  have hstart := Session.start_checked {} "'\\uD83D\\u0041\\x41\\377' 1.5e3 >>>= a\\u0062c /=\\u002d/g"
  rw [h₀] at hstart
  have hrun := (Session.run_checked_iff h₀).2 ⟨s, hr, rfl⟩
  obtain ⟨-, -, hpass, -⟩ := (checks_pass {} _).2 hstart hrun
  exact ⟨_, es, _, hstart, hrun, hcalls, hfailure, hs, fun _ _ => hl, hpass .rescan fun _ _ => hl⟩

end CheckedSession

end EcmaTokens
