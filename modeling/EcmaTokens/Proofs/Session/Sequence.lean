/-
The tokens of a source are those that are read one after another, each from where the one before
stops. Holding one token ahead, and handing it out only once the next has been read, changes nothing.
-/
import EcmaTokens.Proofs.Lexeme.Skip
import EcmaTokens.Proofs.Session.Invariant

namespace EcmaTokens

/-! ## One token after another -/

section

variable [WideConversion]

/-- Reads the tokens from a place on, up to the end of the source. -/
def readAll (settings : Settings) (p : Place) : Except Diagnostic (List Token) :=
  match _h : (Reading.ofPlace settings p).result with
  | .error d => .error d
  | .ok t =>
    if _ht : t.isEof then .ok []
    else (readAll settings (Reading.ofPlace settings p).stop).map (t :: ·)
termination_by p.rest.length
decreasing_by
  have := Reading.ofPlace_progress _h
  rw [if_neg _ht] at this
  omega

/-- What follows from a first reading: its token, and all that are read behind it. -/
def Reading.followed (settings : Settings) (r : Reading) : Except Diagnostic (List Token) :=
  r.result.bind fun t => if t.isEof then .ok [] else (readAll settings r.stop).map (t :: ·)

theorem readAll_eq (settings : Settings) (p : Place) :
    readAll settings p = (Reading.ofPlace settings p).followed settings := by
  rw [readAll, Reading.followed]
  split
  · next h => rw [h]; rfl
  · next t h =>
    rw [h]
    split
    · next ht => simp [Except.bind, ht]
    · next ht => simp [Except.bind, ht]

/-- At the end of the source, and without a gap, there is nothing but its end. -/
theorem Reading.eof_at_end (settings : Settings) {p : Place} (h : p.rest = []) :
    ∃ t, (ofPlace settings p).result = .ok t ∧ t.isEof = true := by
  have o := outcome settings p
  generalize ofPlace settings p = r at o
  have hg : Gap.scan settings.htmlComments (p.offset == 0) p.rest = .read () 0 := by
    rw [h]; exact Gap.scan_nil _ _
  cases o with
  | unclosed hu => rw [hg] at hu; cases hu
  | eof => exact ⟨_, rfl, rfl⟩
  | @lexeme n m x _ hx => rw [h, List.drop_nil] at hx; cases hx
  | malformed _ hne => rw [h, List.drop_nil] at hne; exact absurd rfl hne

theorem readAll_at_end (settings : Settings) {p : Place} (h : p.rest = []) : readAll settings p = .ok [] := by
  obtain ⟨t, ht, hk⟩ := Reading.eof_at_end settings h
  rw [readAll_eq, Reading.followed, ht]
  simp only [Except.bind, hk, if_true]

end

namespace Session

/-! ## One token ahead -/

variable [WideConversion] {s : Session}

theorem next_of_error {d : Diagnostic} (hf : s.finished = false) (ha : s.atEnd? = none)
    (hr : s.reading.result = .error d) : s.next = (some (.error d), { s.stuck with finished := true }) := by
  simp [next, hf, lex_of_error ha hr]

theorem next_of_ok {t : Token} (hf : s.finished = false) (ha : s.atEnd? = none)
    (hr : s.reading.result = .ok t) : s.next =
      if s.pending.isEof then (none, { s.handOut t with finished := true })
      else (some (.ok s.pending), s.handOut t) := by
  simp [next, hf, lex_of_ok ha hr]

/-- The sequence yields the pending token and then what is read behind it. -/
theorem collect_drain (s : Session) (hf : s.finished = false) (ha : s.atEnd? = none)
    (he : s.pending.isEof = true → s.place.rest = []) :
    collect s.drain.1 =
      if s.pending.isEof then .ok [] else (readAll s.settings s.place).map (s.pending :: ·) := by
  cases hr : s.reading.result with
  | error d =>
    -- nothing behind the end of the source can be malformed
    have hk : s.pending.isEof = false := by
      by_contra hk
      obtain ⟨t, ht, -⟩ := Reading.eof_at_end s.settings (he (by simpa using hk))
      rw [show (Reading.ofPlace s.settings s.place).result = _ from hr] at ht
      cases ht
    have hd : s.drain.1 = [.error d] := by
      rw [drain, next_of_error hf ha hr]
    rw [hd, hk, readAll_eq, Reading.followed, show (Reading.ofPlace s.settings s.place).result = _ from hr]
    rfl
  | ok t =>
    cases hk : s.pending.isEof with
    | true =>
      have hd : s.drain.1 = [] := by
        rw [drain, next_of_ok hf ha hr, hk]
        rfl
      rw [hd]
      rfl
    | false =>
      have hn : s.next = (some (.ok s.pending), s.handOut t) := by
        rw [next_of_ok hf ha hr, hk]; rfl
      -- handing out the pending token leaves less to read, which carries the recursion
      have hdec := remaining_next hn
      have hd : s.drain.1 = .ok s.pending :: (s.handOut t).drain.1 := by
        rw [drain, hn]
      have ih := collect_drain (s.handOut t) hf
        (by rw [atEnd?, show (s.handOut t).last = some s.pending from rfl, Option.filter_some, hk]; rfl)
        (s.outcome.stop_rest_of_eof hr)
      rw [hd, collect, ih, readAll_eq s.settings s.place, Reading.followed,
        show (Reading.ofPlace s.settings s.place).result = _ from hr]
      rfl
termination_by s.remaining

end Session

/-- The tokens of a source are those that are read one after another from its beginning. -/
theorem tokenize_eq_readAll [WideConversion] (settings : Settings) (source : String) :
    tokenize settings source = readAll settings (.start source.toList) := by
  have o : (Session.firstReading settings source).Outcome settings (.start source.toList) := Reading.outcome _ _
  rw [readAll_eq, Reading.followed, tokenize]
  cases hs : Session.start settings source with
  | error d =>
    rw [show (Reading.ofPlace settings (.start source.toList)).result = _ from Session.start_error hs]
    rfl
  | ok s =>
    obtain ⟨t, ht, rfl⟩ := Session.start_ok hs
    rw [show (Reading.ofPlace settings (.start source.toList)).result = _ from ht]
    exact Session.collect_drain _ rfl rfl (o.stop_rest_of_eof ht)

end EcmaTokens
