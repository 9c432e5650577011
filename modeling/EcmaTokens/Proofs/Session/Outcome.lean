/-
What reading a token can come to, and what `lex` and the second reading of a slash do with it, said
once: every later law of sessions is a case analysis of these outcomes.
-/
import EcmaTokens.Session.Tokenize
import EcmaTokens.Proofs.Lexeme.Basic
import EcmaTokens.Proofs.Lexeme.RegularExpression

namespace EcmaTokens

/-! ## Reading -/

/-- A token is made of its own text, whatever comes behind it. -/
theorem Token.ofPlace_append {p : Place} {n : Nat} (hn : n ≤ p.rest.length) (tail : List Char) (k : Kind) :
    ofPlace k (p.append tail) n = ofPlace k p n := by
  rw [ofPlace, Place.append_advance hn, Place.rest_append, List.take_append_of_le_length hn]
  rfl

namespace Reading

section

variable [WideConversion]

/-- Reading a token with the gap told from its text alone. -/
theorem ofPlace_eq (settings : Settings) (p : Place) :
    ofPlace settings p = match Gap.scan settings.htmlComments (p.offset == 0) p.rest with
      | .read () n => ofOrigin settings.strict (hasLineTerminator (p.rest.take n)) (p.advance n)
      | .malformed n =>
        ⟨.error (.malformed (p.advance n).location .illegalToken), p.advance n, p.finish,
          hasLineTerminator p.rest⟩ := by
  rw [ofPlace, Gap.skip_eq]
  cases Gap.scan settings.htmlComments (p.offset == 0) p.rest <;> rfl

/-- The ways in which reading a token from a place can go. -/
inductive Outcome (settings : Settings) (p : Place) : Reading → Prop
  /-- A block comment in the gap never closes. -/
  | unclosed {n : Nat} :
      Gap.scan settings.htmlComments (p.offset == 0) p.rest = .malformed n →
      Outcome settings p
        ⟨.error (.malformed (p.advance n).location .illegalToken), p.advance n, p.finish,
          hasLineTerminator p.rest⟩
  /-- Behind the gap is the end of the source. -/
  | eof {n : Nat} :
      Gap.scan settings.htmlComments (p.offset == 0) p.rest = .read () n → p.rest.drop n = [] →
      Outcome settings p
        ⟨.ok (.ofPlace .eof (p.advance n) 0), p.advance n, p.advance n, hasLineTerminator (p.rest.take n)⟩
  /-- Behind the gap is a lexeme. -/
  | lexeme {n m : Nat} {x : Lexeme} :
      Gap.scan settings.htmlComments (p.offset == 0) p.rest = .read () n →
      Lexeme.scan (p.rest.drop n) = .read x m →
      Outcome settings p
        ⟨.ok (.ofPlace (x.kind settings.strict) (p.advance n) m), p.advance n, (p.advance n).advance m,
          hasLineTerminator (p.rest.take n)⟩
  /-- Behind the gap the text is malformed. -/
  | malformed {n m : Nat} :
      Gap.scan settings.htmlComments (p.offset == 0) p.rest = .read () n → p.rest.drop n ≠ [] →
      Lexeme.scan (p.rest.drop n) = .malformed m →
      Outcome settings p
        ⟨.error (.malformed ((p.advance n).advance m).location .illegalToken), p.advance n,
          (p.advance n).advance m, hasLineTerminator (p.rest.take n)⟩

theorem outcome (settings : Settings) (p : Place) : Outcome settings p (ofPlace settings p) := by
  rw [ofPlace_eq]
  split
  · next n hg =>
    unfold ofOrigin
    split
    · next he => exact .eof hg (by simpa using he)
    · next he =>
      split
      · next x m hx => exact .lexeme hg hx
      · next m hm => exact .malformed hg (by simpa using he) hm
  · next n hg => exact .unclosed hg

/-- Reading a lexeme at its origin. -/
theorem ofOrigin_of_lexeme {strict lineBreak : Bool} {p : Place} {n : Nat} {x : Lexeme}
    (hx : Lexeme.scan p.rest = .read x n) :
    ofOrigin strict lineBreak p = ⟨.ok (.ofPlace (x.kind strict) p n), p, p.advance n, lineBreak⟩ := by
  have hne : ¬ p.rest.isEmpty = true := by
    have := List.ne_nil_of_length_pos (Lexeme.scan_pos hx).2
    simpa using this
  rw [ofOrigin, if_neg hne, hx]

/-- Reading malformed text at its origin. -/
theorem ofOrigin_of_malformed {strict lineBreak : Bool} {p : Place} {n : Nat} (hne : p.rest ≠ [])
    (hx : Lexeme.scan p.rest = .malformed n) :
    ofOrigin strict lineBreak p =
      ⟨.error (.malformed (p.advance n).location .illegalToken), p, p.advance n, lineBreak⟩ := by
  rw [ofOrigin, if_neg (by simpa using hne), hx]

/-- Reading where a lexeme stands behind the gap. -/
theorem ofPlace_of_lexeme {settings : Settings} {p : Place} {n m : Nat} {x : Lexeme}
    (hg : Gap.scan settings.htmlComments (p.offset == 0) p.rest = .read () n)
    (hx : Lexeme.scan (p.rest.drop n) = .read x m) :
    ofPlace settings p =
      ⟨.ok (.ofPlace (x.kind settings.strict) (p.advance n) m), p.advance n, (p.advance n).advance m,
        hasLineTerminator (p.rest.take n)⟩ := by
  rw [ofPlace_eq, hg]
  exact ofOrigin_of_lexeme hx

end

variable {settings : Settings} {p : Place} {source before : List Char} {r : Reading}

/-- Reading goes forward in the source, first to the token's origin and then to where it stops. -/
theorem Outcome.behind [WideConversion] (h : Outcome settings p r) (hp : p.Behind source before) :
    ∃ b, r.origin.Behind source (before ++ b) ∧ ∃ b', r.stop.Behind source (before ++ b ++ b') := by
  cases h with
  | @unclosed n hg =>
    refine ⟨_, hp.advance (Gap.cutsClean_of_scan hg), p.rest.drop n, ?_⟩
    show p.finish.Behind source (before ++ p.rest.take n ++ p.rest.drop n)
    rw [List.append_assoc, List.take_append_drop, ← hp.eq_append]
    exact hp.finish
  | eof hg _ =>
    have ho := hp.advance (Gap.cutsClean_of_scan hg)
    exact ⟨_, ho, [], by rw [List.append_nil]; exact ho⟩
  | lexeme hg hx =>
    have ho := hp.advance (Gap.cutsClean_of_scan hg)
    exact ⟨_, ho, _, ho.advance (Lexeme.cutsClean_of_scan hx)⟩
  | malformed hg _ hx =>
    have ho := hp.advance (Gap.cutsClean_of_scan hg)
    exact ⟨_, ho, _, ho.advance (Lexeme.cutsClean_of_scan hx)⟩

end Reading

/-! ## Calls on a session -/

namespace Session

section

variable [WideConversion]

/-- What a session reads when it needs its next token. -/
def reading (s : Session) : Reading :=
  .ofPlace s.settings s.place

/-- The session after a token could not be read. -/
def stuck (s : Session) : Session :=
  { s with place := s.reading.stop, lineBreak := s.reading.lineBreak }

/-- The session after the pending token was handed out and `t` was read behind it. -/
def handOut (s : Session) (t : Token) : Session :=
  { s with
    place := s.reading.stop, lineBreak := s.reading.lineBreak, pending := t, origin := s.reading.origin,
    last := some s.pending, count := s.count + 1 }

/-- What `lex` gives back and leaves behind. -/
inductive Lexed (s : Session) : Except Diagnostic Token → Session → Prop
  | atEnd {t : Token} : s.atEnd? = some t → Lexed s (.ok t) s
  | stuck {d : Diagnostic} : s.atEnd? = none → s.reading.result = .error d → Lexed s (.error d) s.stuck
  | handOut {t : Token} : s.atEnd? = none → s.reading.result = .ok t → Lexed s (.ok s.pending) (s.handOut t)

theorem lexed (s : Session) : Lexed s s.lex.1 s.lex.2 := by
  unfold lex
  split
  · next h => exact .atEnd h
  · next h =>
    dsimp only
    split
    · next hr => exact .stuck h hr
    · next hr => exact .handOut h hr

theorem lex_of_atEnd {s : Session} {t : Token} (h : s.atEnd? = some t) : s.lex = (.ok t, s) := by
  simp only [lex, h]

theorem lex_of_error {s : Session} {d : Diagnostic} (ha : s.atEnd? = none) (hr : s.reading.result = .error d) :
    s.lex = (.error d, s.stuck) := by
  rw [reading] at hr
  simp only [lex, ha, hr, stuck, reading]

theorem lex_of_ok {s : Session} {t : Token} (ha : s.atEnd? = none) (hr : s.reading.result = .ok t) :
    s.lex = (.ok s.pending, s.handOut t) := by
  rw [reading] at hr
  simp only [lex, ha, hr, handOut, reading]

end

/-- The session with the cursor `n` characters behind the origin of its pending token. -/
def toOrigin (s : Session) (n : Nat) : Session :=
  { s with place := s.origin.advance n }

/-- The regular expression literal of `n` characters at the origin of the pending token. -/
def regExp (s : Session) (n : Nat) : Token :=
  .ofPlace (.regExp (String.ofList (s.origin.rest.take n))) s.origin n

/-- What reading a pending slash again gives back and leaves behind. -/
inductive Rescanned (s : Session) : Except Diagnostic Token → Session → Prop
  | unexpected : s.pending.kind.isSlash = false → Rescanned s (.error (.unexpected s.pending)) s
  | unterminated {n : Nat} : s.pending.kind.isSlash = true →
      s.place.position.lineStart ≤ s.origin.offset → RegularExpression.scan s.origin.rest = .malformed n →
      Rescanned s (.error (.malformed (s.origin.advance n).location .unterminatedRegExp)) (s.toOrigin n)
  | literal {n : Nat} : s.pending.kind.isSlash = true →
      s.place.position.lineStart ≤ s.origin.offset → RegularExpression.scan s.origin.rest = .read () n →
      Rescanned s (.ok (s.regExp n)) { s.toOrigin n with pending := s.regExp n }

theorem rescanned {s s' : Session} {r : Except Diagnostic Token} (h : s.rescanRegExp? = some (r, s')) :
    Rescanned s r s' := by
  unfold rescanRegExp? at h
  split at h
  · next hs => cases h; exact .unexpected (by simpa using hs)
  · next hs =>
    have hs' : s.pending.kind.isSlash = true := by simpa using hs
    split at h
    · cases h
    · next hl =>
      split at h
      · next n hr => cases h; exact .unterminated hs' (by omega) hr
      · next n hr => cases h; exact .literal hs' (by omega) hr

end Session

end EcmaTokens
