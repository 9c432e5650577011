/-
Sessions. A session holds one token ahead of its user: `lex` hands that token out and reads the one
behind it. After the token at the end of the source has been handed out, nothing changes any more.
A token that cannot be read is reported, and the pending token stays. Whether a slash divides or
begins a regular expression only the user knows, who can have a pending slash read again.
-/
import EcmaTokens.Lexeme.RegularExpression
import EcmaTokens.Session.Reading

namespace EcmaTokens

structure Session where
  settings : Settings
  /-- How far the source has been read. -/
  place : Place
  /-- The token that is handed out next. -/
  pending : Token
  /-- Where the pending token begins. -/
  origin : Place
  /-- A line terminator stands in front of the pending token. -/
  lineBreak : Bool
  /-- The token handed out last. -/
  last : Option Token
  /-- The number of tokens handed out. -/
  count : Nat
  /-- The sequence of tokens has come to its end. -/
  finished : Bool

namespace Session

/-! ## Reading tokens -/

variable [WideConversion]

/-- Begins a session and reads its first token. -/
def start (settings : Settings) (source : String) : Except Diagnostic Session :=
  let r := Reading.ofPlace settings (.start source.toList)
  r.result.map fun t =>
    { settings, place := r.stop, pending := t, origin := r.origin, lineBreak := r.lineBreak,
      last := none, count := 0, finished := false }

/-- The token at the end of the source, once it has been handed out. -/
def atEnd? (s : Session) : Option Token :=
  s.last.filter Token.isEof

/-- Hands out the pending token and reads the one behind it. -/
def lex (s : Session) : Except Diagnostic Token × Session :=
  match s.atEnd? with
  | some t => (.ok t, s)
  | none =>
    let r := Reading.ofPlace s.settings s.place
    let s := { s with place := r.stop, lineBreak := r.lineBreak }
    match r.result with
    | .error d => (.error d, s)
    | .ok t =>
      (.ok s.pending,
        { s with pending := t, origin := r.origin, last := some s.pending, count := s.count + 1 })

/-- The next token of the sequence, which ends before the end of the source and behind the first
error. -/
def next (s : Session) : Option (Except Diagnostic Token) × Session :=
  if s.finished then (none, s)
  else match s.lex with
    | (.error d, s) => (some (.error d), { s with finished := true })
    | (.ok t, s) => if t.isEof then (none, { s with finished := true }) else (some (.ok t), s)

/-- Reads the pending slash again as the beginning of a regular expression, which becomes the
pending token. Another token is not expected here, and nothing changes then. `none` if a token that
could not be read has already taken the session beyond the line of the slash. -/
def rescanRegExp? (s : Session) : Option (Except Diagnostic Token × Session) :=
  if !s.pending.kind.isSlash then some (.error (.unexpected s.pending), s)
  else if s.origin.offset < s.place.position.lineStart then none
  else match RegularExpression.scan s.origin.rest with
    | .malformed n =>
      let stop := s.origin.advance n
      some (.error (.malformed stop.location .unterminatedRegExp), { s with place := stop })
    | .read () n =>
      let t := Token.ofPlace (.regExp (String.ofList (s.origin.rest.take n))) s.origin n
      some (.ok t, { s with place := s.origin.advance n, pending := t })

/-! ## The state -/

/-- Sets strict mode for the tokens read from now on. -/
def setStrict (s : Session) (strict : Bool) : Session :=
  { s with settings := { s.settings with strict } }

def isStrict (s : Session) : Bool :=
  s.settings.strict

/-- The pending token is the end of the source. -/
def isAtEof (s : Session) : Bool :=
  s.pending.isEof

/-- The diagnostic for malformed text where the session has read to. -/
def diagnostic (s : Session) (template : String) (arg : Option String) : Diagnostic :=
  .atLocation .illegalLexeme s.place.location template arg

end Session

end EcmaTokens
