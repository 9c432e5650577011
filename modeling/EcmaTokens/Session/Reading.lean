/-
Reading one token. From a place the gap is skipped and the lexeme behind it is read; at the end of
the source stands a token of its own, without text. Where the source is malformed the place stays
where the fault was found, except that an unclosed comment is passed over to the end of the
source and reported where it opens.
-/
import EcmaTokens.Diagnostic.Basic
import EcmaTokens.Lexeme.Gap
import EcmaTokens.Lexeme.Progress
import EcmaTokens.Session.Settings
import EcmaTokens.Source.Place

namespace EcmaTokens

/-- The token of the next `n` characters. -/
def Token.ofPlace (kind : Kind) (p : Place) (n : Nat) : Token :=
  ⟨kind, ⟨p.offset, (p.advance n).offset⟩, p.location, String.ofList (p.rest.take n)⟩

/-- What came of reading a token from a place. -/
structure Reading where
  result : Except Diagnostic Token
  /-- Where the token begins, behind the gap. -/
  origin : Place
  /-- Where reading came to its end. -/
  stop : Place
  /-- The gap contains a line terminator. -/
  lineBreak : Bool

namespace Reading

/-- Reads the token that begins at a place, behind a gap. -/
def ofOrigin [WideConversion] (strict lineBreak : Bool) (origin : Place) : Reading :=
  if origin.rest.isEmpty then ⟨.ok (.ofPlace .eof origin 0), origin, origin, lineBreak⟩
  else match Lexeme.scan origin.rest with
    | .read x n => ⟨.ok (.ofPlace (x.kind strict) origin n), origin, origin.advance n, lineBreak⟩
    | .malformed n =>
      let stop := origin.advance n
      ⟨.error (.malformed stop.location .illegalToken), origin, stop, lineBreak⟩

/-- Skips the gap at a place and reads the token behind it. -/
def ofPlace [WideConversion] (settings : Settings) (p : Place) : Reading :=
  match Gap.skip settings.htmlComments ⟨p.offset == 0, false⟩ p.rest with
  | (.read () n, lineBreak) => ofOrigin settings.strict lineBreak (p.advance n)
  | (.malformed n, lineBreak) =>
    let opening := p.advance n
    ⟨.error (.malformed opening.location .illegalToken), opening, p.finish, lineBreak⟩

/-! ## Progress -/

theorem ofWord_not_eof (strict : Bool) (w : String) : (Kind.ofWord strict w).isEof = false := by
  rw [Kind.ofWord_eq_lookup]
  split
  · rfl
  · split <;> (try split) <;> (try split) <;> rfl

theorem kind_not_eof (strict : Bool) (x : Lexeme) : (x.kind strict).isEof = false := by
  cases x with
  | word w => exact ofWord_not_eof _ _
  | numeral x => rfl
  | quoted x => rfl
  | punctuator p => rfl

variable [WideConversion]

theorem ofOrigin_progress {strict lineBreak : Bool} {p : Place} {t : Token}
    (h : (ofOrigin strict lineBreak p).result = .ok t) :
    (ofOrigin strict lineBreak p).stop.rest.length + (if t.isEof then 0 else 1) ≤
      p.rest.length := by
  unfold ofOrigin at h ⊢
  split at h
  · next he =>
    rw [if_pos he]
    cases h
    simp [Token.isEof, Token.ofPlace, Kind.isEof]
  · next he =>
    rw [if_neg he]
    split at h
    · next x n hs =>
      cases h
      have := Lexeme.scan_pos hs
      simp only [Place.rest_advance, List.length_drop]
      split <;> omega
    · cases h

/-- A token takes at least one character, unless it is the end of the source. -/
theorem ofPlace_progress {settings : Settings} {p : Place} {t : Token}
    (h : (ofPlace settings p).result = .ok t) :
    (ofPlace settings p).stop.rest.length + (if t.isEof then 0 else 1) ≤ p.rest.length := by
  unfold ofPlace at h ⊢
  split at h
  · have := ofOrigin_progress h
    simp only [Place.rest_advance, List.length_drop] at this ⊢
    omega
  · cases h

end Reading

end EcmaTokens
