/-
Tokens, read with a checked cursor: the gap, the location, and the lexeme that the first character opens. A punctuator
is recognised by its bytes, and where one opens there is one. Wherever the cursor stands the checks are passed, and the
token or the diagnostic is the one that is read at its place.
-/
import EcmaTokens.Proofs.Checked.Gap
import EcmaTokens.Proofs.Checked.Numeral
import EcmaTokens.Proofs.Checked.Quoted
import EcmaTokens.Proofs.Session.Outcome

namespace EcmaTokens

/-! ## Punctuators -/

namespace Punctuator

theorem isPlain_spelling (p : Punctuator) : isPlain p.spelling.toList = true := by
  cases p <;> decide

/-- The bytes of a text begin with the punctuator with which the text begins. -/
theorem longest?_byteChars (cs : List Char) : longest? (byteChars cs) = longest? cs := by
  have hprefix (p : Punctuator) : p.spelling.toList <+: byteChars cs ↔ p.spelling.toList <+: cs :=
    prefix_byteChars_iff fun c hc => (isPlain_iff.1 (isPlain_spelling p) c hc).1
  ext p
  simp only [longest?_eq_some_iff, hprefix]

end Punctuator

/-- The bytes behind the cursor, as characters. -/
def Cursor.bytesBehind (k : Cursor) : List Char :=
  ((utf8Bytes k.source).drop k.index).map Char.ofUInt8

namespace Checked

/-- Reads the punctuator that stands behind the cursor. -/
def punctuator : Checked Punctuator := do
  let p ← demand (Punctuator.longest? (← get).bytesBehind)
  advanceAscii p.width
  return p

section

variable [WideConversion]

/-- Reads the lexeme that the next character opens. -/
def lexeme (c : Char) : Checked Lexeme := do
  if Punctuator.isOpenedBy c then return .punctuator (← punctuator)
  else if opensWord c then return .word (← word)
  else if c == '.' && !(← peekSecond).any isDecimalDigit then return .punctuator (← punctuator)
  else if c == '.' || isDecimalDigit c then return .numeral (← numeral)
  else if c == '"' || c == '\'' then return .quoted (← quoted)
  else malformed .illegalToken

/-- The token from an offset to the cursor. -/
def tokenFrom (kind : Kind) (start : Nat) (location : Location) : Checked Token := do
  let text ← sliceFrom start
  return ⟨kind, ⟨start, ← index⟩, location, String.ofList text⟩

/-- Reads the token that begins at the cursor. -/
def tokenHere (strict : Bool) : Checked Token := do
  let start ← index
  let loc ← location
  match ← peek with
  | some c =>
    let x ← lexeme c
    tokenFrom (x.kind strict) start loc
  | none => return ⟨.eof, ⟨start, start⟩, loc, ""⟩

/-- Reads a token behind a gap. -/
def token (settings : Settings) : Checked Token := do
  gap settings.htmlComments ((← index) == 0)
  tokenHere settings.strict

end

section Lexemes

variable {source : List Char} {b : Bool} {p : Place}

theorem bytesBehind_at (hp : p.Within source) : (p.cursor source b).bytesBehind = byteChars p.rest := by
  obtain ⟨before, hs, ho⟩ := hp.text
  show ((utf8Bytes source).drop p.offset).map Char.ofUInt8 = _
  rw [hs, ho, drop_utf8Bytes, byteChars]

theorem punctuator_at (hp : p.Within source) {q : Punctuator} (h : Punctuator.longest? p.rest = some q) :
    punctuator (p.cursor source b) = some (.ok q, (p.advance q.width).cursor source b) := by
  obtain ⟨cs, hcs⟩ := Punctuator.spelling_prefix_of_longest? h
  have hskip := advanceAscii_at (b := b) hp hcs.symm (Punctuator.isPlain_spelling q)
  rw [Punctuator.length_spelling] at hskip
  rw [punctuator, bind_of_ok (get_apply _), bytesBehind_at hp, Punctuator.longest?_byteChars, h]
  exact bind_of_ok hskip

/-- Where a punctuator opens there is one, so the check is passed. -/
theorem punctuator_lexeme (hp : p.Within source) {c : Char} {cs : List Char} (h : p.rest = c :: cs)
    (hc : (Punctuator.ofChar? c).isSome = true) :
    (punctuator >>= fun q => pure (Lexeme.punctuator q)) (p.cursor source b) =
      (Lexeme.scanPunctuator p.rest).settle source b .illegalToken p := by
  obtain ⟨q, hq⟩ := Option.isSome_iff_exists.1 hc
  have hspelled : q.spelling.toList <+: p.rest := by
    rw [Punctuator.spelling_of_ofChar? hq, h]
    exact ⟨cs, rfl⟩
  obtain ⟨r, hr, -⟩ := Punctuator.exists_longest? hspelled
  rw [bind_of_ok (punctuator_at hp hr), Lexeme.scanPunctuator, hr]
  rfl

theorem not_isLineTerminator_of_opensWord {c : Char} (h : opensWord c = true) : isLineTerminator c = false := by
  by_cases hb : c = '\\'
  · rw [hb]
    rfl
  · exact not_isLineTerminator_of_part (isIdentifierPart_of_start (isIdentifierStart_of_opensWord h hb))

/-- The first character decides what is read, and each of the readers passes where it is asked. -/
theorem lexeme_at [WideConversion] (hp : p.Within source) {c : Char} {cs : List Char} (h : p.rest = c :: cs) :
    lexeme c (p.cursor source b) = (Lexeme.scan p.rest).settle source b .illegalToken p := by
  have hdot : c = '.' → (Punctuator.ofChar? c).isSome = true := by
    rintro rfl
    rfl
  have hsecond : p.rest.tail.head? = cs.head? := by rw [h]; rfl
  rw [lexeme]
  by_cases hpunct : Punctuator.isOpenedBy c = true
  · have hc := ((Bool.and_eq_true _ _).mp hpunct).2
    rw [if_pos hpunct, punctuator_lexeme hp h hc, h, Lexeme.scan, if_pos hpunct]
  by_cases hword : opensWord c = true
  · rw [if_neg hpunct, if_pos hword, bind_settle (word_at hp h (not_isLineTerminator_of_opensWord hword)), h,
      Lexeme.scan, if_neg hpunct, if_pos hword]
  rw [if_neg hpunct, if_neg hword, bind_of_ok (peekSecond_at hp), hsecond]
  by_cases hpoint : (c == '.' && !cs.head?.any isDecimalDigit) = true
  · have hc := hdot (by simpa using ((Bool.and_eq_true _ _).mp hpoint).1)
    rw [if_pos hpoint, punctuator_lexeme hp h hc, h, Lexeme.scan, if_neg hpunct, if_neg hword, if_pos hpoint]
  by_cases hnumeral : (c == '.' || isDecimalDigit c) = true
  · have hopens : Numeral.opensNumeral p.rest = true := by
      rw [h]
      by_cases hc : isDecimalDigit c = true
      · simp [Numeral.opensNumeral, hc]
      · obtain rfl : c = '.' := by simpa [hc] using hnumeral
        simpa [Numeral.opensNumeral, hc] using hpoint
    rw [if_neg hpoint, if_pos hnumeral, bind_settle (numeral_at hp hopens), Lexeme.scan_of_opensNumeral hopens]
  by_cases hquote : (c == '"' || c == '\'') = true
  · rw [if_neg hpoint, if_neg hnumeral, if_pos hquote, bind_settle (quoted_at hp h hquote), h, Lexeme.scan,
      if_neg hpunct, if_neg hword, if_neg hpoint, if_neg hnumeral, if_pos hquote]
  rw [if_neg hpoint, if_neg hnumeral, if_neg hquote, h, Lexeme.scan, if_neg hpunct, if_neg hword, if_neg hpoint,
    if_neg hnumeral, if_neg hquote]
  exact malformed_at hp

end Lexemes

/-! ## Tokens -/

/-- What comes of reading a token. -/
def settleReading (source : List Char) (r : Reading) : Option (Except Diagnostic Token × Cursor) :=
  some (r.result, r.stop.cursor source r.lineBreak)

section Tokens

variable {source : List Char} {b : Bool} {p : Place}

theorem tokenFrom_at (hp : p.Within source) (kind : Kind) (n : Nat) :
    tokenFrom kind p.offset p.location ((p.advance n).cursor source b) =
      some (.ok (.ofPlace kind p n), (p.advance n).cursor source b) :=
  bind_of_ok (sliceFrom_at hp n)

theorem tokenHere_at [WideConversion] (hp : p.Within source) (strict : Bool) :
    tokenHere strict (p.cursor source b) = settleReading source (Reading.ofOrigin strict b p) := by
  rw [tokenHere]
  refine (bind_of_ok (index_apply _)).trans ?_
  rw [bind_of_ok (location_at hp), bind_of_ok (peek_at hp)]
  cases hr : p.rest with
  | nil =>
    have heof : Reading.ofOrigin strict b p = ⟨.ok (.ofPlace .eof p 0), p, p, b⟩ := by
      rw [Reading.ofOrigin, hr]
      rfl
    rw [heof, Token.ofPlace, Place.advance_zero, hr]
    rfl
  | cons c cs =>
    have hlexeme := lexeme_at (b := b) hp hr
    cases hx : Lexeme.scan p.rest with
    | read x n =>
      rw [hx] at hlexeme
      rw [Reading.ofOrigin_of_lexeme hx]
      exact (bind_of_ok hlexeme).trans (tokenFrom_at hp _ n)
    | malformed n =>
      rw [hx] at hlexeme
      rw [Reading.ofOrigin_of_malformed (by simp [hr]) hx]
      exact bind_of_error hlexeme

/-- The token, or the diagnostic, is the one that is read at the place, and the cursor stops where reading it stops. -/
theorem token_at [WideConversion] (hp : p.Within source) (settings : Settings) :
    token settings (p.cursor source false) = settleReading source (Reading.ofPlace settings p) := by
  have hgap : gap settings.htmlComments (p.offset == 0) (p.cursor source false) = _ :=
    gap_at hp ⟨p.offset == 0, false⟩
  rw [token]
  refine (bind_of_ok (index_apply _)).trans ?_
  rw [Reading.ofPlace]
  obtain ⟨⟨_ | n, b⟩, hskip⟩ : ∃ r, Gap.skip settings.htmlComments ⟨p.offset == 0, false⟩ p.rest = r := ⟨_, rfl⟩
  all_goals rw [hskip] at hgap ⊢
  · exact (bind_of_ok hgap).trans (tokenHere_at (hp.advance _) _)
  · exact bind_of_error hgap

end Tokens

end Checked

end EcmaTokens
