/-
The values of number tokens. Every numeral is read as the nearest value, provided that wide integers are converted
to the nearest one. The text that a number is written with is read as that number.
-/
import EcmaTokens.Proofs.Lexeme.LongestNumeral
import EcmaTokens.Proofs.Number.Integer
import EcmaTokens.Proofs.Number.Text
import EcmaTokens.Proofs.Session.Sequence

namespace EcmaTokens

/-! ## Numerals and what they stand for -/

namespace Numeral.Form

open Binary64 (RoundsTo)

variable {form : Form} {text : List Char}

/-- The number that is written. -/
def value : Form → ℚ
  | hexadecimal digits => digitsValue 16 digits
  | legacyOctal digits => digitsValue 8 digits
  | decimal d => d.value

theorem Spelled.roundsTo [WideConversion] (hw : WideConversion.Rounds) (h : form.Spelled text) :
    RoundsTo form.value form.toBinary64 := by
  cases form with
  | hexadecimal digits => exact Binary64.roundsTo_ofNat hw _
  | legacyOctal digits => exact Binary64.roundsTo_ofNat hw _
  | decimal d => exact d.roundsTo h.digit

end Numeral.Form

open Numeral (Form)

namespace Reading

open Binary64 (RoundsTo)

/-- Where wide integers are converted to the nearest value, so is every integer, on either side of 64 bits. And every
number token is written as a numeral of one form; its value is the number that is written, rounded to the nearest
value with ties to even, and is infinity exactly from the middle between the largest finite value and the next power
of two on. -/
theorem number_rounds [WideConversion] (hw : WideConversion.Rounds) :
    (∀ n : Nat, RoundsTo n (.ofNat n)) ∧
      ∀ {settings : Settings} {p : Place} {t : Token}, (ofPlace settings p).result = .ok t →
        t.tokenClass = .number →
        ∃ (form : Form) (text : List Char) (x : Binary64), t.text = String.ofList text ∧ form.Spelled text ∧
          (∀ form' : Form, form'.Spelled text → form' = form) ∧ t.kind = .number x form.isLegacyOctal ∧
          RoundsTo form.value x ∧ (x = .infinity ↔ 2 ^ 1024 - 2 ^ 970 ≤ form.value) := by
  refine ⟨Binary64.roundsTo_ofNat hw, ?_⟩
  intro settings p t h hk
  generalize hr : ofPlace settings p = r at h
  have ho : Outcome settings p r := hr ▸ outcome settings p
  cases ho with
  | unclosed => cases h
  | malformed => cases h
  | eof => cases h; cases hk
  | @lexeme n m x hg hx =>
    cases h
    obtain ⟨v, rfl⟩ := Lexeme.numeral_of_tokenClass hk
    obtain ⟨hopens, hscan⟩ := Lexeme.numeral_of_scan hx
    obtain ⟨form, hs, rfl⟩ := Numeral.exists_spelled_of_scan hopens hscan
    have hround := hs.roundsTo hw
    exact ⟨form, _, _, rfl, hs, fun _ hs' => hs.unique hs', rfl, hround, hround.eq_infinity_iff⟩

/-- An integer of 129 bits above the midpoint of two values by its lowest bit. -/
theorem number_rounds_wide : @WideConversion.Rounds .exact ∧
    ∃ (t : Token) (form : Form) (text : List Char),
      (@ofPlace .exact {} (.start "0x100000000000008000000000000000001".toList)).result = .ok t ∧
      t.tokenClass = .number ∧ t.text = String.ofList text ∧ form.Spelled text ∧
      t.kind = .number ⟨0x47f0000000000001⟩ form.isLegacyOctal ∧ RoundsTo form.value ⟨0x47f0000000000001⟩ := by
  have h : ((@ofPlace .exact {} (.start "0x100000000000008000000000000000001".toList)).result.toOption.map
      fun t => (t.tokenClass, t.kind)) = some (.number, .number ⟨0x47f0000000000001⟩ false) := by decide +kernel
  obtain ⟨t, ht, h⟩ := Option.map_eq_some_iff.1 h
  obtain ⟨hk, hkind⟩ := Prod.mk.inj h
  have ht := ok_of_toOption ht
  obtain ⟨-, hnumber⟩ := @number_rounds .exact WideConversion.rounds_exact
  obtain ⟨form, text, x, htext, hs, -, hkind', hround, -⟩ := hnumber ht hk
  obtain ⟨rfl, -⟩ := Kind.number.inj (hkind.symm.trans hkind')
  exact ⟨WideConversion.rounds_exact, t, form, text, ht, hk, htext, hs, hkind', hround⟩

end Reading

/-! ## Numerals alone -/

/-- A text that is a lexeme as a whole is read as one token. -/
theorem readAll_of_lexeme [WideConversion] (settings : Settings) {p : Place} {x : Lexeme}
    (h : Lexeme.scan p.rest = .read x p.rest.length) :
    readAll settings p = .ok [.ofPlace (x.kind settings.strict) p p.rest.length] := by
  have hg : Gap.scan settings.htmlComments (p.offset == 0) p.rest = .read () 0 := by
    have h' : Lexeme.scan (p.rest ++ []) = .read x p.rest.length := by rwa [List.append_nil]
    have hnone : Gap.item? settings.htmlComments (p.offset == 0) (p.rest ++ []) = none :=
      Gap.item?_of_scan h' (.nil [])
    rw [List.append_nil] at hnone
    exact Gap.scan_of_none hnone
  have hread := Reading.ofPlace_of_lexeme hg (by rwa [List.drop_zero])
  rw [Place.advance_zero] at hread
  have hend : readAll settings (p.advance p.rest.length) = .ok [] :=
    readAll_at_end settings (by rw [Place.rest_advance, List.drop_length])
  have heof : (Token.ofPlace (x.kind settings.strict) p p.rest.length).isEof = false :=
    Reading.kind_not_eof settings.strict x
  rw [readAll_eq, Reading.followed, hread]
  simp only [Except.bind, heof, hend]
  rfl

/-- A text that is a numeral is the only token of a source. -/
theorem tokenize_of_spelled [WideConversion] {form : Form} {text : List Char} (h : form.Spelled text)
    (settings : Settings) :
    ∃ t, tokenize settings (String.ofList text) = .ok [t] ∧ t.text = String.ofList text ∧
      t.kind = .number form.toBinary64 form.isLegacyOctal := by
  have hscan : Lexeme.scan text = .read (.numeral ⟨form.toBinary64, form.isLegacyOctal⟩) text.length := by
    rw [Lexeme.scan_of_opensNumeral h.opens, h.scan_eq]
    rfl
  rw [tokenize_eq_readAll, String.toList_ofList, readAll_of_lexeme settings hscan]
  refine ⟨_, rfl, ?_, rfl⟩
  show String.ofList (text.take text.length) = _
  rw [List.take_length]

/-- The text of a finite number without a sign is read as that number, and as nothing else. -/
theorem tokenize_text [WideConversion] (settings : Settings) {x : Binary64} (hx : x.isNegative = false)
    (hf : x.IsFinite) :
    ∃ t, tokenize settings x.text = .ok [t] ∧ t.text = x.text ∧ t.kind = .number x false := by
  obtain ⟨d, hd, hval⟩ := x.text_spelled hx hf
  obtain ⟨t, ht, htext, hkind⟩ := tokenize_of_spelled hd settings
  rw [String.ofList_toList] at ht htext
  refine ⟨t, ht, htext, ?_⟩
  rw [hkind, ← hval]
  rfl

/-- The smallest positive value, which only an exponent can write down. -/
theorem tokenize_text_smallest :
    ∃ t, tokenize { strict := true } (⟨1⟩ : Binary64).text = .ok [t] ∧ t.text = "5e-324" ∧
      t.kind = .number ⟨1⟩ false := by
  have htext : (⟨1⟩ : Binary64).text = "5e-324" := by decide +kernel
  have hfinite : Binary64.IsFinite ⟨1⟩ := by
    unfold Binary64.IsFinite
    decide
  obtain ⟨t, ht, htext', hk⟩ := tokenize_text { strict := true } (x := ⟨1⟩) (by decide) hfinite
  exact ⟨t, ht, htext'.trans htext, hk⟩

end EcmaTokens
