/-
Punctuators: which one is read where, told from the catalogue alone. Of all punctuators that are spelled at the
front of a text it is the longest, so no operator is read as the front of itself.
-/
import EcmaTokens.Proofs.Session.Outcome

namespace EcmaTokens

namespace Punctuator

/-- Of the punctuators in the catalogue it is the longest one spelled at the front of the text. -/
structure LongestAt (cs : List Char) (p : Punctuator) : Prop where
  listed : p ∈ all
  spelled : p.spelling.toList <+: cs
  longest : ∀ q ∈ all, q ≠ p → q.spelling.toList <+: cs → q.spelling.length < p.spelling.length

variable {cs : List Char} {p : Punctuator}

theorem longestAt_iff : p.LongestAt cs ↔ longest? cs = some p := by
  rw [longest?_eq_some_iff]
  constructor
  · intro h
    refine ⟨h.spelled, fun q hq => ?_⟩
    by_cases hqp : q = p
    · exact .inl hqp
    · exact .inr (h.longest q (mem_all q) hqp hq)
  · rintro ⟨hp, hlong⟩
    exact ⟨mem_all p, hp, fun q _ hne hq => (hlong q hq).resolve_left hne⟩

theorem longest?_eq_none_iff : longest? cs = none ↔ ∀ q ∈ all, ¬ q.spelling.toList <+: cs := by
  constructor
  · intro h q _ hq
    obtain ⟨p, hp, -⟩ := exists_longest? hq
    rw [h] at hp
    cases hp
  · intro h
    by_contra hne
    obtain ⟨p, hp⟩ := Option.ne_none_iff_exists'.1 hne
    exact h p (mem_all p) (spelling_prefix_of_longest? hp)

/-- A spelling has as many bytes as characters. -/
theorem utf8Length_spelling (p : Punctuator) : utf8Length p.spelling.toList = p.spelling.length := by
  cases p <;> rfl

/-- What begins a punctuator is one by itself. -/
theorem isSome_ofChar?_of_prefix {c : Char} (h : p.spelling.toList <+: c :: cs) : (ofChar? c).isSome = true := by
  have hall : (all.all fun p => p.spelling.toList.head?.any fun c => (ofChar? c).isSome) = true := by decide +kernel
  have hp := List.all_eq_true.1 hall p (mem_all p)
  obtain ⟨d, hd, ho⟩ := (Option.any_eq_true _ _).1 hp
  obtain ⟨ds, hds⟩ := List.head?_eq_some_iff.1 hd
  rw [hds] at h
  obtain rfl : d = c := (List.cons_prefix_cons.1 h).1
  exact ho

end Punctuator

namespace Lexeme

variable {cs : List Char} {p : Punctuator}

/-- A word is no punctuator. -/
theorem ofWord_ne_punctuator (strict : Bool) (w : String) : Kind.ofWord strict w ≠ .punctuator p := by
  rw [Kind.ofWord_eq_lookup]
  split
  · exact Kind.noConfusion
  · split <;> (try split) <;> (try split) <;> exact Kind.noConfusion

theorem punctuator_of_kind {strict : Bool} {x : Lexeme} (h : x.kind strict = .punctuator p) : x = .punctuator p := by
  cases x with
  | word w => exact absurd h (ofWord_ne_punctuator _ _)
  | numeral => cases h
  | quoted => cases h
  | punctuator q => cases h; rfl

/-- Where a punctuator is spelled and no numeral begins, a punctuator is read. -/
theorem scan_of_longest? [WideConversion] (h : Punctuator.longest? cs = some p) (hn : Numeral.opensNumeral cs = false) :
    scan cs = .read (.punctuator p) p.width := by
  have hp : scanPunctuator cs = .read (.punctuator p) p.width := by rw [scanPunctuator, h]
  cases cs with
  | nil => cases h
  | cons c cs =>
    have hc := Punctuator.isSome_ofChar?_of_prefix (Punctuator.spelling_prefix_of_longest? h)
    by_cases hd : c = '.'
    · subst hd
      have hdigit : cs.head?.any isDecimalDigit = false := by
        simpa [Numeral.opensNumeral, show isDecimalDigit '.' = false from rfl] using hn
      rw [scan, if_neg (by decide), if_neg (by decide), if_pos (by rw [hdigit]; rfl), hp]
    · rw [scan, if_pos (by simp [Punctuator.isOpenedBy, hd, hc]), hp]

end Lexeme

namespace Reading

open Punctuator (LongestAt longest?)
open Numeral (opensNumeral)

/-- Punctuators are read by the longest spelling. What is found at the front of a text is the longest punctuator of
the catalogue that is spelled there, and nothing is found exactly if none is; the recogniser goes over its spelling.
A punctuator token at any place is the longest one spelled there, its text is the spelling, and reading stops as
many bytes further on; and one is read wherever one is spelled, unless a numeral begins with its point. -/
theorem punctuator_longest [WideConversion] (cs : List Char) :
    (∀ p, longest? cs = some p ↔ LongestAt cs p) ∧
    (longest? cs = none ↔ ∀ q ∈ Punctuator.all, ¬ q.spelling.toList <+: cs) ∧
    (∀ x n, Lexeme.scanPunctuator cs = .read x n ↔
      ∃ p, LongestAt cs p ∧ x = .punctuator p ∧ n = p.spelling.length) ∧
    ∀ (o : Place) (strict lineBreak : Bool), o.rest = cs →
      (∀ t p, (ofOrigin strict lineBreak o).result = .ok t → t.kind = .punctuator p →
        LongestAt cs p ∧ t.text = p.spelling ∧
        (ofOrigin strict lineBreak o).stop = o.advance p.spelling.length ∧
        t.span = ⟨o.offset, o.offset + p.spelling.length⟩) ∧
      (∀ p, LongestAt cs p → opensNumeral cs = false →
        ∃ t, (ofOrigin strict lineBreak o).result = .ok t ∧ t.kind = .punctuator p) := by
  refine ⟨fun p => Punctuator.longestAt_iff.symm, Punctuator.longest?_eq_none_iff, fun x n => ?_, ?_⟩
  · constructor
    · intro h
      obtain ⟨p, hx, hn, hp⟩ := Lexeme.longest?_of_scanPunctuator h
      exact ⟨p, Punctuator.longestAt_iff.2 hp, hx, hn⟩
    · rintro ⟨p, hp, rfl, rfl⟩
      rw [Lexeme.scanPunctuator, Punctuator.longestAt_iff.1 hp]
      rfl
  · rintro o strict lineBreak rfl
    constructor
    · intro t p ht hk
      -- of the ways to read a token only a lexeme gives a punctuator
      cases hx : Lexeme.scan o.rest with
      | malformed n =>
        by_cases hne : o.rest = []
        · rw [ofOrigin, if_pos (by simp [hne])] at ht
          cases ht
          cases hk
        · rw [ofOrigin_of_malformed hne hx] at ht
          cases ht
      | read x n =>
        rw [ofOrigin_of_lexeme hx] at ht ⊢
        cases ht
        obtain rfl := Lexeme.punctuator_of_kind hk
        obtain ⟨rfl, hp⟩ := Lexeme.longest?_of_scan hx
        have htake := Punctuator.take_width_of_longest? hp
        refine ⟨Punctuator.longestAt_iff.2 hp, ?_, rfl, ?_⟩
        · show String.ofList (o.rest.take p.width) = _
          rw [htake, String.ofList_toList]
        · show (⟨o.offset, (o.advance p.width).offset⟩ : Span) = _
          rw [Place.offset_advance, htake, Punctuator.utf8Length_spelling]
    · intro p hp hn
      rw [ofOrigin_of_lexeme (Lexeme.scan_of_longest? (Punctuator.longestAt_iff.1 hp) hn)]
      exact ⟨_, rfl, rfl⟩

/-- Of four closing angle brackets and an equality sign the first three make a shift, and no assignment. -/
theorem punctuator_longest_shift :
    ∃ t, LongestAt ">>>>=".toList .unsignedShiftRight ∧
      (ofOrigin false false (.start ">>>>=".toList)).result = .ok t ∧ t.kind = .punctuator .unsignedShiftRight ∧
      t.text = ">>>" ∧ t.span = ⟨0, 3⟩ := by
  obtain ⟨hlong, -, -, hread⟩ := punctuator_longest ">>>>=".toList
  have hp : LongestAt ">>>>=".toList .unsignedShiftRight := (hlong _).1 (by decide)
  obtain ⟨hok, hex⟩ := hread (.start ">>>>=".toList) false false rfl
  obtain ⟨t, ht, hk⟩ := hex _ hp (by decide)
  obtain ⟨-, htext, -, hspan⟩ := hok t _ ht hk
  exact ⟨t, hp, ht, hk, htext, hspan⟩

end Reading

end EcmaTokens
