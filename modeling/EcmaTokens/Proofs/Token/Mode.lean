/-
What strict mode decides: the kind of a word, and only if the word is one of those reserved in strict
mode. A token read in one mode determines the token read in the other, which agrees with it in all but
the kind; so the value does not depend on the mode, a keyword being spelled like the identifier in its
place.
-/
import EcmaTokens.Diagnostic.Basic
import EcmaTokens.Proofs.Lexeme.Basic
import EcmaTokens.Session.Reading

namespace EcmaTokens

/-! ## Words -/

/-- Only the words reserved in strict mode are resolved differently in it. -/
theorem Keyword.ofWord?_eq {w : String} (h : ∀ s : StrictWord, s.spelling ≠ w) (m m' : Bool) :
    ofWord? m w = ofWord? m' w := by
  -- the keywords that only one of the modes has are spelled like strict words
  have shared : ∀ m, ofWord? m w =
      (plain ++ ReservedWord.all.map Keyword.reserved).find? fun k => k.spelling == w := by
    intro m
    have hnone : (if m then StrictWord.all.map strictReserved else [.«let», .yield]).find?
        (fun k => k.spelling == w) = none := by
      rw [List.find?_eq_none]
      intro k hk
      obtain ⟨s, hs⟩ : ∃ s : StrictWord, k.spelling = s.spelling := by
        cases m with
        | true =>
          obtain ⟨s, -, rfl⟩ := List.mem_map.1 hk
          exact ⟨s, rfl⟩
        | false =>
          simp only [Bool.false_eq_true, if_false, List.mem_cons, List.not_mem_nil, or_false] at hk
          rcases hk with rfl | rfl
          · exact ⟨.«let», rfl⟩
          · exact ⟨.yield, rfl⟩
      simpa [hs] using h s
    rw [ofWord?_eq_find?, ofMode, List.find?_append, hnone, Option.or_none]
  rw [shared m, shared m']

theorem Kind.ofWord_eq {w : String} (h : ∀ s : StrictWord, s.spelling ≠ w) (m m' : Bool) :
    ofWord m w = ofWord m' w := by
  rw [ofWord, ofWord, Keyword.ofWord?_eq h m m']

namespace Kind

/-- The kind in some mode of a word that is reserved in strict mode. -/
def IsStrictWord (k : Kind) : Prop :=
  ∃ (w : StrictWord) (m : Bool), k = .ofWord m w.spelling

theorem ofWord_cases (m : Bool) (w : String) :
    (∃ k, ofWord m w = .keyword k ∧ k.spelling = w) ∨ (ofWord m w = .null ∧ w = "null") ∨
      (∃ b, ofWord m w = .boolean b ∧ w = booleanText b) ∨ ofWord m w = .identifier w := by
  rw [ofWord_eq_lookup]
  split
  · next k hk =>
    rw [Keyword.ofWord?_eq_find?] at hk
    exact .inl ⟨k, rfl, by simpa using List.find?_some hk⟩
  · split
    · next hw => exact .inr (.inl ⟨rfl, by simpa using hw⟩)
    · split
      · next hw => exact .inr (.inr (.inl ⟨true, rfl, by simpa [booleanText] using hw⟩))
      · split
        · next hw => exact .inr (.inr (.inl ⟨false, rfl, by simpa [booleanText] using hw⟩))
        · exact .inr (.inr (.inr rfl))

/-- A keyword is spelled like the identifier in its place. -/
theorem value_ofWord (m : Bool) (w : String) : (ofWord m w).value = w := by
  rcases ofWord_cases m w with ⟨k, h, hk⟩ | ⟨h, rfl⟩ | ⟨b, h, rfl⟩ | h <;> rw [h]
  · exact hk
  · rfl
  · rfl
  · rfl

theorem isLegacyOctal_ofWord (m : Bool) (w : String) : (ofWord m w).isLegacyOctal = false := by
  rcases ofWord_cases m w with ⟨k, h, -⟩ | ⟨h, -⟩ | ⟨b, h, -⟩ | h <;> rw [h] <;> rfl

/-! ## The kind in another mode -/

/-- The kind in a mode of what has the kind `k` in some mode. -/
def inMode (m : Bool) : Kind → Kind
  | .identifier name => .ofWord m name
  | .keyword k => .ofWord m k.spelling
  | k => k

theorem inMode_ofWord (m m' : Bool) (w : String) : (ofWord m w).inMode m' = ofWord m' w := by
  rcases ofWord_cases m w with ⟨k, h, rfl⟩ | ⟨h, rfl⟩ | ⟨b, h, rfl⟩ | h <;> rw [h]
  · rfl
  · cases m' <;> rfl
  · cases m' <;> cases b <;> rfl
  · rfl

theorem inMode_inMode (m m' : Bool) (k : Kind) : (k.inMode m).inMode m' = k.inMode m' := by
  cases k <;> first | exact inMode_ofWord .. | rfl

theorem value_inMode (m : Bool) (k : Kind) : (k.inMode m).value = k.value := by
  cases k <;> first | exact value_ofWord .. | rfl

theorem isEof_inMode (m : Bool) (k : Kind) : (k.inMode m).isEof = k.isEof := by
  cases k <;> first | exact Reading.ofWord_not_eof .. | rfl

theorem isSlash_inMode (m : Bool) (k : Kind) : (k.inMode m).isSlash = k.isSlash := by
  cases k <;> first | exact Lexeme.isSlash_ofWord .. | rfl

theorem isLegacyOctal_inMode (m : Bool) (k : Kind) : (k.inMode m).isLegacyOctal = k.isLegacyOctal := by
  cases k <;> first | exact isLegacyOctal_ofWord .. | rfl

/-- What is read in one mode is the same in the other, unless it is a word reserved in strict mode. -/
theorem inMode_cases {m : Bool} {k : Kind} (h : k.inMode m = k) (m' : Bool) :
    k = k.inMode m' ∨ ∃ w : StrictWord, k = .ofWord m w.spelling ∧ k.inMode m' = .ofWord m' w.spelling := by
  have word : ∀ {w : String}, k = .ofWord m w →
      k = k.inMode m' ∨ ∃ w : StrictWord, k = .ofWord m w.spelling ∧ k.inMode m' = .ofWord m' w.spelling := by
    rintro w rfl
    rw [inMode_ofWord]
    by_cases hw : ∀ s : StrictWord, s.spelling ≠ w
    · exact .inl (ofWord_eq hw m m')
    · obtain ⟨s, hs⟩ := not_forall.1 hw
      obtain rfl := not_not.1 hs
      exact .inr ⟨s, rfl, rfl⟩
  cases k with
  | identifier => exact word h.symm
  | keyword => exact word h.symm
  | _ => exact .inl rfl

end Kind

theorem Lexeme.kind_inMode (m m' : Bool) (x : Lexeme) : (x.kind m).inMode m' = x.kind m' := by
  cases x with
  | word w => exact Kind.inMode_ofWord ..
  | _ => rfl

/-! ## Tokens -/

namespace Token

/-- The token in a mode, of what is read as `t` in some mode. -/
def inMode (m : Bool) (t : Token) : Token :=
  { t with kind := t.kind.inMode m }

theorem inMode_inMode (m m' : Bool) (t : Token) : (t.inMode m).inMode m' = t.inMode m' := by
  simp only [inMode, Kind.inMode_inMode]

theorem inMode_of_isEof {t : Token} (h : t.isEof = true) (m : Bool) : t.inMode m = t := by
  rcases t with ⟨k, _⟩
  cases k <;> first | rfl | cases h

theorem isEof_inMode (m : Bool) (t : Token) : (t.inMode m).isEof = t.isEof :=
  Kind.isEof_inMode m t.kind

/-- The same text read as tokens, which differ at most in the kind of a word reserved in strict mode. -/
structure Alike (t t' : Token) : Prop where
  span : t.span = t'.span
  location : t.location = t'.location
  text : t.text = t'.text
  value : t.value = t'.value
  legacyOctal : t.isLegacyOctal = t'.isLegacyOctal
  kind : t.kind = t'.kind ∨
    ∃ (w : StrictWord) (m m' : Bool), t.kind = .ofWord m w.spelling ∧ t'.kind = .ofWord m' w.spelling

theorem Alike.refl (t : Token) : t.Alike t :=
  ⟨rfl, rfl, rfl, rfl, rfl, .inl rfl⟩

/-- A token read in one mode and the same one in another. -/
theorem Alike.inMode {m : Bool} {t : Token} (h : t.inMode m = t) (m' : Bool) : t.Alike (t.inMode m') := by
  refine ⟨rfl, rfl, rfl, (Kind.value_inMode m' t.kind).symm, (Kind.isLegacyOctal_inMode m' t.kind).symm, ?_⟩
  rcases Kind.inMode_cases (congrArg Token.kind h) m' with hk | ⟨w, hk, hk'⟩
  · exact .inl hk
  · exact .inr ⟨w, m, m', hk, hk'⟩

end Token

/-! ## Unexpected tokens -/

theorem Diagnostic.kind_unexpected (t : Token) : (unexpected t).kind = .unexpectedToken :=
  rfl

/-- Where a token was not expected depends on its location alone. -/
theorem Diagnostic.unexpected_inMode (m : Bool) (t : Token) :
    unexpected (t.inMode m) = { unexpected t with description := (unexpected (t.inMode m)).description } :=
  rfl

end EcmaTokens
