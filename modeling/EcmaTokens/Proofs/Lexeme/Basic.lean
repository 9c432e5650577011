/-
Lexemes: what the recognisers have in common. No lexeme, read or malformed, stops between a carriage
return and its line feed; a slash is a punctuator at the front of the text, a string begins with its quote
and a numeral with a digit or a point; and a lexeme depends on its own text and on the next character alone.
-/
import EcmaTokens.Proofs.Lexeme.Numeral
import EcmaTokens.Proofs.Lexeme.Quoted
import EcmaTokens.Proofs.Lexeme.Word
import EcmaTokens.Proofs.Token.Munch

namespace EcmaTokens

namespace Lexeme

/-! ## Where a lexeme stops -/

theorem cutsClean_scanPunctuator (cs : List Char) : CutsClean cs (scanPunctuator cs).width := by
  unfold scanPunctuator
  split
  · next p h =>
    apply CutsClean.of_lineFree
    rw [Scan.width, Punctuator.take_width_of_longest? h]
    exact p.spelling_lineFree
  · exact .zero cs

/-- A lexeme, or what was read of a malformed one, leaves no line feed behind its carriage return. -/
theorem cutsClean_scan [WideConversion] (cs : List Char) : CutsClean cs (scan cs).width := by
  unfold scan
  split
  · exact .zero _
  · next c cs =>
    split
    · exact cutsClean_scanPunctuator _
    · split
      · next hw => rw [Scan.width_map]; exact .of_lineFree (Word.hasLineTerminator_take_scan hw _)
      · split
        · exact cutsClean_scanPunctuator _
        · split
          · rw [Scan.width_map]; exact .of_lineFree (Numeral.hasLineTerminator_take_scan _)
          · split
            · next hq =>
              have hq' : isLineTerminator c = false := by
                simp only [Bool.or_eq_true, beq_iff_eq] at hq
                rcases hq with rfl | rfl <;> decide
              rw [Scan.width_map, Quoted.scan, Scan.width_after, Scan.width_map]
              exact (Quoted.cutsClean_scanPieces c cs hq').cons (by rintro rfl; cases hq')
            · exact .zero _

theorem cutsClean_of_scan [WideConversion] {cs : List Char} {r : Scan Lexeme} (h : scan cs = r) :
    CutsClean cs r.width :=
  h ▸ cutsClean_scan cs

/-! ## Punctuators and slashes -/

theorem longest?_of_scanPunctuator {cs : List Char} {x : Lexeme} {n : Nat} (h : scanPunctuator cs = .read x n) :
    ∃ p, x = .punctuator p ∧ n = p.width ∧ Punctuator.longest? cs = some p := by
  unfold scanPunctuator at h
  split at h
  · next p hp => cases h; exact ⟨p, rfl, rfl, hp⟩
  · cases h

theorem longest?_of_scan [WideConversion] {cs : List Char} {p : Punctuator} {n : Nat}
    (h : scan cs = .read (.punctuator p) n) : n = p.width ∧ Punctuator.longest? cs = some p := by
  -- the recognisers of words, numerals and strings read no punctuator
  have other : ∀ {α : Type} {f : α → Lexeme} {s : Scan α}, (∀ a, f a ≠ .punctuator p) →
      s.map f = .read (.punctuator p) n → False := by
    intro α f s hf hs
    cases s with
    | read a m => exact hf a (Scan.read.inj hs).1
    | malformed m => cases hs
  have punctuator : ∀ {cs : List Char}, scanPunctuator cs = .read (.punctuator p) n →
      n = p.width ∧ Punctuator.longest? cs = some p := by
    intro cs hs
    obtain ⟨q, hq, hn, hl⟩ := longest?_of_scanPunctuator hs
    cases hq
    exact ⟨hn, hl⟩
  unfold scan at h
  split at h
  · cases h
  · split at h
    · exact punctuator h
    · split at h
      · exact (other (fun a => Lexeme.noConfusion) h).elim
      · split at h
        · exact punctuator h
        · split at h
          · exact (other (fun a => Lexeme.noConfusion) h).elim
          · split at h
            · exact (other (fun a => Lexeme.noConfusion) h).elim
            · cases h

theorem isSlash_ofWord (strict : Bool) (w : String) : (Kind.ofWord strict w).isSlash = false := by
  rw [Kind.ofWord_eq_lookup]
  split
  · rfl
  · split <;> (try split) <;> (try split) <;> rfl

/-- What is read as a slash is spelled so. -/
theorem spelling_of_slash [WideConversion] {strict : Bool} {cs : List Char} {x : Lexeme} {n : Nat}
    (h : scan cs = .read x n) (hx : (x.kind strict).isSlash = true) :
    cs.take n = ['/'] ∨ cs.take n = ['/', '='] := by
  cases x with
  | word w => rw [kind, isSlash_ofWord] at hx; cases hx
  | numeral => cases hx
  | quoted => cases hx
  | punctuator p =>
    obtain ⟨rfl, hl⟩ := longest?_of_scan h
    rw [Punctuator.take_width_of_longest? hl]
    have hp : p = .divide ∨ p = .divideAssign := by
      simpa [kind, Kind.isSlash, Punctuator.isSlash] using hx
    rcases hp with rfl | rfl
    · exact .inl rfl
    · exact .inr rfl

/-- A slash that is read stands at the front of the text and ends no line. -/
theorem slash_of_scan [WideConversion] {strict : Bool} {cs : List Char} {x : Lexeme} {n : Nat} (h : scan cs = .read x n)
    (hx : (x.kind strict).isSlash = true) :
    cs.head? = some '/' ∧ hasLineTerminator (cs.take n) = false := by
  have hspell := spelling_of_slash h hx
  constructor
  · have hn : n ≠ 0 := Nat.ne_of_gt (scan_pos h).1
    have hhead : (cs.take n).head? = some '/' := by
      rcases hspell with hs | hs <;> rw [hs] <;> rfl
    rwa [List.head?_take, if_neg hn] at hhead
  · rcases hspell with hs | hs <;> rw [hs] <;> rfl

/-! ## Strings -/

/-- A string is read from a quote. -/
theorem quoted_of_scan [WideConversion] {cs : List Char} {x : Quoted} {n : Nat} (h : scan cs = .read (.quoted x) n) :
    ∃ quote ds, cs = quote :: ds ∧ (quote = '"' ∨ quote = '\'') ∧ Quoted.scan cs = .read x n := by
  have punctuator : ∀ {cs : List Char}, scanPunctuator cs ≠ .read (.quoted x) n := by
    intro cs hs
    obtain ⟨p, hp, -⟩ := longest?_of_scanPunctuator hs
    cases hp
  unfold scan at h
  split at h
  · cases h
  · next c cs =>
    split at h
    · exact absurd h punctuator
    · split at h
      · obtain ⟨_, -, hx⟩ := Scan.map_eq_read h; cases hx
      · split at h
        · exact absurd h punctuator
        · split at h
          · obtain ⟨_, -, hx⟩ := Scan.map_eq_read h; cases hx
          · split at h
            · next hq =>
              obtain ⟨_, hs, hx⟩ := Scan.map_eq_read h
              cases hx
              exact ⟨c, cs, rfl, by simpa using hq, hs⟩
            · cases h

theorem scan_of_quote [WideConversion] {quote : Char} (h : quote = '"' ∨ quote = '\'') (cs : List Char) :
    scan (quote :: cs) = (Quoted.scan (quote :: cs)).map quoted := by
  rcases h with rfl | rfl <;> rfl

/-- A word is neither a string nor a number. -/
theorem tokenClass_ofWord (strict : Bool) (w : String) :
    (Kind.ofWord strict w).tokenClass ≠ .string ∧ (Kind.ofWord strict w).tokenClass ≠ .number := by
  rw [Kind.ofWord_eq_lookup]
  split
  · exact ⟨TokenClass.noConfusion, TokenClass.noConfusion⟩
  · split <;> (try split) <;> (try split) <;> exact ⟨TokenClass.noConfusion, TokenClass.noConfusion⟩

theorem quoted_of_tokenClass {strict : Bool} {x : Lexeme} (h : (x.kind strict).tokenClass = .string) :
    ∃ q, x = .quoted q := by
  cases x with
  | word w => exact absurd h (tokenClass_ofWord strict _).1
  | numeral => cases h
  | quoted q => exact ⟨q, rfl⟩
  | punctuator => cases h

/-! ## Numerals -/

/-- No punctuator and no word begins with a digit. -/
theorem opens_of_decimal {c : Char} (h : isDecimalDigit c = true) :
    Punctuator.isOpenedBy c = false ∧ opensWord c = false := by
  have h : '0' ≤ c ∧ c ≤ '9' := by simpa [isDecimalDigit] using h
  have h₁ : 48 ≤ c.toNat := h.1
  have h₂ : c.toNat ≤ 57 := h.2
  rw [← Char.ofNat_toNat c]
  generalize c.toNat = n at h₁ h₂
  interval_cases n <;> decide

/-- A numeral is read where one begins. -/
theorem scan_of_opensNumeral [WideConversion] {cs : List Char} (h : Numeral.opensNumeral cs = true) :
    scan cs = (Numeral.scan cs).map numeral := by
  cases cs with
  | nil => cases h
  | cons c cs =>
    by_cases hc : isDecimalDigit c = true
    · obtain ⟨hp, hw⟩ := opens_of_decimal hc
      have hd : (c == '.') = false := by
        rw [beq_eq_false_iff_ne]
        rintro rfl
        exact absurd hc (by decide)
      simp [scan, hp, hw, hd, hc]
    · obtain ⟨rfl, hd⟩ : c = '.' ∧ cs.head?.any isDecimalDigit = true := by
        simpa [Numeral.opensNumeral, hc] using h
      rw [scan, if_neg (by decide), if_neg (by decide), if_neg (by simp [hd]), if_pos (by decide)]

/-- A numeral is read where one begins, and nowhere else. -/
theorem numeral_of_scan [WideConversion] {cs : List Char} {x : Numeral} {n : Nat} (h : scan cs = .read (.numeral x) n) :
    Numeral.opensNumeral cs = true ∧ Numeral.scan cs = .read x n := by
  have punctuator : ∀ {cs : List Char}, scanPunctuator cs ≠ .read (.numeral x) n := by
    intro cs hs
    obtain ⟨p, hp, -⟩ := longest?_of_scanPunctuator hs
    cases hp
  unfold scan at h
  split at h
  · cases h
  · next c cs =>
    split at h
    · exact absurd h punctuator
    · split at h
      · obtain ⟨_, -, hx⟩ := Scan.map_eq_read h; cases hx
      · split at h
        · exact absurd h punctuator
        · next hd =>
          split at h
          · next hnum =>
            obtain ⟨_, hs, hx⟩ := Scan.map_eq_read h
            cases hx
            refine ⟨?_, hs⟩
            by_cases hc : isDecimalDigit c = true
            · simp [Numeral.opensNumeral, hc]
            · obtain rfl : c = '.' := by simpa [hc] using hnum
              simpa [Numeral.opensNumeral, hc] using hd
          · split at h
            · obtain ⟨_, -, hx⟩ := Scan.map_eq_read h; cases hx
            · cases h

theorem numeral_of_tokenClass {strict : Bool} {x : Lexeme} (h : (x.kind strict).tokenClass = .number) :
    ∃ v, x = .numeral v := by
  cases x with
  | word w => exact absurd h (tokenClass_ofWord strict _).2
  | numeral v => exact ⟨v, rfl⟩
  | quoted => cases h
  | punctuator => cases h

/-! ## The next character -/

/-- No lexeme begins with a separating character. -/
theorem scan_of_separates [WideConversion] {c : Char} (hc : Separates c) (cs : List Char) :
    scan (c :: cs) = .malformed 0 := by
  have hp : Punctuator.isOpenedBy c = false := by simp [Punctuator.isOpenedBy, hc.punctuator]
  have hd : (c == '.') = false := by
    rw [beq_eq_false_iff_ne]
    rintro rfl
    exact absurd hc.punctuator (by decide)
  have hq : (c == '"' || c == '\'') = false := by
    have h₁ : c ≠ '"' := fun h => hc.other (by simp [h])
    have h₂ : c ≠ '\'' := fun h => hc.other (by simp [h])
    simp [h₁, h₂]
  simp [scan, hp, hc.word, hd, hc.decimal, hq]

theorem scanPunctuator_local {cs : List Char} {x : Lexeme} {n : Nat} (h : scanPunctuator cs = .read x n) :
    Scan.Local scanPunctuator cs x n := by
  obtain ⟨p, rfl, rfl, hp⟩ := longest?_of_scanPunctuator h
  obtain ⟨rest, rfl⟩ := Punctuator.spelling_prefix_of_longest? hp
  refine ⟨p.spelling.toList, rest, rfl, p.length_spelling.symm, ?_⟩
  intro tail ht
  have hl : Punctuator.longest? (p.spelling.toList ++ tail) = some p := by
    cases tail with
    | nil => rw [List.append_nil, Punctuator.longest?_spelling]
    | cons c tail =>
      apply Punctuator.longest?_append_iff.2
      intro hc
      rcases ht c rfl with hs | hs
      · have := Punctuator.isSome_ofChar?_of_extension hc
        rw [hs.punctuator] at this
        cases this
      · obtain ⟨rest, rfl⟩ := List.head?_eq_some_iff.1 hs
        exact Punctuator.longest?_append_iff.1 hp hc
  rw [scanPunctuator, hl]

/-- A lexeme depends on its own text and on the next character alone. -/
theorem scan_local [WideConversion] {cs : List Char} {x : Lexeme} {n : Nat} (h : scan cs = .read x n) :
    Scan.Local scan cs x n := by
  have hn := (scan_pos h).1
  cases cs with
  | nil => cases h
  | cons c cs =>
    by_cases hp : Punctuator.isOpenedBy c = true
    · rw [scan, if_pos hp] at h
      apply (scanPunctuator_local h).of_dispatch (k := id) hn
      intro ds _ _
      rw [scan, if_pos hp, Scan.map_id]
    by_cases hw : opensWord c = true
    · rw [scan, if_neg hp, if_pos hw] at h
      obtain ⟨w, hs, rfl⟩ := Scan.map_eq_read h
      apply (Word.scan_local hw hs).of_dispatch hn
      intro ds _ _
      rw [scan, if_neg hp, if_pos hw]
    by_cases hd : (c == '.' && !cs.head?.any isDecimalDigit) = true
    · -- a point alone is a punctuator in front of everything but a digit
      rw [scan, if_neg hp, if_neg hw, if_pos hd] at h
      apply (scanPunctuator_local h).of_dispatch (k := id) hn
      intro ds hds _
      simp only [Bool.and_eq_true, Bool.not_eq_true'] at hd
      rw [scan, if_neg hp, if_neg hw, hd.1, hds.head_not (fun c hc => hc.decimal) hd.2, Scan.map_id]
      rfl
    by_cases hnum : (c == '.' || isDecimalDigit c) = true
    · rw [scan, if_neg hp, if_neg hw, if_neg hd, if_pos hnum] at h
      obtain ⟨x, hs, rfl⟩ := Scan.map_eq_read h
      apply (Numeral.scan_local (by simpa using hnum) hs).of_dispatch hn
      intro ds _ hhead
      have hd' : ¬ (c == '.' && !ds.head?.any isDecimalDigit) = true := by
        intro hdot
        simp only [Bool.and_eq_true, beq_iff_eq, Bool.not_eq_true'] at hdot
        obtain ⟨rfl, hdot⟩ := hdot
        have hany : cs.head?.any isDecimalDigit = true := by simpa using hd
        obtain ⟨d, hhd, hdig⟩ := (Option.any_eq_true _ _).1 hany
        obtain ⟨rest, rfl⟩ := List.head?_eq_some_iff.1 hhd
        rw [hhead (Numeral.two_le_of_scan_point hdig hs), hany] at hdot
        cases hdot
      rw [scan, if_neg hp, if_neg hw, if_neg hd', if_pos hnum]
    by_cases hq : (c == '"' || c == '\'') = true
    · rw [scan, if_neg hp, if_neg hw, if_neg hd, if_neg hnum, if_pos hq] at h
      obtain ⟨x, hs, rfl⟩ := Scan.map_eq_read h
      apply (Quoted.scan_local (Quoted.isQuote_of_eq hq) hs).of_dispatch hn
      intro ds _ _
      have hd' : ¬ (c == '.' && !ds.head?.any isDecimalDigit) = true := fun h =>
        hnum (by rw [(Bool.and_eq_true_iff.1 h).1]; rfl)
      rw [scan, if_neg hp, if_neg hw, if_neg hd', if_neg hnum, if_pos hq]
    · rw [scan, if_neg hp, if_neg hw, if_neg hd, if_neg hnum, if_neg hq] at h
      cases h

/-- A line feed behind a text changes no lexeme in it. -/
theorem scan_feed [WideConversion] {cs : List Char} {x : Lexeme} {n : Nat} (h : scan cs = .read x n) (b : List Char) :
    n ≤ cs.length ∧ scan (cs ++ '\n' :: b) = .read x n := by
  obtain ⟨front, rest, rfl, rfl, hl⟩ := scan_local h
  refine ⟨by simp, ?_⟩
  rw [List.append_assoc]
  apply hl
  cases rest with
  | nil => exact .of_separates (separates_of_isLineTerminator (by decide)) [] b
  | cons c rest => exact fun d hd => .inr hd

end Lexeme

end EcmaTokens
