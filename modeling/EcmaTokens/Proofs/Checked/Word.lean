/-
Words, read with a checked cursor. An escape is looked for byte by byte and gone over only if its digits are all
there. A word without escapes is read in one run; if a backslash ends the run, the cursor goes back to where the word
begins. On every word it passes its checks and reads what the recogniser of words reads.
-/
import EcmaTokens.Proofs.Checked.Cursor
import EcmaTokens.Proofs.Lexeme.Quoted
import EcmaTokens.Proofs.Lexeme.Word
import EcmaTokens.Proofs.Source.Local

namespace EcmaTokens

/-! ## Hexadecimal digits -/

/-- The number that the next hexadecimal digits of a text add to the digits in front of them. -/
def leadingHex (value : Nat) : Nat → List Char → Option Nat
  | 0, _ => some value
  | _ + 1, [] => none
  | n + 1, c :: cs => do
    let digit ← hexValue? c
    leadingHex (value * 16 + digit) n cs

/-- The number of the bytes behind the cursor that are hexadecimal digits. -/
def Cursor.hexCode? (k : Cursor) (offset value : Nat) : Nat → Option Nat
  | 0 => some value
  | n + 1 => do
    let byte ← k.byteAt? offset
    let digit ← hexValue? (Char.ofUInt8 byte)
    k.hexCode? (offset + 1) (value * 16 + digit) n

theorem isAscii_of_hexValue? {c : Char} {d : Nat} (h : hexValue? c = some d) : isAscii c = true := by
  have bound : ∀ {a b : Char}, (decide (a ≤ c) && decide (c ≤ b)) = true → b.toNat < 128 → isAscii c = true := by
    intro a b hab hb
    have hle : c.toNat ≤ b.toNat := (by simpa using hab : a ≤ c ∧ c ≤ b).2
    exact decide_eq_true (Nat.lt_of_le_of_lt hle hb)
  unfold hexValue? at h
  split at h
  · next hc => exact bound hc (by decide)
  · split at h
    · next hc => exact bound hc (by decide)
    · split at h
      · next hc => exact bound hc (by decide)
      · cases h

theorem leadingHex_byteChars (value n : Nat) (cs : List Char) :
    leadingHex value n (byteChars cs) = leadingHex value n cs := by
  induction n generalizing value cs with
  | zero => rfl
  | succ n ih =>
    cases cs with
    | nil => rfl
    | cons c cs =>
      cases hc : isAscii c with
      | true =>
        rw [byteChars_cons hc, leadingHex, leadingHex]
        simp only [ih]
      | false =>
        obtain ⟨d, ds, heq, hd⟩ := exists_byteChars hc cs
        have none_of : ∀ {c : Char}, isAscii c = false → hexValue? c = none := by
          intro c hc
          cases h : hexValue? c with
          | none => rfl
          | some d => rw [isAscii_of_hexValue? h] at hc; cases hc
        rw [heq, leadingHex, leadingHex, none_of hc, none_of hd]
        rfl

theorem leadingHex_four (cs : List Char) : leadingHex 0 4 cs = Quoted.unitCode? cs := by
  rcases cs with _ | ⟨a, _ | ⟨b, _ | ⟨c, _ | ⟨d, cs⟩⟩⟩⟩
  · rfl
  · cases ha : hexValue? a <;> simp [leadingHex, Quoted.unitCode?, ha]
  · cases ha : hexValue? a <;> cases hb : hexValue? b <;> simp [leadingHex, Quoted.unitCode?, ha, hb]
  · cases ha : hexValue? a <;> cases hb : hexValue? b <;> cases hc : hexValue? c <;>
      simp [leadingHex, Quoted.unitCode?, ha, hb, hc]
  · simp [leadingHex, Quoted.unitCode?, hexQuad?]

theorem byteChar?_eq (cs : List Char) : Quoted.byteChar? cs = (leadingHex 0 2 cs).bind charOfCode? := by
  rcases cs with _ | ⟨a, _ | ⟨b, cs⟩⟩
  · rfl
  · cases ha : hexValue? a <;> simp [leadingHex, Quoted.byteChar?, ha]
  · cases ha : hexValue? a <;> cases hb : hexValue? b <;> simp [leadingHex, Quoted.byteChar?, ha, hb]

theorem leadingHex_lt {value n code : Nat} {cs : List Char} (h : leadingHex value n cs = some code) :
    code < (value + 1) * 16 ^ n := by
  induction n generalizing value cs with
  | zero => cases h; omega
  | succ n ih =>
    cases cs with
    | nil => cases h
    | cons c cs =>
      obtain ⟨d, hd, h⟩ := Option.bind_eq_some_iff.1 h
      have hlt : d < 16 := by
        have := digitValue_lt_of_hex (c := c) (by rw [isHexDigit, hd]; rfl)
        rwa [digitValue, hd] at this
      calc code < (value * 16 + d + 1) * 16 ^ n := ih h
        _ ≤ ((value + 1) * 16) * 16 ^ n := Nat.mul_le_mul_right _ (by omega)
        _ = (value + 1) * 16 ^ (n + 1) := by rw [Nat.pow_succ, Nat.mul_assoc, Nat.mul_comm 16]

/-- The digits that are read stand in the text. -/
theorem exists_of_leadingHex {value n code : Nat} {cs : List Char} (h : leadingHex value n cs = some code) :
    ∃ w rest, cs = w ++ rest ∧ w.length = n ∧ isPlain w = true := by
  induction n generalizing value cs with
  | zero => exact ⟨[], cs, rfl, rfl, rfl⟩
  | succ n ih =>
    cases cs with
    | nil => cases h
    | cons c cs =>
      obtain ⟨d, hd, h⟩ := Option.bind_eq_some_iff.1 h
      obtain ⟨w, rest, rfl, rfl, hw⟩ := ih h
      have hc : isHexDigit c = true := by rw [isHexDigit, hd]; rfl
      refine ⟨c :: w, rest, rfl, rfl, ?_⟩
      rw [isPlain_iff, List.forall_mem_cons]
      exact ⟨⟨isAscii_of_hexValue? hd, not_isLineTerminator_of_hex hc⟩, isPlain_iff.1 hw⟩

namespace Checked

/-- Reads hexadecimal digits. Nothing is gone over unless all of them are there. -/
def hexEscape (digits : Nat) : Checked (Option Nat) := do
  let k ← get
  match k.hexCode? 0 0 digits with
  | some code =>
    advanceAscii digits
    return some code
  | none => return none

section HexEscape

variable {source : List Char} {b : Bool} {p : Place}

theorem hexCode?_at (hp : p.Within source) (offset value n : Nat) :
    (p.cursor source b).hexCode? offset value n = leadingHex value n ((byteChars p.rest).drop offset) := by
  induction n generalizing offset value with
  | zero => rfl
  | succ n ih =>
    have hat := byteAt_at (b := b) hp offset
    rw [Cursor.hexCode?]
    cases hb : (p.cursor source b).byteAt? offset with
    | none =>
      rw [hb, Option.map_none, eq_comm, List.getElem?_eq_none_iff] at hat
      rw [List.drop_eq_nil_of_le hat]
      rfl
    | some b =>
      rw [hb, Option.map_some, eq_comm] at hat
      obtain ⟨hlt, hc⟩ := List.getElem?_eq_some_iff.1 hat
      rw [List.drop_eq_getElem_cons hlt, hc, leadingHex]
      simp only [ih, Option.bind_eq_bind, Option.bind_some]

theorem hexEscape_none (hp : p.Within source) {n : Nat} (h : leadingHex 0 n p.rest = none) :
    hexEscape n (p.cursor source b) = some (.ok none, p.cursor source b) := by
  rw [hexEscape, bind_of_ok (get_apply _), hexCode?_at hp, List.drop_zero, leadingHex_byteChars, h]
  rfl

theorem hexEscape_some (hp : p.Within source) {n code : Nat} (h : leadingHex 0 n p.rest = some code) :
    hexEscape n (p.cursor source b) = some (.ok (some code), (p.advance n).cursor source b) := by
  obtain ⟨w, rest, hrest, rfl, hw⟩ := exists_of_leadingHex h
  rw [hexEscape, bind_of_ok (get_apply _), hexCode?_at hp, List.drop_zero, leadingHex_byteChars, h]
  exact bind_of_ok (advanceAscii_at hp hrest hw)

end HexEscape

/-! ## Words -/

/-- Reads the digits of an escape. The character must be allowed where it is written. -/
def escapedChar (first : Bool) : Checked Char := do
  match (← hexEscape 4).bind (Word.escaped? first) with
  | some c => return c
  | none => malformed .illegalToken

/-- Reads an escape from its backslash. -/
def wordEscape (first : Bool) : Checked Char := do
  let _ ← bump
  match ← bumpIf (· == 'u') with
  | some _ => escapedChar first
  | none => malformed .illegalToken

/-- Reads the next character of a word, as itself or by an escape. -/
def spelledRound (name : List Char) : Checked (Turn (List Char) (List Char)) := do
  match ← peek with
  | some c =>
    if c == '\\' then
      let c ← wordEscape name.isEmpty
      return .again (name ++ [c])
    else if Word.allows name.isEmpty c then
      let _ ← bump
      return .again (name ++ [c])
    else return .done name
  | none => return .done name

/-- Reads what is left of a word, of which a part has been read. -/
def spelledWord (name : List Char) : Checked (List Char) :=
  loop spelledRound name

/-- Reads a word, as one run of identifier characters if it has no escapes. -/
def word : Checked (List Char) := do
  let start ← index
  if (← peek) == some '\\' then spelledWord []
  else
    let _ ← bump
    bumpWhile isIdentifierPart
    if (← peek) == some '\\' then
      reset start
      spelledWord []
    else sliceFrom start

section Word

variable {source : List Char} {b : Bool} {p : Place}

theorem wordEscape_bare (hp : p.Within source) {cs : List Char} (h : p.rest = '\\' :: cs)
    (hu : cs.head?.any (· == 'u') = false) (first : Bool) :
    wordEscape first (p.cursor source b) = (Scan.malformed 1).settle source b .illegalToken p := by
  have hnext : (p.advance 1).rest.head?.any (· == 'u') = false := by rw [Place.rest_advance, h]; exact hu
  rw [wordEscape, bind_of_ok (bump_at hp h rfl), bind_of_ok (bumpIf_not (hp.advance 1) hnext)]
  exact malformed_advance hp 1

theorem wordEscape_digits (hp : p.Within source) {cs : List Char} (h : p.rest = '\\' :: 'u' :: cs) (first : Bool) :
    wordEscape first (p.cursor source b) = escapedChar first ((p.advance 2).cursor source b) := by
  have hone : CutsClean p.rest 1 := Place.cutsClean_next h rfl
  rw [wordEscape, bind_of_ok (bump_at hp h rfl),
    bind_of_ok (bumpIf_at (hp.advance 1) (Place.rest_next h) rfl rfl), ← Place.advance_add hone]

/-- An escape without its four digits is refused behind its `u`. -/
theorem wordEscape_undigited (hp : p.Within source) {cs : List Char} (h : p.rest = '\\' :: 'u' :: cs)
    (hcode : Quoted.unitCode? cs = none) (first : Bool) :
    wordEscape first (p.cursor source b) = (Scan.malformed 2).settle source b .illegalToken p := by
  have hcs : (p.advance 2).rest = cs := by rw [Place.rest_advance, h]; rfl
  rw [wordEscape_digits hp h, escapedChar,
    bind_of_ok (hexEscape_none (hp.advance 2) (by rw [hcs, leadingHex_four, hcode]))]
  exact malformed_advance hp 2

/-- An escape with its digits is refused behind them, or read. -/
theorem wordEscape_code (hp : p.Within source) {cs : List Char} (h : p.rest = '\\' :: 'u' :: cs) {code : Nat}
    (hcode : Quoted.unitCode? cs = some code) (first : Bool) :
    wordEscape first (p.cursor source b) =
      (((Word.escaped? first code).map (Scan.read · 6)).getD (.malformed 6)).settle source b .illegalToken p := by
  have hcs : (p.advance 2).rest = cs := by rw [Place.rest_advance, h]; rfl
  have hsix : p.advance 6 = (p.advance 2).advance 4 := Place.advance_add (.of_lineFree (by rw [h]; rfl)) 4
  rw [wordEscape_digits hp h, escapedChar,
    bind_of_ok (hexEscape_some (hp.advance 2) (by rw [hcs, leadingHex_four, hcode])), ← hsix, Option.bind_some]
  cases Word.escaped? first code with
  | none => exact malformed_advance hp 6
  | some c => rfl

theorem spelledRound_nil (hp : p.Within source) (h : p.rest = []) (name : List Char) :
    spelledRound name (p.cursor source b) = some (.ok (.done name), p.cursor source b) := by
  rw [spelledRound, bind_of_ok (peek_at hp), h]
  rfl

theorem spelledRound_escape (hp : p.Within source) {cs : List Char} (h : p.rest = '\\' :: cs) (name : List Char) :
    spelledRound name (p.cursor source b) =
      (wordEscape name.isEmpty >>= fun c => pure (.again (name ++ [c]))) (p.cursor source b) := by
  rw [spelledRound, bind_of_ok (peek_at hp), h]
  rfl

theorem spelledRound_allowed (hp : p.Within source) {c : Char} {cs : List Char} (h : p.rest = c :: cs)
    (hb : c ≠ '\\') (hline : isLineTerminator c = false) {name : List Char}
    (hc : Word.allows name.isEmpty c = true) :
    spelledRound name (p.cursor source b) = some (.ok (.again (name ++ [c])), (p.advance 1).cursor source b) := by
  rw [spelledRound, bind_of_ok (peek_at hp), h, List.head?_cons]
  dsimp only
  rw [if_neg (by simpa using hb), if_pos hc, bind_of_ok (bump_at hp h hline)]
  rfl

theorem spelledRound_stop (hp : p.Within source) {c : Char} {cs : List Char} (h : p.rest = c :: cs)
    (hb : c ≠ '\\') {name : List Char} (hc : ¬ Word.allows name.isEmpty c = true) :
    spelledRound name (p.cursor source b) = some (.ok (.done name), p.cursor source b) := by
  rw [spelledRound, bind_of_ok (peek_at hp), h, List.head?_cons]
  dsimp only
  rw [if_neg (by simpa using hb), if_neg hc]
  rfl

theorem spelledWord_refused (hp : p.Within source) {cs : List Char} (h : p.rest = '\\' :: cs) {name : List Char}
    {n : Nat} (he : wordEscape name.isEmpty (p.cursor source b) =
      (Scan.malformed n).settle source b .illegalToken p) :
    spelledWord name (p.cursor source b) = (Scan.malformed n).settle source b .illegalToken p :=
  loop_of_error ((spelledRound_escape hp h name).trans (bind_of_error he))

theorem spelledWord_at (hp : p.Within source) (name : List Char) :
    spelledWord name (p.cursor source b) =
      ((Word.scanSpelled name.isEmpty p.rest).map (name ++ ·)).settle source b .illegalToken p := by
  have more : ∀ (name : List Char) (c : Char), (name ++ [c]).isEmpty = false := by simp
  have cons : ∀ (name : List Char) (c : Char) (cs : List Char), name ++ (c :: cs) = name ++ [c] ++ cs := by simp
  generalize hfirst : name.isEmpty = first
  generalize hrest : p.rest = cs
  fun_induction Word.scanSpelled first cs generalizing p name with
  | case1 first =>
    simp only [Scan.map, List.append_nil]
    exact (loop_of_done (spelledRound_nil hp hrest name)).trans (pure_at name)
  | case2 first c₁ c₂ c₃ c₄ cs hq =>
    exact spelledWord_refused hp hrest (wordEscape_undigited hp hrest hq _)
  | case3 first c₁ c₂ c₃ c₄ cs code hq he =>
    have hescape := wordEscape_code (b := b) hp hrest hq name.isEmpty
    rw [hfirst, he, ← hfirst] at hescape
    exact spelledWord_refused hp hrest hescape
  | case4 first c₁ c₂ c₃ c₄ cs code hq ch he ih =>
    have hfree : hasLineTerminator (p.rest.take 6) = false := by
      have hcode : Quoted.unitCode? (c₁ :: c₂ :: c₃ :: c₄ :: cs) = some code := hq
      rw [hrest]
      exact Quoted.hasLineTerminator_take_of_unitCode? hcode
    have hround : spelledRound name (p.cursor source b) =
        some (.ok (.again (name ++ [ch])), (p.advance 6).cursor source b) := by
      have hescape := wordEscape_code (b := b) hp hrest hq first
      rw [he] at hescape
      rw [spelledRound_escape hp hrest, hfirst]
      exact bind_of_ok hescape
    rw [spelledWord, loop_at hp (by simp [hrest]) (by decide) hround,
      Scan.settle_next (.of_lineFree hfree) fun cs _ _ => cons name ch cs]
    exact ih (hp.advance 6) _ (more name ch) (by rw [Place.rest_advance, hrest]; rfl)
  | case5 first cs h =>
    have hnone : Quoted.unitCode? cs = none := by
      rcases cs with _ | ⟨c₁, _ | ⟨c₂, _ | ⟨c₃, _ | ⟨c₄, cs⟩⟩⟩⟩
      · rfl
      · rfl
      · rfl
      · rfl
      · exact (h c₁ c₂ c₃ c₄ cs rfl).elim
    exact spelledWord_refused hp hrest (wordEscape_undigited hp hrest hnone _)
  | case6 first cs _ h =>
    have hu : cs.head?.any (· == 'u') = false := by
      cases cs with
      | nil => rfl
      | cons c cs =>
        rw [List.head?_cons, Option.any_some, beq_eq_false_iff_ne]
        rintro rfl
        exact h cs rfl
    exact spelledWord_refused hp hrest (wordEscape_bare hp hrest hu _)
  | case7 first c cs h₁ h₂ h₃ hc ih =>
    have hline : isLineTerminator c = false := by
      cases first with
      | true => exact not_isLineTerminator_of_part (isIdentifierPart_of_start hc)
      | false => exact not_isLineTerminator_of_part hc
    have hcut : CutsClean p.rest 1 := Place.cutsClean_next hrest hline
    have hround := spelledRound_allowed (b := b) hp hrest (by simpa using h₃) hline (hfirst ▸ hc)
    rw [spelledWord, loop_at hp (by simp [hrest]) Nat.one_pos hround,
      Scan.settle_next hcut fun cs _ _ => cons name c cs]
    exact ih (hp.advance 1) _ (more name c) (by rw [Place.rest_advance, hrest]; rfl)
  | case8 first c cs h₁ h₂ h₃ hc =>
    simp only [Scan.map, List.append_nil]
    exact (loop_of_done (spelledRound_stop hp hrest (by simpa using h₃) (hfirst ▸ hc))).trans (pure_at name)

theorem word_at (hp : p.Within source) {c : Char} {cs : List Char} (h : p.rest = c :: cs)
    (hc : isLineTerminator c = false) :
    word (p.cursor source b) = (Word.scan p.rest).settle source b .illegalToken p := by
  have hspelled : spelledWord [] (p.cursor source b) =
      (Word.scanSpelled true p.rest).settle source b .illegalToken p := by
    rw [spelledWord_at hp, List.isEmpty_nil]
    exact congrArg _ (Scan.map_id _)
  rw [word, bind_of_ok (index_apply _), bind_of_ok (peek_at hp), h, Word.scan, List.head?_cons]
  by_cases hb : c = '\\'
  · subst hb
    rw [← h]
    exact hspelled
  · have hrun : hasLineTerminator (cs.takeWhile isIdentifierPart) = false :=
      hasLineTerminator_takeWhile (fun _ => not_isLineTerminator_of_part) cs
    have hfree : hasLineTerminator (p.rest.take (1 + (cs.takeWhile isIdentifierPart).length)) = false := by
      rw [h, Nat.add_comm, List.take_succ_cons, take_length_takeWhile, hasLineTerminator_cons, hc, hrun]
      rfl
    have hcs : (p.advance 1).rest = cs := Place.rest_next h
    have hstop := Place.advance_add (Place.cutsClean_next h hc)
      (cs.takeWhile isIdentifierPart).length
    have hbehind : (p.advance (1 + (cs.takeWhile isIdentifierPart).length)).rest =
        cs.drop (cs.takeWhile isIdentifierPart).length := by
      rw [hstop, Place.rest_advance, hcs]
    have hq := hp.advance (1 + (cs.takeWhile isIdentifierPart).length)
    rw [if_neg (by simpa using hb), if_neg (by simpa using hb), bind_of_ok (bump_at hp h hc),
      bind_of_ok (bumpWhile_at (hp.advance 1) fun _ => not_isLineTerminator_of_part), hcs, ← hstop,
      bind_of_ok (peek_at hq), hbehind]
    dsimp only
    split
    · rw [← h, ← hspelled]
      exact bind_of_ok (reset_at hp hfree)
    · refine (sliceFrom_at hp _).trans ?_
      rw [h, Nat.add_comm, List.take_succ_cons, take_length_takeWhile]
      rfl

end Word

end Checked

end EcmaTokens
