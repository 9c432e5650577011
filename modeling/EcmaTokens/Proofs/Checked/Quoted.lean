/-
String literals, read with a checked cursor. A high surrogate unit looks for a low one behind it and goes back if there
is none; the codes of octal escapes, of escapes in two digits and of surrogate pairs must be characters. Wherever
a quote stands the checks are passed, and what is read is what the recogniser of string literals reads.
-/
import EcmaTokens.Proofs.Checked.Word
import EcmaTokens.Proofs.Lexeme.Contents

namespace EcmaTokens

namespace Checked

/-! ## Escapes -/

/-- Reads up to `n` octal digits behind the code of those in front of them. -/
def octalCode (code : Nat) : Nat → Checked Nat
  | 0 => return code
  | n + 1 => do
    match ← bumpIf isOctalDigit with
    | some d => octalCode (code * 8 + digitValue d) n
    | none => return code

/-- Reads an octal escape behind its first digit. -/
def octalEscape (first : Char) : Checked Char := do
  let code ← octalCode (digitValue first) (if first ≤ '3' then 2 else 1)
  demand (charOfCode? code)

/-- The character of a unit, with the low unit behind a high one. -/
def unitEscape (unit : Nat) : Checked Char := do
  if Quoted.isHighSurrogate unit then
    let start ← index
    if ← startsWith ['\\', 'u'] then
      advanceAscii 2
      match (← hexEscape 4).filter Quoted.isLowSurrogate with
      | some low => demand (charOfCode? (Quoted.pairCode unit low))
      | none =>
        reset start
        return replacementChar
    else return replacementChar
  else return charOfCode unit

/-- Reads an escape behind its backslash: its characters, and whether it is octal. -/
def escape : Checked (List Char × Bool) := do
  match ← bump with
  | some e =>
    if isLineTerminator e then return ([], false)
    else if isOctalDigit e then
      let c ← octalEscape e
      return ([c], true)
    else if e == 'u' then
      match ← hexEscape 4 with
      | some unit =>
        let c ← unitEscape unit
        return ([c], false)
      | none => return ([e], false)
    else if e == 'x' then
      match ← hexEscape 2 with
      | some code =>
        let c ← demand (charOfCode? code)
        return ([c], false)
      | none => return ([e], false)
    else return ([(Quoted.controlEscape? e).getD e], false)
  | none => malformed .illegalToken

/-! ## Literals -/

/-- Reads the next character or escape of a literal, or its closing quote, behind the value of what has been read. -/
def contentsRound (quote : Char) : List Char × Bool → Checked (Turn (List Char × Bool) Quoted)
  | (value, octal) => do
    match ← peek with
    | some c =>
      if c == quote then
        let _ ← bump
        return .done ⟨String.ofList value, octal⟩
      else if isLineTerminator c then malformed .illegalToken
      else
        let _ ← bump
        if c == '\\' then
          let (cs, isOctal) ← escape
          return .again (value ++ cs, octal || isOctal)
        else return .again (value ++ [c], octal)
    | none => malformed .illegalToken

/-- Reads what is left of a literal, up to and including the closing quote. -/
def contents (quote : Char) (value : List Char) (octal : Bool) : Checked Quoted :=
  loop (contentsRound quote) (value, octal)

/-- Reads a string literal. Its opening quote must be there. -/
def quoted : Checked Quoted := do
  let quote ← demand (← bump)
  contents quote [] false

end Checked

/-! ## Codes of characters -/

theorem charOfCode?_of_valid {code : Nat} (h : code.isValidChar) : charOfCode? code = some (charOfCode code) := by
  rw [charOfCode, charOfCode?, dif_pos h]
  rfl

namespace Quoted

theorem charOfCode_high {high : Nat} (h : isHighSurrogate high = true) : charOfCode high = replacementChar := by
  have hv : ¬ high.isValidChar := by
    simp only [isHighSurrogate, Bool.and_eq_true, decide_eq_true_eq] at h
    simp only [Nat.isValidChar]
    omega
  rw [charOfCode, charOfCode?, dif_neg hv]
  rfl

theorem isValidChar_pairCode {high low : Nat} (hh : isHighSurrogate high = true) (hl : isLowSurrogate low = true) :
    (pairCode high low).isValidChar := by
  simp only [isHighSurrogate, isLowSurrogate, Bool.and_eq_true, decide_eq_true_eq] at hh hl
  exact .inr (by unfold pairCode; omega)

/-- The low surrogate unit written at the front of a text. -/
def lowUnit? : List Char → Option Nat
  | '\\' :: 'u' :: cs => (unitCode? cs).filter isLowSurrogate
  | _ => none

theorem exists_of_lowUnit? {cs : List Char} {low : Nat} (h : lowUnit? cs = some low) :
    ∃ ds, cs = '\\' :: 'u' :: ds ∧ unitCode? ds = some low ∧ isLowSurrogate low = true := by
  unfold lowUnit? at h
  split at h
  · exact ⟨_, rfl, Option.filter_eq_some_iff.1 h⟩
  · cases h

theorem digitsValue_octalDigits_lt {first : Char} {cs : List Char} :
    digitsValue 8 (octalDigits first cs) < 512 := by
  have hdigits : ∀ c ∈ octalDigits first cs, digitValue c < 8 :=
    fun c hc => digitValue_lt_of_octal (List.mem_takeWhile_imp hc)
  have hlt := digitsValue_lt hdigits
  have hlen : (octalDigits first cs).length ≤ 3 := by
    refine (List.takeWhile_prefix _).length_le.trans ((List.length_take_le _ _).trans ?_)
    split <;> omega
  exact hlt.trans_le (Nat.pow_le_pow_right (by decide) hlen)

end Quoted

namespace Checked

section Escapes

open Quoted

variable {source : List Char} {b : Bool} {p : Place} {cs : List Char}

theorem octalCode_at (hp : p.Within source) (code n : Nat) :
    octalCode code n (p.cursor source b) =
      some (.ok (((p.rest.take n).takeWhile isOctalDigit).foldl (fun n c => n * 8 + digitValue c) code),
        (p.advance ((p.rest.take n).takeWhile isOctalDigit).length).cursor source b) := by
  induction n generalizing p code with
  | zero => rw [List.take_zero, List.takeWhile_nil, List.length_nil, Place.advance_zero]; rfl
  | succ n ih =>
    cases hr : p.rest with
    | nil =>
      rw [octalCode, bind_of_ok (bumpIf_not hp (by rw [hr]; rfl)), List.take_nil, List.takeWhile_nil, List.length_nil,
        Place.advance_zero]
      rfl
    | cons c cs =>
      rw [List.take_succ_cons, List.takeWhile_cons]
      cases hc : isOctalDigit c with
      | true =>
        have hline := not_isLineTerminator_of_decimal (isDecimalDigit_of_octal hc)
        have hcs : (p.advance 1).rest = cs := Place.rest_next hr
        have hone : CutsClean p.rest 1 := Place.cutsClean_next hr hline
        rw [octalCode, bind_of_ok (bumpIf_at hp hr hline hc), if_pos rfl, List.length_cons, Nat.add_comm,
          Place.advance_add hone, List.foldl_cons, ← hcs]
        exact ih (hp.advance 1) _
      | false =>
        rw [octalCode, bind_of_ok (bumpIf_not hp (by rw [hr]; exact hc)), if_neg (by simp), List.length_nil,
          Place.advance_zero]
        rfl

theorem octalEscape_at (hp : p.Within source) {first : Char} (h : p.rest = first :: cs)
    (hf : isOctalDigit first = true) :
    octalEscape first ((p.advance 1).cursor source b) =
      some (.ok (charOfCode (digitsValue 8 (octalDigits first cs))),
        (p.advance (octalDigits first cs).length).cursor source b) := by
  have hcs : (p.advance 1).rest = cs := Place.rest_next h
  have hline := not_isLineTerminator_of_decimal (isDecimalDigit_of_octal hf)
  have hdigits : octalDigits first cs =
      first :: (cs.take (if first ≤ '3' then 2 else 1)).takeWhile isOctalDigit := by
    rw [octalDigits]
    split
    · rw [List.take_succ_cons, List.takeWhile_cons, if_pos hf]
    · rw [List.take_succ_cons, List.takeWhile_cons, if_pos hf]
  have hcode := octalCode_at (b := b) (hp.advance 1) (digitValue first) (if first ≤ '3' then 2 else 1)
  have hvalue : digitsValue 8 (octalDigits first cs) =
      ((cs.take (if first ≤ '3' then 2 else 1)).takeWhile isOctalDigit).foldl (fun n c => n * 8 + digitValue c)
        (digitValue first) := by
    rw [hdigits, digitsValue, List.foldl_cons, Nat.zero_mul, Nat.zero_add]
  have hvalid : (digitsValue 8 (octalDigits first cs)).isValidChar := by
    have hlt : digitsValue 8 (octalDigits first cs) < 512 := digitsValue_octalDigits_lt
    exact .inl (by omega)
  rw [octalEscape]
  rw [hcs, ← hvalue, ← Place.advance_add (Place.cutsClean_next h hline), Nat.add_comm,
    ← List.length_cons (a := first), ← hdigits] at hcode
  rw [bind_of_ok hcode, charOfCode?_of_valid hvalid]
  rfl

theorem unitEscape_single {unit : Nat} (h : isHighSurrogate unit = false) :
    unitEscape unit (p.cursor source b) = some (.ok (charOfCode unit), p.cursor source b) := by
  rw [unitEscape, if_neg (by simp [h])]
  rfl

theorem unitEscape_pair (hp : p.Within source) {high low : Nat} (hh : isHighSurrogate high = true)
    (hl : lowUnit? p.rest = some low) :
    unitEscape high (p.cursor source b) =
      some (.ok (charOfCode (pairCode high low)), (p.advance 6).cursor source b) := by
  obtain ⟨ds, hrest, hcode, hlow⟩ := exists_of_lowUnit? hl
  have hskip : advanceAscii 2 (p.cursor source b) = some (.ok (), (p.advance 2).cursor source b) :=
    advanceAscii_at hp (w := ['\\', 'u']) hrest rfl
  have hhex : leadingHex 0 4 (p.advance 2).rest = some low := by
    rw [Place.rest_advance, hrest, leadingHex_four]
    exact hcode
  have hstarts : ['\\', 'u'].isPrefixOf p.rest = true := by rw [hrest]; rfl
  rw [unitEscape, if_pos hh]
  refine (bind_of_ok (index_apply _)).trans ?_
  rw [bind_of_ok (startsWith_at hp _), if_pos hstarts, bind_of_ok hskip,
    bind_of_ok (hexEscape_some (hp.advance 2) hhex), ← Place.advance_add (.of_lineFree (by rw [hrest]; rfl)),
    Option.filter_some, if_pos hlow]
  dsimp only
  rw [charOfCode?_of_valid (isValidChar_pairCode hh hlow)]
  rfl

/-- Where no low unit follows, the cursor goes back. -/
theorem unitEscape_lone (hp : p.Within source) {high : Nat} (hh : isHighSurrogate high = true)
    (hl : lowUnit? p.rest = none) :
    unitEscape high (p.cursor source b) = some (.ok (charOfCode high), p.cursor source b) := by
  rw [charOfCode_high hh, unitEscape, if_pos hh]
  refine (bind_of_ok (index_apply _)).trans ?_
  rw [bind_of_ok (startsWith_at hp _)]
  cases hstarts : ['\\', 'u'].isPrefixOf p.rest with
  | false => exact congrFun (if_neg (by simp)) _
  | true =>
    obtain ⟨ds, hrest⟩ := List.isPrefixOf_iff_prefix.1 hstarts
    have hrest : p.rest = '\\' :: 'u' :: ds := hrest.symm
    have hskip : advanceAscii 2 (p.cursor source b) = some (.ok (), (p.advance 2).cursor source b) :=
      advanceAscii_at hp (w := ['\\', 'u']) hrest rfl
    have hds : (p.advance 2).rest = ds := by rw [Place.rest_advance, hrest]; rfl
    rw [hrest, lowUnit?] at hl
    rw [if_pos rfl, bind_of_ok hskip]
    cases hcode : unitCode? ds with
    | none =>
      rw [bind_of_ok (hexEscape_none (hp.advance 2) (by rw [hds, leadingHex_four, hcode])), Option.filter_none]
      exact bind_of_ok (reset_at hp (by rw [hrest]; rfl))
    | some code =>
      rw [hcode] at hl
      have hfree : hasLineTerminator (p.rest.take 6) = false := by
        rw [hrest]
        exact hasLineTerminator_take_of_unitCode? hcode
      rw [bind_of_ok (hexEscape_some (hp.advance 2) (by rw [hds, leadingHex_four, hcode])), hl,
        ← Place.advance_add (.of_lineFree (by rw [hrest]; rfl))]
      exact bind_of_ok (reset_at hp hfree)

theorem escape_nil (hp : p.Within source) (h : p.rest = []) :
    escape (p.cursor source b) = (Scan.malformed 0).settle source b .illegalToken p := by
  rw [escape, bind_of_ok (bump_nil hp h)]
  exact malformed_at hp

theorem escape_octal (hp : p.Within source) {e : Char} (h : p.rest = e :: cs) (he : isOctalDigit e = true) :
    escape (p.cursor source b) = some (.ok ([charOfCode (digitsValue 8 (octalDigits e cs))], true),
      (p.advance (octalDigits e cs).length).cursor source b) := by
  have hline := not_isLineTerminator_of_decimal (isDecimalDigit_of_octal he)
  rw [escape, bind_of_ok (bump_at hp h hline)]
  dsimp only
  rw [if_neg (by simp [hline]), if_pos he, bind_of_ok (octalEscape_at hp h he)]
  rfl

/-- A unit in four digits, with what its reader goes over behind it. -/
theorem escape_unit (hp : p.Within source) (h : p.rest = 'u' :: cs) {unit : Nat} (hcode : unitCode? cs = some unit)
    {c : Char} {k : Cursor} (hunit : unitEscape unit ((p.advance 5).cursor source b) = some (.ok c, k)) :
    escape (p.cursor source b) = some (.ok ([c], false), k) := by
  have hhex : leadingHex 0 4 (p.advance 1).rest = some unit := by rw [Place.rest_next h, leadingHex_four, hcode]
  have hfive : p.advance 5 = (p.advance 1).advance 4 := Place.advance_add (Place.cutsClean_next h rfl) 4
  rw [hfive] at hunit
  rw [escape, bind_of_ok (bump_at hp h rfl)]
  refine (bind_of_ok (hexEscape_some (hp.advance 1) hhex)).trans ?_
  exact bind_of_ok hunit

theorem escape_unit_none (hp : p.Within source) (h : p.rest = 'u' :: cs) (hcode : unitCode? cs = none) :
    escape (p.cursor source b) = some (.ok (['u'], false), (p.advance 1).cursor source b) := by
  have hhex : leadingHex 0 4 (p.advance 1).rest = none := by rw [Place.rest_next h, leadingHex_four, hcode]
  rw [escape, bind_of_ok (bump_at hp h rfl)]
  exact bind_of_ok (hexEscape_none (hp.advance 1) hhex)

/-- Two digits are always the code of a character. -/
theorem escape_byte (hp : p.Within source) (h : p.rest = 'x' :: cs) {code : Nat}
    (hcode : leadingHex 0 2 cs = some code) :
    charOfCode? code = some (charOfCode code) ∧
      escape (p.cursor source b) = some (.ok ([charOfCode code], false), (p.advance 3).cursor source b) := by
  have hvalid : code.isValidChar := by
    have := leadingHex_lt hcode
    exact .inl (by omega)
  have hhex : leadingHex 0 2 (p.advance 1).rest = some code := by rw [Place.rest_next h, hcode]
  have hthree : p.advance 3 = (p.advance 1).advance 2 := Place.advance_add (Place.cutsClean_next h rfl) 2
  refine ⟨charOfCode?_of_valid hvalid, ?_⟩
  rw [escape, bind_of_ok (bump_at hp h rfl), hthree]
  refine (bind_of_ok (hexEscape_some (hp.advance 1) hhex)).trans ?_
  dsimp only
  rw [charOfCode?_of_valid hvalid]
  rfl

theorem escape_byte_none (hp : p.Within source) (h : p.rest = 'x' :: cs) (hcode : leadingHex 0 2 cs = none) :
    escape (p.cursor source b) = some (.ok (['x'], false), (p.advance 1).cursor source b) := by
  have hhex : leadingHex 0 2 (p.advance 1).rest = none := by rw [Place.rest_next h, hcode]
  rw [escape, bind_of_ok (bump_at hp h rfl)]
  exact bind_of_ok (hexEscape_none (hp.advance 1) hhex)

/-- An escape passes, and unless it is one half of a surrogate pair it is the piece that the recogniser finds. -/
theorem escape_at (hp : p.Within source) {piece : Piece} {n : Nat} (he : escape? p.rest = some (piece, n))
    (hlone : ∀ high, piece = .unit high → isHighSurrogate high = true → lowUnit? (p.rest.drop n) = none) :
    escape (p.cursor source b) = some (.ok (decode [piece], piece.isOctal), (p.advance n).cursor source b) := by
  cases hr : p.rest with
  | nil => rw [hr] at he; cases he
  | cons e cs =>
    rw [hr, escape?] at he
    by_cases hline : isLineTerminator e = true
    · rw [if_pos hline] at he
      cases he
      rw [escape, bind_of_ok (bump_terminator hp hr hline)]
      exact congrFun (if_pos hline) _
    rw [if_neg hline] at he
    by_cases hoctal : isOctalDigit e = true
    · rw [if_pos hoctal] at he
      cases he
      exact escape_octal hp hr hoctal
    rw [if_neg hoctal] at he
    by_cases hu : (e == 'u') = true
    · obtain rfl : e = 'u' := by simpa using hu
      rw [if_pos hu] at he
      cases hcode : unitCode? cs with
      | none =>
        rw [hcode] at he
        cases he
        exact escape_unit_none hp hr hcode
      | some unit =>
        rw [hcode] at he
        cases he
        refine escape_unit hp hr hcode ?_
        cases hh : isHighSurrogate unit with
        | false => exact unitEscape_single hh
        | true =>
          refine unitEscape_lone (hp.advance 5) hh ?_
          rw [Place.rest_advance]
          exact hlone unit rfl hh
    rw [if_neg hu] at he
    by_cases hx : (e == 'x') = true
    · obtain rfl : e = 'x' := by simpa using hx
      rw [if_pos hx, byteChar?_eq] at he
      cases hcode : leadingHex 0 2 cs with
      | none =>
        rw [hcode] at he
        cases he
        exact escape_byte_none hp hr hcode
      | some code =>
        obtain ⟨hchar, hescape⟩ := escape_byte (b := b) hp hr hcode
        rw [hcode, Option.bind_some, hchar] at he
        cases he
        exact hescape
    rw [if_neg hx] at he
    cases he
    rw [escape, bind_of_ok (bump_at hp hr (by simpa using hline))]
    dsimp only
    rw [if_neg hline, if_neg hoctal, if_neg hu, if_neg hx]
    rfl

/-- Both halves of a surrogate pair are read at once. -/
theorem escape_pair (hp : p.Within source) {high low : Nat} (h : p.rest = 'u' :: cs) (hcode : unitCode? cs = some high)
    (hh : isHighSurrogate high = true) (hl : lowUnit? (cs.drop 4) = some low) :
    escape (p.cursor source b) =
      some (.ok ([charOfCode (pairCode high low)], false), ((p.advance 5).advance 6).cursor source b) := by
  have hlow : lowUnit? (p.advance 5).rest = some low := by rw [Place.rest_advance, h, ← hl]; rfl
  exact escape_unit hp h hcode (unitEscape_pair (hp.advance 5) hh hlow)

end Escapes

end Checked

/-! ## Pieces -/

namespace Quoted

section Pieces

variable {quote : Char} {cs : List Char} {ps : List Piece} {piece : Piece} {high low n : Nat}

theorem exists_of_escape?_unit (h : escape? cs = some (.unit high, n)) :
    ∃ ds, cs = 'u' :: ds ∧ unitCode? ds = some high ∧ n = 5 := by
  cases cs with
  | nil => cases h
  | cons c ds =>
    rw [escape?] at h
    split at h
    · cases h
    split at h
    · cases h
    split at h
    · next hu =>
      obtain rfl : c = 'u' := by simpa using hu
      split at h
      · next hcode =>
        cases h
        exact ⟨ds, rfl, hcode, rfl⟩
      · cases h
    split at h
    · split at h <;> cases h
    · cases h

theorem eq_nil_of_escape?_none (h : escape? cs = none) : cs = [] := by
  cases cs with
  | nil => rfl
  | cons c cs =>
    rw [escape?] at h
    split at h
    · cases h
    split at h
    · cases h
    split at h
    · split at h <;> cases h
    split at h
    · split at h <;> cases h
    · cases h

theorem scanPieces_escape (hq : quote ≠ '\\') (h : escape? cs = some (piece, n)) :
    scanPieces quote ('\\' :: cs) = ((scanPieces quote (cs.drop n)).map (piece :: ·)).after (1 + n) := by
  have hne : ¬ ('\\' == quote) = true := by simpa using hq.symm
  rw [scanPieces, if_neg hne, if_neg (by decide), if_pos (by decide), h]

theorem scanPieces_unit (hq : quote ≠ '\\') (h : unitCode? cs = some high) :
    scanPieces quote ('\\' :: 'u' :: cs) = ((scanPieces quote (cs.drop 4)).map (.unit high :: ·)).after 6 :=
  scanPieces_escape hq (by rw [escape?_u, h])

theorem lowUnit?_of_scanPieces (h : scanPieces quote cs = .read (.unit low :: ps) n)
    (hl : isLowSurrogate low = true) : lowUnit? cs = some low := by
  cases cs with
  | nil =>
    rw [scanPieces] at h
    cases h
  | cons c cs =>
    rw [scanPieces] at h
    split at h
    · cases h
    split at h
    · cases h
    split at h
    · next hb =>
      obtain rfl : c = '\\' := by simpa using hb
      split at h
      · cases h
      · next piece m he =>
        obtain ⟨k, hk, -⟩ := Scan.after_eq_read h
        obtain ⟨qs, -, hqs⟩ := Scan.map_eq_read hk
        obtain rfl : piece = .unit low := (List.cons.inj hqs).1
        obtain ⟨ds, rfl, hcode, -⟩ := exists_of_escape?_unit he
        rw [lowUnit?, hcode, Option.filter_some, if_pos hl]
    · obtain ⟨k, hk, -⟩ := Scan.after_eq_read h
      obtain ⟨qs, -, hqs⟩ := Scan.map_eq_read hk
      cases (List.cons.inj hqs).1

/-- Away from the middle of a surrogate pair the pieces are decoded one by one. -/
theorem decode_cons (h : ∀ high low ps', piece = .unit high → isHighSurrogate high = true → ps = .unit low :: ps' →
    isLowSurrogate low = false) : decode (piece :: ps) = decode [piece] ++ decode ps := by
  cases piece with
  | char c => rfl
  | octal code => rfl
  | continuation => rfl
  | unit high =>
    cases ps with
    | nil => rfl
    | cons next ps =>
      cases next with
      | unit low =>
        have hpair : (isHighSurrogate high && isLowSurrogate low) = false := by
          cases hh : isHighSurrogate high with
          | false => rfl
          | true => rw [h high low ps rfl hh rfl]; rfl
        rw [decode, if_neg (by simp [hpair])]
        rfl
      | _ => rfl

end Pieces

end Quoted

/-! ## Literals -/

namespace Checked

section Literals

open Quoted

variable {source : List Char} {b : Bool} {quote : Char} {p : Place} {cs : List Char}

/-- What is left of a literal at a place is read as its pieces. -/
def ReadsContents (source : List Char) (b : Bool) (quote : Char) (p : Place) : Prop :=
  ∀ value octal, contents quote value octal (p.cursor source b) =
    ((scanPieces quote p.rest).map fun ps =>
      ⟨String.ofList (value ++ decode ps), octal || ps.any Piece.isOctal⟩).settle source b .illegalToken p

theorem contentsRound_nil (hp : p.Within source) (h : p.rest = []) (r : List Char × Bool) :
    contentsRound quote r (p.cursor source b) = (Scan.malformed 0).settle source b .illegalToken p := by
  rw [contentsRound, bind_of_ok (peek_at hp), h]
  exact malformed_at hp

theorem contentsRound_quote (hp : p.Within source) (h : p.rest = quote :: cs) (ht : isLineTerminator quote = false)
    (value : List Char) (octal : Bool) : contentsRound quote (value, octal) (p.cursor source b) =
      some (.ok (.done ⟨String.ofList value, octal⟩), (p.advance 1).cursor source b) := by
  rw [contentsRound, bind_of_ok (peek_at hp), h, List.head?_cons]
  dsimp only
  rw [if_pos (beq_self_eq_true quote), bind_of_ok (bump_at hp h ht)]
  rfl

theorem contentsRound_terminator (hp : p.Within source) {c : Char} (h : p.rest = c :: cs) (hc : ¬ (c == quote) = true)
    (hline : isLineTerminator c = true) (r : List Char × Bool) :
    contentsRound quote r (p.cursor source b) = (Scan.malformed 0).settle source b .illegalToken p := by
  rw [contentsRound, bind_of_ok (peek_at hp), h, List.head?_cons]
  dsimp only
  rw [if_neg hc, if_pos hline, malformed_at hp]

theorem contentsRound_char (hp : p.Within source) {c : Char} (h : p.rest = c :: cs) (hc : ¬ (c == quote) = true)
    (hline : isLineTerminator c = false) (hb : c ≠ '\\') (value : List Char) (octal : Bool) :
    contentsRound quote (value, octal) (p.cursor source b) =
      some (.ok (.again (value ++ [c], octal)), (p.advance 1).cursor source b) := by
  rw [contentsRound, bind_of_ok (peek_at hp), h, List.head?_cons]
  dsimp only
  rw [if_neg hc, if_neg (by simp [hline]), bind_of_ok (bump_at hp h hline), if_neg (by simpa using hb)]
  rfl

theorem contentsRound_escape (hp : p.Within source) (hq : quote ≠ '\\') (h : p.rest = '\\' :: cs)
    (value : List Char) (octal : Bool) : contentsRound quote (value, octal) (p.cursor source b) =
      (escape >>= fun r => pure (.again (value ++ r.1, octal || r.2))) ((p.advance 1).cursor source b) := by
  have hc : ¬ ('\\' == quote) = true := by simpa using hq.symm
  rw [contentsRound, bind_of_ok (peek_at hp), h]
  dsimp only [List.head?_cons]
  rw [if_neg hc, if_neg (by decide), bind_of_ok (bump_at hp h rfl), if_pos (by decide)]

theorem contents_escape (hp : p.Within source) (hq : quote ≠ '\\') (h : p.rest = '\\' :: cs) {w : List Char}
    {isOctal : Bool} {n : Nat} (hn : 0 < n)
    (he : escape ((p.advance 1).cursor source b) = some (.ok (w, isOctal), (p.advance n).cursor source b))
    (value : List Char) (octal : Bool) : contents quote value octal (p.cursor source b) =
      contents quote (value ++ w) (octal || isOctal) ((p.advance n).cursor source b) :=
  loop_at hp (by rw [h]; exact List.cons_ne_nil _ _) hn
    ((contentsRound_escape hp hq h value octal).trans (bind_of_ok he))

/-- Both halves of a surrogate pair are gone over at once. -/
theorem readsContents_pair (hp : p.Within source) (hq : quote ≠ '\\') {ds : List Char} {high low : Nat}
    (h : p.rest = '\\' :: 'u' :: ds) (hcode : unitCode? ds = some high) (hh : isHighSurrogate high = true)
    (hl : lowUnit? (ds.drop 4) = some low) (ih : ReadsContents source b quote (p.advance 12)) :
    ReadsContents source b quote p := by
  intro value octal
  obtain ⟨es, hes, hlow, hlowUnit⟩ := exists_of_lowUnit? hl
  have hp1 := hp.advance 1
  have hrest : (p.advance 1).rest = 'u' :: ds := Place.rest_next h
  have hsix : CutsClean p.rest 6 := by
    rw [h]
    exact .of_lineFree (hasLineTerminator_take_of_unitCode? hcode)
  have hsix' : CutsClean (p.advance 6).rest 6 := by
    rw [Place.rest_advance, h]
    show CutsClean (ds.drop 4) 6
    rw [hes]
    exact .of_lineFree (hasLineTerminator_take_of_unitCode? hlow)
  have hone : CutsClean p.rest 1 := Place.cutsClean_next h rfl
  have hstop : ((p.advance 1).advance 5).advance 6 = p.advance 12 := by
    rw [← Place.advance_add hone, ← Place.advance_add hsix]
  have hscan : scanPieces quote p.rest = (((scanPieces quote (p.advance 12).rest).map (.unit low :: ·)).after 6 |>.map
      (.unit high :: ·)).after 6 := by
    have hdrop : (p.advance 12).rest = es.drop 4 := by
      have hsum : ds.drop 10 = (ds.drop 4).drop 6 := by rw [List.drop_drop]
      rw [Place.rest_advance, h, List.drop_succ_cons, List.drop_succ_cons, hsum, hes]
      rfl
    rw [hdrop, ← scanPieces_unit hq hlow, ← hes, ← scanPieces_unit hq hcode, h]
  have hescape := escape_pair (b := b) hp1 hrest hcode hh hl
  rw [hstop] at hescape
  rw [contents_escape hp hq h (by decide) hescape, ih, hscan, Scan.settle_next hsix (fun ps _ _ => rfl),
    Scan.settle_next hsix' (fun ps _ _ => rfl), ← Place.advance_add hsix]
  simp [decode, Piece.isOctal, hh, hlowUnit]

/-- Any other escape is gone over by itself. -/
theorem readsContents_escape (hp : p.Within source) (hq : quote ≠ '\\') (h : p.rest = '\\' :: cs) {piece : Piece}
    {n : Nat} (he : escape? cs = some (piece, n))
    (hlone : ∀ high, piece = .unit high → isHighSurrogate high = true → lowUnit? (cs.drop n) = none)
    (ih : ReadsContents source b quote (p.advance (1 + n))) : ReadsContents source b quote p := by
  intro value octal
  have hp1 := hp.advance 1
  have hrest : (p.advance 1).rest = cs := Place.rest_next h
  have hone : CutsClean p.rest 1 := Place.cutsClean_next h rfl
  have hn : CutsClean p.rest (1 + n) := by
    rw [h]
    exact (cutsClean_escape? he).cons (by decide)
  have hdrop : (p.advance (1 + n)).rest = cs.drop n := by
    rw [Place.advance_add hone, Place.rest_advance, hrest]
  have hscan : scanPieces quote p.rest =
      ((scanPieces quote (p.advance (1 + n)).rest).map (piece :: ·)).after (1 + n) := by
    rw [hdrop, h, scanPieces_escape hq he]
  have hescape := escape_at (b := b) hp1 (by rw [hrest, he]) (by rw [hrest]; exact hlone)
  rw [← Place.advance_add hone] at hescape
  rw [contents_escape hp hq h (by omega) hescape, ih, hscan]
  refine (Scan.settle_next hn fun ps m hps => ?_).symm
  have hcons : decode (piece :: ps) = decode [piece] ++ decode ps := by
    refine decode_cons fun high low qs hpiece hh hqs => ?_
    by_contra hl
    rw [hqs, hdrop] at hps
    have hlow := lowUnit?_of_scanPieces hps (by simpa using hl)
    rw [hlone high hpiece hh] at hlow
    cases hlow
  rw [hcons, List.append_assoc, List.any_cons, Bool.or_assoc]

theorem readsContents (hq : quote ≠ '\\') (ht : isLineTerminator quote = false) (hp : p.Within source) :
    ReadsContents source b quote p := by
  induction hlen : p.rest.length using Nat.strong_induction_on generalizing p with
  | _ len ih =>
  subst hlen
  cases hr : p.rest with
  | nil =>
    intro value octal
    rw [hr, scanPieces]
    exact loop_of_error (contentsRound_nil hp hr _)
  | cons c cs =>
    have further : ∀ n, 0 < n → ReadsContents source b quote (p.advance n) := fun n hn =>
      ih _ (by rw [Place.rest_advance, List.length_drop, hr, List.length_cons]; omega) (hp.advance n) rfl
    have hcs : (p.advance 1).rest = cs := Place.rest_next hr
    by_cases hb : c = '\\'
    · subst hb
      cases he : escape? cs with
      | none =>
        intro value octal
        have hne : ¬ ('\\' == quote) = true := by simpa using hq.symm
        obtain rfl := eq_nil_of_escape?_none he
        have hround := (contentsRound_escape (b := b) hp hq hr value octal).trans
          (bind_of_error (escape_nil (hp.advance 1) hcs))
        rw [hr, scanPieces, if_neg hne, if_neg (by decide), if_pos (by decide), he]
        exact loop_of_error hround
      | some found =>
        obtain ⟨piece, n⟩ := found
        by_cases hpair : ∃ high low, piece = .unit high ∧ isHighSurrogate high = true ∧ lowUnit? (cs.drop n) = some low
        · obtain ⟨high, low, rfl, hh, hl⟩ := hpair
          obtain ⟨ds, rfl, hcode, rfl⟩ := exists_of_escape?_unit he
          exact readsContents_pair hp hq hr hcode hh hl (further 12 (by decide))
        · refine readsContents_escape hp hq hr he (fun high hpiece hh => ?_) (further _ (by omega))
          by_contra hne
          obtain ⟨low, hl⟩ := Option.ne_none_iff_exists'.1 hne
          exact hpair ⟨high, low, hpiece, hh, hl⟩
    · intro value octal
      rw [hr, scanPieces]
      by_cases hc : (c == quote) = true
      · obtain rfl : c = quote := by simpa using hc
        rw [if_pos hc, Scan.map, Scan.settle, decode, List.append_nil, List.any_nil, Bool.or_false]
        exact loop_of_done (contentsRound_quote hp hr ht value octal)
      rw [if_neg hc]
      by_cases hline : isLineTerminator c = true
      · rw [if_pos hline]
        exact loop_of_error (contentsRound_terminator hp hr hc hline _)
      have hplain : isLineTerminator c = false := by simpa using hline
      have hone : CutsClean p.rest 1 := Place.cutsClean_next hr hplain
      rw [if_neg hline, if_neg (by simpa using hb), Scan.settle_next hone (fun ps _ _ => rfl), contents,
        loop_at hp (by simp [hr]) Nat.one_pos (contentsRound_char hp hr hc hplain hb value octal)]
      refine (further 1 Nat.one_pos _ _).trans ?_
      rw [hcs]
      simp [decode, Piece.isOctal]

/-- From its opening quote a literal is read as the recogniser reads it. -/
theorem quoted_at (hp : p.Within source) (h : p.rest = quote :: cs) (hq : (quote == '"' || quote == '\'') = true) :
    quoted (p.cursor source b) = (Quoted.scan p.rest).settle source b .illegalToken p := by
  have hquote := isQuote_of_eq hq
  have hb : quote ≠ '\\' := by rintro rfl; cases hq
  have hone : CutsClean p.rest 1 := Place.cutsClean_next h hquote.terminator
  have hcs : (p.advance 1).rest = cs := Place.rest_next h
  have hcontents := readsContents (b := b) hb hquote.terminator (hp.advance 1) [] false
  rw [hcs] at hcontents
  rw [quoted, bind_of_ok (bump_at hp h hquote.terminator), h, scan, Scan.settle_after (h ▸ hone)]
  exact hcontents

end Literals

end Checked

end EcmaTokens
