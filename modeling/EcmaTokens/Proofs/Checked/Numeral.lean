/-
Numerals, read with a checked cursor. The digits of a numeral are cut out of the source between the offset where they
begin and the cursor, and the text of a decimal must be one that the conversion to a number accepts. Wherever a numeral
begins the checks are passed, and what is read is what the recogniser of numerals reads.
-/
import EcmaTokens.Proofs.Checked.Cursor
import EcmaTokens.Proofs.Lexeme.NumeralForm

namespace EcmaTokens

/-! ## What the conversion to a number accepts -/

namespace Decimal

open Numeral

/-- Digits with at most one point, at least one of them, and behind them an exponent or nothing. -/
inductive Text : List Char → Prop
  | whole {ds t : List Char} {e : Int} :
      ds ≠ [] → (∀ c ∈ ds, isDecimalDigit c = true) → Exponent t e → Text (ds ++ t)
  | point {ds fs t : List Char} {e : Int} : ds ++ fs ≠ [] → (∀ c ∈ ds, isDecimalDigit c = true) →
      (∀ c ∈ fs, isDecimalDigit c = true) → Exponent t e → Text (ds ++ '.' :: fs ++ t)

section Text

variable {cs : List Char} {e : Int}

theorem exponent_of_exponentPartOfText? (h : exponentPartOfText? cs = some e) : Exponent cs e := by
  cases cs with
  | nil => cases h; exact .none
  | cons l cs =>
    rw [exponentPartOfText?] at h
    split at h
    · next hl =>
      have hl : l = 'e' ∨ l = 'E' := by simpa using hl
      have read : ∀ {sign ds : List Char} {s : Int} {f : Nat → Int}, Sign sign s → (∀ n, f n = s * n) →
          (if (!ds.isEmpty && ds.all isDecimalDigit) = true then some (digitsValue 10 ds) else none).map f = some e →
          Exponent (l :: (sign ++ ds)) e := by
        intro sign ds s f hs hf h
        split at h
        · next hd =>
          obtain ⟨hne, hall⟩ := (Bool.and_eq_true _ _).mp hd
          cases h
          rw [hf]
          exact .some hl hs (by simpa using hne) (List.all_eq_true.1 hall)
        · cases h
      unfold exponentOfText? at h
      dsimp only at h
      split at h
      · exact read .plus (fun n => (one_mul _).symm) h
      · exact read .minus (fun n => (neg_one_mul _).symm) h
      · exact read .none (fun n => (one_mul _).symm) h
    · cases h

/-- The conversion accepts exactly the texts of the grammar. -/
theorem isSome_ofText?_iff : (ofText? cs).isSome = true ↔ Text cs := by
  constructor
  · intro h
    obtain ⟨d, hd⟩ := Option.isSome_iff_exists.1 h
    have hsplit := List.takeWhile_append_dropWhile (p := isDecimalDigit) (l := cs)
    have hwhole : ∀ c ∈ cs.takeWhile isDecimalDigit, isDecimalDigit c = true := fun _ => List.mem_takeWhile_imp
    rw [ofText?] at hd
    generalize cs.takeWhile isDecimalDigit = ds at hd hsplit hwhole
    generalize cs.dropWhile isDecimalDigit = tail at hd hsplit
    subst hsplit
    split at hd
    next fraction rest heq =>
    obtain ⟨hne, hd⟩ := Option.ite_none_left_eq_some.1 hd
    obtain ⟨e, he, -⟩ := Option.map_eq_some_iff.1 hd
    have hexponent := exponent_of_exponentPartOfText? he
    split at heq
    · next cs =>
      cases heq
      have htext : Text (ds ++ '.' :: cs.takeWhile isDecimalDigit ++ cs.dropWhile isDecimalDigit) :=
        .point (by simpa using hne) hwhole (fun _ => List.mem_takeWhile_imp) hexponent
      rwa [List.append_assoc, List.cons_append, List.takeWhile_append_dropWhile] at htext
    · cases heq
      exact .whole (by simpa using hne) hwhole hexponent
  · rintro (⟨hne, hd, he⟩ | ⟨hne, hd, hf, he⟩)
    · rw [ofText?_whole hd hne he]; rfl
    · rw [ofText?_point hd hf hne he]; rfl

theorem Text.of_mantissa {m ds t : List Char} {k : Nat} (hm : Mantissa m ds k) (ht : Exponent t e) :
    Text (m ++ t) := by
  cases hm with
  | whole hw => exact .whole hw.ne_nil hw.digit ht
  | point hw hf => exact .point (List.append_ne_nil_of_left_ne_nil hw.ne_nil _) hw.digit hf ht
  | fraction hne hf =>
    have htext : Text ([] ++ '.' :: ds ++ t) := .point hne (List.forall_mem_nil _) hf ht
    exact htext

end Text

end Decimal

namespace Checked

/-! ## Parts of a numeral -/

/-- No word may begin behind a numeral. -/
def numeralEnd : Checked Unit := do
  match ← peek with
  | some c => if opensWord c then malformed .illegalToken else return ()
  | none => return ()

/-- The text of a numeral from where it begins to its end, the cursor. -/
def numeralText (start : Nat) : Checked (List Char) := do
  numeralEnd
  sliceFrom start

def hexadecimal [WideConversion] : Checked Numeral := do
  advanceAscii 2
  let start ← index
  bumpWhile isHexDigit
  if (← index) == start then malformed .illegalToken
  else
    let digits ← numeralText start
    return ⟨.ofNat (digitsValue 16 digits), false⟩

def octal [WideConversion] : Checked Numeral := do
  let _ ← bump
  let start ← index
  bumpWhile isOctalDigit
  if (← peek).any isDecimalDigit then malformed .illegalToken
  else
    let digits ← numeralText start
    return ⟨.ofNat (digitsValue 8 digits), true⟩

def mantissa : Checked Unit := do
  bumpWhile isDecimalDigit
  match ← bumpIf (· == '.') with
  | some _ => bumpWhile isDecimalDigit
  | none => return ()

/-- One digit or more. -/
def someDigits : Checked Unit := do
  match ← bumpIf isDecimalDigit with
  | some _ => bumpWhile isDecimalDigit
  | none => malformed .illegalToken

def exponent : Checked Unit := do
  match ← bumpIf (fun c => c == 'e' || c == 'E') with
  | some _ =>
    let _ ← bumpIf (fun c => c == '+' || c == '-')
    someDigits
  | none => return ()

def decimal : Checked Numeral := do
  let start ← index
  mantissa
  exponent
  let text ← numeralText start
  let d ← demand (Decimal.ofText? text)
  return ⟨d.toBinary64, false⟩

/-- Reads a numeral. -/
def numeral [WideConversion] : Checked Numeral := do
  if (← peek) == some '0' then
    match ← peekSecond with
    | some c => if c == 'x' || c == 'X' then hexadecimal else if isDecimalDigit c then octal else decimal
    | none => decimal
  else decimal

/-! ## Each part reads what the recogniser reads -/

section Parts

open Numeral

variable {source : List Char} {b : Bool} {p : Place} {cs : List Char}

theorem numeralEnd_refused (hp : p.Within source) (h : p.rest.head?.any opensWord = true) :
    numeralEnd (p.cursor source b) = malformed .illegalToken (p.cursor source b) := by
  rw [numeralEnd, bind_of_ok (peek_at hp)]
  cases hr : p.rest with
  | nil => rw [hr] at h; cases h
  | cons c cs =>
    rw [hr, List.head?_cons, Option.any_some] at h
    exact congrFun (if_pos h) _

theorem numeralEnd_at (hp : p.Within source) (h : p.rest.head?.any opensWord = false) :
    numeralEnd (p.cursor source b) = some (.ok (), p.cursor source b) := by
  rw [numeralEnd, bind_of_ok (peek_at hp)]
  cases hr : p.rest with
  | nil => rfl
  | cons c cs =>
    rw [hr, List.head?_cons, Option.any_some] at h
    exact congrFun (if_neg (by simp [h])) _

theorem numeralText_refused (hp : p.Within source) {n : Nat} (h : (p.rest.drop n).head?.any opensWord = true) :
    numeralText p.offset ((p.advance n).cursor source b) =
      (Scan.malformed n).settle source b .illegalToken p := by
  have hend := (numeralEnd_refused (b := b) (hp.advance n) h).trans (malformed_advance hp n)
  exact bind_of_error hend

theorem numeralText_at (hp : p.Within source) {n : Nat} (h : (p.rest.drop n).head?.any opensWord = false) :
    numeralText p.offset ((p.advance n).cursor source b) =
      some (.ok (p.rest.take n), (p.advance n).cursor source b) := by
  rw [numeralText, bind_of_ok (numeralEnd_at (hp.advance n) h)]
  exact sliceFrom_at hp n

/-- The digits from a place to the cursor make a numeral, unless a word begins behind them. -/
theorem close_at (hp : p.Within source) (n : Nat) (f : List Char → Numeral) :
    (numeralText p.offset >>= fun text => pure (f text)) ((p.advance n).cursor source b) =
      (close p.rest n (some (f (p.rest.take n)))).settle source b .illegalToken p := by
  cases h : (p.rest.drop n).head?.any opensWord with
  | true =>
    rw [close, if_pos h]
    exact bind_of_error (numeralText_refused hp h)
  | false =>
    rw [close, if_neg (by rw [h]; exact Bool.false_ne_true), bind_of_ok (numeralText_at hp h)]
    rfl

theorem mantissa_at (hp : p.Within source) :
    mantissa (p.cursor source b) = some (.ok (), (p.advance (mantissaWidth p.rest)).cursor source b) := by
  have hcut : CutsClean p.rest (digitRun p.rest) := .of_lineFree (hasLineTerminator_take_digitRun _)
  have hdigits := bumpWhile_at (b := b) hp (fun _ => not_isLineTerminator_of_decimal)
  have hq := hp.advance (digitRun p.rest)
  rw [mantissa, bind_of_ok hdigits, mantissaWidth]
  split
  · next fraction hf =>
    have hone : CutsClean (p.advance (digitRun p.rest)).rest 1 :=
      .of_lineFree (by rw [Place.rest_advance, hf]; rfl)
    have hrest : ((p.advance (digitRun p.rest)).advance 1).rest = fraction := by
      rw [Place.rest_advance, Place.rest_advance, hf]
      rfl
    rw [Nat.add_assoc, Place.advance_add hcut, Place.advance_add hone]
    refine (bind_of_ok (bumpIf_at hq hf rfl rfl)).trans ?_
    rw [← hrest]
    exact bumpWhile_at (hq.advance 1) (fun _ => not_isLineTerminator_of_decimal)
  · next hf =>
    refine bind_of_ok (bumpIf_not hq ?_)
    rw [Place.rest_advance]
    cases hr : p.rest.drop (digitRun p.rest) with
    | nil => rfl
    | cons c cs =>
      rw [List.head?_cons, Option.any_some, beq_eq_false_iff_ne]
      rintro rfl
      exact hf cs hr

theorem someDigits_at (hp : p.Within source) :
    someDigits (p.cursor source b) =
      Scan.settle source b .illegalToken p
        (if digitRun p.rest = 0 then .malformed 0 else .read () (digitRun p.rest)) := by
  cases hr : p.rest with
  | nil =>
    rw [someDigits, bind_of_ok (bumpIf_not hp (by rw [hr]; rfl))]
    exact malformed_at hp
  | cons c cs =>
    cases hc : isDecimalDigit c with
    | true =>
      have hline := not_isLineTerminator_of_decimal hc
      have hrun : digitRun (c :: cs) = 1 + digitRun cs := by
        rw [digitRun, List.takeWhile_cons, if_pos hc, List.length_cons, Nat.add_comm]
        rfl
      have hcs : (p.advance 1).rest = cs := Place.rest_next hr
      rw [hrun, if_neg (by omega), Scan.settle, Place.advance_add (Place.cutsClean_next hr hline), someDigits,
        bind_of_ok (bumpIf_at hp hr hline hc), digitRun, ← hcs]
      exact bumpWhile_at (hp.advance 1) (fun _ => not_isLineTerminator_of_decimal)
    | false =>
      have hrun : digitRun (c :: cs) = 0 := by rw [digitRun, List.takeWhile_cons, if_neg (by simp [hc])]; rfl
      rw [hrun, if_pos rfl, someDigits, bind_of_ok (bumpIf_not hp (by rw [hr]; exact hc))]
      exact malformed_at hp

theorem sign_at (hp : p.Within source) : ∃ sign, bumpIf (fun c => c == '+' || c == '-') (p.cursor source b) =
    some (.ok sign, (p.advance (signWidth p.rest)).cursor source b) := by
  cases h : p.rest.head?.any (fun c => c == '+' || c == '-') with
  | false =>
    rw [signWidth, if_neg (by simp [h]), Place.advance_zero]
    exact ⟨_, bumpIf_not hp h⟩
  | true =>
    rw [signWidth, if_pos h]
    cases hr : p.rest with
    | nil => rw [hr] at h; cases h
    | cons c cs =>
      rw [hr] at h
      have hline : isLineTerminator c = false := by
        rcases (by simpa using h : c = '+' ∨ c = '-') with rfl | rfl <;> rfl
      exact ⟨_, bumpIf_at hp hr hline h⟩

theorem exponent_at (hp : p.Within source) :
    exponent (p.cursor source b) = (scanExponent p.rest).settle source b .illegalToken p := by
  cases hl : p.rest.head?.any (fun c => c == 'e' || c == 'E') with
  | false =>
    rw [scanExponent_eq_zero hl, exponent, bind_of_ok (bumpIf_not hp hl)]
    exact pure_at ()
  | true =>
    obtain ⟨e, cs, hrest, he⟩ : ∃ e cs, p.rest = e :: cs ∧ (e == 'e' || e == 'E') = true := by
      cases hr : p.rest with
      | nil => rw [hr] at hl; cases hl
      | cons e cs => rw [hr] at hl; exact ⟨e, cs, rfl, hl⟩
    have hline : isLineTerminator e = false := by
      rcases (by simpa using he : e = 'e' ∨ e = 'E') with rfl | rfl <;> rfl
    have hcs : (p.advance 1).rest = cs := Place.rest_next hrest
    have hcut : CutsClean p.rest (1 + signWidth cs) := by
      refine .of_lineFree (hasLineTerminator_take_add (by simp [hrest, hline]) ?_)
      rw [hrest]
      exact hasLineTerminator_take_signWidth cs
    have hstop : p.advance (1 + signWidth cs) = (p.advance 1).advance (signWidth cs) :=
      Place.advance_add (Place.cutsClean_next hrest hline) _
    have hdigits : (p.advance (1 + signWidth cs)).rest = cs.drop (signWidth cs) := by
      rw [hstop, Place.rest_advance, hcs]
    obtain ⟨sign, hsign⟩ := sign_at (b := b) (hp.advance 1)
    rw [hcs, ← hstop] at hsign
    have hsome := someDigits_at (b := b) (hp.advance (1 + signWidth cs))
    rw [hdigits, ← Scan.settle_after hcut] at hsome
    rw [exponent, bind_of_ok (bumpIf_at hp hrest hline he)]
    dsimp only
    rw [bind_of_ok hsign, hsome, hrest, scanExponent_letter he]
    split <;> rfl

/-- Every slice that is taken for a decimal is one that the conversion accepts. -/
theorem text_of_scanDecimalExtent (ho : opensNumeral cs = true)
    (hz : cs.head? = some '0' → cs.tail.head?.any isDecimalDigit = false) {n : Nat}
    (h : scanDecimalExtent cs = .read () n) : Decimal.Text (cs.take n) := by
  cases cs with
  | nil => cases ho
  | cons c cs =>
    obtain ⟨m, ds, k, rest, hcs, hm, hw, hr⟩ := exists_mantissa ho fun hc => hz (by rw [hc]; rfl)
    rw [hcs] at hw h ⊢
    rw [scanDecimalExtent, hw, List.drop_left] at h
    obtain ⟨j, hx, rfl⟩ := Scan.after_eq_read h
    obtain ⟨t, e, rest, rfl, ht, rfl, -⟩ := exists_exponent hx hr
    rw [← List.append_assoc, ← List.length_append, List.take_left]
    exact .of_mantissa hm ht

/-- A decimal numeral passes, as the conversion never fails on its text. -/
theorem decimal_at (hp : p.Within source) (ho : opensNumeral p.rest = true)
    (hz : p.rest.head? = some '0' → p.rest.tail.head?.any isDecimalDigit = false) :
    decimal (p.cursor source b) = (scanDecimal p.rest).settle source b .illegalToken p := by
  have hcut : CutsClean p.rest (mantissaWidth p.rest) := .of_lineFree (hasLineTerminator_take_mantissaWidth _)
  have hexponent := exponent_at (b := b) (hp.advance (mantissaWidth p.rest))
  rw [Place.rest_advance, ← Scan.settle_after hcut] at hexponent
  rw [decimal, bind_of_ok (index_apply _), bind_of_ok (mantissa_at hp), scanDecimal]
  cases hx : scanDecimalExtent p.rest with
  | malformed n =>
    rw [show (scanExponent _).after _ = _ from hx] at hexponent
    exact bind_of_error hexponent
  | read u n =>
    rw [show (scanExponent _).after _ = _ from hx] at hexponent
    have htext := text_of_scanDecimalExtent ho hz hx
    obtain ⟨d, hd⟩ := Option.isSome_iff_exists.1 (Decimal.isSome_ofText?_iff.2 htext)
    dsimp only
    rw [hd, Option.map_some, bind_of_ok hexponent]
    cases hw : (p.rest.drop n).head?.any opensWord with
    | true =>
      rw [close, if_pos hw]
      exact bind_of_error (numeralText_refused hp hw)
    | false =>
      rw [close, if_neg (by rw [hw]; exact Bool.false_ne_true)]
      refine (bind_of_ok (numeralText_at hp hw)).trans ?_
      rw [hd]
      rfl

theorem octal_at [WideConversion] (hp : p.Within source) {c : Char} (h : p.rest = '0' :: c :: cs) :
    octal (p.cursor source b) = ((scanOctal (c :: cs)).after 1).settle source b .illegalToken p := by
  have hq := hp.advance 1
  have hrest : (p.advance 1).rest = c :: cs := Place.rest_next h
  have hline : ∀ c, isOctalDigit c = true → isLineTerminator c = false :=
    fun _ hc => not_isLineTerminator_of_decimal (isDecimalDigit_of_octal hc)
  rw [octal, bind_of_ok (bump_at hp h rfl), Scan.settle_after (Place.cutsClean_next h rfl), ← hrest, scanOctal]
  refine (bind_of_ok (index_apply _)).trans ?_
  rw [bind_of_ok (bumpWhile_at hq hline), bind_of_ok (peek_at (hq.advance _)), Place.rest_advance]
  split
  · exact malformed_advance hq _
  · have hclose := close_at (b := b) hq ((p.advance 1).rest.takeWhile isOctalDigit).length
      fun digits => ⟨.ofNat (digitsValue 8 digits), true⟩
    rw [take_length_takeWhile] at hclose
    exact hclose

theorem hexadecimal_at [WideConversion] (hp : p.Within source) {x : Char} (hx : x = 'x' ∨ x = 'X')
    (h : p.rest = '0' :: x :: cs) :
    hexadecimal (p.cursor source b) = ((scanHexadecimal cs).after 2).settle source b .illegalToken p := by
  have hq := hp.advance 2
  have hrest : (p.advance 2).rest = cs := by rw [Place.rest_advance, h]; rfl
  have hopening : isPlain ['0', x] = true := by rcases hx with rfl | rfl <;> rfl
  have hskip : advanceAscii 2 (p.cursor source b) = some (.ok (), (p.advance 2).cursor source b) :=
    advanceAscii_at hp (w := ['0', x]) h hopening
  have hcut : CutsClean p.rest 2 := by
    refine .of_lineFree ?_
    rw [h, List.take_succ_cons, List.take_succ_cons, List.take_zero, hasLineTerminator_of_isPlain hopening]
  have hnil : ((p.advance 2).advance (cs.takeWhile isHexDigit).length).offset = (p.advance 2).offset ↔
      (cs.takeWhile isHexDigit).isEmpty = true := by
    rw [Place.offset_advance, hrest, take_length_takeWhile, List.isEmpty_iff]
    constructor
    · intro heq
      by_contra hne
      have := utf8Length_pos hne
      omega
    · intro heq
      rw [heq]
      rfl
  rw [hexadecimal, bind_of_ok hskip, Scan.settle_after hcut, scanHexadecimal]
  refine (bind_of_ok (index_apply _)).trans ?_
  rw [bind_of_ok (bumpWhile_at hq fun _ => not_isLineTerminator_of_hex), hrest]
  refine (bind_of_ok (index_apply _)).trans ?_
  by_cases hempty : (cs.takeWhile isHexDigit).isEmpty = true
  · rw [if_pos hempty]
    refine (congrFun (if_pos (beq_iff_eq.2 (hnil.2 hempty))) _).trans ?_
    rw [List.isEmpty_iff.1 hempty]
    exact malformed_advance hq 0
  · rw [if_neg hempty]
    refine (congrFun (if_neg fun heq => hempty (hnil.1 (beq_iff_eq.1 heq))) _).trans ?_
    have hclose := close_at (b := b) hq (cs.takeWhile isHexDigit).length
      fun digits => ⟨.ofNat (digitsValue 16 digits), false⟩
    rw [hrest, take_length_takeWhile] at hclose
    exact hclose

/-- A numeral passes wherever one begins. -/
theorem numeral_at [WideConversion] (hp : p.Within source) (ho : opensNumeral p.rest = true) :
    numeral (p.cursor source b) = (Numeral.scan p.rest).settle source b .illegalToken p := by
  -- the recogniser of decimals is asked where no zero with an `x` or a digit stands in front
  have plain : (p.rest.head? = some '0' → p.rest.tail.head?.any endsDecimalZero = false) →
      decimal (p.cursor source b) = (Numeral.scan p.rest).settle source b .illegalToken p := by
    intro hz
    have hdigit : p.rest.head? = some '0' → p.rest.tail.head?.any isDecimalDigit = false := by
      intro h
      cases ht : p.rest.tail with
      | nil => rfl
      | cons d ds =>
        have hd := hz h
        rw [ht] at hd
        exact (Bool.or_eq_false_iff.1 hd).2
    have hscan : Numeral.scan p.rest = scanDecimal p.rest := by
      cases hr : p.rest with
      | nil => rfl
      | cons c cs =>
        rw [hr] at hz
        exact scan_eq_scanDecimal fun hc => hz (by rw [hc]; rfl)
    rw [hscan]
    exact decimal_at hp ho hdigit
  rw [numeral, bind_of_ok (peek_at hp)]
  by_cases hz : p.rest.head? = some '0'
  · obtain ⟨cs, hr⟩ := List.head?_eq_some_iff.1 hz
    rw [if_pos (by simp [hz]), bind_of_ok (peekSecond_at hp), hr, List.tail_cons]
    cases cs with
    | nil =>
      rw [← hr]
      exact plain fun _ => by rw [hr]; rfl
    | cons c cs =>
      rw [List.head?_cons]
      dsimp only
      by_cases hx : (c == 'x' || c == 'X') = true
      · rw [if_pos hx, Numeral.scan, if_pos hx]
        exact hexadecimal_at hp (by simpa using hx) hr
      · by_cases hd : isDecimalDigit c = true
        · rw [if_neg hx, if_pos hd, Numeral.scan, if_neg hx, if_pos hd]
          exact octal_at hp hr
        · rw [if_neg hx, if_neg hd, ← hr]
          refine plain fun _ => ?_
          rw [hr]
          exact Bool.or_eq_false_iff.2 ⟨by simpa using hx, by simpa using hd⟩
  · rw [if_neg (by simpa using hz)]
    exact plain fun h => absurd h hz

end Parts

end Checked

end EcmaTokens
