/-
Numerals go over no line terminator, and how far a numeral goes depends on the next character alone:
behind the digits, the point and the exponent one look decides.
-/
import EcmaTokens.Lexeme.Progress
import EcmaTokens.Proofs.Source.Local

namespace EcmaTokens

namespace Numeral

/-! ## Exponents -/

/-- The width of the sign at the front of a text. -/
def signWidth (cs : List Char) : Nat :=
  if cs.head?.any (fun c => c == '+' || c == '-') then 1 else 0

theorem scanExponent_letter {e : Char} (he : (e == 'e' || e == 'E') = true) (cs : List Char) :
    scanExponent (e :: cs) =
      if digitRun (cs.drop (signWidth cs)) = 0 then .malformed (1 + signWidth cs)
      else .read () (1 + signWidth cs + digitRun (cs.drop (signWidth cs))) := by
  rw [scanExponent, if_pos he]
  rfl

/-- Without its letter there is no exponent. -/
theorem scanExponent_eq_zero {cs : List Char} (h : cs.head?.any (fun c => c == 'e' || c == 'E') = false) :
    scanExponent cs = .read () 0 := by
  cases cs with
  | nil => rfl
  | cons c cs =>
    have hc : (c == 'e' || c == 'E') = false := by simpa using h
    rw [scanExponent, hc]
    rfl

/-- Whether there is a sign depends on the first character alone. -/
theorem exists_sign (cs : List Char) :
    ∃ sign ds, cs = sign ++ ds ∧ signWidth cs = sign.length ∧
      ∀ us : List Char, us.head? = ds.head? → signWidth (sign ++ us) = sign.length := by
  by_cases h : cs.head?.any (fun c => c == '+' || c == '-') = true
  · cases cs with
    | nil => cases h
    | cons c cs => exact ⟨[c], cs, rfl, if_pos h, fun us _ => if_pos h⟩
  · refine ⟨[], cs, rfl, if_neg h, ?_⟩
    intro us hu
    rw [List.nil_append, signWidth, hu, if_neg h]
    rfl

/-! ## Lines -/

theorem width_close (cs : List Char) (n : Nat) (v : Option Numeral) : (close cs n v).width = n := by
  unfold close
  split
  · rfl
  · cases v <;> rfl

theorem hasLineTerminator_take_digitRun (cs : List Char) : hasLineTerminator (cs.take (digitRun cs)) = false := by
  rw [digitRun, take_length_takeWhile]
  exact hasLineTerminator_takeWhile (fun c => not_isLineTerminator_of_decimal) cs

theorem hasLineTerminator_take_mantissaWidth (cs : List Char) :
    hasLineTerminator (cs.take (mantissaWidth cs)) = false := by
  unfold mantissaWidth
  dsimp only
  split
  · next fraction h =>
    rw [Nat.add_assoc]
    apply hasLineTerminator_take_add (hasLineTerminator_take_digitRun cs)
    rw [h]
    apply hasLineTerminator_take_add (by simp; decide)
    exact hasLineTerminator_take_digitRun fraction
  · exact hasLineTerminator_take_digitRun cs

theorem hasLineTerminator_take_signWidth (cs : List Char) :
    hasLineTerminator (cs.take (signWidth cs)) = false := by
  unfold signWidth
  split
  · next h =>
    cases cs with
    | nil => cases h
    | cons c cs =>
      simp only [List.head?_cons, Option.any_some, Bool.or_eq_true, beq_iff_eq] at h
      rcases h with rfl | rfl
      · simp; decide
      · simp; decide
  · rfl

theorem hasLineTerminator_take_scanExponent (cs : List Char) :
    hasLineTerminator (cs.take (scanExponent cs).width) = false := by
  cases cs with
  | nil => rfl
  | cons e cs =>
    by_cases he : (e == 'e' || e == 'E') = true
    · have hc : isLineTerminator e = false := by
        simp only [Bool.or_eq_true, beq_iff_eq] at he
        rcases he with rfl | rfl <;> decide
      have hs : hasLineTerminator ((e :: cs).take (1 + signWidth cs)) = false :=
        hasLineTerminator_take_add (by simp [hc]) (hasLineTerminator_take_signWidth cs)
      rw [scanExponent_letter he]
      split
      · exact hs
      · apply hasLineTerminator_take_add hs
        rw [Nat.add_comm 1, List.drop_succ_cons]
        exact hasLineTerminator_take_digitRun _
    · rw [scanExponent, if_neg he]
      rfl

theorem hasLineTerminator_take_scanDecimal (cs : List Char) :
    hasLineTerminator (cs.take (scanDecimal cs).width) = false := by
  have hx : hasLineTerminator (cs.take (scanDecimalExtent cs).width) = false := by
    rw [scanDecimalExtent, Scan.width_after]
    exact hasLineTerminator_take_add (hasLineTerminator_take_mantissaWidth cs)
      (hasLineTerminator_take_scanExponent _)
  unfold scanDecimal
  split
  · next h => rw [h] at hx; exact hx
  · next h => rw [h] at hx; rw [width_close]; exact hx

theorem hasLineTerminator_take_digits {p : Char → Bool} (hp : ∀ c, p c = true → isHexDigit c = true)
    (cs : List Char) : hasLineTerminator (cs.take (cs.takeWhile p).length) = false := by
  rw [take_length_takeWhile]
  exact hasLineTerminator_takeWhile (fun c hc => not_isLineTerminator_of_hex (hp c hc)) cs

theorem hasLineTerminator_take_scan [WideConversion] (cs : List Char) :
    hasLineTerminator (cs.take (scan cs).width) = false := by
  unfold scan
  split
  · next c rest =>
    have h0 : isLineTerminator '0' = false := by decide
    split
    · next hx =>
      have hc : isLineTerminator c = false := by
        simp only [Bool.or_eq_true, beq_iff_eq] at hx
        rcases hx with rfl | rfl <;> decide
      rw [Scan.width_after]
      apply hasLineTerminator_take_add (by simp [h0, hc])
      unfold scanHexadecimal
      dsimp only
      split
      · rfl
      · rw [width_close]; exact hasLineTerminator_take_digits (fun c hc => hc) rest
    · split
      · have ho := hasLineTerminator_take_digits (p := isOctalDigit)
          (fun c hc => isHexDigit_of_decimal (isDecimalDigit_of_octal hc)) (c :: rest)
        rw [Scan.width_after]
        apply hasLineTerminator_take_add (by simp [h0])
        unfold scanOctal
        dsimp only
        split
        · exact ho
        · rw [width_close]; exact ho
      · exact hasLineTerminator_take_scanDecimal _
  · exact hasLineTerminator_take_scanDecimal cs

/-! ## The next character -/

theorem digitRun_append {front tail : List Char} (hf : ∀ c ∈ front, isDecimalDigit c = true)
    (ht : tail.head?.any isDecimalDigit = false) : digitRun (front ++ tail) = front.length := by
  rw [digitRun, takeWhile_append hf ht]

theorem takeWhile_decimal (cs : List Char) : ∀ c ∈ cs.takeWhile isDecimalDigit, isDecimalDigit c = true :=
  fun _ => List.mem_takeWhile_imp

theorem close_local {front rest tail : List Char} {v : Option Numeral} {x : Numeral}
    (h : close (front ++ rest) front.length v = .read x front.length) (ht : Replaces rest tail) :
    close (front ++ tail) front.length v = .read x front.length := by
  unfold close at h ⊢
  rw [List.drop_left] at h ⊢
  split at h
  · cases h
  · next hn =>
    rw [if_neg (by simpa using ht.head_not (fun c hc => hc.word) (by simpa using hn))]
    exact h

theorem mantissaWidth_point {ds : List Char} (hds : ∀ c ∈ ds, isDecimalDigit c = true) (fraction : List Char) :
    mantissaWidth (ds ++ '.' :: fraction) = ds.length + 1 + digitRun fraction := by
  unfold mantissaWidth
  dsimp only
  rw [digitRun_append hds (by simp; decide), List.drop_left]
  rfl

theorem mantissaWidth_plain {ds rest : List Char} (hds : ∀ c ∈ ds, isDecimalDigit c = true)
    (hr : rest.head?.any (fun c => c == '.' || isDecimalDigit c) = false) :
    mantissaWidth (ds ++ rest) = ds.length := by
  unfold mantissaWidth
  dsimp only
  cases rest with
  | nil => rw [digitRun_append hds rfl, List.drop_left]
  | cons c rest =>
    obtain ⟨hp, hd⟩ := Bool.or_eq_false_iff.1 (show (c == '.' || isDecimalDigit c) = false by simpa using hr)
    rw [digitRun_append hds (by simpa using hd), List.drop_left]
    split
    · next heq =>
      obtain ⟨rfl, -⟩ := List.cons.inj heq
      exact absurd hp (by decide)
    · rfl

/-- The digits of a mantissa and the point among them. -/
theorem mantissaWidth_local (cs : List Char) :
    ∃ front rest, cs = front ++ rest ∧ mantissaWidth cs = front.length ∧
      ∀ tail, Replaces rest tail → mantissaWidth (front ++ tail) = front.length := by
  obtain ⟨ds, rest, rfl, hds, hr⟩ : ∃ ds rest, cs = ds ++ rest ∧ (∀ c ∈ ds, isDecimalDigit c = true) ∧
      rest.head?.any isDecimalDigit = false :=
    ⟨_, _, (List.takeWhile_append_dropWhile (p := isDecimalDigit) (l := cs)).symm, takeWhile_decimal cs,
      head_dropWhile_any _ cs⟩
  by_cases hp : rest.head? = some '.'
  · obtain ⟨fraction, rfl⟩ := List.head?_eq_some_iff.1 hp
    refine ⟨ds ++ '.' :: fraction.takeWhile isDecimalDigit, fraction.dropWhile isDecimalDigit, by simp, ?_,
      fun tail ht => ?_⟩
    · rw [mantissaWidth_point hds]; simp [digitRun]; omega
    · have hd := ht.head_not (fun c hc => hc.decimal) (head_dropWhile_any isDecimalDigit fraction)
      rw [List.append_assoc, List.cons_append, mantissaWidth_point hds,
        digitRun_append (takeWhile_decimal fraction) hd]
      simp
      omega
  · have hr' : rest.head?.any (fun c => c == '.' || isDecimalDigit c) = false := by
      cases rest with
      | nil => rfl
      | cons c rest => simp_all
    refine ⟨ds, rest, rfl, mantissaWidth_plain hds hr', ?_⟩
    intro tail ht
    refine mantissaWidth_plain hds (ht.head_not (fun c hc => ?_) hr')
    have hp : c ≠ '.' := fun hp => absurd (hp ▸ hc.punctuator) (by decide)
    simp [hp, hc.decimal]

theorem not_exponentLetter_of_separates (c : Char) (h : Separates c) : (c == 'e' || c == 'E') = false := by
  have he : c ≠ 'e' := fun he => h.other (by simp [he])
  have hE : c ≠ 'E' := fun hE => h.other (by simp [hE])
  simp [he, hE]

theorem scanExponent_local {cs : List Char} {n : Nat} (h : scanExponent cs = .read () n) :
    Scan.Local scanExponent cs () n := by
  by_cases he : cs.head?.any (fun c => c == 'e' || c == 'E') = true
  · obtain ⟨e, cs, rfl⟩ : ∃ e ds, cs = e :: ds := by
      cases cs with
      | nil => cases he
      | cons e cs => exact ⟨e, cs, rfl⟩
    have he : (e == 'e' || e == 'E') = true := by simpa using he
    -- the sign is cut off first, so that the digits are one run
    obtain ⟨sign, ds, rfl, hs, hsign⟩ := exists_sign cs
    rw [scanExponent_letter he, hs, List.drop_left] at h
    split at h
    · cases h
    · next hn =>
      cases h
      have hne : ds.takeWhile isDecimalDigit ≠ [] := fun hnil => hn (by simp [digitRun, hnil])
      refine ⟨e :: (sign ++ ds.takeWhile isDecimalDigit), ds.dropWhile isDecimalDigit, by simp,
        by simp [digitRun]; omega, ?_⟩
      intro tail ht
      have hrun := ht.head_not (fun c hc => hc.decimal) (head_dropWhile_any isDecimalDigit ds)
      rw [List.cons_append, List.append_assoc, scanExponent_letter he, hsign _ (head?_takeWhile_append hne tail),
        List.drop_left, digitRun_append (takeWhile_decimal ds) hrun, if_neg (by simpa [digitRun] using hn)]
      rfl
  · have he : cs.head?.any (fun c => c == 'e' || c == 'E') = false := by simpa using he
    rw [scanExponent_eq_zero he] at h
    cases h
    refine ⟨[], cs, rfl, rfl, ?_⟩
    intro tail ht
    exact scanExponent_eq_zero (ht.head_not not_exponentLetter_of_separates he)

theorem scanDecimal_local {cs : List Char} {x : Numeral} {n : Nat} (h : scanDecimal cs = .read x n) :
    Scan.Local scanDecimal cs x n := by
  unfold scanDecimal at h
  split at h
  · cases h
  · next k hx =>
    obtain rfl : n = k := eq_of_close h
    obtain ⟨mantissa, rest, rfl, hm, hml⟩ := mantissaWidth_local cs
    rw [scanDecimalExtent, hm, List.drop_left] at hx
    obtain ⟨k, he, rfl⟩ := Scan.after_eq_read hx
    obtain ⟨exponent, rest, rfl, rfl, hel⟩ := scanExponent_local he
    refine ⟨mantissa ++ exponent, rest, (List.append_assoc _ _ _).symm, by simp, ?_⟩
    intro tail ht
    have hx' : scanDecimalExtent (mantissa ++ (exponent ++ tail)) =
        .read () (mantissa.length + exponent.length) := by
      rw [scanDecimalExtent, hml _ (ht.append exponent), List.drop_left, hel tail ht]
      rfl
    rw [scanDecimal, List.append_assoc, hx']
    dsimp only
    rw [← List.length_append, ← List.append_assoc, List.take_left] at h ⊢
    exact close_local h ht

/-- Digits of a class, closed behind them. -/
theorem close_digits_local {p : Char → Bool} (hp : ∀ c, Separates c → p c = false) {cs : List Char}
    {v : Option Numeral} {x : Numeral} {n : Nat} (h : close cs (cs.takeWhile p).length v = .read x n) :
    n = (cs.takeWhile p).length ∧ ∀ tail, Replaces (cs.dropWhile p) tail →
      (cs.takeWhile p ++ tail).takeWhile p = cs.takeWhile p ∧
      close (cs.takeWhile p ++ tail) (cs.takeWhile p).length v = .read x n := by
  obtain rfl := eq_of_close h
  refine ⟨rfl, fun tail ht => ⟨?_, ?_⟩⟩
  · exact takeWhile_append (fun c => List.mem_takeWhile_imp) (ht.head_not hp (head_dropWhile_any p cs))
  · have hcs : close (cs.takeWhile p ++ cs.dropWhile p) (cs.takeWhile p).length v =
        .read x (cs.takeWhile p).length := by
      rwa [List.takeWhile_append_dropWhile]
    exact close_local hcs ht

theorem scanHexadecimal_local [WideConversion] {cs : List Char} {x : Numeral} {n : Nat}
    (h : scanHexadecimal cs = .read x n) : Scan.Local scanHexadecimal cs x n := by
  unfold scanHexadecimal at h
  dsimp only at h
  split at h
  · cases h
  · next hne =>
    obtain ⟨rfl, hl⟩ := close_digits_local (fun c hc => hc.hex) h
    refine ⟨_, _, List.takeWhile_append_dropWhile.symm, rfl, ?_⟩
    intro tail ht
    obtain ⟨hrun, hclose⟩ := hl tail ht
    rw [scanHexadecimal, hrun, if_neg hne]
    exact hclose

theorem scanOctal_local [WideConversion] {cs : List Char} {x : Numeral} {n : Nat} (h : scanOctal cs = .read x n) :
    Scan.Local scanOctal cs x n := by
  unfold scanOctal at h
  dsimp only at h
  split at h
  · cases h
  · next hd =>
    rw [drop_length_takeWhile] at hd
    obtain ⟨rfl, hl⟩ := close_digits_local (fun c hc => hc.octal) h
    refine ⟨_, _, List.takeWhile_append_dropWhile.symm, rfl, ?_⟩
    intro tail ht
    obtain ⟨hrun, hclose⟩ := hl tail ht
    have hd' := ht.head_not (fun c hc => hc.decimal) (by simpa using hd)
    rw [scanOctal, hrun, List.drop_left, if_neg (by simp [hd'])]
    exact hclose

theorem scanOctal_pos [WideConversion] {d : Char} {cs : List Char} {x : Numeral} {n : Nat}
    (hd : isDecimalDigit d = true) (h : scanOctal (d :: cs) = .read x n) : 0 < n := by
  unfold scanOctal at h
  dsimp only at h
  split at h
  · cases h
  · next hn =>
    obtain rfl := eq_of_close h
    rw [List.takeWhile_cons] at hn ⊢
    split
    · simp
    · next ho => rw [if_neg ho] at hn; simp [hd] at hn

/-- Numerals begin with a digit, or with a point in front of a digit. -/
def opensNumeral : List Char → Bool
  | [] => false
  | c :: cs => isDecimalDigit c || c == '.' && cs.head?.any isDecimalDigit

/-- The character makes a hexadecimal or octal numeral of a zero in front of it. -/
def endsDecimalZero (c : Char) : Bool :=
  c == 'x' || c == 'X' || isDecimalDigit c

theorem endsDecimalZero_of_separates (c : Char) (h : Separates c) : endsDecimalZero c = false := by
  have hx : c ≠ 'x' := fun hx => h.other (by simp [hx])
  have hX : c ≠ 'X' := fun hX => h.other (by simp [hX])
  simp [endsDecimalZero, hx, hX, h.decimal]

theorem scan_eq_scanDecimal [WideConversion] {c : Char} {cs : List Char}
    (h : c = '0' → cs.head?.any endsDecimalZero = false) : scan (c :: cs) = scanDecimal (c :: cs) := by
  unfold scan
  split
  · next d rest heq =>
    obtain ⟨rfl, rfl⟩ := List.cons.inj heq
    have hd := h rfl
    simp only [List.head?_cons, Option.any_some, endsDecimalZero, Bool.or_eq_false_iff] at hd
    simp only [hd, Bool.or_self, Bool.false_eq_true, if_false]
  · rfl

theorem scan_local [WideConversion] {c : Char} {cs : List Char} {x : Numeral} {n : Nat}
    (hc : c = '.' ∨ isDecimalDigit c = true) (h : scan (c :: cs) = .read x n) : Scan.Local scan (c :: cs) x n := by
  by_cases hz : c = '0' → cs.head?.any endsDecimalZero = false
  · rw [scan_eq_scanDecimal hz] at h
    have hpos := scanDecimal_pos hc h
    apply (scanDecimal_local h).of_dispatch (k := id) hpos
    intro ds hds _
    -- behind a zero the next character is still none that makes another numeral of it
    rw [scan_eq_scanDecimal fun h0 => hds.head_not endsDecimalZero_of_separates (hz h0), Scan.map_id]
  · obtain ⟨rfl, hd⟩ := Classical.not_imp.1 hz
    cases cs with
    | nil => exact absurd rfl hd
    | cons d rest =>
      have hd : endsDecimalZero d = true := by simpa using hd
      by_cases hx : (d == 'x' || d == 'X') = true
      · rw [scan, if_pos hx] at h
        obtain ⟨k, hs, rfl⟩ := Scan.after_eq_read h
        obtain ⟨front, rest, rfl, rfl, hl⟩ := scanHexadecimal_local hs
        refine ⟨'0' :: d :: front, rest, rfl, by simp; omega, ?_⟩
        intro tail ht
        rw [List.cons_append, List.cons_append, scan, if_pos hx, hl tail ht]
        rfl
      · have hdigit := (Bool.or_eq_true_iff.1 hd).resolve_left hx
        rw [scan, if_neg hx, if_pos hdigit] at h
        obtain ⟨k, hs, rfl⟩ := Scan.after_eq_read h
        have hpos := scanOctal_pos hdigit hs
        obtain ⟨front, rest', rfl, rfl, hl⟩ := (scanOctal_local hs).cons hpos
        refine ⟨'0' :: d :: front, rest', rfl, by simp; omega, ?_⟩
        intro tail ht
        rw [List.cons_append, List.cons_append, scan, if_neg hx, if_pos hdigit, hl tail ht]
        rfl

/-- Behind a point there are digits. -/
theorem two_le_of_scan_point [WideConversion] {d : Char} {cs : List Char} {x : Numeral} {n : Nat}
    (hd : isDecimalDigit d = true) (h : scan ('.' :: d :: cs) = .read x n) : 2 ≤ n := by
  rw [scan_eq_scanDecimal fun h0 => absurd h0 (by decide)] at h
  unfold scanDecimal at h
  split at h
  · cases h
  · next k hx =>
    obtain rfl : n = k := eq_of_close h
    have hm : mantissaWidth ('.' :: d :: cs) = 0 + 1 + digitRun (d :: cs) :=
      @mantissaWidth_point [] (by simp) (d :: cs)
    have hrun : 0 < digitRun (d :: cs) := by simp [digitRun, hd]
    have := Scan.le_of_after hx
    omega

end Numeral

end EcmaTokens
