/-
String literals end at their quote, whatever follows, and go over a line terminator only as a whole:
what an escape means is settled in front of the next quote.
-/
import EcmaTokens.Lexeme.Quoted
import EcmaTokens.Proofs.Lexeme.Trivia
import EcmaTokens.Proofs.Source.Local

namespace EcmaTokens

namespace Quoted

/-! ## Lines -/

theorem octalDigits_eq_take (c : Char) (cs : List Char) :
    (c :: cs).take (octalDigits c cs).length = octalDigits c cs := by
  have : octalDigits c cs <+: c :: cs := (List.takeWhile_prefix _).trans (List.take_prefix _ _)
  exact (List.prefix_iff_eq_take.1 this).symm

theorem hasLineTerminator_take_of_unitCode? {cs : List Char} {n : Nat} (h : unitCode? cs = some n) :
    hasLineTerminator (cs.take 4) = false := by
  unfold unitCode? at h
  split at h
  · obtain ⟨h₁, h₂, h₃, h₄⟩ := isHexDigit_of_hexQuad? h
    simp [not_isLineTerminator_of_hex, h₁, h₂, h₃, h₄]
  · cases h

theorem hasLineTerminator_take_of_byteChar? {cs : List Char} {c : Char} (h : byteChar? cs = some c) :
    hasLineTerminator (cs.take 2) = false := by
  unfold byteChar? at h
  split at h
  · simp only [Option.bind_eq_bind, Option.bind_eq_some_iff] at h
    obtain ⟨_, h₁, _, h₂, _⟩ := h
    simp [not_isLineTerminator_of_hex, isHexDigit, h₁, h₂]
  · cases h

theorem hasLineTerminator_octalDigits (c : Char) (cs : List Char) : hasLineTerminator (octalDigits c cs) = false :=
  hasLineTerminator_takeWhile (fun _ hc => not_isLineTerminator_of_decimal (isDecimalDigit_of_octal hc)) _

/-- What follows a backslash is a line terminator as a whole, or contains none. -/
theorem cutsClean_escape? {cs : List Char} {piece : Piece} {n : Nat} (h : escape? cs = some (piece, n)) :
    CutsClean cs n := by
  cases cs with
  | nil => cases h
  | cons c cs =>
    rw [escape?] at h
    split at h
    · next hc => cases h; exact (Gap.lineEnd_terminatorWidth cs hc).seam
    · next hc =>
      have one : hasLineTerminator ((c :: cs).take 1) = false := by simpa using hc
      apply CutsClean.of_lineFree
      split at h
      · cases h
        rw [octalDigits_eq_take]
        exact hasLineTerminator_octalDigits c cs
      · split at h
        · split at h
          · next hu =>
            cases h
            exact hasLineTerminator_take_add one (hasLineTerminator_take_of_unitCode? hu)
          · cases h; exact one
        · split at h
          · split at h
            · next hu =>
              cases h
              exact hasLineTerminator_take_add one (hasLineTerminator_take_of_byteChar? hu)
            · cases h; exact one
          · cases h; exact one

theorem cutsClean_scanPieces (quote : Char) (cs : List Char) (hq : isLineTerminator quote = false) :
    CutsClean cs (scanPieces quote cs).width := by
  fun_induction scanPieces quote cs with
  | case1 => exact .zero _
  | case2 c cs h =>
    obtain rfl : c = quote := by simpa using h
    exact .of_lineFree (by simp [Scan.width, hq])
  | case3 => exact .zero _
  | case4 c cs h hl hb he => exact .of_lineFree (by simp [Scan.width, hl])
  | case5 c cs h hl hb piece n he ih =>
    rw [Scan.width_after, Scan.width_map]
    -- a continued line is the one way over a line terminator, and the escape takes it as a whole
    have hn : CutsClean (c :: cs) (1 + n) := (cutsClean_escape? he).cons (by rintro rfl; exact hl (by decide))
    apply hn.add
    rw [Nat.add_comm 1, List.drop_succ_cons]
    exact ih
  | case6 c cs h hl hb ih =>
    rw [Scan.width_after, Scan.width_map]
    exact ih.cons (by rintro rfl; exact hl (by decide))

/-! ## Quotes -/

/-- A quote is no digit of any base and no line terminator, so no escape goes over it. -/
structure IsQuote (q : Char) : Prop where
  hex : hexValue? q = none
  octal : isOctalDigit q = false
  terminator : isLineTerminator q = false

theorem isQuote_of_eq {q : Char} (h : (q == '"' || q == '\'') = true) : IsQuote q := by
  simp only [Bool.or_eq_true, beq_iff_eq] at h
  rcases h with rfl | rfl <;> exact ⟨by decide, by decide, by decide⟩

section Quote

variable {quote : Char} (hq : IsQuote quote)
include hq

theorem unitCode?_quote (cs r r' : List Char) : unitCode? (cs ++ quote :: r) = unitCode? (cs ++ quote :: r') := by
  -- among the first four characters a quote is one digit too few
  have short : ∀ r, cs.length < 4 → unitCode? (cs ++ quote :: r) = none := by
    intro r hlen
    unfold unitCode?
    split
    · next a b c d ds heq =>
      have hmem : quote ∈ (cs ++ quote :: r).take 4 := by
        obtain ⟨k, hk⟩ : ∃ k, 4 - cs.length = k + 1 := ⟨3 - cs.length, by omega⟩
        simp [List.take_append, hk]
      rw [heq] at hmem
      cases hn : hexQuad? a b c d with
      | none => rfl
      | some n =>
        obtain ⟨ha, hb, hc, hd⟩ := isHexDigit_of_hexQuad? hn
        have hx : isHexDigit quote = false := by simp [isHexDigit, hq.hex]
        simp only [List.take_succ_cons, List.take_zero, List.mem_cons, List.not_mem_nil, or_false] at hmem
        grind
    · rfl
  rcases Nat.lt_or_ge cs.length 4 with hlen | hlen
  · rw [short r hlen, short r' hlen]
  · -- in front of the quote are all four digits
    rcases cs with _ | ⟨a, _ | ⟨b, _ | ⟨c, _ | ⟨d, cs⟩⟩⟩⟩
    case cons.cons.cons.cons => rfl
    all_goals simp at hlen

theorem byteChar?_quote (cs r r' : List Char) : byteChar? (cs ++ quote :: r) = byteChar? (cs ++ quote :: r') := by
  rcases cs with _ | ⟨a, _ | ⟨b, cs⟩⟩
  · cases r <;> cases r' <;> simp [byteChar?, hq.hex]
  · simp [byteChar?, hq.hex]
  · rfl

theorem octalDigits_quote (c : Char) (cs r r' : List Char) :
    octalDigits c (cs ++ quote :: r) = octalDigits c (cs ++ quote :: r') := by
  have run : ∀ (k : Nat) (cs : List Char),
      ((cs ++ quote :: r).take k).takeWhile isOctalDigit = ((cs ++ quote :: r').take k).takeWhile isOctalDigit := by
    intro k cs
    induction cs generalizing k with
    | nil => cases k <;> simp [hq.octal]
    | cons c cs ih =>
      cases k with
      | zero => rfl
      | succ k => simp only [List.cons_append, List.take_succ_cons, List.takeWhile_cons, ih k]
  exact run _ (c :: cs)

theorem terminatorWidth_quote (c : Char) (cs r r' : List Char) :
    terminatorWidth (c :: (cs ++ quote :: r)) = terminatorWidth (c :: (cs ++ quote :: r')) := by
  cases cs with
  | nil =>
    have hn : quote ≠ '\n' := by rintro rfl; exact absurd hq.terminator (by decide)
    rw [terminatorWidth_cons fun _ => by simpa using hn, terminatorWidth_cons fun _ => by simpa using hn]
  | cons d cs =>
    by_cases hcd : c = '\r' ∧ d = '\n'
    · obtain ⟨rfl, rfl⟩ := hcd; rfl
    · have hd : c = '\r' → d ≠ '\n' := fun hc hd => hcd ⟨hc, hd⟩
      rw [terminatorWidth_cons (by simpa using hd), terminatorWidth_cons (by simpa using hd)]

/-- What an escape means is settled in front of the next quote. -/
theorem escape?_quote (c : Char) (cs r r' : List Char) :
    escape? (c :: (cs ++ quote :: r)) = escape? (c :: (cs ++ quote :: r')) := by
  rw [escape?, escape?, terminatorWidth_quote hq c cs r r', octalDigits_quote hq c cs r r',
    unitCode?_quote hq cs r r', byteChar?_quote hq cs r r']

end Quote

theorem escape?_width {cs : List Char} {piece : Piece} {n : Nat} (h : escape? cs = some (piece, n)) :
    0 < n ∧ n ≤ cs.length := by
  cases cs with
  | nil => cases h
  | cons c cs =>
    have hlen : (c :: cs).length = cs.length + 1 := rfl
    rw [escape?] at h
    split at h
    · next hc =>
      cases h
      refine ⟨terminatorWidth_pos hc, ?_⟩
      by_cases hp : c = '\r' → cs.head? ≠ some '\n'
      · rw [terminatorWidth_cons hp, if_pos hc]; omega
      · obtain ⟨rfl, hn⟩ := Classical.not_imp.1 hp
        obtain ⟨ds, rfl⟩ := List.head?_eq_some_iff.1 (Classical.not_not.1 hn)
        simp [terminatorWidth]
    · split at h
      · next ho =>
        cases h
        rw [octalDigits]
        refine ⟨by split <;> simp [ho], ?_⟩
        exact ((List.takeWhile_prefix _).trans (List.take_prefix _ _)).length_le
      · split at h
        · split at h
          · next hu =>
            cases h
            unfold unitCode? at hu
            split at hu
            · simp
            · cases hu
          · cases h; simp
        · split at h
          · split at h
            · next hu =>
              cases h
              unfold byteChar? at hu
              split at hu
              · simp
              · cases hu
            · cases h; simp
          · cases h; simp

/-- A literal ends at its quote, whatever follows. -/
theorem scanPieces_local {quote : Char} (hq : IsQuote quote) {cs : List Char} {ps : List Piece} {n : Nat}
    (h : scanPieces quote cs = .read ps n) : ∃ front rest, cs = front ++ quote :: rest ∧ n = front.length + 1 ∧
      ∀ tail, scanPieces quote (front ++ quote :: tail) = .read ps n := by
  fun_induction scanPieces quote cs generalizing ps n with
  | case1 => cases h
  | case2 c cs hc =>
    cases h
    obtain rfl : c = quote := by simpa using hc
    exact ⟨[], cs, rfl, rfl, fun tail => by rw [List.nil_append, scanPieces, if_pos hc]⟩
  | case3 => cases h
  | case4 => cases h
  | case5 c cs hc hl hb piece k he ih =>
    obtain ⟨m, hm, rfl⟩ := Scan.after_eq_read h
    obtain ⟨ps', hs, rfl⟩ := Scan.map_eq_read hm
    obtain ⟨hpos, hle⟩ := escape?_width he
    obtain ⟨front, rest, hd, rfl, hf⟩ := ih hs
    have hcs : cs = cs.take k ++ (front ++ quote :: rest) := by rw [← hd, List.take_append_drop]
    have hk : (cs.take k).length = k := by rw [List.length_take]; omega
    refine ⟨c :: (cs.take k ++ front), rest, ?_, by simp [hk]; omega, fun tail => ?_⟩
    · rw [List.cons_append, List.append_assoc, ← hcs]
    · -- the escape is a part of the literal, so it is read again
      have he' : escape? (cs.take k ++ (front ++ quote :: tail)) = some (piece, k) := by
        cases ht : cs.take k with
        | nil => rw [ht] at hk; simp at hk; omega
        | cons d ds =>
          rw [hcs, ht] at he
          rw [← he, List.cons_append, List.cons_append, ← List.append_assoc, ← List.append_assoc]
          exact escape?_quote hq d (ds ++ front) tail rest
      rw [List.cons_append, List.append_assoc, scanPieces, if_neg hc, if_neg hl, if_pos hb, he']
      dsimp only
      rw [List.drop_left' hk, hf tail]
      rfl
  | case6 c cs hc hl hb ih =>
    obtain ⟨m, hm, rfl⟩ := Scan.after_eq_read h
    obtain ⟨ps', hs, rfl⟩ := Scan.map_eq_read hm
    obtain ⟨front, rest, rfl, rfl, hf⟩ := ih hs
    refine ⟨c :: front, rest, rfl, by simp; omega, ?_⟩
    intro tail
    rw [List.cons_append, scanPieces, if_neg hc, if_neg hl, if_neg hb, hf tail]
    rfl

theorem scan_local {c : Char} (hc : IsQuote c) {cs : List Char} {x : Quoted} {n : Nat}
    (h : scan (c :: cs) = .read x n) : Scan.Local scan (c :: cs) x n := by
  rw [scan] at h
  obtain ⟨m, hm, rfl⟩ := Scan.after_eq_read h
  obtain ⟨ps, hs, rfl⟩ := Scan.map_eq_read hm
  obtain ⟨front, rest, rfl, rfl, hf⟩ := scanPieces_local hc hs
  refine ⟨c :: (front ++ [c]), rest, by simp, by simp; omega, ?_⟩
  intro tail _
  rw [List.cons_append, List.append_assoc, scan, List.singleton_append, hf tail]
  rfl

end Quoted

end EcmaTokens
