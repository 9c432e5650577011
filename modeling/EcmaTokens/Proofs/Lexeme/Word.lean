/-
Words go over no line terminator, and how far a word goes depends on the next character alone.
Reading a word as one run where it has no escapes makes no difference, so the reading that decodes
escapes speaks for both.
-/
import EcmaTokens.Lexeme.Progress
import EcmaTokens.Proofs.Source.Local

namespace EcmaTokens

namespace Word

/-! ## Lines -/

theorem hasLineTerminator_take_scanSpelled (first : Bool) (cs : List Char) :
    hasLineTerminator (cs.take (scanSpelled first cs).width) = false := by
  have hu : isLineTerminator 'u' = false := by decide
  have hb : isLineTerminator '\\' = false := by decide
  fun_induction scanSpelled first cs with
  | case1 => rfl
  | case2 first a b c d cs h => simp [Scan.width, hu, hb]
  | case3 first a b c d cs code h h' =>
    obtain ⟨ha, hb', hc, hd⟩ := isHexDigit_of_hexQuad? h
    simp [Scan.width, hu, hb, not_isLineTerminator_of_hex, ha, hb', hc, hd]
  | case4 first a b c d cs code h ch h' ih =>
    obtain ⟨ha, hb', hc, hd⟩ := isHexDigit_of_hexQuad? h
    rw [Scan.width_after, Scan.width_map]
    refine hasLineTerminator_take_add ?_ ih
    simp [hu, hb, not_isLineTerminator_of_hex, ha, hb', hc, hd]
  | case5 first cs h => simp [Scan.width, hu, hb]
  | case6 first cs h => simp [Scan.width, hb]
  | case7 first c cs h₁ h₂ h₃ h ih =>
    have hc : isIdentifierPart c = true := by
      cases first with
      | true => exact isIdentifierPart_of_start (by simpa [allows] using h)
      | false => simpa [allows] using h
    rw [Scan.width_after, Scan.width_map]
    exact hasLineTerminator_take_add (by simp [not_isLineTerminator_of_part hc]) ih
  | case8 => rfl

theorem hasLineTerminator_take_scan {c : Char} (hc : opensWord c = true) (cs : List Char) :
    hasLineTerminator ((c :: cs).take (scan (c :: cs)).width) = false := by
  unfold scan
  dsimp only
  split
  · exact hasLineTerminator_take_scanSpelled true (c :: cs)
  · next hb =>
    have hs := isIdentifierStart_of_opensWord hc (by simpa using hb)
    split
    · exact hasLineTerminator_take_scanSpelled true (c :: cs)
    · refine hasLineTerminator_take_add ?_ ?_
      · simp [not_isLineTerminator_of_part (isIdentifierPart_of_start hs)]
      · rw [List.drop_succ_cons, List.drop_zero, take_length_takeWhile]
        exact hasLineTerminator_takeWhile (fun c => not_isLineTerminator_of_part) cs

/-! ## The next character -/

theorem allows_of_separates {first : Bool} {c : Char} (h : Separates c) : allows first c = false := by
  cases first with
  | false => exact h.part
  | true =>
    by_contra hs
    have := isIdentifierPart_of_start (c := c) (by simpa [allows] using hs)
    rw [h.part] at this
    cases this

theorem scanSpelled_cons {first : Bool} {c : Char} (hb : c ≠ '\\') (cs : List Char) :
    scanSpelled first (c :: cs) =
      if allows first c then ((scanSpelled false cs).map (c :: ·)).after 1 else .read [] 0 := by
  rw [scanSpelled] <;> simp_all

/-- A word ends in front of what it cannot contain. -/
theorem scanSpelled_eq_nil {first : Bool} {cs : List Char}
    (h : cs.head?.any (fun c => c == '\\' || allows first c) = false) : scanSpelled first cs = .read [] 0 := by
  cases cs with
  | nil => rfl
  | cons c cs =>
    obtain ⟨hb, ha⟩ := Bool.or_eq_false_iff.1 (show (c == '\\' || allows first c) = false by simpa using h)
    rw [scanSpelled_cons (by simpa using hb), ha]
    rfl

theorem scanSpelled_local {first : Bool} {cs : List Char} {w : List Char} {n : Nat}
    (h : scanSpelled first cs = .read w n) : Scan.Local (scanSpelled first) cs w n := by
  -- where the word ends, it ends in front of any tail that can follow
  have stop : ∀ {first : Bool} {cs tail : List Char}, Replaces cs tail →
      cs.head?.any (fun c => c == '\\' || allows first c) = false → scanSpelled first tail = .read [] 0 := by
    intro first cs tail ht hcs
    refine scanSpelled_eq_nil (ht.head_not (fun c hc => ?_) hcs)
    have hb : c ≠ '\\' := fun hb => hc.other (by simp [hb])
    simp [hb, allows_of_separates hc]
  fun_induction scanSpelled first cs generalizing w n with
  | case1 first => cases h; exact ⟨[], [], rfl, rfl, fun tail ht => stop ht rfl⟩
  | case2 => cases h
  | case3 => cases h
  | case4 first a b c d cs code hq ch he ih =>
    obtain ⟨m, hm, rfl⟩ := Scan.after_eq_read h
    obtain ⟨w', hs, rfl⟩ := Scan.map_eq_read hm
    obtain ⟨front, rest, rfl, rfl, hl⟩ := ih hs
    refine ⟨'\\' :: 'u' :: a :: b :: c :: d :: front, rest, rfl, by simp; omega, ?_⟩
    intro tail ht
    simp only [List.cons_append, scanSpelled, hq, he, hl tail ht, Scan.map, Scan.after]
  | case5 => cases h
  | case6 => cases h
  | case7 first c cs h₁ h₂ h₃ hc ih =>
    have hb : c ≠ '\\' := h₃
    obtain ⟨m, hm, rfl⟩ := Scan.after_eq_read h
    obtain ⟨w', hs, rfl⟩ := Scan.map_eq_read hm
    obtain ⟨front, rest, rfl, rfl, hl⟩ := ih hs
    refine ⟨c :: front, rest, rfl, by simp; omega, ?_⟩
    intro tail ht
    rw [List.cons_append, scanSpelled_cons hb, if_pos hc, hl tail ht]
    rfl
  | case8 first c cs h₁ h₂ h₃ hc =>
    cases h
    have hb : c ≠ '\\' := h₃
    refine ⟨[], c :: cs, rfl, rfl, fun tail ht => stop ht ?_⟩
    simpa [hb] using hc

/-- Identifier characters without escapes are read one by one. -/
theorem scanSpelled_run {run : List Char} (hrun : ∀ c ∈ run, isIdentifierPart c = true) (cs : List Char) :
    scanSpelled false (run ++ cs) = ((scanSpelled false cs).map (run ++ ·)).after run.length := by
  induction run with
  | nil => cases hs : scanSpelled false cs <;> simp [hs, Scan.map, Scan.after]
  | cons c run ih =>
    have hc := hrun c (by simp)
    have hb : c ≠ '\\' := by rintro rfl; exact absurd hc (by decide)
    rw [List.cons_append, scanSpelled_cons hb, if_pos (by simpa [allows] using hc),
      ih fun d hd => hrun d (List.mem_cons_of_mem c hd)]
    cases scanSpelled false cs <;> simp [Scan.map, Scan.after] <;> omega

/-- Reading a word as one run where there are no escapes makes no difference. -/
theorem scan_eq_scanSpelled {c : Char} (hc : opensWord c = true) (cs : List Char) :
    scan (c :: cs) = scanSpelled true (c :: cs) := by
  unfold scan
  dsimp only
  split
  · rfl
  · next hb =>
    have hb : c ≠ '\\' := by simpa using hb
    split
    · rfl
    · next hn =>
      -- the first character is read by either, and behind the run the word ends
      rw [scanSpelled_cons hb, if_pos (by simpa [allows] using isIdentifierStart_of_opensWord hc hb)]
      rw [drop_length_takeWhile] at hn
      conv_rhs => rw [← List.takeWhile_append_dropWhile (p := isIdentifierPart) (l := cs)]
      rw [scanSpelled_run fun d hd => List.mem_takeWhile_imp hd, scanSpelled_eq_nil]
      · simp [Scan.map, Scan.after]
      · cases hd : cs.dropWhile isIdentifierPart with
        | nil => rfl
        | cons d ds =>
          have hb : d ≠ '\\' := by rintro rfl; exact hn (by rw [hd]; rfl)
          simpa [hb, allows] using head_dropWhile hd

theorem scan_local {c : Char} {cs w : List Char} {n : Nat} (hc : opensWord c = true)
    (h : scan (c :: cs) = .read w n) : Scan.Local scan (c :: cs) w n := by
  rw [scan_eq_scanSpelled hc] at h
  have hpos := scanSpelled_pos (by
    by_cases hb : c = '\\'
    · exact .inr hb
    · exact .inl (by simpa [allows] using isIdentifierStart_of_opensWord hc hb)) h
  apply (scanSpelled_local h).of_dispatch (k := id) hpos
  intro ds _ _
  rw [scan_eq_scanSpelled hc, Scan.map_id]

end Word

end EcmaTokens
