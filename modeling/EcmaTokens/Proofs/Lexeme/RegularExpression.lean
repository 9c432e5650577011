/-
Regular expression literals go over no line terminator and over at least their opening slash, and a
malformed one over the whole punctuator in whose place it is read.
-/
import EcmaTokens.Lexeme.RegularExpression
import EcmaTokens.Proofs.Source.Text

namespace EcmaTokens

namespace RegularExpression

theorem hasLineTerminator_take_scanBody (inClass : Bool) (cs : List Char) :
    hasLineTerminator (cs.take (scanBody inClass cs).width) = false := by
  fun_induction scanBody inClass cs with
  | case1 => rfl
  | case2 => rfl
  | case3 inClass c h hb => simp [Scan.width, h]
  | case4 inClass c h hb d ds hd => simp [Scan.width, h]
  | case5 inClass c h hb d ds hd ih =>
    rw [Scan.width_after]
    exact hasLineTerminator_take_add (by simp [h, hd]) ih
  | case6 inClass c cs h hb hc ih => rw [Scan.width_after]; exact hasLineTerminator_take_add (by simp [h]) ih
  | case7 inClass c cs h hb hc hc' ih => rw [Scan.width_after]; exact hasLineTerminator_take_add (by simp [h]) ih
  | case8 inClass c cs h => simp [Scan.width, h]
  | case9 inClass c cs h hb hc hc' hs ih =>
    rw [Scan.width_after]; exact hasLineTerminator_take_add (by simp [h]) ih

theorem hasLineTerminator_take_scan {c : Char} (hc : isLineTerminator c = false) (cs : List Char) :
    hasLineTerminator ((c :: cs).take (scan (c :: cs)).width) = false := by
  have hb := hasLineTerminator_take_scanBody false cs
  have h1 : hasLineTerminator ((c :: cs).take 1) = false := by simp [hc]
  unfold scan
  dsimp only
  split
  · next h =>
    rw [h] at hb
    exact hasLineTerminator_take_add h1 hb
  · next n h =>
    rw [h] at hb
    refine hasLineTerminator_take_add (hasLineTerminator_take_add h1 hb) ?_
    rw [Nat.add_comm 1, List.drop_succ_cons, flagsWidth, take_length_takeWhile]
    refine hasLineTerminator_takeWhile (fun c hc => ?_) _
    rcases Bool.or_eq_true_iff.1 hc with hc | hc
    · obtain rfl : c = '\\' := by simpa using hc
      decide
    · exact not_isLineTerminator_of_part hc

theorem scan_pos {cs : List Char} {n : Nat} (h : scan cs = .read () n) : 0 < n := by
  unfold scan at h
  split at h
  · cases h
  · split at h <;> cases h
    omega

/-- A literal that is malformed is so behind the slash, with its equality sign, at which it begins. -/
theorem length_le_of_malformed {slash cs : List Char} {n : Nat}
    (hs : slash = ['/'] ∨ slash = ['/', '=']) (h : scan (slash ++ cs) = .malformed n) : slash.length ≤ n := by
  have hn : ∀ {ds : List Char}, scan ('/' :: ds) = .malformed n →
      ∃ k, scanBody false ds = .malformed k ∧ n = 1 + k := by
    intro ds h
    unfold scan at h
    dsimp only at h
    split at h
    · next k hk => cases h; exact ⟨k, hk, rfl⟩
    · cases h
  rcases hs with rfl | rfl
  · obtain ⟨k, -, rfl⟩ := hn h
    simp
  · obtain ⟨k, hk, rfl⟩ := hn h
    have hb : scanBody false ('=' :: cs) = (scanBody false cs).after 1 := by
      rw [scanBody.eq_def]
      rfl
    have hw := congrArg Scan.width (hb.symm.trans hk)
    rw [Scan.width_after] at hw
    simp only [List.length_cons, List.length_nil, Scan.width] at hw ⊢
    omega

end RegularExpression

end EcmaTokens
