/-
Which slash closes a regular expression. A character of the line is active if no active backslash stands in front
of it; a class goes from an active opening bracket to the next active closing one; and the body is closed by the
first active slash that is in no class. A line without such a slash is gone over to its end.
-/
import EcmaTokens.Proofs.Lexeme.RegularExpression

namespace EcmaTokens

namespace RegularExpression

/-! ## Active characters and classes -/

/-- No active backslash stands in front of the character at the index. -/
def isActive (cs : List Char) : Nat → Bool
  | 0 => true
  | i + 1 => !(cs[i]? == some '\\' && isActive cs i)

/-- The character is at the index, and active. -/
def ActiveAt (cs : List Char) (c : Char) (i : Nat) : Prop :=
  cs[i]? = some c ∧ isActive cs i = true

/-- The index is in a class: behind an active opening bracket, with no active closing one in between. -/
def InClass (cs : List Char) (i : Nat) : Prop :=
  ∃ j < i, ActiveAt cs '[' j ∧ ∀ k, j < k → k < i → ¬ ActiveAt cs ']' k

/-- At the index is a slash that closes the body. -/
def Closes (cs : List Char) (i : Nat) : Prop :=
  ActiveAt cs '/' i ∧ ¬ InClass cs i

section Line

variable {row : List Char} {n : Nat} {c d : Char}

theorem ActiveAt.iff_eq (hc : row[n]? = some c) (ha : isActive row n = true) : ActiveAt row d n ↔ c = d := by
  rw [ActiveAt, hc, Option.some.injEq]
  exact and_iff_left ha

theorem ActiveAt.of_ne (hc : row[n]? = some c) (hd : c ≠ d) : ¬ ActiveAt row d n :=
  fun h => hd (Option.some.inj (hc.symm.trans h.1))

theorem isActive_succ (hc : row[n]? = some c) (ha : isActive row n = true) :
    isActive row (n + 1) = !(c == '\\') := by
  rw [isActive, hc, ha, Bool.and_true]
  rfl

theorem not_inClass_zero (row : List Char) : ¬ InClass row 0 :=
  fun ⟨_, hj, _⟩ => absurd hj (Nat.not_lt_zero _)

/-- A class begins behind an active opening bracket and goes on up to an active closing one. -/
theorem inClass_succ (row : List Char) (n : Nat) :
    InClass row (n + 1) ↔ ActiveAt row '[' n ∨ InClass row n ∧ ¬ ActiveAt row ']' n := by
  constructor
  · rintro ⟨j, hj, hopen, hclose⟩
    rcases Nat.lt_succ_iff_lt_or_eq.1 hj with hj | rfl
    · exact .inr ⟨⟨j, hj, hopen, fun k hk hkn => hclose k hk (by omega)⟩, hclose n hj (by omega)⟩
    · exact .inl hopen
  · rintro (hopen | ⟨⟨j, hj, hopen, hclose⟩, hn⟩)
    · exact ⟨n, by omega, hopen, fun k hk hkn => by omega⟩
    · refine ⟨j, by omega, hopen, fun k hk hkn => ?_⟩
      rcases Nat.lt_succ_iff_lt_or_eq.1 hkn with hkn | rfl
      · exact hclose k hk hkn
      · exact hn

theorem Closes.lt_length (h : Closes row n) : n < row.length :=
  (List.getElem?_eq_some_iff.1 h.1.1).1

end Line

/-! ## Reading a body -/

/-- What reading from an index of a line comes to: it goes through the first slash that closes the body, or, if
there is none, to the end of the line. -/
def ReadsTo (row : List Char) (n : Nat) : Scan Unit → Prop
  | .read () k => ∃ m, n + k = m + 1 ∧ n ≤ m ∧ Closes row m ∧ ∀ i, n ≤ i → i < m → ¬ Closes row i
  | .malformed k => n + k = row.length ∧ ∀ i, n ≤ i → ¬ Closes row i

section ReadsTo

variable {row : List Char} {n : Nat} {r : Scan Unit}

theorem ReadsTo.after {k : Nat} (h : ReadsTo row (n + k) r) (hn : ∀ i, n ≤ i → i < n + k → ¬ Closes row i) :
    ReadsTo row n (r.after k) := by
  cases r with
  | read u j =>
    obtain ⟨m, hm, hle, hc, hfirst⟩ := h
    refine ⟨m, by omega, by omega, hc, fun i hi him => ?_⟩
    by_cases hik : i < n + k
    · exact hn i hi hik
    · exact hfirst i (by omega) him
  | malformed j =>
    obtain ⟨hj, hnone⟩ := h
    refine ⟨by omega, fun i hi => ?_⟩
    by_cases hik : i < n + k
    · exact hn i hi hik
    · exact hnone i (by omega)

theorem ReadsTo.after_one (h : ReadsTo row (n + 1) r) (hn : ¬ Closes row n) : ReadsTo row n (r.after 1) := by
  refine h.after fun i hi hin => ?_
  obtain rfl : i = n := by omega
  exact hn

/-- At the end of the line nothing closes the body. -/
theorem readsTo_end (h : n = row.length) : ReadsTo row n (.malformed 0) := by
  refine ⟨h, fun i hi hc => ?_⟩
  have := hc.lt_length
  omega

end ReadsTo

section Front

variable {row rest : List Char} {n : Nat} {c : Char} {cs : List Char}

/-- What stands at an index of the line, in front of what the line ends with. -/
theorem getElem?_of_front (h : c :: cs = row.drop n ++ rest) (hrest : rest.head?.all isLineTerminator = true)
    (hc : isLineTerminator c = false) :
    row[n]? = some c ∧ n + 1 ≤ row.length ∧ cs = row.drop (n + 1) ++ rest := by
  cases hd : row.drop n with
  | nil =>
    rw [hd, List.nil_append] at h
    rw [← h] at hrest
    simp [hc] at hrest
  | cons d ds =>
    rw [hd, List.cons_append] at h
    obtain ⟨rfl, rfl⟩ := List.cons.inj h
    have hn : row[n]? = some c := by rw [← List.head?_drop, hd]; rfl
    refine ⟨hn, (List.getElem?_eq_some_iff.1 hn).1, ?_⟩
    rw [← List.tail_drop, hd]
    rfl

/-- The line ends where its text does, and in front of a line terminator. -/
theorem length_of_front (h : cs = row.drop n ++ rest) (hrow : hasLineTerminator row = false)
    (hn : n ≤ row.length) (hcs : cs.head?.all isLineTerminator = true) : n = row.length := by
  by_contra hne
  have hlt : n < row.length := by omega
  rw [List.drop_eq_getElem_cons hlt] at h
  have hc : isLineTerminator row[n] = true := by
    rw [h] at hcs
    exact hcs
  exact List.any_eq_false.1 hrow row[n] (List.getElem_mem hlt) hc

/-- A body is read through the first slash of its line that closes it. -/
theorem readsTo_scanBody {inClass : Bool} (h : cs = row.drop n ++ rest) (hrow : hasLineTerminator row = false)
    (hrest : rest.head?.all isLineTerminator = true) (hn : n ≤ row.length) (ha : isActive row n = true)
    (hin : InClass row n ↔ inClass = true) : ReadsTo row n (scanBody inClass cs) := by
  -- only a slash closes a body, so what is anything else is gone over
  have other : ∀ {n : Nat} {c : Char}, row[n]? = some c → c ≠ '/' → ¬ Closes row n :=
    fun hn hc hcl => ActiveAt.of_ne hn hc hcl.1
  fun_induction scanBody inClass cs generalizing n with
  | case1 inClass => exact readsTo_end (length_of_front h hrow hn rfl)
  | case2 inClass c cs hc => exact readsTo_end (length_of_front h hrow hn (by simpa using hc))
  | case3 inClass c hc hb =>
    obtain ⟨hn', hle, htail⟩ := getElem?_of_front h hrest (by simpa using hc)
    obtain rfl : c = '\\' := by simpa using hb
    exact (readsTo_end (length_of_front htail hrow hle rfl)).after_one (other hn' (by decide))
  | case4 inClass c hc hb d ds hd =>
    obtain ⟨hn', hle, htail⟩ := getElem?_of_front h hrest (by simpa using hc)
    obtain rfl : c = '\\' := by simpa using hb
    exact (readsTo_end (length_of_front htail hrow hle (by simpa using hd))).after_one (other hn' (by decide))
  | case5 inClass c hc hb d ds hd ih =>
    -- the character behind the backslash is not active, whatever it is
    obtain ⟨hn', -, htail⟩ := getElem?_of_front h hrest (by simpa using hc)
    obtain ⟨-, hle, htail'⟩ := getElem?_of_front htail hrest (by simpa using hd)
    obtain rfl : c = '\\' := by simpa using hb
    have hpassive : isActive row (n + 1) = false := isActive_succ hn' ha
    have hnot : ∀ d, ¬ ActiveAt row d (n + 1) := fun d h => by
      rw [ActiveAt, hpassive] at h
      cases h.2
    have hact : isActive row (n + 1 + 1) = true := by
      rw [isActive, hpassive, Bool.and_false]
      rfl
    have hclass : InClass row (n + 1 + 1) ↔ inClass = true := by
      rw [inClass_succ, inClass_succ, ← hin]
      simp [hnot, ActiveAt.of_ne hn' (show '\\' ≠ '[' by decide), ActiveAt.of_ne hn' (show '\\' ≠ ']' by decide)]
    refine ReadsTo.after (k := 2) (ih htail' hle hact hclass) fun i hi hin => ?_
    rcases Nat.eq_or_lt_of_le hi with rfl | hi
    · exact other hn' (by decide)
    · obtain rfl : i = n + 1 := by omega
      exact fun hcl => hnot _ hcl.1
  | case6 inClass c cs hc hb hopen ih =>
    obtain ⟨hn', hle, htail⟩ := getElem?_of_front h hrest (by simpa using hc)
    obtain rfl : c = '[' := by simpa using hopen
    have hclass : InClass row (n + 1) ↔ true = true := by
      rw [inClass_succ, ActiveAt.iff_eq hn' ha]
      simp
    exact (ih htail hle (isActive_succ hn' ha) hclass).after_one (other hn' (by decide))
  | case7 inClass c cs hc hb hopen hclose ih =>
    obtain ⟨hn', hle, htail⟩ := getElem?_of_front h hrest (by simpa using hc)
    obtain rfl : c = ']' := by simpa using hclose
    have hclass : InClass row (n + 1) ↔ false = true := by
      rw [inClass_succ, ActiveAt.iff_eq hn' ha, ActiveAt.iff_eq hn' ha]
      simp
    exact (ih htail hle (isActive_succ hn' ha) hclass).after_one (other hn' (by decide))
  | case8 inClass c cs hc hb hopen hclose hslash =>
    obtain ⟨hn', -⟩ := getElem?_of_front h hrest (by simpa using hc)
    obtain ⟨rfl, hout⟩ : c = '/' ∧ inClass = false := by simpa using hslash
    refine ⟨n, rfl, Nat.le_refl n, ⟨⟨hn', ha⟩, ?_⟩, fun i hi hin => by omega⟩
    rw [hin, hout]
    exact Bool.false_ne_true
  | case9 inClass c cs hc hb hopen hclose hslash ih =>
    obtain ⟨hn', hle, htail⟩ := getElem?_of_front h hrest (by simpa using hc)
    have hclass : InClass row (n + 1) ↔ inClass = true := by
      rw [inClass_succ, ← hin]
      simp [ActiveAt.of_ne hn' (show c ≠ '[' by simpa using hopen),
        ActiveAt.of_ne hn' (show c ≠ ']' by simpa using hclose)]
    have hact : isActive row (n + 1) = true := by
      rw [isActive_succ hn' ha]
      simpa using hb
    refine (ih htail hle hact hclass).after_one fun hcl => ?_
    -- a slash is passed over in a class alone
    obtain rfl : c = '/' := Option.some.inj (hn'.symm.trans hcl.1.1)
    have hin' : inClass = true := by simpa using hslash
    exact hcl.2 (hin.2 hin')

end Front

/-! ## Literals -/

/-- A character of the flags. -/
def isFlag (c : Char) : Bool :=
  c == '\\' || isIdentifierPart c

/-- The text is a body, which begins and ends with a slash, and flags. The body ends with the first slash of the line
that closes it, and the flags go as far as they can in front of the text `tail`. -/
structure Literal (row text tail : List Char) : Prop where
  exists_parts : ∃ body flags, text = '/' :: (body ++ '/' :: flags) ∧ Closes row body.length ∧
    (∀ i < body.length, ¬ Closes row i) ∧ ∀ c ∈ flags, isFlag c = true
  maximal : tail.head?.any isFlag = false

section Literal

variable {row rest : List Char}

/-- What is read from a slash in front of a line: a literal if the line closes it, and else the line is gone over. -/
theorem scan_line (hrow : hasLineTerminator row = false) (hrest : rest.head?.all isLineTerminator = true) :
    (∃ text tail, '/' :: (row ++ rest) = text ++ tail ∧ Literal row text tail ∧
      scan ('/' :: (row ++ rest)) = .read () text.length) ∨
    ((∀ i, ¬ Closes row i) ∧ scan ('/' :: (row ++ rest)) = .malformed (1 + row.length)) := by
  have hr : ReadsTo row 0 (scanBody false (row ++ rest)) :=
    readsTo_scanBody rfl hrow hrest (Nat.zero_le _) rfl (by simp [not_inClass_zero])
  rw [scan]
  cases hs : scanBody false (row ++ rest) with
  | malformed k =>
    rw [hs] at hr
    obtain ⟨hk, hnone⟩ := hr
    refine .inr ⟨fun i => hnone i (Nat.zero_le i), ?_⟩
    rw [Nat.zero_add] at hk
    exact congrArg (fun n => Scan.malformed (1 + n)) hk
  | read u k =>
    rw [hs] at hr
    obtain ⟨m, hk, -, hclose, hfirst⟩ := hr
    obtain ⟨hm, hslash⟩ := List.getElem?_eq_some_iff.1 hclose.1.1
    have hlen : (row.take m).length = m := by simp; omega
    have hsplit : row ++ rest = row.take m ++ '/' :: (row.drop (m + 1) ++ rest) := by
      rw [← hslash, ← List.cons_append, ← List.drop_eq_getElem_cons hm, ← List.append_assoc, List.take_append_drop]
    have hdrop : (row ++ rest).drop k = row.drop (m + 1) ++ rest := by
      rw [show k = m + 1 by omega, List.drop_append_of_le_length hm]
    refine .inl ⟨'/' :: (row.take m ++ '/' :: ((row.drop (m + 1) ++ rest).takeWhile isFlag)),
      (row.drop (m + 1) ++ rest).dropWhile isFlag, ?_,
      ⟨⟨_, _, rfl, ?_, ?_, fun c => List.mem_takeWhile_imp⟩, ?_⟩, ?_⟩
    · rw [hsplit]
      simp [List.takeWhile_append_dropWhile]
    · rw [hlen]; exact hclose
    · rw [hlen]; exact fun i hi => hfirst i (Nat.zero_le i) hi
    · exact head_dropWhile_any isFlag _
    · show Scan.read () (1 + k + flagsWidth ((row ++ rest).drop k)) = _
      rw [hdrop, flagsWidth]
      simp only [List.length_cons, List.length_append, hlen]
      congr 1
      show 1 + k + (List.takeWhile isFlag _).length = _
      omega

end Literal

end RegularExpression

end EcmaTokens
