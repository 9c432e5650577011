/-
The punctuator read at the front of a text is the longest one of the catalogue that is spelled there, and
wherever it is spelled the next character alone decides whether it is read.
-/
import EcmaTokens.Proofs.Source.Text

namespace EcmaTokens

namespace Punctuator

theorem spelling_of_ofChar? {c : Char} {p : Punctuator} (h : ofChar? c = some p) : p.spelling.toList = [c] := by
  unfold ofChar? at h
  split at h <;> cases h <;> rfl

theorem length_spelling (p : Punctuator) : p.spelling.toList.length = p.width :=
  String.length_toList

/-! ## What is read -/

/-- What a character and an equality sign begin is spelled in front, in two characters at least. -/
theorem spelling_of_withEquals? {c : Char} {cs : List Char} {p : Punctuator} (h : withEquals? c cs = some p) :
    p.spelling.toList <+: c :: '=' :: cs ∧ 2 ≤ p.width := by
  unfold withEquals? at h
  dsimp only at h
  split at h
  case h_1 | h_2 =>
    split at h
    · next hh =>
      obtain ⟨ds, rfl⟩ := List.head?_eq_some_iff.1 (eq_of_beq hh)
      cases h
      exact ⟨⟨ds, rfl⟩, by decide⟩
    · cases h
      exact ⟨⟨cs, rfl⟩, by decide⟩
  case h_13 => cases h
  all_goals
    cases h
    exact ⟨⟨cs, rfl⟩, by decide⟩

/-- What a character written twice begins is spelled in front, in two characters at least. -/
theorem spelling_of_doubled? {c : Char} {cs : List Char} {p : Punctuator} (h : doubled? c cs = some p) :
    p.spelling.toList <+: c :: c :: cs ∧ 2 ≤ p.width := by
  unfold doubled? at h
  split at h
  case h_11 => cases h
  all_goals
    cases h
    exact ⟨⟨_, rfl⟩, by decide⟩

/-- Two angle brackets that are alike begin a shift. -/
theorem isSome_doubled?_angle {c : Char} (hc : c = '<' ∨ c = '>') (cs : List Char) : (doubled? c cs).isSome = true := by
  unfold doubled?
  split
  case h_11 hless hgreater _ _ _ _ _ _ =>
    -- no character but a bracket is left, and the brackets have cases of their own
    rcases hc with rfl | rfl
    · exact (hless rfl).elim
    · exact (hgreater rfl).elim
  all_goals rfl

/-- The three ways to read a punctuator. -/
theorem longest?_cases {c : Char} {cs : List Char} {p : Punctuator} (h : longest? (c :: cs) = some p) :
    (∃ ds, cs = '=' :: ds ∧ withEquals? c ds = some p) ∨ (∃ ds, cs = c :: ds ∧ doubled? c ds = some p) ∨
      ofChar? c = some p := by
  have behind : ∀ {d : Char} {form? : Char → List Char → Option Punctuator},
      (if (cs.head? == some d) = true then form? c cs.tail else none) = some p →
        ∃ ds, cs = d :: ds ∧ form? c ds = some p := by
    intro d form? h
    split at h
    · next hh =>
      obtain ⟨ds, rfl⟩ := List.head?_eq_some_iff.1 (by simpa using hh)
      exact ⟨ds, rfl, h⟩
    · cases h
  rw [longest?] at h
  split at h
  · exact .inr (.inr h)
  · rcases Option.or_eq_some_iff.1 h with h | ⟨-, h⟩
    · exact .inl (behind h)
    · rcases Option.or_eq_some_iff.1 h with h | ⟨-, h⟩
      · exact .inr (.inl (behind h))
      · exact .inr (.inr h)

/-- A text begins with the spelling of its longest punctuator. -/
theorem spelling_prefix_of_longest? {cs : List Char} {p : Punctuator} (h : longest? cs = some p) :
    p.spelling.toList <+: cs := by
  cases cs with
  | nil => cases h
  | cons c cs =>
    rcases longest?_cases h with ⟨ds, rfl, hp⟩ | ⟨ds, rfl, hp⟩ | hp
    · exact (spelling_of_withEquals? hp).1
    · exact (spelling_of_doubled? hp).1
    · rw [spelling_of_ofChar? hp]
      exact ⟨cs, rfl⟩

theorem take_width_of_longest? {cs : List Char} {p : Punctuator} (h : longest? cs = some p) :
    cs.take p.width = p.spelling.toList := by
  rw [← length_spelling]
  exact (List.prefix_iff_eq_take.1 (spelling_prefix_of_longest? h)).symm

/-! ## What is spelled -/

theorem mem_all (p : Punctuator) : p ∈ all := by
  cases p <;> decide

/-- No two punctuators are spelled alike. -/
theorem spelling_injective {p q : Punctuator} (h : p.spelling.toList = q.spelling.toList) : p = q := by
  have hall : (all.all fun p => all.all fun q => p.spelling.toList != q.spelling.toList || p == q) = true := by
    decide +kernel
  have hpq := List.all_eq_true.1 (List.all_eq_true.1 hall p (mem_all p)) q (mem_all q)
  simpa [h] using hpq

/-- A punctuator that is spelled in front is read, or a longer one. -/
theorem exists_longest? {q : Punctuator} {cs : List Char} (h : q.spelling.toList <+: cs) :
    ∃ p, longest? cs = some p ∧ q.width ≤ p.width := by
  obtain ⟨rest, rfl⟩ := h
  have single : ∀ {c : Char} {ds : List Char}, (ofChar? c).isSome = true →
      ∃ p, longest? (c :: ds) = some p ∧ 1 ≤ p.width := by
    intro c ds hc
    have hs : (longest? (c :: ds)).isSome = true := by
      rw [longest?]
      split
      · exact hc
      · simp [hc]
    obtain ⟨p, hp⟩ := Option.isSome_iff_exists.1 hs
    exact ⟨p, hp, p.width_pos⟩
  have equals : ∀ {c : Char} {ds : List Char} {p : Punctuator}, standsAlone c = false → withEquals? c ds = some p →
      ∃ p, longest? (c :: '=' :: ds) = some p ∧ 2 ≤ p.width := by
    intro c ds p hc hp
    exact ⟨p, by simp [longest?, hc, hp], (spelling_of_withEquals? hp).2⟩
  have twice : ∀ {c : Char} {ds : List Char}, standsAlone c = false → c ≠ '=' → (doubled? c ds).isSome = true →
      ∃ p, longest? (c :: c :: ds) = some p ∧ 2 ≤ p.width := by
    intro c ds hc hne hp
    obtain ⟨p, hp⟩ := Option.isSome_iff_exists.1 hp
    exact ⟨p, by simp [longest?, hc, hne, hp], (spelling_of_doubled? hp).2⟩
  cases q
  case equal | notEqual | orAssign | xorAssign | andAssign | plusAssign | minusAssign | timesAssign | divideAssign
      | remainderAssign | lessEqual | greaterEqual => exact equals rfl rfl
  case increment | decrement | logicalOr | logicalAnd => exact twice rfl (by decide) rfl
  case shiftLeft => exact twice rfl (by decide) (isSome_doubled?_angle (.inl rfl) rest)
  case shiftRight => exact twice rfl (by decide) (isSome_doubled?_angle (.inr rfl) rest)
  case strictEqual => exact ⟨.strictEqual, rfl, Nat.le_refl _⟩
  case strictNotEqual => exact ⟨.strictNotEqual, rfl, Nat.le_refl _⟩
  case shiftLeftAssign => exact ⟨.shiftLeftAssign, rfl, Nat.le_refl _⟩
  case shiftRightAssign => exact ⟨.shiftRightAssign, rfl, Nat.le_refl _⟩
  case unsignedShiftRightAssign => exact ⟨.unsignedShiftRightAssign, rfl, Nat.le_refl _⟩
  case unsignedShiftRight =>
    -- a fourth character can make it longer
    by_cases hr : rest.head? = some '='
    · obtain ⟨ds, rfl⟩ := List.head?_eq_some_iff.1 hr
      exact ⟨.unsignedShiftRightAssign, rfl, by decide⟩
    · refine ⟨.unsignedShiftRight, ?_, Nat.le_refl _⟩
      cases rest with
      | nil => rfl
      | cons d ds => simp [longest?, spelling, standsAlone, doubled?, show d ≠ '=' by simpa using hr]
  all_goals exact single rfl

/-! ## The longest one -/

/-- The punctuator that is read is the longest one spelled in front. -/
theorem longest?_eq_some_iff {cs : List Char} {p : Punctuator} :
    longest? cs = some p ↔
      p.spelling.toList <+: cs ∧ ∀ q : Punctuator, q.spelling.toList <+: cs → q = p ∨ q.width < p.width := by
  constructor
  · intro h
    have hp := spelling_prefix_of_longest? h
    refine ⟨hp, fun q hq => ?_⟩
    obtain ⟨p', hp', hle⟩ := exists_longest? hq
    obtain rfl : p = p' := Option.some.inj (h.symm.trans hp')
    rcases Nat.lt_or_eq_of_le hle with hlt | heq
    · exact .inr hlt
    · left
      apply spelling_injective
      rw [List.prefix_iff_eq_take.1 hq, List.prefix_iff_eq_take.1 hp, length_spelling, length_spelling, heq]
  · rintro ⟨hp, hlong⟩
    obtain ⟨q, hq, hle⟩ := exists_longest? hp
    rcases hlong q (spelling_prefix_of_longest? hq) with rfl | hlt
    · exact hq
    · omega

theorem longest?_spelling (p : Punctuator) : longest? p.spelling.toList = some p := by
  cases p <;> rfl

/-- The characters that make a longer punctuator of one. -/
def extensions : Punctuator → List Char
  | .less => ['<', '=']
  | .greater | .shiftRight => ['>', '=']
  | .plus => ['+', '=']
  | .minus => ['-', '=']
  | .bitAnd => ['&', '=']
  | .bitOr => ['|', '=']
  | .assign | .equal | .logicalNot | .notEqual | .shiftLeft | .unsignedShiftRight
  | .times | .divide | .remainder | .bitXor => ['=']
  | _ => []

/-- A longer punctuator of one character more. -/
theorem exists_extension {p : Punctuator} {c : Char} (hc : c ∈ p.extensions) :
    ∃ q : Punctuator, q.spelling.toList = p.spelling.toList ++ [c] := by
  have hall : (all.all fun p => p.extensions.all fun c => all.any fun q =>
      q.spelling.toList == p.spelling.toList ++ [c]) = true := by decide +kernel
  have hq := List.all_eq_true.1 (List.all_eq_true.1 hall p (mem_all p)) c hc
  obtain ⟨q, -, hq⟩ := List.any_eq_true.1 hq
  exact ⟨q, eq_of_beq hq⟩

/-- Every longer punctuator begins with an extension. -/
theorem mem_extensions {p q : Punctuator} {c : Char} {cs : List Char}
    (h : q.spelling.toList = p.spelling.toList ++ c :: cs) : c ∈ p.extensions := by
  have hall : (all.all fun p => all.all fun q => !p.spelling.toList.isPrefixOf q.spelling.toList ||
      ((q.spelling.toList.drop p.spelling.toList.length).head?.all fun c => p.extensions.contains c)) = true := by
    decide +kernel
  have hpq := List.all_eq_true.1 (List.all_eq_true.1 hall p (mem_all p)) q (mem_all q)
  have hpre : p.spelling.toList.isPrefixOf q.spelling.toList = true := by simp [h]
  rw [hpre, h, List.drop_left] at hpq
  simpa using hpq

/-- Whether a spelling is read as its punctuator depends on the next character alone. -/
theorem longest?_append_iff {p : Punctuator} {c : Char} {cs : List Char} :
    longest? (p.spelling.toList ++ c :: cs) = some p ↔ c ∉ p.extensions := by
  rw [longest?_eq_some_iff]
  constructor
  · rintro ⟨-, hlong⟩ hc
    obtain ⟨q, hq⟩ := exists_extension hc
    have hlen : q.width = p.width + 1 := by
      rw [← length_spelling, ← length_spelling, hq, List.length_append, List.length_singleton]
    have hpre : q.spelling.toList <+: p.spelling.toList ++ c :: cs := ⟨cs, by rw [hq]; simp⟩
    rcases hlong q hpre with rfl | hlt <;> omega
  · intro hc
    refine ⟨List.prefix_append _ _, fun q hq => ?_⟩
    rcases List.prefix_or_prefix_of_prefix hq (List.prefix_append p.spelling.toList (c :: cs)) with hqp | ⟨ds, hds⟩
    · rcases Nat.lt_or_eq_of_le hqp.length_le with hlt | heq
      · exact .inr (by rwa [length_spelling, length_spelling] at hlt)
      · exact .inl (spelling_injective (hqp.eq_of_length heq))
    · -- a longer one would begin with an extension
      cases ds with
      | nil => exact .inl (spelling_injective (by rw [← hds, List.append_nil]))
      | cons d ds =>
        rw [← hds, List.prefix_append_right_inj] at hq
        obtain ⟨rest, hrest⟩ := hq
        obtain ⟨rfl, -⟩ := List.cons.inj hrest
        exact absurd (mem_extensions hds.symm) hc

theorem isSome_ofChar?_of_extension {p : Punctuator} {c : Char} (hc : c ∈ p.extensions) :
    (ofChar? c).isSome = true := by
  have hall : (p.extensions.all fun c => (ofChar? c).isSome) = true := by cases p <;> rfl
  exact List.all_eq_true.1 hall c hc

theorem spelling_lineFree (p : Punctuator) : hasLineTerminator p.spelling.toList = false := by
  cases p <;> decide

end Punctuator

end EcmaTokens
