/-
Rendering replaces exactly the placeholders of a template. No two placeholders overlap, so a template is cut into
characters and placeholders, and rendering goes piece by piece: the argument is put in and never looked at, and
rendering distributes over every cut of the template that goes through no placeholder.
-/
import EcmaTokens.Diagnostic.Template
import EcmaTokens.Proofs.Source.Text

namespace EcmaTokens

namespace Template

/-! ## Placeholders in a text -/

/-- The text of the placeholder with the given digits. -/
def placeholder (digits : List Char) : List Char :=
  '{' :: (digits ++ ['}'])

/-- One or more digits. -/
def AreDigits (cs : List Char) : Prop :=
  cs ≠ [] ∧ ∀ d ∈ cs, isDecimalDigit d = true

/-- A pair of braces around one or more digits. -/
def IsPlaceholder (cs : List Char) : Prop :=
  ∃ digits, AreDigits digits ∧ cs = placeholder digits

/-- A placeholder of `n` characters begins at the index `i` of a text. -/
def PlaceholderAt (cs : List Char) (i n : Nat) : Prop :=
  i + n ≤ cs.length ∧ IsPlaceholder ((cs.drop i).take n)

section Placeholders

variable {cs rest digits : List Char} {i j m n : Nat}

theorem length_placeholder (digits : List Char) : (placeholder digits).length = digits.length + 2 := by
  simp [placeholder]

instance (cs : List Char) : Decidable (AreDigits cs) :=
  decidable_of_iff (cs ≠ [] ∧ cs.all isDecimalDigit = true) (by rw [AreDigits, List.all_eq_true])

theorem isPlaceholder_iff : IsPlaceholder cs ↔ AreDigits cs.tail.dropLast ∧ cs = placeholder cs.tail.dropLast := by
  constructor
  · rintro ⟨digits, hd, rfl⟩
    simpa [placeholder] using hd
  · exact fun ⟨hd, heq⟩ => ⟨_, hd, heq⟩

instance (cs : List Char) : Decidable (IsPlaceholder cs) :=
  decidable_of_iff _ isPlaceholder_iff.symm

instance (cs : List Char) (i n : Nat) : Decidable (PlaceholderAt cs i n) :=
  inferInstanceAs (Decidable (_ ∧ _))

theorem not_isDecimalDigit_brace : isDecimalDigit '{' = false ∧ isDecimalDigit '}' = false := by
  decide

theorem takeWhile_digits (h : AreDigits digits) (rest : List Char) :
    (digits ++ '}' :: rest).takeWhile isDecimalDigit = digits := by
  rw [List.takeWhile_append_of_pos h.2, List.takeWhile_cons_of_neg (by decide), List.append_nil]

/-- The digits of a placeholder are found behind its opening brace, and nothing else is. -/
theorem placeholderDigits?_eq_some_iff :
    placeholderDigits? cs = some n ↔
      ∃ digits rest, AreDigits digits ∧ digits.length = n ∧ cs = digits ++ '}' :: rest := by
  constructor
  · intro h
    simp only [placeholderDigits?] at h
    split at h
    · next hc =>
      cases h
      rw [Bool.and_eq_true, bne_iff_ne, drop_length_takeWhile, beq_iff_eq] at hc
      obtain ⟨rest, hrest⟩ := List.head?_eq_some_iff.1 hc.2
      refine ⟨cs.takeWhile isDecimalDigit, rest, ⟨?_, fun d hd => List.mem_takeWhile_imp hd⟩, rfl, ?_⟩
      · exact fun hnil => hc.1 (by rw [hnil]; rfl)
      · rw [← hrest, List.takeWhile_append_dropWhile]
    · cases h
  · rintro ⟨digits, rest, hd, rfl, rfl⟩
    have hne : digits.length ≠ 0 := fun h => hd.1 (List.length_eq_zero_iff.1 h)
    simp [placeholderDigits?, takeWhile_digits hd, hne]

/-- What a placeholder at an index says of the text from there. -/
theorem placeholderAt_iff :
    PlaceholderAt cs i n ↔ ∃ digits rest, AreDigits digits ∧ n = digits.length + 2 ∧
      i ≤ cs.length ∧ cs.drop i = placeholder digits ++ rest := by
  constructor
  · rintro ⟨hle, digits, hd, ht⟩
    have hn : n = digits.length + 2 := by
      have := congrArg List.length ht
      rw [List.length_take, List.length_drop, length_placeholder] at this
      omega
    refine ⟨digits, (cs.drop i).drop n, hd, hn, by omega, ?_⟩
    rw [← ht, List.take_append_drop]
  · rintro ⟨digits, rest, hd, rfl, hi, hdrop⟩
    have hlen := congrArg List.length hdrop
    rw [List.length_append, length_placeholder, List.length_drop] at hlen
    refine ⟨by omega, digits, hd, ?_⟩
    rw [hdrop, List.take_left' (length_placeholder digits)]

theorem placeholderAt_append (a : List Char) :
    PlaceholderAt (a ++ cs) (a.length + i) n ↔ PlaceholderAt cs i n := by
  rw [PlaceholderAt, PlaceholderAt, List.drop_append, List.drop_eq_nil_of_le (by omega), List.nil_append,
    Nat.add_sub_cancel_left, List.length_append, Nat.add_assoc, Nat.add_le_add_iff_left]

/-- A placeholder has its only opening brace in front. -/
theorem PlaceholderAt.getElem?_brace (h : PlaceholderAt cs i n) :
    cs[i]? = some '{' ∧ ∀ k, 0 < k → k < n → cs[i + k]? ≠ some '{' := by
  obtain ⟨digits, rest, hd, rfl, -, hdrop⟩ := placeholderAt_iff.1 h
  constructor
  · rw [← List.head?_drop, hdrop]
    rfl
  · intro k hk hkn hbrace
    rw [← List.getElem?_drop, hdrop, List.getElem?_append_left (by rw [length_placeholder]; omega)] at hbrace
    obtain ⟨k, rfl⟩ : ∃ l, k = l + 1 := ⟨k - 1, by omega⟩
    -- behind the opening brace stand digits and the closing brace
    rw [placeholder, List.getElem?_cons_succ] at hbrace
    rcases List.mem_append.1 (List.mem_of_getElem? hbrace) with hm | hm
    · exact absurd (hd.2 _ hm) (by simp [not_isDecimalDigit_brace])
    · simp at hm

/-- The digits of a placeholder decide how long it is. -/
theorem PlaceholderAt.width_unique (h : PlaceholderAt cs i n) (h' : PlaceholderAt cs i m) : n = m := by
  obtain ⟨digits, rest, hd, rfl, -, hdrop⟩ := placeholderAt_iff.1 h
  obtain ⟨digits', rest', hd', rfl, -, hdrop'⟩ := placeholderAt_iff.1 h'
  have heq := hdrop.symm.trans hdrop'
  simp only [placeholder, List.cons_append, List.append_assoc, List.cons.injEq, true_and] at heq
  have hw := congrArg (List.takeWhile isDecimalDigit) heq
  rw [List.nil_append, List.nil_append, takeWhile_digits hd, takeWhile_digits hd'] at hw
  rw [hw]

/-- Placeholders never overlap. -/
theorem PlaceholderAt.disjoint (h : PlaceholderAt cs i n) (h' : PlaceholderAt cs j m) :
    i = j ∧ n = m ∨ i + n ≤ j ∨ j + m ≤ i := by
  -- a placeholder that begins inside another would have its brace there
  have inside : ∀ {i j m n : Nat}, PlaceholderAt cs i n → PlaceholderAt cs j m → i < j → i + n ≤ j := by
    intro i j m n h h' hlt
    by_contra hn
    have hne := h.getElem?_brace.2 (j - i) (by omega) (by omega)
    rw [Nat.add_sub_cancel' (by omega)] at hne
    exact hne h'.getElem?_brace.1
  rcases Nat.lt_trichotomy i j with hlt | rfl | hgt
  · exact .inr (.inl (inside h h' hlt))
  · exact .inl ⟨rfl, h.width_unique h'⟩
  · exact .inr (.inr (inside h' h hgt))

theorem placeholderAt_zero (hd : AreDigits digits) (rest : List Char) :
    PlaceholderAt (placeholder digits ++ rest) 0 (digits.length + 2) :=
  placeholderAt_iff.2 ⟨digits, rest, hd, rfl, Nat.zero_le _, rfl⟩

/-- A placeholder begins a text exactly if its digits are found behind an opening brace. -/
theorem placeholderAt_zero_iff {c : Char} :
    PlaceholderAt (c :: cs) 0 (n + 2) ↔ c = '{' ∧ placeholderDigits? cs = some n := by
  rw [placeholderAt_iff, placeholderDigits?_eq_some_iff]
  constructor
  · rintro ⟨digits, rest, hd, hn, -, heq⟩
    obtain ⟨rfl, rfl⟩ := List.cons.inj heq
    exact ⟨rfl, digits, rest, hd, by omega, by simp⟩
  · rintro ⟨rfl, digits, rest, hd, rfl, rfl⟩
    exact ⟨digits, rest, hd, rfl, Nat.zero_le _, by simp [placeholder]⟩

theorem two_le_of_placeholderAt (h : PlaceholderAt cs i n) : 2 ≤ n := by
  obtain ⟨digits, -, -, rfl, -⟩ := placeholderAt_iff.1 h
  omega

theorem not_placeholderAt_of_short (h : cs.length ≤ 1) (i n : Nat) : ¬ PlaceholderAt cs i n := by
  intro hi
  have := two_le_of_placeholderAt hi
  have := hi.1
  omega

end Placeholders

/-! ## Cutting a text in two -/

/-- No placeholder of the joined text reaches over the place where the parts meet. -/
def NoneAcross (a b : List Char) : Prop :=
  ∀ i n, PlaceholderAt (a ++ b) i n → i + n ≤ a.length ∨ a.length ≤ i

section NoneAcross

variable {a b cs digits : List Char} {i n : Nat}

instance (a b : List Char) : Decidable (NoneAcross a b) :=
  decidable_of_iff
    (∀ i ≤ (a ++ b).length, ∀ n ≤ (a ++ b).length, PlaceholderAt (a ++ b) i n → i + n ≤ a.length ∨ a.length ≤ i)
    ⟨fun h i n hi => h i (by have := hi.1; omega) n (by have := hi.1; omega) hi, fun h i _ n _ => h i n⟩

theorem noneAcross_placeholder (hd : AreDigits digits) (rest : List Char) : NoneAcross (placeholder digits) rest := by
  intro i n hi
  rw [length_placeholder]
  rcases (placeholderAt_zero hd rest).disjoint hi with ⟨rfl, rfl⟩ | hle | hle
  · exact .inl (by omega)
  · exact .inr (by omega)
  · have := two_le_of_placeholderAt hi
    omega

theorem noneAcross_char {c : Char} (hc : ∀ n, ¬ PlaceholderAt (c :: cs) 0 n) : NoneAcross [c] cs := by
  intro i n hi
  right
  by_contra hn
  obtain rfl : i = 0 := by simpa using hn
  exact hc n hi

/-- A placeholder of the joined text is one of a part, if none reaches over. -/
theorem NoneAcross.placeholderAt_iff (h : NoneAcross a b) :
    PlaceholderAt (a ++ b) i n ↔ PlaceholderAt a i n ∨ ∃ j, i = a.length + j ∧ PlaceholderAt b j n := by
  constructor
  · intro hi
    rcases h i n hi with hle | hle
    · refine .inl ⟨hle, ?_⟩
      have := hi.2
      rwa [List.drop_append_of_le_length (by omega),
        List.take_append_of_le_length (by rw [List.length_drop]; omega)] at this
    · obtain ⟨j, rfl⟩ : ∃ j, i = a.length + j := ⟨i - a.length, by omega⟩
      exact .inr ⟨j, rfl, (placeholderAt_append a).1 hi⟩
  · rintro (⟨hle, hp⟩ | ⟨j, rfl, hj⟩)
    · refine ⟨by rw [List.length_append]; omega, ?_⟩
      rwa [List.drop_append_of_le_length (by omega),
        List.take_append_of_le_length (by rw [List.length_drop]; omega)]
    · exact (placeholderAt_append a).2 hj

/-- A placeholder begins a text, or none does. -/
theorem begins (c : Char) (cs : List Char) :
    (∃ digits rest, AreDigits digits ∧ c :: cs = placeholder digits ++ rest) ∨
      ∀ n, ¬ PlaceholderAt (c :: cs) 0 n := by
  by_cases h : ∃ n, PlaceholderAt (c :: cs) 0 n
  · obtain ⟨n, hn⟩ := h
    obtain ⟨digits, rest, hd, -, -, heq⟩ := Template.placeholderAt_iff.1 hn
    exact .inl ⟨digits, rest, hd, heq⟩
  · exact .inr fun n hn => h ⟨n, hn⟩

end NoneAcross

/-! ## Pieces -/

/-- A piece of a template. -/
inductive Piece where
  | char (c : Char)
  | placeholder (digits : List Char)
deriving DecidableEq, Repr

def Piece.text : Piece → List Char
  | char c => [c]
  | placeholder digits => Template.placeholder digits

/-- What stands for a piece in the rendered text. -/
def Piece.filled (arg : List Char) : Piece → List Char
  | char c => [c]
  | placeholder _ => arg

theorem Piece.length_text_pos (p : Piece) : 0 < p.text.length := by
  cases p with
  | char => simp [text]
  | placeholder => simp [text, Template.placeholder]

/-- A placeholder of `n` characters is among the pieces, behind pieces of `i` characters. -/
def HoleAt (ps : List Piece) (i n : Nat) : Prop :=
  ∃ front digits back, ps = front ++ .placeholder digits :: back ∧
    i = (front.flatMap Piece.text).length ∧ n = digits.length + 2

/-- The pieces make up the text, and the placeholders among them are exactly those that occur in it. -/
structure Cuts (cs : List Char) (ps : List Piece) : Prop where
  text : ps.flatMap Piece.text = cs
  placeholders : ∀ i n, PlaceholderAt cs i n ↔ HoleAt ps i n

section Holes

variable {ps qs : List Piece} {p : Piece} {i n : Nat}

theorem not_holeAt_nil (i n : Nat) : ¬ HoleAt [] i n := by
  rintro ⟨front, digits, back, h, -⟩
  simp at h

theorem holeAt_cons :
    HoleAt (p :: ps) i n ↔ (∃ digits, p = .placeholder digits ∧ i = 0 ∧ n = digits.length + 2) ∨
      ∃ j, i = p.text.length + j ∧ HoleAt ps j n := by
  constructor
  · rintro ⟨front, digits, back, hps, rfl, rfl⟩
    cases front with
    | nil => cases hps; exact .inl ⟨digits, rfl, rfl, rfl⟩
    | cons q front =>
      obtain ⟨rfl, rfl⟩ := List.cons.inj hps
      exact .inr ⟨_, by rw [List.flatMap_cons, List.length_append], front, digits, back, rfl, rfl, rfl⟩
  · rintro (⟨digits, rfl, rfl, rfl⟩ | ⟨j, rfl, front, digits, back, rfl, rfl, rfl⟩)
    · exact ⟨[], digits, ps, rfl, rfl, rfl⟩
    · exact ⟨p :: front, digits, back, rfl, by rw [List.flatMap_cons, List.length_append], rfl⟩

theorem holeAt_append :
    HoleAt (ps ++ qs) i n ↔ HoleAt ps i n ∨ ∃ j, i = (ps.flatMap Piece.text).length + j ∧ HoleAt qs j n := by
  induction ps generalizing i with
  | nil => simp [not_holeAt_nil]
  | cons p ps ih =>
    rw [List.cons_append, holeAt_cons, holeAt_cons, or_assoc]
    apply or_congr_right
    constructor
    · rintro ⟨j, rfl, hj⟩
      rcases ih.1 hj with hj | ⟨k, rfl, hk⟩
      · exact .inl ⟨j, rfl, hj⟩
      · exact .inr ⟨k, by rw [List.flatMap_cons, List.length_append, Nat.add_assoc], hk⟩
    · rintro (⟨j, rfl, hj⟩ | ⟨k, rfl, hk⟩)
      · exact ⟨j, rfl, ih.2 (.inl hj)⟩
      · exact ⟨_, by rw [List.flatMap_cons, List.length_append, Nat.add_assoc], ih.2 (.inr ⟨k, rfl, hk⟩)⟩

end Holes

namespace Cuts

variable {a b cs : List Char} {p : Piece} {ps qs : List Piece}

theorem nil : Cuts [] [] :=
  ⟨rfl, fun i n => iff_of_false (not_placeholderAt_of_short (by simp) i n) (not_holeAt_nil i n)⟩

theorem char (c : Char) : Cuts [c] [.char c] := by
  refine ⟨rfl, fun i n => iff_of_false (not_placeholderAt_of_short (by simp) i n) fun h => ?_⟩
  rcases holeAt_cons.1 h with ⟨digits, hp, -⟩ | ⟨j, -, hj⟩
  · cases hp
  · exact not_holeAt_nil j n hj

theorem placeholder {digits : List Char} (hd : AreDigits digits) :
    Cuts (Template.placeholder digits) [.placeholder digits] := by
  have h0 := placeholderAt_zero hd []
  rw [List.append_nil] at h0
  refine ⟨by simp [Piece.text], fun i n => ⟨fun h => ?_, fun h => ?_⟩⟩
  · rcases h0.disjoint h with ⟨rfl, rfl⟩ | hle | hle
    · exact holeAt_cons.2 (.inl ⟨digits, rfl, rfl, rfl⟩)
    · have := two_le_of_placeholderAt h
      have := h.1
      rw [length_placeholder] at this
      omega
    · have := two_le_of_placeholderAt h
      omega
  · rcases holeAt_cons.1 h with ⟨digits', hp, rfl, rfl⟩ | ⟨j, -, hj⟩
    · cases hp; exact h0
    · exact absurd hj (not_holeAt_nil j n)

/-- Parts that no placeholder reaches over are cut each by itself. -/
theorem append (h : Cuts a ps) (h' : Cuts b qs) (hn : NoneAcross a b) : Cuts (a ++ b) (ps ++ qs) := by
  refine ⟨by rw [List.flatMap_append, h.text, h'.text], fun i n => ?_⟩
  rw [hn.placeholderAt_iff, holeAt_append, h.placeholders, h.text]
  simp only [h'.placeholders]

/-- Behind its first piece a text is cut by the other pieces. -/
theorem tail (h : Cuts cs (p :: ps)) : Cuts (ps.flatMap Piece.text) ps := by
  have htext : cs = p.text ++ ps.flatMap Piece.text := by rw [← h.text, List.flatMap_cons]
  refine ⟨rfl, fun i n => ?_⟩
  rw [← placeholderAt_append p.text, ← htext, h.placeholders, holeAt_cons]
  have := p.length_text_pos
  constructor
  · rintro (⟨digits, -, hi, -⟩ | ⟨j, hj, hole⟩)
    · omega
    · obtain rfl : i = j := by omega
      exact hole
  · exact fun hole => .inr ⟨i, rfl, hole⟩

/-- The first piece of a text, if it is a placeholder, has digits. -/
theorem areDigits {digits : List Char} (h : Cuts cs (.placeholder digits :: ps)) : AreDigits digits := by
  obtain ⟨digits', rest, hd, hlen, -, heq⟩ :=
    placeholderAt_iff.1 ((h.placeholders 0 (digits.length + 2)).2 (holeAt_cons.2 (.inl ⟨digits, rfl, rfl, rfl⟩)))
  rw [List.drop_zero, ← h.text, List.flatMap_cons, Piece.text, Template.placeholder, Template.placeholder] at heq
  simp only [List.cons_append, List.append_assoc, List.cons.injEq, true_and] at heq
  rw [(List.append_inj heq (by omega)).1]
  exact hd

/-- If the first piece is a character, no placeholder begins the text. -/
theorem not_placeholderAt_zero {c : Char} (h : Cuts cs (.char c :: ps)) (n : Nat) : ¬ PlaceholderAt cs 0 n := by
  intro h0
  rcases holeAt_cons.1 ((h.placeholders 0 n).1 h0) with ⟨digits, hp, -⟩ | ⟨j, hj, -⟩
  · cases hp
  · rw [Piece.text, List.length_singleton] at hj
    omega

/-- No placeholder reaches over the end of the first piece. -/
theorem noneAcross (h : Cuts cs (p :: ps)) : NoneAcross p.text (ps.flatMap Piece.text) := by
  cases p with
  | char c =>
    apply noneAcross_char
    intro n
    have := h.not_placeholderAt_zero n
    rwa [← h.text] at this
  | placeholder digits => exact noneAcross_placeholder h.areDigits _

end Cuts

/-- Every text can be cut. -/
theorem exists_cuts (cs : List Char) : ∃ ps, Cuts cs ps := by
  induction hn : cs.length using Nat.strong_induction_on generalizing cs with
  | _ n ih =>
    cases cs with
    | nil => exact ⟨[], .nil⟩
    | cons c cs =>
      rcases begins c cs with ⟨digits, rest, hd, heq⟩ | hc
      · have hlen := congrArg List.length heq
        rw [List.length_append, length_placeholder] at hlen
        obtain ⟨ps, hps⟩ := ih rest.length (by omega) rest rfl
        exact ⟨_, heq ▸ (Cuts.placeholder hd).append hps (noneAcross_placeholder hd rest)⟩
      · obtain ⟨ps, hps⟩ := ih cs.length (by rw [← hn]; simp) cs rfl
        exact ⟨_, (Cuts.char c).append hps (noneAcross_char hc)⟩

/-! ## Rendering piece by piece -/

section Fill

variable {a b cs digits : List Char} {ps : List Piece}

theorem fill_nil (arg : List Char) : fill arg [] = [] := by
  rw [fill]

theorem fill_placeholder (arg : List Char) (hd : AreDigits digits) (rest : List Char) :
    fill arg (placeholder digits ++ rest) = arg ++ fill arg rest := by
  have hdig : placeholderDigits? (digits ++ '}' :: rest) = some digits.length :=
    placeholderDigits?_eq_some_iff.2 ⟨digits, rest, hd, rfl, rfl⟩
  have hcons : placeholder digits ++ rest = '{' :: (digits ++ '}' :: rest) := by simp [placeholder]
  rw [hcons, fill, if_pos (by decide), hdig]
  simp

theorem fill_char (arg : List Char) {c : Char} (hc : ∀ n, ¬ PlaceholderAt (c :: cs) 0 n) :
    fill arg (c :: cs) = c :: fill arg cs := by
  rw [fill]
  split
  · next hb =>
    cases hd : placeholderDigits? cs with
    | none => rfl
    | some n => exact absurd (placeholderAt_zero_iff.2 ⟨by simpa using hb, hd⟩) (hc (n + 2))
  · rfl

/-- Rendering puts the argument for each placeholder and keeps every other piece. -/
theorem Cuts.fill_eq (arg : List Char) (h : Cuts cs ps) : fill arg cs = ps.flatMap (Piece.filled arg) := by
  induction ps generalizing cs with
  | nil => rw [← h.text]; exact fill_nil arg
  | cons p ps ih =>
    have htext : cs = p.text ++ ps.flatMap Piece.text := by rw [← h.text, List.flatMap_cons]
    rw [List.flatMap_cons, ← ih h.tail, htext]
    cases p with
    | char c =>
      rw [Piece.text, List.singleton_append] at htext ⊢
      exact fill_char arg fun n => htext ▸ h.not_placeholderAt_zero n
    | placeholder digits => exact fill_placeholder arg h.areDigits _

/-- Rendering distributes over a cut that goes through no placeholder. -/
theorem fill_append (arg : List Char) (h : NoneAcross a b) : fill arg (a ++ b) = fill arg a ++ fill arg b := by
  obtain ⟨ps, hps⟩ := exists_cuts a
  obtain ⟨qs, hqs⟩ := exists_cuts b
  rw [hps.fill_eq, hqs.fill_eq, (hps.append hqs h).fill_eq, List.flatMap_append]

/-- A rendering that distributes, puts the argument for a placeholder and keeps a text without one goes piece by
piece. -/
theorem Cuts.eq_filled {f : List Char → List Char} {arg : List Char}
    (happend : ∀ a b, NoneAcross a b → f (a ++ b) = f a ++ f b) (hhole : ∀ cs, IsPlaceholder cs → f cs = arg)
    (hkeep : ∀ cs, (∀ i n, ¬ PlaceholderAt cs i n) → f cs = cs) (h : Cuts cs ps) :
    f cs = ps.flatMap (Piece.filled arg) := by
  induction ps generalizing cs with
  | nil =>
    rw [← h.text]
    exact hkeep [] (not_placeholderAt_of_short (by simp))
  | cons p ps ih =>
    rw [← h.text, List.flatMap_cons, List.flatMap_cons, happend _ _ h.noneAcross, ih h.tail]
    congr 1
    cases p with
    | char c => exact hkeep [c] (not_placeholderAt_of_short (by simp))
    | placeholder digits => exact hhole _ ⟨digits, h.areDigits, rfl⟩

end Fill

/-- Rendering replaces exactly the placeholders. A template is cut into characters and placeholders, the latter
being all the placeholders that occur in it, of which no two overlap; the rendered text has the argument, or nothing
without one, for every placeholder, and keeps the characters in their order. So rendering distributes over every cut
of the template that goes through no placeholder, and it is the only way to do so that puts the argument for a
placeholder and keeps a text without one. -/
theorem render_exact (template : String) (arg : Option String) :
    (∃ ps, Cuts template.toList ps) ∧
    (∀ ps, Cuts template.toList ps →
      (render template arg).toList = ps.flatMap (Piece.filled (arg.getD "").toList)) ∧
    (∀ i n j m, PlaceholderAt template.toList i n → PlaceholderAt template.toList j m →
      i = j ∧ n = m ∨ i + n ≤ j ∨ j + m ≤ i) ∧
    (∀ a b, template = a ++ b → NoneAcross a.toList b.toList →
      render template arg = render a arg ++ render b arg) ∧
    (∀ f : String → String, (∀ a b, NoneAcross a.toList b.toList → f (a ++ b) = f a ++ f b) →
      (∀ a, IsPlaceholder a.toList → f a = arg.getD "") →
      (∀ a, (∀ i n, ¬ PlaceholderAt a.toList i n) → f a = a) → f template = render template arg) := by
  have hfill : ∀ t : String, (render t arg).toList = fill (arg.getD "").toList t.toList := by
    intro t
    rw [render, String.toList_ofList]
  refine ⟨exists_cuts _, fun ps hps => ?_, fun i n j m h h' => h.disjoint h', ?_, ?_⟩
  · rw [hfill, hps.fill_eq]
  · rintro a b rfl h
    apply String.toList_inj.1
    rw [String.toList_append, hfill, hfill, hfill, String.toList_append, fill_append _ h]
  · intro f happend hhole hkeep
    obtain ⟨ps, hps⟩ := exists_cuts template.toList
    apply String.toList_inj.1
    have heq : (f (String.ofList template.toList)).toList = ps.flatMap (Piece.filled (arg.getD "").toList) := by
      refine hps.eq_filled (f := fun cs => (f (String.ofList cs)).toList) (fun a b h => ?_) (fun cs h => ?_)
        fun cs h => ?_
      · rw [String.ofList_append, happend _ _ (by simpa using h), String.toList_append]
      · rw [hhole _ (by simpa using h)]
      · rw [hkeep _ (by simpa using h), String.toList_ofList]
    rw [hfill, hps.fill_eq, ← heq, String.ofList_toList]

/-- Broken and nested braces hide no placeholder, and an argument that makes a placeholder together with the text
behind it is kept as it is. -/
theorem render_exact_nested :
    ∃ ps front back, front = "\x7b\x7b0\x7dé\x7b1\x7b2\x7d\x7d" ∧ back = "\x7b12\x7b0\x7d0\x7d" ∧
      Cuts (front ++ back).toList ps ∧
      ps.flatMap (Piece.filled "\x7b7".toList) = "\x7b\x7b7é\x7b1\x7b7\x7d\x7b12\x7b70\x7d".toList ∧
      render (front ++ back) (some "\x7b7") = render front (some "\x7b7") ++ render back (some "\x7b7") := by
  obtain ⟨⟨ps, hps⟩, hall, -, happend, -⟩ :=
    render_exact ("\x7b\x7b0\x7dé\x7b1\x7b2\x7d\x7d" ++ "\x7b12\x7b0\x7d0\x7d") (some "\x7b7")
  refine ⟨ps, _, _, rfl, rfl, hps, ?_, happend _ _ rfl (by decide +kernel)⟩
  exact (hall ps hps).symm.trans (by decide +kernel)

end Template

end EcmaTokens
