/-
Spellings of words. Every character of a word stands for itself or is written as an escape, by its code in four
hexadecimal digits. The recogniser of words takes the longest spelling in front of a text, whichever of its two ways
it goes, and fails exactly if a backslash stands behind it.
-/
import EcmaTokens.Proofs.Lexeme.Word

namespace EcmaTokens

/-! ## Codes -/

theorem charOfCode?_eq_some_iff {n : Nat} {c : Char} : charOfCode? n = some c ↔ n = c.toNat := by
  constructor
  · intro h
    by_cases hn : n.isValidChar
    · cases (dif_pos hn).symm.trans h
      rfl
    · cases (dif_neg hn).symm.trans h
  · rintro rfl
    exact dif_pos c.valid

namespace Word

/-! ## Names and their spellings -/

/-- The characters may stand in a word one after another, from its start if `first` is set. -/
def Fits (first : Bool) : List Char → Prop
  | [] => True
  | c :: cs => allows first c = true ∧ Fits false cs

/-- An identifier start with identifier parts behind it. -/
def IsName : List Char → Prop
  | [] => False
  | c :: cs => isIdentifierStart c = true ∧ ∀ d ∈ cs, isIdentifierPart d = true

/-- The text spells the name, each character by itself or by its code in four hexadecimal digits. -/
inductive Spells : List Char → List Char → Prop
  | nil : Spells [] []
  | plain {ch : Char} {name text : List Char} : Spells name text → Spells (ch :: name) (ch :: text)
  | escaped {ch a b c d : Char} {name text : List Char} : hexQuad? a b c d = some ch.toNat → Spells name text →
      Spells (ch :: name) ('\\' :: 'u' :: a :: b :: c :: d :: text)

/-- The text begins with an escape of a character that may stand in a word. -/
def BeginsEscape (first : Bool) (cs : List Char) : Prop :=
  ∃ a b c d ch ds, cs = '\\' :: 'u' :: a :: b :: c :: d :: ds ∧ hexQuad? a b c d = some ch.toNat ∧
    allows first ch = true

/-- Neither a character nor an escape of a word begins the text. -/
structure Stops (first : Bool) (cs : List Char) : Prop where
  plain : ∀ {c ds}, cs = c :: ds → allows first c = false
  escaped : ¬ BeginsEscape first cs

/-- The text is the longest one in front of `rest` that spells characters of a word. -/
structure LongestRun (name text rest : List Char) : Prop where
  spells : Spells name text
  fits : Fits true name
  longest : ∀ name' text', Spells name' text' → Fits true name' → text' <+: text ++ rest →
    text'.length ≤ text.length

section Names

variable {first : Bool} {name text : List Char}

theorem not_allows_backslash (first : Bool) : allows first '\\' = false := by
  cases first <;> decide

theorem opensWord_of_isIdentifierStart {c : Char} (h : isIdentifierStart c = true) : opensWord c = true := by
  unfold isIdentifierStart at h
  unfold opensWord
  split at h
  · next ha => rw [if_pos ha, opensAsciiWord, h, Bool.true_or]
  · next ha => rwa [if_neg ha, isIdentifierStart, if_neg ha]

theorem fits_iff_isName (h : name ≠ []) : Fits true name ↔ IsName name := by
  have parts : ∀ cs : List Char, Fits false cs ↔ ∀ d ∈ cs, isIdentifierPart d = true := by
    intro cs
    induction cs with
    | nil => simp [Fits]
    | cons c cs ih => simp [Fits, ih, allows]
  cases name with
  | nil => exact absurd rfl h
  | cons c cs => rw [Fits, IsName, parts, allows, if_pos rfl]

/-- A name spells itself. -/
theorem Spells.self (name : List Char) : Spells name name := by
  induction name with
  | nil => exact .nil
  | cons c cs ih => exact .plain ih

theorem Spells.isEmpty_eq (h : Spells name text) : text.isEmpty = name.isEmpty := by
  cases h <;> rfl

/-- A word stops at a backslash that begins no escape of it. -/
theorem Stops.backslash {cs : List Char} (h : ¬ BeginsEscape first ('\\' :: cs)) : Stops first ('\\' :: cs) := by
  refine ⟨?_, h⟩
  rintro _ _ ⟨⟩
  exact not_allows_backslash first

/-- A character that may stand in a word is no backslash. -/
theorem ne_backslash_of_allows {c : Char} (h : allows first c = true) : c ≠ '\\' := by
  rintro rfl
  rw [not_allows_backslash] at h
  cases h

/-- Where the word stops, nothing longer spells characters of it. -/
theorem Stops.length_le {rest name' text' : List Char} (h : Stops (first && text.isEmpty) rest)
    (hs : Spells name text) (hf : Fits first name) (hs' : Spells name' text') (hf' : Fits first name')
    (hp : text' <+: text ++ rest) : text'.length ≤ text.length := by
  induction hs generalizing first name' text' with
  | nil =>
    rw [List.isEmpty_nil, Bool.and_true] at h
    obtain ⟨tail, ht⟩ := hp
    cases hs' with
    | nil => exact Nat.le_refl _
    | plain =>
      have := h.plain ht.symm
      rw [hf'.1] at this
      cases this
    | escaped hq => exact absurd ⟨_, _, _, _, _, _, ht.symm, hq, hf'.1⟩ h.escaped
  | @plain _ _ text hs ih =>
    have hstop : Stops (false && text.isEmpty) rest := by simpa using h
    cases hs' with
    | nil => exact Nat.zero_le _
    | plain hs' =>
      have := ih hstop hf.2 hs' hf'.2 (List.cons_prefix_cons.1 hp).2
      simpa using this
    | escaped => exact absurd (List.cons_prefix_cons.1 hp).1.symm (ne_backslash_of_allows hf.1)
  | @escaped _ _ _ _ _ _ text hq hs ih =>
    have hstop : Stops (false && text.isEmpty) rest := by simpa using h
    cases hs' with
    | nil => exact Nat.zero_le _
    | plain => exact absurd (List.cons_prefix_cons.1 hp).1 (ne_backslash_of_allows hf'.1)
    | escaped hq' hs' =>
      simp only [List.cons_append, List.cons_prefix_cons] at hp
      have := ih hstop hf.2 hs' hf'.2 hp.2.2.2.2.2.2
      simpa using this

end Names

/-! ## Reading what is spelled -/

section Reading

variable {first : Bool} {cs name text rest : List Char}

theorem scanSpelled_escape {a b c d ch : Char} (hq : hexQuad? a b c d = some ch.toNat)
    (ha : allows first ch = true) (cs : List Char) :
    scanSpelled first ('\\' :: 'u' :: a :: b :: c :: d :: cs) =
      ((scanSpelled false cs).map (ch :: ·)).after 6 := by
  have he : escaped? first ch.toNat = some ch := escaped?_eq_some_iff.2 ⟨charOfCode?_eq_some_iff.2 rfl, ha⟩
  simp only [scanSpelled, hq, he]

/-- A spelling is read back, whatever follows it. -/
theorem scanSpelled_append (hs : Spells name text) (hf : Fits first name) (rest : List Char) :
    scanSpelled first (text ++ rest) =
      ((scanSpelled (first && text.isEmpty) rest).map (name ++ ·)).after text.length := by
  induction hs generalizing first with
  | nil =>
    rw [List.nil_append, List.isEmpty_nil, Bool.and_true]
    cases scanSpelled first rest <;> simp [Scan.map, Scan.after]
  | @plain ch name text hs ih =>
    obtain ⟨hc, hcs⟩ := hf
    rw [List.cons_append, scanSpelled_cons (ne_backslash_of_allows hc), if_pos hc, ih hcs, List.isEmpty_cons,
      Bool.and_false, Bool.false_and]
    cases scanSpelled false rest <;> simp [Scan.map, Scan.after] <;> omega
  | @escaped ch a b c d name text hq hs ih =>
    obtain ⟨hc, hcs⟩ := hf
    simp only [List.cons_append]
    rw [scanSpelled_escape hq hc, ih hcs, List.isEmpty_cons, Bool.and_false, Bool.false_and]
    cases scanSpelled false rest <;> simp [Scan.map, Scan.after] <;> omega

/-- Where nothing of a word begins, a backslash is malformed and anything else ends the word. -/
theorem scanSpelled_of_stops (h : Stops first cs) :
    (cs.head? = some '\\' ∧ ∃ n, scanSpelled first cs = .malformed n) ∨
      (cs.head? ≠ some '\\' ∧ scanSpelled first cs = .read [] 0) := by
  fun_cases scanSpelled first cs with
  | case1 => exact .inr ⟨nofun, rfl⟩
  | case2 => exact .inl ⟨rfl, _, rfl⟩
  | case3 => exact .inl ⟨rfl, _, rfl⟩
  | case4 a b c d cs code hq ch he =>
    obtain ⟨hcode, ha⟩ := escaped?_eq_some_iff.1 he
    rw [charOfCode?_eq_some_iff.1 hcode] at hq
    exact absurd ⟨a, b, c, d, ch, cs, rfl, hq, ha⟩ h.escaped
  | case5 => exact .inl ⟨rfl, _, rfl⟩
  | case6 => exact .inl ⟨rfl, _, rfl⟩
  | case7 c cs _ _ _ ha =>
    rw [h.plain rfl] at ha
    cases ha
  | case8 c cs _ _ hb =>
    refine .inr ⟨?_, rfl⟩
    rintro ⟨⟩
    exact hb rfl

/-- Every text is a spelling with something behind it at which no spelling goes on. -/
theorem exists_spells (first : Bool) (cs : List Char) :
    ∃ name text rest, cs = text ++ rest ∧ Spells name text ∧ Fits first name ∧
      Stops (first && text.isEmpty) rest := by
  fun_induction scanSpelled first cs with
  | case1 first => exact ⟨[], [], [], rfl, .nil, trivial, by rintro _ _ ⟨⟩, by rintro ⟨_, _, _, _, _, _, ⟨⟩, -⟩⟩
  | case2 first a b c d cs hq =>
    refine ⟨[], [], _, rfl, .nil, trivial, .backslash ?_⟩
    rintro ⟨_, _, _, _, _, _, ⟨⟩, hq', -⟩
    rw [hq] at hq'
    cases hq'
  | case3 first a b c d cs code hq he =>
    refine ⟨[], [], _, rfl, .nil, trivial, .backslash ?_⟩
    rintro ⟨_, _, _, _, ch, _, ⟨⟩, hq', ha⟩
    rw [hq, Option.some.injEq] at hq'
    have hsome : escaped? first code = some ch :=
      escaped?_eq_some_iff.2 ⟨charOfCode?_eq_some_iff.2 hq', by simpa using ha⟩
    rw [he] at hsome
    cases hsome
  | case4 first a b c d cs code hq ch he ih =>
    obtain ⟨hcode, ha⟩ := escaped?_eq_some_iff.1 he
    rw [charOfCode?_eq_some_iff.1 hcode] at hq
    obtain ⟨name, text, rest, rfl, hs, hf, hstop⟩ := ih
    exact ⟨ch :: name, _, rest, rfl, .escaped hq hs, ⟨ha, hf⟩, by simpa using hstop⟩
  | case5 first cs h =>
    refine ⟨[], [], _, rfl, .nil, trivial, .backslash ?_⟩
    rintro ⟨a, b, c, d, _, ds, ⟨⟩, -⟩
    exact h a b c d ds rfl
  | case6 first cs _ h =>
    refine ⟨[], [], _, rfl, .nil, trivial, .backslash ?_⟩
    rintro ⟨a, b, c, d, _, ds, ⟨⟩, -⟩
    exact h _ rfl
  | case7 first c cs h₁ h₂ h₃ hc ih =>
    obtain ⟨name, text, rest, rfl, hs, hf, hstop⟩ := ih
    exact ⟨c :: name, c :: text, rest, rfl, .plain hs, ⟨hc, hf⟩, by simpa using hstop⟩
  | case8 first c cs h₁ h₂ h₃ hc =>
    refine ⟨[], [], _, rfl, .nil, trivial, ?_, ?_⟩
    · rintro _ _ ⟨⟩
      simpa using hc
    · rintro ⟨_, _, _, _, _, _, ⟨⟩, -⟩
      exact h₃ rfl

/-- What comes of reading a word: it is read to the end of the longest run, unless a backslash stands there. -/
theorem scanSpelled_eq (first : Bool) (cs : List Char) :
    ∃ name text rest, cs = text ++ rest ∧ Spells name text ∧ Fits first name ∧
      Stops (first && text.isEmpty) rest ∧
      ((rest.head? = some '\\' ∧ ∃ n, scanSpelled first cs = .malformed n) ∨
        (rest.head? ≠ some '\\' ∧ scanSpelled first cs = .read name text.length)) := by
  obtain ⟨name, text, rest, rfl, hs, hf, hstop⟩ := exists_spells first cs
  refine ⟨name, text, rest, rfl, hs, hf, hstop, ?_⟩
  rw [scanSpelled_append hs hf]
  rcases scanSpelled_of_stops hstop with ⟨hb, n, hn⟩ | ⟨hb, hr⟩
  · exact .inl ⟨hb, text.length + n, by rw [hn]; rfl⟩
  · exact .inr ⟨hb, by rw [hr]; simp [Scan.map, Scan.after]⟩

/-- A name is read back from any of its spellings in front of what cannot go on with it. -/
theorem scan_of_spells (hs : Spells name text) (hn : IsName name)
    (hr : rest.head?.any (fun c => c == '\\' || isIdentifierPart c) = false) :
    (text ++ rest).head?.any opensWord = true ∧ scan (text ++ rest) = .read name text.length := by
  have hf : Fits true name := (fits_iff_isName (by rintro rfl; exact hn)).2 hn
  have hopens : (text ++ rest).head?.any opensWord = true := by
    cases hs with
    | nil => exact hn.elim
    | plain => simpa using opensWord_of_isIdentifierStart hn.1
    | escaped => rfl
  have hne : text.isEmpty = false := by
    rw [hs.isEmpty_eq]
    cases name with
    | nil => exact hn.elim
    | cons => rfl
  obtain ⟨c, cs, hcs⟩ : ∃ c cs, text ++ rest = c :: cs := by
    cases htext : text ++ rest with
    | nil => rw [htext] at hopens; cases hopens
    | cons c cs => exact ⟨c, cs, rfl⟩
  refine ⟨hopens, ?_⟩
  rw [hcs] at hopens ⊢
  rw [scan_eq_scanSpelled (by simpa using hopens), ← hcs, scanSpelled_append hs hf, hne, Bool.and_false,
    scanSpelled_eq_nil (by simpa [allows] using hr)]
  simp [Scan.map, Scan.after]

end Reading

/-! ## Texts with their escapes replaced -/

/-- The text with the character it denotes for every `\u` and four hexadecimal digits. -/
def unescape : List Char → List Char
  | '\\' :: 'u' :: a :: b :: c :: d :: cs =>
    match (hexQuad? a b c d).bind charOfCode? with
    | some ch => ch :: unescape cs
    | none => '\\' :: unescape ('u' :: a :: b :: c :: d :: cs)
  | c :: cs => c :: unescape cs
  | [] => []

theorem unescape_cons {c : Char} (hc : c ≠ '\\') (cs : List Char) : unescape (c :: cs) = c :: unescape cs := by
  rw [unescape]
  rintro a b c' d ds rfl
  exact absurd rfl hc

/-- The name is its spelling with the escapes replaced. -/
theorem Spells.unescape_eq {first : Bool} {name text : List Char} (h : Spells name text) (hf : Fits first name) :
    unescape text = name := by
  induction h generalizing first with
  | nil => rfl
  | plain _ ih => rw [unescape_cons (ne_backslash_of_allows hf.1), ih hf.2]
  | escaped hq _ ih =>
    rw [unescape, hq, Option.bind_some, charOfCode?_eq_some_iff.2 rfl, ih hf.2]

end Word

end EcmaTokens
