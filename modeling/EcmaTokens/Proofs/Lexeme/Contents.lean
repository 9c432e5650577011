/-
What the text between the quotes of a string literal stands for. The text splits in one way, from left to
right, into items: characters, escapes and line continuations. An item means UTF-16 units, and a
continuation separates; what the literal means is the text of the units between the continuations. The
pieces that are read are these items, and decoding them piece by piece comes to the same.
-/
import EcmaTokens.Proofs.Lexeme.Lookahead
import EcmaTokens.Proofs.Lexeme.Quoted
import EcmaTokens.Proofs.Source.Utf16

namespace EcmaTokens

namespace Quoted

/-! ## Items -/

/-- What a part of the contents stands for. -/
inductive Item where
  | units (us : List Nat)
  /-- A code in octal digits, which is one unit. -/
  | octal (code : Nat)
  | continuation
deriving DecidableEq, Repr

namespace Item

def codeUnits : Item → List Nat
  | units us => us
  | octal code => [code]
  | continuation => []

/-- The letters that stand for a control character behind a backslash. -/
def controls : List (Char × Char) :=
  [('n', '\n'), ('r', '\r'), ('t', '\t'), ('b', '\x08'), ('f', '\x0c'), ('v', '\x0b')]

/-- The letters that take hexadecimal digits behind a backslash, and how many. -/
def hexLetters : List (Char × Nat) :=
  [('u', 4), ('x', 2)]

def HexDigits (k : Nat) (digits : List Char) : Prop :=
  digits.length = k ∧ ∀ c ∈ digits, isHexDigit c = true

/-- The most digits an octal escape has. -/
def octalWidth (first : Char) : Nat :=
  if first ≤ '3' then 3 else 2

/-- The text `text` in front of `rest` spells the item. -/
inductive Spelled : Item → List Char → List Char → Prop
  | raw {c : Char} {rest : List Char} : c ≠ '\\' → Spelled (units (Utf16.encode c)) [c] rest
  | control {e c : Char} {rest : List Char} :
      (e, c) ∈ controls → Spelled (units (Utf16.encode c)) ['\\', e] rest
  | hex {e : Char} {k : Nat} {digits rest : List Char} :
      (e, k) ∈ hexLetters → HexDigits k digits →
      Spelled (units [digitsValue 16 digits]) ('\\' :: e :: digits) rest
  /-- Without its digits the letter stands for itself. -/
  | letter {e : Char} {k : Nat} {rest : List Char} :
      (e, k) ∈ hexLetters → ¬ HexDigits k (rest.take k) →
      Spelled (units (Utf16.encode e)) ['\\', e] rest
  /-- The digits end where there are enough of them, or in front of another character. -/
  | octal {d : Char} {ds rest : List Char} :
      (∀ c ∈ d :: ds, isOctalDigit c = true) → (d :: ds).length ≤ octalWidth d →
      (d :: ds).length = octalWidth d ∨ rest.head?.any isOctalDigit = false →
      Spelled (octal (digitsValue 8 (d :: ds))) ('\\' :: d :: ds) rest
  | lineEnd {e rest : List Char} : Gap.LineEnd e rest → Spelled continuation ('\\' :: e) rest
  | other {c : Char} {rest : List Char} :
      isLineTerminator c = false → isOctalDigit c = false → c ∉ hexLetters.map Prod.fst →
      c ∉ controls.map Prod.fst → Spelled (units (Utf16.encode c)) ['\\', c] rest

end Item

/-- The text is a sequence of spelled items. -/
inductive Splits : List Char → List Item → Prop
  | nil : Splits [] []
  | cons {item : Item} {text rest : List Char} {items : List Item} :
      item.Spelled text rest → Splits rest items → Splits (text ++ rest) (item :: items)

/-- The units of the items between the continuations. -/
def segments (items : List Item) : List (List Nat) :=
  (items.splitOn .continuation).map fun segment => segment.flatMap Item.codeUnits

/-- The text of the items, recovered segment by segment. -/
def textOf (items : List Item) : List Char :=
  (segments items).flatMap Utf16.decode

/-- The item that a piece stands for. -/
def Piece.item : Piece → Item
  | char c => .units (Utf16.encode c)
  | unit code => .units [code]
  | octal code => .octal code
  | continuation => .continuation

/-! ## Escapes -/

section Escapes

open Item

variable {cs : List Char}

/-- Four digits at the front of the text make a unit. -/
theorem unitCode?_of_hexDigits (h : HexDigits 4 (cs.take 4)) : unitCode? cs = some (digitsValue 16 (cs.take 4)) := by
  obtain ⟨hl, hd⟩ := h
  rcases cs with _ | ⟨a, _ | ⟨b, _ | ⟨c, _ | ⟨d, cs⟩⟩⟩⟩
  case cons.cons.cons.cons =>
    simp only [List.take_succ_cons, List.take_zero, List.forall_mem_cons, isHexDigit,
      Option.isSome_iff_exists] at hd
    obtain ⟨⟨_, ha⟩, ⟨_, hb⟩, ⟨_, hc⟩, ⟨_, hd⟩, -⟩ := hd
    simp [unitCode?, hexQuad?, digitsValue, digitValue, ha, hb, hc, hd]
  all_goals simp at hl

theorem unitCode?_of_not_hexDigits (h : ¬ HexDigits 4 (cs.take 4)) : unitCode? cs = none := by
  by_contra hs
  obtain ⟨n, hn⟩ := Option.ne_none_iff_exists'.1 hs
  unfold unitCode? at hn
  split at hn
  · obtain ⟨ha, hb, hc, hd⟩ := isHexDigit_of_hexQuad? hn
    exact h ⟨rfl, by simp [ha, hb, hc, hd]⟩
  · cases hn

/-- Two digits at the front of the text make a character with one unit. -/
theorem byteChar?_of_hexDigits (h : HexDigits 2 (cs.take 2)) :
    ∃ c, byteChar? cs = some c ∧ Utf16.encode c = [digitsValue 16 (cs.take 2)] := by
  obtain ⟨hl, hd⟩ := h
  have hlt := digitsValue_lt fun c hc => digitValue_lt_of_hex (hd c hc)
  rw [hl] at hlt
  have hv : (digitsValue 16 (cs.take 2)).isValidChar := .inl (by omega)
  have hbyte : byteChar? cs = charOfCode? (digitsValue 16 (cs.take 2)) := by
    rcases cs with _ | ⟨a, _ | ⟨b, cs⟩⟩
    case cons.cons =>
      simp only [List.take_succ_cons, List.take_zero, List.forall_mem_cons, isHexDigit,
        Option.isSome_iff_exists] at hd
      obtain ⟨⟨_, ha⟩, ⟨_, hb⟩, -⟩ := hd
      simp [byteChar?, digitsValue, digitValue, ha, hb]
    all_goals simp at hl
  refine ⟨Char.ofNatAux _ hv, ?_, ?_⟩
  · rw [hbyte, charOfCode?, dif_pos hv]
  · have hn : (Char.ofNatAux _ hv).toNat = digitsValue 16 (cs.take 2) := rfl
    rw [Utf16.encode, hn, if_pos (by omega)]

theorem byteChar?_of_not_hexDigits (h : ¬ HexDigits 2 (cs.take 2)) : byteChar? cs = none := by
  by_contra hs
  obtain ⟨n, hn⟩ := Option.ne_none_iff_exists'.1 hs
  unfold byteChar? at hn
  split at hn
  · simp only [Option.bind_eq_bind, Option.bind_eq_some_iff] at hn
    obtain ⟨_, ha, _, hb, _⟩ := hn
    exact h ⟨rfl, by simp [isHexDigit, ha, hb]⟩
  · cases hn

/-! ### One lemma for each form -/

theorem escape?_lineEnd {e rest : List Char} (h : Gap.LineEnd e rest) :
    escape? (e ++ rest) = some (.continuation, e.length) := by
  obtain ⟨c, ds, rfl, hc⟩ := h.head
  have hw := h.terminatorWidth_eq
  rw [List.cons_append] at hw ⊢
  rw [escape?, if_pos hc, hw]

theorem octalDigits_append {d : Char} {ds rest : List Char} (h : ∀ c ∈ d :: ds, isOctalDigit c = true)
    (hl : (d :: ds).length ≤ octalWidth d)
    (hr : (d :: ds).length = octalWidth d ∨ rest.head?.any isOctalDigit = false) :
    octalDigits d (ds ++ rest) = d :: ds := by
  rw [octalDigits, ← List.cons_append, ← octalWidth, List.take_append, List.take_of_length_le hl]
  apply takeWhile_append h
  rw [List.head?_take]
  rcases hr with hr | hr
  · rw [hr, Nat.sub_self]; rfl
  · split
    · rfl
    · exact hr

theorem escape?_octal {d : Char} {ds rest : List Char} (h : ∀ c ∈ d :: ds, isOctalDigit c = true)
    (hl : (d :: ds).length ≤ octalWidth d)
    (hr : (d :: ds).length = octalWidth d ∨ rest.head?.any isOctalDigit = false) :
    escape? (d :: ds ++ rest) = some (.octal (digitsValue 8 (d :: ds)), (d :: ds).length) := by
  have hd := h d (List.mem_cons_self ..)
  have ht := not_isLineTerminator_of_decimal (isDecimalDigit_of_octal hd)
  rw [List.cons_append, escape?, if_neg (by simp [ht]), if_pos hd, octalDigits_append h hl hr]

theorem escape?_control {e c : Char} (h : (e, c) ∈ controls) (cs : List Char) :
    escape? (e :: cs) = some (.char c, 1) := by
  simp only [controls, List.mem_cons, Prod.mk.injEq, List.not_mem_nil, or_false] at h
  rcases h with ⟨rfl, rfl⟩ | ⟨rfl, rfl⟩ | ⟨rfl, rfl⟩ | ⟨rfl, rfl⟩ | ⟨rfl, rfl⟩ | ⟨rfl, rfl⟩ <;> rfl

theorem escape?_u (cs : List Char) : escape? ('u' :: cs) =
    match unitCode? cs with
    | some code => some (.unit code, 5)
    | none => some (.char 'u', 1) := rfl

theorem escape?_x (cs : List Char) : escape? ('x' :: cs) =
    match byteChar? cs with
    | some c => some (.char c, 3)
    | none => some (.char 'x', 1) := rfl

theorem escape?_hex {e : Char} {k : Nat} (h : (e, k) ∈ hexLetters) (hd : HexDigits k (cs.take k)) :
    ∃ piece, escape? (e :: cs) = some (piece, 1 + k) ∧ piece.item = .units [digitsValue 16 (cs.take k)] := by
  simp only [hexLetters, List.mem_cons, Prod.mk.injEq, List.not_mem_nil, or_false] at h
  rcases h with ⟨rfl, rfl⟩ | ⟨rfl, rfl⟩
  · exact ⟨.unit (digitsValue 16 (cs.take 4)), by rw [escape?_u, unitCode?_of_hexDigits hd], rfl⟩
  · obtain ⟨c, hc, hu⟩ := byteChar?_of_hexDigits hd
    exact ⟨.char c, by rw [escape?_x, hc], congrArg Item.units hu⟩

theorem escape?_letter {e : Char} {k : Nat} (h : (e, k) ∈ hexLetters) (hd : ¬ HexDigits k (cs.take k)) :
    escape? (e :: cs) = some (.char e, 1) := by
  simp only [hexLetters, List.mem_cons, Prod.mk.injEq, List.not_mem_nil, or_false] at h
  rcases h with ⟨rfl, rfl⟩ | ⟨rfl, rfl⟩
  · rw [escape?_u, unitCode?_of_not_hexDigits hd]
  · rw [escape?_x, byteChar?_of_not_hexDigits hd]

theorem controlEscape?_eq_none {c : Char} (h : c ∉ controls.map Prod.fst) : controlEscape? c = none := by
  unfold controlEscape?
  split
  case h_7 => rfl
  all_goals exact absurd (by decide) h

theorem escape?_other {c : Char} (ht : isLineTerminator c = false) (ho : isOctalDigit c = false)
    (hx : c ∉ hexLetters.map Prod.fst) (hc : c ∉ controls.map Prod.fst) (cs : List Char) :
    escape? (c :: cs) = some (.char c, 1) := by
  simp only [hexLetters, List.map_cons, List.map_nil, List.mem_cons, List.not_mem_nil, or_false, not_or] at hx
  simp [escape?, ht, ho, hx, controlEscape?_eq_none hc]

/-! ### Items are what is read -/

/-- An escape is read as the item it spells. -/
theorem escape?_of_spelled {item : Item} {text rest : List Char} (h : item.Spelled ('\\' :: text) rest) :
    ∃ piece, escape? (text ++ rest) = some (piece, text.length) ∧ piece.item = item := by
  generalize hs : '\\' :: text = spelling at h
  cases h with
  | raw hc => cases hs; exact absurd rfl hc
  | control hc => cases hs; exact ⟨_, escape?_control hc rest, rfl⟩
  | @hex e k digits rest hk hd =>
    cases hs
    have htake : (digits ++ rest).take k = digits := List.take_left' hd.1
    rw [← htake] at hd
    obtain ⟨piece, hp, hi⟩ := escape?_hex hk hd
    rw [htake] at hd hi
    refine ⟨piece, ?_, hi⟩
    rw [List.cons_append, hp, List.length_cons, hd.1, Nat.add_comm]
  | letter hk hd => cases hs; exact ⟨_, escape?_letter hk hd, rfl⟩
  | octal hd hl hr => cases hs; exact ⟨_, escape?_octal hd hl hr, rfl⟩
  | lineEnd he => cases hs; exact ⟨_, escape?_lineEnd he, rfl⟩
  | other ht ho hx hc => cases hs; exact ⟨_, escape?_other ht ho hx hc rest, rfl⟩

/-- The octal digits in front of a text are as many as an escape has, or end in front of another character. -/
theorem exists_octalDigits {d : Char} (hd : isOctalDigit d = true) (cs : List Char) :
    ∃ ds, octalDigits d cs = d :: ds ∧ (∀ c ∈ d :: ds, isOctalDigit c = true) ∧
      (d :: ds).length ≤ octalWidth d ∧
      ((d :: ds).length = octalWidth d ∨ ((d :: cs).drop (d :: ds).length).head?.any isOctalDigit = false) := by
  have hrun : octalDigits d cs = ((d :: cs).take (octalWidth d)).takeWhile isOctalDigit := rfl
  obtain ⟨k, hk⟩ : ∃ k, octalWidth d = k + 1 := by
    unfold octalWidth
    split <;> exact ⟨_, rfl⟩
  have hcons : octalDigits d cs = d :: (cs.take k).takeWhile isOctalDigit := by
    rw [hrun, hk, List.take_succ_cons, List.takeWhile_cons, if_pos hd]
  refine ⟨_, hcons, ?_, ?_, ?_⟩
  · rw [← hcons, hrun]
    exact fun c hc => List.mem_takeWhile_imp hc
  · rw [← hcons, hrun]
    exact (List.takeWhile_prefix _).length_le.trans (List.length_take_le _ _)
  · rw [← hcons, hrun]
    exact takeWhile_take_stop ..

/-- Every text behind a backslash has an escape in front, which is read. -/
theorem exists_spelled (c : Char) (cs : List Char) :
    ∃ piece n, escape? (c :: cs) = some (piece, n) ∧
      piece.item.Spelled ('\\' :: (c :: cs).take n) ((c :: cs).drop n) := by
  by_cases ht : isLineTerminator c = true
  · exact ⟨.continuation, _, by rw [escape?, if_pos ht], .lineEnd (Gap.lineEnd_terminatorWidth cs ht)⟩
  by_cases ho : isOctalDigit c = true
  · obtain ⟨ds, hds, hd, hl, hr⟩ := exists_octalDigits ho cs
    refine ⟨.octal (digitsValue 8 (c :: ds)), (c :: ds).length, by rw [escape?, if_neg ht, if_pos ho, hds], ?_⟩
    rw [← hds, octalDigits_eq_take, hds]
    exact .octal hd hl hr
  by_cases hx : c ∈ hexLetters.map Prod.fst
  · obtain ⟨⟨e, k⟩, hk, rfl⟩ := List.mem_map.1 hx
    by_cases hd : HexDigits k (cs.take k)
    · obtain ⟨piece, hp, hi⟩ := escape?_hex hk hd
      refine ⟨piece, _, hp, ?_⟩
      rw [hi, Nat.add_comm, List.take_succ_cons, List.drop_succ_cons]
      exact .hex hk hd
    · exact ⟨_, _, escape?_letter hk hd, .letter hk hd⟩
  by_cases hc : c ∈ controls.map Prod.fst
  · obtain ⟨⟨e, d⟩, hd, rfl⟩ := List.mem_map.1 hc
    exact ⟨_, _, escape?_control hd cs, .control hd⟩
  · simp only [Bool.not_eq_true] at ht ho
    exact ⟨_, _, escape?_other ht ho hx hc cs, .other ht ho hx hc⟩

/-- What is read behind a backslash is an escape. -/
theorem spelled_of_escape? {piece : Piece} {n : Nat} (h : escape? cs = some (piece, n)) :
    piece.item.Spelled ('\\' :: cs.take n) (cs.drop n) := by
  cases cs with
  | nil => cases h
  | cons c cs =>
    obtain ⟨piece', n', h', hs⟩ := exists_spelled c cs
    rw [h] at h'
    cases h'
    exact hs

end Escapes

/-! ## Splitting -/

namespace Item

variable {item item' : Item} {text text' rest rest' : List Char}

/-- What is spelled in front of a text is spelled in front of its front. -/
theorem Spelled.of_append {tail : List Char} (h : item.Spelled text (rest ++ tail)) : item.Spelled text rest := by
  cases h with
  | raw hc => exact .raw hc
  | control hc => exact .control hc
  | hex hk hd => exact .hex hk hd
  | @letter e k _ hk hd =>
    refine .letter hk fun hd' => hd ?_
    have hle : k ≤ rest.length := by
      have := hd'.1
      rw [List.length_take] at this
      omega
    rwa [List.take_append_of_le_length hle]
  | octal hd hl hr =>
    refine .octal hd hl (hr.imp_right fun hr => ?_)
    cases rest with
    | nil => rfl
    | cons => exact hr
  | lineEnd he =>
    refine .lineEnd ?_
    cases he with
    | pair => exact .pair rest
    | single hc hs =>
      refine .single hc ?_
      cases rest with
      | nil => exact Seam.nil_right _
      | cons => exact hs
  | other ht ho hx hc => exact .other ht ho hx hc

theorem Spelled.raw_or_escape (h : item.Spelled text rest) :
    (∃ c, c ≠ '\\' ∧ text = [c] ∧ item = units (Utf16.encode c)) ∨ ∃ escape, text = '\\' :: escape := by
  cases h with
  | raw hc => exact .inl ⟨_, hc, rfl, rfl⟩
  | control | hex | letter | octal | lineEnd | other => exact .inr ⟨_, rfl⟩

theorem Spelled.ne_nil (h : item.Spelled text rest) : text ≠ [] := by
  rcases h.raw_or_escape with ⟨c, -, rfl, -⟩ | ⟨escape, rfl⟩ <;> exact List.cons_ne_nil _ _

/-- A text has one item in front. -/
theorem Spelled.unique (h : item.Spelled text rest) (h' : item'.Spelled text' rest')
    (he : text ++ rest = text' ++ rest') : item' = item ∧ text' = text := by
  rcases h.raw_or_escape with ⟨c, hc, rfl, rfl⟩ | ⟨escape, rfl⟩
  · rcases h'.raw_or_escape with ⟨c', -, rfl, rfl⟩ | ⟨escape', rfl⟩
    · obtain rfl : c = c' := (List.cons.inj he).1
      exact ⟨rfl, rfl⟩
    · exact absurd (List.cons.inj he).1 hc
  · rcases h'.raw_or_escape with ⟨c', hc', rfl, rfl⟩ | ⟨escape', rfl⟩
    · exact absurd (List.cons.inj he).1.symm hc'
    · -- the same text is read behind both backslashes
      have he : escape ++ rest = escape' ++ rest' := (List.cons.inj he).2
      obtain ⟨piece, hp, rfl⟩ := escape?_of_spelled h
      obtain ⟨piece', hp', rfl⟩ := escape?_of_spelled h'
      rw [he, hp'] at hp
      obtain ⟨rfl, hn⟩ := Prod.mk.inj (Option.some.inj hp)
      exact ⟨rfl, by rw [(List.append_inj he hn.symm).1]⟩

/-- Units have sixteen bits, and octal codes nine at most. -/
def Bounded : Item → Prop
  | units us => ∀ u ∈ us, u < 0x10000
  | octal code => code < 0x200
  | continuation => True

theorem Spelled.bounded (h : item.Spelled text rest) : item.Bounded := by
  cases h with
  | raw | control | letter | other => exact fun u hu => Utf16.lt_of_mem_encode hu
  | @hex e k digits _ hk hd =>
    have hlt := digitsValue_lt fun c hc => digitValue_lt_of_hex (hd.2 c hc)
    have hle : k ≤ 4 := by
      simp only [hexLetters, List.mem_cons, Prod.mk.injEq, List.not_mem_nil, or_false] at hk
      omega
    have hpow : 16 ^ digits.length ≤ 16 ^ 4 := Nat.pow_le_pow_right (by decide) (hd.1.trans_le hle)
    intro u hu
    rw [List.mem_singleton.1 hu]
    omega
  | @octal d ds _ hd hl =>
    have hlt := digitsValue_lt fun c hc => digitValue_lt_of_octal (hd c hc)
    have hle : octalWidth d ≤ 3 := by
      unfold octalWidth
      split <;> omega
    have hpow : 8 ^ (d :: ds).length ≤ 8 ^ 3 := Nat.pow_le_pow_right (by decide) (hl.trans hle)
    show digitsValue 8 (d :: ds) < 0x200
    omega
  | lineEnd => trivial

end Item

variable {cs : List Char} {items items' : List Item}

/-- A text splits in one way. -/
theorem Splits.unique (h : Splits cs items) (h' : Splits cs items') : items' = items := by
  induction h generalizing items' with
  | nil =>
    generalize hcs : ([] : List Char) = cs at h'
    cases h' with
    | nil => rfl
    | cons hs _ => exact absurd (List.append_eq_nil_iff.1 hcs.symm).1 hs.ne_nil
  | @cons item text rest items hs _ ih =>
    generalize hcs : text ++ rest = cs at h'
    cases h' with
    | nil => exact absurd (List.append_eq_nil_iff.1 hcs).1 hs.ne_nil
    | cons hs' hr' =>
      obtain ⟨rfl, rfl⟩ := hs.unique hs' hcs
      obtain rfl := List.append_cancel_left hcs
      rw [ih hr']

theorem Splits.bounded (h : Splits cs items) : ∀ item ∈ items, item.Bounded := by
  induction h with
  | nil => exact fun item hi => absurd hi List.not_mem_nil
  | cons hs _ ih => exact List.forall_mem_cons.2 ⟨hs.bounded, ih⟩

/-- The pieces that are read are the items of the text in front of the closing quote. -/
theorem splits_of_scanPieces {quote : Char} {ps : List Piece} {n : Nat} (h : scanPieces quote cs = .read ps n) :
    ∃ contents rest, cs = contents ++ quote :: rest ∧ n = contents.length + 1 ∧
      Splits contents (ps.map Piece.item) := by
  fun_induction scanPieces quote cs generalizing ps n with
  | case1 => cases h
  | case2 c cs hc =>
    cases h
    obtain rfl : c = quote := by simpa using hc
    exact ⟨[], cs, rfl, rfl, .nil⟩
  | case3 => cases h
  | case4 => cases h
  | case5 c cs hc hl hb piece k he ih =>
    obtain ⟨m, hm, rfl⟩ := Scan.after_eq_read h
    obtain ⟨ps', hps, rfl⟩ := Scan.map_eq_read hm
    obtain ⟨contents, rest, hd, rfl, hsplit⟩ := ih hps
    obtain rfl : c = '\\' := by simpa using hb
    have hs := spelled_of_escape? he
    rw [hd] at hs
    have hk : (cs.take k).length = k := by
      have := escape?_width he
      rw [List.length_take]
      omega
    refine ⟨'\\' :: (cs.take k ++ contents), rest, ?_, by simp [hk]; omega, .cons hs.of_append hsplit⟩
    rw [List.cons_append, List.append_assoc, ← hd, List.take_append_drop]
  | case6 c cs hc hl hb ih =>
    obtain ⟨m, hm, rfl⟩ := Scan.after_eq_read h
    obtain ⟨ps', hps, rfl⟩ := Scan.map_eq_read hm
    obtain ⟨contents, rest, rfl, rfl, hsplit⟩ := ih hps
    have hraw : c ≠ '\\' := by simpa using hb
    exact ⟨c :: contents, rest, rfl, by simp; omega, .cons (.raw hraw) hsplit⟩

/-! ## Decoding -/

theorem segments_continuation (items : List Item) : segments (.continuation :: items) = [] :: segments items := by
  rw [segments, List.splitOn, List.splitOnP_cons_eq_if_modifyHead]
  rfl

theorem segments_cons {item : Item} (h : item ≠ .continuation) {us : List Nat} {uss : List (List Nat)}
    (hs : segments items = us :: uss) : segments (item :: items) = (item.codeUnits ++ us) :: uss := by
  rw [segments, List.splitOn] at hs ⊢
  rw [List.splitOnP_cons_eq_if_modifyHead, if_neg (by simpa using h)]
  obtain ⟨segment, rest, hsplit, rfl, rfl⟩ := List.map_eq_cons_iff.1 hs
  rw [hsplit]
  rfl

theorem exists_segments (items : List Item) : ∃ us uss, segments items = us :: uss := by
  induction items with
  | nil => exact ⟨[], [], rfl⟩
  | cons item items ih =>
    obtain ⟨us, uss, hs⟩ := ih
    by_cases h : item = .continuation
    · exact ⟨_, _, by rw [h, segments_continuation]⟩
    · exact ⟨_, _, segments_cons h hs⟩

theorem textOf_continuation (items : List Item) : textOf (.continuation :: items) = textOf items := by
  rw [textOf, segments_continuation]
  rfl

theorem textOf_eq {us : List Nat} {uss : List (List Nat)} (hs : segments items = us :: uss) :
    textOf items = Utf16.decode us ++ uss.flatMap Utf16.decode := by
  rw [textOf, hs, List.flatMap_cons]

/-- A character stands for itself. -/
theorem textOf_encode (c : Char) (items : List Item) :
    textOf (.units (Utf16.encode c) :: items) = c :: textOf items := by
  obtain ⟨us, uss, hs⟩ := exists_segments items
  rw [textOf_eq (segments_cons (by simp) hs), textOf_eq hs, Item.codeUnits, Utf16.decode_encode_append,
    List.cons_append]

/-- A unit that forms no pair with the one behind it stands for itself. -/
theorem textOf_single {item : Item} {u : Nat} (hi : item.codeUnits = [u]) {us : List Nat} {uss : List (List Nat)}
    (hs : segments items = us :: uss) (h : Utf16.isHigh u = true → us.head?.any Utf16.isLow = false) :
    textOf (item :: items) = Utf16.single u :: textOf items := by
  have hne : item ≠ .continuation := by
    rintro rfl
    cases hi
  rw [textOf_eq (segments_cons hne hs), textOf_eq hs, hi, List.singleton_append, Utf16.decode_single h,
    List.cons_append]

/-- A low unit and a high one in front of it are one character. -/
theorem textOf_pair {high low : Nat} (hh : Utf16.isHigh high = true) (hl : Utf16.isLow low = true)
    (items : List Item) :
    textOf (.units [high] :: .units [low] :: items) = Utf16.pair high low :: textOf items := by
  obtain ⟨us, uss, hs⟩ := exists_segments items
  have hs' := segments_cons (show Item.units [high] ≠ .continuation by simp)
    (segments_cons (show Item.units [low] ≠ .continuation by simp) hs)
  rw [textOf_eq hs', textOf_eq hs, Item.codeUnits, Item.codeUnits, List.singleton_append, List.singleton_append,
    Utf16.decode_pair hh hl, List.cons_append]

/-- Only a unit written as one puts a low unit at the front of the segment. -/
theorem head_segments {ps : List Piece} (hb : ∀ item ∈ ps.map Piece.item, item.Bounded)
    (hu : ∀ low ps', ps = .unit low :: ps' → Utf16.isLow low = false) {us : List Nat} {uss : List (List Nat)}
    (hs : segments (ps.map Piece.item) = us :: uss) : us.head?.any Utf16.isLow = false := by
  cases ps with
  | nil => cases hs; rfl
  | cons piece ps =>
    rw [List.map_cons] at hs hb
    obtain ⟨us', uss', hs'⟩ := exists_segments (ps.map Piece.item)
    cases piece with
    | char c =>
      rw [Piece.item, segments_cons (by simp) hs'] at hs
      obtain ⟨rfl, -⟩ := List.cons.inj hs
      obtain ⟨u, vs, hc, hl⟩ := Utf16.encode_head c
      rw [Item.codeUnits, hc]
      exact hl
    | unit low =>
      rw [Piece.item, segments_cons (by simp) hs'] at hs
      obtain ⟨rfl, -⟩ := List.cons.inj hs
      exact hu low ps rfl
    | octal code =>
      rw [Piece.item, segments_cons (by simp) hs'] at hs
      obtain ⟨rfl, -⟩ := List.cons.inj hs
      have hcode : code < 0x200 := hb _ (List.mem_cons_self ..)
      show Utf16.isLow code = false
      simp only [Utf16.isLow, Bool.and_eq_false_iff, decide_eq_false_iff_not]
      omega
    | continuation =>
      rw [Piece.item, segments_continuation] at hs
      obtain ⟨rfl, -⟩ := List.cons.inj hs
      rfl

theorem isHighSurrogate_eq (code : Nat) : isHighSurrogate code = Utf16.isHigh code := by
  rw [Bool.eq_iff_iff, isHighSurrogate, Utf16.isHigh]
  simp only [Bool.and_eq_true, decide_eq_true_eq]
  omega

theorem isLowSurrogate_eq (code : Nat) : isLowSurrogate code = Utf16.isLow code := by
  rw [Bool.eq_iff_iff, isLowSurrogate, Utf16.isLow]
  simp only [Bool.and_eq_true, decide_eq_true_eq]
  omega

theorem charOfCode_of_valid {code : Nat} (h : code.isValidChar) : charOfCode code = Char.ofNat code := by
  rw [charOfCode, charOfCode?, dif_pos h, Char.ofNat, dif_pos h]
  rfl

theorem charOfCode_eq_single {code : Nat} (h : code < 0x10000) : charOfCode code = Utf16.single code := by
  by_cases hv : code.isValidChar
  · have hh : Utf16.isHigh code = false := Utf16.isHigh_toNat (Char.ofNatAux code hv)
    have hl : Utf16.isLow code = false := Utf16.isLow_toNat (Char.ofNatAux code hv)
    rw [charOfCode_of_valid hv, Utf16.single, hh, hl, if_neg (by decide)]
  · have hs : (Utf16.isHigh code || Utf16.isLow code) = true := by
      simp only [Utf16.isHigh, Utf16.isLow, Bool.or_eq_true, Bool.and_eq_true, decide_eq_true_eq]
      simp only [Nat.isValidChar] at hv
      omega
    rw [charOfCode, charOfCode?, dif_neg hv, Utf16.single, if_pos hs]
    rfl

theorem charOfCode_pairCode {high low : Nat} (hh : Utf16.isHigh high = true) (hl : Utf16.isLow low = true) :
    charOfCode (pairCode high low) = Utf16.pair high low := by
  simp only [Utf16.isHigh, Utf16.isLow, Bool.and_eq_true, decide_eq_true_eq] at hh hl
  exact charOfCode_of_valid (.inr (by unfold pairCode; omega))

/-- Decoding piece by piece recovers the text of the segments. -/
theorem decode_eq_textOf {ps : List Piece} (hb : ∀ item ∈ ps.map Piece.item, item.Bounded) :
    decode ps = textOf (ps.map Piece.item) := by
  fun_induction decode ps with
  | case1 => rfl
  | case2 high low ps hp ih =>
    rw [isHighSurrogate_eq, isLowSurrogate_eq, Bool.and_eq_true] at hp
    simp only [List.map_cons, List.forall_mem_cons] at hb
    rw [charOfCode_pairCode hp.1 hp.2, ih hb.2.2]
    exact (textOf_pair hp.1 hp.2 _).symm
  | case3 high low ps hp ih =>
    rw [isHighSurrogate_eq, isLowSurrogate_eq, Bool.and_eq_true, not_and, Bool.not_eq_true] at hp
    rw [List.map_cons, List.forall_mem_cons] at hb
    obtain ⟨us, uss, hs⟩ := exists_segments ((Piece.unit low :: ps).map Piece.item)
    rw [charOfCode_eq_single (hb.1 high (List.mem_singleton_self high)), ih hb.2]
    refine (textOf_single rfl hs fun hh => head_segments hb.2 ?_ hs).symm
    rintro low' ps' ⟨⟩
    exact hp hh
  | case4 code ps hne ih =>
    rw [List.map_cons, List.forall_mem_cons] at hb
    obtain ⟨us, uss, hs⟩ := exists_segments (ps.map Piece.item)
    rw [charOfCode_eq_single (hb.1 code (List.mem_singleton_self code)), ih hb.2]
    exact (textOf_single rfl hs fun _ => head_segments hb.2 (fun low ps' h => (hne low ps' h).elim) hs).symm
  | case5 code ps ih =>
    rw [List.map_cons, List.forall_mem_cons] at hb
    obtain ⟨us, uss, hs⟩ := exists_segments (ps.map Piece.item)
    have hcode : code < 0x200 := hb.1
    have hh : Utf16.isHigh code = false := by
      simp only [Utf16.isHigh, Bool.and_eq_false_iff, decide_eq_false_iff_not]
      omega
    rw [charOfCode_eq_single (by omega), ih hb.2]
    exact (textOf_single rfl hs fun h => by rw [hh] at h; cases h).symm
  | case6 c ps ih =>
    rw [List.map_cons, List.forall_mem_cons] at hb
    rw [ih hb.2]
    exact (textOf_encode c _).symm
  | case7 ps ih =>
    rw [List.map_cons, List.forall_mem_cons] at hb
    rw [ih hb.2]
    exact (textOf_continuation _).symm

/-- A literal that is read ends at a quote like its first one. Its value is the text of the items in between, and
it says whether one of them is octal. -/
theorem scan_contents {quote : Char} {x : Quoted} {n : Nat} (h : scan (quote :: cs) = .read x n) :
    ∃ contents rest items, cs = contents ++ quote :: rest ∧ n = contents.length + 2 ∧ Splits contents items ∧
      x.value = String.ofList (textOf items) ∧ (x.legacyOctal = true ↔ ∃ code, Item.octal code ∈ items) := by
  rw [scan] at h
  obtain ⟨m, hm, rfl⟩ := Scan.after_eq_read h
  obtain ⟨ps, hps, rfl⟩ := Scan.map_eq_read hm
  obtain ⟨contents, rest, rfl, rfl, hs⟩ := splits_of_scanPieces hps
  refine ⟨contents, rest, _, rfl, by omega, hs, ?_, ?_⟩
  · rw [ofPieces, decode_eq_textOf hs.bounded]
  · rw [ofPieces, List.any_eq_true]
    constructor
    · rintro ⟨piece, hp, ho⟩
      cases piece with
      | octal code => exact ⟨code, List.mem_map_of_mem hp⟩
      | char | unit | continuation => cases ho
    · rintro ⟨code, hc⟩
      obtain ⟨piece, hp, hi⟩ := List.mem_map.1 hc
      cases piece with
      | octal => exact ⟨_, hp, rfl⟩
      | char | unit | continuation => cases hi

end Quoted

end EcmaTokens
