/-
The bytes of a text in UTF-8. A text can be cut at an offset only between two characters. An ASCII character is
the byte of its code, and any other begins with a byte that is no ASCII character, so that comparing bytes with
ASCII characters compares the characters.
-/
import EcmaTokens.Source.Position

namespace EcmaTokens

/-! ## Cutting at an offset -/

/-- The text cut behind its first `n` bytes, if a character ends there. -/
def splitBytes? : List Char → Nat → Option (List Char × List Char)
  | cs, 0 => some ([], cs)
  | [], _ + 1 => none
  | c :: cs, n + 1 =>
    if c.utf8Size ≤ n + 1 then (splitBytes? cs (n + 1 - c.utf8Size)).map fun (a, b) => (c :: a, b) else none

/-- The part of a text between two offsets, if they are in order and characters end at both. -/
def sliceBytes? (cs : List Char) (start stop : Nat) : Option (List Char) := do
  let (front, _) ← splitBytes? cs stop
  let (_, part) ← splitBytes? front start
  return part

theorem splitBytes?_eq_some_iff {cs a b : List Char} {n : Nat} :
    splitBytes? cs n = some (a, b) ↔ cs = a ++ b ∧ utf8Length a = n := by
  have nil_of_length : ∀ {a : List Char}, utf8Length a = 0 → a = [] := by
    rintro (_ | ⟨c, cs⟩) h
    · rfl
    · have := c.utf8Size_pos
      rw [utf8Length_cons] at h
      omega
  fun_induction splitBytes? cs n generalizing a b with
  | case1 cs =>
    constructor
    · rintro ⟨⟩
      exact ⟨rfl, rfl⟩
    · rintro ⟨rfl, h⟩
      rw [nil_of_length h]
      rfl
  | case2 n =>
    refine ⟨nofun, fun ⟨h, hn⟩ => ?_⟩
    obtain ⟨rfl, -⟩ := List.append_eq_nil_iff.1 h.symm
    cases hn
  | case3 c cs n hc ih =>
    rw [Option.map_eq_some_iff]
    constructor
    · rintro ⟨⟨a, b⟩, h, ⟨⟩⟩
      obtain ⟨rfl, hn⟩ := ih.1 h
      exact ⟨rfl, by rw [utf8Length_cons]; omega⟩
    · rintro ⟨h, hn⟩
      cases a with
      | nil => cases hn
      | cons d a =>
        cases h
        rw [utf8Length_cons] at hn
        exact ⟨(a, b), ih.2 ⟨rfl, by omega⟩, rfl⟩
  | case4 c cs n hc =>
    refine ⟨nofun, fun ⟨h, hn⟩ => ?_⟩
    cases a with
    | nil => cases hn
    | cons d a =>
      cases h
      rw [utf8Length_cons] at hn
      omega

theorem splitBytes?_append (a b : List Char) : splitBytes? (a ++ b) (utf8Length a) = some (a, b) :=
  splitBytes?_eq_some_iff.2 ⟨rfl, rfl⟩

theorem sliceBytes?_append (a w b : List Char) :
    sliceBytes? (a ++ w ++ b) (utf8Length a) (utf8Length (a ++ w)) = some w := by
  rw [sliceBytes?, splitBytes?_append, Option.bind_eq_bind, Option.bind_some]
  dsimp only
  rw [splitBytes?_append]
  rfl

/-! ## Bytes -/

/-- The bytes of a text. -/
def utf8Bytes (cs : List Char) : List UInt8 :=
  cs.flatMap String.utf8EncodeChar

@[simp] theorem utf8Bytes_append (a b : List Char) : utf8Bytes (a ++ b) = utf8Bytes a ++ utf8Bytes b :=
  List.flatMap_append

theorem length_utf8Bytes (cs : List Char) : (utf8Bytes cs).length = utf8Length cs := by
  induction cs with
  | nil => rfl
  | cons c cs ih =>
    rw [utf8Bytes, List.flatMap_cons, List.length_append, String.length_utf8EncodeChar, utf8Length_cons]
    exact congrArg _ ih

theorem drop_utf8Bytes (a b : List Char) : (utf8Bytes (a ++ b)).drop (utf8Length a) = utf8Bytes b := by
  rw [utf8Bytes_append, ← length_utf8Bytes, List.drop_left]

/-- The characters whose codes are the bytes of a text. -/
def byteChars (cs : List Char) : List Char :=
  (utf8Bytes cs).map Char.ofUInt8

section Ascii

variable {c : Char} {cs w : List Char}

theorem encode_of_isAscii (h : isAscii c = true) : String.utf8EncodeChar c = [UInt8.ofNat c.toNat] := by
  have h : c.val.toNat ≤ 127 := by simpa [isAscii, Nat.lt_succ_iff] using h
  simp only [String.utf8EncodeChar, h, if_true]
  rfl

theorem utf8Size_of_isAscii (h : isAscii c = true) : c.utf8Size = 1 := by
  rw [← String.length_utf8EncodeChar, encode_of_isAscii h]
  rfl

theorem utf8Length_of_isAscii (h : ∀ c ∈ w, isAscii c = true) : utf8Length w = w.length := by
  induction w with
  | nil => rfl
  | cons c cs ih =>
    obtain ⟨hc, hcs⟩ := List.forall_mem_cons.1 h
    rw [utf8Length_cons, utf8Size_of_isAscii hc, ih hcs, List.length_cons, Nat.add_comm]

theorem toNat_ofNat_of_isAscii (h : isAscii c = true) : (UInt8.ofNat c.toNat).toNat = c.toNat := by
  have hc : c.toNat < 128 := by simpa [isAscii] using h
  rw [UInt8.toNat_ofNat']
  exact Nat.mod_eq_of_lt (by omega)

theorem ofUInt8_ofNat (h : isAscii c = true) : Char.ofUInt8 (UInt8.ofNat c.toNat) = c :=
  Char.ext (UInt32.toNat_inj.1 (toNat_ofNat_of_isAscii h))

theorem byteChars_cons (h : isAscii c = true) (cs : List Char) : byteChars (c :: cs) = c :: byteChars cs := by
  rw [byteChars, utf8Bytes, List.flatMap_cons, encode_of_isAscii h, List.map_append, List.map_singleton,
    ofUInt8_ofNat h]
  rfl

/-- A character beyond ASCII begins with a byte beyond it. -/
theorem exists_byteChars (h : isAscii c = false) (cs : List Char) :
    ∃ d ds, byteChars (c :: cs) = d :: ds ∧ isAscii d = false := by
  have lead : ∀ {b : Nat} {bs rest : List UInt8}, 128 ≤ b → b < 256 →
      ∃ d ds, (UInt8.ofNat b :: bs ++ rest).map Char.ofUInt8 = d :: ds ∧ isAscii d = false := by
    intro b bs rest hb hlt
    refine ⟨_, _, rfl, decide_eq_false (Nat.not_lt.2 ?_)⟩
    show 128 ≤ (UInt8.ofNat b).toNat
    rw [UInt8.toNat_ofNat', Nat.mod_eq_of_lt hlt]
    exact hb
  have hv : ¬ c.val.toNat ≤ 127 := by simpa [isAscii, Nat.lt_succ_iff] using h
  simp only [byteChars, utf8Bytes, List.flatMap_cons, String.utf8EncodeChar, if_neg hv]
  split
  · exact lead (by omega) (by omega)
  · split
    · exact lead (by omega) (by omega)
    · exact lead (by omega) (by omega)

/-- An ASCII text stands in front of the bytes exactly if it stands in front of the text. -/
theorem prefix_byteChars_iff (hw : ∀ c ∈ w, isAscii c = true) : w <+: byteChars cs ↔ w <+: cs := by
  induction w generalizing cs with
  | nil => exact iff_of_true List.nil_prefix List.nil_prefix
  | cons d w ih =>
    obtain ⟨hd, hw⟩ := List.forall_mem_cons.1 hw
    cases cs with
    | nil => rfl
    | cons c cs =>
      cases hc : isAscii c with
      | true => rw [byteChars_cons hc, List.cons_prefix_cons, List.cons_prefix_cons, ih hw]
      | false =>
        obtain ⟨b, bs, heq, hb⟩ := exists_byteChars hc cs
        rw [heq, List.cons_prefix_cons, List.cons_prefix_cons]
        refine iff_of_false ?_ ?_
        · rintro ⟨rfl, -⟩
          rw [hd] at hb
          cases hb
        · rintro ⟨rfl, -⟩
          rw [hd] at hc
          cases hc

theorem head?_byteChars_iff (hc : isAscii c = true) : (byteChars cs).head? = some c ↔ cs.head? = some c := by
  have single : ∀ ds : List Char, ds.head? = some c ↔ [c] <+: ds := by
    rintro (_ | ⟨d, ds⟩)
    · simp
    · rw [List.cons_prefix_cons, List.head?_cons, Option.some.injEq, eq_comm]
      simp
  rw [single, single, prefix_byteChars_iff (by simpa using hc)]

end Ascii

end EcmaTokens
