/-
UTF-16. A character up to U+FFFF is one unit, any other a high unit with a low one behind it. Text is
recovered from units loosely: a high unit with a low one directly behind it is one character again, and
any other surrogate unit is the replacement character.
-/
import EcmaTokens.Source.Character

namespace EcmaTokens

namespace Utf16

def isHigh (u : Nat) : Bool :=
  0xd800 ≤ u && u < 0xdc00

def isLow (u : Nat) : Bool :=
  0xdc00 ≤ u && u < 0xe000

/-- The units of a character. -/
def encode (c : Char) : List Nat :=
  if c.toNat < 0x10000 then [c.toNat]
  else [0xd800 + (c.toNat - 0x10000) / 0x400, 0xdc00 + (c.toNat - 0x10000) % 0x400]

/-- The character of a high unit and a low one. -/
def pair (high low : Nat) : Char :=
  Char.ofNat (0x10000 + (high - 0xd800) * 0x400 + (low - 0xdc00))

/-- The character of a unit by itself. -/
def single (u : Nat) : Char :=
  if isHigh u || isLow u then '\ufffd' else Char.ofNat u

/-- The text of a list of units. -/
def decode : List Nat → List Char
  | [] => []
  | [u] => [single u]
  | u :: v :: us =>
    if isHigh u && isLow v then pair u v :: decode us
    else single u :: decode (v :: us)

/-! ## Units -/

/-- No character is a surrogate. -/
theorem scalar (c : Char) : c.toNat < 0xd800 ∨ 0xe000 ≤ c.toNat ∧ c.toNat < 0x110000 :=
  c.valid

theorem isHigh_toNat (c : Char) : isHigh c.toNat = false := by
  have := scalar c
  simp only [isHigh, Bool.and_eq_false_iff, decide_eq_false_iff_not]
  omega

theorem isLow_toNat (c : Char) : isLow c.toNat = false := by
  have := scalar c
  simp only [isLow, Bool.and_eq_false_iff, decide_eq_false_iff_not]
  omega

theorem single_toNat (c : Char) : single c.toNat = c := by
  rw [single, isHigh_toNat, isLow_toNat, if_neg (by decide), Char.ofNat_toNat]

theorem lt_of_mem_encode {c : Char} {u : Nat} (h : u ∈ encode c) : u < 0x10000 := by
  have := scalar c
  unfold encode at h
  split at h
  · rwa [List.mem_singleton.1 h]
  · simp only [List.mem_cons, List.not_mem_nil, or_false] at h
    omega

/-- No character begins with a low unit. -/
theorem encode_head (c : Char) : ∃ u us, encode c = u :: us ∧ isLow u = false := by
  unfold encode
  split
  · exact ⟨c.toNat, [], rfl, isLow_toNat c⟩
  · have := scalar c
    refine ⟨_, _, rfl, ?_⟩
    simp only [isLow, Bool.and_eq_false_iff, decide_eq_false_iff_not]
    omega

/-! ## Decoding -/

theorem decode_pair {u v : Nat} (hu : isHigh u = true) (hv : isLow v = true) (us : List Nat) :
    decode (u :: v :: us) = pair u v :: decode us := by
  rw [decode, hu, hv]
  rfl

/-- A unit that forms no pair with the one behind it stands for itself. -/
theorem decode_single {u : Nat} {us : List Nat} (h : isHigh u = true → us.head?.any isLow = false) :
    decode (u :: us) = single u :: decode us := by
  cases us with
  | nil => rfl
  | cons v us =>
    rw [decode, if_neg]
    intro hp
    obtain ⟨hu, hv⟩ := Bool.and_eq_true_iff.1 hp
    have := h hu
    rw [List.head?_cons, Option.any_some, hv] at this
    cases this

/-- A character is recovered from its units, whatever follows. -/
theorem decode_encode_append (c : Char) (us : List Nat) : decode (encode c ++ us) = c :: decode us := by
  unfold encode
  split
  · rw [List.singleton_append, decode_single (by simp [isHigh_toNat]), single_toNat]
  · have := scalar c
    have hh : isHigh (0xd800 + (c.toNat - 0x10000) / 0x400) = true := by
      simp only [isHigh, Bool.and_eq_true, decide_eq_true_eq]
      omega
    have hl : isLow (0xdc00 + (c.toNat - 0x10000) % 0x400) = true := by
      simp only [isLow, Bool.and_eq_true, decide_eq_true_eq]
      omega
    have hn : 0x10000 + (0xd800 + (c.toNat - 0x10000) / 0x400 - 0xd800) * 0x400 +
        (0xdc00 + (c.toNat - 0x10000) % 0x400 - 0xdc00) = c.toNat := by omega
    rw [List.cons_append, List.singleton_append, decode_pair hh hl, pair, hn, Char.ofNat_toNat]

end Utf16

end EcmaTokens
