/-
A conversion of wide integers by their leading bits. An integer is cut to its 64 leading bits, the last of
which is set if a bit below them is seen to be set, and what is left is rounded to the nearest value. The bits
below are seen word by word, 64 bits to a word: of each word only the low bits, as many as the leading word has
digits. So an integer that lies above the midpoint of two values by nothing but unseen bits is rounded like the
midpoint. Sessions are run with this conversion; what is proved of them holds of every other one as well.
-/
import EcmaTokens.Number.Integer

namespace EcmaTokens

namespace Wide

/-- The number of 64-bit words below the leading one. -/
def lowerWords (n : Nat) : Nat :=
  n.log2 / 64

/-- The number of binary digits of the leading word. -/
def leadingDigits (n : Nat) : Nat :=
  n.log2 % 64 + 1

/-- The word `i` of an integer, counted from its low end. -/
def word (n i : Nat) : Nat :=
  n / Nat.pow 2 (64 * i) % Nat.pow 2 64

/-- One of the words below the leading one has a bit set among its low bits. -/
def losesBits (n : Nat) : Bool :=
  (List.range (lowerWords n)).any fun i => word n i % Nat.pow 2 (leadingDigits n) != 0

/-- The number of bits below the 64 leading ones. -/
def cut (n : Nat) : Nat :=
  n.log2 - 63

/-- The 64 leading bits, the last one set if bits are lost. -/
def leading (n : Nat) : Nat :=
  let kept := n / Nat.pow 2 (cut n)
  if losesBits n && kept % 2 == 0 then kept + 1 else kept

end Wide

instance WideConversion.byLeadingBits : WideConversion where
  toBinary64? n := some (.nearest (Wide.leading n * Nat.pow 2 (Wide.cut n)) 1)

end EcmaTokens
