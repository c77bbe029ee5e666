import Stackwise.Numeral

/-! Texts as machine words: eight bytes to a word, the first byte lowest. -/
namespace Stackwise.Word

/-- The number that bytes spell, the first one being the lowest. -/
def value : List UInt8 → Nat
  | [] => 0
  | b :: bs => b.toNat + 256 * value bs

def ofBytes (bs : List UInt8) : UInt64 := .ofNat (value bs)

/-- Bytes as words, the last one filled up with zeros. -/
def pack (bs : List UInt8) : List UInt64 :=
  if bs.isEmpty then [] else ofBytes (bs.take 8) :: pack (bs.drop 8)
termination_by bs.length
decreasing_by
  cases bs with
  | nil => contradiction
  | cons b bs => simp only [List.length_drop, List.length_cons]; omega

/-- A word as the assembler reads it. -/
def immediate (w : UInt64) : String := "0x" ++ Numeral.hexadecimal w.toNat

end Stackwise.Word
