import Stackwise.Proofs.Memory
import Stackwise.Proofs.Numerals
import Mathlib

/-! Packed words read back.  Words lie in memory with the lowest byte first; so laid out, packed
bytes are the bytes that were packed, with fewer than eight zeros behind them.  A word written for
the assembler is read back as a hexadecimal number, and only the word zero is written with a zero
in front. -/
namespace Stackwise.Word

def layOut (ws : List UInt64) : List UInt8 := ws.flatMap fun w => bytes 8 w.toNat

/-- The word that a text spells behind `0x`, if it is the hexadecimal number of one. -/
def ofImmediate? (text : String) : Option UInt64 :=
  (['0', 'x'].isPrefixOf? text.toList).bind fun digits =>
    (Numeral.readIn? 16 digits).bind fun n => if n < 2 ^ 64 then some (.ofNat n) else none

section Pack

variable {bs cs : List UInt8}

theorem length_layOut (ws : List UInt64) : (layOut ws).length = 8 * ws.length := by
  induction ws with
  | nil => rfl
  | cons w ws ih =>
    rw [layOut, List.flatMap_cons, List.length_append, length_bytes, List.length_cons, ← layOut, ih]
    omega

theorem length_pack (bs : List UInt8) : (pack bs).length = bs.length ⌈/⌉ 8 := by
  rw [Nat.ceilDiv_eq_add_pred_div]
  fun_induction pack bs with
  | case1 bs h =>
    rw [List.isEmpty_iff.1 h]
    rfl
  | case2 bs h ih =>
    have hb : bs.length ≠ 0 := by simpa using h
    rw [List.length_cons, ih, List.length_drop]
    omega

theorem layOut_pack (bs : List UInt8) :
    ∃ k < 8, layOut (pack bs) = bs ++ List.replicate k 0 := by
  obtain ⟨k, hk⟩ := flatMap_bytes_pack bs
  refine ⟨k, ?_, hk⟩
  have hl : 8 * (bs.length ⌈/⌉ 8) = bs.length + k := by
    rw [← length_pack, ← length_layOut, layOut, hk, List.length_append, List.length_replicate]
  rw [Nat.ceilDiv_eq_add_pred_div] at hl
  omega

theorem take_layOut_pack (bs : List UInt8) : (layOut (pack bs)).take bs.length = bs := by
  obtain ⟨k, -, hk⟩ := layOut_pack bs
  rw [hk, List.take_left]

theorem eq_of_pack_eq (hl : bs.length = cs.length) (h : pack bs = pack cs) : bs = cs := by
  rw [← take_layOut_pack bs, ← take_layOut_pack cs, h, hl]

end Pack

section Immediate

theorem toList_immediate (w : UInt64) :
    (immediate w).toList = '0' :: 'x' :: Numeral.digits 16 w.toNat := by
  simp [immediate, Numeral.hexadecimal]

theorem ofImmediate?_immediate (w : UInt64) : ofImmediate? (immediate w) = some w := by
  have hp : ['0', 'x'].isPrefixOf? (immediate w).toList = some (Numeral.digits 16 w.toNat) :=
    List.isPrefixOf?_eq_some_iff_append_eq.2 (toList_immediate w).symm
  simp [ofImmediate?, hp, Numeral.readIn?_digits, w.toNat_lt]

theorem digits_zero : Numeral.digits 16 0 = ['0'] := by
  rw [Numeral.digits]
  rfl

theorem head_digits_ne_zero {w : UInt64} (h : w ≠ 0) :
    (Numeral.digits 16 w.toNat).head? ≠ some '0' := fun h0 =>
  h (UInt64.toNat_inj.1 (Numeral.eq_zero_of_head_digits (by decide) (by decide) h0))

end Immediate

/-- Bytes of any kind take one word for every eight begun, laid out they are followed by fewer
than eight zeros, and cut to their number they are back; so bytes of equal number are packed alike
only if they are equal.  A word's text is read back to the word, and no zero stands in front of
its digits but in `0x0`. -/
theorem packed_reads_back :
    (∀ bs : List UInt8, (pack bs).length = bs.length ⌈/⌉ 8 ∧
      (∃ k < 8, layOut (pack bs) = bs ++ List.replicate k 0) ∧
      (layOut (pack bs)).take bs.length = bs) ∧
    (∀ bs cs : List UInt8, bs.length = cs.length ∧ pack bs = pack cs ↔ bs = cs) ∧
    ∀ w : UInt64, ofImmediate? (immediate w) = some w ∧
      ∃ ds, (immediate w).toList = '0' :: 'x' :: ds ∧
        (w = 0 → ds = ['0']) ∧ (w ≠ 0 → ds.head? ≠ some '0') := by
  refine ⟨fun bs => ⟨length_pack bs, layOut_pack bs, take_layOut_pack bs⟩, fun bs cs => ?_,
    fun w => ⟨ofImmediate?_immediate w, _, toList_immediate w, ?_, head_digits_ne_zero⟩⟩
  · constructor
    · rintro ⟨hl, h⟩
      exact eq_of_pack_eq hl h
    · rintro rfl
      exact ⟨rfl, rfl⟩
  · rintro rfl
    exact digits_zero

/-- Bytes of different number may be packed alike. -/
example : pack [1] = pack [1, 0] := by decide +kernel

end Stackwise.Word
