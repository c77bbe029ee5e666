import Stackwise.Proofs.Decimal
import Stackwise.Proofs.Numerals
import Stackwise.Proofs.Refinement
import Stackwise.Proofs.Writing

/-! The routine that writes integers, on the processor.  Whatever is in registers and memory, it
comes to its return after one system call, which writes the integer of `rax` in decimal.  It stores
nothing outside of the 32 bytes below the stack that it was entered with, and leaves the stack as it
was.  All of this it does on a machine that knows nothing of its memory, and so on the processor. -/
namespace Stackwise

/-- Bytes are the decimal representation of an integer: a sign exactly if it is negative, then the
digits of its magnitude, of which the first is zero only if there is no other. -/
def InDecimal (i : Int) (bs : List UInt8) : Prop :=
  ∃ text, bs = ((if i < 0 then "-" else "") ++ text).toUTF8.data.toList ∧
    Numeral.Denotes text i.natAbs ∧ (text.toList.head? = some '0' → text = "0")

theorem Numeral.inDecimal_signed (i : Int) : InDecimal i (signed i).toUTF8.data.toList := by
  have hlead (n : Nat) : (decimal n).toList.head? = some '0' → decimal n = "0" := by
    intro h
    rw [decimal, String.toList_ofList] at h
    rw [eq_zero_of_head_digits (by decide) (by decide) h, decimal, digits]
    rfl
  cases i with
  | ofNat n =>
    refine ⟨decimal n, ?_, denotes_decimal n, hlead n⟩
    rw [if_neg (Int.not_lt.2 (Int.natCast_nonneg n) : ¬ Int.ofNat n < 0), signed,
      String.empty_append]
  | negSucc n =>
    refine ⟨decimal (n + 1), ?_, denotes_decimal (n + 1), hlead (n + 1)⟩
    rw [if_pos (Int.negSucc_lt_zero n), signed]

namespace PrintInt

open Processor

variable {code : Code} {s : Processor}

theorem length_digitBytes (n : Nat) :
    (digitBytes n).length = (if 10 ≤ n then (digitBytes (n / 10)).length else 0) + 1 := by
  rw [digitBytes_eq]
  split <;> simp

theorem length_digitBytes_le {k n : Nat} (h : n < 10 ^ (k + 1)) :
    (digitBytes n).length ≤ k + 1 := by
  induction k generalizing n with
  | zero =>
    rw [length_digitBytes, if_neg (by omega)]
  | succ k ih =>
    rw [length_digitBytes]
    split
    · have := ih (n := n / 10) (by rw [pow_succ] at h; omega)
      omega
    · omega

theorem length_decimalBytes_le (v : Int64) : (decimalBytes v).length ≤ 20 := by
  have hlt := v.toInt_lt
  have hle := v.le_toInt
  have hdigits : (digitBytes v.toInt.natAbs).length ≤ 18 + 1 := length_digitBytes_le (by omega)
  rw [decimalBytes_eq, List.length_append]
  split <;> simp <;> omega

variable (system : System)

/-- Executed from its entry with any registers, any memory and any answer of the system, the routine
comes to its return after one system call, which writes the integer in `rax` to standard output in
decimal.  All that it stores lies in the 32 bytes below the stack. -/
theorem reaches_ret {code : Code} {s : Processor} (hdigits : code.count (.label digits) ≤ 1)
    (hwrite : code.count (.label write) ≤ 1) (hd : code.drop s.pc = PrintInt.code)
    (hsp : 32 ≤ (s.regs .rsp).toNat) :
    ∃ t es, Reaches system code s es t ∧ code[t.pc]? = some (.instr .ret) ∧
      es.filterMap Event.write? = [(1, decimalBytes (s.regs .rax).toInt64)] ∧
      InDecimal (s.regs .rax).toInt64.toInt (decimalBytes (s.regs .rax).toInt64) ∧
      (∀ a b, .store a b ∈ es →
        (s.regs .rsp).toNat - 32 ≤ a.toNat ∧ a.toNat < (s.regs .rsp).toNat) ∧
      (∀ a : UInt64, a.toNat < (s.regs .rsp).toNat - 32 ∨ (s.regs .rsp).toNat ≤ a.toNat →
        t.memory a = s.memory a) ∧
      t.regs .rsp = s.regs .rsp := by
  have hlen := length_decimalBytes_le (s.regs .rax).toInt64
  obtain ⟨m, hreach, hdm, hspm, hmem, -⟩ := reaches_end (s := s.known) hdigits hwrite hd rfl rfl
  have hdec : InDecimal (s.regs .rax).toInt64.toInt (decimalBytes (s.regs .rax).toInt64) :=
    Numeral.inDecimal_signed _
  generalize decimalBytes (s.regs .rax).toInt64 = bs at *
  have hk : m.memory.Within ((s.regs .rsp).toNat - 32) (s.regs .rsp).toNat := by
    intro b hb
    rw [hmem] at hb
    by_contra hout
    refine hb ?_
    by_cases hlow : b < (s.regs .rsp).toNat - bs.length
    · rw [Machine.Memory.store_below _ _ hlow]
      rfl
    · rw [Machine.Memory.store_above _ _ (by rw [List.length_map]; omega)]
      rfl
  obtain ⟨t, es, ht, hr, hc, hw⟩ := hreach.realized system s.represents_known (by omega) hk
  have htoNat {c : Int} (h₁ : (s.regs .rsp).toNat - 32 ≤ c) (h₂ : c < (s.regs .rsp).toNat) :
      ((UInt64.ofInt c).toNat : Int) = c := by
    have hlt := (s.regs .rsp).toNat_lt
    rw [Word.toNat_ofInt]
    omega
  refine ⟨t, es, ht, ?_, hw, hdec, fun a b he => ?_, fun a ha => ?_, ?_⟩
  · rw [hr.pc]
    exact Machine.getElem?_of_drop hdm
  · obtain ⟨c, rfl, h₁, h₂⟩ := hc.stores a b he
    have := htoNat h₁ h₂
    omega
  · refine hc.other a fun c h₁ h₂ he => ?_
    have := htoNat h₁ h₂
    rw [← he] at this
    omega
  · have hsp := hr.regs .rsp
    rw [hspm] at hsp
    exact hsp.trans (Word.ofInt_natCast_toNat _)

/-- At the entry, with the least integer in `rax`. -/
def least : Processor := ⟨0, fun r => if r = .rax then 2 ^ 63 else 4096, none, fun _ => 255⟩

theorem reaches_ret_least : ∃ t es, Reaches (fun _ => (20, 0)) PrintInt.code least es t ∧
    PrintInt.code[t.pc]? = some (.instr .ret) ∧
    es.filterMap Event.write? = [(1, "-9223372036854775808".toUTF8.data.toList)] ∧
    t.regs .rsp = 4096 := by
  obtain ⟨t, es, h, hret, hwrite, -, -, -, hp⟩ := reaches_ret (fun _ => (20, 0)) (s := least)
    (by decide) (by decide) rfl (by decide)
  refine ⟨t, es, h, hret, ?_, hp⟩
  have hb : Numeral.signed (least.regs .rax).toInt64.toInt = "-9223372036854775808" := by
    decide +kernel
  rw [hwrite, decimalBytes, hb]

end PrintInt

end Stackwise
