import Stackwise.Numeral
import Stackwise.Text.Lines
import Mathlib.Data.List.Basic

/-! Numerals as they are written.  Their characters are digits, a zero stands first only in the
numeral of zero, and digits are read back to the number that they were written for, in every base
up to sixteen. -/
namespace Stackwise

namespace Numeral

/-- The value of a digit in a base, letters in either case. -/
def digitValue? (base : Nat) (c : Char) : Option Nat :=
  let n := c.toNat
  let d :=
    if 48 ≤ n ∧ n ≤ 57 then n - 48
    else if 65 ≤ n ∧ n ≤ 90 then n - 55
    else if 97 ≤ n ∧ n ≤ 122 then n - 87
    else base
  if d < base then some d else none

def readIn? (base : Nat) : List Char → Option Nat
  | [] => none
  | c :: cs => (c :: cs).foldlM (fun v c => (digitValue? base c).map (v * base + ·)) 0

/-- The value of digits in a base after an optional plus sign. -/
def unsigned? (base : Nat) : List Char → Option Nat
  | '+' :: cs => readIn? base cs
  | cs => readIn? base cs

theorem toNat_digit_of_lt : ∀ d < 16, (digit d).toNat = if d < 10 then 48 + d else 55 + d := by
  decide

theorem digit_ne {c : Char} (hc : c.toNat < 48 ∨ 70 < c.toNat) {d : Nat} (hd : d < 16) :
    digit d ≠ c := by
  rintro rfl
  rw [toNat_digit_of_lt d hd] at hc
  split at hc <;> omega

theorem isSpace_digit : ∀ d < 16, Text.isSpace (digit d) = false := by decide

section

variable {base : Nat}

theorem digitValue?_digit (hb : base ≤ 16) {d : Nat} (hd : d < base) :
    digitValue? base (digit d) = some d := by
  unfold digitValue?
  rw [toNat_digit_of_lt d (by omega)]
  by_cases h : d < 10
  · have h₁ : 48 ≤ 48 + d ∧ 48 + d ≤ 57 := by omega
    simp [h, h₁, hd]
  · have h₁ : ¬ (48 ≤ 55 + d ∧ 55 + d ≤ 57) := by omega
    have h₂ : 65 ≤ 55 + d ∧ 55 + d ≤ 90 := by omega
    simp [h, h₁, h₂, hd]

theorem mem_digits (hb : 1 < base) (n : Nat) : ∀ c ∈ digits base n, ∃ d < base, digit d = c := by
  fun_induction digits base n with
  | case1 n h ih =>
    refine List.forall_mem_append.2 ⟨ih, List.forall_mem_singleton.2 ?_⟩
    exact ⟨n % base, Nat.mod_lt n (by omega), rfl⟩
  | case2 n h => exact List.forall_mem_singleton.2 ⟨n, by omega, rfl⟩

theorem digits_ne_nil (n : Nat) : digits base n ≠ [] := by
  rw [digits]
  split <;> simp

/-- No digit before others is zero. -/
theorem eq_zero_of_head_digits (hb : 1 < base) (hb' : base ≤ 16) {n : Nat}
    (h : (digits base n).head? = some '0') : n = 0 := by
  have hzero : ∀ d < 16, digit d = '0' → d = 0 := by decide
  fun_induction digits base n with
  | case1 n hn ih =>
    rw [List.head?_append_of_ne_nil _ (digits_ne_nil _)] at h
    have hp : 0 < n / base := Nat.div_pos hn.2 (by omega)
    have hd := ih h
    omega
  | case2 n hn => exact hzero n (by omega) (Option.some.inj h)

theorem foldlM_digitValue? (hb : 1 < base) (hb' : base ≤ 16) (n : Nat) :
    (digits base n).foldlM (fun v c => (digitValue? base c).map (v * base + ·)) 0 = some n := by
  fun_induction digits base n with
  | case1 n h ih =>
    rw [List.foldlM_append, ih]
    have hd := digitValue?_digit hb' (Nat.mod_lt n (by omega : base > 0))
    simp [hd, Nat.div_add_mod']
  | case2 n h =>
    have hd := digitValue?_digit hb' (by omega : n < base)
    simp [hd]

theorem readIn?_digits (hb : 1 < base) (hb' : base ≤ 16) (n : Nat) :
    readIn? base (digits base n) = some n := by
  rw [← foldlM_digitValue? hb hb' n]
  cases h : digits base n with
  | nil => exact absurd h (digits_ne_nil n)
  | cons c cs => rfl

theorem unsigned?_digits (hb : 1 < base) (hb' : base ≤ 16) (n : Nat) :
    unsigned? base (digits base n) = some n := by
  rw [← readIn?_digits hb hb' n]
  unfold unsigned?
  split
  next cs h =>
    obtain ⟨d, hd, he⟩ := mem_digits hb n '+' (by rw [h]; exact List.mem_cons_self)
    exact absurd he (digit_ne (by decide) (by omega))
  next => rfl

end

theorem signed_natCast (n : Nat) : signed n = decimal n := rfl

theorem mem_signed (value : Int) :
    ∀ c ∈ (signed value).toList, c = '-' ∨ ∃ d < 10, digit d = c := by
  have hd (n : Nat) : ∀ c ∈ (decimal n).toList, c = '-' ∨ ∃ d < 10, digit d = c := by
    intro c hc
    rw [decimal, String.toList_ofList] at hc
    exact .inr (mem_digits (by decide) n c hc)
  cases value with
  | ofNat n => exact hd n
  | negSucc n =>
    rw [signed, String.toList_append]
    exact List.forall_mem_append.2 ⟨by simp, hd _⟩

theorem notMem_signed (value : Int) {c : Char} (hc : c.toNat < 48 ∨ 70 < c.toNat) (hm : c ≠ '-') :
    c ∉ (signed value).toList := by
  intro h
  rcases mem_signed value c h with rfl | ⟨d, hd, he⟩
  · exact hm rfl
  · exact digit_ne hc (by omega) he

end Numeral

end Stackwise
