/-! Numerals: the digits of a natural number in a base up to sixteen, and the value they read
back to. -/
namespace Stackwise.Numeral

/-- The digit of value `d`: `0` to `9`, then `A` to `F`. -/
def digit (d : Nat) : Char := Char.ofNat (if d < 10 then 48 + d else 55 + d)

theorem toNat_digit : ∀ d < 10, (digit d).toNat = 48 + d := by decide

/-- The digits of `n`, the most significant first, with no leading zero unless `n` is zero. -/
def digits (base n : Nat) : List Char :=
  if 1 < base ∧ base ≤ n then digits base (n / base) ++ [digit (n % base)] else [digit n]
termination_by n
decreasing_by exact Nat.div_lt_self (by omega) (by omega)

/-- The value of an ASCII digit, if the character is one. -/
def decimalValue? (c : Char) : Option Nat :=
  if 48 ≤ c.toNat ∧ c.toNat ≤ 57 then some (c.toNat - 48) else none

def read? : List Char → Option Nat
  | [] => none
  | c :: cs => (c :: cs).foldlM (fun v c => (decimalValue? c).map (v * 10 + ·)) 0

def readSigned? : List Char → Option Int
  | '-' :: cs => (read? cs).map fun n => -(n : Int)
  | '+' :: cs => (read? cs).map Int.ofNat
  | cs => (read? cs).map Int.ofNat

def decimal (n : Nat) : String := String.ofList (digits 10 n)

def signed : Int → String
  | .ofNat n => decimal n
  | .negSucc n => "-" ++ decimal (n + 1)

def hexadecimal (n : Nat) : String := String.ofList (digits 16 n)

/-- The decimal digits of `n`, filled up with zeros on the left to at least `width` places. -/
def decimalPadded (width n : Nat) : String :=
  String.ofList ((digits 10 n).leftpad width '0')

/-- The 64-bit integer that a text spells, if it spells one and its value is in range. -/
def int64? (text : String) : Option Int64 :=
  (readSigned? text.toList).bind fun i =>
    if Int64.minValue.toInt ≤ i ∧ i ≤ Int64.maxValue.toInt then some (Int64.ofInt i) else none

end Stackwise.Numeral
