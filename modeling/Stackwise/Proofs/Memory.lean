import Stackwise.Word
import Mathlib.Tactic.Ring

/-! Memory: bytes at places that are counted by integers, and the words of a stack laid out in it.
A return address is opaque: its bytes are no data.  Of some places nothing is known. -/
namespace Stackwise

namespace Word

/-- The lowest `count` bytes of a number, the lowest first. -/
def bytes : Nat → Nat → List UInt8
  | 0, _ => []
  | count + 1, n => .ofNat n :: bytes count (n / 256)

@[simp] theorem length_bytes (count n : Nat) : (bytes count n).length = count := by
  induction count generalizing n with
  | zero => rfl
  | succ count ih => simp [bytes, ih]

theorem value_bytes (count n : Nat) : value (bytes count n) = n % 256 ^ count := by
  induction count generalizing n with
  | zero => simp [bytes, value, Nat.mod_one]
  | succ count ih =>
    have hb : (UInt8.ofNat n).toNat = n % 256 := by simp
    rw [bytes, value, ih, hb, pow_succ', Nat.mod_mul]

theorem value_lt (bs : List UInt8) : value bs < 256 ^ bs.length := by
  induction bs with
  | nil => simp [value]
  | cons b bs ih =>
    have hb := b.toNat_lt
    rw [value, List.length_cons, pow_succ']
    omega

/-- The bytes that spell a number are those it has, filled up with zeros. -/
theorem bytes_value (count : Nat) (bs : List UInt8) (h : bs.length ≤ count) :
    bytes count (value bs) = bs ++ List.replicate (count - bs.length) 0 := by
  induction count generalizing bs with
  | zero =>
    have hb : bs = [] := List.length_eq_zero_iff.1 (by omega)
    subst hb
    rfl
  | succ count ih =>
    cases bs with
    | nil => simpa [bytes, value, List.replicate_succ] using ih [] (by simp)
    | cons b bs =>
      have hb := b.toNat_lt
      have hl : UInt8.ofNat (value (b :: bs)) = b := by
        apply UInt8.toNat_inj.1
        rw [value, UInt8.toNat_ofNat']
        omega
      have hr : value (b :: bs) / 256 = value bs := by
        rw [value]
        omega
      rw [bytes, hl, hr, ih bs (by simpa using h)]
      simp

theorem ofBytes_bytes (w : UInt64) : ofBytes (bytes 8 w.toNat) = w := by
  have hw := w.toNat_lt
  apply UInt64.toNat_inj.1
  rw [ofBytes, value_bytes, UInt64.toNat_ofNat']
  omega

theorem bytes_ofBytes (bs : List UInt8) (h : bs.length ≤ 8) :
    bytes 8 (ofBytes bs).toNat = bs ++ List.replicate (8 - bs.length) 0 := by
  have hv : value bs < 2 ^ 64 := by
    have hp : 256 ^ bs.length ≤ 256 ^ 8 := Nat.pow_le_pow_right (by decide) h
    have hl := value_lt bs
    omega
  rw [ofBytes, UInt64.toNat_ofNat', Nat.mod_eq_of_lt hv, bytes_value 8 bs h]

/-- Packed bytes lie in memory as they were, with zeros after them. -/
theorem flatMap_bytes_pack (bs : List UInt8) :
    ∃ k, (pack bs).flatMap (fun w => bytes 8 w.toNat) = bs ++ List.replicate k 0 := by
  fun_induction pack bs with
  | case1 bs h =>
    obtain rfl := List.isEmpty_iff.1 h
    exact ⟨0, rfl⟩
  | case2 bs h ih =>
    obtain ⟨k, hk⟩ := ih
    rw [List.flatMap_cons, hk, bytes_ofBytes _ (by simp)]
    by_cases hl : 8 ≤ bs.length
    · refine ⟨k, ?_⟩
      have ht : (bs.take 8).length = 8 := by simp [hl]
      rw [ht]
      simp only [Nat.sub_self, List.replicate_zero, List.append_nil]
      rw [← List.append_assoc, List.take_append_drop]
    · have hd : bs.drop 8 = [] := List.drop_eq_nil_of_le (by omega)
      have ht : bs.take 8 = bs := List.take_of_length_le (by omega)
      rw [hd, ht]
      exact ⟨8 - bs.length + k, by simp [List.replicate_append_replicate]⟩

end Word

namespace Machine

/-- A byte of memory: data, the `i`th byte of the address that a call goes back to, or what nothing
is known of. -/
inductive Cell where
  | byte (b : UInt8)
  | link (pc i : Nat)
  | unknown
deriving DecidableEq, Repr

def Cell.byte? : Cell → Option UInt8
  | byte b => some b
  | _ => none

/-- The bytes of cells that all hold data. -/
def bytes? (cells : List Cell) : Option (List UInt8) := cells.mapM Cell.byte?

@[simp] theorem bytes?_map_byte (bs : List UInt8) : bytes? (bs.map .byte) = some bs := by
  induction bs with
  | nil => rfl
  | cons b bs ih => simp_all [bytes?, Cell.byte?]

abbrev Memory := Int → Cell

namespace Memory

def fetch (m : Memory) (a : Int) : Nat → List Cell
  | 0 => []
  | n + 1 => m a :: fetch m (a + 1) n

def store (m : Memory) (a : Int) (cells : List Cell) : Memory := fun b =>
  if a ≤ b then (cells[(b - a).toNat]?).getD (m b) else m b

@[simp] theorem length_fetch (m : Memory) (a : Int) (n : Nat) : (m.fetch a n).length = n := by
  induction n generalizing a with
  | zero => rfl
  | succ n ih => simp [fetch, ih]

theorem fetch_add (m : Memory) (a : Int) (j k : Nat) :
    m.fetch a (j + k) = m.fetch a j ++ m.fetch (a + j) k := by
  induction j generalizing a with
  | zero => simp [fetch]
  | succ j ih =>
    have ha : a + 1 + (j : Int) = a + (j + 1 : Nat) := by push_cast; ring
    rw [Nat.add_right_comm, fetch, ih (a + 1), fetch, ha, List.cons_append]

theorem fetch_congr {m m' : Memory} {a : Int} {n : Nat}
    (h : ∀ b, a ≤ b → b < a + n → m b = m' b) : m.fetch a n = m'.fetch a n := by
  induction n generalizing a with
  | zero => rfl
  | succ n ih =>
    rw [fetch, fetch, h a (by omega) (by omega), ih fun b h₁ h₂ => h b (by omega) (by omega)]

theorem store_below (m : Memory) {a b : Int} (cells : List Cell) (h : b < a) :
    m.store a cells b = m b := by
  rw [store, if_neg (by omega)]

theorem store_above (m : Memory) {a b : Int} (cells : List Cell) (h : a + cells.length ≤ b) :
    m.store a cells b = m b := by
  have hn : cells[(b - a).toNat]? = none := List.getElem?_eq_none (by omega)
  simp [store, hn]

@[simp] theorem fetch_store_above (m : Memory) (a : Int) (cells : List Cell) {b : Int} (n : Nat)
    (h : a + cells.length ≤ b) : (m.store a cells).fetch b n = m.fetch b n :=
  fetch_congr fun c h₁ _ => m.store_above cells (by omega)

theorem fetch_store_below (m : Memory) {a : Int} (cells : List Cell) {b : Int} {n : Nat}
    (h : b + n ≤ a) : (m.store a cells).fetch b n = m.fetch b n :=
  fetch_congr fun c _ h₂ => m.store_below cells (by omega)

theorem store_store (m : Memory) (a : Int) (xs ys : List Cell) :
    (m.store (a + xs.length) ys).store a xs = m.store a (xs ++ ys) := by
  funext b
  by_cases h₁ : a ≤ b
  · by_cases h₂ : a + xs.length ≤ b
    · have hn : xs[(b - a).toNat]? = none := List.getElem?_eq_none (by omega)
      have hi : (b - a).toNat - xs.length = (b - (a + xs.length)).toNat := by omega
      simp only [store, if_pos h₁, if_pos h₂, hn, Option.getD_none]
      rw [List.getElem?_append_right (by omega), hi]
    · have hl : (b - a).toNat < xs.length := by omega
      simp only [store, if_pos h₁, if_neg h₂]
      rw [List.getElem?_append_left hl]
  · simp only [store, if_neg h₁, if_neg (by omega : ¬ a + xs.length ≤ b)]

@[simp] theorem fetch_store_self (m : Memory) (a : Int) (cells : List Cell) :
    (m.store a cells).fetch a cells.length = cells := by
  induction cells generalizing m a with
  | nil => rfl
  | cons c cells ih =>
    have hs : (m.store (a + 1) cells).store a [c] = m.store a (c :: cells) :=
      m.store_store a [c] cells
    rw [List.length_cons, fetch, ← hs]
    congr 1
    · simp [store]
    · rw [fetch_store_above _ _ _ _ (by simp), ih]

end Memory

/-- A word of the stack: data, or the address that a call goes back to. -/
inductive Slot where
  | word (w : Int64)
  | link (pc : Nat)
deriving DecidableEq, Repr

namespace Slot

def cells : Slot → List Cell
  | word w => (Word.bytes 8 w.toUInt64.toNat).map .byte
  | link pc => (List.range 8).map (.link pc)

@[simp] theorem length_cells (x : Slot) : x.cells.length = 8 := by
  cases x <;> simp [cells]

/-- The slot that eight cells make, if they are data or, in order, the bytes of one address. -/
def ofCells? (cells : List Cell) : Option Slot :=
  match bytes? cells with
  | some bs => some (.word (Word.ofBytes bs).toInt64)
  | none =>
    match cells with
    | .link pc _ :: _ => if cells = (Slot.link pc).cells then some (.link pc) else none
    | _ => none

@[simp] theorem ofCells?_cells (x : Slot) : ofCells? x.cells = some x := by
  cases x with
  | word w => simp [ofCells?, cells, Word.ofBytes_bytes]
  | link pc =>
    have hb : bytes? (link pc).cells = none := rfl
    simp only [ofCells?, hb]
    exact if_pos rfl

end Slot

/-- Words lie in memory from a place on. -/
def Holds (m : Memory) (a : Int) : List Slot → Prop
  | [] => True
  | x :: xs => m.fetch a 8 = x.cells ∧ Holds m (a + 8) xs

namespace Holds

variable {m : Memory} {a : Int}

theorem append {xs ys : List Slot} :
    Holds m a (xs ++ ys) ↔ Holds m a xs ∧ Holds m (a + 8 * xs.length) ys := by
  induction xs generalizing a with
  | nil => simp [Holds]
  | cons x xs ih =>
    have he : a + 8 + 8 * (xs.length : Int) = a + 8 * ((xs.length : Int) + 1) := by ring
    simp [Holds, ih, and_assoc, he]

/-- What lies at the words of a stack lies in memory cell by cell. -/
theorem fetch_eq {xs : List Slot} (h : Holds m a xs) :
    m.fetch a (8 * xs.length) = xs.flatMap Slot.cells := by
  induction xs generalizing a with
  | nil => rfl
  | cons x xs ih =>
    have hl : 8 * (x :: xs).length = 8 + 8 * xs.length := by simp; omega
    rw [hl, Memory.fetch_add, h.1, List.flatMap_cons, ← ih h.2]
    rfl

theorem congr {m' : Memory} {xs : List Slot} (h : Holds m a xs)
    (hm : ∀ b, a ≤ b → m' b = m b) : Holds m' a xs := by
  induction xs generalizing a with
  | nil => trivial
  | cons x xs ih =>
    refine ⟨?_, ih h.2 fun b hb => hm b (by omega)⟩
    rw [← h.1]
    exact Memory.fetch_congr fun b hb _ => hm b hb

theorem push {xs : List Slot} (x : Slot) (h : Holds m a xs) :
    Holds (m.store (a - 8) x.cells) (a - 8) (x :: xs) := by
  refine ⟨?_, ?_⟩
  · have hs := m.fetch_store_self (a - 8) x.cells
    rwa [Slot.length_cells] at hs
  · rw [sub_add_cancel]
    exact h.congr fun b hb => m.store_above _ (by rw [Slot.length_cells]; push_cast; omega)

theorem get {xs ys : List Slot} {x : Slot} (h : Holds m a (xs ++ x :: ys)) :
    m.fetch (a + 8 * xs.length) 8 = x.cells := (append.1 h).2.1

theorem set {xs ys : List Slot} {x : Slot} (y : Slot) (h : Holds m a (xs ++ x :: ys)) :
    Holds (m.store (a + 8 * xs.length) y.cells) a (xs ++ y :: ys) := by
  obtain ⟨hx, hy⟩ := append.1 h
  refine append.2 ⟨?_, ?_, ?_⟩
  · clear hy h
    induction xs generalizing a with
    | nil => trivial
    | cons z xs ih =>
      have he : a + 8 * ((z :: xs).length : Int) = a + 8 + 8 * xs.length := by
        simp only [List.length_cons]; push_cast; ring
      rw [he]
      refine ⟨?_, ih hx.2⟩
      rw [Memory.fetch_store_below _ _ (by push_cast; omega), hx.1]
  · have hs := m.fetch_store_self (a + 8 * xs.length) y.cells
    rwa [Slot.length_cells] at hs
  · exact hy.2.congr fun b hb => m.store_above _ (by rw [Slot.length_cells]; push_cast; omega)

end Holds

end Machine

end Stackwise
