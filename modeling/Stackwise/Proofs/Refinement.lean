import Mathlib.Data.List.Forall2
import Stackwise.Proofs.Execution
import Stackwise.Proofs.Processor

/-! The processor does what the machine does.  A state of the processor represents one of the
machine if it holds the bits of all that the machine knows.  Places are different addresses as long
as they lie in a window that is small enough, and what a machine knows of its memory it never
forgets.  So every run of the machine that ends with nothing known outside of a window is one of the
processor, which stores bytes in the window only. -/
namespace Stackwise

namespace Word

theorem toNat_ofInt (n : Int) : (UInt64.ofInt n).toNat = (n % 2 ^ 64).toNat := by
  have h : (n % 2 ^ 64).toNat < 2 ^ 64 := by omega
  rw [UInt64.ofInt, UInt64.toNat_ofNat_of_lt' h]

theorem ofInt_natCast (n : Nat) : UInt64.ofInt n = .ofNat n := by
  apply UInt64.toNat_inj.1
  rw [toNat_ofInt, UInt64.toNat_ofNat']
  omega

theorem ofInt_natCast_toNat (w : UInt64) : UInt64.ofInt w.toNat = w := by
  rw [ofInt_natCast, UInt64.ofNat_toNat]

theorem ofInt_sub (a b : Int) : UInt64.ofInt (a - b) = .ofInt a - .ofInt b := by
  rw [Int.sub_eq_add_neg, UInt64.ofInt_add, UInt64.ofInt_neg, UInt64.sub_eq_add_neg]

theorem toUInt64_ofInt (n : Int) : (Int64.ofInt n).toUInt64 = .ofInt n := by
  apply UInt64.toNat_inj.1
  have hn : (Int64.ofInt n).toUInt64.toNat = (Int64.ofInt n).toBitVec.toNat := rfl
  rw [hn, Int64.toBitVec_ofInt, BitVec.toNat_ofInt, toNat_ofInt]
  rfl

theorem ofInt_toInt (w : Int64) : UInt64.ofInt w.toInt = w.toUInt64 := by
  rw [← toUInt64_ofInt, Int64.ofInt_toInt]

theorem toUInt8_ofInt (n : Int) : (UInt64.ofInt n).toUInt8 = .ofInt n := by
  have h : (n % 2 ^ 8).toNat < 2 ^ 8 := by omega
  apply UInt8.toNat_inj.1
  rw [UInt64.toNat_toUInt8, toNat_ofInt, UInt8.ofInt, UInt8.toNat_ofNat_of_lt' h]
  omega

/-- Adding to the lowest byte leaves the others as they are. -/
theorem ofInt_add_low (n : Int) (b : UInt8) :
    UInt64.ofInt (n - n % 256 + (n + b.toNat) % 256) =
      .ofInt n / 256 * 256 + ((UInt64.ofInt n).toUInt8 + b).toUInt64 := by
  apply UInt64.toNat_inj.1
  have hb := b.toNat_lt
  have hn : (UInt64.ofInt n).toNat = (n % 2 ^ 64).toNat := toNat_ofInt n
  have hc : (256 : UInt64).toNat = 256 := rfl
  rw [toNat_ofInt, UInt64.toNat_add, UInt64.toNat_mul, UInt64.toNat_div, UInt8.toNat_toUInt64,
    UInt8.toNat_add, UInt64.toNat_toUInt8, hc, hn]
  omega

theorem ofInt_inj {lo hi a b : Int} (hw : hi - lo ≤ 2 ^ 64) (ha : lo ≤ a ∧ a < hi)
    (hb : lo ≤ b ∧ b < hi) (h : UInt64.ofInt a = .ofInt b) : a = b := by
  have hn := congrArg UInt64.toNat h
  rw [toNat_ofInt, toNat_ofInt] at hn
  omega

theorem bytes_mod (count n : Nat) : bytes count (n % 256 ^ count) = bytes count n := by
  induction count generalizing n with
  | zero => rfl
  | succ count ih =>
    have hl : UInt8.ofNat (n % 256 ^ (count + 1)) = .ofNat n := by
      apply UInt8.toNat_inj.1
      rw [UInt8.toNat_ofNat', UInt8.toNat_ofNat', pow_succ']
      exact Nat.mod_mod_of_dvd n (Dvd.intro _ rfl)
    rw [bytes, bytes, hl, pow_succ', Nat.mod_mul_right_div_self, ih]

end Word

namespace Machine

/-- The value may stand for these 64 bits. -/
def Value.Shows : Value → UInt64 → Prop
  | number n, x => x = .ofInt n
  | address a, x => x = .ofInt a
  | unknown, _ => True

namespace Value.Shows

variable {v : Value} {x : UInt64}

theorem eq_word {w : Int64} (h : v.Shows x) (hw : v.word? = some w) : x = w.toUInt64 := by
  cases v with
  | number n =>
    obtain rfl := Option.some.inj hw
    rw [Word.toUInt64_ofInt]
    exact h
  | address | unknown => simp [word?] at hw

theorem eq_byte {b : UInt8} (h : v.Shows x) (hb : v.byte? = some b) : x.toUInt8 = b := by
  cases v with
  | number n =>
    obtain rfl := Option.some.inj hb
    rw [show x = .ofInt n from h, Word.toUInt8_ofInt]
  | address | unknown => simp [byte?] at hb

theorem eq_count {n : Nat} (h : v.Shows x) (hn : v.count? = some n) : x = .ofNat n := by
  cases v with
  | number k =>
    rw [count?] at hn
    split at hn
    next hk =>
      obtain rfl := Option.some.inj hn
      rw [← Word.ofInt_natCast, Int.toNat_of_nonneg hk]
      exact h
    next => cases hn
  | address | unknown => simp [count?] at hn

theorem eq_address {a : Int} (h : v.Shows x) (ha : v.address? = some a) : x = .ofInt a := by
  cases v with
  | address a' =>
    obtain rfl := Option.some.inj ha
    exact h
  | number | unknown => simp [address?] at ha

theorem number (n : Int) : (Value.number n).Shows (.ofInt n) := rfl

theorem address (a : Int) : (Value.address a).Shows (.ofInt a) := rfl

theorem unknown (x : UInt64) : Value.unknown.Shows x := trivial

theorem natCast (n : Nat) : (Value.number n).Shows (.ofNat n) := (Word.ofInt_natCast n).symm

theorem ofWord (w : Int64) : (Value.ofWord w).Shows w.toUInt64 := (Word.ofInt_toInt w).symm

end Value.Shows

theorem computeWord?_shows {op : Alu} {u v w : Int64} (h : computeWord? v w op = some u) :
    Processor.compute? v.toUInt64 w.toUInt64 op = some u.toUInt64 := by
  cases op with
  | add | sub | imul | xor =>
    obtain rfl := Option.some.inj h
    simp [Processor.compute?]
  | cmp | test => cases h

theorem compute?_shows {op : Alu} {u v w : Value} {x y : UInt64} (h : compute? op v w = some u)
    (hv : v.Shows x) (hw : w.Shows y) : ∃ z, Processor.compute? x y op = some z ∧ u.Shows z := by
  unfold compute? at h
  split at h
  next a n =>
    obtain rfl := Option.some.inj h
    obtain rfl : x = .ofInt a := hv
    obtain rfl : y = .ofInt n := hw
    exact ⟨_, rfl, (UInt64.ofInt_add a n).symm⟩
  next a n =>
    obtain rfl := Option.some.inj h
    obtain rfl : x = .ofInt a := hv
    obtain rfl : y = .ofInt n := hw
    exact ⟨_, rfl, (Word.ofInt_sub a n).symm⟩
  next a b =>
    obtain rfl := Option.some.inj h
    obtain rfl : x = .ofInt a := hv
    obtain rfl : y = .ofInt b := hw
    exact ⟨_, rfl, (Word.ofInt_sub a b).symm⟩
  next =>
    obtain ⟨a, ha, h⟩ := Option.bind_eq_some_iff.1 h
    obtain ⟨b, hb, h⟩ := Option.bind_eq_some_iff.1 h
    obtain ⟨c, hc, h⟩ := Option.bind_eq_some_iff.1 h
    obtain rfl := Option.some.inj h
    rw [hv.eq_word ha, hw.eq_word hb]
    exact ⟨c.toUInt64, computeWord?_shows hc, .ofWord c⟩

/-- The cell may stand for this byte. -/
def Cell.Shows : Cell → UInt8 → Prop
  | byte b, x => x = b
  | link pc i, x => (Word.bytes 8 pc)[i]? = some x
  | unknown, _ => True

theorem eq_of_bytes? {cells : List Cell} {xs bs : List UInt8}
    (h : List.Forall₂ Cell.Shows cells xs) (hb : bytes? cells = some bs) : xs = bs := by
  induction h generalizing bs with
  | nil => exact Option.some.inj hb
  | @cons c x cells xs hc _ ih =>
    rw [bytes?, List.mapM_cons] at hb
    obtain ⟨b, hb₁, hb⟩ := Option.bind_eq_some_iff.1 hb
    obtain ⟨bs, hb₂, hb⟩ := Option.bind_eq_some_iff.1 hb
    obtain rfl := Option.some.inj hb
    cases c with
    | byte b' =>
      obtain rfl := Option.some.inj hb₁
      rw [show x = b' from hc, ih hb₂]
    | link | unknown => simp [Cell.byte?] at hb₁

/-- The slot may stand for these 64 bits. -/
def Slot.Shows : Slot → UInt64 → Prop
  | word w, x => x = w.toUInt64
  | link pc, x => x = .ofNat pc

namespace Slot

variable {x : Slot} {w : UInt64}

theorem Shows.cells (h : x.Shows w) : List.Forall₂ Cell.Shows x.cells (Word.bytes 8 w.toNat) := by
  cases x with
  | word v =>
    rw [show w = v.toUInt64 from h, Slot.cells, List.forall₂_map_left_iff]
    exact List.forall₂_same.2 fun _ _ => rfl
  | link pc =>
    have hb : Word.bytes 8 w.toNat = Word.bytes 8 pc := by
      rw [show w = .ofNat pc from h, UInt64.toNat_ofNat']
      exact Word.bytes_mod 8 pc
    rw [hb, Slot.cells, List.forall₂_iff_get]
    exact ⟨by simp, fun i h₁ h₂ => by simp [Cell.Shows]⟩

theorem eq_bytes_of_link {pc : Nat} {xs : List UInt8}
    (h : List.Forall₂ Cell.Shows (link pc).cells xs) : xs = Word.bytes 8 pc := by
  obtain ⟨hlen, hget⟩ := List.forall₂_iff_get.1 h
  rw [length_cells] at hlen
  refine List.ext_getElem? fun i => ?_
  by_cases hi : i < xs.length
  · have hb := hget i (by rw [length_cells]; omega) hi
    simp only [Slot.cells, List.get_eq_getElem, List.getElem_map, List.getElem_range,
      Cell.Shows] at hb
    rw [hb, List.getElem?_eq_getElem hi]
  · rw [List.getElem?_eq_none (by omega), List.getElem?_eq_none (by simp; omega)]

theorem shows_of_cells {cells : List Cell} {xs : List UInt8} (h : ofCells? cells = some x)
    (hc : List.Forall₂ Cell.Shows cells xs) : x.Shows (Word.ofBytes xs) := by
  unfold ofCells? at h
  split at h
  next bs hb =>
    obtain rfl := Option.some.inj h
    rw [eq_of_bytes? hc hb]
    rfl
  next =>
    split at h
    next =>
      split at h
      next hl =>
        obtain rfl := Option.some.inj h
        rw [hl] at hc
        rw [eq_bytes_of_link hc, Word.ofBytes, Word.value_bytes]
        exact UInt64.toNat_inj.1 (by simp)
      next => cases h
    next => cases h

end Slot

namespace Memory

/-- All that is known of memory lies from `lo` up to `hi`. -/
def Within (lo hi : Int) (m : Memory) : Prop := ∀ a, m a ≠ .unknown → lo ≤ a ∧ a < hi

variable {m : Memory} {lo hi a b : Int} {cells : List Cell}

theorem store_cons (m : Memory) (a : Int) (c : Cell) (cells : List Cell) :
    m.store a (c :: cells) = (m.store a [c]).store (a + 1) cells := by
  funext b
  rcases lt_trichotomy b a with h | rfl | h
  · rw [store_below _ _ h, store_below _ _ (by omega), store_below _ _ h]
  · rw [store_below _ _ (by omega : b < b + 1)]
    simp [store]
  · have hi : (b - a).toNat = (b - (a + 1)).toNat + 1 := by omega
    rw [store, if_pos h.le, hi, List.getElem?_cons_succ, store, if_pos (by omega),
      store_above _ _ (by simp; omega)]

theorem store_eq (m : Memory) (a : Int) (cells : List Cell) (b : Int) :
    m.store a cells b = m b ∨ m.store a cells b ∈ cells := by
  unfold store
  split
  · cases h : cells[(b - a).toNat]? with
    | none => exact .inl rfl
    | some c => exact .inr (List.mem_of_getElem? h)
  · exact .inl rfl

theorem Within.of_store (h : (m.store a cells).Within lo hi) (hc : ∀ c ∈ cells, c ≠ .unknown) :
    m.Within lo hi := by
  intro b hb
  refine h b ?_
  rcases m.store_eq a cells b with hm | hm
  · rwa [hm]
  · exact hc _ hm

theorem Within.place {c : Cell} (h : (m.store a [c]).Within lo hi) (hc : c ≠ .unknown) :
    lo ≤ a ∧ a < hi :=
  h a (by simpa [Memory.store] using hc)

theorem exists_byte_of_fetch {n : Nat} {bs : List UInt8} (h : bytes? (m.fetch a n) = some bs)
    {i : Nat} (hi : i < n) : ∃ b, m (a + i) = .byte b := by
  induction n generalizing a bs i with
  | zero => omega
  | succ n ih =>
    rw [fetch, bytes?, List.mapM_cons] at h
    obtain ⟨b, hb, h⟩ := Option.bind_eq_some_iff.1 h
    obtain ⟨bs, hbs, -⟩ := Option.bind_eq_some_iff.1 h
    cases i with
    | zero =>
      rw [Nat.cast_zero, Int.add_zero]
      cases hm : m a with
      | byte b => exact ⟨b, rfl⟩
      | link | unknown => simp [hm, Cell.byte?] at hb
    | succ i =>
      have he : a + (i + 1 : Nat) = a + 1 + i := by push_cast; ring
      rw [he]
      exact ih hbs (by omega)

theorem Within.count_lt {n : Nat} {bs : List UInt8} (h : m.Within lo hi) (hw : hi - lo < 2 ^ 64)
    (hb : bytes? (m.fetch a n) = some bs) : n < 2 ^ 64 := by
  by_cases hn : n = 0
  · omega
  · obtain ⟨b, h₁⟩ := exists_byte_of_fetch hb (Nat.pos_of_ne_zero hn)
    obtain ⟨c, h₂⟩ := exists_byte_of_fetch hb (Nat.sub_one_lt hn)
    have hlo := h _ (by rw [h₁]; simp)
    have hhi := h _ (by rw [h₂]; simp)
    omega

end Memory

theorem Slot.ne_unknown_of_mem {x : Slot} {c : Cell} (h : c ∈ x.cells) : c ≠ .unknown := by
  rintro rfl
  cases x <;> simp [Slot.cells] at h

section Growth

variable {code : Code} {s t : State}

theorem State.alu?_memory {op : Alu} {dst src : Operand} (h : s.alu? op dst src = some t) :
    t.memory = s.memory := by
  unfold State.alu? at h
  split at h
  · simp only [Option.bind_eq_bind, Option.bind_eq_some_iff, Option.pure_def,
      Option.some.injEq] at h
    obtain ⟨_, _, _, _, _, _, _, _, rfl⟩ := h
    rfl
  · simp only [Option.bind_eq_bind, Option.bind_eq_some_iff, Option.pure_def,
      Option.some.injEq] at h
    obtain ⟨_, _, _, _, _, _, _, _, rfl⟩ := h
    rfl
  · obtain ⟨b, -, h⟩ := Option.bind_eq_some_iff.1 h
    split at h <;> cases h
    rfl
  · split at h
    · cases h
      rfl
    · simp only [Option.bind_eq_bind, Option.bind_eq_some_iff, Option.pure_def,
        Option.some.injEq] at h
      obtain ⟨_, _, _, _, rfl⟩ := h
      rfl
  · cases h

theorem State.unary?_memory {op : Unary} {r : Reg} (h : s.unary? op r = some t) :
    t.memory = s.memory := by
  cases op with
  | neg =>
    obtain ⟨w, -, h⟩ := Option.bind_eq_some_iff.1 h
    cases h
    rfl
  | dec =>
    simp only [State.unary?] at h
    split at h
    · cases h
      rfl
    · obtain ⟨w, -, h⟩ := Option.bind_eq_some_iff.1 h
      cases h
      rfl
  | div | idiv =>
    simp only [State.unary?, Option.bind_eq_bind, Option.bind_eq_some_iff] at h
    obtain ⟨_, _, _, _, _, _, h⟩ := h
    split at h <;> cases h
    rfl

/-- An instruction that changes memory stores what is known. -/
theorem exec_memory {i : Instr} (h : exec code s i = some t) :
    ∃ a cells, (∀ c ∈ cells, c ≠ .unknown) ∧ t.memory = s.memory.store a cells := by
  have keeps (hm : t.memory = s.memory) :
      ∃ a cells, (∀ c ∈ cells, c ≠ .unknown) ∧ t.memory = s.memory.store a cells :=
    ⟨0, [], by simp, by rw [hm]; funext b; simp [Memory.store]⟩
  cases i with
  | push src =>
    simp only [exec, State.push?, Option.bind_eq_bind, Option.bind_eq_some_iff, Option.pure_def,
      Option.some.injEq] at h
    obtain ⟨_, _, w, _, _, ⟨a, _, rfl⟩, rfl⟩ := h
    exact ⟨a - 8, _, fun _ hc => Slot.ne_unknown_of_mem hc, rfl⟩
  | call l =>
    simp only [exec, State.push?, State.goto?, Option.bind_eq_bind, Option.bind_eq_some_iff,
      Option.pure_def, Option.some.injEq] at h
    obtain ⟨_, ⟨a, _, rfl⟩, _, _, rfl⟩ := h
    exact ⟨a - 8, _, fun _ hc => Slot.ne_unknown_of_mem hc, rfl⟩
  | mov dst src =>
    obtain ⟨u, hu, h⟩ := Option.bind_eq_some_iff.1 h
    cases h
    unfold State.move? at hu
    split at hu
    · obtain ⟨_, _, h⟩ := Option.bind_eq_some_iff.1 hu
      cases h
      exact keeps rfl
    · simp only [Option.bind_eq_bind, Option.bind_eq_some_iff, Option.pure_def,
        Option.some.injEq] at hu
      obtain ⟨_, _, _, _, a, _, rfl⟩ := hu
      exact ⟨a, _, fun _ hc => Slot.ne_unknown_of_mem hc, rfl⟩
    · simp only [Option.bind_eq_bind, Option.bind_eq_some_iff, Option.pure_def,
        Option.some.injEq] at hu
      obtain ⟨a, _, b, _, rfl⟩ := hu
      exact ⟨a, [.byte b], by simp, rfl⟩
  | alu op dst src =>
    obtain ⟨u, hu, h⟩ := Option.bind_eq_some_iff.1 h
    cases h
    exact keeps (State.next_memory.trans (State.alu?_memory hu))
  | unary op r =>
    obtain ⟨u, hu, h⟩ := Option.bind_eq_some_iff.1 h
    cases h
    exact keeps (State.next_memory.trans (State.unary?_memory hu))
  | pop dst | ret =>
    simp only [exec, State.pop?, Option.bind_eq_bind, Option.bind_eq_some_iff, Option.pure_def,
      Option.some.injEq] at h
    obtain ⟨_, ⟨_, _, x, _, rfl⟩, h⟩ := h
    cases x <;> cases h
    exact keeps rfl
  | lea | cqo =>
    obtain ⟨_, _, h⟩ := Option.bind_eq_some_iff.1 h
    cases h
    exact keeps rfl
  | syscall =>
    obtain ⟨u, hu, h⟩ := Option.bind_eq_some_iff.1 h
    cases h
    unfold State.write? at hu
    split at hu
    · simp only [Option.bind_eq_bind, Option.bind_eq_some_iff, Option.pure_def,
        Option.some.injEq] at hu
      obtain ⟨_, _, _, _, _, _, rfl⟩ := hu
      exact keeps rfl
    · cases hu
  | jump kind l =>
    cases kind with
    | always =>
      obtain ⟨_, _, h⟩ := Option.bind_eq_some_iff.1 h
      cases h
      exact keeps rfl
    | on c =>
      obtain ⟨_, _, h⟩ := Option.bind_eq_some_iff.1 h
      split at h
      · obtain ⟨_, _, h⟩ := Option.bind_eq_some_iff.1 h
        cases h
        exact keeps rfl
      · cases h
        exact keeps rfl
  | text => cases h

/-- What is known of memory is not forgotten. -/
theorem Reaches.within {texts : List (List UInt8)} {lo hi : Int} (h : Reaches code s texts t)
    (ht : t.memory.Within lo hi) : s.memory.Within lo hi := by
  induction h with
  | refl => exact ht
  | @step s t u texts hr hs _ ih =>
    unfold Machine.step at hs
    split at hs
    · obtain ⟨a, cells, hc, hm⟩ := exec_memory hs
      have hw := ih ht
      rw [hm] at hw
      exact hw.of_store hc
    · cases hs
      exact ih ht
    · cases hs
      exact ih ht
    · cases hs

end Growth

end Machine

/-- The processor is where the machine is and holds the bits of all that the machine knows. -/
structure Represents (m : Machine.State) (s : Processor) : Prop where
  pc : s.pc = m.pc
  regs : ∀ r, (m.regs r).Shows (s.regs r)
  flags : ∀ f, m.flags = some f → s.flags = some f
  memory : ∀ a, (m.memory a).Shows (s.memory (.ofInt a))

namespace Processor

/-- Bytes were stored from `lo` up to `hi` only. -/
structure Confined (lo hi : Int) (s t : Processor) (es : List Event) : Prop where
  stores : ∀ a b, .store a b ∈ es → ∃ c, a = .ofInt c ∧ lo ≤ c ∧ c < hi
  other : ∀ a, (∀ c, lo ≤ c → c < hi → a ≠ .ofInt c) → t.memory a = s.memory a

variable {lo hi : Int} {s t u : Processor} {es fs : List Event} {o : Outcome} {m : Machine.State}
  {texts : List (List UInt8)}

theorem fetch_succ (s : Processor) (a : UInt64) (n : Nat) :
    s.fetch a (n + 1) = s.memory a :: s.fetch (a + 1) n := by
  rw [fetch, List.range_succ_eq_map, List.map_cons, List.map_map, fetch]
  congr 1
  · simp
  · refine List.map_congr_left fun i _ => ?_
    rw [Function.comp_apply, Nat.succ_eq_add_one, Nat.add_comm, UInt64.ofNat_add,
      ← UInt64.add_assoc]
    rfl

theorem Confined.of_memory (h : t.memory = s.memory) (hs : ∀ a b, .store a b ∉ es) :
    Confined lo hi s t es :=
  ⟨fun a b he => absurd he (hs a b), fun a _ => by rw [h]⟩

theorem Confined.put {c : Int} (hc : lo ≤ c ∧ c < hi) (b : UInt8) :
    Confined lo hi s (s.put (.ofInt c) b) [.store (.ofInt c) b] := by
  refine ⟨fun a b' he => ?_, fun a ha => ?_⟩
  · obtain ⟨rfl, -⟩ := Event.store.inj (List.mem_singleton.1 he)
    exact ⟨c, rfl, hc⟩
  · simp [Processor.put, ha c hc.1 hc.2]

theorem Confined.trans (h : Confined lo hi s t es) (h' : Confined lo hi t u fs) :
    Confined lo hi s u (es ++ fs) := by
  refine ⟨fun a b he => ?_, fun a ha => by rw [h'.other a ha, h.other a ha]⟩
  rcases List.mem_append.1 he with he | he
  · exact h.stores a b he
  · exact h'.stores a b he

/-- From `s` on, the processor comes to a state that represents `m`.  It stores bytes in the window
only, and writes the texts to standard output. -/
def Realizes (lo hi : Int) (s : Processor) (texts : List (List UInt8)) (m : Machine.State)
    (o : Outcome) : Prop :=
  ∃ t es, o = some (t, es) ∧ Represents m t ∧ Confined lo hi s t es ∧
    es.filterMap Event.write? = texts.map fun text => (1, text)

theorem Realizes.silent (h : Represents m t) (hm : t.memory = s.memory) :
    Realizes lo hi s [] m (silent t) :=
  ⟨t, [], rfl, h, .of_memory hm (by simp), rfl⟩

theorem Realizes.of_memory (h : Realizes lo hi s texts m o) (hm : s.memory = u.memory) :
    Realizes lo hi u texts m o := by
  obtain ⟨t, es, ho, hr, hc, hw⟩ := h
  exact ⟨t, es, ho, hr, ⟨hc.stores, fun a ha => by rw [hc.other a ha, hm]⟩, hw⟩

theorem Realizes.advance (h : Realizes lo hi s texts m o) :
    Realizes lo hi s texts m.next (advance o) := by
  obtain ⟨t, es, rfl, hr, hc, hw⟩ := h
  exact ⟨t.next, es, rfl, ⟨congrArg (· + 1) hr.pc, hr.regs, hr.flags, hr.memory⟩,
    ⟨hc.stores, hc.other⟩, hw⟩

end Processor

namespace Represents

open Processor (Realizes Confined)

variable {m m' : Machine.State} {s : Processor} {lo hi : Int}

theorem next (h : Represents m s) : Represents m.next s.next :=
  ⟨congrArg (· + 1) h.pc, h.regs, h.flags, h.memory⟩

theorem goTo (h : Represents m s) (pc : Nat) : Represents { m with pc } { s with pc } :=
  ⟨rfl, h.regs, h.flags, h.memory⟩

theorem compare (h : Represents m s) (f : Machine.Flags) : Represents (m.compare f) (s.compare f) :=
  ⟨h.pc, h.regs, fun _ hf => hf, h.memory⟩

theorem set {r : Reg} {v : Machine.Value} {x : UInt64} (h : Represents m s) (hv : v.Shows x) :
    Represents (m.set r v) (s.set r x) := by
  refine ⟨h.pc, fun r' => ?_, fun f hf => ?_, h.memory⟩
  · by_cases hr : r' = r
    · simpa [Machine.State.set, Processor.set, hr] using hv
    · simpa [Machine.State.set, Processor.set, hr] using h.regs r'
  · cases hf

theorem put {a : Int} {c : Machine.Cell} {x : UInt8} (h : Represents m s) (hw : hi - lo ≤ 2 ^ 64)
    (hc : c.Shows x) (hk : c ≠ .unknown) (hm : (m.memory.store a [c]).Within lo hi) :
    Represents (m.put a [c]) (s.put (.ofInt a) x) := by
  refine ⟨h.pc, h.regs, h.flags, fun b => ?_⟩
  by_cases hb : b = a
  · subst hb
    simpa [Machine.Memory.store, Processor.put] using hc
  · have hs : m.memory.store a [c] b = m.memory b := by
      rcases lt_or_gt_of_ne hb with hb | hb
      · exact m.memory.store_below _ hb
      · exact m.memory.store_above _ (by simp; omega)
    rw [Machine.State.put_memory, hs]
    by_cases hu : m.memory b = .unknown
    · rw [hu]
      trivial
    · have hne : UInt64.ofInt b ≠ .ofInt a := fun he =>
        hb (Word.ofInt_inj hw (hm.of_store (by simpa using hk) b hu) (hm.place hk) he)
      simpa [Processor.put, hne] using h.memory b

theorem putEach {a : Int} {cells : List Machine.Cell} {xs : List UInt8} (h : Represents m s)
    (hw : hi - lo ≤ 2 ^ 64) (hc : List.Forall₂ Machine.Cell.Shows cells xs)
    (hk : ∀ c ∈ cells, c ≠ .unknown) (hm : (m.memory.store a cells).Within lo hi) :
    Realizes lo hi s [] (m.put a cells) (some (s.putEach (.ofInt a) xs)) := by
  induction hc generalizing m s a with
  | nil =>
    have hs : m.memory.store a [] = m.memory := by
      funext b
      simp [Machine.Memory.store]
    have hp : m.put a [] = m := by rw [Machine.State.put, hs]
    rw [hp]
    exact .silent h rfl
  | @cons c x cells xs hc _ ih =>
    have hk' : c ≠ .unknown := hk c List.mem_cons_self
    rw [Machine.Memory.store_cons] at hm
    have hm' := hm.of_store fun c hc => hk c (List.mem_cons_of_mem _ hc)
    have hs : m.put a (c :: cells) = (m.put a [c]).put (a + 1) cells := by
      simp [Machine.State.put, Machine.Memory.store_cons m.memory a c cells]
    obtain ⟨t, es, ht, hr, hconf, hwr⟩ :=
      ih (h.put hw hc hk' hm') (fun c hc => hk c (List.mem_cons_of_mem _ hc)) hm
    rw [hs]
    rw [UInt64.ofInt_add] at ht
    refine ⟨t, .store (.ofInt a) x :: es, ?_, hr, (Confined.put (hm'.place hk') x).trans hconf, hwr⟩
    rw [Processor.putEach]
    exact congrArg (fun p => some (p.1, Event.store (.ofInt a) x :: p.2)) (Option.some.inj ht)

theorem putByte {a : Int} (h : Represents m s) (hw : hi - lo ≤ 2 ^ 64) (b : UInt8)
    (hm : (m.memory.store a [.byte b]).Within lo hi) :
    Realizes lo hi s [] (m.put a [.byte b]) (some (s.put (.ofInt a) b, [.store (.ofInt a) b])) := by
  have hb : List.Forall₂ Machine.Cell.Shows [.byte b] [b] := .cons rfl .nil
  exact h.putEach hw hb (by simp) hm

theorem putSlot {a : Int} {x : Machine.Slot} {w : UInt64} (h : Represents m s)
    (hw : hi - lo ≤ 2 ^ 64) (hx : x.Shows w) (hm : (m.memory.store a x.cells).Within lo hi) :
    Realizes lo hi s [] (m.put a x.cells) (some (s.putWord (.ofInt a) w)) :=
  h.putEach hw hx.cells (fun _ hc => Machine.Slot.ne_unknown_of_mem hc) hm

theorem fetch (h : Represents m s) (a : Int) (n : Nat) :
    List.Forall₂ Machine.Cell.Shows (m.memory.fetch a n) (s.fetch (.ofInt a) n) := by
  induction n generalizing a with
  | zero => exact .nil
  | succ n ih =>
    rw [Processor.fetch_succ, ← UInt64.ofInt_one, ← UInt64.ofInt_add]
    exact .cons (h.memory a) (ih (a + 1))

theorem slot {a : Int} {x : Machine.Slot} (h : Represents m s)
    (hx : Machine.Slot.ofCells? (m.memory.fetch a 8) = some x) : x.Shows (s.word (.ofInt a)) :=
  Machine.Slot.shows_of_cells hx (h.fetch a 8)

theorem rsp {a : Int} (h : Represents m s) (ha : (m.regs .rsp).address? = some a) :
    s.regs .rsp = .ofInt a := (h.regs .rsp).eq_address ha

theorem place {a : Int} {o : Operand} (h : Represents m s) (ha : m.place? o = some a) :
    s.address? o = some (.ofInt a) := by
  cases o with
  | slot n | stack n =>
    obtain ⟨b, hb, rfl⟩ := Option.map_eq_some_iff.1 ha
    rw [Processor.address?, h.rsp hb, UInt64.ofInt_add]
  | mem r | byte r => exact congrArg some ((h.regs r).eq_address ha)
  | reg | dl | int | word | char | text => cases ha

theorem read {o : Operand} {v : Machine.Value} (h : Represents m s) (hv : m.read? o = some v) :
    ∃ x, s.read? o = some x ∧ v.Shows x := by
  cases o with
  | reg r =>
    obtain rfl := Option.some.inj hv
    exact ⟨_, rfl, h.regs r⟩
  | int n =>
    obtain rfl := Option.some.inj hv
    exact ⟨_, rfl, rfl⟩
  | word w =>
    obtain rfl := Option.some.inj hv
    exact ⟨w, rfl, (Word.ofInt_natCast_toNat w).symm⟩
  | char c =>
    obtain rfl := Option.some.inj hv
    exact ⟨_, rfl, (Word.ofInt_natCast c.toNat).symm⟩
  | slot n =>
    obtain ⟨a, ha, hv⟩ := Option.bind_eq_some_iff.1 hv
    obtain ⟨x, hx, hv⟩ := Option.bind_eq_some_iff.1 hv
    refine ⟨s.word (.ofInt a), by rw [Processor.read?, h.place ha]; rfl, ?_⟩
    have hs := h.slot hx
    cases x with
    | word w =>
      obtain rfl := Option.some.inj hv
      rw [show s.word (.ofInt a) = w.toUInt64 from hs]
      exact .ofWord w
    | link => cases hv
  | dl | stack | mem | byte | text => cases hv

theorem readByte {o : Operand} {b : UInt8} (h : Represents m s) (hb : m.readByte? o = some b) :
    s.readByte? o = some b := by
  cases o with
  | dl => exact congrArg some ((h.regs .rdx).eq_byte hb)
  | char c => exact hb
  | reg | int | word | slot | stack | mem | byte | text => cases hb

theorem move {dst src : Operand} (h : Represents m s) (hw : hi - lo ≤ 2 ^ 64)
    (hm : m.move? dst src = some m') (hk : m'.memory.Within lo hi) :
    Realizes lo hi s [] m' (s.move dst src) := by
  have byteCase (hm : (do return m.put (← m.place? dst) [.byte (← m.readByte? src)]) = some m') :
      Realizes lo hi s [] m' (do
        let a ← s.address? dst
        let b ← s.readByte? src
        return (s.put a b, [.store a b])) := by
    obtain ⟨a, ha, hm⟩ := Option.bind_eq_some_iff.1 hm
    obtain ⟨b, hb, hm⟩ := Option.bind_eq_some_iff.1 hm
    obtain rfl := Option.some.inj hm
    rw [h.place ha, h.readByte hb]
    exact h.putByte hw b hk
  cases dst with
  | reg r =>
    obtain ⟨v, hv, hm⟩ := Option.bind_eq_some_iff.1 hm
    obtain rfl := Option.some.inj hm
    obtain ⟨x, hx, hs⟩ := h.read hv
    rw [Processor.move, hx]
    exact .silent (h.set hs) rfl
  | slot n =>
    obtain ⟨v, hv, hm⟩ := Option.bind_eq_some_iff.1 hm
    obtain ⟨w, hw', hm⟩ := Option.bind_eq_some_iff.1 hm
    obtain ⟨a, ha, hm⟩ := Option.bind_eq_some_iff.1 hm
    obtain rfl := Option.some.inj hm
    obtain ⟨x, hx, hs⟩ := h.read hv
    rw [Processor.move, h.place ha, hx, hs.eq_word hw']
    exact h.putSlot hw rfl hk
  | dl | int | word | char | stack | mem | byte | text => exact byteCase hm

theorem aluReg {op : Alu} {r : Reg} {src : Operand} (h : Represents m s)
    (hm : (if op = .xor ∧ src = .reg r then some (m.set r (.number 0))
      else do return m.set r (← Machine.compute? op (m.regs r) (← m.read? src))) = some m') :
    Realizes lo hi s [] m'
      (do Processor.silent (s.set r (← Processor.compute? (s.regs r) (← s.read? src) op))) := by
  split at hm
  next hx =>
    obtain ⟨rfl, rfl⟩ := hx
    obtain rfl := Option.some.inj hm
    have hz : s.regs r ^^^ s.regs r = 0 := UInt64.xor_self
    refine .silent (h.set ?_) rfl
    rw [hz]
    rfl
  next =>
    obtain ⟨v, hv, hm⟩ := Option.bind_eq_some_iff.1 hm
    obtain ⟨u, hu, hm⟩ := Option.bind_eq_some_iff.1 hm
    obtain rfl := Option.some.inj hm
    obtain ⟨x, hx, hs⟩ := h.read hv
    obtain ⟨z, hz, hs'⟩ := Machine.compute?_shows hu (h.regs r) hs
    simp only [hx, Option.bind_eq_bind, Option.bind_some, hz]
    exact .silent (h.set hs') rfl

theorem compareWords {dst src : Operand} {f : Int64 → Int64 → Machine.Flags} (h : Represents m s)
    (hm : (do return m.compare (f (← (← m.read? dst).word?) (← (← m.read? src).word?))) = some m') :
    Realizes lo hi s [] m' (do
      Processor.silent (s.compare (f (← s.read? dst).toInt64 (← s.read? src).toInt64))) := by
  obtain ⟨u, hu, hm⟩ := Option.bind_eq_some_iff.1 hm
  obtain ⟨a, ha, hm⟩ := Option.bind_eq_some_iff.1 hm
  obtain ⟨v, hv, hm⟩ := Option.bind_eq_some_iff.1 hm
  obtain ⟨b, hb, hm⟩ := Option.bind_eq_some_iff.1 hm
  obtain rfl := Option.some.inj hm
  obtain ⟨x, hx, hsx⟩ := h.read hu
  obtain ⟨y, hy, hsy⟩ := h.read hv
  simp only [hx, hy, Option.bind_eq_bind, Option.bind_some]
  rw [hsx.eq_word ha, hsy.eq_word hb]
  exact .silent (h.compare _) rfl

theorem alu {op : Alu} {dst src : Operand} (h : Represents m s)
    (hm : m.alu? op dst src = some m') : Realizes lo hi s [] m' (s.alu op dst src) := by
  cases op with
  | cmp | test => exact h.compareWords hm
  | add =>
    cases dst with
    | dl =>
      obtain ⟨b, hb, hm⟩ := Option.bind_eq_some_iff.1 hm
      cases hx : m.regs .rdx with
      | number n =>
        rw [hx] at hm
        obtain rfl := Option.some.inj hm
        have hs := h.regs .rdx
        rw [hx] at hs
        simp only [Processor.alu, h.readByte hb, Option.bind_eq_bind, Option.bind_some]
        refine .silent (h.set ?_) rfl
        rw [show s.regs .rdx = .ofInt n from hs]
        exact (Word.ofInt_add_low n b).symm
      | address | unknown =>
        rw [hx] at hm
        cases hm
    | reg r => exact h.aluReg hm
    | int | word | char | slot | stack | mem | byte | text => cases hm
  | sub | imul | xor =>
    cases dst with
    | reg r => exact h.aluReg hm
    | dl | int | word | char | slot | stack | mem | byte | text => cases hm

theorem unary {op : Unary} {r : Reg} (h : Represents m s) (hm : m.unary? op r = some m') :
    Realizes lo hi s [] m' (s.unary op r) := by
  cases op with
  | neg =>
    obtain ⟨w, hw, hm⟩ := Option.bind_eq_some_iff.1 hm
    obtain rfl := Option.some.inj hm
    refine .silent (h.set ?_) rfl
    rw [(h.regs r).eq_word hw, UInt64.zero_sub, ← Int64.toUInt64_neg]
    exact .ofWord _
  | dec =>
    have hr := h.regs r
    cases hv : m.regs r with
    | address a =>
      simp only [Machine.State.unary?, hv] at hm
      obtain rfl := Option.some.inj hm
      rw [hv] at hr
      refine .silent (h.set ?_) rfl
      rw [show s.regs r = .ofInt a from hr]
      exact (Word.ofInt_sub a 1).symm
    | number n =>
      simp only [Machine.State.unary?, hv] at hm
      obtain ⟨w, hw, hm⟩ := Option.bind_eq_some_iff.1 hm
      obtain rfl := Option.some.inj hm
      rw [hv] at hr
      refine .silent (h.set ?_) rfl
      have he : w.toUInt64 - 1 = (w - 1).toUInt64 := (Int64.toUInt64_sub w 1).symm
      rw [hr.eq_word hw, he]
      exact .ofWord _
    | unknown => simp [Machine.State.unary?, hv, Machine.Value.word?] at hm
  | div =>
    obtain ⟨d, hd, hm⟩ := Option.bind_eq_some_iff.1 hm
    obtain ⟨high, hh, hm⟩ := Option.bind_eq_some_iff.1 hm
    obtain ⟨low, hl, hm⟩ := Option.bind_eq_some_iff.1 hm
    dsimp only at hm
    split at hm
    next => cases hm
    next hn =>
      obtain rfl := Option.some.inj hm
      simp only [Processor.unary, (h.regs r).eq_word hd, (h.regs .rdx).eq_word hh,
        (h.regs .rax).eq_word hl]
      rw [if_neg hn]
      exact .silent ((h.set (.natCast _)).set (.natCast _)) rfl
  | idiv =>
    obtain ⟨d, hd, hm⟩ := Option.bind_eq_some_iff.1 hm
    obtain ⟨high, hh, hm⟩ := Option.bind_eq_some_iff.1 hm
    obtain ⟨low, hl, hm⟩ := Option.bind_eq_some_iff.1 hm
    dsimp only at hm
    split at hm
    next => cases hm
    next hn =>
      obtain rfl := Option.some.inj hm
      simp only [Processor.unary, (h.regs r).eq_word hd, (h.regs .rdx).eq_word hh,
        (h.regs .rax).eq_word hl, Int64.toInt64_toUInt64]
      rw [if_neg hn]
      exact .silent ((h.set (.number _)).set (.number _)) rfl

theorem push {x : Machine.Slot} {w : UInt64} (h : Represents m s) (hw : hi - lo ≤ 2 ^ 64)
    (hm : m.push? x = some m') (hx : x.Shows w) (hk : m'.memory.Within lo hi) :
    Realizes lo hi s [] m' (some ((s.set .rsp (s.regs .rsp - 8)).putWord (s.regs .rsp - 8) w)) := by
  obtain ⟨a, ha, hm⟩ := Option.bind_eq_some_iff.1 hm
  obtain rfl := Option.some.inj hm
  have hsp : s.regs .rsp - 8 = .ofInt (a - 8) := by
    rw [h.rsp ha, Word.ofInt_sub]
    rfl
  have hset : Represents (m.set .rsp (.address (a - 8))) (s.set .rsp (s.regs .rsp - 8)) := h.set hsp
  rw [hsp] at hset ⊢
  exact (hset.putSlot hw hx hk).of_memory rfl

theorem pop {x : Machine.Slot} (h : Represents m s) (hm : m.pop? = some (x, m')) :
    Represents m' (s.set .rsp (s.regs .rsp + 8)) ∧ x.Shows (s.word (s.regs .rsp)) := by
  obtain ⟨a, ha, hm⟩ := Option.bind_eq_some_iff.1 hm
  obtain ⟨y, hy, hm⟩ := Option.bind_eq_some_iff.1 hm
  obtain ⟨rfl, rfl⟩ := Prod.mk.inj (Option.some.inj hm)
  rw [h.rsp ha]
  refine ⟨h.set ?_, h.slot hy⟩
  exact (UInt64.ofInt_add a 8).symm

theorem goto {code : Code} {l : Label} (h : Represents m s) (hm : m.goto? code l = some m') :
    Realizes lo hi s [] m' (s.goto code l) := by
  obtain ⟨pc, hpc, hm⟩ := Option.bind_eq_some_iff.1 hm
  obtain rfl := Option.some.inj hm
  rw [Processor.goto, hpc]
  exact .silent (h.goTo pc) rfl

theorem write {system : System} (h : Represents m s) (hw : hi - lo < 2 ^ 64)
    (hm : m.write? = some m') (hk : m'.memory.Within lo hi) :
    Realizes lo hi s [m'.output.drop m.output.length] m' (s.call system) := by
  unfold Machine.State.write? at hm
  split at hm
  next hc =>
    obtain ⟨a, ha, hm⟩ := Option.bind_eq_some_iff.1 hm
    obtain ⟨n, hn, hm⟩ := Option.bind_eq_some_iff.1 hm
    obtain ⟨bs, hb, hm⟩ := Option.bind_eq_some_iff.1 hm
    obtain rfl := Option.some.inj hm
    have hax : s.regs .rax = 1 := by
      have hr := h.regs .rax
      rw [hc.1] at hr
      exact hr
    have hdi : s.regs .rdi = 1 := by
      have hr := h.regs .rdi
      rw [hc.2] at hr
      exact hr
    have hlt : n < 2 ^ 64 := hk.count_lt hw hb
    have hdx : (s.regs .rdx).toNat = n := by
      rw [(h.regs .rdx).eq_count hn, UInt64.toNat_ofNat_of_lt' hlt]
    have hf : s.fetch (s.regs .rsi) n = bs := by
      rw [(h.regs .rsi).eq_address ha]
      exact Machine.eq_of_bytes? (h.fetch a n) hb
    rw [Processor.call, if_pos hax, hdx, hf, hdi]
    refine ⟨_, _, rfl, ?_, .of_memory rfl (by simp), ?_⟩
    · have hset : Represents ((m.set .rax .unknown).set .rcx .unknown)
          ((s.set .rax (system s).1).set .rcx (system s).2) := (h.set (.unknown _)).set (.unknown _)
      exact ⟨hset.pc, hset.regs, hset.flags, hset.memory⟩
    · simp [Event.write?]
  next => cases hm

theorem exec {system : System} {code : Code} {i : Instr} (h : Represents m s)
    (hw : hi - lo ≤ 2 ^ 64) (hi' : i ≠ .syscall) (hm : Machine.exec code m i = some m')
    (hk : m'.memory.Within lo hi) (hret : i = .ret → m'.pc < 2 ^ 64) :
    Realizes lo hi s [] m' (s.exec system code i) := by
  cases i with
  | push src =>
    obtain ⟨v, hv, hm⟩ := Option.bind_eq_some_iff.1 hm
    obtain ⟨w, hv', hm⟩ := Option.bind_eq_some_iff.1 hm
    obtain ⟨u, hu, hm⟩ := Option.bind_eq_some_iff.1 hm
    obtain rfl := Option.some.inj hm
    obtain ⟨x, hx, hs⟩ := h.read hv
    rw [Processor.exec, hx]
    exact (h.push hw hu (hs.eq_word hv') hk).advance
  | pop dst =>
    obtain ⟨⟨x, u⟩, hu, hm⟩ := Option.bind_eq_some_iff.1 hm
    obtain ⟨hr, hx⟩ := h.pop hu
    cases x with
    | word w =>
      obtain rfl := Option.some.inj hm
      rw [Processor.exec, show s.word (s.regs .rsp) = w.toUInt64 from hx]
      exact .advance (.silent (hr.set (.ofWord w)) rfl)
    | link => cases hm
  | mov dst src =>
    obtain ⟨u, hu, hm⟩ := Option.bind_eq_some_iff.1 hm
    obtain rfl := Option.some.inj hm
    exact (h.move hw hu hk).advance
  | lea dst src =>
    obtain ⟨a, ha, hm⟩ := Option.bind_eq_some_iff.1 hm
    obtain rfl := Option.some.inj hm
    rw [Processor.exec, h.place ha, Option.bind_eq_bind, Option.bind_some]
    exact .advance (.silent (h.set (.address a)) rfl)
  | alu op dst src =>
    obtain ⟨u, hu, hm⟩ := Option.bind_eq_some_iff.1 hm
    obtain rfl := Option.some.inj hm
    exact (h.alu hu).advance
  | unary op r =>
    obtain ⟨u, hu, hm⟩ := Option.bind_eq_some_iff.1 hm
    obtain rfl := Option.some.inj hm
    exact (h.unary hu).advance
  | cqo =>
    obtain ⟨w, hv, hm⟩ := Option.bind_eq_some_iff.1 hm
    obtain rfl := Option.some.inj hm
    rw [Processor.exec, (h.regs .rax).eq_word hv, Int64.toInt64_toUInt64]
    refine .advance (.silent (h.set ?_) rfl)
    split <;> rfl
  | jump kind l =>
    cases kind with
    | always => exact h.goto hm
    | on c =>
      obtain ⟨f, hf, hm⟩ := Option.bind_eq_some_iff.1 hm
      rw [Processor.exec, h.flags f hf, Option.bind_eq_bind, Option.bind_some]
      split at hm
      next hc =>
        rw [if_pos hc]
        exact h.goto hm
      next hc =>
        obtain rfl := Option.some.inj hm
        rw [if_neg hc]
        exact .silent h.next rfl
  | call l =>
    obtain ⟨u, hu, hm⟩ := Option.bind_eq_some_iff.1 hm
    obtain ⟨pc, hpc, hm⟩ := Option.bind_eq_some_iff.1 hm
    obtain rfl := Option.some.inj hm
    obtain ⟨t, es, ht, hr, hc, hwr⟩ := h.push hw hu (w := .ofNat (s.pc + 1)) (by rw [h.pc]; rfl) hk
    refine ⟨{ t with pc }, es, ?_, hr.goTo pc, ⟨hc.stores, hc.other⟩, hwr⟩
    simp only [Processor.exec, Option.some.inj ht, Processor.goto, hpc]
    rfl
  | ret =>
    obtain ⟨⟨x, u⟩, hu, hm⟩ := Option.bind_eq_some_iff.1 hm
    obtain ⟨hr, hx⟩ := h.pop hu
    cases x with
    | word => cases hm
    | link pc =>
      obtain rfl := Option.some.inj hm
      have hpc : (s.word (s.regs .rsp)).toNat = pc := by
        rw [show s.word (s.regs .rsp) = .ofNat pc from hx]
        exact UInt64.toNat_ofNat_of_lt' (hret rfl)
      rw [Processor.exec, hpc]
      exact .silent (hr.goTo pc) rfl
  | syscall => exact absurd rfl hi'
  | text => cases hm

theorem step {system : System} {code : Code} (h : Represents m s) (hw : hi - lo < 2 ^ 64)
    (hm : Machine.step code m = some m') (hk : m'.memory.Within lo hi)
    (hret : code[m.pc]? = some (.instr .ret) → m'.pc < 2 ^ 64) :
    Realizes lo hi s (Machine.written code m m') m' (s.step system code) := by
  rw [Processor.step, Machine.written, h.pc]
  unfold Machine.step at hm
  split at hm
  next i hl =>
    rw [hl] at hret
    rw [hl]
    by_cases hi' : i = .syscall
    · subst hi'
      obtain ⟨u, hu, hm⟩ := Option.bind_eq_some_iff.1 hm
      obtain rfl := Option.some.inj hm
      exact (h.write hw hu hk).advance
    · rw [if_neg (by simpa using hi')]
      exact h.exec hw.le hi' hm hk fun hr => hret (by rw [hr])
  next hl =>
    obtain rfl := Option.some.inj hm
    rw [hl]
    exact .silent h.next rfl
  next hl =>
    obtain rfl := Option.some.inj hm
    rw [hl]
    exact .silent h.next rfl
  next => cases hm

end Represents

/-- The machine that knows the registers of a processor, `rsp` as a place, and nothing of memory. -/
def Processor.known (s : Processor) : Machine.State where
  pc := s.pc
  regs r := if r = .rsp then .address (s.regs r).toNat else .ofWord (s.regs r).toInt64
  flags := none
  memory _ := .unknown
  output := []

theorem Processor.represents_known (s : Processor) : Represents s.known s := by
  refine ⟨rfl, fun r => ?_, fun f hf => ?_, fun _ => trivial⟩
  · unfold known
    dsimp only
    split
    · exact (Word.ofInt_natCast_toNat (s.regs r)).symm
    · exact .ofWord (s.regs r).toInt64
  · cases hf

/-- What the machine does up to a return, the processor does. -/
theorem Machine.Reaches.realized {code : Code} {m m' : Machine.State} {s : Processor} {lo hi : Int}
    {texts : List (List UInt8)} (hr : Machine.Reaches code m texts m') (system : System)
    (h : Represents m s) (hw : hi - lo < 2 ^ 64) (hk : m'.memory.Within lo hi) :
    ∃ t es, Processor.Reaches system code s es t ∧ Represents m' t ∧
      Processor.Confined lo hi s t es ∧
      es.filterMap Event.write? = texts.map fun text => (1, text) := by
  induction hr generalizing s with
  | refl m => exact ⟨s, [], .refl s, h, .of_memory rfl (by simp), rfl⟩
  | @step m₁ m₂ m₃ texts hn hs hrest ih =>
    obtain ⟨t, es, ht, hr₁, hc₁, hw₁⟩ :
        Processor.Realizes lo hi s (Machine.written code m₁ m₂) m₂ (s.step system code) :=
      h.step hw hs (hrest.within hk) fun hret => absurd hret hn
    obtain ⟨u, fs, hu, hr₂, hc₂, hw₂⟩ := ih hr₁ hk
    refine ⟨u, es ++ fs, .step (by rwa [h.pc]) ht hu, hr₂, hc₁.trans hc₂, ?_⟩
    rw [List.filterMap_append, hw₁, hw₂, List.map_append]

end Stackwise
