import Stackwise.Proofs.Execution

/-! The routine that writes integers.  It puts the digits of the magnitude below a place from the
last to the first, a sign before them if there is one, and writes what it has put there; beyond its
32 bytes of the stack it changes no memory. -/
namespace Stackwise

open Machine

def digitBytes (n : Nat) : List UInt8 := (Numeral.digits 10 n).map fun c => .ofNat c.toNat

theorem digitBytes_eq (n : Nat) :
    digitBytes n = (if 10 ≤ n then digitBytes (n / 10) else []) ++ [.ofNat (48 + n % 10)] := by
  unfold digitBytes
  rw [Numeral.digits]
  by_cases h : 10 ≤ n
  · rw [if_pos ⟨by decide, h⟩, if_pos h, List.map_append, List.map_singleton,
      Numeral.toNat_digit _ (by omega)]
  · have hm : n % 10 = n := Nat.mod_eq_of_lt (by omega)
    rw [if_neg (by omega), if_neg h, List.map_singleton, Numeral.toNat_digit n (by omega), hm,
      List.nil_append]

theorem utf8_ofList {cs : List Char} (h : ∀ c ∈ cs, c.toNat ≤ 127) :
    (String.ofList cs).toUTF8.data.toList = cs.map fun c => .ofNat c.toNat := by
  have he : (String.ofList cs).toUTF8.data.toList = cs.flatMap String.utf8EncodeChar := by
    simp [List.utf8Encode]
  rw [he]
  clear he
  induction cs with
  | nil => rfl
  | cons c cs ih =>
    have hc := h c (by simp)
    have h₁ : String.utf8EncodeChar c = [.ofNat c.toNat] := by
      simp only [String.utf8EncodeChar]
      exact if_pos hc
    rw [List.flatMap_cons, h₁, ih fun c' h' => h c' (by simp [h'])]
    rfl

theorem Numeral.toNat_digits_le (n : Nat) : ∀ c ∈ Numeral.digits 10 n, c.toNat ≤ 127 := by
  have hd (d : Nat) (h : d < 10) : (Numeral.digit d).toNat ≤ 127 := by
    rw [Numeral.toNat_digit d h]
    omega
  fun_induction Numeral.digits 10 n with
  | case1 n h ih =>
    intro c hc
    rcases List.mem_append.1 hc with hc | hc
    · exact ih c hc
    · rw [List.mem_singleton.1 hc]
      exact hd _ (by omega)
  | case2 n h =>
    intro c hc
    rw [List.mem_singleton.1 hc]
    exact hd n (by omega)

theorem decimalBytes_eq (v : Int64) :
    decimalBytes v = (if v < 0 then [45] else []) ++ digitBytes v.toInt.natAbs := by
  have hl : v < 0 ↔ v.toInt < 0 := Int64.lt_iff_toInt_lt
  unfold decimalBytes Numeral.signed Numeral.decimal digitBytes
  split
  next n hn =>
    rw [if_neg (by rw [hl, hn]; exact not_lt.2 (Int.natCast_nonneg n)), hn, List.nil_append]
    exact utf8_ofList (Numeral.toNat_digits_le n)
  next n hn =>
    rw [if_pos (by rw [hl, hn]; exact Int.negSucc_lt_zero n), hn]
    have hs : "-" ++ String.ofList (Numeral.digits 10 (n + 1)) =
        String.ofList ('-' :: Numeral.digits 10 (n + 1)) := by
      rw [← List.singleton_append, String.ofList_append]
    rw [hs, utf8_ofList]
    · rfl
    · intro c hc
      rcases List.mem_cons.1 hc with rfl | hc
      · decide
      · exact Numeral.toNat_digits_le _ c hc

namespace Machine

/-- A step on to `rest` that changes one register. -/
structure Sets (code rest : Code) (d : Reg) (v : Value) (s t : State) : Prop where
  reaches : Reaches code s [] t
  rest : code.drop t.pc = rest
  self : t.regs d = v
  other : ∀ r, r ≠ d → t.regs r = s.regs r
  memory : t.memory = s.memory
  output : t.output = s.output

variable {code rest post : Code} {s t : State}

theorem step_of_drop {i : Instr} (h : code.drop s.pc = .instr i :: rest) :
    step code s = exec code s i := by
  have hd := congrArg List.head? h
  rw [List.head?_drop] at hd
  rw [step, hd]
  rfl

theorem drop_next {l : Line} (h : code.drop s.pc = l :: rest) : code.drop (s.pc + 1) = rest := by
  rw [← List.drop_drop, h, List.drop_one, List.tail_cons]

theorem getElem?_of_drop {l : Line} (h : code.drop s.pc = l :: rest) : code[s.pc]? = some l := by
  rw [← List.head?_drop, h, List.head?_cons]

theorem Reaches.instr {i : Instr} (h : code.drop s.pc = .instr i :: rest) (hr : i ≠ .ret)
    (hc : i ≠ .syscall) (he : exec code s i = some t) : Reaches code s [] t := by
  have hl := getElem?_of_drop h
  have hw : written code s t = [] := if_neg (by rw [hl]; simpa using hc)
  have hstep : Reaches code s (written code s t ++ []) t :=
    .step (by rw [hl]; simpa using hr) (by rw [step_of_drop h, he]) (.refl t)
  rwa [hw] at hstep

theorem Reaches.label {l : Label} (h : code.drop s.pc = .label l :: rest) :
    Reaches code s [] s.next := by
  have hl := getElem?_of_drop h
  have hw : written code s s.next = [] := if_neg (by simp [hl])
  have hstep : Reaches code s (written code s s.next ++ []) s.next :=
    .step (by simp [hl]) (by rw [Machine.step, hl]) (.refl _)
  rwa [hw] at hstep

theorem Sets.of_exec (d : Reg) (v : Value) {i : Instr} (h : code.drop s.pc = .instr i :: rest)
    (hr : i ≠ .ret) (hc : i ≠ .syscall) (he : exec code s i = some (s.set d v).next) :
    ∃ t, Sets code rest d v s t :=
  ⟨(s.set d v).next, .instr h hr hc he, drop_next h, State.set_regs_self,
    fun _ hr => State.set_regs_of_ne hr, rfl, rfl⟩

theorem test_jump {r : Reg} {w : Int64} {cc : ConditionCode} {l : Label}
    (h : code.drop s.pc = .instr (.alu .test (.reg r) (.reg r)) :: .instr (.jump (.on cc) l) ::
      rest)
    (hw : s.regs r = .ofWord w) (hl : code.count (.label l) ≤ 1) (hp : .label l :: post <:+ code) :
    ∃ t, Reaches code s [] t ∧
      code.drop t.pc = (if cc.holds (.ofTest w w) then .label l :: post else rest) ∧
      t.regs = s.regs ∧ t.memory = s.memory ∧ t.output = s.output := by
  have h₁ : Reaches code s [] (s.compare (.ofTest w w)).next :=
    .instr h (by simp) (by simp) (by simp [exec, State.alu?, hw])
  have h₂ : code.drop (s.compare (.ofTest w w)).next.pc = .instr (.jump (.on cc) l) :: rest :=
    drop_next h
  obtain ⟨pc, hi, hd⟩ := Code.idxOf?_label hl hp
  by_cases hh : cc.holds (.ofTest w w)
  · refine ⟨{ (s.compare (.ofTest w w)).next with pc },
      h₁.trans (.instr h₂ (by simp) (by simp) ?_), ?_, rfl, rfl, rfl⟩
    · simp [exec, hh, State.goto?, hi]
    · rw [if_pos hh, hd]
  · refine ⟨(s.compare (.ofTest w w)).next.next, h₁.trans (.instr h₂ (by simp) (by simp) ?_), ?_,
      rfl, rfl, rfl⟩
    · simp [exec, hh]
    · rw [if_neg hh]
      exact drop_next h₂

end Machine

namespace PrintInt

variable {code : Code} {s : State}

theorem toNat_neg {v : Int64} (h : v < 0) : (-v).toUInt64.toNat = v.toInt.natAbs := by
  have hl : v.toInt < 0 := Int64.lt_iff_toInt_lt.1 h
  have hn : (-v).toUInt64.toNat = (-v).toBitVec.toNat := rfl
  have hx : v.toInt = if 2 * v.toBitVec.toNat < 2 ^ 64 then (v.toBitVec.toNat : Int)
      else v.toBitVec.toNat - (2 ^ 64 : Nat) := BitVec.toInt_eq_toNat_cond v.toBitVec
  have hb := v.toBitVec.isLt
  rw [hn, Int64.toBitVec_neg, BitVec.toNat_neg]
  split at hx <;> omega

theorem toNat_of_nonneg {v : Int64} (h : ¬ v < 0) : v.toUInt64.toNat = v.toInt.natAbs := by
  have hl : ¬ v.toInt < 0 := fun ht => h (Int64.lt_iff_toInt_lt.2 ht)
  have hn : v.toUInt64.toNat = v.toBitVec.toNat := rfl
  have hx : v.toInt = if 2 * v.toBitVec.toNat < 2 ^ 64 then (v.toBitVec.toNat : Int)
      else v.toBitVec.toNat - (2 ^ 64 : Nat) := BitVec.toInt_eq_toNat_cond v.toBitVec
  have hb := v.toBitVec.isLt
  rw [hn]
  split at hx <;> omega

theorem suffix_drop (hc : PrintInt.code <:+ code) (n : Nat) : PrintInt.code.drop n <:+ code :=
  (List.drop_suffix n _).trans hc

/-- Up to the first digit: the magnitude is in `rax`, the place below which digits go in `rsi`. -/
theorem start_reaches {a : Int} {v : Int64} (hl : code.count (.label digits) ≤ 1)
    (hc : PrintInt.code <:+ code) (hd : code.drop s.pc = PrintInt.code)
    (hs : s.regs .rsp = .address a) (hv : s.regs .rax = .ofWord v) :
    ∃ t w, Reaches code s [] t ∧ code.drop t.pc = PrintInt.code.drop 9 ∧
      t.regs .rsp = .address (a - 32) ∧ t.regs .rsi = .address a ∧ t.regs .rcx = .number 10 ∧
      t.regs .r8 = .ofWord (if v < 0 then 1 else 0) ∧ t.regs .rax = .ofWord w ∧
      w.toUInt64.toNat = v.toInt.natAbs ∧ t.memory = s.memory ∧ t.output = s.output := by
  have h₀ : Reaches code s [] s.next := .label hd
  have hd₀ : code.drop s.next.pc = PrintInt.code.drop 1 := drop_next hd
  obtain ⟨s₁, h₁⟩ := Sets.of_exec .rsp (.address (a - 32)) hd₀ (by simp) (by simp)
    (by simp [exec, State.alu?, hs, compute?])
  obtain ⟨s₂, h₂⟩ := Sets.of_exec .rsi (.address a) h₁.rest (by simp) (by simp)
    (by simp [exec, State.place?, h₁.self, Value.address?])
  obtain ⟨s₃, h₃⟩ := Sets.of_exec .rcx (.number 10) h₂.rest (by simp) (by simp)
    (by simp [exec, State.move?])
  obtain ⟨s₄, h₄⟩ := Sets.of_exec .r8 (.ofWord 0) h₃.rest (by simp) (by simp)
    (by simp [exec, State.alu?, Value.ofWord])
  have hx : s₄.regs .rax = .ofWord v := by simp [h₄.other, h₃.other, h₂.other, h₁.other, hv]
  have hm : s₄.memory = s.memory := by
    rw [h₄.memory, h₃.memory, h₂.memory, h₁.memory, State.next_memory]
  have ho : s₄.output = s.output := by
    rw [h₄.output, h₃.output, h₂.output, h₁.output, State.next_output]
  obtain ⟨s₅, h₅, hd₅, hr₅, hm₅, ho₅⟩ := test_jump h₄.rest hx hl (suffix_drop hc 9)
  have hreach : Reaches code s [] s₅ :=
    h₀.trans (h₁.reaches.trans (h₂.reaches.trans (h₃.reaches.trans (h₄.reaches.trans h₅))))
  by_cases hneg : v < 0
  · have hsign : ConditionCode.ns.holds (.ofTest v v) = false := by
      simp [ConditionCode.holds, Flags.ofTest, hneg]
    rw [hsign] at hd₅
    obtain ⟨s₆, h₆⟩ := Sets.of_exec .rax (.ofWord (-v)) hd₅ (by simp) (by simp)
      (by simp [exec, State.unary?, hr₅, hx])
    obtain ⟨s₇, h₇⟩ := Sets.of_exec .r8 (.ofWord 1) h₆.rest (by simp) (by simp)
      (by simp [exec, State.move?, Value.ofWord])
    refine ⟨s₇, -v, hreach.trans (h₆.reaches.trans h₇.reaches), h₇.rest,
      ?_, ?_, ?_, by rw [h₇.self, if_pos hneg], ?_, toNat_neg hneg, ?_, ?_⟩
    · simp [h₇.other, h₆.other, hr₅, h₄.other, h₃.other, h₂.other, h₁.self]
    · simp [h₇.other, h₆.other, hr₅, h₄.other, h₃.other, h₂.self]
    · simp [h₇.other, h₆.other, hr₅, h₄.other, h₃.self]
    · rw [h₇.other _ (by decide), h₆.self]
    · rw [h₇.memory, h₆.memory, hm₅, hm]
    · rw [h₇.output, h₆.output, ho₅, ho]
  · have hsign : ConditionCode.ns.holds (.ofTest v v) = true := by
      simp [ConditionCode.holds, Flags.ofTest, hneg]
    rw [hsign] at hd₅
    refine ⟨s₅, v, hreach, hd₅, ?_, ?_, ?_, ?_, by rw [hr₅, hx], toNat_of_nonneg hneg, ?_, ?_⟩
    · simp [hr₅, h₄.other, h₃.other, h₂.other, h₁.self]
    · simp [hr₅, h₄.other, h₃.other, h₂.self]
    · simp [hr₅, h₄.other, h₃.self]
    · rw [hr₅, h₄.self, if_neg hneg]
    · rw [hm₅, hm]
    · rw [ho₅, ho]

theorem exists_div_ten (w : Int64) :
    ∃ q : Int64, q.toInt = (w.toUInt64.toNat / 10 : Nat) ∧
      q.toUInt64.toNat = w.toUInt64.toNat / 10 ∧ (q = 0 ↔ w.toUInt64.toNat < 10) := by
  have hw := w.toUInt64.toNat_lt
  have hq : (Int64.ofInt (w.toUInt64.toNat / 10 : Nat)).toInt = (w.toUInt64.toNat / 10 : Nat) :=
    Int64.toInt_ofInt_of_le (by omega) (by omega)
  refine ⟨.ofInt (w.toUInt64.toNat / 10 : Nat), hq, ?_, ?_⟩
  · have hn : ¬ Int64.ofInt (w.toUInt64.toNat / 10 : Nat) < 0 := by
      rw [Int64.lt_iff_toInt_lt, hq]
      exact not_lt.2 (Int.natCast_nonneg _)
    rw [toNat_of_nonneg hn, hq]
    rfl
  · rw [← Int64.toInt_inj, hq, Int64.toInt_zero]
    omega

theorem divide_reaches {w : Int64} (hd : code.drop s.pc = PrintInt.code.drop 9)
    (ht : s.regs .rcx = .number 10) (hw : s.regs .rax = .ofWord w) :
    ∃ t q, Reaches code s [] t ∧ code.drop t.pc = PrintInt.code.drop 12 ∧
      t.regs .rdx = .number (w.toUInt64.toNat % 10 : Nat) ∧ t.regs .rax = .ofWord q ∧
      q.toUInt64.toNat = w.toUInt64.toNat / 10 ∧ (q = 0 ↔ w.toUInt64.toNat < 10) ∧
      (∀ r, r ≠ .rax → r ≠ .rdx → t.regs r = s.regs r) ∧ t.memory = s.memory ∧
      t.output = s.output := by
  obtain ⟨q, hq, hn, hz⟩ := exists_div_ten w
  have hlt := w.toUInt64.toNat_lt
  have h₀ : Reaches code s [] s.next := .label hd
  have hd₀ : code.drop s.next.pc = PrintInt.code.drop 10 := drop_next hd
  obtain ⟨s₁, h₁⟩ := Sets.of_exec .rdx (.number 0) hd₀ (by simp) (by simp)
    (by simp [exec, State.alu?])
  have hdiv : s₁.unary? .div .rcx = some ((s₁.set .rax (.ofWord q)).set .rdx
      (.number (w.toUInt64.toNat % 10 : Nat))) := by
    have hten : (Value.number 10).word? = some 10 := rfl
    have hzero : (Value.number 0).word? = some 0 := rfl
    have hd : (10 : Int64).toUInt64.toNat = 10 := rfl
    have hh : (0 : Int64).toUInt64.toNat = 0 := rfl
    have hr : ¬ (10 = 0 ∨ 2 ^ 64 ≤ (0 * 2 ^ 64 + w.toUInt64.toNat) / 10) := by omega
    simp only [State.unary?, h₁.other .rcx (by decide), h₁.other .rax (by decide), h₁.self,
      State.next_regs, ht, hw, hten, hzero, Value.word?_ofWord, Option.bind_eq_bind,
      Option.bind_some, hd, hh, if_neg hr, Option.pure_def]
    rw [Nat.zero_mul, Nat.zero_add, Value.ofWord, hq]
  refine ⟨((s₁.set .rax (.ofWord q)).set .rdx (.number (w.toUInt64.toNat % 10 : Nat))).next, q,
    h₀.trans (h₁.reaches.trans (.instr h₁.rest (by simp) (by simp) ?_)), drop_next h₁.rest,
    by simp, by simp [State.set], hn, hz, ?_, h₁.memory, h₁.output⟩
  · rw [exec, hdiv]
    rfl
  · intro r hx hd
    simp [State.set, hx, hd, h₁.other]

theorem ofInt_natCast (n : Nat) : UInt8.ofInt n = .ofNat n := by
  have hn : ((n : Int) % 2 ^ 8).toNat = n % 2 ^ 8 := by omega
  rw [UInt8.ofInt, hn]
  apply UInt8.toNat_inj.1
  rw [UInt8.toNat_ofNat', UInt8.toNat_ofNat']
  omega

/-- The second half of a turn puts a digit below `rsi` and ends the loop if no digits are left. -/
theorem put_reaches {b : Int} {d : Nat} {q : Int64} (hl : code.count (.label digits) ≤ 1)
    (hc : PrintInt.code <:+ code) (hd : code.drop s.pc = PrintInt.code.drop 12)
    (hi : s.regs .rsi = .address b) (hx : s.regs .rdx = .number d) (h₁₀ : d < 10)
    (hq : s.regs .rax = .ofWord q) :
    ∃ t, Reaches code s [] t ∧
      code.drop t.pc = (if q = 0 then PrintInt.code.drop 17 else PrintInt.code.drop 9) ∧
      t.regs .rsi = .address (b - 1) ∧ (∀ r, r ≠ .rsi → r ≠ .rdx → t.regs r = s.regs r) ∧
      t.memory = s.memory.store (b - 1) [.byte (.ofNat (48 + d))] ∧ t.output = s.output := by
  obtain ⟨s₁, h₁⟩ := Sets.of_exec .rdx (.number (48 + d : Nat)) hd (by simp) (by simp) (by
    have h48 : (UInt8.ofNat '0'.toNat).toNat = 48 := rfl
    have hsum : (d : Int) - d % 256 + (d + (48 : Nat)) % 256 = (48 + d : Nat) := by omega
    simp only [exec, State.alu?, hx, State.readByte?, Option.bind_eq_bind, Option.bind_some, h48,
      hsum, Option.pure_def])
  obtain ⟨s₂, h₂⟩ := Sets.of_exec .rsi (.address (b - 1)) h₁.rest (by simp) (by simp)
    (by simp [exec, State.unary?, h₁.other, hi])
  have h₃ : Reaches code s₂ [] (s₂.put (b - 1) [.byte (.ofNat (48 + d))]).next := by
    refine .instr h₂.rest (by simp) (by simp) ?_
    have hb : UInt8.ofInt ((48 + d : Nat) : Int) = .ofNat (48 + d) := ofInt_natCast _
    simp only [exec, State.move?, State.readByte?, h₂.other .rdx (by decide), h₁.self, Value.byte?,
      State.place?, h₂.self, Value.address?, Option.bind_eq_bind, Option.bind_some, hb,
      Option.pure_def]
  have hq₂ : (s₂.put (b - 1) [.byte (.ofNat (48 + d))]).next.regs .rax = .ofWord q := by
    simp [h₂.other, h₁.other, hq]
  obtain ⟨t, ht, hdt, hr, hm, ho⟩ := test_jump (drop_next h₂.rest) hq₂ hl (suffix_drop hc 9)
  have hcond : ConditionCode.nz.holds (.ofTest q q) = !decide (q = 0) := by
    rw [Bool.eq_iff_iff]
    simp [ConditionCode.holds, Flags.ofTest]
  refine ⟨t, h₁.reaches.trans (h₂.reaches.trans (h₃.trans ht)), ?_, by rw [hr]; exact h₂.self,
    ?_, ?_, ?_⟩
  · rw [hdt, hcond]
    by_cases h : q = 0
    · simp only [h, decide_true, Bool.not_true, Bool.false_eq_true, if_false, if_true]
      rfl
    · simp only [h, decide_false, Bool.not_false, if_true, if_false]
      rfl
  · intro r h₃ h₄
    rw [hr]
    simp [h₂.other r h₃, h₁.other r h₄]
  · rw [hm, State.next_memory, State.put_memory, h₂.memory, h₁.memory]
  · rw [ho, State.next_output, State.put_output, h₂.output, h₁.output]

/-- The loop puts all digits below `rsi`. -/
theorem digits_reaches {r8 : Value} {a : Int} (hl : code.count (.label digits) ≤ 1)
    (hc : PrintInt.code <:+ code) (n : Nat) :
    ∀ {s : State} {b : Int} {w : Int64}, code.drop s.pc = PrintInt.code.drop 9 →
      s.regs .rsi = .address b → s.regs .rcx = .number 10 → s.regs .rax = .ofWord w →
      w.toUInt64.toNat = n → s.regs .rsp = .address a → s.regs .r8 = r8 →
      ∃ t, Reaches code s [] t ∧ code.drop t.pc = PrintInt.code.drop 17 ∧
        t.regs .rsi = .address (b - (digitBytes n).length) ∧ t.regs .rsp = .address a ∧
        t.regs .r8 = r8 ∧
        t.memory = s.memory.store (b - (digitBytes n).length) ((digitBytes n).map .byte) ∧
        t.output = s.output := by
  induction n using Nat.strong_induction_on with
  | _ n ih =>
    intro s b w hd hi ht hw hn hp h8
    obtain ⟨s₁, q, h₁, hd₁, hx₁, hq₁, hqn, hqz, hr₁, hm₁, ho₁⟩ := divide_reaches hd ht hw
    obtain ⟨s₂, h₂, hd₂, hi₂, hr₂, hm₂, ho₂⟩ := put_reaches hl hc hd₁
      (by rw [hr₁ _ (by decide) (by decide), hi]) hx₁ (Nat.mod_lt _ (by decide)) hq₁
    have hreach : Reaches code s [] s₂ := h₁.trans h₂
    have hr (r : Reg) (ha : r ≠ .rax) (hd : r ≠ .rdx) (hs : r ≠ .rsi) : s₂.regs r = s.regs r := by
      rw [hr₂ r hs hd, hr₁ r ha hd]
    rw [hn] at hqn hqz hm₂
    by_cases h : 10 ≤ n
    · rw [if_neg (by rw [hqz]; omega)] at hd₂
      obtain ⟨t, h₃, hd₃, hi₃, hp₃, h8₃, hm₃, ho₃⟩ := ih (n / 10) (by omega) hd₂ hi₂
        (by rw [hr _ (by decide) (by decide) (by decide), ht])
        (by rw [hr₂ _ (by decide) (by decide), hq₁]) hqn
        (by rw [hr _ (by decide) (by decide) (by decide), hp])
        (by rw [hr _ (by decide) (by decide) (by decide), h8])
      have hlen : b - (digitBytes n).length = b - 1 - (digitBytes (n / 10)).length := by
        rw [digitBytes_eq n, if_pos h, List.length_append]
        simp
        omega
      refine ⟨t, hreach.trans h₃, hd₃, by rw [hi₃, hlen], hp₃, h8₃, ?_, ?_⟩
      · have hs := s.memory.store_store (b - 1 - (digitBytes (n / 10)).length)
          ((digitBytes (n / 10)).map .byte) [.byte (.ofNat (48 + n % 10))]
        rw [List.length_map, sub_add_cancel] at hs
        rw [hm₃, hm₂, hm₁, hs, hlen, digitBytes_eq n, if_pos h, List.map_append]
        rfl
      · rw [ho₃, ho₂, ho₁]
    · have hb : digitBytes n = [.ofNat (48 + n % 10)] := by rw [digitBytes_eq, if_neg h]; rfl
      rw [if_pos (by rw [hqz]; omega)] at hd₂
      refine ⟨s₂, hreach, hd₂, by rw [hi₂, hb]; rfl, ?_, ?_, by rw [hm₂, hm₁, hb]; rfl,
        by rw [ho₂, ho₁]⟩
      · rw [hr _ (by decide) (by decide) (by decide), hp]
      · rw [hr _ (by decide) (by decide) (by decide), h8]

theorem sign_reaches {m : Memory} {b : Int} {w : Int64} {ds : List UInt8}
    (hl : code.count (.label write) ≤ 1) (hc : PrintInt.code <:+ code)
    (hd : code.drop s.pc = PrintInt.code.drop 17) (hi : s.regs .rsi = .address b)
    (h8 : s.regs .r8 = .ofWord w) (hm : s.memory = m.store b (ds.map .byte)) :
    ∃ t sign, Reaches code s [] t ∧ sign = (if w = 0 then [] else [45]) ∧
      code.drop t.pc = PrintInt.code.drop 21 ∧ t.regs .rsi = .address (b - sign.length) ∧
      t.regs .rsp = s.regs .rsp ∧ t.memory = m.store (b - sign.length) ((sign ++ ds).map .byte) ∧
      t.output = s.output := by
  obtain ⟨s₁, h₁, hd₁, hr₁, hm₁, ho₁⟩ := test_jump hd h8 hl (suffix_drop hc 21)
  by_cases hz : w = 0
  · have hcond : ConditionCode.z.holds (.ofTest w w) = true := by
      simp [ConditionCode.holds, Flags.ofTest, hz]
    rw [hcond] at hd₁
    refine ⟨s₁, [], h₁, by rw [if_pos hz], hd₁, ?_, by rw [hr₁], ?_, ho₁⟩
    · simp [hr₁, hi]
    · simp [hm₁, hm]
  · have hcond : ConditionCode.z.holds (.ofTest w w) = false := by
      simp [ConditionCode.holds, Flags.ofTest, hz]
    rw [hcond] at hd₁
    obtain ⟨s₂, h₂⟩ := Sets.of_exec .rsi (.address (b - 1)) hd₁ (by simp) (by simp)
      (by simp [exec, State.unary?, hr₁, hi])
    have h₃ : Reaches code s₂ [] (s₂.put (b - 1) [.byte 45]).next := by
      refine .instr h₂.rest (by simp) (by simp) ?_
      simp [exec, State.move?, State.readByte?, State.place?, h₂.self, Value.address?]
    refine ⟨(s₂.put (b - 1) [.byte 45]).next, [45], h₁.trans (h₂.reaches.trans h₃),
      by rw [if_neg hz], drop_next h₂.rest, h₂.self, ?_, ?_, ?_⟩
    · simp [h₂.other, hr₁]
    · have hs := m.store_store (b - 1) [.byte 45] (ds.map .byte)
      rw [List.length_singleton, Nat.cast_one, sub_add_cancel] at hs
      rw [State.next_memory, State.put_memory, h₂.memory, hm₁, hm, hs]
      rfl
    · rw [State.next_output, State.put_output, h₂.output, ho₁]

theorem write_reaches {a : Int} {bs : List UInt8} (hd : code.drop s.pc = PrintInt.code.drop 21)
    (hp : s.regs .rsp = .address (a - 32)) (hi : s.regs .rsi = .address (a - bs.length))
    (hm : s.memory.fetch (a - bs.length) bs.length = bs.map .byte) :
    ∃ t, Reaches code s [bs] t ∧ code.drop t.pc = PrintInt.code.drop 28 ∧
      t.regs .rsp = .address a ∧ t.memory = s.memory ∧ t.output = s.output ++ bs := by
  have h₀ : Reaches code s [] s.next := .label hd
  have hd₀ : code.drop s.next.pc = PrintInt.code.drop 22 := drop_next hd
  obtain ⟨s₁, h₁⟩ := Sets.of_exec .rax (.number 1) hd₀ (by simp) (by simp)
    (by simp [exec, State.move?])
  obtain ⟨s₂, h₂⟩ := Sets.of_exec .rdi (.number 1) h₁.rest (by simp) (by simp)
    (by simp [exec, State.move?])
  obtain ⟨s₃, h₃⟩ := Sets.of_exec .rdx (.address a) h₂.rest (by simp) (by simp)
    (by simp [exec, State.place?, h₂.other, h₁.other, hp, Value.address?])
  obtain ⟨s₄, h₄⟩ := Sets.of_exec .rdx (.number bs.length) h₃.rest (by simp) (by simp)
    (by simp [exec, State.alu?, h₃.self, h₃.other, h₂.other, h₁.other, hi, compute?])
  have hmem : s₄.memory = s.memory := by
    rw [h₄.memory, h₃.memory, h₂.memory, h₁.memory, State.next_memory]
  have hout : s₄.output = s.output := by
    rw [h₄.output, h₃.output, h₂.output, h₁.output, State.next_output]
  have hrsp : s₄.regs .rsp = .address (a - 32) := by
    simp [h₄.other, h₃.other, h₂.other, h₁.other, hp]
  let s₅ : State := { (s₄.set .rax .unknown).set .rcx .unknown with output := s₄.output ++ bs }
  have h₅ : Reaches code s₄ [bs] s₅.next := by
    have hax : s₄.regs .rax = .number 1 := by simp [h₄.other, h₃.other, h₂.other, h₁.self]
    have hdi : s₄.regs .rdi = .number 1 := by simp [h₄.other, h₃.other, h₂.self]
    have hsi : s₄.regs .rsi = .address (a - bs.length) := by
      simp [h₄.other, h₃.other, h₂.other, h₁.other, hi]
    have hstep : step code s₄ = some s₅.next := by
      rw [step_of_drop h₄.rest]
      simp [exec, State.write?, hax, hdi, hsi, h₄.self, Value.address?, Value.count?, hmem, hm, s₅]
    have hl := getElem?_of_drop h₄.rest
    have hw : written code s₄ s₅.next = [bs] := by simp [written, hl, s₅]
    have hr : Reaches code s₄ (written code s₄ s₅.next ++ []) s₅.next :=
      .step (by simp [hl]) hstep (.refl _)
    rwa [hw] at hr
  obtain ⟨s₆, h₆⟩ := Sets.of_exec (s := s₅.next) .rsp (.address a) (drop_next h₄.rest) (by simp)
    (by simp) (by simp [exec, State.alu?, s₅, State.set, hrsp, compute?])
  have hreach : Reaches code s [] s₄ :=
    h₀.trans (h₁.reaches.trans (h₂.reaches.trans (h₃.reaches.trans h₄.reaches)))
  refine ⟨s₆, hreach.trans (h₅.trans h₆.reaches), h₆.rest, h₆.self, ?_, ?_⟩
  · rw [h₆.memory, ← hmem]
    rfl
  · rw [h₆.output, ← hout]
    rfl

/-- The routine comes to its end with the decimal digits written by one system call and the stack as
it was; what it puts in memory lies below the stack. -/
theorem reaches_end {a : Int} {v : Int64} (hdigits : code.count (.label digits) ≤ 1)
    (hwrite : code.count (.label write) ≤ 1) (hd : code.drop s.pc = PrintInt.code)
    (hs : s.regs .rsp = .address a) (hv : s.regs .rax = .ofWord v) :
    ∃ t, Reaches code s [decimalBytes v] t ∧ code.drop t.pc = PrintInt.code.drop 28 ∧
      t.regs .rsp = .address a ∧
      t.memory = s.memory.store (a - (decimalBytes v).length) ((decimalBytes v).map .byte) ∧
      t.output = s.output ++ decimalBytes v := by
  have hc : PrintInt.code <:+ code := hd ▸ List.drop_suffix s.pc code
  obtain ⟨s₁, w, h₁, hd₁, hp₁, hi₁, hc₁, h8₁, hx₁, hw, hm₁, ho₁⟩ :=
    start_reaches hdigits hc hd hs hv
  obtain ⟨s₂, h₂, hd₂, hi₂, hp₂, h8₂, hm₂, ho₂⟩ :=
    digits_reaches hdigits hc v.toInt.natAbs hd₁ hi₁ hc₁ hx₁ hw hp₁ h8₁
  obtain ⟨s₃, sign, h₃, hsign, hd₃, hi₃, hp₃, hm₃, ho₃⟩ := sign_reaches hwrite hc hd₂ hi₂ h8₂ hm₂
  have hb : sign ++ digitBytes v.toInt.natAbs = decimalBytes v := by
    rw [decimalBytes_eq, hsign]
    by_cases hn : v < 0 <;> simp [hn]
  have hlen : a - (digitBytes v.toInt.natAbs).length - sign.length =
      a - (decimalBytes v).length := by
    rw [← hb, List.length_append]
    push_cast
    ring
  rw [hb, hlen] at hm₃
  have hf : s₃.memory.fetch (a - (decimalBytes v).length) (decimalBytes v).length =
      (decimalBytes v).map .byte := by
    have hself := s₁.memory.fetch_store_self (a - (decimalBytes v).length)
      ((decimalBytes v).map .byte)
    rwa [List.length_map, ← hm₃] at hself
  obtain ⟨s₄, h₄, hd₄, hp₄, hm₄, ho₄⟩ :=
    write_reaches hd₃ (by rw [hp₃, hp₂]) (by rw [hi₃, hlen]) hf
  exact ⟨s₄, h₁.trans (h₂.trans (h₃.trans h₄)), hd₄, hp₄, by rw [hm₄, hm₃, hm₁],
    by rw [ho₄, ho₃, ho₂, ho₁]⟩

/-- A call of the routine writes the integer in `rax` and goes on as if nothing else were done. -/
theorem finishes {rest : Code} {E : Int64 → List UInt8 → Prop} {stack : List Slot}
    {out : List UInt8} {v : Int64} (hl : ∀ l, code.count (.label l) ≤ 1)
    (hc : PrintInt.code <:+ code)
    (h : FinishesFrom code E rest stack (out ++ decimalBytes v)) :
    FinishesWith code E v (.instr (.call PrintInt.entry) :: rest) stack out := by
  intro s hs hv
  obtain ⟨t, pc, ht, hpc, hs₁, hr⟩ := hs.call (hl _) (suffix_drop hc 0)
  obtain ⟨a, ha, hst⟩ := hs₁.stack
  have hx : t.regs .rax = .ofWord v := by rw [hr _ (by decide), hv]
  obtain ⟨u, hu, hd, hp, hm, ho⟩ := reaches_end (hl _) (hl _) hs₁.rest ha hx
  have hs₃ : Stands code (.instr .ret :: []) (.link pc :: stack) (out ++ decimalBytes v) u := by
    refine ⟨hd, ⟨a, hp, hst.congr fun b hb => ?_⟩, by rw [ho, hs₁.output]⟩
    rw [hm]
    refine Memory.store_above _ _ ?_
    rw [List.length_map]
    omega
  obtain ⟨u', hu', hs₄, -⟩ := hs₃.ret
  rw [hpc] at hs₄
  exact .step ht (.leads hu.leads (.step hu' (h u' hs₄)))

end PrintInt

end Stackwise
