import Stackwise.Proofs.Machine
import Stackwise.Proofs.Meaning
import Stackwise.Proofs.Placement

/-! Execution of code that stands in a program.  Where the machine is, is said by the code that it
is before, by the words on its stack, and by what it has written; each instruction that is emitted
has a lemma that says where it leads. -/
namespace Stackwise

namespace Machine

section State

variable {s : State}

@[simp] theorem State.next_regs : s.next.regs = s.regs := rfl

@[simp] theorem State.next_flags : s.next.flags = s.flags := rfl

@[simp] theorem State.next_memory : s.next.memory = s.memory := rfl

@[simp] theorem State.next_output : s.next.output = s.output := rfl

@[simp] theorem State.next_pc : s.next.pc = s.pc + 1 := rfl

@[simp] theorem State.set_regs_self {r : Reg} {v : Value} : (s.set r v).regs r = v := by
  simp [State.set]

theorem State.set_regs_of_ne {r r' : Reg} {v : Value} (h : r' ≠ r) :
    (s.set r v).regs r' = s.regs r' := by
  simp [State.set, h]

@[simp] theorem State.set_memory {r : Reg} {v : Value} : (s.set r v).memory = s.memory := rfl

@[simp] theorem State.set_output {r : Reg} {v : Value} : (s.set r v).output = s.output := rfl

@[simp] theorem State.set_pc {r : Reg} {v : Value} : (s.set r v).pc = s.pc := rfl

@[simp] theorem State.compare_regs {f : Flags} : (s.compare f).regs = s.regs := rfl

@[simp] theorem State.compare_flags {f : Flags} : (s.compare f).flags = some f := rfl

@[simp] theorem State.put_regs {a : Int} {cells : List Cell} : (s.put a cells).regs = s.regs := rfl

@[simp] theorem State.put_memory {a : Int} {cells : List Cell} :
    (s.put a cells).memory = s.memory.store a cells := rfl

@[simp] theorem State.put_output {a : Int} {cells : List Cell} :
    (s.put a cells).output = s.output := rfl

@[simp] theorem State.put_pc {a : Int} {cells : List Cell} : (s.put a cells).pc = s.pc := rfl

@[simp] theorem State.read?_reg {r : Reg} : s.read? (.reg r) = some (s.regs r) := rfl

@[simp] theorem State.read?_int {n : Int} : s.read? (.int n) = some (.number n) := rfl

@[simp] theorem State.read?_word {w : UInt64} : s.read? (.word w) = some (.number w.toNat) := rfl

@[simp] theorem State.read?_char {ch : Char} : s.read? (.char ch) = some (.number ch.toNat) := rfl

end State

/-- The machine is before `rest`, with words on its stack and bytes written. -/
structure Stands (code rest : Code) (stack : List Slot) (out : List UInt8) (s : State) : Prop where
  rest : code.drop s.pc = rest
  stack : ∃ a, s.regs .rsp = .address a ∧ Holds s.memory a stack
  output : s.output = out

namespace Stands

variable {code rest : Code} {stack : List Slot} {out : List UInt8} {s : State} {l : Line}

theorem suffix (h : Stands code rest stack out s) : rest <:+ code := by
  rw [← h.rest]
  exact List.drop_suffix _ _

theorem line (h : Stands code (l :: rest) stack out s) : code[s.pc]? = some l := by
  have hd := congrArg List.head? h.rest
  rwa [List.head?_drop] at hd

theorem rest_next (h : Stands code (l :: rest) stack out s) : code.drop (s.pc + 1) = rest := by
  rw [← List.drop_drop, h.rest, List.drop_one, List.tail_cons]

theorem step_instr {i : Instr} (h : Stands code (.instr i :: rest) stack out s) :
    step code s = exec code s i := by
  rw [step, h.line]

theorem next {t : State} (h : Stands code (l :: rest) stack out s) (hp : t.pc = s.pc)
    (hr : t.regs .rsp = s.regs .rsp) (hm : t.memory = s.memory) (ho : t.output = s.output) :
    Stands code rest stack out t.next := by
  refine ⟨?_, ?_, ?_⟩
  · rw [State.next_pc, hp, h.rest_next]
  · rw [State.next_regs, hr, State.next_memory, hm]
    exact h.stack
  · rw [State.next_output, ho, h.output]

theorem label {l : Label} (h : Stands code (.label l :: rest) stack out s) :
    step code s = some s.next ∧ Stands code rest stack out s.next := by
  refine ⟨?_, h.next rfl rfl rfl rfl⟩
  rw [step, h.line]

theorem set {r : Reg} {v : Value} (h : Stands code (l :: rest) stack out s) (hr : r ≠ .rsp) :
    Stands code rest stack out (s.set r v).next :=
  h.next rfl (State.set_regs_of_ne hr.symm) rfl rfl

theorem mov {r : Reg} {src : Operand} {v : Value}
    (h : Stands code (.instr (.mov (.reg r) src) :: rest) stack out s) (hr : r ≠ .rsp)
    (hv : s.read? src = some v) :
    step code s = some (s.set r v).next ∧ Stands code rest stack out (s.set r v).next := by
  refine ⟨?_, h.set hr⟩
  simp [h.step_instr, exec, State.move?, hv]

theorem push {r : Reg} {w : Int64} (h : Stands code (.instr (.push (.reg r)) :: rest) stack out s)
    (hv : (s.regs r).word? = some w) :
    ∃ t, step code s = some t ∧ Stands code rest (.word w :: stack) out t ∧
      ∀ r', r' ≠ .rsp → t.regs r' = s.regs r' := by
  obtain ⟨a, ha, hs⟩ := h.stack
  refine ⟨((s.set .rsp (.address (a - 8))).put (a - 8) (Slot.word w).cells).next, ?_, ?_, ?_⟩
  · simp [h.step_instr, exec, hv, State.push?, ha, Value.address?]
  · refine ⟨h.rest_next, ⟨a - 8, by simp, ?_⟩, h.output⟩
    simpa using hs.push (.word w)
  · intro r' hr
    simp [State.set_regs_of_ne hr]

theorem pop {r : Reg} {w : Int64}
    (h : Stands code (.instr (.pop r) :: rest) (.word w :: stack) out s) (hr : r ≠ .rsp) :
    ∃ t, step code s = some t ∧ Stands code rest stack out t ∧ t.regs r = .ofWord w ∧
      ∀ r', r' ≠ .rsp → r' ≠ r → t.regs r' = s.regs r' := by
  obtain ⟨a, ha, hw, hs⟩ := h.stack
  refine ⟨((s.set .rsp (.address (a + 8))).set r (.ofWord w)).next, ?_, ?_, by simp, ?_⟩
  · simp [h.step_instr, exec, State.pop?, ha, Value.address?, hw]
  · refine ⟨h.rest_next, ⟨a + 8, ?_, hs⟩, h.output⟩
    simp [State.set_regs_of_ne hr.symm]
  · intro r' h₁ h₂
    simp [State.set_regs_of_ne h₁, State.set_regs_of_ne h₂]

/-- The word that lies below others is read where it lies. -/
theorem read_slot {l : Line} {xs ys : List Slot} {w : Int64} {n : Int}
    (h : Stands code (l :: rest) (xs ++ .word w :: ys) out s) (hn : n = 8 * xs.length) :
    s.read? (.slot n) = some (.ofWord w) := by
  obtain ⟨a, ha, hs⟩ := h.stack
  subst hn
  simp [State.read?, State.place?, ha, Value.address?, hs.get]

/-- The word that lies below others is overwritten where it lies. -/
theorem mov_slot {r : Reg} {xs ys : List Slot} {x : Slot} {w : Int64} {n : Int}
    (h : Stands code (.instr (.mov (.slot n) (.reg r)) :: rest) (xs ++ x :: ys) out s)
    (hn : n = 8 * xs.length) (hv : (s.regs r).word? = some w) :
    ∃ t, step code s = some t ∧ Stands code rest (xs ++ .word w :: ys) out t := by
  obtain ⟨a, ha, hs⟩ := h.stack
  subst hn
  refine ⟨(s.put (a + 8 * xs.length) (Slot.word w).cells).next, ?_, h.rest_next, ⟨a, ha, ?_⟩,
    h.output⟩
  · simp [h.step_instr, exec, State.move?, hv, State.place?, ha, Value.address?]
  · simpa using hs.set (.word w)

theorem dropping {n : Nat} {xs : List Slot}
    (h : Stands code (Emit.dropping n ++ rest) (xs ++ stack) out s)
    (hn : xs.length = n) :
    ∃ t, Leads code (· = t) s ∧ Stands code rest stack out t ∧ ∀ r, r ≠ .rsp →
      t.regs r = s.regs r := by
  subst hn
  unfold Emit.dropping at h
  split at h
  next hz =>
    obtain rfl := List.length_eq_zero_iff.1 hz
    exact ⟨s, .now rfl, h, fun _ _ => rfl⟩
  next hz =>
    obtain ⟨a, ha, hs⟩ := h.stack
    refine ⟨(s.set .rsp (.address (a + 8 * xs.length))).next, .step ?_ (.now rfl), ?_, ?_⟩
    · simp [h.step_instr, exec, State.alu?, compute?, ha]
    · exact ⟨h.rest_next, ⟨_, by simp, (Holds.append.1 hs).2⟩, h.output⟩
    · intro r hr
      simp [State.set_regs_of_ne hr]

/-- A jump goes on past its label. -/
theorem goto {l : Label} {post : Code} {t : State} (hc : code.count (.label l) ≤ 1)
    (hl : .label l :: post <:+ code) (ht : ∃ a, t.regs .rsp = .address a ∧ Holds t.memory a stack)
    (ho : t.output = out) :
    ∃ u, t.goto? code l = some u ∧ Stands code (.label l :: post) stack out u ∧
      u.regs = t.regs := by
  obtain ⟨pc, hi, hd⟩ := Code.idxOf?_label hc hl
  exact ⟨{ t with pc }, by simp [State.goto?, hi], ⟨hd, ht, ho⟩, rfl⟩

theorem jump {l : Label} {post : Code}
    (h : Stands code (.instr (.jump .always l) :: rest) stack out s)
    (hc : code.count (.label l) ≤ 1) (hl : .label l :: post <:+ code) :
    ∃ t, step code s = some t ∧ Stands code (.label l :: post) stack out t ∧ t.regs = s.regs := by
  obtain ⟨t, ht, hs⟩ := goto hc hl h.stack h.output
  exact ⟨t, by rw [h.step_instr, exec, ht], hs⟩

/-- A jump on a condition goes past its label or on to the next line. -/
theorem jump_on {cc : ConditionCode} {f : Flags} {l : Label} {post : Code}
    (h : Stands code (.instr (.jump (.on cc) l) :: rest) stack out s) (hf : s.flags = some f)
    (hc : code.count (.label l) ≤ 1) (hl : .label l :: post <:+ code) :
    ∃ t, step code s = some t ∧
      Stands code (if cc.holds f then .label l :: post else rest) stack out t := by
  by_cases hh : cc.holds f
  · obtain ⟨t, ht, hs, -⟩ := goto hc hl h.stack h.output
    refine ⟨t, ?_, by rwa [if_pos hh]⟩
    simp [h.step_instr, exec, hf, hh, ht]
  · refine ⟨s.next, ?_, ?_⟩
    · simp [h.step_instr, exec, hf, hh]
    · rw [if_neg hh]
      exact h.next rfl rfl rfl rfl

theorem call {l : Label} {post : Code} (h : Stands code (.instr (.call l) :: rest) stack out s)
    (hc : code.count (.label l) ≤ 1) (hl : .label l :: post <:+ code) :
    ∃ t pc, step code s = some t ∧ code.drop pc = rest ∧
      Stands code (.label l :: post) (.link pc :: stack) out t ∧
      ∀ r, r ≠ .rsp → t.regs r = s.regs r := by
  obtain ⟨a, ha, hs⟩ := h.stack
  have hp : s.push? (.link (s.pc + 1)) = some ((s.set .rsp (.address (a - 8))).put (a - 8)
      (Slot.link (s.pc + 1)).cells) := by
    simp [State.push?, ha, Value.address?]
  obtain ⟨t, ht, hst, hr⟩ := goto (t := (s.set .rsp (.address (a - 8))).put (a - 8)
    (Slot.link (s.pc + 1)).cells) hc hl ⟨a - 8, by simp, by simpa using hs.push (.link (s.pc + 1))⟩
    h.output
  refine ⟨t, s.pc + 1, ?_, h.rest_next, hst, fun r hne => ?_⟩
  · simp [h.step_instr, exec, hp, ht]
  · rw [hr]
    simp [State.set_regs_of_ne hne]

theorem ret {pc : Nat} (h : Stands code (.instr .ret :: rest) (.link pc :: stack) out s) :
    ∃ t, step code s = some t ∧ Stands code (code.drop pc) stack out t ∧
      ∀ r, r ≠ .rsp → t.regs r = s.regs r := by
  obtain ⟨a, ha, hw, hs⟩ := h.stack
  refine ⟨{ s.set .rsp (.address (a + 8)) with pc }, ?_, ⟨rfl, ⟨a + 8, by simp, hs⟩, h.output⟩, ?_⟩
  · simp [h.step_instr, exec, State.pop?, ha, Value.address?, hw]
  · intro r hr
    exact State.set_regs_of_ne hr

theorem cqo {x : Int64} (h : Stands code (.instr .cqo :: rest) stack out s)
    (hx : s.regs .rax = .ofWord x) :
    ∃ t, step code s = some t ∧ Stands code rest stack out t ∧
      t.regs .rdx = .number (if x < 0 then -1 else 0) ∧ ∀ r, r ≠ .rdx → t.regs r = s.regs r := by
  refine ⟨(s.set .rdx (.number (if x < 0 then -1 else 0))).next, ?_, h.set (by decide), by simp, ?_⟩
  · simp [h.step_instr, exec, hx]
  · intro r hr
    simp [State.set_regs_of_ne hr]

theorem write {a : Int} {n : Nat} {bs : List UInt8}
    (h : Stands code (.instr .syscall :: rest) stack out s) (hx : s.regs .rax = .number 1)
    (hd : s.regs .rdi = .number 1) (ha : s.regs .rsi = .address a) (hn : s.regs .rdx = .number n)
    (hb : s.memory.fetch a n = bs.map .byte) :
    ∃ t, step code s = some t ∧ Stands code rest stack (out ++ bs) t := by
  refine ⟨{ (s.set .rax .unknown).set .rcx .unknown with output := s.output ++ bs }.next, ?_,
    h.rest_next, h.stack, by rw [State.next_output, h.output]⟩
  simp [h.step_instr, exec, State.write?, hx, hd, ha, hn, Value.address?, Value.count?, hb]

theorem compare {op : Alu} {d q : Reg} {f : Flags}
    (h : Stands code (.instr (.alu op (.reg d) (.reg q)) :: rest) stack out s)
    (hf : s.alu? op (.reg d) (.reg q) = some (s.compare f)) :
    step code s = some (s.compare f).next ∧ Stands code rest stack out (s.compare f).next := by
  refine ⟨?_, h.next rfl rfl rfl rfl⟩
  simp [h.step_instr, exec, hf]

/-- A jump on a condition passes its own line and, if it is taken, that of its label. -/
theorem passes_jump {cc : ConditionCode} {f : Flags} {l : Label} {post : Code}
    (h : Stands code (.instr (.jump (.on cc) l) :: rest) stack out s) (hf : s.flags = some f)
    (hc : code.count (.label l) ≤ 1) (hl : .label l :: post <:+ code) :
    ∃ t, Passes code s (.instr (.jump (.on cc) l) :: if cc.holds f then [.label l] else []) t ∧
      Stands code (if cc.holds f then post else rest) stack out t := by
  obtain ⟨t, ht, hs⟩ := h.jump_on hf hc hl
  by_cases hh : cc.holds f
  · rw [if_pos hh] at hs
    obtain ⟨hu, hs'⟩ := hs.label
    rw [if_pos hh, if_pos hh]
    exact ⟨t.next, .step h.line ht (.step hs.line hu (.refl _)), hs'⟩
  · rw [if_neg hh] at hs ⊢
    rw [if_neg hh]
    exact ⟨t, .step h.line ht (.refl t), hs⟩

theorem passes_cmp {cc : ConditionCode} {l : Label} {post : Code} {x y : Int64}
    (h : Stands code (.instr (.pop .rbx) :: .instr (.pop .rax) ::
      .instr (.alu .cmp (.reg .rax) (.reg .rbx)) :: .instr (.jump (.on cc) l) :: rest)
      (.word y :: .word x :: stack) out s)
    (hc : code.count (.label l) ≤ 1) (hl : .label l :: post <:+ code) :
    ∃ t, Passes code s ([.instr (.pop .rbx), .instr (.pop .rax),
        .instr (.alu .cmp (.reg .rax) (.reg .rbx)), .instr (.jump (.on cc) l)] ++
          if cc.holds (.ofCmp x y) then [.label l] else []) t ∧
      Stands code (if cc.holds (.ofCmp x y) then post else rest) stack out t := by
  obtain ⟨s₁, h₁, hs₁, hy, -⟩ := h.pop (by decide)
  obtain ⟨s₂, h₂, hs₂, hx, hr⟩ := hs₁.pop (by decide)
  have hy₂ : s₂.regs .rbx = .ofWord y := by rw [hr _ (by decide) (by decide), hy]
  obtain ⟨h₃, hs₃⟩ := hs₂.compare (f := .ofCmp x y) (by simp [State.alu?, hx, hy₂])
  obtain ⟨t, h₄, hs₄⟩ := hs₃.passes_jump rfl hc hl
  exact ⟨t, .step h.line h₁ (.step hs₁.line h₂ (.step hs₂.line h₃ h₄)), hs₄⟩

theorem passes_test {cc : ConditionCode} {l : Label} {post : Code} {x : Int64}
    (h : Stands code (.instr (.pop .rax) :: .instr (.alu .test (.reg .rax) (.reg .rax)) ::
      .instr (.jump (.on cc) l) :: rest) (.word x :: stack) out s)
    (hc : code.count (.label l) ≤ 1) (hl : .label l :: post <:+ code) :
    ∃ t, Passes code s ([.instr (.pop .rax), .instr (.alu .test (.reg .rax) (.reg .rax)),
        .instr (.jump (.on cc) l)] ++ if cc.holds (.ofTest x x) then [.label l] else []) t ∧
      Stands code (if cc.holds (.ofTest x x) then post else rest) stack out t := by
  obtain ⟨s₁, h₁, hs₁, hx, -⟩ := h.pop (by decide)
  obtain ⟨h₂, hs₂⟩ := hs₁.compare (f := .ofTest x x) (by simp [State.alu?, hx])
  obtain ⟨t, h₃, hs₃⟩ := hs₂.passes_jump rfl hc hl
  exact ⟨t, .step h.line h₁ (.step hs₁.line h₂ h₃), hs₃⟩

end Stands

@[simp] theorem compute?_ofWord (op : Alu) (x y : Int64) :
    compute? op (.ofWord x) (.ofWord y) = (computeWord? x y op).map .ofWord := by
  simp only [compute?, Value.ofWord, Value.word?, Int64.ofInt_toInt, Option.bind_eq_bind,
    Option.bind_some]
  cases computeWord? x y op <;> rfl

/-- The difference is negative, or else too large for its sign, exactly where the first word is
less. -/
theorem Flags.ofCmp_less (x y : Int64) :
    ((ofCmp x y).sign != (ofCmp x y).overflow) = decide (x < y) := by
  have hx := x.toInt_lt
  have hx' := x.le_toInt
  have hy := y.toInt_lt
  have hy' := y.le_toInt
  have hd : (x - y).toInt = (x.toInt - y.toInt).bmod (2 ^ 64) := Int64.toInt_sub x y
  have hs : (x - y < 0) ↔ (x - y).toInt < 0 := Int64.lt_iff_toInt_lt
  have hl : (x < y) ↔ x.toInt < y.toInt := Int64.lt_iff_toInt_lt
  rw [Int.bmod_def] at hd
  rw [Bool.eq_iff_iff]
  simp only [ofCmp, bne_iff_ne, ne_eq, decide_eq_decide, decide_eq_true_eq, hs, hl]
  omega

theorem Flags.ofCmp_zero (x y : Int64) : (ofCmp x y).zero = (x == y) := by
  simp [ofCmp, Int64.sub_eq_iff_eq_add]

/-- The number of 128 bits that extends a word by its sign is the word's own. -/
theorem extended_toInt (x : Int64) :
    (Int64.ofInt (if x < 0 then -1 else 0)).toInt * 2 ^ 64 + (x.toUInt64.toNat : Int) =
      x.toInt := by
  have hn : x.toUInt64.toNat = x.toBitVec.toNat := rfl
  have hx : x.toInt = if 2 * x.toBitVec.toNat < 2 ^ 64 then (x.toBitVec.toNat : Int)
      else x.toBitVec.toNat - (2 ^ 64 : Nat) := BitVec.toInt_eq_toNat_cond x.toBitVec
  have hl : x < 0 ↔ x.toInt < 0 := Int64.lt_iff_toInt_lt
  have hb := x.toBitVec.isLt
  rw [hn]
  by_cases h : x < 0
  · have h' := hl.1 h
    rw [if_pos h, show (Int64.ofInt (-1)).toInt = -1 from rfl]
    split at hx <;> omega
  · have h' : ¬ x.toInt < 0 := fun ht => h (hl.2 ht)
    rw [if_neg h, show (Int64.ofInt 0).toInt = 0 from rfl]
    split at hx <;> omega

/-- A quotient that the language allows fits in a word. -/
theorem toInt_div {x y : Int64} (h : ¬ (x = Int64.minValue ∧ y = -1)) :
    (x / y).toInt = x.toInt.tdiv y.toInt := by
  by_cases hx : x = Int64.minValue
  · exact Int64.toInt_div_of_ne_right x y fun hy => h ⟨hx, hy⟩
  · exact Int64.toInt_div_of_ne_left x y hx

theorem State.unary?_idiv {s : State} {x y : Int64} (hx : s.regs .rax = .ofWord x)
    (hd : s.regs .rdx = .number (if x < 0 then -1 else 0)) (hy : s.regs .rbx = .ofWord y)
    (hz : y ≠ 0) (hm : ¬ (x = Int64.minValue ∧ y = -1)) :
    s.unary? .idiv .rbx =
      some ((s.set .rax (.ofWord (x / y))).set .rdx (.number (x.toInt.tmod y.toInt))) := by
  have hq := toInt_div hm
  have hlt := (x / y).toInt_lt
  have hle := (x / y).le_toInt
  have hy₀ : y.toInt ≠ 0 := fun h₀ => hz (Int64.toInt_inj.1 (h₀.trans Int64.toInt_zero.symm))
  have hr : ¬ (y.toInt = 0 ∨ x.toInt.tdiv y.toInt < -2 ^ 63 ∨ 2 ^ 63 ≤ x.toInt.tdiv y.toInt) := by
    rw [← hq]
    omega
  have hw : (Value.number (if x < 0 then -1 else 0)).word? =
      some (Int64.ofInt (if x < 0 then -1 else 0)) := rfl
  simp only [State.unary?, hx, hd, hy, Value.word?_ofWord, hw, Option.bind_eq_bind,
    Option.bind_some, extended_toInt, if_neg hr, Option.pure_def]
  rw [Value.ofWord, hq]

/-- From a state on, the program ends so that `E` holds of its status and of all that it wrote. -/
def Finishes (code : Code) (E : Int64 → List UInt8 → Prop) : State → Prop :=
  Leads code fun t => ∃ v, exitStatus? code t = some v ∧ E v t.output

/-- So does the program from wherever it is before `rest`, with these words on the stack and these
bytes written. -/
def FinishesFrom (code : Code) (E : Int64 → List UInt8 → Prop) (rest : Code) (stack : List Slot)
    (out : List UInt8) : Prop :=
  ∀ s, Stands code rest stack out s → Finishes code E s

/-- So does the program from wherever it is, if `rax` holds a word. -/
def FinishesWith (code : Code) (E : Int64 → List UInt8 → Prop) (v : Int64) (rest : Code)
    (stack : List Slot) (out : List UInt8) : Prop :=
  ∀ s, Stands code rest stack out s → s.regs .rax = .ofWord v → Finishes code E s

section Finishes

variable {code rest post : Code} {E : Int64 → List UInt8 → Prop} {stack : List Slot}
  {out : List UInt8} {s t : State}

theorem Finishes.step (h : step code s = some t) (ht : Finishes code E t) : Finishes code E s :=
  Leads.step h ht

theorem Finishes.leads (h : Leads code (· = t) s) (ht : Finishes code E t) : Finishes code E s :=
  h.trans fun _ hu => hu ▸ ht

theorem FinishesFrom.with (h : FinishesFrom code E rest stack out) (v : Int64) :
    FinishesWith code E v rest stack out := fun s hs _ => h s hs

theorem FinishesFrom.label {l : Label} (h : FinishesFrom code E rest stack out) :
    FinishesFrom code E (.label l :: rest) stack out := by
  intro s hs
  obtain ⟨ht, hs'⟩ := hs.label
  exact .step ht (h _ hs')

theorem FinishesFrom.jump {l : Label} (hc : code.count (.label l) ≤ 1)
    (hl : .label l :: post <:+ code) (h : FinishesFrom code E post stack out) :
    FinishesFrom code E (.instr (.jump .always l) :: rest) stack out := by
  intro s hs
  obtain ⟨t, ht, hs', -⟩ := hs.jump hc hl
  exact .step ht (h.label t hs')

theorem FinishesFrom.dropping {n : Nat} {xs : List Slot} (hn : xs.length = n)
    (h : FinishesFrom code E rest stack out) :
    FinishesFrom code E (Emit.dropping n ++ rest) (xs ++ stack) out := by
  intro s hs
  obtain ⟨t, ht, hs', -⟩ := hs.dropping hn
  exact .leads ht (h t hs')

theorem FinishesWith.dropping {n : Nat} {xs : List Slot} {v : Int64} (hn : xs.length = n)
    (h : FinishesWith code E v rest stack out) :
    FinishesWith code E v (Emit.dropping n ++ rest) (xs ++ stack) out := by
  intro s hs hv
  obtain ⟨t, ht, hs', hr⟩ := hs.dropping hn
  exact .leads ht (h t hs' (by rw [hr _ (by decide), hv]))

theorem FinishesFrom.push {v : Int64} (h : FinishesFrom code E rest (.word v :: stack) out) :
    FinishesWith code E v (.instr (.push (.reg .rax)) :: rest) stack out := by
  intro s hs hv
  obtain ⟨t, ht, hs', -⟩ := hs.push (w := v) (by rw [hv, Value.word?_ofWord])
  exact .step ht (h t hs')

theorem FinishesWith.pop {v : Int64} (h : FinishesWith code E v rest stack out) :
    FinishesFrom code E (.instr (.pop .rax) :: rest) (.word v :: stack) out := by
  intro s hs
  obtain ⟨t, ht, hs', hv, -⟩ := hs.pop (by decide)
  exact .step ht (h t hs' hv)

theorem FinishesWith.int {v : Int64} {n : Int} (hn : n = v.toInt)
    (h : FinishesWith code E v rest stack out) :
    FinishesFrom code E (.instr (.mov (.reg .rax) (.int n)) :: rest) stack out := by
  intro s hs
  obtain ⟨ht, hs'⟩ := hs.mov (by decide) rfl
  exact .step ht (h _ hs' (by simp [hn, Value.ofWord]))

theorem FinishesWith.slot {xs ys : List Slot} {v : Int64} {n : Int} (hn : n = 8 * xs.length)
    (h : FinishesWith code E v rest (xs ++ .word v :: ys) out) :
    FinishesFrom code E (.instr (.mov (.reg .rax) (.slot n)) :: rest)
      (xs ++ .word v :: ys) out := by
  intro s hs
  obtain ⟨ht, hs'⟩ := hs.mov (by decide) (hs.read_slot hn)
  exact .step ht (h _ hs' (by simp))

theorem FinishesFrom.store {xs ys : List Slot} {x : Slot} {v : Int64} {n : Int}
    (hn : n = 8 * xs.length) (h : FinishesFrom code E rest (xs ++ .word v :: ys) out) :
    FinishesWith code E v (.instr (.mov (.slot n) (.reg .rax)) :: rest) (xs ++ x :: ys) out := by
  intro s hs hv
  obtain ⟨t, ht, hs'⟩ := hs.mov_slot (w := v) hn (by rw [hv, Value.word?_ofWord])
  exact .step ht (h t hs')

theorem FinishesWith.ret {pc : Nat} {v : Int64}
    (h : FinishesWith code E v (code.drop pc) stack out) :
    FinishesWith code E v (.instr .ret :: rest) (.link pc :: stack) out := by
  intro s hs hv
  obtain ⟨t, ht, hs', hr⟩ := hs.ret
  exact .step ht (h t hs' (by rw [hr _ (by decide), hv]))

theorem FinishesFrom.call {l : Label} (hc : code.count (.label l) ≤ 1)
    (hl : .label l :: post <:+ code)
    (h : ∀ pc, code.drop pc = rest → FinishesFrom code E post (.link pc :: stack) out) :
    FinishesFrom code E (.instr (.call l) :: rest) stack out := by
  intro s hs
  obtain ⟨t, pc, ht, hd, hs', -⟩ := hs.call hc hl
  exact .step ht ((h pc hd).label t hs')

theorem FinishesFrom.exit_zero (h : E 0 out) :
    FinishesFrom code E (.instr (.mov (.reg .rax) (.int 60)) ::
      .instr (.mov (.reg .rdi) (.int 0)) :: .instr .syscall :: rest) stack out := by
  intro s hs
  obtain ⟨h₁, hs₁⟩ := hs.mov (by decide) rfl
  obtain ⟨h₂, hs₂⟩ := hs₁.mov (by decide) rfl
  refine .step h₁ (.step h₂ (.now ⟨0, ?_, by rwa [hs₂.output]⟩))
  rw [exitStatus?, if_pos ⟨hs₂.line, by simp [State.set]⟩]
  simp [Value.word?]

theorem FinishesFrom.exit {v : Int64} (h : E v out) :
    FinishesFrom code E (.instr (.pop .rdi) :: .instr (.mov (.reg .rax) (.int 60)) ::
      .instr .syscall :: rest) (.word v :: stack) out := by
  intro s hs
  obtain ⟨t, h₁, hs₁, hv, -⟩ := hs.pop (by decide)
  obtain ⟨h₂, hs₂⟩ := hs₁.mov (by decide) rfl
  refine .step h₁ (.step h₂ (.now ⟨v, ?_, by rwa [hs₂.output]⟩))
  rw [exitStatus?, if_pos ⟨hs₂.line, by simp⟩]
  simp [State.set, hv]

end Finishes

end Machine

open Machine

/-- The jump on the failure of a comparison, turned around or not, is taken exactly where the
comparison has the truth value. -/
theorem Comparison.holds_failing_when (cmp : Comparison) (truth : Bool) (x y : Int64) :
    (cmp.failing.when truth).holds (.ofCmp x y) = (cmp.holds x y == truth) := by
  have hf : cmp.failing.holds (.ofCmp x y) = !cmp.holds x y := by
    have hl := Flags.ofCmp_less x y
    have hz := Flags.ofCmp_zero x y
    have hn : ((Flags.ofCmp x y).sign == (Flags.ofCmp x y).overflow) = !decide (x < y) := by
      rw [← hl]
      simp [bne]
    rw [Bool.eq_iff_iff]
    cases cmp with
    | eq => simp [failing, ConditionCode.holds, hz, holds]
    | ge => simp [failing, ConditionCode.holds, hl, holds, ← Int64.not_lt]
    | le =>
      simp [failing, ConditionCode.holds, hn, hz, holds, Int64.le_iff_lt_or_eq, and_comm]
    | lt => simp [failing, ConditionCode.holds, hn, holds]
    | gt =>
      simp [failing, ConditionCode.holds, hl, hz, holds, Int64.le_iff_lt_or_eq, or_comm]
  cases truth <;> simp [ConditionCode.when, hf]

theorem ConditionCode.holds_zero_when (truth : Bool) (x : Int64) :
    (ConditionCode.z.when truth).holds (.ofTest x x) = ((x != 0) == truth) := by
  have hf : ConditionCode.z.holds (.ofTest x x) = !(x != 0) := by
    simp [holds, Flags.ofTest, bne]
  cases truth <;> simp [ConditionCode.when, hf]

/-- The code of an operator leaves in `rax` what the operator yields. -/
theorem BinOp.code_finishes {op : BinOp} {x y : Int64} {code rest : Code}
    {E : Int64 → List UInt8 → Prop} {stack : List Slot} {out : List UInt8} {s : State}
    (hk : Run.Ensures E (op.apply x y) (fun v out => FinishesWith code E v rest stack out) out)
    (h : Stands code (op.code.map .instr ++ rest) stack out s) (hx : s.regs .rax = .ofWord x)
    (hy : s.regs .rbx = .ofWord y) : Finishes code E s := by
  have one {a : Alu} {v : Int64} (hk : FinishesWith code E v rest stack out)
      (h : Stands code (.instr (.alu a (.reg .rax) (.reg .rbx)) :: rest) stack out s)
      (ha : s.alu? a (.reg .rax) (.reg .rbx) = some (s.set .rax (.ofWord v))) :
      Finishes code E s := by
    refine .step ?_ (hk _ (h.set (by decide)) State.set_regs_self)
    simp [h.step_instr, exec, ha]
  cases op with
  | add => exact one (v := x + y) (by simpa [apply] using hk) h (by simp [State.alu?, hx, hy])
  | sub => exact one (v := x - y) (by simpa [apply] using hk) h (by simp [State.alu?, hx, hy])
  | mul => exact one (v := x * y) (by simpa [apply] using hk) h (by simp [State.alu?, hx, hy])
  | div =>
    rw [apply] at hk
    split at hk
    · exact absurd hk Run.ensures_fault
    next hd =>
    obtain ⟨hz, hm⟩ := not_or.1 hd
    obtain ⟨t, ht, hs, hq, hr⟩ := Stands.cqo h hx
    have hu := State.unary?_idiv (s := t) (by rw [hr _ (by decide), hx]) hq
      (by rw [hr _ (by decide), hy]) hz hm
    have hs' : Stands code rest stack out ((t.set .rax (.ofWord (x / y))).set .rdx
        (.number (x.toInt.tmod y.toInt))).next := hs.next rfl rfl rfl rfl
    rw [Run.ensures_pure] at hk
    refine .step ht (.step ?_ (hk _ hs' rfl))
    rw [hs.step_instr, exec, hu]
    rfl

end Stackwise
