import Stackwise.Assembly.PrintInt
import Stackwise.Proofs.Memory

/-! A machine that executes assembly.  It is x86-64 without an end to its memory: a place is an
integer, a number in an instruction counts in full, and an address that a call goes back to is
opaque.  Arithmetic on numbers is that of 64 bits.  The machine stops where an instruction faults
or uses what nothing is known of. -/
namespace Stackwise

namespace Machine

inductive Value where
  | number (n : Int)
  | address (a : Int)
  | unknown
deriving DecidableEq, Repr

namespace Value

def ofWord (w : Int64) : Value := number w.toInt

def word? : Value → Option Int64
  | number n => some (.ofInt n)
  | _ => none

def byte? : Value → Option UInt8
  | number n => some (.ofInt n)
  | _ => none

def count? : Value → Option Nat
  | number n => if 0 ≤ n then some n.toNat else none
  | _ => none

def address? : Value → Option Int
  | address a => some a
  | _ => none

@[simp] theorem word?_ofWord (w : Int64) : (ofWord w).word? = some w := by simp [ofWord, word?]

end Value

structure Flags where
  zero : Bool
  sign : Bool
  overflow : Bool
deriving DecidableEq, Repr

namespace Flags

def ofCmp (x y : Int64) : Flags :=
  ⟨x - y == 0, decide (x - y < 0), decide ((x - y).toInt ≠ x.toInt - y.toInt)⟩

def ofTest (x y : Int64) : Flags := ⟨x &&& y == 0, decide (x &&& y < 0), false⟩

end Flags

end Machine

def ConditionCode.holds (f : Machine.Flags) : ConditionCode → Bool
  | e | z => f.zero
  | ne | nz => !f.zero
  | l => f.sign != f.overflow
  | ge => f.sign == f.overflow
  | le => f.zero || f.sign != f.overflow
  | g => !f.zero && f.sign == f.overflow
  | s => f.sign
  | ns => !f.sign

@[simp] theorem ConditionCode.holds_negate (f : Machine.Flags) (c : ConditionCode) :
    c.negate.holds f = !c.holds f := by
  cases c <;> simp [negate, holds, bne]

namespace Machine

/-- Flags are none where an instruction leaves them open. -/
structure State where
  pc : Nat
  regs : Reg → Value
  flags : Option Flags
  memory : Memory
  output : List UInt8

namespace State

def next (s : State) : State := { s with pc := s.pc + 1 }

def set (s : State) (r : Reg) (v : Value) : State :=
  { s with regs := fun r' => if r' = r then v else s.regs r', flags := none }

def compare (s : State) (f : Flags) : State := { s with flags := some f }

def put (s : State) (a : Int) (cells : List Cell) : State :=
  { s with memory := s.memory.store a cells }

def push? (s : State) (x : Slot) : Option State := do
  let a ← (s.regs .rsp).address?
  return (s.set .rsp (.address (a - 8))).put (a - 8) x.cells

def pop? (s : State) : Option (Slot × State) := do
  let a ← (s.regs .rsp).address?
  let x ← Slot.ofCells? (s.memory.fetch a 8)
  return (x, s.set .rsp (.address (a + 8)))

def place? (s : State) : Operand → Option Int
  | .slot n | .stack n => (s.regs .rsp).address?.map (· + n)
  | .mem r | .byte r => (s.regs r).address?
  | _ => none

def read? (s : State) : Operand → Option Value
  | .reg r => some (s.regs r)
  | .int n => some (.number n)
  | .word w => some (.number w.toNat)
  | .char c => some (.number c.toNat)
  | .slot n => do
    match ← Slot.ofCells? (s.memory.fetch (← s.place? (.slot n)) 8) with
    | .word w => return .ofWord w
    | .link _ => none
  | _ => none

def readByte? (s : State) : Operand → Option UInt8
  | .dl => (s.regs .rdx).byte?
  | .char c => some (.ofNat c.toNat)
  | _ => none

/-- Moves `src` to `dst`.  Through a register only single bytes are moved. -/
def move? (s : State) : Operand → Operand → Option State
  | .reg r, src => do return s.set r (← s.read? src)
  | .slot n, src => do
    let w ← (← s.read? src).word?
    return s.put (← s.place? (.slot n)) (Slot.word w).cells
  | dst, src => do return s.put (← s.place? dst) [.byte (← s.readByte? src)]

end State

@[simp] def computeWord? (v w : Int64) : Alu → Option Int64
  | .add => some (v + w)
  | .sub => some (v - w)
  | .imul => some (v * w)
  | .xor => some (v ^^^ w)
  | .cmp | .test => none

/-- What an instruction on two values computes.  Places move by numbers and differ by a number. -/
def compute? : Alu → Value → Value → Option Value
  | .add, .address a, .number n => some (.address (a + n))
  | .sub, .address a, .number n => some (.address (a - n))
  | .sub, .address a, .address b => some (.number (a - b))
  | op, x, y => do return .ofWord (← computeWord? (← x.word?) (← y.word?) op)

namespace State

/-- An instruction with a destination and a source.  A register joined to itself by `xor` becomes
zero whatever it holds; of `rdx` the lowest byte alone may be added to. -/
def alu? (s : State) (op : Alu) (dst src : Operand) : Option State := do
  match op, dst with
  | .cmp, _ => return s.compare (.ofCmp (← (← s.read? dst).word?) (← (← s.read? src).word?))
  | .test, _ => return s.compare (.ofTest (← (← s.read? dst).word?) (← (← s.read? src).word?))
  | .add, .dl =>
    match s.regs .rdx, ← s.readByte? src with
    | .number n, b => return s.set .rdx (.number (n - n % 256 + (n + b.toNat) % 256))
    | _, _ => none
  | op, .reg r =>
    if op = .xor ∧ src = .reg r then return s.set r (.number 0)
    else return s.set r (← compute? op (s.regs r) (← s.read? src))
  | _, _ => none

/-- An instruction on one register.  Division is that of the 128 bits of `rdx` and `rax`; it
faults where the quotient does not fit. -/
def unary? (s : State) (op : Unary) (r : Reg) : Option State := do
  match op with
  | .neg => return s.set r (.ofWord (-(← (s.regs r).word?)))
  | .dec =>
    match s.regs r with
    | .address a => return s.set r (.address (a - 1))
    | v => return s.set r (.ofWord ((← v.word?) - 1))
  | .div =>
    let d := (← (s.regs r).word?).toUInt64.toNat
    let high := (← (s.regs .rdx).word?).toUInt64.toNat
    let low := (← (s.regs .rax).word?).toUInt64.toNat
    let n := high * 2 ^ 64 + low
    if d = 0 ∨ 2 ^ 64 ≤ n / d then none
    else return (s.set .rax (.number (n / d : Nat))).set .rdx (.number (n % d : Nat))
  | .idiv =>
    let d := (← (s.regs r).word?).toInt
    let high := (← (s.regs .rdx).word?).toInt
    let low := (← (s.regs .rax).word?).toUInt64.toNat
    let n := high * 2 ^ 64 + low
    if d = 0 ∨ n.tdiv d < -2 ^ 63 ∨ 2 ^ 63 ≤ n.tdiv d then none
    else return (s.set .rax (.number (n.tdiv d))).set .rdx (.number (n.tmod d))

def goto? (s : State) (code : Code) (target : Label) : Option State := do
  return { s with pc := ← code.idxOf? (.label target) }

/-- Writes bytes from memory to standard output.  The system leaves `rax` and `rcx` changed. -/
def write? (s : State) : Option State := do
  if s.regs .rax = .number 1 ∧ s.regs .rdi = .number 1 then
    let a ← (s.regs .rsi).address?
    let n ← (s.regs .rdx).count?
    let bs ← bytes? (s.memory.fetch a n)
    return { (s.set .rax .unknown).set .rcx .unknown with output := s.output ++ bs }
  else none

end State

def exec (code : Code) (s : State) : Instr → Option State
  | .push src => do
    let w ← (← s.read? src).word?
    return (← s.push? (.word w)).next
  | .pop dst => do
    match ← s.pop? with
    | (.word w, s) => return (s.set dst (.ofWord w)).next
    | (.link _, _) => none
  | .mov dst src => do return (← s.move? dst src).next
  | .lea dst src => do return (s.set dst (.address (← s.place? src))).next
  | .alu op dst src => do return (← s.alu? op dst src).next
  | .unary op r => do return (← s.unary? op r).next
  | .cqo => do
    let w ← (s.regs .rax).word?
    return (s.set .rdx (.number (if w < 0 then -1 else 0))).next
  | .jump .always target => s.goto? code target
  | .jump (.on c) target => do
    if c.holds (← s.flags) then s.goto? code target else return s.next
  | .call target => do (← s.push? (.link (s.pc + 1))).goto? code target
  | .ret => do
    match ← s.pop? with
    | (.link pc, s) => return { s with pc }
    | (.word _, _) => none
  | .syscall => do return (← s.write?).next
  | .text _ => none

def step (code : Code) (s : State) : Option State :=
  match code[s.pc]? with
  | some (.instr i) => exec code s i
  | some (.label _) | some (.directive _) => some s.next
  | _ => none

/-- The status with which the program ends here, if it is at a system call that ends it. -/
def exitStatus? (code : Code) (s : State) : Option Int64 :=
  if code[s.pc]? = some (.instr .syscall) ∧ s.regs .rax = .number 60 then (s.regs .rdi).word?
  else none

inductive Leads (code : Code) (P : State → Prop) : State → Prop where
  | now {s : State} : P s → Leads code P s
  | step {s t : State} : step code s = some t → Leads code P t → Leads code P s

theorem Leads.trans {code : Code} {P Q : State → Prop} {s : State} (h : Leads code P s)
    (hq : ∀ t, P t → Leads code Q t) : Leads code Q s := by
  induction h with
  | now hp => exact hq _ hp
  | step hs _ ih => exact .step hs ih

/-- Steps lead past lines from one state to another. -/
inductive Passes (code : Code) : State → List Line → State → Prop where
  | refl (s : State) : Passes code s [] s
  | step {s t u : State} {l : Line} {ls : List Line} : code[s.pc]? = some l →
    step code s = some t → Passes code t ls u → Passes code s (l :: ls) u

theorem Passes.trans {code : Code} {s t u : State} {ls ls' : List Line} (h : Passes code s ls t)
    (h' : Passes code t ls' u) : Passes code s (ls ++ ls') u := by
  induction h with
  | refl => exact h'
  | step hl hs _ ih => exact .step hl hs (ih h')

theorem Passes.leads {code : Code} {s t : State} {ls : List Line} (h : Passes code s ls t) :
    Leads code (· = t) s := by
  induction h with
  | refl => exact .now rfl
  | step _ hs _ ih => exact .step hs ih

/-- The text that a step from one state to another writes, if it is a system call. -/
def written (code : Code) (s t : State) : List (List UInt8) :=
  if code[s.pc]? = some (.instr .syscall) then [t.output.drop s.output.length] else []

/-- Steps lead from one state to another without passing a return, and the system calls among them
write these texts. -/
inductive Reaches (code : Code) : State → List (List UInt8) → State → Prop where
  | refl (s : State) : Reaches code s [] s
  | step {s t u : State} {texts : List (List UInt8)} : code[s.pc]? ≠ some (.instr .ret) →
    step code s = some t → Reaches code t texts u → Reaches code s (written code s t ++ texts) u

theorem Reaches.trans {code : Code} {s t u : State} {texts texts' : List (List UInt8)}
    (h : Reaches code s texts t) (h' : Reaches code t texts' u) :
    Reaches code s (texts ++ texts') u := by
  induction h with
  | refl => exact h'
  | step hn hs _ ih =>
    rw [List.append_assoc]
    exact .step hn hs (ih h')

theorem Reaches.leads {code : Code} {s t : State} {texts : List (List UInt8)}
    (h : Reaches code s texts t) : Leads code (· = t) s := by
  induction h with
  | refl => exact .now rfl
  | step _ hs _ ih => exact .step hs ih

def Halts (code : Code) (status : Int64) (output : List UInt8) : State → Prop :=
  Leads code fun t => exitStatus? code t = some status ∧ t.output = output

/-- A state in which a program starts: at its entry, with a stack, and nothing written.  Registers
and memory hold anything. -/
structure Starts (code : Code) (s : State) : Prop where
  entry : code.idxOf? (.label (.named "_start")) = some s.pc
  stack : ∃ a, s.regs .rsp = .address a
  output : s.output = []

end Machine

end Stackwise
