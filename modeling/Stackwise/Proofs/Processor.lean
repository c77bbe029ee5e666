import Stackwise.Proofs.Machine

/-! A processor with registers of 64 bits and a memory of single bytes at addresses of 64 bits, all
of which wrap around.  Nothing is opaque: a register holds 64 bits, whatever they stand for, and the
address that a call leaves on the stack is the number of a line.  What a run does beside computing
is kept: each byte that it stores, and each system call that writes. -/
namespace Stackwise

inductive Event where
  | store (address : UInt64) (byte : UInt8)
  | write (descriptor : UInt64) (bytes : List UInt8)
deriving DecidableEq, Repr

def Event.write? : Event → Option (UInt64 × List UInt8)
  | store .. => none
  | write descriptor bytes => some (descriptor, bytes)

/-- Flags are none where an instruction leaves them open. -/
structure Processor where
  pc : Nat
  regs : Reg → UInt64
  flags : Option Machine.Flags
  memory : UInt64 → UInt8

/-- What the system leaves in `rax` and in `rcx` after a call. -/
abbrev System := Processor → UInt64 × UInt64

namespace Processor

def next (s : Processor) : Processor := { s with pc := s.pc + 1 }

def set (s : Processor) (r : Reg) (v : UInt64) : Processor :=
  { s with regs := fun r' => if r' = r then v else s.regs r', flags := none }

def compare (s : Processor) (f : Machine.Flags) : Processor := { s with flags := some f }

def put (s : Processor) (a : UInt64) (b : UInt8) : Processor :=
  { s with memory := fun a' => if a' = a then b else s.memory a' }

def fetch (s : Processor) (a : UInt64) (n : Nat) : List UInt8 :=
  (List.range n).map fun i => s.memory (a + .ofNat i)

def putEach (s : Processor) (a : UInt64) : List UInt8 → Processor × List Event
  | [] => (s, [])
  | b :: bs =>
    let (t, es) := (s.put a b).putEach (a + 1) bs
    (t, .store a b :: es)

def putWord (s : Processor) (a w : UInt64) : Processor × List Event :=
  s.putEach a (Word.bytes 8 w.toNat)

def word (s : Processor) (a : UInt64) : UInt64 := Word.ofBytes (s.fetch a 8)

def address? (s : Processor) : Operand → Option UInt64
  | .slot n | .stack n => some (s.regs .rsp + .ofInt n)
  | .mem r | .byte r => some (s.regs r)
  | _ => none

def read? (s : Processor) : Operand → Option UInt64
  | .reg r => some (s.regs r)
  | .int n => some (.ofInt n)
  | .word w => some w
  | .char c => some (.ofNat c.toNat)
  | .slot n => (s.address? (.slot n)).map s.word
  | _ => none

def readByte? (s : Processor) : Operand → Option UInt8
  | .dl => some (s.regs .rdx).toUInt8
  | .char c => some (.ofNat c.toNat)
  | _ => none

abbrev Outcome := Option (Processor × List Event)

def silent (s : Processor) : Outcome := some (s, [])

def move (s : Processor) : Operand → Operand → Outcome
  | .reg r, src => (s.read? src).bind fun v => silent (s.set r v)
  | .slot n, src => do return s.putWord (← s.address? (.slot n)) (← s.read? src)
  | dst, src => do
    let a ← s.address? dst
    let b ← s.readByte? src
    return (s.put a b, [.store a b])

def compute? (x y : UInt64) : Alu → Option UInt64
  | .add => some (x + y)
  | .sub => some (x - y)
  | .imul => some (x * y)
  | .xor => some (x ^^^ y)
  | .cmp | .test => none

/-- An instruction with a destination and a source.  Of `rdx` the lowest byte alone may be added
to. -/
def alu (s : Processor) (op : Alu) (dst src : Operand) : Outcome :=
  match op, dst with
  | .cmp, _ => do
    silent (s.compare (.ofCmp (← s.read? dst).toInt64 (← s.read? src).toInt64))
  | .test, _ => do
    silent (s.compare (.ofTest (← s.read? dst).toInt64 (← s.read? src).toInt64))
  | .add, .dl => do
    let b := (s.regs .rdx).toUInt8 + (← s.readByte? src)
    silent (s.set .rdx (s.regs .rdx / 256 * 256 + b.toUInt64))
  | op, .reg r => do silent (s.set r (← compute? (s.regs r) (← s.read? src) op))
  | _, _ => none

/-- An instruction on one register.  Division is that of the 128 bits of `rdx` and `rax`; it
faults where the quotient does not fit. -/
def unary (s : Processor) (op : Unary) (r : Reg) : Outcome :=
  match op with
  | .neg => silent (s.set r (0 - s.regs r))
  | .dec => silent (s.set r (s.regs r - 1))
  | .div =>
    let d := (s.regs r).toNat
    let n := (s.regs .rdx).toNat * 2 ^ 64 + (s.regs .rax).toNat
    if d = 0 ∨ 2 ^ 64 ≤ n / d then none
    else silent ((s.set .rax (.ofNat (n / d))).set .rdx (.ofNat (n % d)))
  | .idiv =>
    let d := (s.regs r).toInt64.toInt
    let n := (s.regs .rdx).toInt64.toInt * 2 ^ 64 + (s.regs .rax).toNat
    if d = 0 ∨ n.tdiv d < -2 ^ 63 ∨ 2 ^ 63 ≤ n.tdiv d then none
    else silent ((s.set .rax (.ofInt (n.tdiv d))).set .rdx (.ofInt (n.tmod d)))

def goto (s : Processor) (code : Code) (target : Label) : Outcome :=
  (code.idxOf? (.label target)).bind fun pc => silent { s with pc }

def call (system : System) (s : Processor) : Outcome :=
  if s.regs .rax = 1 then
    some ((s.set .rax (system s).1).set .rcx (system s).2,
      [.write (s.regs .rdi) (s.fetch (s.regs .rsi) (s.regs .rdx).toNat)])
  else none

def advance (o : Outcome) : Outcome := o.map fun (t, es) => (t.next, es)

def exec (system : System) (code : Code) (s : Processor) : Instr → Outcome
  | .push src => do
    let w ← s.read? src
    advance ((s.set .rsp (s.regs .rsp - 8)).putWord (s.regs .rsp - 8) w)
  | .pop dst => advance (silent ((s.set .rsp (s.regs .rsp + 8)).set dst (s.word (s.regs .rsp))))
  | .mov dst src => advance (s.move dst src)
  | .lea dst src => do advance (silent (s.set dst (← s.address? src)))
  | .alu op dst src => advance (s.alu op dst src)
  | .unary op r => advance (s.unary op r)
  | .cqo => advance (silent (s.set .rdx (if (s.regs .rax).toInt64 < 0 then .ofInt (-1) else 0)))
  | .jump .always target => s.goto code target
  | .jump (.on c) target => do
    if c.holds (← s.flags) then s.goto code target else silent s.next
  | .call target => do
    let (t, es) := (s.set .rsp (s.regs .rsp - 8)).putWord (s.regs .rsp - 8) (.ofNat (s.pc + 1))
    let (u, _) ← t.goto code target
    return (u, es)
  | .ret => silent { s.set .rsp (s.regs .rsp + 8) with pc := (s.word (s.regs .rsp)).toNat }
  | .syscall => advance (s.call system)
  | .text _ => none

def step (system : System) (code : Code) (s : Processor) : Outcome :=
  match code[s.pc]? with
  | some (.instr i) => s.exec system code i
  | some (.label _) | some (.directive _) => silent s.next
  | _ => none

/-- Steps lead from one state to another without passing a return, and this is to be seen of
them. -/
inductive Reaches (system : System) (code : Code) : Processor → List Event → Processor → Prop where
  | refl (s : Processor) : Reaches system code s [] s
  | step {s t u : Processor} {es fs : List Event} : code[s.pc]? ≠ some (.instr .ret) →
    s.step system code = some (t, es) → Reaches system code t fs u →
      Reaches system code s (es ++ fs) u

end Processor

end Stackwise
