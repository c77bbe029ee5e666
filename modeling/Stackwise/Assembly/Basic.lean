import Stackwise.Word

/-! Assembly for x86-64: instructions as data, and their text. -/
namespace Stackwise

inductive Reg where
  | rax | rbx | rcx | rdx | rsi | rdi | rsp | r8
deriving DecidableEq, Repr

def Reg.render : Reg → String
  | rax => "rax"
  | rbx => "rbx"
  | rcx => "rcx"
  | rdx => "rdx"
  | rsi => "rsi"
  | rdi => "rdi"
  | rsp => "rsp"
  | r8 => "r8"

inductive ConditionCode where
  | e | ne | l | le | g | ge | z | nz | s | ns
deriving DecidableEq, Repr

namespace ConditionCode

def render : ConditionCode → String
  | e => "e"
  | ne => "ne"
  | l => "l"
  | le => "le"
  | g => "g"
  | ge => "ge"
  | z => "z"
  | nz => "nz"
  | s => "s"
  | ns => "ns"

def negate : ConditionCode → ConditionCode
  | e => ne
  | ne => e
  | l => ge
  | le => g
  | g => le
  | ge => l
  | z => nz
  | nz => z
  | s => ns
  | ns => s

end ConditionCode

inductive Jump where
  | always
  | on (cond : ConditionCode)
deriving DecidableEq, Repr

namespace Jump

def render : Jump → String
  | always => "jmp"
  | on cond => "j" ++ cond.render

/-- The jump taken exactly when this one is not; a jump that is always taken has none. -/
def negate : Jump → Except String Jump
  | always => .error "unconditional jump has no negation"
  | on cond => .ok (on cond.negate)

end Jump

inductive Label where
  | named (text : String)
  | function (name : String)
  | fresh (index : Nat)
deriving DecidableEq, Repr

def Label.render : Label → String
  | named text => text
  | function name => "fn_" ++ name
  | fresh index => "label" ++ Numeral.decimal index

inductive Operand where
  | reg (r : Reg)
  /-- The lowest byte of `rdx`. -/
  | dl
  | int (value : Int)
  | word (value : UInt64)
  | char (value : Char)
  /-- The word at an offset in bytes from the top of the stack. -/
  | slot (offset : Int)
  /-- The address at an offset in bytes from the top of the stack. -/
  | stack (offset : Int)
  /-- The memory at the address in a register. -/
  | mem (r : Reg)
  /-- The byte at the address in a register. -/
  | byte (r : Reg)
  /-- An operand as the caller writes it. -/
  | text (spelling : String)
deriving DecidableEq, Repr

def Operand.render : Operand → String
  | reg r => r.render
  | dl => "dl"
  | int value => Numeral.signed value
  | word value => Word.immediate value
  | char value => String.ofList ['\'', value, '\'']
  | slot offset => "QWORD [rsp + " ++ Numeral.signed offset ++ "]"
  | stack offset => "[rsp + " ++ Numeral.signed offset ++ "]"
  | mem r => "[" ++ r.render ++ "]"
  | byte r => "byte [" ++ r.render ++ "]"
  | text spelling => spelling

/-- Instructions that compute with a destination and a source. -/
inductive Alu where
  | add | sub | imul | xor | cmp | test
deriving DecidableEq, Repr

def Alu.render : Alu → String
  | add => "add"
  | sub => "sub"
  | imul => "imul"
  | xor => "xor"
  | cmp => "cmp"
  | test => "test"

inductive Unary where
  | neg | dec | div | idiv
deriving DecidableEq, Repr

def Unary.render : Unary → String
  | neg => "neg"
  | dec => "dec"
  | div => "div"
  | idiv => "idiv"

inductive Instr where
  | push (src : Operand)
  | pop (dst : Reg)
  | mov (dst src : Operand)
  | lea (dst : Reg) (src : Operand)
  | alu (op : Alu) (dst src : Operand)
  | unary (op : Unary) (r : Reg)
  /-- Extends the sign of `rax` into `rdx`. -/
  | cqo
  | jump (kind : Jump) (target : Label)
  | call (target : Label)
  | ret
  | syscall
  /-- An instruction as the caller writes it. -/
  | text (spelling : String)
deriving DecidableEq, Repr

def Instr.render : Instr → String
  | push src => "push " ++ src.render
  | pop dst => "pop " ++ dst.render
  | mov dst src => "mov " ++ dst.render ++ ", " ++ src.render
  | lea dst src => "lea " ++ dst.render ++ ", " ++ src.render
  | alu op dst src => op.render ++ " " ++ dst.render ++ ", " ++ src.render
  | unary op r => op.render ++ " " ++ r.render
  | cqo => "cqo"
  | jump kind target => kind.render ++ " " ++ target.render
  | call target => "call " ++ target.render
  | ret => "ret"
  | syscall => "syscall"
  | text spelling => spelling

inductive Line where
  | directive (text : String)
  | label (l : Label)
  | instr (i : Instr)
  /-- Text taken over as it is. -/
  | verbatim (text : String)
deriving DecidableEq, Repr

def Line.render : Line → String
  | directive text => text ++ "\n"
  | label l => l.render ++ ":\n"
  | instr i => "    " ++ i.render ++ "\n"
  | verbatim text => text

abbrev Code := List Line

def Code.render (code : Code) : String := String.join (code.map Line.render)

end Stackwise
