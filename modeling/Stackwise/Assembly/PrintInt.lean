import Stackwise.Assembly.Basic

/-! A routine that writes the signed integer in `rax` to standard output in decimal.  It collects
the digits from the last to the first in 32 bytes on the stack. -/
namespace Stackwise.PrintInt

def entry : Label := .named "print_int"

def digits : Label := .named ".digits"

def write : Label := .named ".write"

def code : Code :=
  [.label entry,
    .instr (.alu .sub (.reg .rsp) (.int 32)),
    .instr (.lea .rsi (.stack 32)),
    .instr (.mov (.reg .rcx) (.int 10)),
    .instr (.alu .xor (.reg .r8) (.reg .r8)),
    .instr (.alu .test (.reg .rax) (.reg .rax)),
    .instr (.jump (.on .ns) digits),
    .instr (.unary .neg .rax),
    .instr (.mov (.reg .r8) (.int 1)),
    .label digits,
    .instr (.alu .xor (.reg .rdx) (.reg .rdx)),
    .instr (.unary .div .rcx),
    .instr (.alu .add .dl (.char '0')),
    .instr (.unary .dec .rsi),
    .instr (.mov (.mem .rsi) .dl),
    .instr (.alu .test (.reg .rax) (.reg .rax)),
    .instr (.jump (.on .nz) digits),
    .instr (.alu .test (.reg .r8) (.reg .r8)),
    .instr (.jump (.on .z) write),
    .instr (.unary .dec .rsi),
    .instr (.mov (.byte .rsi) (.char '-')),
    .label write,
    .instr (.mov (.reg .rax) (.int 1)),
    .instr (.mov (.reg .rdi) (.int 1)),
    .instr (.lea .rdx (.stack 32)),
    .instr (.alu .sub (.reg .rdx) (.reg .rsi)),
    .instr .syscall,
    .instr (.alu .add (.reg .rsp) (.int 32)),
    .instr .ret]

end Stackwise.PrintInt
