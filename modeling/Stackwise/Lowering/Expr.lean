import Stackwise.Lowering.Scope

/-! Code for expressions.  It leaves the value on top of the stack and what was there in place.
The right operand is evaluated before the left one. -/
namespace Stackwise

/-- Combines `rax` with `rbx` into `rax`. -/
def BinOp.code : BinOp → List Instr
  | add => [.alu .add (.reg .rax) (.reg .rbx)]
  | sub => [.alu .sub (.reg .rax) (.reg .rbx)]
  | mul => [.alu .imul (.reg .rax) (.reg .rbx)]
  | div => [.cqo, .unary .idiv .rbx]

namespace Emit

def load (src : Operand) : Emit Unit := do
  instr (.mov (.reg .rax) src)
  push (.reg .rax)

end Emit

open Emit

mutual

def Expr.emit (table : Signatures) (scope : Scope) : Expr → Emit Unit
  | .int value => load (.int value.toInt)
  | .ident name line => do
    load (← place scope name line)
  | .paren inner => inner.emit table scope
  | .call name args line => do
    Emit.call table name args.length line (Expr.emitEach table scope args)
    push (.reg .rax)
  | .bin op lhs rhs => do
    rhs.emit table scope
    lhs.emit table scope
    pop .rax
    pop .rbx
    instrs op.code
    push (.reg .rax)

def Expr.emitEach (table : Signatures) (scope : Scope) : List Expr → Emit Unit
  | [] => pure ()
  | e :: es => do
    e.emit table scope
    Expr.emitEach table scope es

end

end Stackwise
