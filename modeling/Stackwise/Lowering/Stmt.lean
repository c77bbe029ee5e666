import Stackwise.Assembly.PrintInt
import Stackwise.Lowering.Condition

/-! Code for statements.  A statement yields the scope after it: a declaration adds its variable,
every other statement leaves the scope as it was.  A function is only noted where it is declared. -/
namespace Stackwise

namespace Emit

def sysWrite : Operand := .int 1

def sysExit : Operand := .int 60

def standardOutput : Operand := .int 1

def exitWithTop : Emit Unit := do
  pop .rdi
  instrs [.mov (.reg .rax) sysExit, .syscall]

def exitNormally : Emit Unit :=
  instrs [.mov (.reg .rax) sysExit, .mov (.reg .rdi) (.int 0), .syscall]

def pushWords (words : List UInt64) : Emit Unit :=
  match words with
  | [] => pure ()
  | w :: ws => do
    pushWords ws
    load (.word w)

/-- Writes a text from the stack; an empty one takes no code. -/
def writeText (text : String) : Emit Unit := do
  let bytes := text.toUTF8.data.toList
  if bytes.isEmpty then
    pure ()
  else
    let words := Word.pack bytes
    pushWords words
    instrs [.mov (.reg .rax) sysWrite, .mov (.reg .rdi) standardOutput,
      .mov (.reg .rsi) (.reg .rsp), .mov (.reg .rdx) (.int bytes.length), .syscall]
    drop words.length

end Emit

open Emit

def PrintItem.emit (table : Signatures) (scope : Scope) : PrintItem → Emit Unit
  | str text => writeText text
  | expr value => do
    value.emit table scope
    pop .rax
    instr (.call PrintInt.entry)
    noteInt

def PrintItem.emitEach (table : Signatures) (scope : Scope) : List PrintItem → Emit Unit
  | [] => pure ()
  | s :: ss => do
    s.emit table scope
    PrintItem.emitEach table scope ss

/-- Leaves a loop body, which never pops what was pushed before it, for one of its two ends. -/
def Loop.leave (loop : Loop) (target : Label) : Emit Unit := do
  let height ← Emit.height
  if loop.height ≤ height then
    unwind (height - loop.height)
    jump .always target
  else
    fail (.stackUnderflow loop.height height) 0

mutual

def Stmt.emit : Stmt → Context → Scope → Emit Scope
  | .exit none, _, scope => do
    exitNormally
    return scope
  | .exit (some value), ctx, scope => do
    value.emit ctx.table scope
    exitWithTop
    return scope
  | .letVar name value line, ctx, scope => do
    if scope.declares name then
      fail (.alreadyDeclared name) line
    else
      value.emit ctx.table scope
      return scope.declare ⟨name, (← height) - 1⟩
  | .assign name value line, ctx, scope => do
    let target ← place scope name line
    value.emit ctx.table scope
    pop .rax
    instr (.mov target (.reg .rax))
    return scope
  | .block body, ctx, scope => do
    inScope scope fun inner => Stmt.emitEach body ctx inner
    return scope
  | .print items, ctx, scope => do
    PrintItem.emitEach ctx.table scope items
    return scope
  | .ifElse cond body other, ctx, scope => do
    let skip ← freshLabel
    Condition.emit (Expr.emit ctx.table scope) cond skip false
    inScope scope fun inner => body.emit ctx inner
    if other.isAbsent then
      label skip
    else
      let done ← freshLabel
      jump .always done
      label skip
      other.emit ctx scope done
      label done
    return scope
  | .whileLoop cond body, ctx, scope => do
    let done ← freshLabel
    let head ← freshLabel
    let next ← freshLabel
    Condition.emit (Expr.emit ctx.table scope) cond done false
    label head
    let loop : Loop := ⟨← height, done, next⟩
    inScope scope fun inner => body.emit { ctx with loop := some loop } inner
    label next
    Condition.emit (Expr.emit ctx.table scope) cond head true
    label done
    return scope
  | .forLoop init cond step body, ctx, scope => do
    inScope scope fun inner => do
      let inner ← init.emit ctx inner
      let done ← freshLabel
      let head ← freshLabel
      let next ← freshLabel
      Condition.emit (Expr.emit ctx.table inner) cond done false
      label head
      let loop : Loop := ⟨← height, done, next⟩
      inScope inner fun inmost => body.emit { ctx with loop := some loop } inmost
      label next
      inScope inner fun inmost => step.emit ctx inmost
      Condition.emit (Expr.emit ctx.table inner) cond head true
      label done
      return inner
    return scope
  | .function name params body line, _, scope => do
    if (scope.find? name).isSome then
      fail (.functionShadowsVariable name) line
    else
      meet ⟨name, params, body, line⟩
      return scope
  | .ret value inFunction line, ctx, scope => do
    if inFunction ∧ ctx.inFunction then
      match value with
      | some value =>
        value.emit ctx.table scope
        pop .rax
      | none => instr (.mov (.reg .rax) (.int 0))
      unwind (← height)
      instr .ret
      return scope
    else
      fail .returnOutsideFunction line
  | .call name args line, ctx, scope => do
    Emit.call ctx.table name args.length line (Expr.emitEach ctx.table scope args)
    return scope
  | .breakLoop line, ctx, scope => do
    match ctx.loop with
    | some loop => loop.leave loop.breakTo
    | none => fail .breakOutsideLoop line
    return scope
  | .continueLoop line, ctx, scope => do
    match ctx.loop with
    | some loop => loop.leave loop.continueTo
    | none => fail .continueOutsideLoop line
    return scope

/-- Statements in turn, each in the scope that the one before it yields. -/
def Stmt.emitEach : List Stmt → Context → Scope → Emit Scope
  | [], _, scope => return scope
  | s :: ss, ctx, scope => do
    let scope ← s.emit ctx scope
    Stmt.emitEach ss ctx scope

/-- The branches after an `if`; one that was taken goes on at `done`. -/
def ElseBranch.emit : ElseBranch → Context → Scope → Label → Emit Unit
  | .absent, _, _, _ => pure ()
  | .elseIf cond body next, ctx, scope, done => do
    let skip ← freshLabel
    Condition.emit (Expr.emit ctx.table scope) cond skip false
    inScope scope fun inner => body.emit ctx inner
    if next.isAbsent then
      label skip
    else
      jump .always done
      label skip
      next.emit ctx scope done
  | .otherwise body, ctx, scope, _ => inScope scope fun inner => body.emit ctx inner

end

end Stackwise
