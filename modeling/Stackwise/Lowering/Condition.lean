import Stackwise.Lowering.Expr

/-! Code for conditions: it jumps to a target if the condition has a given truth value, and else
falls through.  Only the links that decide are evaluated. -/
namespace Stackwise

def Comparison.jumpIfFalse : Comparison → Jump
  | eq => .on .ne
  | ge => .on .l
  | le => .on .g
  | lt => .on .ge
  | gt => .on .le

def Link.jumpIfFalse (c : Link) : Jump :=
  match c.comparison with
  | some (cmp, _) => cmp.jumpIfFalse
  | none => .on .z

open Emit

/-- Jumps where a jump is not taken, or else where it is. -/
def Emit.jumpUnless (j : Jump) (negated : Bool) (target : Label) : Emit Unit :=
  if negated then
    match j.negate with
    | .ok j => jump j target
    | .error reason => fail (.unreachable reason) 0
  else
    jump j target

def Link.emit (value : Expr → Emit Unit) (c : Link) (target : Label) (truth : Bool) :
    Emit Unit := do
  value c.lhs
  match c.comparison with
  | some (_, rhs) =>
    value rhs
    pop .rbx
    pop .rax
    instr (.alu .cmp (.reg .rax) (.reg .rbx))
  | none =>
    pop .rax
    instr (.alu .test (.reg .rax) (.reg .rax))
  jumpUnless c.jumpIfFalse truth target

/-- Where a condition goes: to `target` if it has the value `truth`, and to `ifFalse` if it is
false, which is the target itself if that is for falsehood. -/
structure Exits where
  target : Label
  truth : Bool
  ifFalse : Label
deriving DecidableEq, Repr

/-- The number of segments of a condition, of which each `||` starts a new one; `rest` are the links
after the first. -/
def Condition.segments (rest : Condition) : Nat := 1 + rest.countP fun c => c.connector = .or

namespace Exits

def segmentLabel (exits : Exits) (segments segment : Nat) : Emit Label :=
  if segment + 1 = segments then pure exits.ifFalse else freshLabel

/-- A link before `rest`.  A false one goes to `ifFalse`; the last one goes to the target if that
is for truth. -/
def link (exits : Exits) (value : Expr → Emit Unit) (c : Link) (rest : Condition)
    (ifFalse : Label) : Emit Unit :=
  if exits.truth ∧ rest.isEmpty then c.emit value exits.target true
  else c.emit value ifFalse false

/-- The links after the first; `ifFalse` is where a false link of the segment goes.  A link that
`||` joins is jumped over if what stands before it is true. -/
def segmentLinks (exits : Exits) (value : Expr → Emit Unit) (segments : Nat) :
    Nat → Label → Condition → Emit Unit
  | _, _, [] => pure ()
  | segment, ifFalse, c :: rest => do
    match c.connector with
    | .and =>
      exits.link value c rest ifFalse
      exits.segmentLinks value segments segment ifFalse rest
    | .or =>
      if exits.truth ∧ rest.isEmpty then
        jump .always exits.target
        label ifFalse
        let ifFalse ← exits.segmentLabel segments (segment + 1)
        exits.link value c rest ifFalse
      else
        let resume ← freshLabel
        jump .always resume
        label ifFalse
        let ifFalse ← exits.segmentLabel segments (segment + 1)
        exits.link value c rest ifFalse
        label resume
        exits.segmentLinks value segments (segment + 1) ifFalse rest

end Exits

def Condition.emit (value : Expr → Emit Unit) (cond : Condition) (target : Label) (truth : Bool) :
    Emit Unit :=
  match cond with
  | [] => fail .emptyCondition 0
  | first :: rest => do
    let ifFalse ← if truth then freshLabel else pure target
    let exits : Exits := ⟨target, truth, ifFalse⟩
    let segments := Condition.segments rest
    let firstFalse ← exits.segmentLabel segments 0
    exits.link value first rest firstFalse
    exits.segmentLinks value segments 0 firstFalse rest
    if truth then label ifFalse else pure ()

end Stackwise
