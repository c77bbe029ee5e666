import Stackwise.Lowering.Emit
import Stackwise.Signature

/-! Where variables live.  A variable has a slot: a local one the height of the stack below its
word, a parameter a negative number, since it lies below the return address. -/
namespace Stackwise

structure Var where
  name : String
  slot : Int
deriving DecidableEq, Repr

/-- The visible variables, newest first: those of the innermost scope and those around it. -/
structure Scope where
  own : List Var
  outer : List Var
deriving DecidableEq, Repr

namespace Scope

def empty : Scope := ⟨[], []⟩

def visible (s : Scope) : List Var := s.own ++ s.outer

def find? (s : Scope) (name : String) : Option Var := s.visible.find? fun v => v.name == name

def declares (s : Scope) (name : String) : Bool := s.own.any fun v => v.name == name

def declare (s : Scope) (v : Var) : Scope := { s with own := v :: s.own }

def nested (s : Scope) : Scope := ⟨[], s.visible⟩

/-- The scope around the body of a function: its parameters, pushed first to last by the caller,
with the return address above them. -/
def ofParams (params : List String) : Scope :=
  ⟨[], (params.zipIdx.map fun (name, i) => ⟨name, (i : Int) - params.length - 1⟩).reverse⟩

@[simp] theorem visible_nested (s : Scope) : s.nested.visible = s.visible := rfl

@[simp] theorem find?_nested (s : Scope) (name : String) : s.nested.find? name = s.find? name := rfl

@[simp] theorem declares_nested (s : Scope) (name : String) : s.nested.declares name = false := rfl

end Scope

/-- A loop: the height at its body, and where `break` and `continue` go. -/
structure Loop where
  height : Nat
  breakTo : Label
  continueTo : Label
deriving DecidableEq, Repr

/-- What stands around a statement: the functions of the program, the innermost loop of the same
function, and whether there is a function. -/
structure Context where
  table : Signatures
  loop : Option Loop
  inFunction : Bool
deriving DecidableEq, Repr

namespace Emit

/-- The place of a variable, relative to the top of the stack. -/
def place (scope : Scope) (name : String) (line : Nat) : Emit Operand := do
  match scope.find? name with
  | some v => return .slot (8 * ((← height) - v.slot - 1))
  | none => fail (.undeclared name) line

/-- Runs an action in a scope of its own and drops the variables that it declares.  Nothing else
that it pushes may be left. -/
def inScope (scope : Scope) (body : Scope → Emit Scope) : Emit Unit := do
  let outside ← height
  let inner ← body scope.nested
  drop inner.own.length
  let left ← height
  if left = outside then pure () else fail (.unbalancedScope left outside) 0

/-- A call of a function of the table, which leaves its result in `rax`; `args` pushes the
arguments. -/
def call (table : Signatures) (name : String) (arity line : Nat) (args : Emit Unit) :
    Emit Unit := do
  if (table.get? name).map Signature.arity = some arity then
    args
    instr (.call (.function name))
    drop arity
  else
    fail (.callOutsideTable name) line

end Emit

end Stackwise
