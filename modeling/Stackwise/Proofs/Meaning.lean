import Stackwise.Numeral
import Stackwise.Tree.Traversal

/-! What programs mean, said without reference to code: values are 64-bit integers, variables are
bindings of names, and a computation yields something, ends the program, or does neither. -/
namespace Stackwise

/-- How a computation ends: it yields something, or it ends the program. -/
inductive Ending (α : Type) where
  | done (a : α)
  | exited (status : Int64)
deriving DecidableEq, Repr

/-- A computation: how it ends, and the bytes that it writes.  There is none where it faults or
takes more than the bound on loops and calls allows. -/
def Run (α : Type) : Type := Option (Ending α × List UInt8)

instance {α : Type} [DecidableEq α] : DecidableEq (Run α) :=
  inferInstanceAs (DecidableEq (Option _))

namespace Run

variable {α β : Type}

protected def pure (a : α) : Run α := some (.done a, [])

/-- One computation after another; what the second one writes follows. -/
protected def bind (m : Run α) (f : α → Run β) : Run β :=
  match m with
  | none => none
  | some (.exited status, out) => some (.exited status, out)
  | some (.done a, out) =>
    match f a with
    | none => none
    | some (ending, more) => some (ending, out ++ more)

instance : Monad Run where
  pure := Run.pure
  bind := Run.bind

def fault : Run α := none

def exit (status : Int64) : Run α := some (.exited status, [])

def write (bytes : List UInt8) : Run Unit := some (.done (), bytes)

def ofOption : Option α → Run α
  | some a => pure a
  | none => fault

/-- The computation, started after `out` was written, ends the program so that `E` holds, or yields
something so that `K` holds. -/
def Ensures (E : Int64 → List UInt8 → Prop) (m : Run α) (K : α → List UInt8 → Prop)
    (out : List UInt8) : Prop :=
  match m with
  | none => False
  | some (.exited status, more) => E status (out ++ more)
  | some (.done a, more) => K a (out ++ more)

section Ensures

variable {E : Int64 → List UInt8 → Prop}

@[simp] theorem ensures_pure {a : α} {K : α → List UInt8 → Prop} :
    Ensures E (pure a : Run α) K = K a := by
  funext out
  change K a (out ++ []) = K a out
  rw [List.append_nil]

@[simp] theorem ensures_bind {m : Run α} {f : α → Run β} {K : β → List UInt8 → Prop} :
    Ensures E (m >>= f) K = Ensures E m fun a => Ensures E (f a) K := by
  funext out
  change Ensures E (Run.bind m f) K out = _
  cases m with
  | none => rfl
  | some r =>
    obtain ⟨ending, w⟩ := r
    cases ending with
    | exited status => rfl
    | done a =>
      cases hf : f a with
      | none => simp [Run.bind, Ensures, hf]
      | some r =>
        obtain ⟨ending, v⟩ := r
        cases ending <;> simp [Run.bind, Ensures, hf]

@[simp] theorem ensures_fault {K : α → List UInt8 → Prop} {out : List UInt8} :
    ¬ Ensures E (fault : Run α) K out :=
  id

@[simp] theorem ensures_exit {status : Int64} {K : α → List UInt8 → Prop} :
    Ensures E (exit status : Run α) K = E status := by
  funext out
  simp [exit, Ensures]

@[simp] theorem ensures_write {bytes : List UInt8} {K : Unit → List UInt8 → Prop} :
    Ensures E (write bytes) K = fun out => K () (out ++ bytes) := rfl

@[simp] theorem ensures_ofOption {o : Option α} {K : α → List UInt8 → Prop} {out : List UInt8} :
    Ensures E (ofOption o) K out ↔ ∃ a, o = some a ∧ K a out := by
  cases o <;> simp [ofOption]

theorem Ensures.mono {m : Run α} {K K' : α → List UInt8 → Prop} {out : List UInt8}
    (h : Ensures E m K out)
    (hk : ∀ a out, K a out → K' a out) : Ensures E m K' out := by
  cases m with
  | none => exact h
  | some r =>
    obtain ⟨ending, w⟩ := r
    cases ending with
    | exited status => exact h
    | done a => exact hk _ _ h

end Ensures

end Run

abbrev Env := List (String × Int64)

namespace Env

def get? (env : Env) (name : String) : Option Int64 := (env.find? fun b => b.1 == name).map Prod.snd

def set (name : String) (value : Int64) : Env → Env
  | [] => []
  | b :: env => if b.1 == name then (name, value) :: env else b :: set name value env

/-- The `n` oldest bindings. -/
def oldest (n : Nat) (env : Env) : Env := env.drop (env.length - n)

end Env

/-- Arithmetic wraps around.  Division rounds toward zero; it faults on zero and where the quotient
does not fit. -/
def BinOp.apply (op : BinOp) (x y : Int64) : Run Int64 :=
  match op with
  | add => pure (x + y)
  | sub => pure (x - y)
  | mul => pure (x * y)
  | div => if y = 0 ∨ (x = Int64.minValue ∧ y = -1) then .fault else pure (x / y)

def Comparison.holds (x y : Int64) : Comparison → Bool
  | eq => x == y
  | ge => decide (y ≤ x)
  | le => decide (x ≤ y)
  | lt => decide (x < y)
  | gt => decide (y < x)

abbrev Calls := String → List Int64 → Run Int64

mutual

/-- The value of an expression.  The right operand comes before the left one. -/
def Expr.eval (call : Calls) (env : Env) : Expr → Run Int64
  | .int value => pure value
  | .ident name _ => .ofOption (env.get? name)
  | .paren inner => inner.eval call env
  | .call name args _ => do
    call name (← Expr.evalEach call env args)
  | .bin op lhs rhs => do
    let y ← rhs.eval call env
    let x ← lhs.eval call env
    op.apply x y

def Expr.evalEach (call : Calls) (env : Env) : List Expr → Run (List Int64)
  | [] => pure []
  | e :: es => do
    let v ← e.eval call env
    let vs ← Expr.evalEach call env es
    return v :: vs

end

def Link.eval (value : Expr → Run Int64) (c : Link) : Run Bool := do
  let x ← value c.lhs
  match c.comparison with
  | some (cmp, rhs) => return cmp.holds x (← value rhs)
  | none => return x != 0

namespace Condition

/-- Joins links to a truth value, left to right; one that cannot change it is passed over. -/
def evalRest (value : Expr → Run Int64) : Bool → Condition → Run Bool
  | truth, [] => pure truth
  | truth, c :: rest => do
    match c.connector, truth with
    | .and, false => evalRest value false rest
    | .or, true => evalRest value true rest
    | _, _ => evalRest value (← c.eval value) rest

def eval (value : Expr → Run Int64) : Condition → Run Bool
  | [] => .fault
  | first :: rest => do
    evalRest value (← first.eval value) rest

end Condition

def decimalBytes (v : Int64) : List UInt8 := (Numeral.signed v.toInt).toUTF8.data.toList

def PrintItem.exec (value : Expr → Run Int64) : PrintItem → Run Unit
  | str text => .write text.toUTF8.data.toList
  | expr e => do
    let v ← value e
    .write (decimalBytes v)

def PrintItem.execEach (value : Expr → Run Int64) : List PrintItem → Run Unit
  | [] => pure ()
  | s :: ss => do
    s.exec value
    PrintItem.execEach value ss

inductive Flow where
  | next
  | broke
  | continued
  | returned (value : Int64)
deriving DecidableEq, Repr

abbrev Action := Env → Run (Flow × Env)

namespace Action

def skip : Action := fun env => pure (.next, env)

/-- Forgets the bindings that the action makes. -/
def inScope (body : Action) : Action := fun env => do
  let (flow, inner) ← body env
  return (flow, inner.oldest env.length)

/-- The second action follows where the first one goes on. -/
def andThen (first second : Action) : Action := fun env => do
  match ← first env with
  | (.next, env) => second env
  | (flow, env) => return (flow, env)

/-- The body of a loop and, unless it leaves the loop, what comes `again` after it. -/
def turn (body again : Action) : Action := fun env => do
  match ← body env with
  | (.next, env) | (.continued, env) => again env
  | (.broke, env) => return (.next, env)
  | (.returned value, env) => return (.returned value, env)

/-- Repeats `body` and then `step` while the condition holds, at most `n` times.  `continue` goes to
the step. -/
def loop (cond : Env → Run Bool) (body step : Action) : Nat → Action
  | 0, _ => .fault
  | n + 1, env => do
    if ← cond env then
      body.turn (step.andThen (loop cond body step n)) env
    else
      return (.next, env)

end Action

mutual

/-- A statement, in which no loop takes more than `bound` turns. -/
def Stmt.exec (call : Calls) (bound : Nat) : Stmt → Action
  | .exit none, _ => .exit 0
  | .exit (some value), env => do
    let v ← value.eval call env
    .exit v
  | .letVar name value _, env => do
    let v ← value.eval call env
    return (.next, (name, v) :: env)
  | .assign name value _, env => do
    let v ← value.eval call env
    let _ ← Run.ofOption (env.get? name)
    return (.next, env.set name v)
  | .block body, env => Action.inScope (Stmt.execEach call bound body) env
  | .print items, env => do
    PrintItem.execEach (Expr.eval call env) items
    return (.next, env)
  | .ifElse cond body other, env => do
    if ← Condition.eval (Expr.eval call env) cond then
      Action.inScope (body.exec call bound) env
    else
      other.exec call bound env
  | .whileLoop cond body, env =>
    Action.loop (fun env => Condition.eval (Expr.eval call env) cond)
      (Action.inScope (body.exec call bound)) .skip bound env
  | .forLoop init cond step body, env =>
    Action.inScope ((init.exec call bound).andThen
      (Action.loop (fun env => Condition.eval (Expr.eval call env) cond)
        (Action.inScope (body.exec call bound)) (Action.inScope (step.exec call bound)) bound)) env
  | .function .., env => return (.next, env)
  | .ret none _ _, env => return (.returned 0, env)
  | .ret (some value) _ _, env => do
    let v ← value.eval call env
    return (.returned v, env)
  | .call name args _, env => do
    let vs ← Expr.evalEach call env args
    let _ ← call name vs
    return (.next, env)
  | .breakLoop _, env => return (.broke, env)
  | .continueLoop _, env => return (.continued, env)

def Stmt.execEach (call : Calls) (bound : Nat) : List Stmt → Action
  | [], env => return (.next, env)
  | s :: ss, env => (s.exec call bound).andThen (Stmt.execEach call bound ss) env

def ElseBranch.exec (call : Calls) (bound : Nat) : ElseBranch → Action
  | .absent, env => return (.next, env)
  | .elseIf cond body next, env => do
    if ← Condition.eval (Expr.eval call env) cond then
      Action.inScope (body.exec call bound) env
    else
      next.exec call bound env
  | .otherwise body, env => Action.inScope (body.exec call bound) env

end

theorem Stmt.exec_function (call : Calls) (bound : Nat) (name : String) (params : List String)
    (body : Stmt) (line : Nat) (env : Env) :
    (Stmt.function name params body line).exec call bound env = pure (.next, env) := by
  rw [Stmt.exec]

/-- A call of a function on values.  It sees its parameters alone; where it ends without a `return`
it yields 0. -/
def FunctionDecl.apply (call : Calls) (bound : Nat) (f : FunctionDecl) (args : List Int64) :
    Run Int64 := do
  if f.params.length = args.length then
    match ← Action.inScope (f.body.exec call bound) (f.params.zip args).reverse with
    | (.next, _) => return 0
    | (.returned value, _) => return value
    | _ => .fault
  else
    .fault

/-- Calls that nest at most `bound` deep. -/
def FunctionDecl.calls (fs : List FunctionDecl) : Nat → Calls
  | 0, _, _ => .fault
  | bound + 1, name, args => do
    let f ← Run.ofOption (fs.find? fun f => f.name == name)
    f.apply (FunctionDecl.calls fs bound) bound args

namespace Program

/-- Runs a program within a bound on its loops and calls.  One that comes to its end exits
with 0. -/
def exec (bound : Nat) (p : Program) : Run Unit := do
  match ← Stmt.execEach (FunctionDecl.calls p.functions bound) bound p [] with
  | (.next, _) => .exit 0
  | _ => .fault

def Terminates (p : Program) (status : Int64) (output : List UInt8) : Prop :=
  ∃ bound, p.exec bound = some (.exited status, output)

end Program

end Stackwise
