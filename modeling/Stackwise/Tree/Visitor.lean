import Stackwise.Tree.Traversal

/-! Visits of trees.  A visitor does something at an expression or a statement, and from there it
may walk on to the nodes directly inside.  A pass over a tree is given by what it does at a node,
whenever it walks on from it. -/
namespace Stackwise

/-- What is done to a state at an expression and at a statement. -/
structure Visitor (σ : Type) where
  expr : Expr → σ → σ
  stmt : Stmt → σ → σ

namespace Visitor

variable {σ : Type} (v : Visitor σ)

def visit : Node → σ → σ
  | .expr e => v.expr e
  | .stmt s => v.stmt s

def walkExpr : Expr → σ → σ
  | .int _, state => state
  | .ident .., state => state
  | .paren inner, state => v.expr inner state
  | .call _ args _, state => args.foldl (fun state arg => v.expr arg state) state
  | .bin _ lhs rhs, state => v.expr rhs (v.expr lhs state)

def walkLink (state : σ) (c : Link) : σ :=
  match c.comparison with
  | some (_, rhs) => v.expr rhs (v.expr c.lhs state)
  | none => v.expr c.lhs state

def walkCondition (cond : Condition) (state : σ) : σ := cond.foldl v.walkLink state

def walkItem (state : σ) : PrintItem → σ
  | .str _ => state
  | .expr value => v.expr value state

def walkElse : ElseBranch → σ → σ
  | .absent, state => state
  | .elseIf cond body next, state => walkElse next (v.stmt body (v.walkCondition cond state))
  | .otherwise body, state => v.stmt body state

def walkStmt : Stmt → σ → σ
  | .exit none, state => state
  | .exit (some value), state => v.expr value state
  | .letVar _ value _, state => v.expr value state
  | .assign _ value _, state => v.expr value state
  | .block body, state => body.foldl (fun state s => v.stmt s state) state
  | .print items, state => items.foldl v.walkItem state
  | .ifElse cond body other, state =>
    v.walkElse other (v.stmt body (v.walkCondition cond state))
  | .whileLoop cond body, state => v.stmt body (v.walkCondition cond state)
  | .forLoop init cond step body, state =>
    v.stmt body (v.stmt step (v.walkCondition cond (v.stmt init state)))
  | .function _ _ body _, state => v.stmt body state
  | .ret none _ _, state => state
  | .ret (some value) _ _, state => v.expr value state
  | .call _ args _, state => args.foldl (fun state arg => v.expr arg state) state
  | .breakLoop _, state => state
  | .continueLoop _, state => state

def walk : Node → σ → σ
  | .expr e => v.walkExpr e
  | .stmt s => v.walkStmt s

end Visitor

/-- What is done at an expression and at a statement, given how to walk on from there.  Without a
rule of its own a pass just walks on. -/
structure Pass (σ : Type) where
  expr : Expr → (σ → σ) → σ → σ := fun _ walk => walk
  stmt : Stmt → (σ → σ) → σ → σ := fun _ walk => walk

namespace Pass

variable {σ : Type} (pass : Pass σ)

def node : Node → (σ → σ) → σ → σ
  | .expr e => pass.expr e
  | .stmt s => pass.stmt s

/-- The visitor that does at every node what the pass says, down to a depth. -/
def visitor : Nat → Visitor σ
  | 0 => ⟨fun _ => id, fun _ => id⟩
  | depth + 1 =>
    { expr := fun e => pass.expr e ((visitor depth).walkExpr e)
      stmt := fun s => pass.stmt s ((visitor depth).walkStmt s) }

/-- Visits the statements of a program in turn.  No tree is deeper than the program has nodes. -/
def run (p : Program) (state : σ) : σ :=
  let v := pass.visitor p.nodes.length
  p.foldl (fun state s => v.stmt s state) state

/-- Writes down each node before it walks on. -/
def logging : Pass (List Node) where
  expr e walk log := walk (log ++ [.expr e])
  stmt s walk log := walk (log ++ [.stmt s])

end Pass

end Stackwise
