/-! Syntax trees of programs.  Every tree is allowed here, also one that no text is read as. -/
namespace Stackwise

inductive BinOp where
  | add | sub | mul | div
deriving DecidableEq, Repr

inductive Expr where
  | int (value : Int64)
  | ident (name : String) (line : Nat)
  | paren (inner : Expr)
  | call (name : String) (args : List Expr) (line : Nat)
  | bin (op : BinOp) (lhs rhs : Expr)
deriving Repr

inductive Comparison where
  | eq | ge | le | lt | gt
deriving DecidableEq, Repr

inductive Connector where
  | and | or
deriving DecidableEq, Repr

/-- One link of a condition: a comparison, or an expression that is to be nonzero.  The connector
joins it to what stands before it; that of a first link has no meaning. -/
structure Link where
  lhs : Expr
  comparison : Option (Comparison × Expr)
  connector : Connector
deriving Repr

/-- A condition: links taken from left to right, `&&` and `||` binding alike. -/
abbrev Condition := List Link

/-- An item that `print` writes: a text or the value of an expression. -/
inductive PrintItem where
  | str (text : String)
  | expr (value : Expr)
deriving Repr

mutual

inductive Stmt where
  | exit (value : Option Expr)
  | letVar (name : String) (value : Expr) (line : Nat)
  | assign (name : String) (value : Expr) (line : Nat)
  | block (body : List Stmt)
  | print (items : List PrintItem)
  | ifElse (cond : Condition) (body : Stmt) (other : ElseBranch)
  | whileLoop (cond : Condition) (body : Stmt)
  | forLoop (init : Stmt) (cond : Condition) (step body : Stmt)
  | function (name : String) (params : List String) (body : Stmt) (line : Nat)
  | ret (value : Option Expr) (inFunction : Bool) (line : Nat)
  | call (name : String) (args : List Expr) (line : Nat)
  | breakLoop (line : Nat)
  | continueLoop (line : Nat)

/-- What an `if` does when its condition fails. -/
inductive ElseBranch where
  | absent
  | elseIf (cond : Condition) (body : Stmt) (next : ElseBranch)
  | otherwise (body : Stmt)

end

def ElseBranch.isAbsent : ElseBranch → Bool
  | absent => true
  | _ => false

abbrev Program := List Stmt

structure FunctionDecl where
  name : String
  params : List String
  body : Stmt
  line : Nat

def FunctionDecl.arity (f : FunctionDecl) : Nat := f.params.length

/-- A call, by name and number of arguments. -/
structure CallSite where
  name : String
  arity : Nat
  line : Nat
deriving DecidableEq, Repr

/-- The expressions of a link, left to right. -/
def Link.exprs (c : Link) : List Expr :=
  match c.comparison with
  | some (_, rhs) => [c.lhs, rhs]
  | none => [c.lhs]

def PrintItem.text? : PrintItem → Option String
  | str text => some text
  | expr _ => none

def PrintItem.expr? : PrintItem → Option Expr
  | str _ => none
  | expr value => some value

end Stackwise
