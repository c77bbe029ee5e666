import Stackwise.Tree.Basic

/-! Walking over trees: all nodes in the order in which they are written, each before the nodes
inside it, and all calls in the order in which they are met, each after the calls inside it. -/
namespace Stackwise

inductive Node where
  | stmt (s : Stmt)
  | expr (e : Expr)

mutual

def Expr.nodes : Expr → List Expr
  | .int value => [.int value]
  | .ident name line => [.ident name line]
  | .paren inner => .paren inner :: inner.nodes
  | .call name args line => .call name args line :: Expr.nodesEach args
  | .bin op lhs rhs => .bin op lhs rhs :: (lhs.nodes ++ rhs.nodes)

def Expr.nodesEach : List Expr → List Expr
  | [] => []
  | e :: es => e.nodes ++ Expr.nodesEach es

end

mutual

/-- The calls of an expression, those in the arguments of a call before it. -/
def Expr.calls : Expr → List CallSite
  | .int _ => []
  | .ident .. => []
  | .paren inner => inner.calls
  | .call name args line => Expr.callsEach args ++ [⟨name, args.length, line⟩]
  | .bin _ lhs rhs => lhs.calls ++ rhs.calls

def Expr.callsEach : List Expr → List CallSite
  | [] => []
  | e :: es => e.calls ++ Expr.callsEach es

end

mutual

/-- The variables that an expression mentions, with the lines, left to right. -/
def Expr.mentions : Expr → List (String × Nat)
  | .int _ => []
  | .ident name line => [(name, line)]
  | .paren inner => inner.mentions
  | .call _ args _ => Expr.mentionsEach args
  | .bin _ lhs rhs => lhs.mentions ++ rhs.mentions

def Expr.mentionsEach : List Expr → List (String × Nat)
  | [] => []
  | e :: es => e.mentions ++ Expr.mentionsEach es

end

def Condition.exprs (cond : Condition) : List Expr := cond.flatMap Link.exprs

theorem Condition.exprs_cons (c : Link) (cs : Condition) :
    Condition.exprs (c :: cs) = c.exprs ++ Condition.exprs cs := rfl

def PrintItem.exprs (items : List PrintItem) : List Expr := items.filterMap PrintItem.expr?

def Node.ofExprs (es : List Expr) : List Node := (Expr.nodesEach es).map .expr

mutual

def Stmt.nodes : Stmt → List Node
  | .exit value => .stmt (.exit value) :: Node.ofExprs value.toList
  | .letVar name value line => .stmt (.letVar name value line) :: Node.ofExprs [value]
  | .assign name value line => .stmt (.assign name value line) :: Node.ofExprs [value]
  | .block body => .stmt (.block body) :: Stmt.nodesEach body
  | .print items => .stmt (.print items) :: Node.ofExprs (PrintItem.exprs items)
  | .ifElse cond body other =>
    .stmt (.ifElse cond body other) ::
      (Node.ofExprs (Condition.exprs cond) ++ body.nodes ++ other.nodes)
  | .whileLoop cond body =>
    .stmt (.whileLoop cond body) :: (Node.ofExprs (Condition.exprs cond) ++ body.nodes)
  | .forLoop init cond step body =>
    .stmt (.forLoop init cond step body) ::
      (init.nodes ++ Node.ofExprs (Condition.exprs cond) ++ step.nodes ++ body.nodes)
  | .function name params body line => .stmt (.function name params body line) :: body.nodes
  | .ret value inFunction line => .stmt (.ret value inFunction line) :: Node.ofExprs value.toList
  | .call name args line => .stmt (.call name args line) :: Node.ofExprs args
  | .breakLoop line => [.stmt (.breakLoop line)]
  | .continueLoop line => [.stmt (.continueLoop line)]

def Stmt.nodesEach : List Stmt → List Node
  | [] => []
  | s :: ss => s.nodes ++ Stmt.nodesEach ss

def ElseBranch.nodes : ElseBranch → List Node
  | .absent => []
  | .elseIf cond body next => Node.ofExprs (Condition.exprs cond) ++ body.nodes ++ next.nodes
  | .otherwise body => body.nodes

end

mutual

/-- The calls of a statement, in the order of its nodes, but a call after those in its
arguments. -/
def Stmt.calls : Stmt → List CallSite
  | .exit value => Expr.callsEach value.toList
  | .letVar _ value _ => value.calls
  | .assign _ value _ => value.calls
  | .block body => Stmt.callsEach body
  | .print items => Expr.callsEach (PrintItem.exprs items)
  | .ifElse cond body other => Expr.callsEach (Condition.exprs cond) ++ body.calls ++ other.calls
  | .whileLoop cond body => Expr.callsEach (Condition.exprs cond) ++ body.calls
  | .forLoop init cond step body =>
    init.calls ++ Expr.callsEach (Condition.exprs cond) ++ step.calls ++ body.calls
  | .function _ _ body _ => body.calls
  | .ret value _ _ => Expr.callsEach value.toList
  | .call name args line => Expr.callsEach args ++ [⟨name, args.length, line⟩]
  | .breakLoop _ => []
  | .continueLoop _ => []

def Stmt.callsEach : List Stmt → List CallSite
  | [] => []
  | s :: ss => s.calls ++ Stmt.callsEach ss

def ElseBranch.calls : ElseBranch → List CallSite
  | .absent => []
  | .elseIf cond body next => Expr.callsEach (Condition.exprs cond) ++ body.calls ++ next.calls
  | .otherwise body => body.calls

end

def FunctionDecl.ofNode? : Node → Option FunctionDecl
  | .stmt (.function name params body line) => some ⟨name, params, body, line⟩
  | _ => none

def CallSite.ofNode? : Node → Option CallSite
  | .expr (.call name args line) => some ⟨name, args.length, line⟩
  | .stmt (.call name args line) => some ⟨name, args.length, line⟩
  | _ => none

namespace Program

def nodes (p : Program) : List Node := Stmt.nodesEach p

/-- All functions of a program, at any depth, in the order in which they are written. -/
def functions (p : Program) : List FunctionDecl := p.nodes.filterMap FunctionDecl.ofNode?

def calls (p : Program) : List CallSite := Stmt.callsEach p

end Program

end Stackwise
