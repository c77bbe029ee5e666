import Stackwise.Tree.Basic

/-! Functions by depth: those of a program that stand in no other function, then those that stand
in one other, and so on. -/
namespace Stackwise

mutual

/-- The functions of a statement that stand in no function inside it, in the order in which code is
made: the body of a `for` comes before its step. -/
def Stmt.outerFunctions : Stmt → List FunctionDecl
  | .exit _ => []
  | .letVar .. => []
  | .assign .. => []
  | .block body => Stmt.outerFunctionsEach body
  | .print _ => []
  | .ifElse _ body other => body.outerFunctions ++ other.outerFunctions
  | .whileLoop _ body => body.outerFunctions
  | .forLoop init _ step body =>
    init.outerFunctions ++ body.outerFunctions ++ step.outerFunctions
  | .function name params body line => [⟨name, params, body, line⟩]
  | .ret .. => []
  | .call .. => []
  | .breakLoop _ => []
  | .continueLoop _ => []

def Stmt.outerFunctionsEach : List Stmt → List FunctionDecl
  | [] => []
  | s :: ss => s.outerFunctions ++ Stmt.outerFunctionsEach ss

def ElseBranch.outerFunctions : ElseBranch → List FunctionDecl
  | .absent => []
  | .elseIf _ body next => body.outerFunctions ++ next.outerFunctions
  | .otherwise body => body.outerFunctions

end

mutual

def Stmt.functionCount : Stmt → Nat
  | .exit _ => 0
  | .letVar .. => 0
  | .assign .. => 0
  | .block body => Stmt.functionCountEach body
  | .print _ => 0
  | .ifElse _ body other => body.functionCount + other.functionCount
  | .whileLoop _ body => body.functionCount
  | .forLoop init _ step body => init.functionCount + body.functionCount + step.functionCount
  | .function _ _ body _ => body.functionCount + 1
  | .ret .. => 0
  | .call .. => 0
  | .breakLoop _ => 0
  | .continueLoop _ => 0

def Stmt.functionCountEach : List Stmt → Nat
  | [] => 0
  | s :: ss => s.functionCount + Stmt.functionCountEach ss

def ElseBranch.functionCount : ElseBranch → Nat
  | .absent => 0
  | .elseIf _ body next => body.functionCount + next.functionCount
  | .otherwise body => body.functionCount

end

/-- A function and those inside it. -/
def FunctionDecl.count (f : FunctionDecl) : Nat := f.body.functionCount + 1

def FunctionDecl.countAll : List FunctionDecl → Nat
  | [] => 0
  | f :: fs => f.count + FunctionDecl.countAll fs

@[simp] theorem FunctionDecl.countAll_append (fs gs : List FunctionDecl) :
    FunctionDecl.countAll (fs ++ gs) = FunctionDecl.countAll fs + FunctionDecl.countAll gs := by
  induction fs with
  | nil => simp [FunctionDecl.countAll]
  | cons f fs ih => simp [FunctionDecl.countAll, ih, Nat.add_assoc]

mutual

@[simp] theorem Stmt.countAll_outerFunctions :
    (s : Stmt) → FunctionDecl.countAll s.outerFunctions = s.functionCount
  | .exit _ | .letVar .. | .assign .. | .print _ | .ret .. | .call .. | .breakLoop _
  | .continueLoop _ => rfl
  | .block body => Stmt.countAll_outerFunctionsEach body
  | .ifElse _ body other => by
    simp [Stmt.outerFunctions, Stmt.functionCount, Stmt.countAll_outerFunctions body,
      ElseBranch.countAll_outerFunctions other]
  | .whileLoop _ body => Stmt.countAll_outerFunctions body
  | .forLoop init _ step body => by
    simp [Stmt.outerFunctions, Stmt.functionCount, Stmt.countAll_outerFunctions init,
      Stmt.countAll_outerFunctions step, Stmt.countAll_outerFunctions body, Nat.add_assoc]
  | .function .. => rfl

theorem Stmt.countAll_outerFunctionsEach :
    (ss : List Stmt) →
      FunctionDecl.countAll (Stmt.outerFunctionsEach ss) = Stmt.functionCountEach ss
  | [] => rfl
  | s :: ss => by
    simp [Stmt.outerFunctionsEach, Stmt.functionCountEach, Stmt.countAll_outerFunctions s,
      Stmt.countAll_outerFunctionsEach ss]

theorem ElseBranch.countAll_outerFunctions :
    (other : ElseBranch) → FunctionDecl.countAll other.outerFunctions = other.functionCount
  | .absent => rfl
  | .elseIf _ body next => by
    simp [ElseBranch.outerFunctions, ElseBranch.functionCount, Stmt.countAll_outerFunctions body,
      ElseBranch.countAll_outerFunctions next]
  | .otherwise body => Stmt.countAll_outerFunctions body

end

/-- Functions from a queue, each followed, behind all that wait, by the functions inside it. -/
def FunctionDecl.breadthFirst : List FunctionDecl → List FunctionDecl
  | [] => []
  | f :: fs => f :: FunctionDecl.breadthFirst (fs ++ f.body.outerFunctions)
termination_by fs => FunctionDecl.countAll fs
decreasing_by simp [FunctionDecl.countAll, FunctionDecl.count]; omega

/-- All functions of a program, in the order in which their code is made. -/
def Program.functionsByDepth (p : Program) : List FunctionDecl :=
  FunctionDecl.breadthFirst (Stmt.outerFunctionsEach p)

end Stackwise
