import Stackwise.Text.Quoted
import Stackwise.Tree.Basic

/-! Trees as text: nested lists in parentheses, with conditions in brackets.  Parentheses of the
source leave no trace. -/
namespace Stackwise

def BinOp.render : BinOp → String
  | add => "+"
  | sub => "-"
  | mul => "*"
  | div => "/"

def Comparison.render : Comparison → String
  | eq => "=="
  | ge => ">="
  | le => "<="
  | lt => "<"
  | gt => ">"

def Connector.render : Connector → String
  | and => "&&"
  | or => "||"

mutual

def Expr.render : Expr → String
  | .int value => Numeral.signed value.toInt
  | .ident name _ => name
  | .paren inner => inner.render
  | .call name args _ => "(call " ++ name ++ Expr.renderEach args ++ ")"
  | .bin op lhs rhs => "(" ++ op.render ++ " " ++ lhs.render ++ " " ++ rhs.render ++ ")"

def Expr.renderEach : List Expr → String
  | [] => ""
  | e :: es => " " ++ e.render ++ Expr.renderEach es

end

def Link.render (c : Link) : String :=
  match c.comparison with
  | some (cmp, rhs) => "(" ++ cmp.render ++ " " ++ c.lhs.render ++ " " ++ rhs.render ++ ")"
  | none => c.lhs.render

/-- The links after the first, each behind its connector. -/
def Condition.renderRest : Condition → String
  | [] => ""
  | c :: cs => " " ++ c.connector.render ++ " " ++ c.render ++ Condition.renderRest cs

def Condition.render : Condition → String
  | [] => ""
  | c :: cs => c.render ++ Condition.renderRest cs

def PrintItem.render : PrintItem → String
  | str text => Text.quoted text
  | expr value => value.render

mutual

def Stmt.render : Stmt → String
  | .exit none => "(exit)"
  | .exit (some value) => "(exit " ++ value.render ++ ")"
  | .letVar name value _ => "(let " ++ name ++ " " ++ value.render ++ ")"
  | .assign name value _ => "(= " ++ name ++ " " ++ value.render ++ ")"
  | .block body => "(block" ++ Stmt.renderEach body ++ ")"
  | .print items => "(print" ++ String.join (items.map fun s => " " ++ s.render) ++ ")"
  | .ifElse cond body other =>
    "(if [" ++ Condition.render cond ++ "] " ++ body.render ++ other.render ++ ")"
  | .whileLoop cond body => "(while [" ++ Condition.render cond ++ "] " ++ body.render ++ ")"
  | .forLoop init cond step body =>
    "(for " ++ init.render ++ " [" ++ Condition.render cond ++ "] " ++ step.render ++ " " ++
      body.render ++ ")"
  | .function name params body _ =>
    "(fn " ++ name ++ " (" ++ " ".intercalate params ++ ") " ++ body.render ++ ")"
  | .ret value inFunction _ =>
    let word := if inFunction then "return" else "return!"
    match value with
    | none => "(" ++ word ++ ")"
    | some value => "(" ++ word ++ " " ++ value.render ++ ")"
  | .call name args _ => "(call " ++ name ++ Expr.renderEach args ++ ")"
  | .breakLoop _ => "(break)"
  | .continueLoop _ => "(continue)"

def Stmt.renderEach : List Stmt → String
  | [] => ""
  | s :: ss => " " ++ s.render ++ Stmt.renderEach ss

/-- A branch with a space before it, nothing if there is none. -/
def ElseBranch.render : ElseBranch → String
  | .absent => ""
  | .elseIf cond body next =>
    " (elif [" ++ Condition.render cond ++ "] " ++ body.render ++ next.render ++ ")"
  | .otherwise body => " (else " ++ body.render ++ ")"

end

/-- Statements, one a line. -/
def Program.render (p : Program) : String := "\n".intercalate (p.map Stmt.render)

end Stackwise
