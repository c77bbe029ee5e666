import Stackwise.Grammar.Condition
import Stackwise.Tree.Traversal

/-! Statements and programs.  As with terms, statements nest within a bound, and the number of
tokens left serves as one.  Productions that hold statements take the production for these as an
argument. -/
namespace Stackwise.Parse

def exitStmt : Parse Stmt := do
  let _ ← expect .kwExit
  let _ ← expect .openParen
  let value ← if (← peek) = some .closeParen then pure none else some <$> expr
  let _ ← expect .closeParen
  let _ ← expect .semi
  return .exit value

/-- A declaration.  The value may not mention the variable that it is for. -/
def letStmt : Parse Stmt := do
  let _ ← expect .kwLet
  let (name, line) ← expectText .ident
  let _ ← expect .eq
  let value ← expr
  let _ ← expect .semi
  match value.mentions.find? fun m => m.1 == name with
  | some (_, place) => fail (.circularDefinition name) place
  | none => return .letVar name value line

/-- What `+=` or `-=` adds or subtracts: an expression, or 1 where none is written. -/
def amount : Parse Expr := do
  match ← peek with
  | none | some .semi | some .closeParen => return .int 1
  | _ => expr

/-- The right side of `name += …` or `name -= …`. -/
def update (op : BinOp) (name : String) (line : Nat) : Parse Stmt := do
  skip
  skip
  return .assign name (.bin op (.ident name line) (← amount)) line

/-- An assignment or a call, without the semicolon. -/
def assignment : Parse Stmt := do
  if (← peek) = some .fnName then
    let (name, line) ← expectText .fnName
    return .call name (← arguments expr) line
  else
    let (name, line) ← expectText .ident
    match (← remaining).map Token.kind with
    | .eq :: _ =>
      skip
      return .assign name (← expr) line
    | .plus :: .eq :: _ => update .add name line
    | .minus :: .eq :: _ => update .sub name line
    | _ => expected (.equalsAfter name)

def assignmentStmt : Parse Stmt := do
  let s ← assignment
  let _ ← expect .semi
  return s

def printItem : Parse PrintItem := do
  match ← remaining with
  | ⟨.stringLit, literal, _⟩ :: _ =>
    skip
    return .str (literal.getD "")
  | _ => return .expr (← expr)

/-- The items of a `print` after the first, each behind a plus sign. -/
def printItems : Nat → Parse (List PrintItem)
  | 0 => return []
  | n + 1 => do
    if ← accept .plus then
      let s ← printItem
      return s :: (← printItems n)
    else
      return []

/-- What is written ends with a newline, in the last text or in one of its own. -/
def endLine : List PrintItem → List PrintItem
  | [] => [.str "\n"]
  | [.str text] => [.str (text ++ "\n")]
  | s :: ss => s :: endLine ss

def printStmt : Parse Stmt := do
  let _ ← expect .kwPrint
  let _ ← expect .openParen
  let items ←
    if (← peek) = some .closeParen then
      pure []
    else do
      let first ← printItem
      pure (first :: (← printItems (← remaining).length))
  let _ ← expect .closeParen
  let _ ← expect .semi
  return .print (endLine items)

def blockRest (stmt : Parse Stmt) : Nat → Parse (List Stmt)
  | 0 => expected (.token .closeCurly)
  | n + 1 => do
    match ← peek with
    | none => expected (.token .closeCurly)
    | some .closeCurly =>
      skip
      return []
    | some _ =>
      let s ← stmt
      return s :: (← blockRest stmt n)

/-- Statements in braces, at least one. -/
def block (stmt : Parse Stmt) : Parse Stmt := do
  let _ ← expect .openCurly
  if (← peek) = some .closeCurly then
    refuse .emptyScope
  else
    return .block (← blockRest stmt (← remaining).length)

def elseBranch (stmt : Parse Stmt) : Nat → Parse ElseBranch
  | 0 => return .absent
  | n + 1 => do
    if ← accept .kwElse then
      if ← accept .kwIf then
        let cond ← parenCondition
        let body ← stmt
        return .elseIf cond body (← elseBranch stmt n)
      else
        return .otherwise (← stmt)
    else
      return .absent

def ifStmt (stmt : Parse Stmt) : Parse Stmt := do
  let _ ← expect .kwIf
  let cond ← parenCondition
  let body ← stmt
  return .ifElse cond body (← elseBranch stmt (← remaining).length)

def whileStmt (stmt : Parse Stmt) : Parse Stmt := do
  let _ ← expect .kwWhile
  let cond ← parenCondition
  return .whileLoop cond (← stmt)

def forInit : Parse Stmt := do
  match ← peek with
  | some .kwLet => letStmt
  | some .ident => assignmentStmt
  | _ => expected .letOrAssignment

/-- A `for`.  A semicolon after the step is allowed. -/
def forStmt (stmt : Parse Stmt) : Parse Stmt := do
  let _ ← expect .kwFor
  let _ ← expect .openParen
  let init ← forInit
  let cond ← condition
  let _ ← expect .semi
  let step ← assignment
  let _ ← accept .semi
  let _ ← expect .closeParen
  return .forLoop init cond step (← stmt)

/-- One or more parameters of `function`, none of them in `seen`, and the closing parenthesis. -/
def paramsMore (function : String) : Nat → List String → Parse (List String)
  | 0, _ => expected (.token .ident)
  | n + 1, seen => do
    let (name, line) ← expectText .ident
    if name ∈ seen then
      fail (.repeatedParameter name function) line
    else if ← accept .closeParen then
      return [name]
    else
      let _ ← expect .comma
      return name :: (← paramsMore function n (name :: seen))

def params (function : String) : Parse (List String) := do
  let _ ← expect .openParen
  if ← accept .closeParen then
    return []
  else
    paramsMore function (← remaining).length []

def functionStmt (body : Parse Stmt) : Parse Stmt := do
  let _ ← expect .kwFn
  let (name, line) ← expectText .fnName
  let names ← params name
  return .function name names (← body) line

/-- A `return`, marked by whether it stands in a function. -/
def returnStmt (inFunction : Bool) : Parse Stmt := do
  let word ← expect .kwReturn
  let value ← if (← peek) = some .semi then pure none else some <$> expr
  let _ ← expect .semi
  return .ret value inFunction word.line

def breakStmt : Parse Stmt := do
  let word ← expect .kwBreak
  let _ ← expect .semi
  return .breakLoop word.line

def continueStmt : Parse Stmt := do
  let word ← expect .kwContinue
  let _ ← expect .semi
  return .continueLoop word.line

def stmtWithin : Nat → Bool → Parse Stmt
  | 0, _ => expected .statement
  | n + 1, inFunction => do
    match ← peek with
    | some .kwExit => exitStmt
    | some .kwLet => letStmt
    | some .openCurly => block (stmtWithin n inFunction)
    | some .closeCurly => refuse .unmatchedClose
    | some .kwPrint => printStmt
    | some .kwIf => ifStmt (stmtWithin n inFunction)
    | some .kwElse => refuse .danglingElse
    | some .kwWhile => whileStmt (stmtWithin n inFunction)
    | some .kwFor => forStmt (stmtWithin n inFunction)
    | some .kwFn => functionStmt (stmtWithin n true)
    | some .kwReturn => returnStmt inFunction
    | some .kwBreak => breakStmt
    | some .kwContinue => continueStmt
    | some .ident | some .fnName => assignmentStmt
    | _ => expected .statement

def stmt : Parse Stmt := do
  stmtWithin (← remaining).length false

def blockStmt : Parse Stmt := block stmt

def programRest : Nat → Parse Program
  | 0 => return []
  | n + 1 => do
    if (← peek).isNone then
      return []
    else
      let s ← stmt
      return s :: (← programRest n)

def program : Parse Program := do
  programRest (← remaining).length

end Stackwise.Parse
