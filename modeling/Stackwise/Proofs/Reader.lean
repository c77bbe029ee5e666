import Stackwise.Grammar.Session

/-! A reader that goes along its tokens by an index, and counts the functions that it is inside of.
It reads what the productions read, but it can do wrong: cut tokens out of range, take a token for
an operator that is none, or leave a function that it never entered.  All of these are crashes.
Its loops go on for as long as they like; running out of the number of rounds that they are given is
an overrun, not an answer. -/
namespace Stackwise

structure Reader where
  tokens : List Token
  /-- Where the next token stands. -/
  index : Nat
  /-- How many functions the reader is inside of. -/
  depth : Nat
deriving DecidableEq, Repr

inductive Stop where
  | error (e : Error)
  | crash
  | overrun
deriving DecidableEq, Repr

namespace Reader

def ofTokens (ts : List Token) : Reader := ⟨ts, 0, 0⟩

/-- The line of the next token, of the last one at the end. -/
def line (r : Reader) : Nat :=
  ((r.tokens[r.index]? <|> r.tokens.getLast?).map Token.line).getD 1

end Reader

/-- What binds two operands, by its precedence. -/
def TokenKind.precedence? : TokenKind → Option Nat
  | plus | minus => some 0
  | star | slash => some 1
  | _ => none

abbrev Reading := EStateM Stop Reader

namespace Reading

variable {α : Type}

section Moves

def peek (offset : Nat) : Reading (Option TokenKind) := fun r =>
  .ok (r.tokens[r.index + offset]?.map Token.kind) r

def next : Reading Unit := fun r =>
  .ok () (if r.index < r.tokens.length then { r with index := r.index + 1 } else r)

def crash : Reading α := throw .crash

def overrun : Reading α := throw .overrun

def fail (cause : Cause) (line : Nat) : Reading α := throw (.error ⟨cause, line⟩)

def refuse (cause : Cause) : Reading α := fun r => .error (.error ⟨cause, r.line⟩) r

def expected (what : Expectation) : Reading α := do
  refuse (.expected what (← peek 0))

def eat (kind : TokenKind) : Reading (Option Token) := fun r =>
  match r.tokens[r.index]? with
  | some t => if t.kind = kind then .ok t { r with index := r.index + 1 } else .ok none r
  | none => .ok none r

def accept (kind : TokenKind) : Reading Bool := do
  return (← eat kind).isSome

def expect (kind : TokenKind) : Reading Token := do
  match ← eat kind with
  | some t => return t
  | none => expected (.token kind)

def expectText (kind : TokenKind) : Reading (String × Nat) := do
  let t ← expect kind
  match t.literal with
  | some text => return (text, t.line)
  | none => fail (.tokenWithoutText kind) t.line

def index : Reading Nat := fun r => .ok r.index r

/-- The tokens from one place up to another, which both have to be there. -/
def slice (start stop : Nat) : Reading (List Token) := fun r =>
  if start ≤ stop ∧ stop ≤ r.tokens.length then .ok ((r.tokens.take stop).drop start) r
  else .error .crash r

/-- Goes out of a function, which the reader has to be in. -/
def leave : Reading Unit := fun r =>
  if r.depth = 0 then .error .crash r else .ok () { r with depth := r.depth - 1 }

/-- Reads inside a function, and leaves the function also when that fails. -/
def nested (body : Reading α) : Reading α := fun r =>
  match body { r with depth := r.depth + 1 } with
  | .ok a r => (leave >>= fun _ => pure a) r
  | .error stop r => (leave >>= fun _ => throw stop) r

end Moves

section Expressions

/-- The kind of the next token and its precedence, if that is an operator which binds at least as
tight as `least` says and does not stand before text. -/
def operator? (least : Nat) : Reading (Option (TokenKind × Nat)) := do
  match ← peek 0 with
  | some kind =>
    match kind.precedence? with
    | some precedence =>
      if least ≤ precedence ∧ (← peek 1) ≠ some .stringLit then return some (kind, precedence)
      else return none
    | none => return none
  | none => return none

/-- What an operator stands for.  Nothing else may be asked for. -/
def binOp (kind : TokenKind) : Reading BinOp :=
  match kind.binOp? with
  | some op => return op
  | none => crash

def climbMore (term : Reading Expr) : Nat → Nat → Expr → Reading Expr
  | 0, _, _ => overrun
  | n + 1, least, lhs => do
    match ← operator? least with
    | some (kind, precedence) =>
      next
      let first ← term
      let rhs ← climbMore term n (precedence + 1) first
      climbMore term n least (.bin (← binOp kind) lhs rhs)
    | none => return lhs

def climb (n : Nat) (term : Reading Expr) (least : Nat) : Reading Expr := do
  climbMore term n least (← term)

def argumentsMore (expr : Reading Expr) : Nat → Reading (List Expr)
  | 0 => overrun
  | n + 1 => do
    let arg ← expr
    if ← accept .closeParen then
      return [arg]
    else
      let _ ← expect .comma
      return arg :: (← argumentsMore expr n)

def arguments (n : Nat) (expr : Reading Expr) : Reading (List Expr) := do
  let _ ← expect .openParen
  if ← accept .closeParen then
    return []
  else
    argumentsMore expr n

def intLiteral : Reading Expr := do
  let (text, line) ← expectText .intLit
  match Numeral.int64? text with
  | some value => return .int value
  | none => fail (.literalOutOfRange text) line

def term : Nat → Reading Expr
  | 0 => overrun
  | n + 1 => do
    match ← peek 0 with
    | some .intLit => intLiteral
    | some .ident =>
      let (name, line) ← expectText .ident
      return .ident name line
    | some .fnName =>
      let (name, line) ← expectText .fnName
      return .call name (← arguments n (climb n (term n) 0)) line
    | some .openParen =>
      next
      let inner ← climb n (term n) 0
      let _ ← expect .closeParen
      return .paren inner
    | some .minus =>
      next
      let operand ← term n
      return .paren (.bin .mul operand (.int (-1)))
    | _ => expected .expression

def expr (n : Nat) : Reading Expr := climb n (term n) 0

end Expressions

section Conditions

def comparison? : Reading (Option Comparison) := do
  match ← peek 0 with
  | some .eq =>
    let first ← expect .eq
    if ← accept .eq then
      return some .eq
    else
      fail .singleEquals first.line
  | some .gt =>
    next
    return some (if ← accept .eq then .ge else .gt)
  | some .lt =>
    next
    return some (if ← accept .eq then .le else .lt)
  | _ => return none

def link (n : Nat) (connector : Connector) : Reading Link := do
  let lhs ← expr n
  match ← comparison? with
  | some cmp => return ⟨lhs, some (cmp, ← expr n), connector⟩
  | none => return ⟨lhs, none, connector⟩

/-- The links after the first.  Each link reads expressions within the bound `m`. -/
def links (m : Nat) : Nat → Reading Condition
  | 0 => overrun
  | n + 1 => do
    if ← accept .and then
      let c ← link m .and
      return c :: (← links m n)
    else if ← accept .or then
      let c ← link m .or
      return c :: (← links m n)
    else
      return []

def condition (n : Nat) : Reading Condition := do
  let first ← link n .and
  return first :: (← links n n)

def parenCondition (n : Nat) : Reading Condition := do
  let _ ← expect .openParen
  let cond ← condition n
  let _ ← expect .closeParen
  return cond

end Conditions

section Statements

def exitStmt (n : Nat) : Reading Stmt := do
  let _ ← expect .kwExit
  let _ ← expect .openParen
  let value ← if (← peek 0) = some .closeParen then pure none else some <$> expr n
  let _ ← expect .closeParen
  let _ ← expect .semi
  return .exit value

/-- A declaration.  None of the tokens that were taken for the value may be the variable. -/
def letStmt (n : Nat) : Reading Stmt := do
  let _ ← expect .kwLet
  let (name, line) ← expectText .ident
  let _ ← expect .eq
  let start ← index
  let value ← expr n
  let _ ← expect .semi
  let taken ← slice start (← index)
  match taken.find? fun t => t.kind = .ident ∧ t.literal = some name with
  | some t => fail (.circularDefinition name) t.line
  | none => return .letVar name value line

def amount (n : Nat) : Reading Expr := do
  match ← peek 0 with
  | none | some .semi | some .closeParen => return .int 1
  | _ => expr n

def update (n : Nat) (op : BinOp) (name : String) (line : Nat) : Reading Stmt := do
  next
  next
  return .assign name (.bin op (.ident name line) (← amount n)) line

def assignment (n : Nat) : Reading Stmt := do
  if (← peek 0) = some .fnName then
    let (name, line) ← expectText .fnName
    return .call name (← arguments n (expr n)) line
  else
    let (name, line) ← expectText .ident
    match ← peek 0, ← peek 1 with
    | some .eq, _ =>
      next
      return .assign name (← expr n) line
    | some .plus, some .eq => update n .add name line
    | some .minus, some .eq => update n .sub name line
    | _, _ => expected (.equalsAfter name)

def assignmentStmt (n : Nat) : Reading Stmt := do
  let s ← assignment n
  let _ ← expect .semi
  return s

def printItem (n : Nat) : Reading PrintItem := do
  match ← eat .stringLit with
  | some t => return .str (t.literal.getD "")
  | none => return .expr (← expr n)

/-- The items after the first.  Each reads an expression within the bound `m`. -/
def printItems (m : Nat) : Nat → Reading (List PrintItem)
  | 0 => overrun
  | n + 1 => do
    if ← accept .plus then
      let s ← printItem m
      return s :: (← printItems m n)
    else
      return []

def printStmt (n : Nat) : Reading Stmt := do
  let _ ← expect .kwPrint
  let _ ← expect .openParen
  let items ←
    if (← peek 0) = some .closeParen then
      pure []
    else do
      let first ← printItem n
      pure (first :: (← printItems n n))
  let _ ← expect .closeParen
  let _ ← expect .semi
  return .print (Parse.endLine items)

def blockRest (stmt : Reading Stmt) : Nat → Reading (List Stmt)
  | 0 => overrun
  | n + 1 => do
    match ← peek 0 with
    | none => expected (.token .closeCurly)
    | some .closeCurly =>
      next
      return []
    | some _ =>
      let s ← stmt
      return s :: (← blockRest stmt n)

def block (n : Nat) (stmt : Reading Stmt) : Reading Stmt := do
  let _ ← expect .openCurly
  if (← peek 0) = some .closeCurly then
    refuse .emptyScope
  else
    return .block (← blockRest stmt n)

/-- Each branch reads its condition within the bound `m`. -/
def elseBranch (m : Nat) (stmt : Reading Stmt) : Nat → Reading ElseBranch
  | 0 => overrun
  | n + 1 => do
    if ← accept .kwElse then
      if ← accept .kwIf then
        let cond ← parenCondition m
        let body ← stmt
        return .elseIf cond body (← elseBranch m stmt n)
      else
        return .otherwise (← stmt)
    else
      return .absent

def ifStmt (n : Nat) (stmt : Reading Stmt) : Reading Stmt := do
  let _ ← expect .kwIf
  let cond ← parenCondition n
  let body ← stmt
  return .ifElse cond body (← elseBranch n stmt n)

def whileStmt (n : Nat) (stmt : Reading Stmt) : Reading Stmt := do
  let _ ← expect .kwWhile
  let cond ← parenCondition n
  return .whileLoop cond (← stmt)

def forInit (n : Nat) : Reading Stmt := do
  match ← peek 0 with
  | some .kwLet => letStmt n
  | some .ident => assignmentStmt n
  | _ => expected .letOrAssignment

def forStmt (n : Nat) (stmt : Reading Stmt) : Reading Stmt := do
  let _ ← expect .kwFor
  let _ ← expect .openParen
  let init ← forInit n
  let cond ← condition n
  let _ ← expect .semi
  let step ← assignment n
  let _ ← accept .semi
  let _ ← expect .closeParen
  return .forLoop init cond step (← stmt)

def paramsMore (function : String) : Nat → List String → Reading (List String)
  | 0, _ => overrun
  | n + 1, seen => do
    let (name, line) ← expectText .ident
    if name ∈ seen then
      fail (.repeatedParameter name function) line
    else if ← accept .closeParen then
      return [name]
    else
      let _ ← expect .comma
      return name :: (← paramsMore function n (name :: seen))

def params (n : Nat) (function : String) : Reading (List String) := do
  let _ ← expect .openParen
  if ← accept .closeParen then
    return []
  else
    paramsMore function n []

def functionStmt (n : Nat) (stmt : Reading Stmt) : Reading Stmt := do
  let _ ← expect .kwFn
  let (name, line) ← expectText .fnName
  let names ← params n name
  return .function name names (← nested stmt) line

/-- A `return`, marked by whether the reader is inside a function at its end. -/
def returnStmt (n : Nat) : Reading Stmt := do
  let word ← expect .kwReturn
  let value ← if (← peek 0) = some .semi then pure none else some <$> expr n
  let _ ← expect .semi
  return .ret value (decide (0 < (← get).depth)) word.line

def breakStmt : Reading Stmt := do
  let word ← expect .kwBreak
  let _ ← expect .semi
  return .breakLoop word.line

def continueStmt : Reading Stmt := do
  let word ← expect .kwContinue
  let _ ← expect .semi
  return .continueLoop word.line

def stmt : Nat → Reading Stmt
  | 0 => overrun
  | n + 1 => do
    match ← peek 0 with
    | some .kwExit => exitStmt n
    | some .kwLet => letStmt n
    | some .openCurly => block n (stmt n)
    | some .closeCurly => refuse .unmatchedClose
    | some .kwPrint => printStmt n
    | some .kwIf => ifStmt n (stmt n)
    | some .kwElse => refuse .danglingElse
    | some .kwWhile => whileStmt n (stmt n)
    | some .kwFor => forStmt n (stmt n)
    | some .kwFn => functionStmt n (stmt n)
    | some .kwReturn => returnStmt n
    | some .kwBreak => breakStmt
    | some .kwContinue => continueStmt
    | some .ident | some .fnName => assignmentStmt n
    | _ => expected .statement

def blockStmt (n : Nat) : Reading Stmt := block n (stmt n)

/-- Each statement is read within the bound `m`. -/
def programRest (m : Nat) : Nat → Reading Program
  | 0 => overrun
  | n + 1 => do
    if (← peek 0).isNone then
      return []
    else
      let s ← stmt m
      return s :: (← programRest m n)

def program (n : Nat) : Reading Program := programRest n n

end Statements

end Reading

end Stackwise
