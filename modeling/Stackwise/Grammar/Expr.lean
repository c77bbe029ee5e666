import Stackwise.Grammar.Basic
import Stackwise.Numeral
import Stackwise.Tree.Basic

/-! Expressions: terms joined by operators, which group by precedence and else to the left.

Terms nest, so reading one takes a bound on the nesting.  The number of tokens left always serves:
every level takes a token away, and with no token left a term fails as it fails at the end. -/
namespace Stackwise

/-- Operators of higher precedence bind tighter. -/
def BinOp.precedence : BinOp → Nat
  | add | sub => 0
  | mul | div => 1

def TokenKind.binOp? : TokenKind → Option BinOp
  | plus => some .add
  | minus => some .sub
  | star => some .mul
  | slash => some .div
  | _ => none

namespace Parse

/-- The operator at the front of the tokens, if it binds at least as tight as `least` says.  An
operator directly before quoted text joins no expressions: it separates the items of a `print`. -/
def operator? (least : Nat) : List Token → Option BinOp
  | [] => none
  | t :: ts =>
    match t.kind.binOp? with
    | some op =>
      if least ≤ op.precedence ∧ ts.head?.map Token.kind ≠ some .stringLit then some op else none
    | none => none

/-- Goes on after `lhs` as long as operators follow that bind at least as tight as `least` says.
The right operand of each takes the operators after it that bind tighter. -/
def climbMore (term : Parse Expr) : Nat → Nat → Expr → Parse Expr
  | 0, _, lhs => return lhs
  | n + 1, least, lhs => do
    match operator? least (← remaining) with
    | some op =>
      skip
      let first ← term
      let rhs ← climbMore term n (op.precedence + 1) first
      climbMore term n least (.bin op lhs rhs)
    | none => return lhs

def climb (term : Parse Expr) (least : Nat) : Parse Expr := do
  let n := (← remaining).length
  let first ← term
  climbMore term n least first

/-- One or more arguments and the closing parenthesis. -/
def argumentsMore (expr : Parse Expr) : Nat → Parse (List Expr)
  | 0 => expected .expression
  | n + 1 => do
    let arg ← expr
    if ← accept .closeParen then
      return [arg]
    else
      let _ ← expect .comma
      return arg :: (← argumentsMore expr n)

def arguments (expr : Parse Expr) : Parse (List Expr) := do
  let _ ← expect .openParen
  if ← accept .closeParen then
    return []
  else
    argumentsMore expr (← remaining).length

def intLiteral : Parse Expr := do
  let (text, line) ← expectText .intLit
  match Numeral.int64? text with
  | some value => return .int value
  | none => fail (.literalOutOfRange text) line

/-- A term of bounded nesting.  A minus sign before a term multiplies it by -1. -/
def term : Nat → Parse Expr
  | 0 => expected .expression
  | n + 1 => do
    match ← peek with
    | some .intLit => intLiteral
    | some .ident =>
      let (name, line) ← expectText .ident
      return .ident name line
    | some .fnName =>
      let (name, line) ← expectText .fnName
      return .call name (← arguments (climb (term n) 0)) line
    | some .openParen =>
      skip
      let inner ← climb (term n) 0
      let _ ← expect .closeParen
      return .paren inner
    | some .minus =>
      skip
      let operand ← term n
      return .paren (.bin .mul operand (.int (-1)))
    | _ => expected .expression

def expr : Parse Expr := do
  climb (term (← remaining).length) 0

end Parse

end Stackwise
