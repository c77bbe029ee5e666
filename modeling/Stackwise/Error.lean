import Stackwise.Diagnostic
import Stackwise.Token.Basic

/-! Why a text is rejected.  Every rejection has a cause; its kind and its wording are functions
of the cause. -/
namespace Stackwise

/-- What a production of the grammar was looking for. -/
inductive Expectation where
  | token (kind : TokenKind)
  | expression
  | statement
  | equalsAfter (name : String)
  | letOrAssignment
deriving DecidableEq, Repr

def Expectation.describe : Expectation → String
  | token kind => "`" ++ kind.name ++ "`"
  | expression => "expression"
  | statement => "statement"
  | equalsAfter name => "`=` after `" ++ name ++ "`"
  | letOrAssignment => "`let` or assignment"

inductive Cause where
  | unclosedComment
  | expected (what : Expectation) (found : Option TokenKind)
  | singleEquals
  | unmatchedClose
  | emptyScope
  | danglingElse
  | literalOutOfRange (text : String)
  | circularDefinition (name : String)
  | repeatedParameter (name function : String)
  | functionRedeclared (name : String) (line : Nat)
  | functionUndeclared (name : String)
  | arityMismatch (name : String) (expected received : Nat)
  | alreadyDeclared (name : String)
  | undeclared (name : String)
  | functionShadowsVariable (name : String)
  | returnOutsideFunction
  | breakOutsideLoop
  | continueOutsideLoop
  | tokenWithoutText (kind : TokenKind)
  | stackUnderflow (words height : Nat)
  | unbalancedScope (height outside : Nat)
  | emptyCondition
  | callOutsideTable (name : String)
  | unreachable (reason : String)
deriving DecidableEq, Repr

namespace Cause

def kind : Cause → ErrorKind
  | unclosedComment => .lexical
  | expected .. | singleEquals | unmatchedClose | emptyScope | danglingElse
  | literalOutOfRange _ => .syntactic
  | circularDefinition _ | repeatedParameter .. | functionRedeclared .. | functionUndeclared _
  | arityMismatch .. | alreadyDeclared _ | undeclared _ | functionShadowsVariable _
  | returnOutsideFunction | breakOutsideLoop | continueOutsideLoop => .semantic
  | tokenWithoutText _ | stackUnderflow .. | unbalancedScope .. | emptyCondition
  | callOutsideTable _ | unreachable _ => .internal

def message : Cause → String
  | unclosedComment => "Unterminated comment (add */ at the end)"
  | expected what none => "Expected " ++ what.describe ++ ", found end of input"
  | expected what (some kind) => "Expected " ++ what.describe ++ ", found `" ++ kind.name ++ "`"
  | singleEquals => "Expected `==` in condition, found a single `=`"
  | unmatchedClose => "Unmatched closing curly brace"
  | emptyScope => "Empty scope"
  | danglingElse => "There is an `else` with no `if` attached to it"
  | literalOutOfRange text => "Integer literal `" ++ text ++ "` is out of range"
  | circularDefinition name => "Identifier `" ++ name ++ "` has a circular definition"
  | repeatedParameter name function =>
    "Parameter `" ++ name ++ "` declared twice in `" ++ function ++ "`"
  | functionRedeclared name line =>
    "Function `" ++ name ++ "` already declared at line " ++ Numeral.decimal line
  | functionUndeclared name => "Function `" ++ name ++ "` not declared"
  | arityMismatch name arity received =>
    "Function `" ++ name ++ "` expects " ++ Numeral.decimal arity ++ " argument(s), received " ++
      Numeral.decimal received
  | alreadyDeclared name => "Identifier `" ++ name ++ "` already declared"
  | undeclared name => "Identifier `" ++ name ++ "` not declared"
  | functionShadowsVariable name =>
    "Function `" ++ name ++ "` collides with a variable of the same name"
  | returnOutsideFunction => "`return` outside of a function"
  | breakOutsideLoop => "`break` outside of a loop"
  | continueOutsideLoop => "`continue` outside of a loop"
  | tokenWithoutText kind => "`" ++ kind.name ++ "` token without text"
  | stackUnderflow words height =>
    "Operand stack underflow: removing " ++ Numeral.decimal words ++ " word(s) at height " ++
      Numeral.decimal height
  | unbalancedScope height outside =>
    "Operand stack height " ++ Numeral.decimal height ++ " does not match " ++
      Numeral.decimal outside ++ " at scope exit"
  | emptyCondition => "Empty condition chain"
  | callOutsideTable name => "Call to `" ++ name ++ "` does not match the function table"
  | unreachable reason => reason

end Cause

/-- A rejection: its cause and the line it is reported at.  Line `0` stands for no line of the
text. -/
structure Error where
  cause : Cause
  line : Nat
deriving DecidableEq, Repr

def Error.notice (e : Error) : Notice := ⟨e.cause.kind, e.cause.message, e.line⟩

end Stackwise
