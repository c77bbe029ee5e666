import Stackwise.Grammar.Stmt
import Stackwise.Token.Scan

/-! Reading from one list of tokens, call after call. -/
namespace Stackwise

/-- The tokens still to be read, and the line that a failure at their end is reported at. -/
structure Session where
  rest : List Token
  endLine : Nat
deriving DecidableEq, Repr

namespace Session

/-- The end of the tokens counts as on the line of the last one, on line 1 if there is none. -/
def ofTokens (ts : List Token) : Session := ⟨ts, (ts.getLast?.map Token.line).getD 1⟩

/-- One call: what it yields, and the session after it, also when it fails. -/
def read {α : Type} (s : Session) (p : Parse α) : Except Error α × Session :=
  match p s.rest with
  | .ok a rest => (.ok a, ⟨rest, s.endLine⟩)
  | .error fault rest => (.error ⟨fault.cause, fault.line.getD s.endLine⟩, ⟨rest, s.endLine⟩)

end Session

namespace Program

def ofTokens (ts : List Token) : Except Error Program :=
  ((Session.ofTokens ts).read Parse.program).1

def ofScan (s : Scan) : Except Error Program := s.result.bind ofTokens

end Program

end Stackwise
