import Stackwise.Grammar.Expr

/-! Conditions: links joined by `&&` and `||`. -/
namespace Stackwise.Parse

/-- The comparison at the front of the tokens, if there is one.  A single `=` is none. -/
def comparison? : Parse (Option Comparison) := do
  match ← peek with
  | some .eq =>
    let first ← expect .eq
    if ← accept .eq then
      return some .eq
    else
      fail .singleEquals first.line
  | some .gt =>
    skip
    return some (if ← accept .eq then .ge else .gt)
  | some .lt =>
    skip
    return some (if ← accept .eq then .le else .lt)
  | _ => return none

def link (connector : Connector) : Parse Link := do
  let lhs ← expr
  match ← comparison? with
  | some cmp => return ⟨lhs, some (cmp, ← expr), connector⟩
  | none => return ⟨lhs, none, connector⟩

def links : Nat → Parse Condition
  | 0 => return []
  | n + 1 => do
    if ← accept .and then
      let c ← link .and
      return c :: (← links n)
    else if ← accept .or then
      let c ← link .or
      return c :: (← links n)
    else
      return []

/-- A condition.  Its first link counts as joined by `&&`. -/
def condition : Parse Condition := do
  let first ← link .and
  return first :: (← links (← remaining).length)

def parenCondition : Parse Condition := do
  let _ ← expect .openParen
  let cond ← condition
  let _ ← expect .closeParen
  return cond

end Stackwise.Parse
