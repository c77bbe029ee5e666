import Stackwise.Error

/-! Reading tokens.  A production takes tokens off the front of a list; it keeps what is left both
when it succeeds and when it fails, so reading can go on after a failure. -/
namespace Stackwise

/-- Why a production failed, and on which line.  No line stands for the end of the tokens. -/
structure Fault where
  cause : Cause
  line : Option Nat
deriving DecidableEq, Repr

abbrev Parse := EStateM Fault (List Token)

namespace Parse

theorem bind_eq_ok {α β : Type} {p : Parse α} {f : α → Parse β} {ts rest : List Token} {b : β} :
    (p >>= f) ts = .ok b rest ↔ ∃ a mid, p ts = .ok a mid ∧ f a mid = .ok b rest := by
  change EStateM.bind p f ts = .ok b rest ↔ _
  unfold EStateM.bind
  cases h : p ts <;> simp [and_assoc]

theorem bind_eq_error {α β : Type} {p : Parse α} {f : α → Parse β} {ts rest : List Token}
    {e : Fault} :
    (p >>= f) ts = .error e rest ↔
      p ts = .error e rest ∨ ∃ a mid, p ts = .ok a mid ∧ f a mid = .error e rest := by
  change EStateM.bind p f ts = .error e rest ↔ _
  unfold EStateM.bind
  cases h : p ts <;> simp [and_assoc]

def remaining : Parse (List Token) := fun ts => .ok ts ts

def peek : Parse (Option TokenKind) := fun ts => .ok (ts.head?.map Token.kind) ts

def skip : Parse Unit := fun ts => .ok () ts.tail

def fail {α : Type} (cause : Cause) (line : Nat) : Parse α := fun ts => .error ⟨cause, some line⟩ ts

/-- Fails at the next token, which is left where it is. -/
def refuse {α : Type} (cause : Cause) : Parse α := fun ts =>
  .error ⟨cause, ts.head?.map Token.line⟩ ts

/-- Fails for want of something else than the next token. -/
def expected {α : Type} (what : Expectation) : Parse α := fun ts =>
  .error ⟨.expected what (ts.head?.map Token.kind), ts.head?.map Token.line⟩ ts

def expect (kind : TokenKind) : Parse Token
  | [] => expected (.token kind) []
  | t :: ts => if t.kind = kind then .ok t ts else expected (.token kind) (t :: ts)

theorem expect_eq_ok {kind : TokenKind} {t : Token} {ts rest : List Token} :
    expect kind ts = .ok t rest ↔ ts = t :: rest ∧ t.kind = kind := by
  cases ts with
  | nil => simp [expect, expected]
  | cons u ts => by_cases h : u.kind = kind <;> simp [expect, expected, h] <;> grind

/-- Takes a token of one kind if it comes next, and says whether it did. -/
def accept (kind : TokenKind) : Parse Bool
  | [] => .ok false []
  | t :: ts => if t.kind = kind then .ok true ts else .ok false (t :: ts)

/-- Takes a token of one kind, which must carry a text, for its text and line. -/
def expectText (kind : TokenKind) : Parse (String × Nat) := do
  let t ← expect kind
  match t.literal with
  | some text => return (text, t.line)
  | none => fail (.tokenWithoutText kind) t.line

end Parse

end Stackwise
