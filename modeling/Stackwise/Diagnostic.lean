import Stackwise.Numeral

/-! Diagnostics: what a run reports about a source text, in the order in which it was found. -/
namespace Stackwise

inductive Severity where
  | warning | error
deriving DecidableEq, Repr

def Severity.tag : Severity → String
  | warning => "WARNING:"
  | error => "ERROR:"

structure Diagnostic where
  severity : Severity
  message : String
  line : Nat
deriving DecidableEq, Repr

def Diagnostic.render (d : Diagnostic) : String :=
  d.severity.tag ++ " " ++ d.message ++ " at line " ++ Numeral.decimal d.line ++ "\n"

inductive ErrorKind where
  | lexical | syntactic | semantic | internal
deriving DecidableEq, Repr

def ErrorKind.name : ErrorKind → String
  | lexical => "lexical error"
  | syntactic => "syntax error"
  | semantic => "semantic error"
  | internal => "internal error"

/-- A rejection as it is shown: its kind, its wording, and the line it is reported at. -/
structure Notice where
  kind : ErrorKind
  message : String
  line : Nat
deriving DecidableEq, Repr

namespace Notice

def headline (n : Notice) : String :=
  n.kind.name ++ " at line " ++ Numeral.decimal n.line ++ ": " ++ n.message

def diagnostic (n : Notice) : Diagnostic :=
  ⟨.error, n.kind.name ++ ": " ++ n.message, n.line⟩

end Notice

/-- The diagnostics of one source text, oldest first. -/
abbrev Log := List Diagnostic

namespace Log

/-- Warnings alone do not make a log erroneous. -/
def hasErrors (log : Log) : Bool := log.any fun d => d.severity == .error

def warn (log : Log) (message : String) (line : Nat) : Log := log ++ [⟨.warning, message, line⟩]

def reject (log : Log) (n : Notice) : Log := log ++ [n.diagnostic]

def render (log : Log) : String := String.join (log.map Diagnostic.render)

@[simp] theorem hasErrors_warn (log : Log) (message : String) (line : Nat) :
    (log.warn message line).hasErrors = log.hasErrors := by
  simp [hasErrors, warn]

@[simp] theorem hasErrors_reject (log : Log) (n : Notice) : (log.reject n).hasErrors = true := by
  simp [hasErrors, reject, Notice.diagnostic]

end Log

end Stackwise
