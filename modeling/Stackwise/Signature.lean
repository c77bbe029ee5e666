import Stackwise.Error
import Stackwise.Tree.Visitor

/-! The functions that a program may call.  Two passes over the program find them: the first
collects all that are declared, the second holds every call against them. -/
namespace Stackwise

structure Signature where
  name : String
  arity : Nat
  line : Nat
deriving DecidableEq, Repr

def FunctionDecl.signature (f : FunctionDecl) : Signature := ⟨f.name, f.arity, f.line⟩

/-- The functions that may be called, in the order of declaration. -/
abbrev Signatures := List Signature

namespace Signatures

def get? (t : Signatures) (name : String) : Option Signature := t.find? fun s => s.name == name

def declare (t : Signatures) (f : FunctionDecl) : Except Error Signatures :=
  match t.get? f.name with
  | some s => .error ⟨.functionRedeclared f.name s.line, f.line⟩
  | none => .ok (t ++ [f.signature])

/-- A call must name a declared function and bring as many arguments as it has parameters. -/
def check (t : Signatures) (c : CallSite) : Except Error Unit :=
  match t.get? c.name with
  | none => .error ⟨.functionUndeclared c.name, c.line⟩
  | some s =>
    if s.arity = c.arity then .ok ()
    else .error ⟨.arityMismatch c.name s.arity c.arity, c.line⟩

end Signatures

def Error.failWith? : Option Error → Except Error Unit
  | some e => .error e
  | none => .ok ()

/-- The functions met so far and the first that could not be declared. -/
structure Collector where
  table : Signatures
  error : Option Error

namespace Collector

def blank : Collector := ⟨[], none⟩

/-- Declares a function before the walk goes on into its body.  After an error nothing is done. -/
def pass : Pass Collector where
  stmt s walk c :=
    if c.error.isSome then c
    else
      match FunctionDecl.ofNode? (.stmt s) with
      | none => walk c
      | some f =>
        match c.table.declare f with
        | .ok table => walk { c with table }
        | .error e => { c with error := some e }

def result (c : Collector) : Except Error Signatures := do
  Error.failWith? c.error
  return c.table

end Collector

namespace Signatures

def checkNext (t : Signatures) (error : Option Error) (c : CallSite) : Option Error :=
  if error.isSome then error
  else
    match t.check c with
    | .ok () => none
    | .error e => some e

def checkNode (t : Signatures) (n : Node) (error : Option Error) : Option Error :=
  match CallSite.ofNode? n with
  | some c => t.checkNext error c
  | none => error

/-- Checks a call after the walk through its arguments. -/
def callChecker (t : Signatures) : Pass (Option Error) where
  expr e walk error := t.checkNode (.expr e) (walk error)
  stmt s walk error := t.checkNode (.stmt s) (walk error)

/-- The table of a program in which no function is declared twice and every call fits.  A second
declaration is reported before any call. -/
def ofProgram (p : Program) : Except Error Signatures := do
  let t ← (Collector.pass.run p .blank).result
  Error.failWith? (t.callChecker.run p none)
  return t

end Signatures

end Stackwise
