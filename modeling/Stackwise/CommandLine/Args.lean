/-! The arguments of the command line. -/
namespace Stackwise.CommandLine

/-- What a run is asked to do: compile `input` to `output`, with a listing or without. -/
structure Command where
  input : String
  output : String
  dump : Bool
deriving DecidableEq, Repr

inductive UsageError where
  | missingPath
  | unknownOption (option : String)
  | unexpectedArgument (arg : String)
  | missingInput
deriving DecidableEq, Repr

def UsageError.message : UsageError → String
  | missingPath => "missing path after `-o`"
  | unknownOption option => "unknown option `" ++ option ++ "`"
  | unexpectedArgument arg => "unexpected argument `" ++ arg ++ "`"
  | missingInput => "missing input file"

def usage : String := "Usage: nob <input.nob> [-o <output.asm>] [--dump]"

structure Draft where
  input : Option String
  output : Option String
  dump : Bool
deriving DecidableEq, Repr

namespace Draft

def empty : Draft := ⟨none, none, false⟩

/-- Reads arguments from left to right.  A later output path replaces an earlier one. -/
def read : Draft → List String → Except UsageError Draft
  | d, [] => .ok d
  | d, arg :: rest =>
    if arg = "-o" then
      match rest with
      | [] => .error .missingPath
      | path :: rest => read { d with output := some path } rest
    else if arg = "--dump" then
      read { d with dump := true } rest
    else if arg.toList.head? = some '-' then
      .error (.unknownOption arg)
    else if d.input.isSome then
      .error (.unexpectedArgument arg)
    else
      read { d with input := some arg } rest

def command (d : Draft) : Except UsageError Command :=
  match d.input with
  | some input => .ok ⟨input, d.output.getD "out.asm", d.dump⟩
  | none => .error .missingInput

end Draft

def Command.ofArgs (args : List String) : Except UsageError Command :=
  (Draft.empty.read args).bind Draft.command

end Stackwise.CommandLine
