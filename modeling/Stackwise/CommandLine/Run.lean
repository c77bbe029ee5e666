import Stackwise.Assembly.Listing
import Stackwise.CommandLine.Args
import Stackwise.Compile

/-! A run of the command line, over any way to read and write files. -/
namespace Stackwise.CommandLine

open Text (Style)

/-- Reading and writing text files by path; a failure comes with its reason. -/
structure Files (m : Type → Type) where
  read : String → m (Except String String)
  write : String → String → m (Except String Unit)

/-- How a run ends: its exit status and what it writes to standard error. -/
structure Outcome where
  status : Nat
  stderr : String
deriving DecidableEq, Repr

def style : Severity → Style
  | .warning => .yellowBold
  | .error => .redBold

def diagnostic (color : Bool) (input : String) (d : Diagnostic) : String :=
  (style d.severity).apply color d.severity.tag ++ " " ++ d.message ++ " at " ++ input ++
    ":" ++ Numeral.decimal d.line ++ "\n"

def failure (color : Bool) (verb path reason : String) : String :=
  Style.redBold.apply color "error:" ++ " could not " ++ verb ++ " `" ++ path ++ "`: " ++ reason ++
    "\n"

/-- What a compilation reports: the listing, if it is asked for and there is one, and the
diagnostics. -/
def report (color : Bool) (cmd : Command) (c : Compilation) : String :=
  let listing :=
    match c.result with
    | .ok assembly => if cmd.dump then Listing.render color "<program>" assembly ++ "\n" else ""
    | .error _ => ""
  listing ++ String.join (c.log.map (diagnostic color cmd.input))

/-- Compiles the input file to the output file.  Nothing is written unless the compilation
succeeds. -/
def execute {m : Type → Type} [Monad m] (files : Files m) (color : Bool) (cmd : Command) :
    m Outcome := do
  match ← files.read cmd.input with
  | .error reason => return ⟨1, failure color "read" cmd.input reason⟩
  | .ok source =>
    let c := compile source
    match c.result with
    | .error _ => return ⟨1, report color cmd c⟩
    | .ok assembly =>
      match ← files.write cmd.output assembly with
      | .error reason =>
        return ⟨1, report color cmd c ++ failure color "write" cmd.output reason⟩
      | .ok () => return ⟨0, report color cmd c⟩

def run {m : Type → Type} [Monad m] (files : Files m) (color : Bool) (args : List String) :
    m Outcome :=
  match Command.ofArgs args with
  | .error e => return ⟨1, e.message ++ "\n" ++ usage ++ "\n"⟩
  | .ok cmd => execute files color cmd

end Stackwise.CommandLine
