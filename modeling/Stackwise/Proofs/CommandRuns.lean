import Stackwise.Proofs.FileSystem

/-! What a run of the command line leaves behind.  The arguments are a language of three kinds of
part, and a run over any file system either puts the assembly at the output path and changes
nothing else, or changes nothing at all. -/
namespace Stackwise.CommandLine

inductive Part where
  | input (word : String)
  | dump
  | output (path : String)
deriving DecidableEq, Repr

namespace Part

def words : Part → List String
  | input word => [word]
  | dump => ["--dump"]
  | output path => ["-o", path]

def input? : Part → Option String
  | input word => some word
  | _ => none

def output? : Part → Option String
  | output path => some path
  | _ => none

/-- A word that names the input does not look like an option. -/
def Plain : Part → Prop
  | input word => word.toList.head? ≠ some '-'
  | _ => True

end Part

/-- The arguments that ask for a command: parts in any order, one input among them.  The last output
path counts. -/
def Command.WrittenAs (cmd : Command) (args : List String) : Prop :=
  ∃ parts : List Part, args = parts.flatMap Part.words ∧ (∀ p ∈ parts, p.Plain) ∧
    parts.filterMap Part.input? = [cmd.input] ∧
    cmd.output = (parts.filterMap Part.output?).getLast?.getD "out.asm" ∧
    cmd.dump = decide (Part.dump ∈ parts)

namespace Draft

def add (d : Draft) : Part → Draft
  | .input word => { d with input := some word }
  | .dump => { d with dump := true }
  | .output path => { d with output := some path }

end Draft

namespace FileSystem

variable {σ ι ν : Type} {fs : FileSystem σ ι ν} {s s' : σ}

/-- A path leads to a file that can be read and holds a text in UTF-8. -/
def Holds (fs : FileSystem σ ι ν) (s : σ) (path text : String) : Prop :=
  ∃ b, fs.bytes s path = .ok b ∧ String.fromUTF8? ⟨b.toArray⟩ = some text

def Writable (fs : FileSystem σ ι ν) (s : σ) (path text : String) : Prop :=
  ((fs.files.write path text).run s).1 = .ok ()

end FileSystem

section Runs

variable {σ ι ν : Type} {fs : FileSystem σ ι ν} {cmd : Command} {s : σ}

variable {source assembly : String}

/-- How a run can end: what it says, and the state after it. -/
inductive Ends (fs : FileSystem σ ι ν) (color : Bool) (args : List String) (s : σ) :
    Outcome → σ → Prop
  | misused {e : UsageError} : Command.ofArgs args = .error e →
    Ends fs color args s ⟨1, e.message ++ "\n" ++ usage ++ "\n"⟩ s
  | unreadable {cmd : Command} {reason : String} : cmd.WrittenAs args →
    ((fs.files.read cmd.input).run s).1 = .error reason →
    Ends fs color args s ⟨1, failure color "read" cmd.input reason⟩ s
  | rejected {cmd : Command} {source : String} {e : Error} : cmd.WrittenAs args →
    fs.Holds s cmd.input source → (compile source).result = .error e →
    Ends fs color args s ⟨1, report color cmd (compile source)⟩ s
  | unwritable {cmd : Command} {source assembly reason : String} : cmd.WrittenAs args →
    fs.Holds s cmd.input source → (compile source).result = .ok assembly →
    ((fs.files.write cmd.output assembly).run s).1 = .error reason →
    Ends fs color args s
      ⟨1, report color cmd (compile source) ++ failure color "write" cmd.output reason⟩ s
  | written {cmd : Command} {source assembly : String} : cmd.WrittenAs args →
    fs.Holds s cmd.input source → (compile source).result = .ok assembly →
    fs.Writable s cmd.output assembly →
    Ends fs color args s ⟨0, report color cmd (compile source)⟩
      ((fs.files.write cmd.output assembly).run s).2

namespace Ends

variable {color : Bool} {args : List String} {outcome : Outcome} {s' : σ}

theorem status (h : Ends fs color args s outcome s') : outcome.status = 0 ∨ outcome.status = 1 := by
  cases h with
  | written => exact .inl rfl
  | _ => exact .inr rfl

end Ends

end Runs

end Stackwise.CommandLine
