import Stackwise.CommandLine.FileStore

/-! The command line on the files of the system. -/
namespace Stackwise.CommandLine

/-- The reason of a failure, in the words that a store of files uses. -/
def reason : IO.Error → String
  | .noFileOrDirectory .. => FileError.notFound.message
  | .inappropriateType _ 21 _ => FileError.isDirectory.message
  | .inappropriateType .. => FileError.notDirectory.message
  | .invalidArgument (some _) .. => FileError.nameTooLong.message
  | e => toString e

def systemFiles : Files IO where
  read path := do
    try
      match String.fromUTF8? (← IO.FS.readBinFile path) with
      | some text => return .ok text
      | none => return .error FileError.notText.message
    catch e => return .error (reason e)
  write path text := do
    try
      IO.FS.writeFile path text
      return .ok ()
    catch e => return .error (reason e)

end Stackwise.CommandLine

open Stackwise.CommandLine in
def main (args : List String) : IO UInt32 := do
  let color ← (← IO.getStdout).isTty
  let outcome ← run systemFiles color args
  IO.eprint outcome.stderr
  return outcome.status.toUInt32
