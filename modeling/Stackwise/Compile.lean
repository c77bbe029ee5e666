import Stackwise.Grammar.Session
import Stackwise.Lowering.Program

/-! From source text to assembly text. -/
namespace Stackwise

namespace Program

def assemble (p : Program) : Except Error String := do
  let table ← Signatures.ofProgram p
  let code ← p.code table
  return Code.render code

end Program

/-- What compiling a text yields: the assembly or why there is none, and all that there is to
report. -/
structure Compilation where
  result : Except Error String
  log : Log

/-- Warnings come first; a rejection is reported last. -/
def compile (source : String) : Compilation :=
  let scan := Scan.ofText source
  match (Program.ofScan scan).bind Program.assemble with
  | .ok assembly => ⟨.ok assembly, scan.warnings⟩
  | .error e => ⟨.error e, scan.warnings.reject e.notice⟩

end Stackwise
