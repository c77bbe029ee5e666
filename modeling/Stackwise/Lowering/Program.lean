import Stackwise.Lowering.Discovery

/-! Code for programs: the statements, then the functions in the order in which they are met, those
that stand in others among them, then the routine that writes integers if it is needed. -/
namespace Stackwise

open Emit

/-- A function; one whose body ends without a `return` yields 0. -/
def FunctionDecl.emit (table : Signatures) (f : FunctionDecl) : Emit Unit := do
  let outside ← enterFrame
  label (.function f.name)
  inScope (.ofParams f.params) fun scope => f.body.emit ⟨table, none, true⟩ scope
  instrs [.mov (.reg .rax) (.int 0), .ret]
  leaveFrame outside

theorem Emit.Notes.function {table : Signatures} (f : FunctionDecl) :
    Notes f.body.outerFunctions (f.emit table) :=
  before enterFrame fun _ => before label fun _ => after (inScope fun _ => stmt f.body) fun _ =>
    before (instrs (by simp)) fun _ => leaveFrame

theorem FunctionDecl.met_run {table : Signatures} {f : FunctionDecl} {d d' : Draft} {u : Unit}
    (h : (f.emit table).run d = .ok u d') : d'.met = d.met ++ f.body.outerFunctions := by
  rw [(f.emit table).adds] at h
  cases hr : (f.emit table).run (.blank d.cursor) with
  | error e d₁ => simp [hr, Draft.onto] at h
  | ok x d₁ =>
    simp only [hr, Draft.onto, EStateM.Result.ok.injEq] at h
    obtain ⟨-, rfl⟩ := h
    rw [Draft.append, (Notes.function f _ _ _ hr).1]

namespace Program

def endsWithExit (p : Program) : Bool :=
  match p.getLast? with
  | some (.exit _) => true
  | _ => false

/-- The code before the functions.  A program whose last statement is no `exit` ends with status
0. -/
def emitMain (table : Signatures) (p : Program) : Emit Unit := do
  directive "global _start"
  directive "section .text"
  label (.named "_start")
  let _ ← Stmt.emitEach p ⟨table, none, false⟩ .empty
  if p.endsWithExit then pure () else exitNormally

/-- The code of all functions met, from the one at `next` on; each may lead to more. -/
def emitMet (table : Signatures) (next : Nat) (d : Draft) : EStateM.Result Error Draft Unit :=
  match _hf : d.met[next]? with
  | none => .ok () d
  | some f =>
    match _hr : (f.emit table).run d with
    | .error e d' => .error e d'
    | .ok _ d' => emitMet table (next + 1) d'
termination_by FunctionDecl.countAll (d.met.drop next)
decreasing_by
  obtain ⟨hn, rfl⟩ := List.getElem?_eq_some_iff.1 _hf
  rw [FunctionDecl.met_run _hr, List.drop_append_of_le_length (by omega),
    List.drop_eq_getElem_cons hn, FunctionDecl.countAll, FunctionDecl.countAll_append,
    Stmt.countAll_outerFunctions, FunctionDecl.count]
  omega

def generate (table : Signatures) (p : Program) : EStateM Error Draft Unit := do
  (p.emitMain table).run
  emitMet table 0
  if (← get).writesInt then (lines PrintInt.code).run

def code (table : Signatures) (p : Program) : Except Error Code :=
  match p.generate table (.blank .start) with
  | .ok _ d => .ok d.code
  | .error e _ => .error e

end Program

end Stackwise
