import Stackwise.Proofs.AssemblyReader

/-! The assembly of accepted texts, as it is read.  It is read as the code that was made for the
program, so the stack has one depth at every line of it, every label is defined once and found, and
the functions stand in it in the order in which they were met. -/
namespace Stackwise

section Reading

variable {table : Signatures}

theorem Line.Basic.plain {l : Line} (h : l.Basic table)
    (hl : ∀ x, l.label? = some x ∨ l.target? = some x → x.Tidy) : l.Plain := by
  cases h with
  | start => exact List.mem_cons_self
  | code => exact List.mem_cons_of_mem _ List.mem_cons_self
  | label => exact hl _ (.inl rfl)
  | jump | call => exact hl _ (.inr rfl)
  | push => exact (rfl : Operand.isPlain (.reg .rax) = true)
  | number | fetch | store | status | alu | drop => exact ⟨rfl, rfl⟩
  | pop | extend | divide | ret | syscall => trivial

theorem Code.plain_writing (text : String) : ∀ l ∈ Code.writing text, l.Plain := by
  have hpush : Line.Plain (.instr (.push (.reg .rax))) := (rfl : Operand.isPlain (.reg .rax) = true)
  have hmov {dst src : Operand} (hd : dst.isPlain) (hs : src.isPlain) :
      Line.Plain (.instr (.mov dst src)) := ⟨hd, hs⟩
  rw [Code.writing, List.forall_mem_append]
  constructor
  · intro l hl
    obtain ⟨w, -, hl⟩ := List.mem_flatMap.1 hl
    rcases List.mem_pair.1 hl with rfl | rfl
    · exact hmov rfl rfl
    · exact hpush
  · simp only [List.forall_mem_cons]
    exact ⟨hmov rfl rfl, hmov rfl rfl, hmov rfl rfl, hmov rfl rfl, trivial, ⟨rfl, rfl⟩,
      List.forall_mem_nil _⟩

theorem Code.Spells.basic_or_plain {texts : List String} {code : Code}
    (h : code.Spells table texts) : ∀ l ∈ code, l.Basic table ∨ l.Plain := by
  induction h with
  | nil => exact List.forall_mem_nil _
  | line hb _ ih => exact List.forall_mem_cons.2 ⟨.inl hb, ih⟩
  | text _ _ ih => exact List.forall_mem_append.2 ⟨fun l hl => .inr (Code.plain_writing _ l hl), ih⟩

theorem PrintInt.plain : ∀ l ∈ PrintInt.code, l.Plain := by
  simp only [PrintInt.code, PrintInt.entry, PrintInt.digits, PrintInt.write, List.forall_mem_cons,
    Line.Plain, Instr.Plain, Operand.isPlain, Label.Tidy, Label.names, List.not_mem_nil,
    false_implies, implies_true]
  decide

variable {source : String} {p : Program} {code : Code}

theorem Program.plain_of_code (hp : Program.ofScan (Scan.ofText source) = .ok p)
    (ht : Signatures.ofProgram p = .ok table) (hc : p.code table = .ok code) :
    ∀ l ∈ code, l.Plain := by
  have htidy := Program.tidy_of_mem_labels hp hc
  have hfound := (Program.code_resolved ht hc).found
  have hlabels : ∀ l ∈ code, ∀ x, l.label? = some x ∨ l.target? = some x → x.Tidy := by
    rintro l hl x (hx | hx)
    · exact htidy x (List.mem_filterMap.2 ⟨l, hl, hx⟩)
    · exact htidy x (hfound (List.mem_filterMap.2 ⟨l, hl, hx⟩))
  obtain ⟨r, routine, hr, rfl, hroutine⟩ := Program.code_eq_append hc
  intro l hl
  rcases List.mem_append.1 hl with hm | hm
  · rcases (Emit.Writes.program p _ r hr).basic_or_plain l hm with hb | hb
    · exact hb.plain (hlabels l hl)
    · exact hb
  · rcases hroutine with ⟨-, rfl⟩ | ⟨-, rfl⟩
    · exact PrintInt.plain l hm
    · cases hm

theorem Program.parse?_code (hp : Program.ofScan (Scan.ofText source) = .ok p)
    (ht : Signatures.ofProgram p = .ok table) (hc : p.code table = .ok code) :
    Code.parse? (Code.render code) = some code :=
  Code.parse?_render (Program.plain_of_code hp ht hc)

end Reading

section Depth

def Code.beforeRoutine (code : Code) : Code := code.takeWhile (· ≠ .label PrintInt.entry)

theorem Program.beforeRoutine_code {p : Program} {table : Signatures} {code : Code}
    (hc : p.code table = .ok code) : ∃ r routine, p.emit table .start = .ok r ∧
      code = r.code ++ routine ∧ code.beforeRoutine = r.code ∧
      (routine = [] ∨ routine = PrintInt.code) := by
  obtain ⟨r, routine, hr, rfl, hroutine⟩ := Program.code_eq_append hc
  have hno : ∀ l ∈ r.code, decide (l ≠ .label PrintInt.entry) = true := by
    intro l hl
    refine decide_eq_true fun he => ?_
    rcases (Program.mem_labels_emit hr).1 (he ▸ hl) with hl | ⟨_, _, hl⟩ | ⟨_, _, hl⟩
    · exact absurd hl (by decide)
    · cases hl
    · cases hl
  refine ⟨r, routine, hr, rfl, ?_, ?_⟩
  · rw [Code.beforeRoutine, List.takeWhile_append_of_pos hno]
    rcases hroutine with ⟨-, rfl⟩ | ⟨-, rfl⟩
    · exact List.append_nil _
    · exact List.append_nil _
  · rcases hroutine with ⟨-, rfl⟩ | ⟨-, rfl⟩
    · exact .inr rfl
    · exact .inl rfl

theorem Program.code_depths {p : Program} {table : Signatures} {code : Code}
    (ht : Signatures.ofProgram p = .ok table) (hc : p.code table = .ok code) :
    ∃ depth, Code.Depths p.functions code.beforeRoutine depth := by
  have hl := Program.code_labels ht hc
  obtain ⟨r, routine, hr, rfl, hb, -⟩ := Program.beforeRoutine_code hc
  rw [hb]
  refine Program.emit_depths hr fun l => ?_
  have hone := hl l
  rw [List.count_append] at hone
  omega

/-- In the assembly of a text that is accepted, outside of the routine that writes integers, the
stack has one depth at every line: none at the entries, changed along every way of control by what
the instruction does, never below zero, zero again at every return; and what is reached through the
stack lies among its words or among the parameters of the function. -/
theorem compile_stack_disciplined {source assembly : String}
    (h : (compile source).result = .ok assembly) :
    ∃ p code depth, Program.ofScan (Scan.ofText source) = .ok p ∧
      Code.parse? assembly = some code ∧
      (code = code.beforeRoutine ∨ code = code.beforeRoutine ++ PrintInt.code) ∧
      Code.Depths p.functions code.beforeRoutine depth := by
  obtain ⟨p, hp, ha⟩ := compile_eq_ok.1 h
  obtain ⟨table, code, ht, hc, rfl⟩ := Program.assemble_eq_ok.1 ha
  obtain ⟨depth, hd⟩ := Program.code_depths ht hc
  refine ⟨p, code, depth, hp, Program.parse?_code hp ht hc, ?_, hd⟩
  obtain ⟨r, routine, -, rfl, hb, hroutine⟩ := Program.beforeRoutine_code hc
  rw [hb]
  rcases hroutine with rfl | rfl
  · exact .inl (List.append_nil _)
  · exact .inr rfl

/-- A text with a function that leaves a loop in two ways from inside of a scope. -/
def boundText : String :=
  "fn f(a) { while (a > 0) { let b = a; if (b < 9) break; return b; } } exit(f(7));"

set_option maxRecDepth 4000 in
theorem compile_stack_disciplined_boundText :
    ∃ p code depth assembly, (compile boundText).result = .ok assembly ∧
      Program.ofScan (Scan.ofText boundText) = .ok p ∧ Code.parse? assembly = some code ∧
      (code = code.beforeRoutine ∨ code = code.beforeRoutine ++ PrintInt.code) ∧
      Code.Depths p.functions code.beforeRoutine depth := by
  have hrun : ((Program.ofScan (Scan.ofText boundText)).bind fun p =>
      (Signatures.ofProgram p).bind fun table => (p.code table).bind fun _ => .ok ()) = .ok () := by
    decide +kernel
  obtain ⟨-, assembly, -, hc, -⟩ := exists_assembly hrun
  obtain ⟨p, code, depth, hd⟩ := compile_stack_disciplined hc
  exact ⟨p, code, depth, assembly, hc, hd⟩

end Depth

section Labels

/-- What is known when all code has been made: the functions met, by depth, and whether integers are
written. -/
theorem Program.generate_of_code {p : Program} {table : Signatures} {code : Code}
    (hc : p.code table = .ok code) : ∃ d, p.generate table (.blank .start) = .ok () d ∧
      d.code = code ∧ d.met = p.functionsByDepth ∧
      (d.writesInt ↔ .instr (.call PrintInt.entry) ∈ code) := by
  rw [Program.code, Program.generate_eq] at hc
  rw [Program.generate_eq]
  cases hr : (p.emit table).run (.blank .start) with
  | error e d =>
    rw [hr] at hc
    cases hc
  | ok u d =>
    rw [hr] at hc
    obtain ⟨hmet, hint⟩ := Emit.Notes.program p _ _ _ hr
    refine ⟨_, rfl, Except.ok.inj hc, hmet, hint.trans ?_⟩
    rw [← Except.ok.inj hc]
    dsimp only
    split
    next hcall => simp [List.contains_iff_mem.1 hcall]
    next => rfl

/-- The labels and the functions of an accepted text's assembly.  No label is written twice and none
is missing; the functions are those of the program, at whatever depth they stand, each with its code
once, behind that of the statements, in the order in which they were met and so level by level; and
the routine that writes integers is there exactly if it is called. -/
theorem compile_labels_resolve {source assembly : String}
    (h : (compile source).result = .ok assembly) :
    ∃ p table d main bodies routine, Program.ofScan (Scan.ofText source) = .ok p ∧
      Signatures.ofProgram p = .ok table ∧ p.generate table (.blank .start) = .ok () d ∧
      Code.parse? assembly = some d.code ∧ d.code.Resolved ∧
      d.code = main ++ (bodies.flatten ++ routine) ∧ p.Layout table main bodies routine ∧
      Code.functions main = [] ∧ d.code.functions = d.met.map FunctionDecl.name ∧
      d.met = p.functionsByDepth ∧ d.met.Perm p.functions ∧
      (∃ n, d.met = (List.range n).flatMap p.functionsAt ∧ ∀ k ≥ n, p.functionsAt k = []) ∧
      (d.writesInt ↔ .instr (.call PrintInt.entry) ∈ d.code) ∧
      (PrintInt.entry ∈ d.code.labels ↔ .instr (.call PrintInt.entry) ∈ d.code) := by
  obtain ⟨p, hp, ha⟩ := compile_eq_ok.1 h
  obtain ⟨table, code, ht, hc, rfl⟩ := Program.assemble_eq_ok.1 ha
  obtain ⟨main, bodies, routine, hcode, hlay⟩ := Program.exists_layout hc
  obtain ⟨d, hd, rfl, hmet, hint⟩ := Program.generate_of_code hc
  have hfunctions : d.code.functions = d.met.map FunctionDecl.name := by
    rw [hcode, hmet, Code.functions_append, Code.functions_append, hlay.functions_main,
      hlay.functions_routine, FunctionDecl.functions_bodies hlay.bodies_eq, List.nil_append,
      List.append_nil]
  refine ⟨p, table, d, main, bodies, routine, hp, ht, hd, Program.parse?_code hp ht hc,
    Program.code_resolved ht hc, hcode, hlay, hlay.functions_main, hfunctions, hmet, ?_, ?_, hint,
    Program.entry_mem_labels hc⟩
  · rw [hmet]
    exact p.functionsByDepth_perm
  · rw [hmet]
    exact FunctionDecl.breadthFirst_eq_levels _

/-- A text with functions in a loop, in a branch and in another function, and with a loop to
leave. -/
def scatteredText : String :=
  "fn f(n) { fn g(m) return m; if (n > 1) { fn h() print(1); h(); } return g(n); } " ++
    "while (f(1) < 9) { fn k(a) return a; if (k(2) == 2 || f(0) > 3) break; }"

set_option maxRecDepth 4000 in
theorem compile_labels_resolve_scatteredText :
    ∃ p table d assembly, (compile scatteredText).result = .ok assembly ∧
      Program.ofScan (Scan.ofText scatteredText) = .ok p ∧
      Program.generate table p (.blank .start) = .ok () d ∧ Code.parse? assembly = some d.code ∧
      d.code.Resolved ∧ d.met.map FunctionDecl.name = ["f", "k", "g", "h"] ∧
      d.code.functions = ["f", "k", "g", "h"] := by
  have hrun : ((Program.ofScan (Scan.ofText scatteredText)).bind fun p =>
      (Signatures.ofProgram p).bind fun table => (p.code table).bind fun _ =>
        .ok (p.functionsByDepth.map FunctionDecl.name)) = .ok ["f", "k", "g", "h"] := by
    decide +kernel
  obtain ⟨p, assembly, hp, hc, hnames⟩ := exists_assembly hrun
  obtain ⟨p', table, d, -, -, -, hp', -, hd, ha, hres, -, -, -, hf, hmet, -⟩ :=
    compile_labels_resolve hc
  obtain rfl : p = p' := Except.ok.inj (hp.symm.trans hp')
  rw [← hmet] at hnames
  exact ⟨p, table, d, assembly, hc, hp, hd, ha, hres, hnames, hf.trans hnames⟩

end Labels

end Stackwise
