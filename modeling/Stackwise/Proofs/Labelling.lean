import Stackwise.Proofs.Contents
import Stackwise.Proofs.Discipline
import Stackwise.Proofs.Writing

/-! Labels and functions in the whole assembly of a program.  Every label is written once, every
jump and every call finds its label, and the code of the functions stands behind that of the
statements, level by level: those in no other function, those in one other, and so on. -/
namespace Stackwise

open Emit

namespace Line

def label? : Line → Option Label
  | .label l => some l
  | _ => none

def target? : Line → Option Label
  | .instr (.jump _ l) => some l
  | .instr (.call l) => some l
  | _ => none

def function? : Line → Option String
  | .label (.function name) => some name
  | _ => none

/-- Whether a line is one as the caller writes it, of which nothing is known. -/
def isSpelled : Line → Bool
  | .verbatim _ | .instr (.text _) => true
  | _ => false

end Line

namespace Code

def labels (code : Code) : List Label := code.filterMap Line.label?

def targets (code : Code) : List Label := code.filterMap Line.target?

def functions (code : Code) : List String := code.filterMap Line.function?

theorem mem_labels {code : Code} {l : Label} : l ∈ code.labels ↔ .label l ∈ code := by
  simp only [labels, List.mem_filterMap]
  constructor
  · rintro ⟨line, hm, hl⟩
    unfold Line.label? at hl
    split at hl
    · rwa [← Option.some.inj hl]
    · cases hl
  · exact fun h => ⟨_, h, rfl⟩

theorem count_labels (code : Code) (l : Label) : code.labels.count l = code.count (.label l) := by
  induction code with
  | nil => rfl
  | cons line code ih =>
    unfold labels at ih ⊢
    cases line with
    | label l' => simp [Line.label?, List.count_cons, ih]
    | _ => simp [Line.label?, List.filterMap_cons, ih]

theorem mem_targets {code : Code} {l : Label} :
    l ∈ code.targets ↔ (∃ kind, .instr (.jump kind l) ∈ code) ∨ .instr (.call l) ∈ code := by
  simp only [targets, List.mem_filterMap]
  constructor
  · rintro ⟨line, hm, hl⟩
    unfold Line.target? at hl
    split at hl
    · exact .inl ⟨_, Option.some.inj hl ▸ hm⟩
    · exact .inr (Option.some.inj hl ▸ hm)
    · cases hl
  · rintro (⟨kind, h⟩ | h)
    · exact ⟨_, h, rfl⟩
    · exact ⟨_, h, rfl⟩

theorem functions_append (xs ys : Code) : functions (xs ++ ys) = functions xs ++ functions ys :=
  List.filterMap_append

theorem functions_eq_nil {code : Code} (h : ∀ l, .label l ∈ code → ∀ name, l ≠ .function name) :
    functions code = [] := by
  rw [functions, List.filterMap_eq_nil_iff]
  intro line hm
  unfold Line.function?
  split
  · next name => exact absurd rfl (h _ hm name)
  · rfl

end Code

section Rendering

theorem Numeral.decimal_injective {m n : Nat} (h : decimal m = decimal n) : m = n := by
  obtain ⟨-, -, hm⟩ := denotes_decimal m
  obtain ⟨-, -, hn⟩ := denotes_decimal n
  rw [h] at hm
  exact hm.symm.trans hn

namespace Label

/-- The texts of the labels that are neither a function's nor handed out. -/
def names : List String := ["_start", "print_int", ".digits", ".write"]

theorem head?_render_function (name : String) :
    (function name).render.toList.head? = some 'f' := by
  simp [render]

theorem head?_render_fresh (index : Nat) : (fresh index).render.toList.head? = some 'l' := by
  simp [render]

theorem head?_of_mem_names {text : String} (h : text ∈ names) :
    text.toList.head? ≠ some 'f' ∧ text.toList.head? ≠ some 'l' := by
  revert text
  decide

theorem under_pos {n : Nat} {l : Label} : 0 < l.under n ↔ ∃ i < n, l = .fresh i := by
  cases l with
  | fresh i =>
    simp only [under, fresh.injEq]
    constructor
    · intro h
      exact ⟨i, by split at h <;> omega, rfl⟩
    · rintro ⟨j, hj, rfl⟩
      rw [if_pos hj]
      exact Nat.one_pos
  | _ => simp [under]

/-- Labels that differ are written differently. -/
theorem render_injective {l l' : Label} (hl : ∀ text, l = .named text → text ∈ names)
    (hl' : ∀ text, l' = .named text → text ∈ names) (h : l.render = l'.render) : l = l' := by
  have hh := congrArg (fun text => text.toList.head?) h
  cases l with
  | named text =>
    have ht := head?_of_mem_names (hl text rfl)
    cases l' with
    | named text' => exact congrArg named h
    | function name =>
      rw [head?_render_function] at hh
      exact absurd hh ht.1
    | fresh index =>
      rw [head?_render_fresh] at hh
      exact absurd hh ht.2
  | function name =>
    rw [head?_render_function] at hh
    cases l' with
    | named text => exact absurd hh.symm (head?_of_mem_names (hl' text rfl)).1
    | function name' =>
      have ht := congrArg String.toList h
      simp only [render, String.toList_append, List.append_cancel_left_eq, String.toList_inj] at ht
      rw [ht]
    | fresh index =>
      rw [head?_render_fresh] at hh
      cases hh
  | fresh index =>
    rw [head?_render_fresh] at hh
    cases l' with
    | named text => exact absurd hh.symm (head?_of_mem_names (hl' text rfl)).2
    | function name =>
      rw [head?_render_function] at hh
      cases hh
    | fresh index' =>
      have ht := congrArg String.toList h
      simp only [render, String.toList_append, List.append_cancel_left_eq, String.toList_inj] at ht
      rw [Numeral.decimal_injective ht]

end Label

end Rendering

namespace FunctionDecl

def inner (f : FunctionDecl) : List FunctionDecl := f.body.outerFunctions

/-- The functions that are `depth` levels inside the given ones, in the order of those around
them. -/
def atDepth : Nat → List FunctionDecl → List FunctionDecl
  | 0, fs => fs
  | depth + 1, fs => atDepth depth (fs.flatMap inner)

theorem countAll_flatMap_inner (fs : List FunctionDecl) :
    countAll (fs.flatMap inner) + fs.length = countAll fs := by
  induction fs with
  | nil => rfl
  | cons f fs ih =>
    rw [List.flatMap_cons, countAll_append, inner, Stmt.countAll_outerFunctions, List.length_cons,
      countAll, count]
    omega

theorem breadthFirst_append (fs : List FunctionDecl) : ∀ gs,
    breadthFirst (fs ++ gs) = fs ++ breadthFirst (gs ++ fs.flatMap inner) := by
  induction fs with
  | nil => simp
  | cons f fs ih =>
    intro gs
    rw [List.cons_append, breadthFirst, List.append_assoc, ih, List.flatMap_cons, List.append_assoc]
    rfl

/-- A queue is worked off level by level, and there is a last level. -/
theorem breadthFirst_eq_levels (fs : List FunctionDecl) :
    ∃ n, breadthFirst fs = (List.range n).flatMap (atDepth · fs) ∧ ∀ k ≥ n, atDepth k fs = [] := by
  induction hc : countAll fs using Nat.strong_induction_on generalizing fs with
  | _ c ih =>
    by_cases hfs : fs = []
    · subst hfs
      refine ⟨0, by rw [breadthFirst]; rfl, fun k _ => ?_⟩
      induction k with
      | zero => rfl
      | succ k ihk => exact ihk (Nat.zero_le k)
    · have hlt := countAll_flatMap_inner fs
      have hpos := List.length_pos_iff.2 hfs
      obtain ⟨n, hn, hk⟩ := ih (countAll (fs.flatMap inner)) (by omega) (fs.flatMap inner) rfl
      refine ⟨n + 1, ?_, fun k hle => ?_⟩
      · have ha := breadthFirst_append fs []
        rw [List.append_nil, List.nil_append] at ha
        rw [ha, hn, List.range_succ_eq_map, List.flatMap_cons, List.flatMap_map]
        rfl
      · obtain ⟨k, rfl⟩ : ∃ j, k = j + 1 := ⟨k - 1, by omega⟩
        exact hk k (by omega)

/-- The code of functions is that of each in turn. -/
theorem emitEach_bodies {table : Signatures} (fs : List FunctionDecl) :
    ∀ {c : Cursor} {r : Emitted Unit}, emitEach table fs c = .ok r →
      ∃ bodies, List.Forall₂ (fun f body => ∃ c r, emit table f c = .ok r ∧ body = r.code) fs
        bodies ∧
        r.code = bodies.flatten := by
  induction fs with
  | nil =>
    intro c r h
    rw [emitEach, pure_eq_ok] at h
    subst h
    exact ⟨[], .nil, rfl⟩
  | cons f fs ih =>
    intro c r h
    obtain ⟨r₁, r₂, h₁, h₂, rfl⟩ := emitEach_cons_eq_ok.1 h
    obtain ⟨bodies, hb, hc⟩ := ih h₂
    exact ⟨r₁.code :: bodies, .cons ⟨c, r₁, h₁, rfl⟩ hb, by rw [hc, List.flatten_cons]⟩

theorem functions_emit {table : Signatures} {f : FunctionDecl} {c : Cursor} {r : Emitted Unit}
    (h : f.emit table c = .ok r) : Code.functions r.code = [f.name] := by
  obtain ⟨r₁, h₁, rfl⟩ := emit_eq_ok.1 h
  have hs := Emit.inScope_steady h₁ fun r₂ h₂ => (Stmt.emit_grows f.body h₂).2
  have hn : Code.functions r₁.code = [] := by
    refine Code.functions_eq_nil fun l hl name => ?_
    obtain ⟨n, rfl⟩ := hs.places.fresh hl
    simp
  have hc : Code.functions (r₁.code ++ [.instr (.mov (.reg .rax) (.int 0)), .instr .ret]) = [] := by
    rw [Code.functions_append, hn]
    rfl
  exact congrArg (f.name :: ·) hc

theorem functions_bodies {table : Signatures} {fs : List FunctionDecl} {bodies : List Code}
    (h : List.Forall₂ (fun f body => ∃ c r, emit table f c = .ok r ∧ body = r.code) fs bodies) :
    Code.functions bodies.flatten = fs.map FunctionDecl.name := by
  induction h with
  | nil => rfl
  | cons hf _ ih =>
    obtain ⟨c, r, hr, rfl⟩ := hf
    rw [List.flatten_cons, Code.functions_append, functions_emit hr, ih, List.map_cons,
      List.singleton_append]

end FunctionDecl

/-- The functions of a program that stand in as many others, in the order of those around them. -/
def Program.functionsAt (p : Program) (depth : Nat) : List FunctionDecl :=
  FunctionDecl.atDepth depth (Stmt.outerFunctionsEach p)

/-- How the assembly of a program is laid out: the code of its statements, that of each of its
functions, and the routine that writes integers if that is called. -/
structure Program.Layout (p : Program) (table : Signatures) (main : Code) (bodies : List Code)
    (routine : Code) : Prop where
  main_eq : ∃ r, Stmt.emitEach p ⟨table, none, false⟩ .empty .start = .ok r ∧
    main = .directive "global _start" :: .directive "section .text" :: .label (.named "_start") ::
      (r.code ++ p.ending)
  bodies_eq : List.Forall₂ (fun f body => ∃ c r, FunctionDecl.emit table f c = .ok r ∧
    body = r.code) p.functionsByDepth bodies
  routine_eq : routine =
    if .instr (.call PrintInt.entry) ∈ main ++ bodies.flatten then PrintInt.code
    else []

namespace Program

variable {p : Program} {table : Signatures} {code : Code}

theorem code_eq_append (h : p.code table = .ok code) :
    ∃ r routine, p.emit table .start = .ok r ∧ code = r.code ++ routine ∧
      (.instr (.call PrintInt.entry) ∈ r.code ∧ routine = PrintInt.code ∨
        .instr (.call PrintInt.entry) ∉ r.code ∧ routine = []) := by
  obtain ⟨r, hr, hcode⟩ := Program.code_eq_ok.1 h
  simp only [List.contains_iff_mem] at hcode
  by_cases hcall : .instr (.call PrintInt.entry) ∈ r.code
  · rw [if_pos hcall] at hcode
    exact ⟨r, _, hr, hcode, .inl ⟨hcall, rfl⟩⟩
  · rw [if_neg hcall] at hcode
    exact ⟨r, [], hr, by rw [hcode, List.append_nil], .inr ⟨hcall, rfl⟩⟩

theorem exists_layout (h : p.code table = .ok code) :
    ∃ main bodies routine, code = main ++ (bodies.flatten ++ routine) ∧
      p.Layout table main bodies routine := by
  obtain ⟨r, routine, hr, rfl, hroutine⟩ := code_eq_append h
  obtain ⟨r₁, r₂, h₁, h₂, hc⟩ := Program.emit_eq_ok.1 hr
  obtain ⟨bodies, hb, hflat⟩ := FunctionDecl.emitEach_bodies _ h₂
  have hsplit : r.code = .directive "global _start" :: .directive "section .text" ::
      .label (.named "_start") :: (r₁.code ++ p.ending) ++ bodies.flatten := by
    rw [hc, hflat]
    simp
  refine ⟨_, bodies, routine, by rw [hsplit, List.append_assoc], ⟨⟨r₁, h₁, rfl⟩, hb, ?_⟩⟩
  rw [← hsplit]
  rcases hroutine with ⟨hcall, rfl⟩ | ⟨hno, rfl⟩
  · rw [if_pos hcall]
  · rw [if_neg hno]

theorem Layout.functions_main {main routine : Code} {bodies : List Code}
    (h : p.Layout table main bodies routine) : Code.functions main = [] := by
  obtain ⟨r, hr, rfl⟩ := h.main_eq
  have hn : Code.functions r.code = [] := by
    refine Code.functions_eq_nil fun l hl name => ?_
    obtain ⟨n, rfl⟩ := (Stmt.emitEach_grows p hr).2.fresh hl
    simp
  have he : Code.functions p.ending = [] := by
    unfold ending
    split <;> rfl
  have hc : Code.functions (r.code ++ p.ending) = [] := by rw [Code.functions_append, hn, he]; rfl
  exact hc

theorem Layout.functions_routine {main routine : Code} {bodies : List Code}
    (h : p.Layout table main bodies routine) : Code.functions routine = [] := by
  rw [h.routine_eq]
  split <;> rfl

/-- The labels of a program's code outside of the routine that writes integers. -/
theorem mem_labels_emit {r : Emitted Unit} (h : p.emit table .start = .ok r) {l : Label} :
    .label l ∈ r.code ↔ l = .named "_start" ∨ (∃ f ∈ p.functions, .function f.name = l) ∨
      ∃ i < r.cursor.labels, l = .fresh i := by
  rw [← List.count_pos_iff, emit_places h l, Nat.add_pos_iff_pos_or_pos, Nat.add_pos_iff_pos_or_pos,
    List.count_pos_iff, List.count_pos_iff, List.mem_singleton, List.mem_map, Label.under_pos,
    or_assoc]

section Whole

variable {r : Emitted Unit}

/-- What is called in the code of a program is defined in it or in the routine. -/
theorem call_defined (ht : Signatures.ofProgram p = .ok table) (hr : p.emit table .start = .ok r)
    {l : Label} (hl : .instr (.call l) ∈ r.code) : l = PrintInt.entry ∨ .label l ∈ r.code := by
  rcases CallsOnly.program p _ r hr l hl with rfl | ⟨s, hs, rfl⟩
  · exact .inl rfl
  · rw [(Signatures.ofProgram_eq_ok ht).1] at hs
    obtain ⟨f, hf, rfl⟩ := List.mem_map.1 hs
    exact .inr ((mem_labels_emit hr).2 (.inr (.inl ⟨f, hf, rfl⟩)))

theorem jump_defined {depth : Nat → Nat} (hd : Code.Depths p.functions r.code depth) {kind : Jump}
    {l : Label} (hl : .instr (.jump kind l) ∈ r.code) : .label l ∈ r.code := by
  obtain ⟨i, hi⟩ := List.mem_iff_getElem?.1 hl
  obtain ⟨j, hj, -⟩ := hd.jump i kind l hi
  exact List.mem_of_getElem? ((hj j).2 rfl)

theorem isSpelled_eq_false {depth : Nat → Nat} (hd : Code.Depths p.functions r.code depth)
    {line : Line} (hl : line ∈ r.code) : line.isSpelled = false := by
  obtain ⟨i, hi⟩ := List.mem_iff_getElem?.1 hl
  obtain ⟨e, he, -⟩ := hd.stays i line hi
  unfold Line.isSpelled
  split
  · cases he
  · cases he
  · rfl

end Whole

end Program

theorem PrintInt.targets_subset : Code.targets PrintInt.code ⊆ Code.labels PrintInt.code := by
  decide

theorem PrintInt.isSpelled_eq_false :
    ∀ line ∈ PrintInt.code, line.isSpelled = false := by
  decide

/-- Every label is defined once, also as it is written, and every jump and every call goes to a
label that is defined. -/
structure Code.Resolved (code : Code) : Prop where
  once : (code.labels.map Label.render).Nodup
  found : code.targets ⊆ code.labels
  plain : ∀ line ∈ code, line.isSpelled = false

namespace Program

variable {p : Program} {table : Signatures} {code : Code}

theorem mem_names (h : p.code table = .ok code) {text : String}
    (hl : .label (.named text) ∈ code) : text ∈ Label.names := by
  obtain ⟨r, routine, hr, rfl, hroutine⟩ := code_eq_append h
  rcases List.mem_append.1 hl with hl | hl
  · rcases (mem_labels_emit hr).1 hl with hl | ⟨_, _, hl⟩ | ⟨_, _, hl⟩
    · rw [Label.named.inj hl]
      exact List.mem_cons_self
    · cases hl
    · cases hl
  · rcases hroutine with ⟨-, rfl⟩ | ⟨-, rfl⟩
    · have hm := List.count_pos_iff.2 hl
      rw [PrintInt.count_label, List.count_pos_iff] at hm
      rw [Label.names]
      simp only [PrintInt.entry, PrintInt.digits, PrintInt.write, List.mem_cons, Label.named.injEq,
        List.not_mem_nil, or_false] at hm ⊢
      exact .inr hm
    · cases hl

theorem code_resolved (ht : Signatures.ofProgram p = .ok table) (h : p.code table = .ok code) :
    code.Resolved := by
  have hone := code_labels ht h
  have hnames : ∀ text, .label (.named text) ∈ code → text ∈ Label.names := fun _ => mem_names h
  obtain ⟨r, routine, hr, rfl, hroutine⟩ := code_eq_append h
  have hdepth : ∃ depth, Code.Depths p.functions r.code depth := by
    refine emit_depths hr fun l => ?_
    have hl := hone l
    rw [List.count_append] at hl
    omega
  obtain ⟨depth, hd⟩ := hdepth
  constructor
  · have hn : (Code.labels (r.code ++ routine)).Nodup := by
      rw [List.nodup_iff_count_le_one]
      intro l
      rw [Code.count_labels]
      exact hone l
    refine hn.map_on fun l hl l' hl' => ?_
    rw [Code.mem_labels] at hl hl'
    apply Label.render_injective
    · rintro text rfl
      exact hnames text hl
    · rintro text rfl
      exact hnames text hl'
  · intro l hl
    rw [Code.mem_labels, List.mem_append]
    rw [Code.targets, List.filterMap_append, List.mem_append] at hl
    rcases hl with hl | hl
    · rcases Code.mem_targets.1 hl with ⟨kind, hl⟩ | hl
      · exact .inl (jump_defined hd hl)
      · rcases call_defined ht hr hl with rfl | hl'
        · rcases hroutine with ⟨-, rfl⟩ | ⟨hno, -⟩
          · exact .inr (by decide)
          · exact absurd hl hno
        · exact .inl hl'
    · rcases hroutine with ⟨-, rfl⟩ | ⟨-, rfl⟩
      · exact .inr (Code.mem_labels.1 (PrintInt.targets_subset hl))
      · cases hl
  · intro line hl
    rcases List.mem_append.1 hl with hl | hl
    · exact isSpelled_eq_false hd hl
    · rcases hroutine with ⟨-, rfl⟩ | ⟨-, rfl⟩
      · exact PrintInt.isSpelled_eq_false line hl
      · cases hl

/-- The routine that writes integers is there exactly if it is called. -/
theorem entry_mem_labels (h : p.code table = .ok code) :
    PrintInt.entry ∈ code.labels ↔ .instr (.call PrintInt.entry) ∈ code := by
  obtain ⟨r, routine, hr, rfl, hroutine⟩ := code_eq_append h
  rw [Code.mem_labels]
  rcases hroutine with ⟨hcall, rfl⟩ | ⟨hno, rfl⟩
  · exact ⟨fun _ => List.mem_append_left _ hcall, fun _ => List.mem_append_right _ (by decide)⟩
  · rw [List.append_nil]
    refine ⟨fun hl => ?_, fun hl => absurd hl hno⟩
    rcases (mem_labels_emit hr).1 hl with hl | ⟨_, _, hl⟩ | ⟨_, _, hl⟩
    · exact absurd hl (by decide)
    · cases hl
    · cases hl

end Program

end Stackwise
