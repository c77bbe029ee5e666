import Stackwise.Proofs.Bookkeeping
import Stackwise.Proofs.Passes
import Mathlib.Data.List.Nodup
import Mathlib.Data.List.Perm.Basic

/-! Where labels and functions stand.  The functions of a program are the same in the order of their
texts and in the order of their code, no two have one name, and in the whole code of a program every
label stands in one place. -/
namespace Stackwise

open Emit

/-- A function and those inside it, as they are written. -/
def FunctionDecl.within (f : FunctionDecl) : List FunctionDecl :=
  f :: f.body.nodes.filterMap FunctionDecl.ofNode?

@[simp] theorem Node.filterMap_ofExprs (es : List Expr) :
    (Node.ofExprs es).filterMap FunctionDecl.ofNode? = [] := by
  simp [Node.ofExprs, FunctionDecl.ofNode?]

mutual

theorem Stmt.functions_perm : (s : Stmt) →
    (s.nodes.filterMap FunctionDecl.ofNode?).Perm (s.outerFunctions.flatMap FunctionDecl.within)
  | .exit _ | .letVar .. | .assign .. | .print _ | .ret .. | .call .. | .breakLoop _
  | .continueLoop _ => by
    simp only [Stmt.nodes, Stmt.outerFunctions, List.filterMap_cons, FunctionDecl.ofNode?,
      Node.filterMap_ofExprs, List.filterMap_nil, List.flatMap_nil, List.Perm.refl]
  | .block body => by
    simpa [Stmt.nodes, Stmt.outerFunctions, List.filterMap_cons, FunctionDecl.ofNode?] using
      Stmt.functionsEach_perm body
  | .ifElse cond body other => by
    simpa [Stmt.nodes, Stmt.outerFunctions, List.filterMap_cons, FunctionDecl.ofNode?] using
      (Stmt.functions_perm body).append (ElseBranch.functions_perm other)
  | .whileLoop cond body => by
    simpa [Stmt.nodes, Stmt.outerFunctions, List.filterMap_cons, FunctionDecl.ofNode?] using
      Stmt.functions_perm body
  | .forLoop init cond step body => by
    have hp := (Stmt.functions_perm init).append
      (((Stmt.functions_perm step).append (Stmt.functions_perm body)).trans List.perm_append_comm)
    simpa [Stmt.nodes, Stmt.outerFunctions, List.filterMap_cons, FunctionDecl.ofNode?] using hp
  | .function name params body n => by
    simp [Stmt.nodes, Stmt.outerFunctions, FunctionDecl.ofNode?, FunctionDecl.within]

theorem Stmt.functionsEach_perm : (ss : List Stmt) →
    ((Stmt.nodesEach ss).filterMap FunctionDecl.ofNode?).Perm
      ((Stmt.outerFunctionsEach ss).flatMap FunctionDecl.within)
  | [] => by simp [Stmt.nodesEach, Stmt.outerFunctionsEach]
  | s :: ss => by
    simpa [Stmt.nodesEach, Stmt.outerFunctionsEach] using
      (Stmt.functions_perm s).append (Stmt.functionsEach_perm ss)

theorem ElseBranch.functions_perm : (other : ElseBranch) →
    (other.nodes.filterMap FunctionDecl.ofNode?).Perm
      (other.outerFunctions.flatMap FunctionDecl.within)
  | .absent => by simp [ElseBranch.nodes, ElseBranch.outerFunctions]
  | .elseIf cond body next => by
    simpa [ElseBranch.nodes, ElseBranch.outerFunctions] using
      (Stmt.functions_perm body).append (ElseBranch.functions_perm next)
  | .otherwise body => by
    simpa [ElseBranch.nodes, ElseBranch.outerFunctions] using Stmt.functions_perm body

end

/-- A queue of functions is worked off with all that stand in them. -/
theorem FunctionDecl.breadthFirst_perm (fs : List FunctionDecl) :
    (FunctionDecl.breadthFirst fs).Perm (fs.flatMap FunctionDecl.within) := by
  fun_induction FunctionDecl.breadthFirst fs with
  | case1 => simp
  | case2 f fs ih =>
    have hb := Stmt.functions_perm f.body
    have hq : ((fs ++ f.body.outerFunctions).flatMap FunctionDecl.within).Perm
        (f.body.nodes.filterMap FunctionDecl.ofNode? ++ fs.flatMap FunctionDecl.within) := by
      rw [List.flatMap_append]
      exact List.perm_append_comm.trans (hb.symm.append_right _)
    exact (ih.trans hq).cons f

theorem Program.functionsByDepth_perm (p : Program) : p.functionsByDepth.Perm p.functions :=
  (FunctionDecl.breadthFirst_perm _).trans (Stmt.functionsEach_perm p).symm

namespace Signatures

theorem get?_eq_none {t : Signatures} {name : String} :
    t.get? name = none ↔ ∀ s ∈ t, s.name ≠ name := by
  simp [get?]

theorem declare_eq_ok {t t' : Signatures} {f : FunctionDecl} :
    t.declare f = .ok t' ↔ t.get? f.name = none ∧ t' = t ++ [f.signature] := by
  unfold declare
  cases t.get? f.name <;> simp [eq_comm]

/-- A table holds the functions declared, in order, and no name twice. -/
theorem foldlM_declare {fs : List FunctionDecl} : ∀ {t t' : Signatures},
    fs.foldlM declare t = .ok t' → (t.map Signature.name).Nodup →
      t' = t ++ fs.map FunctionDecl.signature ∧ (t'.map Signature.name).Nodup := by
  induction fs with
  | nil =>
    intro t t' h hn
    obtain rfl : t = t' := by simpa [pure, Except.pure] using h
    exact ⟨by simp, hn⟩
  | cons f fs ih =>
    intro t t' h hn
    rw [List.foldlM_cons] at h
    cases hd : t.declare f with
    | error e => simp [hd, bind, Except.bind] at h
    | ok t₁ =>
      obtain ⟨hf, rfl⟩ := declare_eq_ok.1 hd
      have hn₁ : ((t ++ [f.signature]).map Signature.name).Nodup := by
        have hs := get?_eq_none.1 hf
        rw [List.map_append, List.map_singleton]
        refine List.nodup_append.2 ⟨hn, by simp, ?_⟩
        simpa [FunctionDecl.signature] using hs
      rw [hd] at h
      obtain ⟨rfl, hn'⟩ := ih (by simpa [bind, Except.bind] using h) hn₁
      exact ⟨by simp, hn'⟩

theorem ofFunctions_eq_ok {fs : List FunctionDecl} {t : Signatures} (h : ofFunctions fs = .ok t) :
    t = fs.map FunctionDecl.signature ∧ (fs.map FunctionDecl.name).Nodup := by
  obtain ⟨ht, hn⟩ := foldlM_declare h (by simp)
  rw [List.nil_append] at ht
  subst ht
  exact ⟨rfl, by simpa [Function.comp_def, FunctionDecl.signature] using hn⟩

theorem ofProgram_eq_ok {p : Program} {t : Signatures} (h : ofProgram p = .ok t) :
    t = p.functions.map FunctionDecl.signature ∧ (p.functions.map FunctionDecl.name).Nodup := by
  rw [ofProgram_eq] at h
  cases hf : ofFunctions p.functions with
  | error e => simp [hf, bind, Except.bind] at h
  | ok t₁ =>
    cases hc : p.calls.forM t₁.check with
    | error e => simp [hf, hc, bind, Except.bind] at h
    | ok u =>
      obtain rfl : t₁ = t := by simpa [hf, hc, bind, Except.bind, pure, Except.pure] using h
      exact ofFunctions_eq_ok hf

end Signatures

/-- A function places the label of its name besides those it takes. -/
theorem FunctionDecl.emit_places {table : Signatures} {f : FunctionDecl} {c : Cursor}
    {r : Emitted Unit} (h : f.emit table c = .ok r) (l : Label) :
    r.code.count (.label l) + l.under c.labels =
      l.under r.cursor.labels + [Label.function f.name].count l := by
  obtain ⟨r₁, h₁, rfl⟩ := FunctionDecl.emit_eq_ok.1 h
  have hs := Emit.inScope_steady h₁ fun r₂ h₂ => (Stmt.emit_grows f.body h₂).2
  have e₁ := hs.places l
  simp only [List.count_cons, List.count_append, List.count_nil, beq_iff_eq, Line.label.injEq,
    reduceCtorEq, if_false] at e₁ ⊢
  omega

theorem FunctionDecl.emitEach_places {table : Signatures} (fs : List FunctionDecl) :
    ∀ {c : Cursor} {r : Emitted Unit}, FunctionDecl.emitEach table fs c = .ok r → ∀ l : Label,
      r.code.count (.label l) + l.under c.labels =
        l.under r.cursor.labels + (fs.map fun f => Label.function f.name).count l := by
  induction fs with
  | nil =>
    intro c r h l
    rw [FunctionDecl.emitEach, pure_eq_ok] at h
    subst h
    simp
  | cons f fs ih =>
    intro c r h l
    obtain ⟨r₁, r₂, h₁, h₂, rfl⟩ := FunctionDecl.emitEach_cons_eq_ok.1 h
    have e₁ := FunctionDecl.emit_places h₁ l
    have e₂ := ih h₂ l
    simp only [List.count_append, List.map_cons, List.count_cons, List.count_nil] at e₁ e₂ ⊢
    omega

theorem PrintInt.count_label (l : Label) :
    PrintInt.code.count (.label l) = [PrintInt.entry, PrintInt.digits, PrintInt.write].count l := by
  simp only [PrintInt.code, List.count_cons, List.count_nil, beq_iff_eq, Line.label.injEq,
    reduceCtorEq, if_false, Nat.add_zero, Nat.zero_add]

namespace Program

variable {p : Program} {table : Signatures}

theorem emit_places {r : Emitted Unit} (h : p.emit table .start = .ok r) (l : Label) :
    r.code.count (.label l) =
      [Label.named "_start"].count l + (p.functions.map fun f => Label.function f.name).count l +
        l.under r.cursor.labels := by
  obtain ⟨r₁, r₂, h₁, h₂, rfl⟩ := Program.emit_eq_ok.1 h
  obtain ⟨-, hs⟩ := Stmt.emitEach_grows p h₁
  have e₁ := hs l
  have e₂ := FunctionDecl.emitEach_places _ h₂ l
  have ep := (p.functionsByDepth_perm.map fun f => Label.function f.name).count_eq l
  have he : p.ending.count (.label l) = 0 := by
    unfold ending
    split <;> simp
  have hz : l.under Cursor.start.labels = 0 := by cases l <;> simp [Label.under, Cursor.start]
  simp only [List.count_cons, List.count_append, List.count_nil, beq_iff_eq, Line.label.injEq,
    reduceCtorEq, if_false, he] at *
  omega

/-- In the code of a program every label stands in one place at most. -/
theorem code_labels {code : Code} (ht : Signatures.ofProgram p = .ok table)
    (h : p.code table = .ok code) (l : Label) : code.count (.label l) ≤ 1 := by
  obtain ⟨r, hr, hc⟩ := Program.code_eq_ok.1 h
  obtain ⟨-, hn⟩ := Signatures.ofProgram_eq_ok ht
  have hd : [Label.named "_start", PrintInt.entry, PrintInt.digits, PrintInt.write].Nodup := by
    decide
  have hl := List.nodup_iff_count_le_one.1 hd l
  have hf : (p.functions.map fun f => Label.function f.name).count l ≤ 1 := by
    refine List.nodup_iff_count_le_one.1 ?_ l
    have hm := hn.map (f := Label.function) fun a b hab => Label.function.inj hab
    rwa [List.map_map] at hm
  have hu := l.under_le_one r.cursor.labels
  have hp : code.count (.label l) ≤ r.code.count (.label l) + PrintInt.code.count (.label l) := by
    rw [hc]
    split <;> simp
  rw [emit_places hr, PrintInt.count_label] at hp
  rw [List.count_cons] at hl
  have hk : (p.functions.map fun f => Label.function f.name).count l = 0 ∨
      l.under r.cursor.labels = 0 ∧ [Label.named "_start"].count l = 0 ∧
        [PrintInt.entry, PrintInt.digits, PrintInt.write].count l = 0 := by
    cases l <;> simp [List.count_eq_zero, Label.under, PrintInt.entry, PrintInt.digits,
      PrintInt.write]
  have hs : l.under r.cursor.labels = 0 ∨ [Label.named "_start"].count l = 0 ∧
      [PrintInt.entry, PrintInt.digits, PrintInt.write].count l = 0 := by
    cases l <;> simp [Label.under, PrintInt.entry, PrintInt.digits, PrintInt.write]
  simp only [List.count_cons, List.count_nil] at *
  omega

end Program

/-- Every function of the table has its code in that of all. -/
theorem FunctionDecl.emitEach_mem {table : Signatures} {f : FunctionDecl} (fs : List FunctionDecl) :
    ∀ {c : Cursor} {r : Emitted Unit}, FunctionDecl.emitEach table fs c = .ok r → f ∈ fs →
      ∃ c₁ r₁ rest, f.emit table c₁ = .ok r₁ ∧ r₁.code ++ rest <:+ r.code := by
  induction fs with
  | nil => simp
  | cons g fs ih =>
    intro c r h hf
    obtain ⟨r₁, r₂, h₁, h₂, rfl⟩ := FunctionDecl.emitEach_cons_eq_ok.1 h
    rcases List.mem_cons.1 hf with rfl | hf
    · exact ⟨c, r₁, r₂.code, h₁, List.suffix_rfl⟩
    · obtain ⟨c₁, r₃, rest, h₃, hs⟩ := ih h₂ hf
      exact ⟨c₁, r₃, rest, h₃, hs.trans (List.suffix_append _ _)⟩

/-- A label that stands in one place is found there. -/
theorem Code.idxOf?_label {code post : Code} {l : Label} (hc : code.count (.label l) ≤ 1)
    (hs : .label l :: post <:+ code) :
    ∃ pc, code.idxOf? (.label l) = some pc ∧ code.drop pc = .label l :: post := by
  obtain ⟨pre, rfl⟩ := hs
  have hp : Line.label l ∉ pre := by
    rw [← List.count_eq_zero]
    simp at hc
    omega
  refine ⟨pre.length, ?_, by simp⟩
  have hn : pre.findIdx? (· == Line.label l) = none := by
    rw [List.findIdx?_eq_none_iff]
    intro x hx
    simp only [beq_eq_false_iff_ne]
    rintro rfl
    exact hp hx
  simp [List.idxOf?, List.findIdx?_append, hn, List.findIdx?_cons]

end Stackwise
