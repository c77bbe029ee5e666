import Stackwise.Lowering.Stmt
import Stackwise.Tree.Functions

/-! What a generator notes.  A statement meets the functions that stand in no function inside it,
in the order of its code, and that integers are written is noted exactly where the code calls the
routine for it. -/
namespace Stackwise

/-- The operation does not call the routine that writes integers. -/
def Writer.Quiet {α : Type} (w : Writer α) : Prop :=
  ∀ c x a, w ⟨c, []⟩ = .ok x a → .instr (.call PrintInt.entry) ∉ a.code

namespace Writer.Quiet

theorem line {l : Line} (hl : l ≠ .instr (.call PrintInt.entry)) : (line l).Quiet := by
  intro c x a h
  cases h
  simpa using hl.symm

theorem unwind {words : Nat} : (unwind words).Quiet := by
  by_cases hw : words = 0
  · intro c x a h
    rw [Writer.unwind, if_pos hw] at h
    cases h
    simp
  · rw [Writer.unwind, if_neg hw]
    exact line (by simp)

theorem shrink {words : Nat} {w : Writer Unit} (hw : w.Quiet) :
    (shrink words >>= fun _ => w).Quiet := by
  intro c x a h
  rw [shrink_bind_apply] at h
  by_cases hc : words ≤ c.height
  · simp only [hc, if_true] at h
    exact hw _ _ _ h
  · simp only [hc, if_false] at h
    cases h

end Writer.Quiet

namespace Emit

/-- If the action succeeds, it has met the functions, and has noted that integers are written
exactly if its code calls the routine for that. -/
def Notes {α : Type} (fs : List FunctionDecl) (m : Emit α) : Prop :=
  ∀ c x d, m.run (.blank c) = .ok x d →
    d.met = fs ∧ (d.writesInt = true ↔ .instr (.call PrintInt.entry) ∈ d.code)

namespace Notes

section Actions

variable {α β : Type} {fs gs : List FunctionDecl} {m : Emit α} {f : α → Emit β}

theorem bind (hm : Notes fs m) (hf : ∀ x, Notes gs (f x)) : Notes (fs ++ gs) (m >>= f) := by
  intro c y d h
  change EStateM.bind m.run (fun x => (f x).run) (.blank c) = .ok y d at h
  unfold EStateM.bind at h
  cases hr : m.run (.blank c) with
  | error e d₁ => simp [hr] at h
  | ok x d₁ =>
    rw [hr] at h
    dsimp only at h
    rw [(f x).adds d₁] at h
    cases hs : (f x).run (.blank d₁.cursor) with
    | error e d₂ => simp [hs, Draft.onto] at h
    | ok z d₂ =>
      simp only [hs, Draft.onto, EStateM.Result.ok.injEq] at h
      obtain ⟨-, rfl⟩ := h
      obtain ⟨hmet, hint⟩ := hm _ _ _ hr
      obtain ⟨hmet', hint'⟩ := hf x _ _ _ hs
      simp [Draft.append, hmet, hmet', ← hint, ← hint']

theorem before (hm : Notes [] m) (hf : ∀ x, Notes fs (f x)) : Notes fs (m >>= f) := bind hm hf

theorem after (hm : Notes fs m) (hf : ∀ x, Notes [] (f x)) : Notes fs (m >>= f) := by
  simpa using bind hm hf

theorem pure {x : α} : Notes [] (pure x : Emit α) := by
  intro c y d h
  cases h
  simp [Draft.blank]

theorem fail {cause : Cause} {n : Nat} : Notes fs (fail cause n : Emit α) := by
  intro c y d h
  cases h

theorem ofWriter {w : Writer α} (hw : w.Appends) (h : w.Quiet) : Notes [] (ofWriter w hw) := by
  intro c y d hr
  cases hc : w ⟨c, []⟩ with
  | error e a =>
    have hrun : (Emit.ofWriter w hw).run (.blank c) = .error e ⟨a, [], false⟩ := by
      simp only [Emit.ofWriter, Draft.blank, hc]
    rw [hrun] at hr
    cases hr
  | ok x a =>
    have hrun : (Emit.ofWriter w hw).run (.blank c) = .ok x ⟨a, [], false⟩ := by
      simp only [Emit.ofWriter, Draft.blank, hc]
    rw [hrun] at hr
    cases hr
    simp [h c _ a hc]

theorem line {l : Line} (hl : l ≠ .instr (.call PrintInt.entry)) : Notes [] (line l) :=
  ofWriter _ (.line hl)

theorem directive {text : String} : Notes [] (directive text) := line (by simp)

theorem label {l : Label} : Notes [] (label l) := line (by simp)

theorem instr {i : Instr} (hi : i ≠ .call PrintInt.entry) : Notes [] (instr i) :=
  line (by simpa using hi)

theorem jump {j : Jump} {target : Label} : Notes [] (jump j target) := instr (by simp)

theorem height : Notes [] Emit.height := by
  refine ofWriter _ fun c x a h => ?_
  cases h
  simp

theorem freshLabel : Notes [] Emit.freshLabel := by
  refine ofWriter _ fun c x a h => ?_
  cases h
  simp

theorem push {src : Operand} : Notes [] (push src) := by
  refine ofWriter _ fun c x a h => ?_
  cases h
  simp

theorem pop {dst : Reg} : Notes [] (pop dst) := ofWriter _ (.shrink (.line (by simp)))

theorem unwind {words : Nat} : Notes [] (unwind words) := ofWriter _ .unwind

theorem drop {words : Nat} : Notes [] (drop words) := ofWriter _ (.shrink .unwind)

theorem enterFrame : Notes [] Emit.enterFrame := by
  refine ofWriter _ fun c x a h => ?_
  cases h
  simp

theorem leaveFrame {outside : Nat} : Notes [] (leaveFrame outside) := by
  refine ofWriter _ fun c x a h => ?_
  cases h
  simp

theorem lines {code : Code} (h : ∀ l ∈ code, l ≠ .instr (.call PrintInt.entry)) :
    Notes [] (lines code) := by
  induction code with
  | nil => exact pure
  | cons l code ih =>
    obtain ⟨hl, hcode⟩ := List.forall_mem_cons.1 h
    exact before (line hl) fun _ => ih hcode

theorem instrs {is : List Instr} (h : ∀ i ∈ is, i ≠ .call PrintInt.entry) :
    Notes [] (instrs is) := by
  refine lines fun l hl => ?_
  obtain ⟨i, hi, rfl⟩ := List.mem_map.1 hl
  simpa using h i hi

theorem meet {f : FunctionDecl} : Notes [f] (meet f) := by
  intro c x d h
  cases h
  simp [Draft.blank]

/-- The call and the note go together. -/
theorem writeInt : Notes [] (do Emit.instr (.call PrintInt.entry); noteInt) := by
  intro c x d h
  cases h
  simp [Draft.blank]

theorem load {src : Operand} : Notes [] (load src) := before (instr (by simp)) fun _ => push

theorem place {scope : Scope} {name : String} {n : Nat} : Notes [] (place scope name n) := by
  unfold Emit.place
  split
  · exact before height fun _ => pure
  · exact fail

theorem inScope {scope : Scope} {body : Scope → Emit Scope} (h : ∀ s, Notes fs (body s)) :
    Notes fs (inScope scope body) := by
  refine before height fun _ => after (h _) fun _ => before drop fun _ => before height fun _ => ?_
  split
  · exact pure
  · exact fail

theorem call {table : Signatures} {name : String} {arity n : Nat} {args : Emit Unit}
    (h : Notes [] args) : Notes [] (call table name arity n args) := by
  have hi : Instr.call (.function name) ≠ .call PrintInt.entry := by simp [PrintInt.entry]
  unfold Emit.call
  split
  · exact before h fun _ => before (instr hi) fun _ => drop
  · exact fail

end Actions

section Expr

variable {table : Signatures} {scope : Scope}

mutual

theorem expr : (e : Expr) → Notes [] (e.emit table scope)
  | .int value => by
    rw [Expr.emit]
    exact load
  | .ident name line => by
    rw [Expr.emit]
    exact before place fun _ => load
  | .paren inner => by
    rw [Expr.emit]
    exact expr inner
  | .call name args line => by
    rw [Expr.emit]
    exact before (call (exprs args)) fun _ => push
  | .bin op lhs rhs => by
    have hop : ∀ i ∈ op.code, i ≠ .call PrintInt.entry := by cases op <;> simp [BinOp.code]
    rw [Expr.emit]
    exact before (expr rhs) fun _ => before (expr lhs) fun _ => before pop fun _ =>
      before pop fun _ => before (instrs hop) fun _ => push

theorem exprs : (es : List Expr) → Notes [] (Expr.emitEach table scope es)
  | [] => by
    rw [Expr.emitEach]
    exact pure
  | e :: es => by
    rw [Expr.emitEach]
    exact before (expr e) fun _ => exprs es

end

end Expr

section Condition

variable {value : Expr → Emit Unit} {exits : Exits}

theorem jumpUnless {j : Jump} {negated : Bool} {target : Label} :
    Notes [] (jumpUnless j negated target) := by
  unfold Emit.jumpUnless
  split
  · split
    · exact jump
    · exact fail
  · exact jump

theorem link (hv : ∀ e, Notes [] (value e)) {k : Link} {target : Label} {truth : Bool} :
    Notes [] (k.emit value target truth) := by
  refine before (hv _) fun _ => ?_
  split
  · exact before (hv _) fun _ => before pop fun _ => before pop fun _ =>
      before (instr (by simp)) fun _ => jumpUnless
  · exact before pop fun _ => before (instr (by simp)) fun _ => jumpUnless

theorem exitsLink (hv : ∀ e, Notes [] (value e)) {k : Link} {rest : Condition} {ifFalse : Label} :
    Notes [] (exits.link value k rest ifFalse) := by
  unfold Exits.link
  split
  · exact link hv
  · exact link hv

theorem segmentLabel {segments segment : Nat} : Notes [] (exits.segmentLabel segments segment) := by
  unfold Exits.segmentLabel
  split
  · exact pure
  · exact freshLabel

theorem segmentLinks (hv : ∀ e, Notes [] (value e)) {segments : Nat} (cond : Condition) :
    ∀ {segment : Nat} {ifFalse : Label},
      Notes [] (exits.segmentLinks value segments segment ifFalse cond) := by
  induction cond with
  | nil => exact pure
  | cons k rest ih =>
    intro segment ifFalse
    rw [Exits.segmentLinks]
    split
    · exact before (exitsLink hv) fun _ => ih
    · split
      · exact before jump fun _ => before label fun _ => before segmentLabel fun _ => exitsLink hv
      · exact before freshLabel fun _ => before jump fun _ => before label fun _ =>
          before segmentLabel fun _ => before (exitsLink hv) fun _ => before label fun _ => ih

theorem condition (hv : ∀ e, Notes [] (value e)) {cond : Condition} {target : Label}
    {truth : Bool} : Notes [] (Condition.emit value cond target truth) := by
  cases cond with
  | nil => exact fail
  | cons first rest =>
    rw [Condition.emit]
    split
    · exact before freshLabel fun _ => before segmentLabel fun _ => before (exitsLink hv) fun _ =>
        before (segmentLinks hv rest) fun _ => label
    · exact before pure fun _ => before segmentLabel fun _ => before (exitsLink hv) fun _ =>
        before (segmentLinks hv rest) fun _ => pure

end Condition

section Stmt

theorem exitWithTop : Notes [] Emit.exitWithTop := before pop fun _ => instrs (by simp)

theorem exitNormally : Notes [] Emit.exitNormally := instrs (by simp)

theorem pushWords (words : List UInt64) : Notes [] (Emit.pushWords words) := by
  induction words with
  | nil => exact pure
  | cons w ws ih => exact before ih fun _ => load

theorem writeText {text : String} : Notes [] (Emit.writeText text) := by
  unfold Emit.writeText
  dsimp only
  split
  · exact pure
  · exact before (pushWords _) fun _ => before (instrs (by simp)) fun _ => drop

theorem printItems {table : Signatures} {scope : Scope} (items : List PrintItem) :
    Notes [] (PrintItem.emitEach table scope items) := by
  induction items with
  | nil => exact pure
  | cons item items ih =>
    refine before ?_ fun _ => ih
    cases item with
    | str text => exact writeText
    | expr value => exact before (expr value) fun _ => before pop fun _ => writeInt

theorem leave {loop : Loop} {target : Label} : Notes [] (loop.leave target) := by
  refine before height fun _ => ?_
  split
  · exact before unwind fun _ => jump
  · exact fail

mutual

theorem stmt : (s : Stmt) → ∀ {ctx : Context} {scope : Scope},
    Notes s.outerFunctions (s.emit ctx scope)
  | .exit none, _, _ => by
    rw [Stmt.emit, Stmt.outerFunctions]
    exact before exitNormally fun _ => pure
  | .exit (some value), _, _ => by
    rw [Stmt.emit, Stmt.outerFunctions]
    exact before (expr value) fun _ => before exitWithTop fun _ => pure
  | .letVar name value line, _, _ => by
    rw [Stmt.emit, Stmt.outerFunctions]
    split
    · exact fail
    · exact before (expr value) fun _ => before height fun _ => pure
  | .assign name value line, _, _ => by
    rw [Stmt.emit, Stmt.outerFunctions]
    exact before place fun _ => before (expr value) fun _ => before pop fun _ =>
      before (instr (by simp)) fun _ => pure
  | .block body, _, _ => by
    rw [Stmt.emit, Stmt.outerFunctions]
    exact after (inScope fun _ => stmts body) fun _ => pure
  | .print items, _, _ => by
    rw [Stmt.emit, Stmt.outerFunctions]
    exact before (printItems items) fun _ => pure
  | .ifElse cond body other, _, _ => by
    rw [Stmt.emit, Stmt.outerFunctions]
    refine before freshLabel fun _ => before (condition expr) fun _ =>
      bind (inScope fun _ => stmt body) fun _ => ?_
    split
    next h =>
      cases other with
      | absent => exact before label fun _ => pure
      | elseIf | otherwise => cases h
    next =>
      exact before freshLabel fun _ => before jump fun _ => before label fun _ =>
        after (branch other) fun _ => before label fun _ => pure
  | .whileLoop cond body, _, _ => by
    rw [Stmt.emit, Stmt.outerFunctions]
    exact before freshLabel fun _ => before freshLabel fun _ => before freshLabel fun _ =>
      before (condition expr) fun _ => before label fun _ => before height fun _ =>
        after (inScope fun _ => stmt body) fun _ => before label fun _ =>
          before (condition expr) fun _ => before label fun _ => pure
  | .forLoop init cond step body, _, _ => by
    rw [Stmt.emit, Stmt.outerFunctions, List.append_assoc]
    refine after (inScope fun _ => bind (stmt init) fun _ => before freshLabel fun _ =>
      before freshLabel fun _ => before freshLabel fun _ => before (condition expr) fun _ =>
        before label fun _ => before height fun _ => bind (inScope fun _ => stmt body) fun _ =>
          before label fun _ => after (inScope fun _ => stmt step) fun _ =>
            before (condition expr) fun _ => before label fun _ => pure) fun _ => pure
  | .function name params body line, _, _ => by
    rw [Stmt.emit, Stmt.outerFunctions]
    split
    · exact fail
    · exact after meet fun _ => pure
  | .ret value inFunction line, _, _ => by
    rw [Stmt.emit, Stmt.outerFunctions]
    split
    · split
      · exact before (expr _) fun _ => before pop fun _ => before height fun _ =>
          before unwind fun _ => before (instr (by simp)) fun _ => pure
      · exact before (instr (by simp)) fun _ => before height fun _ => before unwind fun _ =>
          before (instr (by simp)) fun _ => pure
    · exact fail
  | .call name args line, _, _ => by
    rw [Stmt.emit, Stmt.outerFunctions]
    exact before (call (exprs args)) fun _ => pure
  | .breakLoop line, _, _ => by
    rw [Stmt.emit, Stmt.outerFunctions]
    split
    · exact before leave fun _ => pure
    · exact before fail fun _ => pure
  | .continueLoop line, _, _ => by
    rw [Stmt.emit, Stmt.outerFunctions]
    split
    · exact before leave fun _ => pure
    · exact before fail fun _ => pure

theorem stmts : (ss : List Stmt) → ∀ {ctx : Context} {scope : Scope},
    Notes (Stmt.outerFunctionsEach ss) (Stmt.emitEach ss ctx scope)
  | [], _, _ => by
    rw [Stmt.emitEach, Stmt.outerFunctionsEach]
    exact pure
  | s :: ss, _, _ => by
    rw [Stmt.emitEach, Stmt.outerFunctionsEach]
    exact bind (stmt s) fun _ => stmts ss

theorem branch : (other : ElseBranch) → ∀ {ctx : Context} {scope : Scope} {done : Label},
    Notes other.outerFunctions (other.emit ctx scope done)
  | .absent, _, _, _ => by
    rw [ElseBranch.emit, ElseBranch.outerFunctions]
    exact pure
  | .elseIf cond body next, _, _, _ => by
    rw [ElseBranch.emit, ElseBranch.outerFunctions]
    refine before freshLabel fun _ => before (condition expr) fun _ =>
      bind (inScope fun _ => stmt body) fun _ => ?_
    split
    next h =>
      cases next with
      | absent => exact label
      | elseIf | otherwise => cases h
    next => exact before jump fun _ => before label fun _ => branch next
  | .otherwise body, _, _, _ => by
    rw [ElseBranch.emit, ElseBranch.outerFunctions]
    exact inScope fun _ => stmt body

end

end Stmt

end Notes

end Emit

end Stackwise
