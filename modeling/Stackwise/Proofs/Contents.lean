import Stackwise.Proofs.Emission

/-! What code consists of.  Outside of the routine that writes integers, every line of a program's
code is of one of few shapes or belongs to the code that writes a text, and the texts that are
written are those of the program in the order of its code.  In particular, all calls are of
functions of the table or of that routine. -/
namespace Stackwise

open Emit

section Texts

/-- The texts of a `print`.  An empty one is not written. -/
def PrintItem.texts (items : List PrintItem) : List String :=
  (items.filterMap PrintItem.text?).filter (· ≠ "")

mutual

/-- The texts that a statement writes, outside of functions, in the order of its code. -/
def Stmt.texts : Stmt → List String
  | .exit _ => []
  | .letVar .. => []
  | .assign .. => []
  | .block body => Stmt.textsEach body
  | .print items => PrintItem.texts items
  | .ifElse _ body other => body.texts ++ other.texts
  | .whileLoop _ body => body.texts
  | .forLoop init _ step body => init.texts ++ (body.texts ++ step.texts)
  | .function .. => []
  | .ret .. => []
  | .call .. => []
  | .breakLoop _ => []
  | .continueLoop _ => []

def Stmt.textsEach : List Stmt → List String
  | [] => []
  | s :: ss => s.texts ++ Stmt.textsEach ss

def ElseBranch.texts : ElseBranch → List String
  | .absent => []
  | .elseIf _ body next => body.texts ++ next.texts
  | .otherwise body => body.texts

end

/-- The texts that a program writes: those of its statements, then those of its functions. -/
def Program.texts (p : Program) : List String :=
  Stmt.textsEach p ++ p.functionsByDepth.flatMap fun f => f.body.texts

end Texts

/-- A function of the table, or the routine that writes integers. -/
def Label.Callable (table : Signatures) (l : Label) : Prop :=
  l = PrintInt.entry ∨ ∃ s ∈ table, l = .function s.name

/-- The shapes of lines outside of texts and of the routine that writes integers. -/
inductive Line.Basic (table : Signatures) : Line → Prop
  | start : Basic table (.directive "global _start")
  | code : Basic table (.directive "section .text")
  | label {l : Label} : Basic table (.label l)
  | jump {j : Jump} {l : Label} : Basic table (.instr (.jump j l))
  | call {l : Label} : l.Callable table → Basic table (.instr (.call l))
  | push : Basic table (.instr (.push (.reg .rax)))
  | pop {r : Reg} : Basic table (.instr (.pop r))
  | number {value : Int} : Basic table (.instr (.mov (.reg .rax) (.int value)))
  | fetch {offset : Int} : Basic table (.instr (.mov (.reg .rax) (.slot offset)))
  | store {offset : Int} : Basic table (.instr (.mov (.slot offset) (.reg .rax)))
  | status : Basic table (.instr (.mov (.reg .rdi) (.int 0)))
  | alu {op : Alu} {r : Reg} : Basic table (.instr (.alu op (.reg .rax) (.reg r)))
  | drop {words : Nat} : Basic table (.instr (.alu .add (.reg .rsp) (.int (8 * words))))
  | extend : Basic table (.instr .cqo)
  | divide : Basic table (.instr (.unary .idiv .rbx))
  | ret : Basic table (.instr .ret)
  | syscall : Basic table (.instr .syscall)

namespace Code

def pushing (words : List UInt64) : Code :=
  words.reverse.flatMap fun w => [.instr (.mov (.reg .rax) (.word w)), .instr (.push (.reg .rax))]

def writing (text : String) : Code :=
  let bytes := text.toUTF8.data.toList
  let words := Word.pack bytes
  pushing words ++ [.instr (.mov (.reg .rax) (.int 1)), .instr (.mov (.reg .rdi) (.int 1)),
    .instr (.mov (.reg .rsi) (.reg .rsp)), .instr (.mov (.reg .rdx) (.int bytes.length)),
    .instr .syscall, .instr (.alu .add (.reg .rsp) (.int (8 * words.length)))]

/-- Lines of the basic shapes and, between them, the code that writes some texts in order. -/
inductive Spells (table : Signatures) : List String → Code → Prop
  | nil : Spells table [] []
  | line {l : Line} {texts : List String} {code : Code} : l.Basic table → Spells table texts code →
    Spells table texts (l :: code)
  | text {text : String} {texts : List String} {code : Code} : text ≠ "" →
    Spells table texts code → Spells table (text :: texts) (writing text ++ code)

namespace Spells

variable {table : Signatures} {texts texts' : List String} {code code' : Code}

theorem append (h : Spells table texts code) (h' : Spells table texts' code') :
    Spells table (texts ++ texts') (code ++ code') := by
  induction h with
  | nil => exact h'
  | line hl _ ih => exact .line hl ih
  | text ht _ ih =>
    rw [List.append_assoc]
    exact .text ht ih

theorem of_basic (h : ∀ l ∈ code, l.Basic table) : Spells table [] code := by
  induction code with
  | nil => exact .nil
  | cons l code ih =>
    obtain ⟨hl, hc⟩ := List.forall_mem_cons.1 h
    exact .line hl (ih hc)

end Spells

end Code

/-- Whatever code an action emits, it is of known shapes and writes the texts. -/
def Emit.Writes {α : Type} (table : Signatures) (texts : List String) (m : Emit α) : Prop :=
  ∀ c r, m c = .ok r → Code.Spells table texts r.code

namespace Emit.Writes

variable {α β : Type} {table : Signatures} {texts texts' : List String}

theorem bind {m : Emit α} {f : α → Emit β} (hm : Writes table texts m)
    (hf : ∀ a, Writes table texts' (f a)) : Writes table (texts ++ texts') (m >>= f) := by
  intro c r h
  obtain ⟨r₁, r₂, h₁, h₂, rfl⟩ := bind_eq_ok.1 h
  exact (hm c r₁ h₁).append (hf r₁.value r₁.cursor r₂ h₂)

theorem before {m : Emit α} {f : α → Emit β} (hm : Writes table [] m)
    (hf : ∀ a, Writes table texts (f a)) : Writes table texts (m >>= f) :=
  hm.bind hf

theorem after {m : Emit α} {f : α → Emit β} (hm : Writes table texts m)
    (hf : ∀ a, Writes table [] (f a)) : Writes table texts (m >>= f) := by
  simpa using hm.bind hf

/-- Actions that emit lines of basic shapes write nothing. -/
theorem of_basic {m : Emit α} (h : ∀ c r, m c = .ok r → ∀ l ∈ r.code, l.Basic table) :
    Writes table [] m :=
  fun c r hr => .of_basic (h c r hr)

theorem pure {a : α} : Writes table [] (Pure.pure a : Emit α) := by
  intro c r h
  obtain rfl := pure_eq_ok.1 h
  exact .nil

theorem fail {cause : Cause} {line : Nat} : Writes table texts (Emit.fail cause line : Emit α) := by
  intro c r h
  simp_all

theorem height : Writes table [] Emit.height :=
  of_basic fun c r h => by simp_all

theorem freshLabel : Writes table [] Emit.freshLabel :=
  of_basic fun c r h => by simp_all

theorem label {l : Label} : Writes table [] (Emit.label l) :=
  of_basic fun c r h => by simp_all [Line.Basic.label]

theorem jump {j : Jump} {target : Label} : Writes table [] (Emit.jump j target) :=
  of_basic fun c r h => by simp_all [Line.Basic.jump]

theorem instr {i : Instr} (hi : Line.Basic table (.instr i)) : Writes table [] (Emit.instr i) :=
  of_basic fun c r h => by simp_all

theorem instrs {is : List Instr} (hi : ∀ i ∈ is, Line.Basic table (.instr i)) :
    Writes table [] (Emit.instrs is) :=
  of_basic fun c r h => by simp_all

theorem push : Writes table [] (Emit.push (.reg .rax)) := by
  intro c r h
  obtain rfl := push_eq_ok.1 h
  exact .line .push .nil

theorem pop {dst : Reg} : Writes table [] (Emit.pop dst) :=
  of_basic fun c r h => by simp_all [Line.Basic.pop]

theorem basic_dropping {n : Nat} : ∀ l ∈ dropping n, l.Basic table := by
  unfold dropping
  split
  · exact List.forall_mem_nil _
  · exact List.forall_mem_singleton.2 .drop

theorem unwind {n : Nat} : Writes table [] (Emit.unwind n) :=
  of_basic fun c r h => by
    obtain rfl := unwind_eq_ok.1 h
    exact basic_dropping

theorem drop {n : Nat} : Writes table [] (Emit.drop n) :=
  of_basic fun c r h => by
    obtain ⟨-, rfl⟩ := drop_eq_ok.1 h
    exact basic_dropping

theorem load {src : Operand} (hs : Line.Basic table (.instr (.mov (.reg .rax) src))) :
    Writes table [] (Emit.load src) :=
  before (instr hs) fun _ => push

theorem place_bind {scope : Scope} {name : String} {line : Nat} {f : Operand → Emit α}
    (hf : ∀ offset, Writes table texts (f (.slot offset))) :
    Writes table texts (Emit.place scope name line >>= f) := by
  intro c r h
  obtain ⟨r₁, r₂, h₁, h₂, rfl⟩ := bind_eq_ok.1 h
  obtain ⟨v, -, rfl⟩ := place_eq_ok.1 h₁
  exact hf _ c r₂ h₂

theorem inScope {scope : Scope} {body : Scope → Emit Scope}
    (hb : ∀ s, Writes table texts (body s)) :
    Writes table texts (Emit.inScope scope body) := by
  refine before height fun outside => after (hb _) fun inner => before drop fun _ =>
    before height fun left => ?_
  split
  · exact pure
  · exact fail

theorem call {name : String} {arity line : Nat} {args : Emit Unit} (ha : Writes table [] args) :
    Writes table [] (Emit.call table name arity line args) := by
  unfold Emit.call
  split
  next hs =>
    obtain ⟨s, hs, -⟩ := Option.map_eq_some_iff.1 hs
    have hn : s.name = name := by simpa using List.find?_some hs
    have hc : Label.Callable table (.function name) :=
      .inr ⟨s, List.mem_of_find?_eq_some hs, by rw [hn]⟩
    exact before ha fun _ => before (instr (.call hc)) fun _ => drop
  next => exact fail

theorem binOp (op : BinOp) : ∀ i ∈ op.code, Line.Basic table (.instr i) := by
  cases op <;>
    simp [BinOp.code, Line.Basic.alu, Line.Basic.extend, Line.Basic.divide]

section Expr

variable {scope : Scope}

mutual

theorem expr : (e : Expr) → Writes table [] (e.emit table scope)
  | .int value => by
    rw [Expr.emit]
    exact load .number
  | .ident name line => by
    rw [Expr.emit]
    exact place_bind fun _ => load .fetch
  | .paren inner => by
    rw [Expr.emit]
    exact expr inner
  | .call name args line => by
    rw [Expr.emit]
    exact before (call (exprs args)) fun _ => push
  | .bin op lhs rhs => by
    rw [Expr.emit]
    exact before (expr rhs) fun _ => before (expr lhs) fun _ => before pop fun _ =>
      before pop fun _ => before (instrs (binOp op)) fun _ => push

theorem exprs : (es : List Expr) → Writes table [] (Expr.emitEach table scope es)
  | [] => by
    rw [Expr.emitEach]
    exact pure
  | e :: es => by
    rw [Expr.emitEach]
    exact before (expr e) fun _ => exprs es

end

end Expr

section Condition

variable {value : Expr → Emit Unit}

theorem link (hv : ∀ e, Writes table [] (value e)) {k : Link} {target : Label} {truth : Bool} :
    Writes table [] (k.emit value target truth) := by
  rw [Link.emit_eq]
  refine before (hv _) fun _ => ?_
  split
  · exact before (hv _) fun _ => before pop fun _ => before pop fun _ =>
      before (instr .alu) fun _ =>
      jump
  · exact before pop fun _ => before (instr .alu) fun _ => jump

theorem exits (hv : ∀ e, Writes table [] (value e)) {exits : Exits} {k : Link} {rest : Condition}
    {ifFalse : Label} : Writes table [] (exits.link value k rest ifFalse) := by
  unfold Exits.link
  split
  · exact link hv
  · exact link hv

theorem falseLabel {exits : Exits} {rest : Condition} :
    Writes table [] (exits.falseLabel rest) := by
  unfold Exits.falseLabel
  split
  · exact freshLabel
  · exact pure

theorem links (hv : ∀ e, Writes table [] (value e)) {exits : Exits} (cond : Condition) :
    ∀ {ifFalse : Label}, Writes table [] (exits.links value ifFalse cond) := by
  induction cond with
  | nil => exact pure
  | cons k rest ih =>
    intro ifFalse
    rw [Exits.links]
    split
    · exact before (Writes.exits hv) fun _ => ih
    · split
      · exact before jump fun _ => before label fun _ => Writes.exits hv
      · exact before freshLabel fun _ => before jump fun _ => before label fun _ =>
          before falseLabel fun _ => before (Writes.exits hv) fun _ => before label fun _ => ih

theorem condition (hv : ∀ e, Writes table [] (value e)) {cond : Condition} {target : Label}
    {truth : Bool} : Writes table [] (Condition.emit value cond target truth) := by
  cases cond with
  | nil => exact fail
  | cons first rest =>
    rw [Condition.emit_cons]
    split
    · exact before freshLabel fun _ => before falseLabel fun _ => before (exits hv) fun _ =>
        before (links hv rest) fun _ => label
    · exact before pure fun _ => before falseLabel fun _ => before (exits hv) fun _ =>
        before (links hv rest) fun _ => pure

end Condition

section Stmt

theorem exitWithTop : Writes table [] Emit.exitWithTop :=
  before pop fun _ => instrs (by simp [sysExit, Line.Basic.number, Line.Basic.syscall])

theorem exitNormally : Writes table [] Emit.exitNormally :=
  instrs (by simp [sysExit, Line.Basic.number, Line.Basic.status, Line.Basic.syscall])

theorem code_pushWords (words : List UInt64) : ∀ {c : Cursor} {r : Emitted Unit},
    Emit.pushWords words c = .ok r → r.code = Code.pushing words := by
  induction words with
  | nil =>
    intro c r h
    obtain rfl := pure_eq_ok.1 h
    rfl
  | cons w ws ih =>
    intro c r h
    obtain ⟨r₁, r₂, h₁, h₂, rfl⟩ := bind_eq_ok.1 h
    obtain rfl := load_eq_ok.1 h₂
    simp [Code.pushing, ih h₁]

theorem writeText {text : String} (ht : text ≠ "") : Writes table [text] (Emit.writeText text) := by
  have hb : text.toUTF8.data.toList ≠ [] := by
    intro h
    have he : text.toByteArray = ByteArray.empty := ByteArray.ext (by simpa using h)
    exact ht (String.toByteArray_eq_empty_iff.1 he)
  have hw : (Word.pack text.toUTF8.data.toList).length ≠ 0 := by
    rw [Word.pack, if_neg (by simpa using hb)]
    simp
  intro c r h
  rw [Emit.writeText, if_neg (by simpa using hb)] at h
  obtain ⟨r₁, r₂, h₁, h₂, rfl⟩ := bind_eq_ok.1 h
  obtain ⟨r₃, r₄, h₃, h₄, rfl⟩ := bind_eq_ok.1 h₂
  obtain rfl := instrs_eq_ok.1 h₃
  obtain ⟨-, rfl⟩ := drop_eq_ok.1 h₄
  have hs : Code.Spells table [text] (Code.writing text ++ []) := .text ht .nil
  rw [List.append_nil, Code.writing, ← code_pushWords _ h₁] at hs
  rw [dropping, if_neg hw]
  exact hs

theorem writeText_empty : Writes table [] (Emit.writeText "") := pure

theorem printItem {scope : Scope} (item : PrintItem) :
    Writes table (PrintItem.texts [item]) (item.emit table scope) := by
  cases item with
  | str text =>
    by_cases ht : text = ""
    · subst ht
      exact writeText_empty
    · have hs : PrintItem.texts [.str text] = [text] := by
        simp [PrintItem.texts, PrintItem.text?, ht]
      rw [hs]
      exact writeText ht
  | expr value =>
    have hnote : Writes table [] noteInt := of_basic fun c r h => by simp_all
    exact before (expr value) fun _ => before pop fun _ =>
      before (instr (.call (.inl rfl))) fun _ => hnote

theorem printItems {scope : Scope} (items : List PrintItem) :
    Writes table (PrintItem.texts items) (PrintItem.emitEach table scope items) := by
  induction items with
  | nil => exact pure
  | cons item items ih =>
    have hs : PrintItem.texts (item :: items) = PrintItem.texts [item] ++
        PrintItem.texts items := by
      rw [PrintItem.texts, ← List.singleton_append, List.filterMap_append, List.filter_append]
      rfl
    rw [hs]
    exact bind (printItem item) fun _ => ih

theorem leave {loop : Loop} {target : Label} : Writes table [] (loop.leave target) := by
  refine before height fun _ => ?_
  split
  · exact before unwind fun _ => jump
  · exact fail

mutual

theorem stmt : (s : Stmt) → ∀ {ctx : Context} {scope : Scope},
    Writes ctx.table s.texts (s.emit ctx scope)
  | .exit none, ctx, scope => by
    rw [Stmt.emit, Stmt.texts]
    exact before exitNormally fun _ => pure
  | .exit (some value), ctx, scope => by
    rw [Stmt.emit, Stmt.texts]
    exact before (expr value) fun _ => before exitWithTop fun _ => pure
  | .letVar name value line, ctx, scope => by
    rw [Stmt.emit, Stmt.texts]
    split
    · exact fail
    · exact before (expr value) fun _ => before height fun _ => pure
  | .assign name value line, ctx, scope => by
    rw [Stmt.emit, Stmt.texts]
    exact place_bind fun _ => before (expr value) fun _ => before pop fun _ =>
      before (instr .store) fun _ => pure
  | .block body, ctx, scope => by
    rw [Stmt.emit, Stmt.texts]
    exact after (inScope fun _ => stmts body) fun _ => pure
  | .print items, ctx, scope => by
    rw [Stmt.emit, Stmt.texts]
    exact after (printItems items) fun _ => pure
  | .ifElse cond body other, ctx, scope => by
    rw [Stmt.emit, Stmt.texts]
    refine before freshLabel fun _ => before (condition expr) fun _ =>
      bind (inScope fun _ => stmt body) fun _ => ?_
    split
    next ho =>
      obtain rfl : other = .absent := by cases other <;> first | rfl | cases ho
      exact before label fun _ => pure
    next =>
      exact before freshLabel fun _ => before jump fun _ => before label fun _ =>
        after (elseBranch other) fun _ => before label fun _ => pure
  | .whileLoop cond body, ctx, scope => by
    rw [Stmt.emit, Stmt.texts]
    exact before freshLabel fun _ => before freshLabel fun _ => before freshLabel fun _ =>
      before (condition expr) fun _ => before label fun _ => before height fun _ =>
        after (inScope fun _ => stmt body) fun _ => before label fun _ =>
          before (condition expr) fun _ => before label fun _ => pure
  | .forLoop init cond step body, ctx, scope => by
    rw [Stmt.emit, Stmt.texts]
    refine after (inScope fun _ => bind (stmt init) fun _ => before freshLabel fun _ =>
      before freshLabel fun _ => before freshLabel fun _ => before (condition expr) fun _ =>
        before label fun _ => before height fun _ => bind (inScope fun _ => stmt body) fun _ =>
          before label fun _ => after (inScope fun _ => stmt step) fun _ =>
            before (condition expr) fun _ => before label fun _ => pure) fun _ => pure
  | .function name params body line, ctx, scope => by
    rw [Stmt.emit, Stmt.texts]
    split
    · exact fail
    · exact pure
  | .ret value inFunction line, ctx, scope => by
    rw [Stmt.emit, Stmt.texts]
    split
    · cases value with
      | some value =>
        exact before (expr value) fun _ => before pop fun _ => before height fun _ =>
          before unwind fun _ => before (instr .ret) fun _ => pure
      | none =>
        exact before (instr .number) fun _ => before height fun _ => before unwind fun _ =>
          before (instr .ret) fun _ => pure
    · exact fail
  | .call name args line, ctx, scope => by
    rw [Stmt.emit, Stmt.texts]
    exact before (call (exprs args)) fun _ => pure
  | .breakLoop line, ctx, scope => by
    rw [Stmt.emit, Stmt.texts]
    split
    · exact before leave fun _ => pure
    · exact before fail fun _ => pure
  | .continueLoop line, ctx, scope => by
    rw [Stmt.emit, Stmt.texts]
    split
    · exact before leave fun _ => pure
    · exact before fail fun _ => pure

theorem stmts : (ss : List Stmt) → ∀ {ctx : Context} {scope : Scope},
    Writes ctx.table (Stmt.textsEach ss) (Stmt.emitEach ss ctx scope)
  | [], ctx, scope => by
    rw [Stmt.emitEach, Stmt.textsEach]
    exact pure
  | s :: ss, ctx, scope => by
    rw [Stmt.emitEach, Stmt.textsEach]
    exact bind (stmt s) fun _ => stmts ss

theorem elseBranch : (other : ElseBranch) → ∀ {ctx : Context} {scope : Scope} {done : Label},
    Writes ctx.table other.texts (other.emit ctx scope done)
  | .absent, ctx, scope, done => by
    rw [ElseBranch.emit, ElseBranch.texts]
    exact pure
  | .elseIf cond body next, ctx, scope, done => by
    rw [ElseBranch.emit, ElseBranch.texts]
    refine before freshLabel fun _ => before (condition expr) fun _ =>
      bind (inScope fun _ => stmt body) fun _ => ?_
    split
    next ho =>
      obtain rfl : next = .absent := by cases next <;> first | rfl | cases ho
      exact label
    next => exact before jump fun _ => before label fun _ => elseBranch next
  | .otherwise body, ctx, scope, done => by
    rw [ElseBranch.emit, ElseBranch.texts]
    exact inScope fun _ => stmt body

end

end Stmt

theorem function (f : FunctionDecl) : Writes table f.body.texts (f.emit table) := by
  have henter : Writes table [] Emit.enterFrame := of_basic fun c r h => by simp_all
  have hleave {n : Nat} : Writes table [] (Emit.leaveFrame n) := of_basic fun c r h => by simp_all
  have hend : Writes table [] (Emit.instrs [.mov (.reg .rax) (.int 0), .ret]) :=
    instrs (by simp [Line.Basic.number, Line.Basic.ret])
  exact before henter fun _ => before label fun _ => after (inScope fun _ => stmt f.body) fun _ =>
    before hend fun _ => hleave

theorem functions (fs : List FunctionDecl) :
    Writes table (fs.flatMap fun f => f.body.texts) (FunctionDecl.emitEach table fs) := by
  induction fs with
  | nil => exact pure
  | cons f fs ih => exact bind (function f) fun _ => ih

theorem program (p : Program) : Writes table p.texts (p.emit table) := by
  have hdirective {text : String} (h : Line.Basic table (.directive text)) :
      Writes table [] (Emit.directive text) := of_basic fun c r hr => by simp_all
  refine bind (before (hdirective .start) fun _ => before (hdirective .code) fun _ =>
    before label fun _ => after (stmts p) fun _ => ?_) fun _ => functions _
  split
  · exact pure
  · exact exitNormally

end Emit.Writes

/-- Every call in the code of an action is of a label that the table allows. -/
def Emit.CallsOnly {α : Type} (table : Signatures) (m : Emit α) : Prop :=
  ∀ c r, m c = .ok r → ∀ l, .instr (.call l) ∈ r.code → l.Callable table

theorem Code.call_notMem_writing (text : String) (l : Label) :
    Line.instr (.call l) ∉ Code.writing text := by
  simp [Code.writing, Code.pushing]

theorem Code.Spells.callable {table : Signatures} {texts : List String} {code : Code}
    (h : code.Spells table texts) {l : Label} (hl : .instr (.call l) ∈ code) :
      l.Callable table := by
  induction h with
  | nil => cases hl
  | line hb _ ih =>
    rcases List.mem_cons.1 hl with rfl | hl
    · cases hb
      assumption
    · exact ih hl
  | text _ _ ih =>
    exact ih ((List.mem_append.1 hl).resolve_left (Code.call_notMem_writing _ l))

theorem Emit.CallsOnly.program {table : Signatures} (p : Program) :
    CallsOnly table (p.emit table) :=
  fun c r h _ hl => (Writes.program p c r h).callable hl

end Stackwise
