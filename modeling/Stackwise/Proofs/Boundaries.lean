import Stackwise.Proofs.Placement
import Stackwise.Proofs.Statics

/-! What holds wherever a statement starts or ends.  Making code for a program comes from task to
task, and at each the variables, the open scopes, the open loops and the height of the stack agree:
every word on the stack is a local variable, and every variable is where its slot says. -/
namespace Stackwise

open Emit

/-- What is noted of a scope when it is entered: the variables there are, and the height. -/
structure Mark where
  vars : Nat
  height : Nat
deriving DecidableEq, Repr

/-- Where code is being made: in a function with these parameters or in none, in these scopes and
loops, the innermost first. -/
structure Moment where
  params : List String
  inFunction : Bool
  marks : List Mark
  loops : List Loop
  scope : Scope
  cursor : Cursor
deriving DecidableEq, Repr

namespace Moment

def start : Moment := ⟨[], false, [], [], .empty, .start⟩

/-- At the body of a function, which has a scope of its own around its parameters. -/
def ofParams (params : List String) (labels : Nat) : Moment :=
  ⟨params, true, [⟨params.length, 0⟩], [], (Scope.ofParams params).nested, ⟨0, labels⟩⟩

def context (table : Signatures) (m : Moment) : Context := ⟨table, m.loops.head?, m.inFunction⟩

def enter (m : Moment) (c : Cursor) : Moment :=
  { m with
    marks := ⟨m.scope.visible.length, c.height⟩ :: m.marks, scope := m.scope.nested, cursor := c }

def inLoop (m : Moment) (loop : Loop) : Moment := { m with loops := loop :: m.loops }

def goTo (m : Moment) (c : Cursor) : Moment := { m with cursor := c }

def after (m : Moment) (r : Emitted Scope) : Moment :=
  { m with scope := r.value, cursor := r.cursor }

def vars (m : Moment) : List Var := m.scope.visible.reverse

def locals (m : Moment) : List Var := m.vars.drop m.params.length

structure Consistent (m : Moment) : Prop where
  height : m.cursor.height = m.locals.length
  slot : ∀ (i : Nat) (v : Var), m.locals[i]? = some v → v.slot = i
  param : ∀ (j : Nat) (name : String), m.params[j]? = some name →
    m.vars[j]? = some (⟨name, (j : Int) - m.params.length - 1⟩ : Var)
  /-- The variables of a scope are those that are not noted in its mark. -/
  own : m.scope.outer.length = (m.marks.head?.map Mark.vars).getD 0
  mark : ∀ k ∈ m.marks, k.vars = m.params.length + k.height ∧ k.vars ≤ m.vars.length ∧
    k.height ≤ m.cursor.height
  loop : ∀ l ∈ m.loops, l.height ≤ m.cursor.height

end Moment

/-- What there is to make code for. -/
inductive Task where
  | stmt (s : Stmt)
  | stmts (ss : List Stmt)
  | branch (other : ElseBranch)

/-- From one task to another that is part of it, after all that comes before in the code. -/
inductive Task.Comes (table : Signatures) : Task → Moment → Task → Moment → Prop
  | first {s : Stmt} {ss : List Stmt} {m : Moment} : Comes table (.stmts (s :: ss)) m (.stmt s) m
  | rest {s : Stmt} {ss : List Stmt} {m : Moment} {r : Emitted Scope} :
    s.emit (m.context table) m.scope m.cursor = .ok r →
      Comes table (.stmts (s :: ss)) m (.stmts ss) (m.after r)
  | block {body : List Stmt} {m : Moment} :
    Comes table (.stmt (.block body)) m (.stmts body) (m.enter m.cursor)
  | ifBody {cond : Condition} {body : Stmt} {other : ElseBranch} {m : Moment} {r : Emitted Unit} :
    Condition.emit (Expr.emit table m.scope) cond (.fresh m.cursor.labels) false
      ⟨m.cursor.height, m.cursor.labels + 1⟩ = .ok r →
      Comes table (.stmt (.ifElse cond body other)) m (.stmt body) (m.enter r.cursor)
  | ifOther {cond : Condition} {body : Stmt} {other : ElseBranch} {m : Moment}
    {r₁ r₂ : Emitted Unit} :
    Condition.emit (Expr.emit table m.scope) cond (.fresh m.cursor.labels) false
      ⟨m.cursor.height, m.cursor.labels + 1⟩ = .ok r₁ →
    inScope m.scope (fun inner => body.emit (m.context table) inner) r₁.cursor = .ok r₂ →
      Comes table (.stmt (.ifElse cond body other)) m (.branch other)
        (m.goTo ⟨r₂.cursor.height, r₂.cursor.labels + 1⟩)
  | elseIfBody {cond : Condition} {body : Stmt} {next : ElseBranch} {m : Moment}
      {r : Emitted Unit} :
    Condition.emit (Expr.emit table m.scope) cond (.fresh m.cursor.labels) false
      ⟨m.cursor.height, m.cursor.labels + 1⟩ = .ok r →
      Comes table (.branch (.elseIf cond body next)) m (.stmt body) (m.enter r.cursor)
  | elseIfNext {cond : Condition} {body : Stmt} {next : ElseBranch} {m : Moment}
    {r₁ r₂ : Emitted Unit} :
    Condition.emit (Expr.emit table m.scope) cond (.fresh m.cursor.labels) false
      ⟨m.cursor.height, m.cursor.labels + 1⟩ = .ok r₁ →
    inScope m.scope (fun inner => body.emit (m.context table) inner) r₁.cursor = .ok r₂ →
      Comes table (.branch (.elseIf cond body next)) m (.branch next) (m.goTo r₂.cursor)
  | otherwise {body : Stmt} {m : Moment} :
    Comes table (.branch (.otherwise body)) m (.stmt body) (m.enter m.cursor)
  | whileBody {cond : Condition} {body : Stmt} {m : Moment} {r : Emitted Unit} :
    Condition.emit (Expr.emit table m.scope) cond (.fresh m.cursor.labels) false
      ⟨m.cursor.height, m.cursor.labels + 3⟩ = .ok r →
      Comes table (.stmt (.whileLoop cond body)) m (.stmt body) ((m.enter r.cursor).inLoop
        ⟨r.cursor.height, .fresh m.cursor.labels, .fresh (m.cursor.labels + 2)⟩)
  | forInit {init step body : Stmt} {cond : Condition} {m : Moment} :
    Comes table (.stmt (.forLoop init cond step body)) m (.stmt init) (m.enter m.cursor)
  | forBody {init step body : Stmt} {cond : Condition} {m : Moment} {r₀ : Emitted Scope}
    {r₁ : Emitted Unit} :
    init.emit (m.context table) m.scope.nested m.cursor = .ok r₀ →
    Condition.emit (Expr.emit table r₀.value) cond (.fresh r₀.cursor.labels) false
      ⟨r₀.cursor.height, r₀.cursor.labels + 3⟩ = .ok r₁ →
      Comes table (.stmt (.forLoop init cond step body)) m (.stmt body)
        ((((m.enter m.cursor).after r₀).enter r₁.cursor).inLoop
          ⟨r₁.cursor.height, .fresh r₀.cursor.labels, .fresh (r₀.cursor.labels + 2)⟩)
  | forStep {init step body : Stmt} {cond : Condition} {m : Moment} {r₀ : Emitted Scope}
    {r₁ r₂ : Emitted Unit} :
    init.emit (m.context table) m.scope.nested m.cursor = .ok r₀ →
    Condition.emit (Expr.emit table r₀.value) cond (.fresh r₀.cursor.labels) false
      ⟨r₀.cursor.height, r₀.cursor.labels + 3⟩ = .ok r₁ →
    inScope r₀.value (fun inner => body.emit { m.context table with
      loop := some ⟨r₁.cursor.height, .fresh r₀.cursor.labels, .fresh (r₀.cursor.labels + 2)⟩ }
        inner)
      r₁.cursor = .ok r₂ →
      Comes table (.stmt (.forLoop init cond step body)) m (.stmt step)
        (((m.enter m.cursor).after r₀).enter r₂.cursor)

/-- What making code for a program comes to: its statements, and each function after all that comes
before it. -/
inductive Program.Reaches (table : Signatures) (p : Program) : Task → Moment → Prop
  | main : Reaches table p (.stmts p) .start
  | function {before rest : List FunctionDecl} {f : FunctionDecl} {r : Emitted Scope}
    {r' : Emitted Unit} : p.functionsByDepth = before ++ f :: rest →
    Stmt.emitEach p ⟨table, none, false⟩ .empty .start = .ok r →
    FunctionDecl.emitEach table before r.cursor = .ok r' →
      Reaches table p (.stmt f.body) (.ofParams f.params r'.cursor.labels)
  | step {t t' : Task} {m m' : Moment} :
    Reaches table p t m → Task.Comes table t m t' m' → Reaches table p t' m'

/-- The words that a statement leaves on the stack. -/
def Stmt.words : Stmt → Nat
  | .letVar .. => 1
  | _ => 0

theorem Stmt.emit_height {s : Stmt} {ctx : Context} {scope : Scope} {c : Cursor} {r : Emitted Scope}
    (h : s.emit ctx scope c = .ok r) : r.cursor.height = c.height + s.words := by
  obtain ⟨news, ho, -, hh⟩ := (Stmt.emit_grows s h).1.split
  rw [Stmt.emit_value h] at ho
  have hl := congrArg List.length ho
  rw [hh]
  cases s <;> simp [Stmt.scopeAfter, Scope.declare, Stmt.words] at hl ⊢ <;> omega

namespace Moment.Consistent

variable {m : Moment}

theorem length_params_le (h : m.Consistent) : m.params.length ≤ m.vars.length := by
  by_contra hlt
  have hj : m.vars.length < m.params.length := by omega
  have hp := h.param m.vars.length _ (List.getElem?_eq_getElem hj)
  simp at hp

theorem length_vars (h : m.Consistent) : m.vars.length = m.params.length + m.cursor.height := by
  have hl := h.length_params_le
  rw [h.height, locals, List.length_drop]
  omega

theorem start : Moment.start.Consistent := by
  refine ⟨rfl, ?_, ?_, rfl, ?_, ?_⟩ <;> simp [Moment.start, locals, vars, Scope.visible,
    Scope.empty]

theorem ofParams (params : List String) (labels : Nat) :
    (Moment.ofParams params labels).Consistent := by
  have hv : (Moment.ofParams params labels).vars =
      params.zipIdx.map fun p => ⟨p.1, (p.2 : Int) - params.length - 1⟩ := by
    simp [vars, Moment.ofParams, Scope.ofParams, Scope.visible, Scope.nested]
  have hl : (Moment.ofParams params labels).locals = [] := by
    rw [locals, hv]
    simp [Moment.ofParams]
  refine ⟨by rw [hl]; rfl, by simp [hl], fun j name hj => ?_, ?_, ?_, by simp [Moment.ofParams]⟩
  · have hj' : params[j]? = some name := hj
    rw [hv]
    simp [List.getElem?_map, List.getElem?_zipIdx, hj', Moment.ofParams]
  · simp [Moment.ofParams, Scope.ofParams, Scope.nested, Scope.visible]
  · rw [hv]
    simp [Moment.ofParams]

theorem goTo (h : m.Consistent) {c : Cursor} (hc : c.height = m.cursor.height) :
    (m.goTo c).Consistent :=
  ⟨hc.trans h.height, h.slot, h.param, h.own,
    fun k hk => by simpa [Moment.goTo, vars, hc] using h.mark k hk,
    fun l hl => by simpa [Moment.goTo, hc] using h.loop l hl⟩

theorem enter (h : m.Consistent) {c : Cursor} (hc : c.height = m.cursor.height) :
    (m.enter c).Consistent := by
  have hv : m.scope.visible.length = m.params.length + m.cursor.height := by
    rw [← h.length_vars, vars, List.length_reverse]
  refine ⟨hc.trans h.height, h.slot, h.param, rfl, ?_, fun l hl => ?_⟩
  · refine List.forall_mem_cons.2 ⟨?_, fun k hk => ?_⟩
    · simp [Moment.enter, vars, hv, hc]
    · simpa [Moment.enter, vars, hc] using h.mark k hk
  · simpa [Moment.enter, hc] using h.loop l hl

theorem inLoop (h : m.Consistent) {loop : Loop} (hl : loop.height ≤ m.cursor.height) :
    (m.inLoop loop).Consistent :=
  ⟨h.height, h.slot, h.param, h.own, h.mark, List.forall_mem_cons.2 ⟨hl, h.loop⟩⟩

theorem declare (h : m.Consistent) (name : String) {c : Cursor}
    (hc : c.height = m.cursor.height + 1) :
    ({ m with scope := m.scope.declare ⟨name, m.cursor.height⟩, cursor := c } :
      Moment).Consistent := by
  generalize hm : ({ m with scope := m.scope.declare ⟨name, m.cursor.height⟩, cursor := c } :
    Moment) = m'
  have hp : m'.params = m.params := by rw [← hm]
  have hv : m'.vars = m.vars ++ [⟨name, m.cursor.height⟩] := by
    simp [← hm, vars, Scope.visible, Scope.declare]
  have hl : m'.locals = m.locals ++ [⟨name, m.cursor.height⟩] := by
    rw [locals, locals, hv, hp, List.drop_append_of_le_length h.length_params_le]
  have hh : m'.cursor.height = m.cursor.height + 1 := by rw [← hm, ← hc]
  refine ⟨?_, fun i v hi => ?_, fun j name' hj => ?_, ?_, fun k hk => ?_, fun l hl => ?_⟩
  · simp [hh, hl, h.height]
  · rw [hl, List.getElem?_append] at hi
    split at hi
    · exact h.slot i v hi
    · rename_i hn
      obtain ⟨hz, rfl⟩ : i - m.locals.length = 0 ∧ _ := by simpa [List.getElem?_singleton] using hi
      have := h.height
      dsimp only
      omega
  · rw [hp] at hj ⊢
    have hj' := h.param j name' hj
    rw [hv, List.getElem?_append_left (List.getElem?_eq_some_iff.1 hj').1, hj']
  · simpa [← hm, Scope.declare] using h.own
  · obtain ⟨he, hv', hk'⟩ := h.mark k (by rw [← hm] at hk; exact hk)
    rw [hp, hh, hv]
    exact ⟨he, by simp only [List.length_append]; omega, by omega⟩
  · have := h.loop l (by rw [← hm] at hl; exact hl)
    omega

theorem after (h : m.Consistent) {s : Stmt} {ctx : Context} {r : Emitted Scope}
    (hr : s.emit ctx m.scope m.cursor = .ok r) : (m.after r).Consistent := by
  have hv := Stmt.emit_value hr
  have hh := Stmt.emit_height hr
  rw [Moment.after, hv]
  cases s with
  | letVar name value line => exact h.declare name hh
  | _ => exact h.goTo hh

theorem comes (h : m.Consistent) {table : Signatures} {t t' : Task} {m' : Moment}
    (hc : Task.Comes table t m t' m') : m'.Consistent := by
  cases hc with
  | first => exact h
  | rest hr => exact h.after hr
  | block => exact h.enter rfl
  | ifBody h₁ => exact h.enter (Condition.emit_expr_steady h₁).height
  | ifOther h₁ h₂ => exact h.goTo ((inScope_height h₂).trans (Condition.emit_expr_steady h₁).height)
  | elseIfBody h₁ => exact h.enter (Condition.emit_expr_steady h₁).height
  | elseIfNext h₁ h₂ => exact h.goTo ((inScope_height h₂).trans
      (Condition.emit_expr_steady h₁).height)
  | otherwise => exact h.enter rfl
  | whileBody h₁ => exact (h.enter (Condition.emit_expr_steady h₁).height).inLoop le_rfl
  | forInit => exact h.enter rfl
  | forBody h₀ h₁ =>
    have hi := (h.enter (c := m.cursor) rfl).after h₀
    exact (hi.enter (Condition.emit_expr_steady h₁).height).inLoop le_rfl
  | forStep h₀ h₁ h₂ =>
    have hi := (h.enter (c := m.cursor) rfl).after h₀
    exact hi.enter ((inScope_height h₂).trans (Condition.emit_expr_steady h₁).height)

end Moment.Consistent

theorem Program.Reaches.consistent {table : Signatures} {p : Program} {t : Task} {m : Moment}
    (h : p.Reaches table t m) : m.Consistent := by
  induction h with
  | main => exact .start
  | function _ _ _ => exact .ofParams _ _
  | step _ hc ih => exact ih.comes hc

section Coverage

variable {table : Signatures} {p : Program}

theorem FunctionDecl.emitEach_split {before rest : List FunctionDecl} {f : FunctionDecl} :
    ∀ {c : Cursor} {r : Emitted Unit}, FunctionDecl.emitEach table (before ++ f :: rest) c = .ok r →
      ∃ r₁ r₂, FunctionDecl.emitEach table before c = .ok r₁ ∧ f.emit table r₁.cursor = .ok r₂ := by
  induction before with
  | nil =>
    intro c r h
    obtain ⟨r₁, r₂, h₁, -, -⟩ := FunctionDecl.emitEach_cons_eq_ok.1 h
    exact ⟨⟨(), c, []⟩, r₁, rfl, h₁⟩
  | cons g before ih =>
    intro c r h
    obtain ⟨r₁, r₂, h₁, h₂, -⟩ := FunctionDecl.emitEach_cons_eq_ok.1 h
    obtain ⟨r₃, r₄, h₃, h₄⟩ := ih h₂
    exact ⟨_, r₄, FunctionDecl.emitEach_cons_eq_ok.2 ⟨r₁, r₃, h₁, h₃, rfl⟩, h₄⟩

/-- Making code for a statement comes to it, and succeeds. -/
def Stmt.Made (table : Signatures) (p : Program) (s : Stmt) : Prop :=
  ∃ m r, p.Reaches table (.stmt s) m ∧ s.emit (m.context table) m.scope m.cursor = .ok r

theorem Stmt.Made.step {t : Task} {m m' : Moment} {s : Stmt} {r : Emitted Scope}
    (h : p.Reaches table t m) (hc : Task.Comes table t m (.stmt s) m')
    (hr : s.emit (m'.context table) m'.scope m'.cursor = .ok r) : s.Made table p :=
  ⟨m', r, h.step hc, hr⟩

theorem Node.stmt_notMem_ofExprs {s : Stmt} {es : List Expr} : Node.stmt s ∉ Node.ofExprs es := by
  simp [Node.ofExprs]

mutual

/-- If the code for a statement is made, so is that for all statements in it. -/
theorem Stmt.made_nodes (hf : ∀ f ∈ p.functions, f.body.Made table p) : (s : Stmt) →
    s.Made table p → (∀ n ∈ s.nodes, n ∈ p.nodes) → ∀ s', .stmt s' ∈ s.nodes → s'.Made table p
  | .exit _, h, _, s', hs | .letVar .., h, _, s', hs | .assign .., h, _, s', hs
  | .print _, h, _, s', hs | .ret .., h, _, s', hs | .call .., h, _, s', hs
  | .breakLoop _, h, _, s', hs | .continueLoop _, h, _, s', hs => by
    simp only [Stmt.nodes, List.mem_cons, Node.stmt.injEq, Node.stmt_notMem_ofExprs, or_false,
      List.not_mem_nil] at hs
    exact hs ▸ h
  | .block body, h, hn, s', hs => by
    rw [Stmt.nodes, List.forall_mem_cons] at hn
    rcases List.mem_cons.1 hs with hs | hs
    · exact Node.stmt.inj hs ▸ h
    obtain ⟨m, r, hm, hr⟩ := h
    obtain ⟨r₁, h₁, -⟩ := Stmt.emit_block_eq_ok.1 hr
    obtain ⟨r₂, h₂, -⟩ := inScope_eq_ok.1 h₁
    exact Stmt.madeEach_nodes hf body (hm.step .block) h₂ hn.2 s' hs
  | .ifElse cond body other, h, hn, s', hs => by
    simp only [Stmt.nodes, List.forall_mem_cons, List.forall_mem_append] at hn
    simp only [Stmt.nodes, List.mem_cons, List.mem_append, Node.stmt_notMem_ofExprs, false_or] at hs
    rcases hs with hs | hs | hs
    · exact Node.stmt.inj hs ▸ h
    all_goals
      obtain ⟨m, r, hm, hr⟩ := h
      obtain ⟨r₁, r₂, h₁, h₂, h₃⟩ := Stmt.emit_ifElse_eq_ok.1 hr
    · obtain ⟨r₃, h₄, -⟩ := inScope_eq_ok.1 h₂
      exact Stmt.made_nodes hf body (.step hm (.ifBody h₁) h₄) hn.2.1.2 s' hs
    · by_cases ho : other = .absent
      · simp [ho, ElseBranch.nodes] at hs
      rw [ElseBranch.isAbsent_of_ne ho, if_neg (by simp)] at h₃
      obtain ⟨r₃, h₃, -⟩ := h₃
      exact ElseBranch.made_nodes hf other (hm.step (.ifOther h₁ h₂)) h₃ hn.2.2 s' hs
  | .whileLoop cond body, h, hn, s', hs => by
    simp only [Stmt.nodes, List.forall_mem_cons, List.forall_mem_append] at hn
    simp only [Stmt.nodes, List.mem_cons, List.mem_append, Node.stmt_notMem_ofExprs, false_or] at hs
    rcases hs with hs | hs
    · exact Node.stmt.inj hs ▸ h
    obtain ⟨m, r, hm, hr⟩ := h
    obtain ⟨r₁, r₂, r₃, h₁, h₂, -, -⟩ := Stmt.emit_whileLoop_eq_ok.1 hr
    obtain ⟨r₄, h₄, -⟩ := inScope_eq_ok.1 h₂
    exact Stmt.made_nodes hf body (.step hm (.whileBody h₁) h₄) hn.2.2 s' hs
  | .forLoop init cond step body, h, hn, s', hs => by
    simp only [Stmt.nodes, List.forall_mem_cons, List.forall_mem_append] at hn
    simp only [Stmt.nodes, List.mem_cons, List.mem_append, Node.stmt_notMem_ofExprs, or_false] at hs
    rcases hs with hs | (hs | hs) | hs
    · exact Node.stmt.inj hs ▸ h
    all_goals
      obtain ⟨m, r, hm, hr⟩ := h
      obtain ⟨r₀, r₁, r₂, r₃, r₄, h₀, h₁, h₂, h₃, -, -, -⟩ := Stmt.emit_forLoop_ok hr
    · exact Stmt.made_nodes hf init (.step hm .forInit h₀) hn.2.1.1.1 s' hs
    · obtain ⟨r₅, h₅, -⟩ := inScope_eq_ok.1 h₃
      exact Stmt.made_nodes hf step (.step hm (.forStep h₀ h₁ h₂) h₅) hn.2.1.2 s' hs
    · obtain ⟨r₅, h₅, -⟩ := inScope_eq_ok.1 h₂
      exact Stmt.made_nodes hf body (.step hm (.forBody h₀ h₁) h₅) hn.2.2 s' hs
  | .function name params body line, h, hn, s', hs => by
    rw [Stmt.nodes, List.forall_mem_cons] at hn
    rcases List.mem_cons.1 hs with hs | hs
    · exact Node.stmt.inj hs ▸ h
    -- The body is no part of the code here: it is reached as that of one of the functions.
    have hm : ⟨name, params, body, line⟩ ∈ p.functions := List.mem_filterMap.2 ⟨_, hn.1, rfl⟩
    exact Stmt.made_nodes hf body (hf _ hm) hn.2 s' hs

theorem Stmt.madeEach_nodes (hf : ∀ f ∈ p.functions, f.body.Made table p) : (ss : List Stmt) →
    ∀ {m : Moment} {r : Emitted Scope}, p.Reaches table (.stmts ss) m →
      Stmt.emitEach ss (m.context table) m.scope m.cursor = .ok r →
      (∀ n ∈ Stmt.nodesEach ss, n ∈ p.nodes) → ∀ s', .stmt s' ∈ Stmt.nodesEach ss → s'.Made table p
  | [], m, r, _, _, _, s', hs => by simp [Stmt.nodesEach] at hs
  | s :: ss, m, r, hm, hr, hn, s', hs => by
    rw [Stmt.nodesEach, List.forall_mem_append] at hn
    obtain ⟨r₁, r₂, h₁, h₂, -⟩ := Stmt.emitEach_cons_eq_ok.1 hr
    rcases List.mem_append.1 hs with hs | hs
    · exact Stmt.made_nodes hf s (.step hm .first h₁) hn.1 s' hs
    · exact Stmt.madeEach_nodes hf ss (hm.step (.rest h₁)) h₂ hn.2 s' hs

theorem ElseBranch.made_nodes (hf : ∀ f ∈ p.functions, f.body.Made table p) : (other : ElseBranch) →
    ∀ {m : Moment} {done : Label} {r : Emitted Unit}, p.Reaches table (.branch other) m →
      other.emit (m.context table) m.scope done m.cursor = .ok r →
      (∀ n ∈ other.nodes, n ∈ p.nodes) → ∀ s', .stmt s' ∈ other.nodes → s'.Made table p
  | .absent, m, done, r, _, _, _, s', hs => by simp [ElseBranch.nodes] at hs
  | .elseIf cond body next, m, done, r, hm, hr, hn, s', hs => by
    simp only [ElseBranch.nodes, List.forall_mem_append] at hn
    simp only [ElseBranch.nodes, List.mem_append, Node.stmt_notMem_ofExprs, false_or] at hs
    obtain ⟨r₁, r₂, h₁, h₂, h₃⟩ := ElseBranch.emit_elseIf_eq_ok.1 hr
    rcases hs with hs | hs
    · obtain ⟨r₃, h₄, -⟩ := inScope_eq_ok.1 h₂
      exact Stmt.made_nodes hf body (.step hm (.elseIfBody h₁) h₄) hn.1.2 s' hs
    · by_cases ho : next = .absent
      · simp [ho, ElseBranch.nodes] at hs
      rw [ElseBranch.isAbsent_of_ne ho, if_neg (by simp)] at h₃
      obtain ⟨r₃, h₃, -⟩ := h₃
      exact ElseBranch.made_nodes hf next (hm.step (.elseIfNext h₁ h₂)) h₃ hn.2 s' hs
  | .otherwise body, m, done, r, hm, hr, hn, s', hs => by
    obtain ⟨r₁, h₁, -⟩ := inScope_eq_ok.1 hr
    exact Stmt.made_nodes hf body (.step hm .otherwise h₁) hn s' hs

end

/-- Code for a program is code for every statement that is written in it. -/
theorem Program.made_nodes {code : Code} (h : p.code table = .ok code) {s : Stmt}
    (hs : .stmt s ∈ p.nodes) : s.Made table p := by
  obtain ⟨r, hr, -⟩ := Program.code_eq_ok.1 h
  obtain ⟨r₁, r₂, h₁, h₂, -⟩ := Program.emit_eq_ok.1 hr
  have hf : ∀ f ∈ p.functions, f.body.Made table p := by
    intro f hf
    obtain ⟨before, rest, hd⟩ := List.append_of_mem (p.functionsByDepth_perm.mem_iff.2 hf)
    rw [hd] at h₂
    obtain ⟨r₃, r₄, h₃, h₄⟩ := FunctionDecl.emitEach_split h₂
    obtain ⟨r₅, h₅, -⟩ := FunctionDecl.emit_eq_ok.1 h₄
    obtain ⟨r₆, h₆, -⟩ := inScope_eq_ok.1 h₅
    exact ⟨_, r₆, .function hd h₁ h₃, h₆⟩
  exact Stmt.madeEach_nodes hf p .main h₁ (fun _ hn => hn) s hs

end Coverage

section Failure

variable {table : Signatures} {p : Program} {e : Error}

/-- What fails among statements is one of them. -/
theorem Stmt.emitEach_error (ss : List Stmt) : ∀ {m : Moment}, p.Reaches table (.stmts ss) m →
    Stmt.emitEach ss (m.context table) m.scope m.cursor = .error e →
      ∃ s m', p.Reaches table (.stmt s) m' ∧
        s.emit (m'.context table) m'.scope m'.cursor = .error e := by
  induction ss with
  | nil => nofun
  | cons s ss ih =>
    intro m hm h
    rw [Stmt.emitEach, bind_eq_error] at h
    rcases h with h | ⟨r, h₁, h₂⟩
    · exact ⟨s, m, hm.step .first, h⟩
    · exact ih (hm.step (.rest h₁)) h₂

theorem FunctionDecl.emit_error {f : FunctionDecl} {c : Cursor} (h : f.emit table c = .error e) :
    f.body.emit ⟨table, none, true⟩ (Scope.ofParams f.params).nested ⟨0, c.labels⟩ = .error e := by
  rw [← Emit.fault?_eq_some] at h ⊢
  rw [Stmt.emit_fault? f.body (.ofParams table f.params) (by simp [Context.Below]), ← h,
    FunctionDecl.emit_fault?]
  rfl

theorem FunctionDecl.emitEach_error (fs : List FunctionDecl) : ∀ {c : Cursor},
    FunctionDecl.emitEach table fs c = .error e → ∃ before f rest r, fs = before ++ f :: rest ∧
      FunctionDecl.emitEach table before c = .ok r ∧ f.emit table r.cursor = .error e := by
  induction fs with
  | nil => nofun
  | cons f fs ih =>
    intro c h
    rw [FunctionDecl.emitEach, bind_eq_error] at h
    rcases h with h | ⟨r, h₁, h₂⟩
    · exact ⟨[], f, fs, ⟨(), c, []⟩, rfl, rfl, h⟩
    · obtain ⟨before, g, rest, r', rfl, h₃, h₄⟩ := ih h₂
      exact ⟨f :: before, g, rest, _, rfl, FunctionDecl.emitEach_cons_eq_ok.2 ⟨r, r', h₁, h₃, rfl⟩,
        h₄⟩

theorem Program.emitMain_error {c : Cursor} (h : p.emitMain table c = .error e) :
    Stmt.emitEach p ⟨table, none, false⟩ .empty c = .error e := by
  rw [← Emit.fault?_eq_some, emitMain, fault?_directive_bind, fault?_directive_bind,
    fault?_label_bind, fault?_bind_eq, Emit.fault?_eq_some] at h
  · exact h
  · intro r _
    split <;> exact ⟨_, rfl⟩

/-- A program without code has a statement at which making code for it ends. -/
theorem Program.code_stops (h : p.code table = .error e) : ∃ s m, p.Reaches table (.stmt s) m ∧
    s.emit (m.context table) m.scope m.cursor = .error e := by
  rw [code_eq_error, ← emit_fault?, Emit.fault?_eq_some, Program.emit, bind_eq_error] at h
  rcases h with h | ⟨r, h₁, h₂⟩
  · exact Stmt.emitEach_error p .main (emitMain_error h)
  · obtain ⟨r₁, hr, rfl⟩ := emitMain_eq_ok.1 h₁
    obtain ⟨before, f, rest, r', hd, h₃, h₄⟩ := FunctionDecl.emitEach_error _ h₂
    exact ⟨f.body, _, .function hd hr h₃, FunctionDecl.emit_error h₄⟩

end Failure

/-- Of the faults of the compiler, a program shows only those that lie in its tree or its table. -/
theorem Program.code_internal {table : Signatures} {p : Program} {e : Error}
    (h : p.code table = .error e) (hk : e.cause.kind = .internal) :
    e.cause = .emptyCondition ∨ ∃ name, e.cause = .callOutsideTable name := by
  obtain ⟨before, ⟨g, construct⟩, rest, -, -, -, rfl⟩ := Site.fault?_eq_some.1 (code_eq_error.1 h)
  cases construct <;> simp [Site.error, Cause.kind] at hk ⊢

/-- Wherever making code for a program comes to, all that is counted agrees, and so it does after
every statement; if there is code, it has come to every statement of the program, and if there is
none, to one that fails.  A statement adds a variable and a word if it is a declaration and else
nothing, an expression pushes one word, and conditions, calls and functions leave the height as it
was.  So the stack never runs out and no scope is left unbalanced. -/
theorem Program.counts_agree (table : Signatures) (p : Program) :
    (∀ t m, p.Reaches table t m → m.Consistent) ∧
    (∀ s m r, p.Reaches table (.stmt s) m →
      s.emit (m.context table) m.scope m.cursor = .ok r → (m.after r).Consistent) ∧
    (∀ code, p.code table = .ok code →
      ∀ s, .stmt s ∈ p.nodes → ∃ m, p.Reaches table (.stmt s) m) ∧
    (∀ e, p.code table = .error e → ∃ s m, p.Reaches table (.stmt s) m ∧
      s.emit (m.context table) m.scope m.cursor = .error e) ∧
    (∀ (s : Stmt) ctx scope c r, s.emit ctx scope c = .ok r →
      r.value = s.scopeAfter scope c.height ∧ r.cursor.height = c.height + s.words) ∧
    (∀ (e : Expr) scope c r, e.emit table scope c = .ok r → r.cursor.height = c.height + 1) ∧
    (∀ scope cond target truth c r,
      Condition.emit (Expr.emit table scope) cond target truth c = .ok r →
        r.cursor.height = c.height) ∧
    (∀ scope name (args : List Expr) line c r,
      Emit.call table name args.length line (Expr.emitEach table scope args) c = .ok r →
        r.cursor.height = c.height) ∧
    (∀ (f : FunctionDecl) c r, f.emit table c = .ok r → r.cursor.height = c.height) ∧
    ∀ e, p.code table = .error e → e.cause.kind = .internal →
      e.cause = .emptyCondition ∨ ∃ name, e.cause = .callOutsideTable name := by
  refine ⟨fun t m h => h.consistent, fun s m r h hr => h.consistent.after hr, ?_,
    fun e => code_stops, fun s ctx scope c r h => ⟨Stmt.emit_value h, Stmt.emit_height h⟩, ?_,
    fun scope cond target truth c r h => (Condition.emit_expr_steady h).height, ?_, ?_,
    fun e => code_internal⟩
  · intro code hc s hs
    obtain ⟨m, -, hm, -⟩ := made_nodes hc hs
    exact ⟨m, hm⟩
  · intro e scope c r h
    rw [(Expr.emit_pushes e h).cursor]
  · intro scope name args line c r h
    rw [(call_pushes h fun r' h' => Expr.emitEach_pushes args h').cursor]
    rfl
  · intro f c r h
    obtain ⟨r₁, -, rfl⟩ := FunctionDecl.emit_eq_ok.1 h
    rfl

end Stackwise
