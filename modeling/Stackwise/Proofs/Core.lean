import Stackwise.Proofs.Placement

/-! What a tree means apart from how it is laid out.  The core of a tree has no parentheses and no
lines, and the first link of a condition in it is joined by `&&`.  A tree and its core have the same
functions and calls, and the same code is made for both, or both are rejected for the same cause. -/
namespace Stackwise

open Emit

/-- The cause of a rejection without the lines that it mentions. -/
def Cause.core : Cause → Cause
  | .functionRedeclared name _ => .functionRedeclared name 0
  | cause => cause

@[simp] theorem Cause.kind_core (cause : Cause) : cause.core.kind = cause.kind := by
  cases cause <;> rfl

/-- Two outcomes are alike if they yield related values or have the same cause but for lines. -/
inductive Except.Alike {α β : Type} (R : α → β → Prop) : Except Error α → Except Error β → Prop
  | ok {a : α} {b : β} (h : R a b) : Alike R (.ok a) (.ok b)
  | error {e₁ e₂ : Error} (h : e₁.cause.core = e₂.cause.core) : Alike R (.error e₁) (.error e₂)

namespace Except.Alike

variable {α β γ δ : Type}

theorem refl (x : Except Error α) : Alike Eq x x := by
  cases x with
  | error e => exact .error rfl
  | ok a => exact .ok rfl

theorem bind {R : α → β → Prop} {S : γ → δ → Prop} {x : Except Error α} {y : Except Error β}
    {f : α → Except Error γ} {g : β → Except Error δ} (h : Alike R x y)
    (hf : ∀ a b, R a b → Alike S (f a) (g b)) : Alike S (x >>= f) (y >>= g) := by
  cases h with
  | ok h => exact hf _ _ h
  | error h => exact .error h

/-- Outcomes that are alike one outcome are alike each other. -/
theorem of_common {x y z : Except Error α} (hy : Alike Eq x y) (hz : Alike Eq x z) :
    Alike Eq y z := by
  cases hy with
  | ok h =>
    cases hz with
    | ok h' => exact .ok (h.symm.trans h')
  | error h =>
    cases hz with
    | error h' => exact .error (h.symm.trans h')

end Except.Alike

/-- Actions that emit the same lines and leave the same counts, or fail for the same cause. -/
def Emit.Alike {α : Type} (m₁ m₂ : Emit α) : Prop := ∀ c, Except.Alike Eq (m₁ c) (m₂ c)

namespace Emit.Alike

variable {α β : Type}

theorem refl (m : Emit α) : Alike m m := fun c => Except.Alike.refl (m c)

theorem fail {cause : Cause} {line₁ line₂ : Nat} :
    Alike (Emit.fail cause line₁ : Emit α) (Emit.fail cause line₂) := fun _ => .error rfl

theorem bind {m₁ m₂ : Emit α} {f₁ f₂ : α → Emit β} (hm : Alike m₁ m₂)
    (hf : ∀ a, Alike (f₁ a) (f₂ a)) : Alike (m₁ >>= f₁) (m₂ >>= f₂) := by
  intro c
  rw [bind_apply, bind_apply]
  have h₁ := hm c
  generalize m₁ c = x₁, m₂ c = x₂ at h₁
  cases h₁ with
  | error h => exact .error h
  | @ok r _ h =>
    subst h
    have h₂ := hf r.value r.cursor
    dsimp only
    generalize f₁ r.value r.cursor = y₁, f₂ r.value r.cursor = y₂ at h₂
    cases h₂ with
    | error h => exact .error h
    | ok h => exact .ok (by rw [h])

theorem after (m : Emit α) {f₁ f₂ : α → Emit β} (hf : ∀ a, Alike (f₁ a) (f₂ a)) :
    Alike (m >>= f₁) (m >>= f₂) :=
  (refl m).bind hf

theorem before {m₁ m₂ : Emit α} (hm : Alike m₁ m₂) (f : α → Emit β) :
    Alike (m₁ >>= f) (m₂ >>= f) :=
  hm.bind fun a => refl (f a)

theorem inScope {scope : Scope} {body₁ body₂ : Scope → Emit Scope}
    (hb : ∀ s, Alike (body₁ s) (body₂ s)) :
    Alike (Emit.inScope scope body₁) (Emit.inScope scope body₂) :=
  after _ fun _ => (hb _).before _

theorem place {scope : Scope} {name : String} {line₁ line₂ : Nat} :
    Alike (Emit.place scope name line₁) (Emit.place scope name line₂) := by
  unfold Emit.place
  split
  · exact refl _
  · exact fail

end Emit.Alike

section Trees

mutual

/-- An expression without parentheses and lines. -/
def Expr.core : Expr → Expr
  | .int value => .int value
  | .ident name _ => .ident name 0
  | .paren inner => inner.core
  | .call name args _ => .call name (Expr.coreEach args) 0
  | .bin op lhs rhs => .bin op lhs.core rhs.core

def Expr.coreEach : List Expr → List Expr
  | [] => []
  | e :: es => e.core :: Expr.coreEach es

end

def Link.coreWith (connector : Connector) (k : Link) : Link :=
  ⟨k.lhs.core, k.comparison.map fun c => (c.1, c.2.core), connector⟩

def Link.core (k : Link) : Link := k.coreWith k.connector

/-- A condition whose first link counts as joined by `&&`. -/
def Condition.core : Condition → Condition
  | [] => []
  | first :: rest => first.coreWith .and :: rest.map Link.core

def PrintItem.core : PrintItem → PrintItem
  | .str text => .str text
  | .expr value => .expr value.core

mutual

def Stmt.core : Stmt → Stmt
  | .exit value => .exit (value.map Expr.core)
  | .letVar name value _ => .letVar name value.core 0
  | .assign name value _ => .assign name value.core 0
  | .block body => .block (Stmt.coreEach body)
  | .print items => .print (items.map PrintItem.core)
  | .ifElse cond body other => .ifElse (Condition.core cond) body.core other.core
  | .whileLoop cond body => .whileLoop (Condition.core cond) body.core
  | .forLoop init cond step body =>
    .forLoop init.core (Condition.core cond) step.core body.core
  | .function name params body _ => .function name params body.core 0
  | .ret value inFunction _ => .ret (value.map Expr.core) inFunction 0
  | .call name args _ => .call name (Expr.coreEach args) 0
  | .breakLoop _ => .breakLoop 0
  | .continueLoop _ => .continueLoop 0

def Stmt.coreEach : List Stmt → List Stmt
  | [] => []
  | s :: ss => s.core :: Stmt.coreEach ss

def ElseBranch.core : ElseBranch → ElseBranch
  | .absent => .absent
  | .elseIf cond body next => .elseIf (Condition.core cond) body.core next.core
  | .otherwise body => .otherwise body.core

end

def Program.core (p : Program) : Program := Stmt.coreEach p

def FunctionDecl.core (f : FunctionDecl) : FunctionDecl := ⟨f.name, f.params, f.body.core, 0⟩

def CallSite.core (c : CallSite) : CallSite := { c with line := 0 }

/-- The table without the lines of the declarations. -/
def Signatures.core (t : Signatures) : Signatures := t.map fun s => { s with line := 0 }

theorem Expr.coreEach_eq (es : List Expr) : Expr.coreEach es = es.map Expr.core := by
  induction es with
  | nil => rfl
  | cons e es ih => rw [Expr.coreEach, ih, List.map_cons]

theorem Stmt.coreEach_eq (ss : List Stmt) : Stmt.coreEach ss = ss.map Stmt.core := by
  induction ss with
  | nil => rfl
  | cons s ss ih => rw [Stmt.coreEach, ih, List.map_cons]

@[simp] theorem Expr.length_coreEach (es : List Expr) : (Expr.coreEach es).length = es.length := by
  rw [Expr.coreEach_eq, List.length_map]

@[simp] theorem ElseBranch.isAbsent_core (other : ElseBranch) :
    other.core.isAbsent = other.isAbsent := by
  cases other <;> rfl

theorem Program.endsWithExit_core (p : Program) : p.core.endsWithExit = p.endsWithExit := by
  rw [Program.endsWithExit, Program.endsWithExit, Program.core, Stmt.coreEach_eq,
    List.getLast?_map]
  cases p.getLast? with
  | none => rfl
  | some s => cases s <;> rfl

end Trees

section Functions

mutual

theorem Stmt.outerFunctions_core : (s : Stmt) →
    s.core.outerFunctions = s.outerFunctions.map FunctionDecl.core
  | .exit _ | .letVar .. | .assign .. | .print _ | .ret .. | .call .. | .breakLoop _
  | .continueLoop _ => rfl
  | .block body => by
    rw [Stmt.core, Stmt.outerFunctions, Stmt.outerFunctions, Stmt.outerFunctionsEach_core body]
  | .ifElse _ body other => by
    rw [Stmt.core, Stmt.outerFunctions, Stmt.outerFunctions, Stmt.outerFunctions_core body,
      ElseBranch.outerFunctions_core other, List.map_append]
  | .whileLoop _ body => by
    rw [Stmt.core, Stmt.outerFunctions, Stmt.outerFunctions, Stmt.outerFunctions_core body]
  | .forLoop init _ step body => by
    rw [Stmt.core, Stmt.outerFunctions, Stmt.outerFunctions, Stmt.outerFunctions_core init,
      Stmt.outerFunctions_core step, Stmt.outerFunctions_core body, List.map_append,
      List.map_append]
  | .function .. => rfl

theorem Stmt.outerFunctionsEach_core : (ss : List Stmt) →
    Stmt.outerFunctionsEach (Stmt.coreEach ss) =
      (Stmt.outerFunctionsEach ss).map FunctionDecl.core
  | [] => rfl
  | s :: ss => by
    rw [Stmt.coreEach, Stmt.outerFunctionsEach, Stmt.outerFunctionsEach, Stmt.outerFunctions_core s,
      Stmt.outerFunctionsEach_core ss, List.map_append]

theorem ElseBranch.outerFunctions_core : (other : ElseBranch) →
    other.core.outerFunctions = other.outerFunctions.map FunctionDecl.core
  | .absent => rfl
  | .elseIf _ body next => by
    rw [ElseBranch.core, ElseBranch.outerFunctions, ElseBranch.outerFunctions,
      Stmt.outerFunctions_core body, ElseBranch.outerFunctions_core next, List.map_append]
  | .otherwise body => by
    rw [ElseBranch.core, ElseBranch.outerFunctions, ElseBranch.outerFunctions,
      Stmt.outerFunctions_core body]

end

theorem FunctionDecl.breadthFirst_core (fs : List FunctionDecl) :
    FunctionDecl.breadthFirst (fs.map FunctionDecl.core) =
      (FunctionDecl.breadthFirst fs).map FunctionDecl.core := by
  fun_induction FunctionDecl.breadthFirst fs with
  | case1 => rw [List.map_nil, FunctionDecl.breadthFirst]
  | case2 f fs ih =>
    have hq : fs.map FunctionDecl.core ++ f.core.body.outerFunctions =
        (fs ++ f.body.outerFunctions).map FunctionDecl.core := by
      rw [List.map_append]
      exact congrArg _ (Stmt.outerFunctions_core f.body)
    rw [List.map_cons, FunctionDecl.breadthFirst, hq, ih, List.map_cons]

theorem Program.functionsByDepth_core (p : Program) :
    p.core.functionsByDepth = p.functionsByDepth.map FunctionDecl.core := by
  rw [Program.functionsByDepth, Program.core, Stmt.outerFunctionsEach_core,
    FunctionDecl.breadthFirst_core]
  rfl

mutual

theorem Stmt.functions_core : (s : Stmt) →
    s.core.nodes.filterMap FunctionDecl.ofNode? =
      (s.nodes.filterMap FunctionDecl.ofNode?).map FunctionDecl.core
  | .exit _ | .letVar .. | .assign .. | .print _ | .ret .. | .call .. | .breakLoop _
  | .continueLoop _ => by
    simp [Stmt.core, Stmt.nodes, List.filterMap_cons, FunctionDecl.ofNode?]
  | .block body => by
    simpa [Stmt.core, Stmt.nodes, List.filterMap_cons, FunctionDecl.ofNode?] using
      Stmt.functionsEach_core body
  | .ifElse cond body other => by
    simp [Stmt.core, Stmt.nodes, List.filterMap_cons, FunctionDecl.ofNode?,
      Stmt.functions_core body, ElseBranch.functions_core other]
  | .whileLoop cond body => by
    simp [Stmt.core, Stmt.nodes, List.filterMap_cons, FunctionDecl.ofNode?,
      Stmt.functions_core body]
  | .forLoop init cond step body => by
    simp [Stmt.core, Stmt.nodes, List.filterMap_cons, FunctionDecl.ofNode?,
      Stmt.functions_core init, Stmt.functions_core step, Stmt.functions_core body]
  | .function name params body line => by
    simp [Stmt.core, Stmt.nodes, FunctionDecl.ofNode?, FunctionDecl.core,
      Stmt.functions_core body]

theorem Stmt.functionsEach_core : (ss : List Stmt) →
    (Stmt.nodesEach (Stmt.coreEach ss)).filterMap FunctionDecl.ofNode? =
      ((Stmt.nodesEach ss).filterMap FunctionDecl.ofNode?).map FunctionDecl.core
  | [] => rfl
  | s :: ss => by
    simp [Stmt.coreEach, Stmt.nodesEach, Stmt.functions_core s, Stmt.functionsEach_core ss]

theorem ElseBranch.functions_core : (other : ElseBranch) →
    other.core.nodes.filterMap FunctionDecl.ofNode? =
      (other.nodes.filterMap FunctionDecl.ofNode?).map FunctionDecl.core
  | .absent => rfl
  | .elseIf cond body next => by
    simp [ElseBranch.core, ElseBranch.nodes, Stmt.functions_core body,
      ElseBranch.functions_core next]
  | .otherwise body => by
    simp [ElseBranch.core, ElseBranch.nodes, Stmt.functions_core body]

end

theorem Program.functions_core (p : Program) :
    p.core.functions = p.functions.map FunctionDecl.core :=
  Stmt.functionsEach_core p

end Functions

section Calls

mutual

theorem Expr.calls_core : (e : Expr) → e.core.calls = e.calls.map CallSite.core
  | .int _ | .ident .. => rfl
  | .paren inner => Expr.calls_core inner
  | .call name args line => by
    simp [Expr.core, Expr.calls, Expr.callsEach_core args, CallSite.core]
  | .bin op lhs rhs => by
    simp [Expr.core, Expr.calls, Expr.calls_core lhs, Expr.calls_core rhs]

theorem Expr.callsEach_core : (es : List Expr) →
    Expr.callsEach (Expr.coreEach es) = (Expr.callsEach es).map CallSite.core
  | [] => rfl
  | e :: es => by
    simp [Expr.coreEach, Expr.callsEach, Expr.calls_core e, Expr.callsEach_core es]

end

theorem Link.exprs_coreWith (connector : Connector) (k : Link) :
    (k.coreWith connector).exprs = k.exprs.map Expr.core := by
  obtain ⟨lhs, comparison, own⟩ := k
  cases comparison <;> rfl

theorem Condition.exprs_core (cond : Condition) :
    Condition.exprs (Condition.core cond) = Expr.coreEach (Condition.exprs cond) := by
  rw [Expr.coreEach_eq]
  cases cond with
  | nil => rfl
  | cons first rest =>
    simp [Condition.core, Condition.exprs, List.flatMap_map, List.map_flatMap, Link.core,
      Link.exprs_coreWith]

theorem PrintItem.exprs_core (items : List PrintItem) :
    PrintItem.exprs (items.map PrintItem.core) = Expr.coreEach (PrintItem.exprs items) := by
  have hitem (item : PrintItem) : item.core.expr? = item.expr?.map Expr.core := by
    cases item <;> rfl
  simp [Expr.coreEach_eq, PrintItem.exprs, List.filterMap_map, List.map_filterMap,
    hitem]

theorem Expr.toList_map_core (value : Option Expr) :
    (value.map Expr.core).toList = Expr.coreEach value.toList := by
  cases value <;> rfl

mutual

theorem Stmt.calls_core : (s : Stmt) → s.core.calls = s.calls.map CallSite.core
  | .exit value => by
    rw [Stmt.core, Stmt.calls, Stmt.calls, Expr.toList_map_core, Expr.callsEach_core]
  | .letVar _ value _ => Expr.calls_core value
  | .assign _ value _ => Expr.calls_core value
  | .block body => Stmt.callsEach_core body
  | .print items => by
    rw [Stmt.core, Stmt.calls, Stmt.calls, PrintItem.exprs_core, Expr.callsEach_core]
  | .ifElse cond body other => by
    simp [Stmt.core, Stmt.calls, Condition.exprs_core, Expr.callsEach_core, Stmt.calls_core body,
      ElseBranch.calls_core other]
  | .whileLoop cond body => by
    simp [Stmt.core, Stmt.calls, Condition.exprs_core, Expr.callsEach_core, Stmt.calls_core body]
  | .forLoop init cond step body => by
    simp [Stmt.core, Stmt.calls, Condition.exprs_core, Expr.callsEach_core, Stmt.calls_core init,
      Stmt.calls_core step, Stmt.calls_core body]
  | .function _ _ body _ => Stmt.calls_core body
  | .ret value _ _ => by
    rw [Stmt.core, Stmt.calls, Stmt.calls, Expr.toList_map_core, Expr.callsEach_core]
  | .call name args line => by
    simp [Stmt.core, Stmt.calls, Expr.callsEach_core args, CallSite.core]
  | .breakLoop _ | .continueLoop _ => rfl

theorem Stmt.callsEach_core : (ss : List Stmt) →
    Stmt.callsEach (Stmt.coreEach ss) = (Stmt.callsEach ss).map CallSite.core
  | [] => rfl
  | s :: ss => by
    simp [Stmt.coreEach, Stmt.callsEach, Stmt.calls_core s, Stmt.callsEach_core ss]

theorem ElseBranch.calls_core : (other : ElseBranch) →
    other.core.calls = other.calls.map CallSite.core
  | .absent => rfl
  | .elseIf cond body next => by
    simp [ElseBranch.core, ElseBranch.calls, Condition.exprs_core, Expr.callsEach_core,
      Stmt.calls_core body, ElseBranch.calls_core next]
  | .otherwise body => Stmt.calls_core body

end

theorem Program.calls_core (p : Program) : p.core.calls = p.calls.map CallSite.core :=
  Stmt.callsEach_core p

end Calls

mutual

theorem Expr.names_core : (e : Expr) → e.core.mentions.map Prod.fst = e.mentions.map Prod.fst
  | .int _ | .ident .. => rfl
  | .paren inner => Expr.names_core inner
  | .call _ args _ => Expr.namesEach_core args
  | .bin _ lhs rhs => by
    simp [Expr.core, Expr.mentions, Expr.names_core lhs, Expr.names_core rhs]

theorem Expr.namesEach_core : (es : List Expr) →
    (Expr.mentionsEach (Expr.coreEach es)).map Prod.fst = (Expr.mentionsEach es).map Prod.fst
  | [] => rfl
  | e :: es => by
    simp [Expr.coreEach, Expr.mentionsEach, Expr.names_core e, Expr.namesEach_core es]

end

/-- Whether a variable is mentioned can be seen from the core. -/
theorem Expr.isSome_find?_mentions {e₁ e₂ : Expr} (h : e₁.core = e₂.core) (name : String) :
    (e₁.mentions.find? fun m => m.1 == name).isSome =
      (e₂.mentions.find? fun m => m.1 == name).isSome := by
  have hn : e₁.mentions.map Prod.fst = e₂.mentions.map Prod.fst := by
    rw [← Expr.names_core e₁, h, Expr.names_core e₂]
  have ha := congrArg (List.any · (· == name)) hn
  simpa [List.isSome_find?, List.any_map, Function.comp_def] using ha

namespace Signatures

theorem get?_core (t : Signatures) (name : String) :
    t.core.get? name = (t.get? name).map fun s => { s with line := 0 } := by
  rw [core, get?, List.find?_map]
  rfl

theorem declare_core (t : Signatures) (f : FunctionDecl) :
    Except.Alike (fun u t => u = t.core) (t.core.declare f.core) (t.declare f) := by
  have hget : t.core.get? f.core.name = _ := get?_core t f.name
  rw [declare, declare, hget]
  cases t.get? f.name with
  | none =>
    refine .ok ?_
    simp [core, FunctionDecl.signature, FunctionDecl.core, FunctionDecl.arity]
  | some s => exact .error rfl

theorem ofFunctions_core (fs : List FunctionDecl) :
    Except.Alike (fun u t => u = t.core) (ofFunctions (fs.map FunctionDecl.core))
      (ofFunctions fs) := by
  suffices h : ∀ t : Signatures, Except.Alike (fun u t => u = t.core)
      ((fs.map FunctionDecl.core).foldlM declare t.core) (fs.foldlM declare t) from h []
  induction fs with
  | nil => exact fun t => .ok rfl
  | cons f fs ih =>
    intro t
    rw [List.map_cons, List.foldlM_cons, List.foldlM_cons]
    refine (declare_core t f).bind ?_
    rintro _ t rfl
    exact ih t

theorem check_core (t : Signatures) (c : CallSite) :
    Except.Alike Eq (t.core.check c.core) (t.check c) := by
  have hget : t.core.get? c.core.name = _ := get?_core t c.name
  rw [check, check, hget]
  cases t.get? c.name with
  | none => exact .error rfl
  | some s =>
    change Except.Alike Eq (if s.arity = c.arity then _ else _) (if s.arity = c.arity then _ else _)
    split
    · exact .ok rfl
    · exact .error rfl

theorem forM_check_core (t : Signatures) (cs : List CallSite) :
    Except.Alike Eq ((cs.map CallSite.core).forM t.core.check) (cs.forM t.check) := by
  induction cs with
  | nil => exact .ok rfl
  | cons c cs ih => exact (check_core t c).bind fun _ _ _ => ih

theorem ofProgram_core (p : Program) :
    Except.Alike (fun u t => u = t.core) (ofProgram p.core) (ofProgram p) := by
  rw [ofProgram_eq, ofProgram_eq, Program.functions_core, Program.calls_core]
  refine (ofFunctions_core p.functions).bind ?_
  rintro _ t rfl
  exact (forM_check_core t p.calls).bind fun _ _ _ => .ok rfl

end Signatures

namespace Emit.Alike

variable {t : Signatures} {scope : Scope}

theorem call {name : String} {arity line₁ line₂ : Nat} {args₁ args₂ : Emit Unit}
    (ha : Alike args₁ args₂) :
    Alike (Emit.call t.core name arity line₁ args₁) (Emit.call t name arity line₂ args₂) := by
  have harity : (t.core.get? name).map Signature.arity = (t.get? name).map Signature.arity := by
    rw [Signatures.get?_core, Option.map_map]
    rfl
  unfold Emit.call
  rw [harity]
  split
  · exact ha.before _
  · exact fail

mutual

theorem expr : (e : Expr) → Alike (e.core.emit t.core scope) (e.emit t scope)
  | .int value => by
    rw [Expr.core, Expr.emit, Expr.emit]
    exact refl _
  | .ident name line => by
    rw [Expr.core, Expr.emit, Expr.emit]
    exact place.before _
  | .paren inner => by
    rw [Expr.core, Expr.emit]
    exact expr inner
  | .call name args line => by
    rw [Expr.core, Expr.emit, Expr.emit, Expr.length_coreEach]
    exact (call (exprs args)).before _
  | .bin op lhs rhs => by
    rw [Expr.core, Expr.emit, Expr.emit]
    exact (expr rhs).bind fun _ => (expr lhs).before _

theorem exprs : (es : List Expr) →
    Alike (Expr.emitEach t.core scope (Expr.coreEach es)) (Expr.emitEach t scope es)
  | [] => by
    rw [Expr.coreEach, Expr.emitEach, Expr.emitEach]
    exact refl _
  | e :: es => by
    rw [Expr.coreEach, Expr.emitEach, Expr.emitEach]
    exact (expr e).bind fun _ => exprs es

end

section Condition

theorem falseLabel {exits : Exits} {rest : Condition} :
    Alike (exits.falseLabel (rest.map Link.core)) (exits.falseLabel rest) := by
  unfold Exits.falseLabel
  rw [List.any_map]
  exact refl _

variable {value₁ value₂ : Expr → Emit Unit} (hv : ∀ e : Expr, Alike (value₁ e.core) (value₂ e))

include hv

/-- The connector of a link has no part in its own code. -/
theorem link (k : Link) {connector : Connector} {target : Label} {truth : Bool} :
    Alike ((k.coreWith connector).emit value₁ target truth) (k.emit value₂ target truth) := by
  obtain ⟨lhs, comparison, own⟩ := k
  refine (hv lhs).bind fun _ => ?_
  cases comparison with
  | none => exact refl _
  | some c => exact (hv c.2).before _

theorem exitsLink (k : Link) {connector : Connector} {exits : Exits} {rest : Condition}
    {ifFalse : Label} :
    Alike (exits.link value₁ (k.coreWith connector) (rest.map Link.core) ifFalse)
      (exits.link value₂ k rest ifFalse) := by
  unfold Exits.link
  rw [List.isEmpty_map]
  split
  · exact link hv k
  · exact link hv k

theorem links {exits : Exits} (cond : Condition) : ∀ {ifFalse : Label},
      Alike (exits.links value₁ ifFalse (cond.map Link.core))
        (exits.links value₂ ifFalse cond) := by
  induction cond with
  | nil => exact refl _
  | cons k rest ih =>
    intro ifFalse
    have hk : k.core.connector = k.connector := rfl
    rw [List.map_cons, Exits.links, Exits.links, List.isEmpty_map, hk]
    split
    · exact (exitsLink hv k).bind fun _ => ih
    · split
      · exact after _ fun _ => after _ fun _ => exitsLink hv k
      · exact after _ fun _ => after _ fun _ => after _ fun _ => falseLabel.bind fun _ =>
          (exitsLink hv k).bind fun _ => after _ fun _ => ih

theorem condition (cond : Condition) {target : Label} {truth : Bool} :
    Alike (Condition.emit value₁ (Condition.core cond) target truth)
      (Condition.emit value₂ cond target truth) := by
  cases cond with
  | nil => exact refl _
  | cons first rest =>
    rw [Condition.core, Condition.emit_cons, Condition.emit_cons]
    split
    · exact after _ fun _ => falseLabel.bind fun _ => (exitsLink hv first).bind fun _ =>
        (links hv rest).before _
    · exact after _ fun _ => falseLabel.bind fun _ => (exitsLink hv first).bind fun _ =>
        (links hv rest).before _

end Condition

theorem printItems (items : List PrintItem) :
    Alike (PrintItem.emitEach t.core scope (items.map PrintItem.core))
      (PrintItem.emitEach t scope items) := by
  induction items with
  | nil => exact refl _
  | cons item items ih =>
    rw [List.map_cons, PrintItem.emitEach, PrintItem.emitEach]
    refine Alike.bind ?_ fun _ => ih
    cases item with
    | str text => exact refl _
    | expr value => exact (expr value).before _

mutual

theorem stmt : (s : Stmt) → ∀ {loop : Option Loop} {inside : Bool} {scope : Scope},
    Alike (s.core.emit ⟨t.core, loop, inside⟩ scope) (s.emit ⟨t, loop, inside⟩ scope)
  | .exit none, loop, inside, scope => by
    rw [Stmt.core, Option.map_none, Stmt.emit, Stmt.emit]
    exact refl _
  | .exit (some value), loop, inside, scope => by
    rw [Stmt.core, Option.map_some, Stmt.emit, Stmt.emit]
    exact (expr value).before _
  | .letVar name value line, loop, inside, scope => by
    rw [Stmt.core, Stmt.emit, Stmt.emit]
    split
    · exact fail
    · exact (expr value).before _
  | .assign name value line, loop, inside, scope => by
    rw [Stmt.core, Stmt.emit, Stmt.emit]
    exact place.bind fun _ => (expr value).before _
  | .block body, loop, inside, scope => by
    rw [Stmt.core, Stmt.emit, Stmt.emit]
    exact (inScope fun _ => stmts body).before _
  | .print items, loop, inside, scope => by
    rw [Stmt.core, Stmt.emit, Stmt.emit]
    exact (printItems items).before _
  | .ifElse cond body other, loop, inside, scope => by
    rw [Stmt.core, Stmt.emit, Stmt.emit, ElseBranch.isAbsent_core]
    refine after _ fun _ => (condition expr cond).bind fun _ =>
      (inScope fun _ => stmt body).bind fun _ => ?_
    split
    · exact refl _
    · exact after _ fun _ => after _ fun _ => after _ fun _ => (elseBranch other).before _
  | .whileLoop cond body, loop, inside, scope => by
    rw [Stmt.core, Stmt.emit, Stmt.emit]
    exact after _ fun _ => after _ fun _ => after _ fun _ => (condition expr cond).bind fun _ =>
      after _ fun _ => after _ fun _ => (inScope fun _ => stmt body).bind fun _ =>
        after _ fun _ => (condition expr cond).before _
  | .forLoop init cond step body, loop, inside, scope => by
    rw [Stmt.core, Stmt.emit, Stmt.emit]
    exact (inScope fun _ => (stmt init).bind fun _ => after _ fun _ => after _ fun _ =>
      after _ fun _ => (condition expr cond).bind fun _ => after _ fun _ => after _ fun _ =>
        (inScope fun _ => stmt body).bind fun _ => after _ fun _ =>
          (inScope fun _ => stmt step).bind fun _ => (condition expr cond).before _).before _
  | .function name params body line, loop, inside, scope => by
    rw [Stmt.core, Stmt.emit, Stmt.emit]
    split
    · exact fail
    · exact refl _
  | .ret value inFunction line, loop, inside, scope => by
    rw [Stmt.core, Stmt.emit, Stmt.emit]
    dsimp only
    split
    · cases value with
      | some value => exact (expr value).before _
      | none => exact refl _
    · exact fail
  | .call name args line, loop, inside, scope => by
    rw [Stmt.core, Stmt.emit, Stmt.emit, Expr.length_coreEach]
    exact (call (exprs args)).before _
  | .breakLoop line, loop, inside, scope => by
    rw [Stmt.core, Stmt.emit, Stmt.emit]
    dsimp only
    split
    · exact refl _
    · exact fail.before _
  | .continueLoop line, loop, inside, scope => by
    rw [Stmt.core, Stmt.emit, Stmt.emit]
    dsimp only
    split
    · exact refl _
    · exact fail.before _

theorem stmts : (ss : List Stmt) → ∀ {loop : Option Loop} {inside : Bool} {scope : Scope},
    Alike (Stmt.emitEach (Stmt.coreEach ss) ⟨t.core, loop, inside⟩ scope)
      (Stmt.emitEach ss ⟨t, loop, inside⟩ scope)
  | [], loop, inside, scope => by
    rw [Stmt.coreEach, Stmt.emitEach, Stmt.emitEach]
    exact refl _
  | s :: ss, loop, inside, scope => by
    rw [Stmt.coreEach, Stmt.emitEach, Stmt.emitEach]
    exact (stmt s).bind fun _ => stmts ss

theorem elseBranch : (other : ElseBranch) →
    ∀ {loop : Option Loop} {inside : Bool} {scope : Scope} {done : Label},
      Alike (other.core.emit ⟨t.core, loop, inside⟩ scope done)
        (other.emit ⟨t, loop, inside⟩ scope done)
  | .absent, loop, inside, scope, done => by
    rw [ElseBranch.core, ElseBranch.emit, ElseBranch.emit]
    exact refl _
  | .elseIf cond body next, loop, inside, scope, done => by
    rw [ElseBranch.core, ElseBranch.emit, ElseBranch.emit, ElseBranch.isAbsent_core]
    refine after _ fun _ => (condition expr cond).bind fun _ =>
      (inScope fun _ => stmt body).bind fun _ => ?_
    split
    · exact refl _
    · exact after _ fun _ => after _ fun _ => elseBranch next
  | .otherwise body, loop, inside, scope, done => by
    rw [ElseBranch.core, ElseBranch.emit, ElseBranch.emit]
    exact inScope fun _ => stmt body

end

theorem function (f : FunctionDecl) : Alike (f.core.emit t.core) (f.emit t) :=
  after _ fun _ => after _ fun _ => (inScope fun _ => stmt f.body).before _

theorem functions (fs : List FunctionDecl) :
    Alike (FunctionDecl.emitEach t.core (fs.map FunctionDecl.core))
      (FunctionDecl.emitEach t fs) := by
  induction fs with
  | nil => exact refl _
  | cons f fs ih => exact (function f).bind fun _ => ih

theorem program (p : Program) : Alike (p.core.emit t.core) (p.emit t) := by
  unfold Program.emit Program.emitMain
  rw [Program.endsWithExit_core, Program.functionsByDepth_core]
  refine bind (after _ fun _ => after _ fun _ => after _ fun _ => (stmts p).before _) fun _ => ?_
  exact functions _

end Emit.Alike

namespace Program

/-- The core of a program has the code of the program, or both have none for the same cause. -/
theorem code_core (t : Signatures) (p : Program) :
    Except.Alike Eq (p.core.code t.core) (p.code t) := by
  rw [code_eq, code_eq]
  refine (Emit.Alike.program p Cursor.start).bind ?_
  rintro r _ rfl
  exact .refl _

theorem assemble_core (p : Program) : Except.Alike Eq p.core.assemble p.assemble := by
  refine (Signatures.ofProgram_core p).bind ?_
  rintro _ t rfl
  refine (code_core t p).bind ?_
  rintro code _ rfl
  exact .refl _

/-- Programs with one core are assembled alike. -/
theorem assemble_congr {p q : Program} (h : p.core = q.core) :
    Except.Alike Eq p.assemble q.assemble := by
  have hp := assemble_core p
  rw [h] at hp
  exact hp.of_common (assemble_core q)

end Program

end Stackwise
