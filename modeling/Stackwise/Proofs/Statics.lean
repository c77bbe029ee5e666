import Stackwise.Proofs.Bookkeeping

/-! The static rules of the language.  The places of a program to which a rule applies are listed in
the order in which their code is made, each with the names that are declared around it.  A program
has code if all its places are allowed, and else it is rejected for the first that is not. -/
namespace Stackwise

open Emit

/-- What stands around a place of a program. -/
structure Setting where
  /-- The names declared so far in the innermost scope. -/
  own : List String
  /-- The names declared so far in the scopes around it, the innermost scope first. -/
  around : List (List String)
  /-- The parameters of the function, if there is one. -/
  params : List String
  inLoop : Bool
  inFunction : Bool
deriving DecidableEq, Repr

namespace Setting

def main : Setting := ⟨[], [], [], false, false⟩

/-- At the start of the body of a function, which sees its parameters only. -/
def ofParams (params : List String) : Setting := ⟨[], [], params, false, true⟩

def nested (g : Setting) : Setting := { g with own := [], around := g.own :: g.around }

def loopBody (g : Setting) : Setting := { g.nested with inLoop := true }

/-- After a statement: a declaration adds its name. -/
def after (g : Setting) : Stmt → Setting
  | .letVar name _ _ => { g with own := name :: g.own }
  | _ => g

/-- There is a variable of the name: one declared before in a scope that is still open, or a
parameter. -/
def Sees (g : Setting) (name : String) : Prop :=
  name ∈ g.own ∨ (∃ names ∈ g.around, name ∈ names) ∨ name ∈ g.params

instance (g : Setting) (name : String) : Decidable (g.Sees name) :=
  inferInstanceAs (Decidable (_ ∨ _ ∨ _))

end Setting

inductive Construct where
  /-- A variable that is read or assigned to. -/
  | use (name : String) (line : Nat)
  | declaration (name : String) (line : Nat)
  | condition (cond : Condition)
  | call (site : CallSite)
  | function (name : String) (line : Nat)
  | ret (inFunction : Bool) (line : Nat)
  | breakLoop (line : Nat)
  | continueLoop (line : Nat)

structure Site where
  setting : Setting
  construct : Construct

namespace Site

/-- The rules. -/
def Allowed (table : Signatures) : Site → Prop
  | ⟨g, .use name _⟩ => g.Sees name
  | ⟨g, .declaration name _⟩ => name ∉ g.own
  | ⟨_, .condition cond⟩ => cond ≠ []
  | ⟨_, .call site⟩ => table.Fits site
  | ⟨g, .function name _⟩ => ¬ g.Sees name
  | ⟨g, .ret inFunction _⟩ => inFunction ∧ g.inFunction
  | ⟨g, .breakLoop _⟩ => g.inLoop
  | ⟨g, .continueLoop _⟩ => g.inLoop

instance (table : Signatures) : (s : Site) → Decidable (s.Allowed table)
  | ⟨g, .use name _⟩ => inferInstanceAs (Decidable (g.Sees name))
  | ⟨g, .declaration name _⟩ => inferInstanceAs (Decidable (name ∉ g.own))
  | ⟨_, .condition []⟩ => isFalse fun h => h rfl
  | ⟨_, .condition (_ :: _)⟩ => isTrue (List.cons_ne_nil _ _)
  | ⟨_, .call site⟩ => inferInstanceAs (Decidable (table.Fits site))
  | ⟨g, .function name _⟩ => inferInstanceAs (Decidable (¬ g.Sees name))
  | ⟨g, .ret inFunction _⟩ => inferInstanceAs (Decidable (inFunction ∧ g.inFunction))
  | ⟨g, .breakLoop _⟩ => inferInstanceAs (Decidable (g.inLoop = true))
  | ⟨g, .continueLoop _⟩ => inferInstanceAs (Decidable (g.inLoop = true))

/-- How a place that is not allowed is reported. -/
def error : Site → Error
  | ⟨_, .use name line⟩ => ⟨.undeclared name, line⟩
  | ⟨_, .declaration name line⟩ => ⟨.alreadyDeclared name, line⟩
  | ⟨_, .condition _⟩ => ⟨.emptyCondition, 0⟩
  | ⟨_, .call site⟩ => ⟨.callOutsideTable site.name, site.line⟩
  | ⟨_, .function name line⟩ => ⟨.functionShadowsVariable name, line⟩
  | ⟨_, .ret _ line⟩ => ⟨.returnOutsideFunction, line⟩
  | ⟨_, .breakLoop line⟩ => ⟨.breakOutsideLoop, line⟩
  | ⟨_, .continueLoop line⟩ => ⟨.continueOutsideLoop, line⟩

end Site

mutual

/-- The places in an expression: those of a right operand before those of the left one, and a call
before its arguments. -/
def Expr.sites (g : Setting) : Expr → List Site
  | .int _ => []
  | .ident name line => [⟨g, .use name line⟩]
  | .paren inner => inner.sites g
  | .call name args line => ⟨g, .call ⟨name, args.length, line⟩⟩ :: Expr.sitesEach g args
  | .bin _ lhs rhs => rhs.sites g ++ lhs.sites g

def Expr.sitesEach (g : Setting) : List Expr → List Site
  | [] => []
  | e :: es => e.sites g ++ Expr.sitesEach g es

end

def Condition.sites (g : Setting) (cond : Condition) : List Site :=
  ⟨g, .condition cond⟩ :: Expr.sitesEach g cond.exprs

mutual

/-- The places in a statement, without those in the bodies of functions.  Every branch, the body and
the step of a loop, and a whole `for` have a scope of their own. -/
def Stmt.sites (g : Setting) : Stmt → List Site
  | .exit value => Expr.sitesEach g value.toList
  | .letVar name value line => ⟨g, .declaration name line⟩ :: value.sites g
  | .assign name value line => ⟨g, .use name line⟩ :: value.sites g
  | .block body => Stmt.sitesEach g.nested body
  | .print items => Expr.sitesEach g (PrintItem.exprs items)
  | .ifElse cond body other => Condition.sites g cond ++ (body.sites g.nested ++ other.sites g)
  | .whileLoop cond body => Condition.sites g cond ++ body.sites g.loopBody
  | .forLoop init cond step body =>
    let inner := g.nested.after init
    init.sites g.nested ++ (Condition.sites inner cond ++
      (body.sites inner.loopBody ++ step.sites inner.nested))
  | .function name _ _ line => [⟨g, .function name line⟩]
  | .ret value inFunction line => ⟨g, .ret inFunction line⟩ :: Expr.sitesEach g value.toList
  | .call name args line => ⟨g, .call ⟨name, args.length, line⟩⟩ :: Expr.sitesEach g args
  | .breakLoop line => [⟨g, .breakLoop line⟩]
  | .continueLoop line => [⟨g, .continueLoop line⟩]

def Stmt.sitesEach (g : Setting) : List Stmt → List Site
  | [] => []
  | s :: ss => s.sites g ++ Stmt.sitesEach (g.after s) ss

def ElseBranch.sites (g : Setting) : ElseBranch → List Site
  | .absent => []
  | .elseIf cond body next => Condition.sites g cond ++ (body.sites g.nested ++ next.sites g)
  | .otherwise body => body.sites g.nested

end

def FunctionDecl.sites (f : FunctionDecl) : List Site := f.body.sites (.ofParams f.params)

/-- The places in a program: those outside of functions, then those in the functions. -/
def Program.sites (p : Program) : List Site :=
  Stmt.sitesEach .main p ++ p.functionsByDepth.flatMap FunctionDecl.sites

/-- How the first place is reported that is not allowed. -/
def Site.fault? (table : Signatures) (sites : List Site) : Option Error :=
  (sites.find? fun s => ¬ s.Allowed table).map Site.error

namespace Site

variable {table : Signatures}

@[simp] theorem fault?_nil : fault? table [] = none := rfl

@[simp] theorem fault?_append (sites sites' : List Site) :
    fault? table (sites ++ sites') = (fault? table sites).or (fault? table sites') := by
  simp only [fault?, List.find?_append]
  cases sites.find? fun s => ¬ s.Allowed table <;> simp

theorem fault?_cons_of_allowed {s : Site} (h : s.Allowed table) (sites : List Site) :
    fault? table (s :: sites) = fault? table sites := by
  simp [fault?, h]

theorem fault?_cons_of_not {s : Site} (h : ¬ s.Allowed table) (sites : List Site) :
    fault? table (s :: sites) = some s.error := by
  simp [fault?, h]

theorem fault?_eq_none {sites : List Site} :
    fault? table sites = none ↔ ∀ s ∈ sites, s.Allowed table := by
  simp [fault?]

theorem fault?_eq_some {sites : List Site} {e : Error} :
    fault? table sites = some e ↔ ∃ before s after, sites = before ++ s :: after ∧
      (∀ t ∈ before, t.Allowed table) ∧ ¬ s.Allowed table ∧ e = s.error := by
  simp only [fault?, Option.map_eq_some_iff, List.find?_eq_some_iff_append]
  constructor
  · rintro ⟨s, ⟨hs, before, after, rfl, hb⟩, rfl⟩
    exact ⟨before, s, after, rfl, by simpa using hb, by simpa using hs, rfl⟩
  · rintro ⟨before, s, after, rfl, hb, hs, rfl⟩
    exact ⟨s, ⟨by simpa using hs, before, after, rfl, by simpa using hb⟩, rfl⟩

end Site

namespace Emit

variable {α β : Type} {c : Cursor}

def fault? (m : Emit α) (c : Cursor) : Option Error :=
  match m c with
  | .ok _ => none
  | .error e => some e

theorem fault?_eq_some {m : Emit α} {e : Error} : m.fault? c = some e ↔ m c = .error e := by
  unfold fault?
  cases m c <;> simp

theorem fault?_eq_none {m : Emit α} : m.fault? c = none ↔ ∃ r, m c = .ok r := by
  unfold fault?
  cases m c <;> simp

/-- One action after another fails as the first does, or else as the second. -/
theorem fault?_bind {m : Emit α} {k : α → Emit β} {f : Option Error}
    (hk : ∀ r, m c = .ok r → (k r.value).fault? r.cursor = f) :
    (m >>= k).fault? c = (m.fault? c).or f := by
  unfold fault?
  rw [bind_apply]
  cases hm : m c with
  | error e => simp
  | ok r =>
    have := hk r hm
    unfold fault? at this
    cases hf : k r.value r.cursor <;> simp_all

/-- What never fails after an action leaves failing to the action. -/
theorem fault?_bind_eq {m : Emit α} {k : α → Emit β}
    (hk : ∀ r, m c = .ok r → ∃ r', k r.value r.cursor = .ok r') :
    (m >>= k).fault? c = m.fault? c := by
  rw [fault?_bind (f := none) fun r hr => fault?_eq_none.2 (hk r hr), Option.or_none]

theorem fault?_bind_of_ok {m : Emit α} {k : α → Emit β} {r : Emitted α} (h : m c = .ok r) :
    (m >>= k).fault? c = (k r.value).fault? r.cursor := by
  have hn : m.fault? c = none := fault?_eq_none.2 ⟨r, h⟩
  rw [fault?_bind (f := (k r.value).fault? r.cursor), hn, Option.none_or]
  intro r' h'
  rw [h] at h'
  cases h'
  rfl

theorem fault?_height_bind {k : Nat → Emit β} : (height >>= k).fault? c = (k c.height).fault? c :=
  fault?_bind_of_ok (height_apply c)

theorem fault?_freshLabel_bind {k : Label → Emit β} :
    (freshLabel >>= k).fault? c = (k (.fresh c.labels)).fault? ⟨c.height, c.labels + 1⟩ :=
  fault?_bind_of_ok (freshLabel_apply c)

theorem fault?_label_bind {l : Label} {k : Unit → Emit β} :
    (label l >>= k).fault? c = (k ()).fault? c :=
  fault?_bind_of_ok (label_eq_ok.2 rfl)

theorem fault?_jump_bind {j : Jump} {l : Label} {k : Unit → Emit β} :
    (jump j l >>= k).fault? c = (k ()).fault? c :=
  fault?_bind_of_ok (jump_eq_ok.2 rfl)

theorem fault?_directive_bind {text : String} {k : Unit → Emit β} :
    (directive text >>= k).fault? c = (k ()).fault? c :=
  fault?_bind_of_ok (directive_eq_ok.2 rfl)

theorem fault?_pure_bind {x : α} {k : α → Emit β} : (pure x >>= k).fault? c = (k x).fault? c :=
  fault?_bind_of_ok (pure_apply x c)

end Emit

/-- The setting is that of the variables in the scope and of the context. -/
structure Setting.Describes (g : Setting) (ctx : Context) (scope : Scope) : Prop where
  own : ∀ name, scope.declares name ↔ name ∈ g.own
  visible : ∀ name, (scope.find? name).isSome ↔ g.Sees name
  loop : ctx.loop.isSome = g.inLoop
  inFunction : ctx.inFunction = g.inFunction

namespace Setting.Describes

variable {g : Setting} {ctx : Context} {scope : Scope}

theorem find?_isSome {name : String} :
    (scope.find? name).isSome ↔ ∃ v ∈ scope.visible, v.name = name := by
  simp [Scope.find?]

theorem nested (h : g.Describes ctx scope) : g.nested.Describes ctx scope.nested := by
  refine ⟨fun name => ?_, fun name => ?_, h.loop, h.inFunction⟩
  · simp [Setting.nested]
  · rw [Scope.find?_nested, h.visible]
    simp [Setting.Sees, Setting.nested, or_assoc]

theorem loopBody (h : g.Describes ctx scope) (loop : Loop) :
    g.loopBody.Describes { ctx with loop := some loop } scope.nested :=
  ⟨h.nested.own, h.nested.visible, rfl, h.inFunction⟩

theorem declare (h : g.Describes ctx scope) (v : Var) :
    ({ g with own := v.name :: g.own } : Setting).Describes ctx (scope.declare v) := by
  refine ⟨fun name => ?_, fun name => ?_, h.loop, h.inFunction⟩
  · have ho := h.own name
    simp only [Scope.declares, Scope.declare, List.any_cons, Bool.or_eq_true, beq_iff_eq,
      List.mem_cons] at ho ⊢
    rw [ho, eq_comm]
  · have hv := h.visible name
    rw [find?_isSome] at hv ⊢
    simp only [Scope.visible, Scope.declare, List.cons_append, List.mem_cons, or_and_right,
      exists_or, exists_eq_left, Setting.Sees, or_assoc] at hv ⊢
    rw [hv, eq_comm]

theorem main (table : Signatures) : Setting.main.Describes ⟨table, none, false⟩ .empty := by
  refine ⟨fun name => ?_, fun name => ?_, rfl, rfl⟩
  · simp [Scope.declares, Scope.empty, Setting.main]
  · simp [Scope.find?, Scope.visible, Scope.empty, Setting.Sees, Setting.main]

theorem ofParams (table : Signatures) (params : List String) :
    (Setting.ofParams params).Describes ⟨table, none, true⟩ (Scope.ofParams params).nested := by
  refine ⟨fun name => ?_, fun name => ?_, rfl, rfl⟩
  · simp [Setting.ofParams]
  · rw [Scope.find?_nested, find?_isSome]
    simp only [Scope.visible, Scope.ofParams, Setting.Sees, Setting.ofParams, List.nil_append,
      List.mem_reverse, List.mem_map, List.not_mem_nil, false_and, exists_false, false_or]
    constructor
    · rintro ⟨_, ⟨⟨name', i⟩, hm, rfl⟩, rfl⟩
      exact List.fst_mem_of_mem_zipIdx hm
    · intro hm
      obtain ⟨i, hi, rfl⟩ := List.getElem_of_mem hm
      exact ⟨_, ⟨(params[i], i), by simp [List.mem_zipIdx_iff_getElem?], rfl⟩, rfl⟩

end Setting.Describes

section Expr

variable {ctx : Context} {scope : Scope} {g : Setting} {c : Cursor}

theorem Emit.place_fault? (h : g.Describes ctx scope) {name : String} {line : Nat} :
    (place scope name line).fault? c = Site.fault? ctx.table [⟨g, .use name line⟩] := by
  have hv := h.visible name
  unfold place
  cases hf : scope.find? name with
  | none =>
    have hn : ¬ Site.Allowed ctx.table ⟨g, .use name line⟩ := by simpa [hf, Site.Allowed] using hv
    rw [Site.fault?_cons_of_not hn]
    rfl
  | some v =>
    have hs : Site.Allowed ctx.table ⟨g, .use name line⟩ := by simpa [hf, Site.Allowed] using hv
    rw [Site.fault?_cons_of_allowed hs]
    rfl

/-- A call fails for its function, or else as its arguments do. -/
theorem Emit.call_fault? {table : Signatures} {name : String} {arity line : Nat} {args : Emit Unit}
    {sites : List Site} (ha : args.fault? c = Site.fault? table sites)
    (hp : ∀ r, args c = .ok r → Pushes c arity r) :
    (Emit.call table name arity line args).fault? c =
      Site.fault? table (⟨g, .call ⟨name, arity, line⟩⟩ :: sites) := by
  unfold Emit.call
  by_cases ht : (table.get? name).map Signature.arity = some arity
  · rw [if_pos ht, Site.fault?_cons_of_allowed (s := ⟨g, .call ⟨name, arity, line⟩⟩) ht, ← ha]
    refine fault?_bind_eq fun r hr => ?_
    simp [bind_eq_ok, (hp r hr).cursor]
  · rw [if_neg ht, Site.fault?_cons_of_not (s := ⟨g, .call ⟨name, arity, line⟩⟩) ht]
    rfl

mutual

theorem Expr.emit_fault? (h : g.Describes ctx scope) : (e : Expr) → ∀ {c : Cursor},
    (e.emit ctx.table scope).fault? c = Site.fault? ctx.table (e.sites g)
  | .int value, c => by
    rw [Expr.sites, Site.fault?_nil, fault?_eq_none]
    simp [Expr.emit_int_eq_ok]
  | .ident name line, c => by
    rw [Expr.emit, Expr.sites, ← place_fault? h (c := c)]
    exact fault?_bind_eq fun r _ => by simp
  | .paren inner, c => by
    rw [Expr.emit, Expr.sites]
    exact Expr.emit_fault? h inner
  | .call name args line, c => by
    rw [Expr.emit, Expr.sites, ← call_fault? (Expr.emitEach_fault? h args (c := c))
      fun r hr => Expr.emitEach_pushes args hr]
    exact fault?_bind_eq fun r _ => by simp
  | .bin op lhs rhs, c => by
    rw [Expr.emit, Expr.sites, Site.fault?_append, ← Expr.emit_fault? h rhs (c := c)]
    refine fault?_bind fun r₁ h₁ => ?_
    rw [← Expr.emit_fault? h lhs (c := r₁.cursor)]
    refine fault?_bind_eq fun r₂ h₂ => ?_
    simp [bind_eq_ok, (Expr.emit_pushes lhs h₂).cursor, (Expr.emit_pushes rhs h₁).cursor]

theorem Expr.emitEach_fault? (h : g.Describes ctx scope) : (es : List Expr) → ∀ {c : Cursor},
    (Expr.emitEach ctx.table scope es).fault? c = Site.fault? ctx.table (Expr.sitesEach g es)
  | [], c => rfl
  | e :: es, c => by
    rw [Expr.emitEach, Expr.sitesEach, Site.fault?_append, ← Expr.emit_fault? h e (c := c)]
    exact fault?_bind fun r _ => Expr.emitEach_fault? h es

end

end Expr

theorem Expr.sitesEach_append (g : Setting) (es es' : List Expr) :
    Expr.sitesEach g (es ++ es') = Expr.sitesEach g es ++ Expr.sitesEach g es' := by
  induction es with
  | nil => rfl
  | cons e es ih => simp [Expr.sitesEach, ih]

section Condition

variable {ctx : Context} {scope : Scope} {g : Setting} {c : Cursor}

theorem Link.emit_fault? (h : g.Describes ctx scope) {k : Link} {target : Label} {truth : Bool} :
    (k.emit (Expr.emit ctx.table scope) target truth).fault? c =
      Site.fault? ctx.table (Expr.sitesEach g k.exprs) := by
  rw [Link.emit_eq, Link.exprs]
  cases k.comparison with
  | none =>
    simp only [Expr.sitesEach, List.append_nil]
    rw [← Expr.emit_fault? h k.lhs (c := c)]
    refine fault?_bind_eq fun r hr => ?_
    simp [bind_eq_ok, (Expr.emit_pushes k.lhs hr).cursor]
  | some p =>
    obtain ⟨cmp, rhs⟩ := p
    simp only [Expr.sitesEach, List.append_nil, Site.fault?_append]
    rw [← Expr.emit_fault? h k.lhs (c := c)]
    refine fault?_bind fun r₁ h₁ => ?_
    rw [← Expr.emit_fault? h rhs (c := r₁.cursor)]
    refine fault?_bind_eq fun r₂ h₂ => ?_
    simp [bind_eq_ok, (Expr.emit_pushes rhs h₂).cursor, (Expr.emit_pushes k.lhs h₁).cursor]

theorem Exits.link_fault? (h : g.Describes ctx scope) {exits : Exits} {k : Link} {rest : Condition}
    {ifFalse : Label} :
    (exits.link (Expr.emit ctx.table scope) k rest ifFalse).fault? c =
      Site.fault? ctx.table (Expr.sitesEach g k.exprs) := by
  unfold Exits.link
  split <;> exact Link.emit_fault? h

theorem Exits.links_fault? (h : g.Describes ctx scope) {exits : Exits} (rest : Condition) :
    ∀ {ifFalse : Label} {c : Cursor},
      (exits.links (Expr.emit ctx.table scope) ifFalse rest).fault? c =
      Site.fault? ctx.table (Expr.sitesEach g (Condition.exprs rest)) := by
  induction rest with
  | nil => exact rfl
  | cons k rest ih =>
    intro ifFalse c
    rw [Exits.links, Condition.exprs, List.flatMap_cons, Expr.sitesEach_append, Site.fault?_append]
    cases k.connector with
    | and =>
      rw [← Exits.link_fault? h]
      exact fault?_bind fun r _ => ih
    | or =>
      dsimp only
      split
      next hl =>
        rw [List.isEmpty_iff.1 hl.2, List.flatMap_nil, Expr.sitesEach, Site.fault?_nil,
          Option.or_none, fault?_jump_bind, fault?_label_bind]
        exact Exits.link_fault? h
      next =>
        rw [fault?_freshLabel_bind, fault?_jump_bind, fault?_label_bind,
          fault?_bind_of_ok (Exits.falseLabel_eq_ok.2 rfl), ← Exits.link_fault? h]
        refine fault?_bind fun r _ => ?_
        rw [fault?_label_bind]
        exact ih

theorem Condition.emit_fault? (h : g.Describes ctx scope) (cond : Condition) {target : Label}
    {truth : Bool} :
    (Condition.emit (Expr.emit ctx.table scope) cond target truth).fault? c =
      Site.fault? ctx.table (cond.sites g) := by
  cases cond with
  | nil => rfl
  | cons first rest =>
    have ha : Site.Allowed ctx.table ⟨g, .condition (first :: rest)⟩ := List.cons_ne_nil _ _
    rw [Condition.sites, Site.fault?_cons_of_allowed ha, Condition.exprs, List.flatMap_cons,
      Expr.sitesEach_append, Site.fault?_append, ← Condition.exprs]
    cases truth with
    | false =>
      simp only [Condition.emit_cons, Bool.false_eq_true, if_false]
      rw [fault?_pure_bind, fault?_bind_of_ok (Exits.falseLabel_eq_ok.2 rfl),
        ← Exits.link_fault? h]
      refine fault?_bind fun r _ => ?_
      rw [← Exits.links_fault? h]
      exact fault?_bind_eq fun r _ => by simp
    | true =>
      simp only [Condition.emit_cons, if_true]
      rw [fault?_freshLabel_bind, fault?_bind_of_ok (Exits.falseLabel_eq_ok.2 rfl),
        ← Exits.link_fault? h]
      refine fault?_bind fun r _ => ?_
      rw [← Exits.links_fault? h]
      exact fault?_bind_eq fun r _ => by simp

end Condition

section Print

variable {ctx : Context} {scope : Scope} {g : Setting} {c : Cursor}

theorem Emit.exists_pushWords (ws : List UInt64) : ∃ r, pushWords ws c = .ok r := by
  induction ws with
  | nil => exact ⟨_, rfl⟩
  | cons w ws ih =>
    obtain ⟨r, hr⟩ := ih
    exact fault?_eq_none.1 (by rw [pushWords, fault?_bind_of_ok hr]; rfl)

theorem Emit.exists_writeText (text : String) : ∃ r, writeText text c = .ok r := by
  unfold writeText
  dsimp only
  split
  · exact ⟨_, rfl⟩
  · obtain ⟨r, hr⟩ := exists_pushWords (c := c) (Word.pack text.toUTF8.data.toList)
    refine fault?_eq_none.1 ?_
    rw [fault?_bind_of_ok hr, fault?_eq_none]
    simp [bind_eq_ok, (pushWords_pushes _ hr).cursor]

theorem PrintItem.emit_fault? (h : g.Describes ctx scope) (item : PrintItem) :
    (item.emit ctx.table scope).fault? c =
      Site.fault? ctx.table (Expr.sitesEach g item.expr?.toList) := by
  cases item with
  | str text => exact fault?_eq_none.2 (exists_writeText text)
  | expr value =>
    simp only [PrintItem.expr?, Option.toList_some, Expr.sitesEach, List.append_nil, PrintItem.emit]
    rw [← Expr.emit_fault? h value (c := c)]
    refine fault?_bind_eq fun r hr => ?_
    simp [bind_eq_ok, (Expr.emit_pushes value hr).cursor]

theorem PrintItem.emitEach_fault? (h : g.Describes ctx scope) (items : List PrintItem) :
    ∀ {c : Cursor}, (PrintItem.emitEach ctx.table scope items).fault? c =
      Site.fault? ctx.table (Expr.sitesEach g (PrintItem.exprs items)) := by
  induction items with
  | nil => exact rfl
  | cons item items ih =>
    intro c
    have he : PrintItem.exprs (item :: items) = item.expr?.toList ++ PrintItem.exprs items := by
      cases item <;> rfl
    rw [PrintItem.emitEach, he, Expr.sitesEach_append, Site.fault?_append,
      ← PrintItem.emit_fault? h]
    exact fault?_bind fun r _ => ih

end Print

/-- The scope after a statement at a height. -/
def Stmt.scopeAfter (scope : Scope) (height : Nat) : Stmt → Scope
  | .letVar name _ _ => scope.declare ⟨name, height⟩
  | _ => scope

/-- A declaration adds its variable to the scope, and no other statement changes it. -/
theorem Stmt.emit_value {s : Stmt} {ctx : Context} {scope : Scope} {c : Cursor} {r : Emitted Scope}
    (h : s.emit ctx scope c = .ok r) : r.value = s.scopeAfter scope c.height := by
  cases s with
  | exit value =>
    cases value with
    | none => rw [Stmt.emit_exit_none_eq_ok.1 h]; rfl
    | some value => obtain ⟨_, -, -, rfl⟩ := Stmt.emit_exit_some_eq_ok.1 h; rfl
  | letVar name value line =>
    obtain ⟨-, r₁, h₁, rfl⟩ := Stmt.emit_letVar_eq_ok.1 h
    simp [Stmt.scopeAfter, (Expr.emit_pushes value h₁).cursor]
  | assign => obtain ⟨_, _, -, -, -, rfl⟩ := Stmt.emit_assign_eq_ok.1 h; rfl
  | block => obtain ⟨_, -, rfl⟩ := Stmt.emit_block_eq_ok.1 h; rfl
  | print => obtain ⟨_, -, rfl⟩ := Stmt.emit_print_eq_ok.1 h; rfl
  | ifElse cond body other =>
    obtain ⟨_, _, -, -, h⟩ := Stmt.emit_ifElse_eq_ok.1 h
    split at h
    · rw [h]; rfl
    · obtain ⟨_, -, rfl⟩ := h; rfl
  | whileLoop => obtain ⟨_, _, _, -, -, -, rfl⟩ := Stmt.emit_whileLoop_eq_ok.1 h; rfl
  | forLoop => obtain ⟨_, _, _, _, _, -, -, -, -, -, -, rfl⟩ := Stmt.emit_forLoop_ok h; rfl
  | function => obtain ⟨-, rfl⟩ := Stmt.emit_function_eq_ok.1 h; rfl
  | ret value =>
    cases value with
    | none => obtain ⟨-, rfl⟩ := Stmt.emit_ret_none_eq_ok.1 h; rfl
    | some value => obtain ⟨-, _, -, -, rfl⟩ := Stmt.emit_ret_some_eq_ok.1 h; rfl
  | call => obtain ⟨_, -, rfl⟩ := Stmt.emit_call_eq_ok.1 h; rfl
  | breakLoop => obtain ⟨_, -, -, rfl⟩ := Stmt.emit_breakLoop_eq_ok.1 h; rfl
  | continueLoop => obtain ⟨_, -, -, rfl⟩ := Stmt.emit_continueLoop_eq_ok.1 h; rfl

theorem Setting.Describes.after {g : Setting} {ctx : Context} {scope : Scope} {s : Stmt}
    {c : Cursor} {r : Emitted Scope} (h : g.Describes ctx scope) (hr : s.emit ctx scope c = .ok r) :
    (g.after s).Describes ctx r.value := by
  rw [Stmt.emit_value hr]
  cases s with
  | letVar name value line => exact h.declare ⟨name, c.height⟩
  | _ => exact h

theorem Emit.inScope_fault? {scope : Scope} {body : Scope → Emit Scope} {c : Cursor}
    (hb : ∀ r, body scope.nested c = .ok r →
      Scope.Grown scope.nested c.height r.value r.cursor.height) :
    (inScope scope body).fault? c = (body scope.nested).fault? c := by
  rw [inScope, fault?_height_bind]
  refine fault?_bind_eq fun r hr => ?_
  simp [bind_eq_ok, (hb r hr).own_length]

section Stmt

variable {ctx : Context} {scope : Scope} {g : Setting} {c : Cursor}

theorem Condition.exists_emit {cond : Condition} {target target' : Label} {truth truth' : Bool}
    {c' : Cursor} {r : Emitted Unit} (h : g.Describes ctx scope)
    (hr : Condition.emit (Expr.emit ctx.table scope) cond target truth c = .ok r) :
    ∃ r', Condition.emit (Expr.emit ctx.table scope) cond target' truth' c' = .ok r' := by
  have hf : (Condition.emit (Expr.emit ctx.table scope) cond target truth).fault? c = none :=
    fault?_eq_none.2 ⟨r, hr⟩
  rw [Condition.emit_fault? h] at hf
  exact fault?_eq_none.1 ((Condition.emit_fault? h cond).trans hf)

theorem ElseBranch.isAbsent_of_ne {other : ElseBranch} (h : other ≠ .absent) :
    other.isAbsent = false := by
  cases other <;> simp_all [ElseBranch.isAbsent]

theorem Loop.leave_fault? (h : g.Describes ctx scope) (hl : ctx.Below c.height)
    {target : Loop → Label} {cause : Cause} {line : Nat} {construct : Construct}
    (ha : Site.Allowed ctx.table ⟨g, construct⟩ = (g.inLoop = true))
    (he : Site.error ⟨g, construct⟩ = ⟨cause, line⟩) :
    Emit.fault? (do
      match ctx.loop with
      | some loop => loop.leave (target loop)
      | none => fail cause line
      return scope) c = Site.fault? ctx.table [⟨g, construct⟩] := by
  have hg := h.loop
  cases hc : ctx.loop with
  | some loop =>
    rw [Site.fault?_cons_of_allowed (by rw [ha, ← hg, hc]; rfl), Site.fault?_nil, fault?_eq_none]
    simp [bind_eq_ok, Loop.leave_eq_ok, hl loop hc]
  | none =>
    rw [Site.fault?_cons_of_not (by rw [ha, ← hg, hc]; simp), he]
    rfl

mutual

theorem Stmt.emit_fault? : (s : Stmt) → ∀ {ctx : Context} {scope : Scope} {g : Setting}
    {c : Cursor}, g.Describes ctx scope → ctx.Below c.height →
      (s.emit ctx scope).fault? c = Site.fault? ctx.table (s.sites g)
  | .exit none, ctx, scope, g, c, h, hl => rfl
  | .exit (some value), ctx, scope, g, c, h, hl => by
    simp only [Stmt.sites, Option.toList_some, Expr.sitesEach, List.append_nil, Stmt.emit]
    rw [← Expr.emit_fault? h value (c := c)]
    refine fault?_bind_eq fun r hr => ?_
    simp [exitWithTop, bind_eq_ok, (Expr.emit_pushes value hr).cursor]
  | .letVar name value line, ctx, scope, g, c, h, hl => by
    have ho := h.own name
    rw [Stmt.emit, Stmt.sites]
    split
    next hd =>
      rw [Site.fault?_cons_of_not (by simpa [Site.Allowed] using ho.1 hd)]
      rfl
    next hd =>
      rw [Site.fault?_cons_of_allowed (by simpa [Site.Allowed] using mt ho.2 hd),
        ← Expr.emit_fault? h value (c := c)]
      exact fault?_bind_eq fun r _ => by simp [bind_eq_ok]
  | .assign name value line, ctx, scope, g, c, h, hl => by
    rw [Stmt.emit, Stmt.sites, ← List.singleton_append, Site.fault?_append,
      ← place_fault? h (c := c)]
    refine fault?_bind fun r₁ h₁ => ?_
    rw [← Expr.emit_fault? h value (c := r₁.cursor)]
    refine fault?_bind_eq fun r₂ h₂ => ?_
    simp [bind_eq_ok, (Expr.emit_pushes value h₂).cursor]
  | .block body, ctx, scope, g, c, h, hl => by
    rw [Stmt.emit, Stmt.sites, fault?_bind_eq fun r _ => ⟨_, rfl⟩,
      inScope_fault? fun r hr => (Stmt.emitEach_grows body hr).1]
    exact Stmt.emitEach_fault? body h.nested hl
  | .print items, ctx, scope, g, c, h, hl => by
    rw [Stmt.emit, Stmt.sites, fault?_bind_eq fun r _ => ⟨_, rfl⟩]
    exact PrintItem.emitEach_fault? h items
  | .ifElse cond body other, ctx, scope, g, c, h, hl => by
    rw [Stmt.emit, Stmt.sites, fault?_freshLabel_bind, Site.fault?_append,
      ← Condition.emit_fault? h]
    refine fault?_bind fun r₁ h₁ => ?_
    have hh := (Condition.emit_expr_steady h₁).height
    have hb : ctx.Below r₁.cursor.height := by rwa [hh]
    rw [Site.fault?_append, ← Stmt.emit_fault? body h.nested hb,
      ← inScope_fault? fun r hr => (Stmt.emit_grows body hr).1]
    refine fault?_bind fun r₂ h₂ => ?_
    have hb₂ : ctx.Below r₂.cursor.height := by rwa [inScope_height h₂]
    by_cases ho : other = .absent
    · subst ho
      rfl
    · simp only [ElseBranch.isAbsent_of_ne ho, Bool.false_eq_true, if_false]
      rw [fault?_freshLabel_bind, fault?_jump_bind, fault?_label_bind]
      refine (fault?_bind_eq fun r _ => ?_).trans (ElseBranch.emit_fault? other h hb₂)
      simp [bind_eq_ok]
  | .whileLoop cond body, ctx, scope, g, c, h, hl => by
    rw [Stmt.emit, Stmt.sites, fault?_freshLabel_bind, fault?_freshLabel_bind,
      fault?_freshLabel_bind, Site.fault?_append, ← Condition.emit_fault? h]
    refine fault?_bind fun r₁ h₁ => ?_
    rw [fault?_label_bind, fault?_height_bind,
      ← Stmt.emit_fault? body (h.loopBody _) (ctx.below_loop _ _ _),
      ← inScope_fault? fun r hr => (Stmt.emit_grows body hr).1]
    refine fault?_bind_eq fun r₂ _ => ?_
    obtain ⟨r₃, h₃⟩ : ∃ r, Condition.emit (Expr.emit ctx.table scope) cond
        (.fresh (c.labels + 1)) true
      r₂.cursor = .ok r := Condition.exists_emit h h₁
    refine fault?_eq_none.1 ?_
    rw [fault?_label_bind, fault?_bind_of_ok h₃]
    rfl
  | .forLoop init cond step body, ctx, scope, g, c, h, hl => by
    rw [Stmt.emit, Stmt.sites, fault?_bind_eq fun r _ => ⟨_, rfl⟩, inScope_fault?]
    · rw [Site.fault?_append, ← Stmt.emit_fault? init h.nested hl]
      refine fault?_bind fun r₀ h₀ => ?_
      have hi := h.nested.after h₀
      have hl₀ : ctx.Below r₀.cursor.height := hl.mono (Stmt.emit_grows init h₀).1.height_le
      rw [fault?_freshLabel_bind, fault?_freshLabel_bind, fault?_freshLabel_bind,
        Site.fault?_append, ← Condition.emit_fault? hi]
      refine fault?_bind fun r₁ h₁ => ?_
      rw [fault?_label_bind, fault?_height_bind, Site.fault?_append,
        ← Stmt.emit_fault? body (hi.loopBody _) (ctx.below_loop _ _ _),
        ← inScope_fault? fun r hr => (Stmt.emit_grows body hr).1]
      refine fault?_bind fun r₂ h₂ => ?_
      have hl₂ : ctx.Below r₂.cursor.height := by
        rwa [inScope_height h₂, (Condition.emit_expr_steady h₁).height]
      rw [fault?_label_bind, ← Stmt.emit_fault? step hi.nested hl₂,
        ← inScope_fault? fun r hr => (Stmt.emit_grows step hr).1]
      refine fault?_bind_eq fun r₃ _ => ?_
      obtain ⟨r₄, h₄⟩ : ∃ r, Condition.emit (Expr.emit ctx.table r₀.value) cond
        (.fresh (r₀.cursor.labels + 1)) true r₃.cursor = .ok r := Condition.exists_emit hi h₁
      refine fault?_eq_none.1 ?_
      rw [fault?_bind_of_ok h₄]
      rfl
    · intro r hr
      simp only [freshLabel_bind, height_bind, bind_eq_ok, label_eq_ok, pure_eq_ok] at hr
      obtain ⟨r₀, _, h₀, ⟨r₁, _, h₁, ⟨_, _, rfl, ⟨r₂, _, h₂, ⟨_, _, rfl, ⟨r₃, _, h₃, ⟨r₄, _, h₄,
        ⟨_, _, rfl, rfl, rfl⟩, rfl⟩, rfl⟩, rfl⟩, rfl⟩, rfl⟩, rfl⟩, rfl⟩ := hr
      have hh : r₄.cursor.height = r₀.cursor.height := by
        rw [(Condition.emit_expr_steady h₄).height, inScope_height h₃, inScope_height h₂,
          (Condition.emit_expr_steady h₁).height]
      simpa [hh] using (Stmt.emit_grows init h₀).1
  | .function name params body line, ctx, scope, g, c, h, hl => by
    have hv := h.visible name
    rw [Stmt.emit, Stmt.sites]
    split
    next hs =>
      rw [Site.fault?_cons_of_not (by simpa [Site.Allowed] using hv.1 hs)]
      rfl
    next hs =>
      rw [Site.fault?_cons_of_allowed (by simpa [Site.Allowed] using mt hv.2 hs)]
      rfl
  | .ret value inFunction line, ctx, scope, g, c, h, hl => by
    rw [Stmt.emit, Stmt.sites, h.inFunction]
    split
    next hf =>
      rw [Site.fault?_cons_of_allowed (by simpa [Site.Allowed] using hf)]
      cases value with
      | none => exact fault?_eq_none.2 (by simp [bind_eq_ok])
      | some value =>
        simp only [Option.toList_some, Expr.sitesEach, List.append_nil]
        rw [← Expr.emit_fault? h value (c := c)]
        refine fault?_bind_eq fun r hr => ?_
        simp [bind_eq_ok, (Expr.emit_pushes value hr).cursor]
    next hf =>
      rw [Site.fault?_cons_of_not (by simpa [Site.Allowed] using hf)]
      rfl
  | .call name args line, ctx, scope, g, c, h, hl => by
    rw [Stmt.emit, Stmt.sites, fault?_bind_eq fun r _ => ⟨_, rfl⟩]
    exact call_fault? (Expr.emitEach_fault? h args) fun r hr => Expr.emitEach_pushes args hr
  | .breakLoop line, ctx, scope, g, c, h, hl => by
    rw [Stmt.emit, Stmt.sites]
    exact Loop.leave_fault? h hl rfl rfl
  | .continueLoop line, ctx, scope, g, c, h, hl => by
    rw [Stmt.emit, Stmt.sites]
    exact Loop.leave_fault? h hl rfl rfl

theorem Stmt.emitEach_fault? : (ss : List Stmt) → ∀ {ctx : Context} {scope : Scope} {g : Setting}
    {c : Cursor}, g.Describes ctx scope → ctx.Below c.height →
      (Stmt.emitEach ss ctx scope).fault? c = Site.fault? ctx.table (Stmt.sitesEach g ss)
  | [], ctx, scope, g, c, h, hl => rfl
  | s :: ss, ctx, scope, g, c, h, hl => by
    rw [Stmt.emitEach, Stmt.sitesEach, Site.fault?_append, ← Stmt.emit_fault? s h hl]
    exact fault?_bind fun r hr => Stmt.emitEach_fault? ss (h.after hr)
      (hl.mono (Stmt.emit_grows s hr).1.height_le)

theorem ElseBranch.emit_fault? : (other : ElseBranch) → ∀ {ctx : Context} {scope : Scope}
    {g : Setting} {done : Label} {c : Cursor}, g.Describes ctx scope → ctx.Below c.height →
      (other.emit ctx scope done).fault? c = Site.fault? ctx.table (other.sites g)
  | .absent, ctx, scope, g, done, c, h, hl => rfl
  | .elseIf cond body next, ctx, scope, g, done, c, h, hl => by
    rw [ElseBranch.emit, ElseBranch.sites, fault?_freshLabel_bind, Site.fault?_append,
      ← Condition.emit_fault? h]
    refine fault?_bind fun r₁ h₁ => ?_
    have hb : ctx.Below r₁.cursor.height := by rwa [(Condition.emit_expr_steady h₁).height]
    rw [Site.fault?_append, ← Stmt.emit_fault? body h.nested hb,
      ← inScope_fault? fun r hr => (Stmt.emit_grows body hr).1]
    refine fault?_bind fun r₂ h₂ => ?_
    have hb₂ : ctx.Below r₂.cursor.height := by rwa [inScope_height h₂]
    by_cases ho : next = .absent
    · subst ho
      rfl
    · simp only [ElseBranch.isAbsent_of_ne ho, Bool.false_eq_true, if_false]
      rw [fault?_jump_bind, fault?_label_bind]
      exact ElseBranch.emit_fault? next h hb₂
  | .otherwise body, ctx, scope, g, done, c, h, hl => by
    rw [ElseBranch.emit, ElseBranch.sites, inScope_fault? fun r hr => (Stmt.emit_grows body hr).1]
    exact Stmt.emit_fault? body h.nested hl

end

end Stmt

theorem FunctionDecl.emit_fault? {table : Signatures} {f : FunctionDecl} {c : Cursor} :
    (f.emit table).fault? c = Site.fault? table f.sites := by
  rw [FunctionDecl.emit, FunctionDecl.sites, fault?_bind_of_ok (enterFrame_eq_ok.2 rfl),
    fault?_label_bind,
    ← Stmt.emit_fault? f.body (c := ⟨0, c.labels⟩) (.ofParams table f.params)
      (by simp [Context.Below]),
    ← inScope_fault? fun r hr => (Stmt.emit_grows f.body hr).1]
  exact fault?_bind_eq fun r _ => by simp [bind_eq_ok]

theorem FunctionDecl.emitEach_fault? {table : Signatures} (fs : List FunctionDecl) : ∀ {c : Cursor},
    (FunctionDecl.emitEach table fs).fault? c =
      Site.fault? table (fs.flatMap FunctionDecl.sites) := by
  induction fs with
  | nil => exact rfl
  | cons f fs ih =>
    intro c
    rw [FunctionDecl.emitEach, List.flatMap_cons, Site.fault?_append, ← FunctionDecl.emit_fault?]
    exact fault?_bind fun r _ => ih

namespace Program

variable {table : Signatures} {p : Program}

theorem emit_fault? : (p.emit table).fault? .start = Site.fault? table p.sites := by
  have hmain : (p.emitMain table).fault? .start =
      Site.fault? table (Stmt.sitesEach .main p) := by
    rw [emitMain, fault?_directive_bind, fault?_directive_bind, fault?_label_bind,
      ← Stmt.emitEach_fault? p (c := .start) (.main table) (by simp [Context.Below])]
    refine fault?_bind_eq fun r _ => ?_
    split <;> exact ⟨_, rfl⟩
  rw [Program.emit, Program.sites, Site.fault?_append, ← hmain]
  exact fault?_bind fun r _ => FunctionDecl.emitEach_fault? _

/-- A program is rejected for the first place that is not allowed. -/
theorem code_eq_error {e : Error} :
    p.code table = .error e ↔ Site.fault? table p.sites = some e := by
  rw [← emit_fault?, Emit.fault?_eq_some, Program.code_eq]
  cases p.emit table .start <;> simp [bind, Except.bind, pure, Except.pure]

theorem exists_code : (∃ code, p.code table = .ok code) ↔ Site.fault? table p.sites = none := by
  rw [← emit_fault?, Emit.fault?_eq_none, Program.code_eq]
  cases p.emit table .start <;> simp [bind, Except.bind, pure, Except.pure]

/-- The static rules decide whether a program has code: it has if all its places are allowed, and
else the first that is not is what it is rejected for. -/
theorem code_static (table : Signatures) (p : Program) :
    ((∃ code, p.code table = .ok code) ↔ ∀ s ∈ p.sites, s.Allowed table) ∧
      ∀ e, p.code table = .error e ↔ ∃ before s after, p.sites = before ++ s :: after ∧
        (∀ t ∈ before, t.Allowed table) ∧ ¬ s.Allowed table ∧ e = s.error :=
  ⟨exists_code.trans Site.fault?_eq_none, fun _ => code_eq_error.trans Site.fault?_eq_some⟩

end Program

end Stackwise
