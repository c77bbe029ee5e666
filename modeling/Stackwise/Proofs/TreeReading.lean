import Stackwise.Proofs.Core
import Stackwise.Proofs.TreeText

/-! What the text of a tree shows.  A nested list is read back as the core of the tree that it was
made from, so two trees have the same text exactly if they have the same core: the text is
unambiguous up to parentheses, lines and the connectors of first links.  What it does not show has
no part in the table of functions or in the assembly either. -/
namespace Stackwise

section Reading

def BinOp.ofText? : String → Option BinOp
  | "+" => some .add
  | "-" => some .sub
  | "*" => some .mul
  | "/" => some .div
  | _ => none

def Comparison.ofText? : String → Option Comparison
  | "==" => some .eq
  | ">=" => some .ge
  | "<=" => some .le
  | "<" => some .lt
  | ">" => some .gt
  | _ => none

def Connector.ofText? : String → Option Connector
  | "&&" => some .and
  | "||" => some .or
  | _ => none

namespace Nested

mutual

def toExpr? : Nested → Option Expr
  | .word w =>
    if w.toList.head?.any Piece.isWordStart then some (.ident w 0)
    else (Numeral.int64? w).map .int
  | .list .round (.word "call" :: .word name :: args) => do
    return .call name (← toExprs? args) 0
  | .list .round [.word op, lhs, rhs] => do
    return .bin (← BinOp.ofText? op) (← lhs.toExpr?) (← rhs.toExpr?)
  | _ => none

def toExprs? : List Nested → Option (List Expr)
  | [] => some []
  | x :: xs => do return (← x.toExpr?) :: (← toExprs? xs)

end

def comparison? : Nested → Option (Comparison × Nested × Nested)
  | .list .round [.word op, lhs, rhs] => (Comparison.ofText? op).map (·, lhs, rhs)
  | _ => none

def toLink? (connector : Connector) (x : Nested) : Option Link :=
  match x.comparison? with
  | some (cmp, lhs, rhs) => do return ⟨← lhs.toExpr?, some (cmp, ← rhs.toExpr?), connector⟩
  | none => do return ⟨← x.toExpr?, none, connector⟩

def toLinks? : List Nested → Option Condition
  | [] => some []
  | .word op :: x :: xs => do
    return (← toLink? (← Connector.ofText? op) x) :: (← toLinks? xs)
  | _ => none

def toCondition? : List Nested → Option Condition
  | [] => some []
  | x :: xs => do return (← toLink? .and x) :: (← toLinks? xs)

def word? : Nested → Option String
  | .word w => some w
  | _ => none

def quote? : Nested → Option String
  | .quote t => some t
  | _ => none

def toItem? (x : Nested) : Option PrintItem :=
  match x.quote? with
  | some t => some (.str t)
  | none => x.toExpr?.map .expr

mutual

def toStmt? : Nested → Option Stmt
  | .list .round (.word head :: items) =>
    match head, items with
    | "exit", [] => some (.exit none)
    | "exit", [value] => do return .exit (some (← value.toExpr?))
    | "let", [.word name, value] => do return .letVar name (← value.toExpr?) 0
    | "=", [.word name, value] => do return .assign name (← value.toExpr?) 0
    | "block", body => do return .block (← toStmts? body)
    | "print", items => do return .print (← items.mapM toItem?)
    | "if", .list .square cond :: body :: other => do
      return .ifElse (← toCondition? cond) (← body.toStmt?) (← toElse? other)
    | "while", [.list .square cond, body] => do
      return .whileLoop (← toCondition? cond) (← body.toStmt?)
    | "for", [init, .list .square cond, step, body] => do
      return .forLoop (← init.toStmt?) (← toCondition? cond) (← step.toStmt?) (← body.toStmt?)
    | "fn", [.word name, .list .round params, body] => do
      return .function name (← params.mapM word?) (← body.toStmt?) 0
    | "return", [] => some (.ret none true 0)
    | "return", [value] => do return .ret (some (← value.toExpr?)) true 0
    | "return!", [] => some (.ret none false 0)
    | "return!", [value] => do return .ret (some (← value.toExpr?)) false 0
    | "call", .word name :: args => do return .call name (← toExprs? args) 0
    | "break", [] => some (.breakLoop 0)
    | "continue", [] => some (.continueLoop 0)
    | _, _ => none
  | _ => none

def toStmts? : List Nested → Option (List Stmt)
  | [] => some []
  | x :: xs => do return (← x.toStmt?) :: (← toStmts? xs)

def toElse? : List Nested → Option ElseBranch
  | [] => some .absent
  | [.list .round (.word "elif" :: .list .square cond :: body :: next)] => do
    return .elseIf (← toCondition? cond) (← body.toStmt?) (← toElse? next)
  | [.list .round [.word "else", body]] => do return .otherwise (← body.toStmt?)
  | _ => none

end

end Nested

@[simp] theorem BinOp.ofText?_render (op : BinOp) : ofText? op.render = some op := by
  cases op <;> rfl

@[simp] theorem Comparison.ofText?_render (cmp : Comparison) : ofText? cmp.render = some cmp := by
  cases cmp <;> rfl

@[simp] theorem Connector.ofText?_render (con : Connector) : ofText? con.render = some con := by
  cases con <;> rfl

end Reading

section Cores

mutual

theorem Expr.nested_core : (e : Expr) → e.core.nested = e.nested
  | .int value => rfl
  | .ident name line => rfl
  | .paren inner => by rw [Expr.core, Expr.nested, Expr.nested_core inner]
  | .call name args line => by
    rw [Expr.core, Expr.nested, Expr.nested, Expr.nestedEach_core args]
  | .bin op lhs rhs => by
    rw [Expr.core, Expr.nested, Expr.nested, Expr.nested_core lhs, Expr.nested_core rhs]

theorem Expr.nestedEach_core : (es : List Expr) →
    Expr.nestedEach (Expr.coreEach es) = Expr.nestedEach es
  | [] => rfl
  | e :: es => by
    rw [Expr.coreEach, Expr.nestedEach, Expr.nestedEach, Expr.nested_core e,
      Expr.nestedEach_core es]

end

variable {k : Link}

theorem Link.nested_coreWith (connector : Connector) :
    (k.coreWith connector).nested = k.nested := by
  obtain ⟨lhs, comparison, own⟩ := k
  cases comparison with
  | none => exact Expr.nested_core lhs
  | some c => simp [Link.coreWith, Link.nested, Expr.nested_core]

theorem Condition.nested_core (cond : Condition) :
    Condition.nested (Condition.core cond) = Condition.nested cond := by
  have hrest (rest : Condition) : nestedRest (rest.map Link.core) = nestedRest rest := by
    induction rest with
    | nil => rfl
    | cons k rest ih =>
      rw [List.map_cons, nestedRest, nestedRest, ih, Link.core, Link.nested_coreWith]
      rfl
  cases cond with
  | nil => rfl
  | cons first rest =>
    rw [Condition.core, Condition.nested, Condition.nested, Link.nested_coreWith, hrest]

theorem PrintItem.nested_core (item : PrintItem) : item.core.nested = item.nested := by
  cases item with
  | str text => rfl
  | expr value => exact Expr.nested_core value

theorem Expr.nested_map_core (value : Option Expr) :
    (value.map Expr.core).toList.map Expr.nested = value.toList.map Expr.nested := by
  cases value with
  | none => rfl
  | some e => exact congrArg (fun x => [x]) (Expr.nested_core e)

theorem PrintItem.nestedEach_core (items : List PrintItem) :
    (items.map PrintItem.core).map PrintItem.nested = items.map PrintItem.nested := by
  rw [List.map_map]
  exact List.map_congr_left fun item _ => item.nested_core

mutual

theorem Stmt.nested_core : (s : Stmt) → s.core.nested = s.nested
  | .exit value => by rw [Stmt.core, Stmt.nested, Stmt.nested, Expr.nested_map_core]
  | .letVar _ value _ => by rw [Stmt.core, Stmt.nested, Stmt.nested, Expr.nested_core]
  | .assign _ value _ => by rw [Stmt.core, Stmt.nested, Stmt.nested, Expr.nested_core]
  | .block body => by rw [Stmt.core, Stmt.nested, Stmt.nested, Stmt.nestedEach_core body]
  | .print items => by rw [Stmt.core, Stmt.nested, Stmt.nested, PrintItem.nestedEach_core]
  | .ifElse cond body other => by
    rw [Stmt.core, Stmt.nested, Stmt.nested, Condition.nested_core, Stmt.nested_core body,
      ElseBranch.nested_core other]
  | .whileLoop cond body => by
    rw [Stmt.core, Stmt.nested, Stmt.nested, Condition.nested_core, Stmt.nested_core body]
  | .forLoop init cond step body => by
    rw [Stmt.core, Stmt.nested, Stmt.nested, Condition.nested_core, Stmt.nested_core init,
      Stmt.nested_core step, Stmt.nested_core body]
  | .function _ _ body _ => by rw [Stmt.core, Stmt.nested, Stmt.nested, Stmt.nested_core body]
  | .ret value _ _ => by rw [Stmt.core, Stmt.nested, Stmt.nested, Expr.nested_map_core]
  | .call _ args _ => by rw [Stmt.core, Stmt.nested, Stmt.nested, Expr.nestedEach_core]
  | .breakLoop _ => rfl
  | .continueLoop _ => rfl

theorem Stmt.nestedEach_core : (ss : List Stmt) →
    Stmt.nestedEach (Stmt.coreEach ss) = Stmt.nestedEach ss
  | [] => rfl
  | s :: ss => by
    rw [Stmt.coreEach, Stmt.nestedEach, Stmt.nestedEach, Stmt.nested_core s,
      Stmt.nestedEach_core ss]

theorem ElseBranch.nested_core : (other : ElseBranch) → other.core.nested = other.nested
  | .absent => rfl
  | .elseIf cond body next => by
    rw [ElseBranch.core, ElseBranch.nested, ElseBranch.nested, Condition.nested_core,
      Stmt.nested_core body, ElseBranch.nested_core next]
  | .otherwise body => by
    rw [ElseBranch.core, ElseBranch.nested, ElseBranch.nested, Stmt.nested_core body]

end

end Cores

section ReadingBack

open Nested

theorem Expr.comparison?_nested : (e : Expr) → e.nested.comparison? = none
  | .int _ | .ident .. => rfl
  | .paren inner => Expr.comparison?_nested inner
  | .call name args line => by
    rw [Expr.nested]
    cases Expr.nestedEach args with
    | nil => rfl
    | cons x xs => cases xs <;> rfl
  | .bin op lhs rhs => by cases op <;> rfl

theorem Expr.quote?_nested : (e : Expr) → e.nested.quote? = none
  | .int _ | .ident .. | .call .. | .bin .. => rfl
  | .paren inner => Expr.quote?_nested inner

mutual

theorem Expr.toExpr?_nested : (e : Expr) → (∀ name ∈ e.names, isWord name) →
    e.nested.toExpr? = some e.core
  | .int value, _ => by
    have hs : (Numeral.signed value.toInt).toList.head?.any Piece.isWordStart = false := by
      cases h : (Numeral.signed value.toInt).toList with
      | nil => rfl
      | cons c cs => exact isWordStart_signed value.toInt c (by simp [h])
    simp [Expr.nested, toExpr?, hs, Numeral.int64?_signed, Expr.core]
  | .ident name line, h => by
    have hs := (Bool.and_eq_true_iff.1 (h name (by simp [Expr.names]))).1
    simp [Expr.nested, toExpr?, hs, Expr.core]
  | .paren inner, h => Expr.toExpr?_nested inner h
  | .call name args line, h => by
    rw [Expr.names, List.forall_mem_cons] at h
    simp [Expr.nested, toExpr?, Expr.toExprs?_nestedEach args h.2, Expr.core]
  | .bin op lhs rhs, h => by
    rw [Expr.names, List.forall_mem_append] at h
    have hop : op.render ≠ "call" := by cases op <;> decide
    simp [Expr.nested, toExpr?, hop, Expr.toExpr?_nested lhs h.1, Expr.toExpr?_nested rhs h.2,
      Expr.core]

theorem Expr.toExprs?_nestedEach : (es : List Expr) → (∀ name ∈ Expr.namesEach es, isWord name) →
    toExprs? (Expr.nestedEach es) = some (Expr.coreEach es)
  | [], _ => rfl
  | e :: es, h => by
    rw [Expr.namesEach, List.forall_mem_append] at h
    simp [Expr.nestedEach, toExprs?, Expr.toExpr?_nested e h.1, Expr.toExprs?_nestedEach es h.2,
      Expr.coreEach]

end

variable {k : Link} {cond : Condition}

theorem Link.toLink?_nested (h : ∀ name ∈ Expr.namesEach k.exprs, isWord name)
    (connector : Connector) : k.nested.toLink? connector = some (k.coreWith connector) := by
  obtain ⟨lhs, comparison, own⟩ := k
  cases comparison with
  | none =>
    simp only [Link.exprs, Expr.namesEach, List.append_nil] at h
    simp [Link.nested, toLink?, Expr.comparison?_nested, Expr.toExpr?_nested lhs h, Link.coreWith]
  | some c =>
    simp only [Link.exprs, Expr.namesEach, List.append_nil, List.forall_mem_append] at h
    simp [Link.nested, toLink?, comparison?, Expr.toExpr?_nested lhs h.1,
      Expr.toExpr?_nested c.2 h.2, Link.coreWith]

theorem Condition.toCondition?_nested (h : ∀ name ∈ Condition.names cond, isWord name) :
    toCondition? (Condition.nested cond) = some (Condition.core cond) := by
  rw [Condition.forall_names] at h
  have hrest (rest : Condition) (hr : ∀ k ∈ rest, ∀ name ∈ Expr.namesEach k.exprs, isWord name) :
      toLinks? (nestedRest rest) = some (rest.map Link.core) := by
    induction rest with
    | nil => rfl
    | cons k rest ih =>
      rw [List.forall_mem_cons] at hr
      simp [nestedRest, toLinks?, Link.toLink?_nested hr.1, ih hr.2, Link.core]
  cases cond with
  | nil => rfl
  | cons first rest =>
    rw [List.forall_mem_cons] at h
    simp [Condition.nested, toCondition?, Link.toLink?_nested h.1, hrest rest h.2, Condition.core]

theorem PrintItem.mapM_toItem? {items : List PrintItem}
    (h : ∀ name ∈ Expr.namesEach (PrintItem.exprs items), isWord name) :
    (items.map PrintItem.nested).mapM toItem? = some (items.map PrintItem.core) := by
  induction items with
  | nil => rfl
  | cons item items ih =>
    cases item with
    | str text => simp [PrintItem.nested, toItem?, quote?, ih h, PrintItem.core]
    | expr value =>
      have hs : PrintItem.exprs (.expr value :: items) = value :: PrintItem.exprs items := rfl
      rw [hs, Expr.namesEach, List.forall_mem_append] at h
      simp [PrintItem.nested, toItem?, Expr.quote?_nested, Expr.toExpr?_nested value h.1, ih h.2,
        PrintItem.core]

theorem Nested.mapM_word? (names : List String) :
    names.mapM (word? ∘ Nested.word) = some names := by
  induction names with
  | nil => rfl
  | cons name names ih => simp [word?, ih]

mutual

theorem Stmt.toStmt?_nested : (s : Stmt) → (∀ name ∈ s.names, isWord name) →
    s.nested.toStmt? = some s.core
  | .exit none, _ => rfl
  | .exit (some value), h => by
    have hv : ∀ name ∈ value.names, isWord name := by simpa [Stmt.names, Expr.namesEach] using h
    simp [Stmt.nested, toStmt?, Expr.toExpr?_nested value hv, Stmt.core]
  | .letVar name value _, h => by
    rw [Stmt.names, List.forall_mem_cons] at h
    simp [Stmt.nested, toStmt?, Expr.toExpr?_nested value h.2, Stmt.core]
  | .assign name value _, h => by
    rw [Stmt.names, List.forall_mem_cons] at h
    simp [Stmt.nested, toStmt?, Expr.toExpr?_nested value h.2, Stmt.core]
  | .block body, h => by
    simp [Stmt.nested, toStmt?, Stmt.toStmts?_nestedEach body h, Stmt.core]
  | .print items, h => by
    simp [Stmt.nested, toStmt?, PrintItem.mapM_toItem? h, Stmt.core]
  | .ifElse cond body other, h => by
    rw [Stmt.names, List.forall_mem_append, List.forall_mem_append] at h
    simp [Stmt.nested, toStmt?, Condition.toCondition?_nested h.1, Stmt.toStmt?_nested body h.2.1,
      ElseBranch.toElse?_nested other h.2.2, Stmt.core]
  | .whileLoop cond body, h => by
    rw [Stmt.names, List.forall_mem_append] at h
    simp [Stmt.nested, toStmt?, Condition.toCondition?_nested h.1, Stmt.toStmt?_nested body h.2,
      Stmt.core]
  | .forLoop init cond step body, h => by
    rw [Stmt.names, List.forall_mem_append, List.forall_mem_append, List.forall_mem_append] at h
    simp [Stmt.nested, toStmt?, Stmt.toStmt?_nested init h.1, Condition.toCondition?_nested h.2.1,
      Stmt.toStmt?_nested step h.2.2.1, Stmt.toStmt?_nested body h.2.2.2, Stmt.core]
  | .function name params body _, h => by
    rw [Stmt.names, List.forall_mem_cons, List.forall_mem_append] at h
    simp [Stmt.nested, toStmt?, Nested.mapM_word?, Stmt.toStmt?_nested body h.2.2, Stmt.core]
  | .ret none inFunction _, _ => by cases inFunction <;> rfl
  | .ret (some value) inFunction _, h => by
    have hv : ∀ name ∈ value.names, isWord name := by simpa [Stmt.names, Expr.namesEach] using h
    cases inFunction <;> simp [Stmt.nested, toStmt?, Expr.toExpr?_nested value hv, Stmt.core]
  | .call name args _, h => by
    rw [Stmt.names, List.forall_mem_cons] at h
    simp [Stmt.nested, toStmt?, Expr.toExprs?_nestedEach args h.2, Stmt.core]
  | .breakLoop _, _ => rfl
  | .continueLoop _, _ => rfl

theorem Stmt.toStmts?_nestedEach : (ss : List Stmt) → (∀ name ∈ Stmt.namesEach ss, isWord name) →
    toStmts? (Stmt.nestedEach ss) = some (Stmt.coreEach ss)
  | [], _ => rfl
  | s :: ss, h => by
    rw [Stmt.namesEach, List.forall_mem_append] at h
    simp [Stmt.nestedEach, toStmts?, Stmt.toStmt?_nested s h.1, Stmt.toStmts?_nestedEach ss h.2,
      Stmt.coreEach]

theorem ElseBranch.toElse?_nested : (other : ElseBranch) → (∀ name ∈ other.names, isWord name) →
    toElse? other.nested = some other.core
  | .absent, _ => rfl
  | .elseIf cond body next, h => by
    rw [ElseBranch.names, List.forall_mem_append, List.forall_mem_append] at h
    simp [ElseBranch.nested, toElse?, Condition.toCondition?_nested h.1,
      Stmt.toStmt?_nested body h.2.1, ElseBranch.toElse?_nested next h.2.2, ElseBranch.core]
  | .otherwise body, h => by
    simp [ElseBranch.nested, toElse?, Stmt.toStmt?_nested body h, ElseBranch.core]

end

end ReadingBack

section Programs

open Nested

variable {p q : Program}

/-- A program's text shows the nested lists of its statements. -/
theorem Program.nestedEach_eq (hp : ∀ name ∈ p.names, isWord name)
    (hq : ∀ name ∈ q.names, isWord name) (h : p.render = q.render) :
    Stmt.nestedEach p = Stmt.nestedEach q := by
  have hp := Stmt.nestedEach_tidy p hp
  have hq := Stmt.nestedEach_tidy q hq
  have ht := congrArg String.toList h
  rw [Program.toList_render, Program.toList_render] at ht
  have hend : Stops [] := by simp [Stops]
  refine (joined_inj (by decide) (fun x hx => ?_) (tidyEach_iff.1 hq) hend hend
    (by simp) (by simp) (congrArg (· ++ []) ht)).1
  exact ⟨tidyEach_iff.1 hp x hx, uniqueEach _ hp x hx⟩

/-- Two programs whose names are words have the same text exactly if they have the same core, that
is, if they differ at most in parentheses, lines and the connectors of first links. -/
theorem Program.render_eq_iff (hp : ∀ name ∈ p.names, isWord name)
    (hq : ∀ name ∈ q.names, isWord name) : p.render = q.render ↔ p.core = q.core := by
  constructor
  · intro h
    have hr := Stmt.toStmts?_nestedEach p hp
    rw [Program.nestedEach_eq hp hq h, Stmt.toStmts?_nestedEach q hq] at hr
    exact (Option.some.inj hr).symm
  · intro h
    rw [← String.toList_inj, Program.toList_render, Program.toList_render,
      ← Stmt.nestedEach_core p, ← Stmt.nestedEach_core q]
    exact congrArg (fun ss => joined _ (Stmt.nestedEach ss)) h

/-- A program with parentheses and with first links that are joined by `||`. -/
def enclosedProgram : Program :=
  [.function "f" ["n"]
      (.ret (some (.paren (.bin .sub (.ident "n" 1) (.paren (.int (-2)))))) true 1) 1,
    .whileLoop
      [⟨.paren (.call "f" [.paren (.int 1)] 2), some (.lt, .int 9), .or⟩, ⟨.int 1, none, .or⟩]
      (.print [.str "\"\n", .expr (.paren (.int 3))])]

/-- The same without parentheses, on other lines. -/
def openProgram : Program :=
  [.function "f" ["n"] (.ret (some (.bin .sub (.ident "n" 4) (.int (-2)))) true 5) 3,
    .whileLoop [⟨.call "f" [.int 1] 7, some (.lt, .int 9), .and⟩, ⟨.int 1, none, .or⟩]
      (.print [.str "\"\n", .expr (.int 3)])]

/-- The same with another connector between its links. -/
def joinedProgram : Program :=
  [.function "f" ["n"] (.ret (some (.bin .sub (.ident "n" 4) (.int (-2)))) true 5) 3,
    .whileLoop [⟨.call "f" [.int 1] 7, some (.lt, .int 9), .and⟩, ⟨.int 1, none, .and⟩]
      (.print [.str "\"\n", .expr (.int 3)])]

theorem Program.render_eq_iff_enclosedProgram :
    (∀ name ∈ enclosedProgram.names, isWord name) ∧ (∀ name ∈ openProgram.names, isWord name) ∧
      enclosedProgram.render = openProgram.render ∧ enclosedProgram.core = openProgram.core ∧
      enclosedProgram.render ≠ joinedProgram.render := by
  have he : ∀ name ∈ enclosedProgram.names, isWord name := by decide
  have ho : ∀ name ∈ openProgram.names, isWord name := by decide
  have hj : ∀ name ∈ joinedProgram.names, isWord name := by decide
  have hr : enclosedProgram.render = openProgram.render := (render_eq_iff he ho).2 rfl
  refine ⟨he, ho, hr, (render_eq_iff he ho).1 hr, fun h => ?_⟩
  cases (render_eq_iff he hj).1 h

end Programs

section Meaning

variable {p q : Program}

/-- Outcomes that are alike one outcome have values that are related through its value. -/
theorem Except.Alike.meet {α β γ : Type} {R : α → β → Prop} {S : α → γ → Prop}
    {x : Except Error α} {y : Except Error β} {z : Except Error γ} (hy : Alike R x y)
    (hz : Alike S x z) : Alike (fun b c => ∃ a, R a b ∧ S a c) y z := by
  cases hy with
  | ok h =>
    cases hz with
    | ok h' => exact .ok ⟨_, h, h'⟩
  | error h =>
    cases hz with
    | error h' => exact .error (h.symm.trans h')

/-- Programs with one core have one table, up to lines, or both have none. -/
theorem Signatures.ofProgram_congr (h : p.core = q.core) :
    Except.Alike (fun t u => ∃ c, c = Signatures.core t ∧ c = Signatures.core u)
      (ofProgram p) (ofProgram q) := by
  have hp := ofProgram_core p
  rw [h] at hp
  exact hp.meet (ofProgram_core q)

theorem Program.code_congr {t u : Signatures} (h : p.core = q.core) (ht : t.core = u.core) :
    Except.Alike Eq (p.code t) (q.code u) := by
  have hp := code_core t p
  rw [h, ht] at hp
  exact hp.of_common (code_core u q)

/-- Programs with one core both have a table of functions or both have none, for one cause but for
lines.  The tables differ at most in lines, and with them both programs have the same code, and so
the same assembly, or both have none, for one cause but for lines. -/
theorem Program.resolved_and_coded_alike (h : p.core = q.core) :
    (∃ t u, Signatures.ofProgram p = .ok t ∧ Signatures.ofProgram q = .ok u ∧ t.core = u.core ∧
      ((∃ code, p.code t = .ok code ∧ q.code u = .ok code ∧
          p.assemble = .ok (Code.render code) ∧ q.assemble = .ok (Code.render code)) ∨
        ∃ e₁ e₂, p.code t = .error e₁ ∧ q.code u = .error e₂ ∧ e₁.cause.core = e₂.cause.core ∧
          e₁.cause.kind = e₂.cause.kind)) ∨
    ∃ e₁ e₂, Signatures.ofProgram p = .error e₁ ∧ Signatures.ofProgram q = .error e₂ ∧
      e₁.cause.core = e₂.cause.core ∧ e₁.cause.kind = e₂.cause.kind := by
  have hkind {c₁ c₂ : Cause} (hc : c₁.core = c₂.core) : c₁.kind = c₂.kind := by
    rw [← Cause.kind_core, hc, Cause.kind_core]
  have htable := Signatures.ofProgram_congr h
  generalize hp : Signatures.ofProgram p = x, hq : Signatures.ofProgram q = y at htable
  cases htable with
  | error hc => exact .inr ⟨_, _, rfl, rfl, hc, hkind hc⟩
  | @ok t u hcore =>
    obtain ⟨c, rfl, hcore⟩ := hcore
    refine .inl ⟨t, u, rfl, rfl, hcore, ?_⟩
    have hcode := Program.code_congr h hcore
    generalize hcp : p.code t = x, hcq : q.code u = y at hcode
    cases hcode with
    | error hc => exact .inr ⟨_, _, rfl, rfl, hc, hkind hc⟩
    | @ok code _ he =>
      obtain rfl := he
      exact .inl ⟨code, rfl, rfl, Program.assemble_eq_ok.2 ⟨t, code, hp, hcp, rfl⟩,
        Program.assemble_eq_ok.2 ⟨u, code, hq, hcq, rfl⟩⟩

/-- A variable that is not declared, in parentheses. -/
def enclosedMention : Program := [.exit (some (.paren (.ident "x" 1)))]

/-- The same without parentheses, on another line. -/
def openMention : Program := [.exit (some (.ident "x" 2))]

theorem Program.resolved_and_coded_alike_enclosedProgram :
    enclosedProgram.core = openProgram.core ∧
      (∃ assembly, enclosedProgram.assemble = .ok assembly ∧ openProgram.assemble = .ok assembly) ∧
      enclosedMention.core = openMention.core ∧
      ∃ t u e₁ e₂, Signatures.ofProgram enclosedMention = .ok t ∧
        Signatures.ofProgram openMention = .ok u ∧ enclosedMention.code t = .error e₁ ∧
        openMention.code u = .error e₂ ∧ e₁.line ≠ e₂.line ∧ e₁.cause.kind = e₂.cause.kind := by
  refine ⟨rfl, ?_, rfl, ?_⟩
  · have hrun : ((Signatures.ofProgram enclosedProgram).bind fun table =>
        (enclosedProgram.code table).bind fun _ => .ok ()) = .ok () := by
      decide +kernel
    obtain ⟨t, u, ht, -, -, ⟨code, -, -, hp, hq⟩ | ⟨e₁, -, he, -⟩⟩ | ⟨e₁, -, he, -⟩ :=
      resolved_and_coded_alike (p := enclosedProgram) (q := openProgram) rfl
    · exact ⟨_, hp, hq⟩
    · rw [ht] at hrun
      change (enclosedProgram.code t).bind _ = _ at hrun
      rw [he] at hrun
      cases hrun
    · rw [he] at hrun
      cases hrun
  · have hp : Signatures.ofProgram enclosedMention = .ok [] := by decide +kernel
    have hq : Signatures.ofProgram openMention = .ok [] := by decide +kernel
    have hpc : enclosedMention.code [] = .error ⟨.undeclared "x", 1⟩ := by decide +kernel
    have hqc : openMention.code [] = .error ⟨.undeclared "x", 2⟩ := by decide +kernel
    obtain ⟨t, u, ht, hu, -, ⟨code, hc, -⟩ | ⟨e₁, e₂, he₁, he₂, -, hk⟩⟩ | ⟨e₁, -, he, -⟩ :=
      resolved_and_coded_alike (p := enclosedMention) (q := openMention) rfl
    · obtain rfl := Except.ok.inj (hp.symm.trans ht)
      cases hpc.symm.trans hc
    · obtain rfl := Except.ok.inj (hp.symm.trans ht)
      obtain rfl := Except.ok.inj (hq.symm.trans hu)
      obtain rfl := Except.error.inj (hpc.symm.trans he₁)
      obtain rfl := Except.error.inj (hqc.symm.trans he₂)
      exact ⟨_, _, _, _, hp, hq, hpc, hqc, by decide, hk⟩
    · cases hp.symm.trans he

end Meaning

end Stackwise
