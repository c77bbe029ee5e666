import Stackwise.Proofs.Positions
import Stackwise.Signature

/-! Passes over trees, and the two by which a program gets its table of functions.  A visitor
walks on to the nodes directly inside a node as they are written.  So a pass comes to the nodes of
a program before or after those inside them, and what it keeps on its way is a fold over a list:
the table comes from the functions of a program and the first refused call from its calls. -/
namespace Stackwise

namespace Visitor

variable {σ : Type} (v : Visitor σ)

def each (ns : List Node) (state : σ) : σ := ns.foldl (fun state n => v.visit n state) state

theorem each_append (ns ms : List Node) (state : σ) :
    v.each (ns ++ ms) state = v.each ms (v.each ns state) := List.foldl_append

theorem each_exprs (es : List Expr) (state : σ) :
    v.each (es.map .expr) state = es.foldl (fun state e => v.expr e state) state := List.foldl_map

theorem each_stmts (ss : List Stmt) (state : σ) :
    v.each (ss.map .stmt) state = ss.foldl (fun state s => v.stmt s state) state := List.foldl_map

theorem each_condition (cond : Condition) (state : σ) :
    v.each ((Condition.exprs cond).map .expr) state = v.walkCondition cond state := by
  induction cond generalizing state with
  | nil => rfl
  | cons c cs ih =>
    rw [Condition.exprs_cons, List.map_append, each_append, ih]
    obtain ⟨lhs, _ | ⟨cmp, rhs⟩, con⟩ := c <;> rfl

theorem each_items (items : List PrintItem) (state : σ) :
    v.each ((PrintItem.exprs items).map .expr) state = items.foldl v.walkItem state := by
  induction items generalizing state with
  | nil => rfl
  | cons item items ih => cases item <;> exact ih _

theorem each_else (other : ElseBranch) (state : σ) :
    v.each other.children state = v.walkElse other state := by
  fun_induction ElseBranch.children other generalizing state with
  | case1 => rfl
  | case2 cond body next ih =>
    rw [each_append, each_append, each_condition, ih]
    rfl
  | case3 body => rfl

/-- To walk on is to visit the nodes directly inside, as they are written. -/
theorem walk_eq_each (n : Node) (state : σ) : v.walk n state = v.each n.children state := by
  cases n with
  | expr e =>
    cases e with
    | int | ident | paren | bin => rfl
    | call name args line => exact (v.each_exprs args state).symm
  | stmt s =>
    cases s with
    | exit value => cases value <;> rfl
    | letVar | assign | function | breakLoop | continueLoop => rfl
    | block body => exact (v.each_stmts body state).symm
    | print items => exact (v.each_items items state).symm
    | ifElse cond body other =>
      rw [Node.children, each_append, each_append, each_condition, each_else]
      rfl
    | whileLoop cond body =>
      rw [Node.children, each_append, each_condition]
      rfl
    | forLoop init cond step body =>
      rw [Node.children, each_append, each_append, each_append, each_condition]
      rfl
    | ret value inFunction line => cases value <;> rfl
    | call name args line => exact (v.each_exprs args state).symm

end Visitor

section Trace

def Node.trace : Node → List Node
  | .expr e => e.nodes.map .expr
  | .stmt s => s.nodes

theorem Node.flatMap_trace_exprs (es : List Expr) :
    (es.map Node.expr).flatMap Node.trace = Node.ofExprs es := by
  induction es with
  | nil => rfl
  | cons e es ih =>
    rw [List.map_cons, List.flatMap_cons, ih, Node.ofExprs, Node.ofExprs, Expr.nodesEach,
      List.map_append]
    rfl

theorem Node.flatMap_trace_stmts (ss : List Stmt) :
    (ss.map Node.stmt).flatMap Node.trace = Stmt.nodesEach ss := by
  induction ss with
  | nil => rfl
  | cons s ss ih =>
    rw [List.map_cons, List.flatMap_cons, ih]
    rfl

theorem ElseBranch.flatMap_trace (other : ElseBranch) :
    other.children.flatMap Node.trace = other.nodes := by
  fun_induction ElseBranch.children other with
  | case1 => rfl
  | case2 cond body next ih =>
    rw [List.flatMap_append, List.flatMap_append, Node.flatMap_trace_exprs, ih,
      List.flatMap_singleton]
    rfl
  | case3 body => exact List.flatMap_singleton _ _

/-- A node comes first, then what comes from each node directly inside it. -/
theorem Node.trace_eq (n : Node) : n.trace = n :: n.children.flatMap Node.trace := by
  cases n with
  | expr e =>
    cases e with
    | int | ident => rfl
    | paren inner => simp [trace, children, Expr.nodes]
    | call name args line =>
      rw [children, flatMap_trace_exprs]
      rfl
    | bin op lhs rhs => simp [trace, children, Expr.nodes]
  | stmt s =>
    cases s with
    | exit | ret | print | call =>
      rw [children, flatMap_trace_exprs]
      rfl
    | letVar | assign => exact congrArg _ (flatMap_trace_exprs [_]).symm
    | block body =>
      rw [children, flatMap_trace_stmts]
      rfl
    | ifElse cond body other =>
      rw [children, List.flatMap_append, List.flatMap_append, flatMap_trace_exprs,
        other.flatMap_trace, List.flatMap_singleton]
      rfl
    | whileLoop cond body =>
      rw [children, List.flatMap_append, flatMap_trace_exprs, List.flatMap_singleton]
      rfl
    | forLoop init cond step body =>
      simp only [children, List.flatMap_append, flatMap_trace_exprs, List.flatMap_singleton]
      rfl
    | function name params body line =>
      rw [children, List.flatMap_singleton]
      rfl
    | breakLoop | continueLoop => rfl

theorem Node.length_trace_lt {n c : Node} (h : c ∈ n.children) :
    c.trace.length < n.trace.length := by
  rw [n.trace_eq, List.length_cons, Nat.lt_succ_iff]
  exact (List.sublist_flatten_of_mem (List.mem_map_of_mem h)).length_le

/-- What holds of a node if it holds of those directly inside it holds of every node. -/
theorem Node.inductionOn {motive : Node → Prop} (n : Node)
    (h : ∀ n : Node, (∀ c ∈ n.children, motive c) → motive n) : motive n := by
  induction hk : n.trace.length using Nat.strong_induction_on generalizing n with
  | _ k ih =>
    -- From a node directly inside on there are fewer nodes.
    subst hk
    exact h n fun c hc => ih _ (length_trace_lt hc) c rfl

end Trace

namespace Pass

variable {σ : Type} {pass : Pass σ}

theorem visit_succ (depth : Nat) (n : Node) :
    (pass.visitor (depth + 1)).visit n = pass.node n ((pass.visitor depth).walk n) := by
  cases n <;> rfl

/-- What does at each node what the pass says, and does so in turn at those inside it, is the
visitor of the pass, to a depth that no tree exceeds. -/
theorem visit_eq {spec : Node → σ → σ}
    (h : ∀ n, pass.node n (fun state => n.children.foldl (fun state c => spec c state) state) =
      spec n)
    {depth : Nat} {n : Node} (hn : n.trace.length ≤ depth) :
    (pass.visitor depth).visit n = spec n := by
  induction depth generalizing n with
  | zero => simp [n.trace_eq] at hn
  | succ depth ih =>
    rw [visit_succ, ← h n]
    congr 1
    funext state
    rw [Visitor.walk_eq_each]
    refine List.foldl_ext _ _ _ fun state c hc => ?_
    rw [ih (by have := Node.length_trace_lt hc; omega)]

theorem run_eq {spec : Node → σ → σ}
    (h : ∀ n, pass.node n (fun state => n.children.foldl (fun state c => spec c state) state) =
      spec n)
    (p : Program) (state : σ) :
    pass.run p state = (p.map Node.stmt).foldl (fun state n => spec n state) state := by
  rw [run, List.foldl_map]
  refine List.foldl_ext _ _ _ fun state s hs => ?_
  have hn : (Node.stmt s).trace.length ≤ p.nodes.length := by
    rw [Program.nodes, ← Node.flatMap_trace_stmts]
    exact (List.sublist_flatten_of_mem (List.mem_map_of_mem (List.mem_map_of_mem hs))).length_le
  exact congrFun (visit_eq h hn) state

end Pass

section Collecting

namespace Node

def functions (n : Node) : List FunctionDecl := n.trace.filterMap FunctionDecl.ofNode?

theorem functions_eq (n : Node) :
    n.functions = (FunctionDecl.ofNode? n).toList ++ n.children.flatMap functions := by
  rw [functions, n.trace_eq, List.filterMap_cons, List.filterMap_flatMap]
  cases FunctionDecl.ofNode? n <;> rfl

theorem flatMap_functions (p : Program) : (p.map Node.stmt).flatMap functions = p.functions := by
  rw [Program.functions, Program.nodes, ← flatMap_trace_stmts, List.filterMap_flatMap]
  rfl

end Node

/-- The table of functions, one declared after the other. -/
def Signatures.ofFunctions (fs : List FunctionDecl) : Except Error Signatures :=
  fs.foldlM declare []

namespace Collector

def declare (c : Collector) (f : FunctionDecl) : Collector :=
  if c.error.isSome then c
  else
    match c.table.declare f with
    | .ok table => { c with table }
    | .error e => { c with error := some e }

theorem foldl_declare_of_error {c : Collector} (h : c.error.isSome) (fs : List FunctionDecl) :
    fs.foldl declare c = c := by
  induction fs with
  | nil => rfl
  | cons f fs ih => rwa [List.foldl_cons, declare, if_pos h]

theorem result_foldl (fs : List FunctionDecl) (c : Collector) :
    (fs.foldl declare c).result = c.result.bind fun t => fs.foldlM Signatures.declare t := by
  induction fs generalizing c with
  | nil =>
    rw [List.foldl_nil]
    cases c.result <;> rfl
  | cons f fs ih =>
    rw [List.foldl_cons, ih, declare]
    cases h : c.error with
    | some e =>
      simp only [Option.isSome_some, if_true, result, h]
      rfl
    | none =>
      simp only [Option.isSome_none, Bool.false_eq_true, if_false, result, h, Error.failWith?,
        List.foldlM_cons, bind, pure, Except.bind, Except.pure]
      cases c.table.declare f <;> rfl

theorem node_eq (n : Node) :
    pass.node n (fun c => n.children.foldl (fun c m => m.functions.foldl declare c) c) =
      fun c => n.functions.foldl declare c := by
  funext c
  rw [n.functions_eq, List.foldl_append, List.foldl_flatMap]
  cases n with
  | expr e => rfl
  | stmt s =>
    rw [← List.foldl_flatMap]
    change (if c.error.isSome then c else _) = _
    by_cases h : c.error.isSome
    · rw [if_pos h, foldl_declare_of_error h, foldl_declare_of_error h]
    · rw [if_neg h]
      cases FunctionDecl.ofNode? (.stmt s) with
      | none => exact List.foldl_flatMap.symm
      | some f =>
        simp only [Option.toList_some, List.foldl_cons, List.foldl_nil, declare, if_neg h]
        cases c.table.declare f with
        | ok table => exact List.foldl_flatMap.symm
        | error e => exact (foldl_declare_of_error Option.isSome_some _).symm

theorem result_run (p : Program) :
    (pass.run p .blank).result = Signatures.ofFunctions p.functions := by
  rw [Pass.run_eq node_eq, ← List.foldl_flatMap, Node.flatMap_functions, result_foldl]
  rfl

end Collector

end Collecting

section Checking

namespace Node

def calls : Node → List CallSite
  | .expr e => e.calls
  | .stmt s => s.calls

theorem flatMap_calls_exprs (es : List Expr) :
    (es.map Node.expr).flatMap calls = Expr.callsEach es := by
  induction es with
  | nil => rfl
  | cons e es ih =>
    rw [List.map_cons, List.flatMap_cons, ih]
    rfl

theorem flatMap_calls_stmts (ss : List Stmt) :
    (ss.map Node.stmt).flatMap calls = Stmt.callsEach ss := by
  induction ss with
  | nil => rfl
  | cons s ss ih =>
    rw [List.map_cons, List.flatMap_cons, ih]
    rfl

theorem flatMap_calls_else (other : ElseBranch) : other.children.flatMap calls = other.calls := by
  fun_induction ElseBranch.children other with
  | case1 => rfl
  | case2 cond body next ih =>
    rw [List.flatMap_append, List.flatMap_append, flatMap_calls_exprs, ih, List.flatMap_singleton]
    rfl
  | case3 body => exact List.flatMap_singleton _ _

/-- The calls inside a node come before the one that it is. -/
theorem calls_eq (n : Node) :
    n.calls = n.children.flatMap calls ++ (CallSite.ofNode? n).toList := by
  cases n with
  | expr e =>
    cases e with
    | int | ident => rfl
    | paren inner => simp [calls, children, Expr.calls, CallSite.ofNode?]
    | call name args line =>
      rw [children, flatMap_calls_exprs]
      rfl
    | bin op lhs rhs => simp [calls, children, Expr.calls, CallSite.ofNode?]
  | stmt s =>
    cases s with
    | exit | ret | print =>
      rw [children, flatMap_calls_exprs]
      exact (List.append_nil _).symm
    | call =>
      rw [children, flatMap_calls_exprs]
      rfl
    | letVar | assign | function =>
      rw [children, List.flatMap_singleton]
      exact (List.append_nil _).symm
    | block body =>
      rw [children, flatMap_calls_stmts]
      exact (List.append_nil _).symm
    | ifElse cond body other =>
      rw [children, List.flatMap_append, List.flatMap_append, flatMap_calls_exprs,
        flatMap_calls_else, List.flatMap_singleton]
      exact (List.append_nil _).symm
    | whileLoop cond body =>
      rw [children, List.flatMap_append, flatMap_calls_exprs, List.flatMap_singleton]
      exact (List.append_nil _).symm
    | forLoop init cond step body =>
      simp only [children, List.flatMap_append, flatMap_calls_exprs, List.flatMap_singleton]
      exact (List.append_nil _).symm
    | breakLoop | continueLoop => rfl

end Node

namespace Signatures

variable (t : Signatures)

theorem checkNode_eq (n : Node) (error : Option Error) :
    t.checkNode n error = (CallSite.ofNode? n).toList.foldl t.checkNext error := by
  unfold checkNode
  cases CallSite.ofNode? n <;> rfl

theorem callChecker_node (n : Node) (walk : Option Error → Option Error) (error : Option Error) :
    t.callChecker.node n walk error = t.checkNode n (walk error) := by
  cases n <;> rfl

theorem callChecker_run (p : Program) :
    t.callChecker.run p none = p.calls.foldl t.checkNext none := by
  have hnode (n : Node) : t.callChecker.node n (fun error =>
      n.children.foldl (fun error m => m.calls.foldl t.checkNext error) error) =
        fun error => n.calls.foldl t.checkNext error := by
    funext error
    rw [callChecker_node, checkNode_eq, n.calls_eq, List.foldl_append, List.foldl_flatMap]
  rw [Pass.run_eq hnode, ← List.foldl_flatMap, Node.flatMap_calls_stmts]
  rfl

theorem foldl_checkNext_some (e : Error) (cs : List CallSite) :
    cs.foldl t.checkNext (some e) = some e := by
  induction cs with
  | nil => rfl
  | cons c cs ih => exact ih

theorem failWith?_foldl_checkNext (cs : List CallSite) :
    Error.failWith? (cs.foldl t.checkNext none) = cs.forM t.check := by
  induction cs with
  | nil => rfl
  | cons c cs ih =>
    rw [List.foldl_cons, List.forM]
    cases h : t.check c with
    | ok u =>
      simp only [checkNext, h]
      exact ih
    | error e =>
      simp only [checkNext, h]
      exact congrArg _ (t.foldl_checkNext_some e cs)

end Signatures

end Checking

/-- The functions of a program are declared as they are written, then its calls are checked as they
end. -/
theorem Signatures.ofProgram_eq (p : Program) :
    ofProgram p = do
      let t ← ofFunctions p.functions
      p.calls.forM t.check
      return t := by
  rw [ofProgram, Collector.result_run]
  simp only [callChecker_run, failWith?_foldl_checkNext]

end Stackwise
