import Stackwise.Proofs.Outlines
import Stackwise.Proofs.Passes

/-! Logs of visits.  A visitor that writes down each node and then walks on writes down every node
of a tree once: a node before those inside it, and nodes inside one node as they stand in its
text. -/
namespace Stackwise

namespace Visitor

/-- The state is a log: a node that is visited is added to it before the walk goes on. -/
def Logs (v : Visitor (List Node)) : Prop := ∀ n log, v.visit n log = v.walk n (log ++ [n])

theorem each_log {v : Visitor (List Node)} {ns : List Node}
    (h : ∀ n ∈ ns, ∀ log, v.visit n log = log ++ n.trace) (log : List Node) :
    v.each ns log = log ++ ns.flatMap Node.trace := by
  induction ns generalizing log with
  | nil => simp [each]
  | cons n ns ih =>
    obtain ⟨hn, hns⟩ := List.forall_mem_cons.1 h
    rw [each, List.foldl_cons, ← each, hn, ih hns, List.append_assoc, List.flatMap_cons]

/-- A visitor that logs adds all nodes from the one on at which it starts. -/
theorem Logs.visit_eq {v : Visitor (List Node)} (hv : v.Logs) (n : Node) :
    ∀ log, v.visit n log = log ++ n.trace := by
  induction n using Node.inductionOn with
  | h n ih =>
    intro log
    rw [hv n log, walk_eq_each, each_log ih, n.trace_eq, List.append_assoc, List.singleton_append]

def logging : Visitor (List Node) where
  expr e log := log ++ (Node.expr e).trace
  stmt s log := log ++ (Node.stmt s).trace

theorem logging_logs : logging.Logs := by
  have hvisit (n : Node) (log : List Node) : logging.visit n log = log ++ n.trace := by
    cases n <;> rfl
  intro n log
  rw [hvisit, walk_eq_each, each_log fun n _ => hvisit n, n.trace_eq, List.append_assoc,
    List.singleton_append]

end Visitor

theorem Pass.logging_run (p : Program) : Pass.logging.run p [] = p.nodes := by
  have hnode (n : Node) : Pass.logging.node n (fun log =>
      n.children.foldl (fun log m => log ++ m.trace) log) = fun log => log ++ n.trace := by
    funext log
    have hwalk : Pass.logging.node n (fun log => n.children.foldl (fun log m => log ++ m.trace) log)
        log = n.children.foldl (fun log m => log ++ m.trace) (log ++ [n]) := by
      cases n <;> rfl
    rw [hwalk, List.foldl_append_eq_append, n.trace_eq, ← List.flatMap_def, List.append_assoc,
      List.singleton_append]
  rw [Pass.run_eq hnode, List.foldl_append_eq_append, ← List.flatMap_def, Node.flatMap_trace_stmts,
    List.nil_append]
  rfl

theorem Runs.positions {before : Position → Position → Prop} {ns ms : List Node}
    (h : Runs before some ns ms) :
    ∃ paths : List Position, paths.Pairwise before ∧
      (∀ path, path ∈ paths ↔ (Node.at? ns path).isSome) ∧
      paths.map (Node.at? ns) = ms.map some := by
  obtain ⟨found, hl, rfl⟩ := h
  have hat (path : Position) (n : Node) : (path, n) ∈ found ↔ Node.at? ns path = some n := by
    rw [hl.mem_iff, Option.bind_fun_some]
  refine ⟨found.map Prod.fst, List.pairwise_map.2 hl.sorted, fun path => ?_, ?_⟩
  · simp [hat, Option.isSome_iff_exists]
  · rw [List.map_map, List.map_map]
    exact List.map_congr_left fun x hx => (hat x.1 x.2).1 hx

/-- A visitor that logs, started at a statement, adds the nodes of the tree to its log, the one at
each position once and no others, in lexicographic order of the positions: a node before those
inside it, and the nodes inside one node by their numbers.  These numbers follow the text, since
the texts of the nodes directly inside a node fill the gaps in that of its outline one after the
other; and no node is without a number, since the outline and the nodes directly inside make up
the node. -/
theorem Visitor.log_each_position (v : Visitor (List Node)) (hv : v.Logs) (s : Stmt)
    (log : List Node) :
    v.stmt s log = log ++ s.nodes ∧
      (∃ paths : List Position, paths.Pairwise (· < ·) ∧
        (∀ path, path ∈ paths ↔ (Node.at? [.stmt s] path).isSome) ∧
        paths.map (Node.at? [.stmt s]) = s.nodes.map some) ∧
      s.nodes.length = {path | (Node.at? [.stmt s] path).isSome}.ncard ∧
      (∀ n : Node, n.outline.template.fill? (n.children.map Node.render) = some n.render) ∧
      ∀ n m : Node, n.outline = m.outline → n.children = m.children → n = m := by
  refine ⟨hv.visit_eq (.stmt s) log, s.nodes_run.positions, ?_, Node.fill?_template,
    fun n m => Node.eq_of_outline⟩
  rw [s.nodes_run.length_eq]
  simp only [Option.bind_fun_some, Option.isSome_iff_exists]

/-- A statement with nodes in every kind of branch. -/
def forkedStmt : Stmt :=
  .ifElse
    [⟨.paren (.ident "x" 1), some (.lt, .int 2), .and⟩, ⟨.call "f" [.int 1, .int 1] 1, none, .or⟩]
    (.print [.str "a", .expr (.ident "x" 2)])
    (.elseIf [⟨.int 0, none, .and⟩]
      (.forLoop (.letVar "i" (.int 0) 3) [⟨.ident "i" 3, none, .and⟩]
        (.assign "i" (.bin .sub (.ident "i" 3) (.int 1)) 3) (.continueLoop 3))
      (.otherwise (.block [.exit none])))

theorem Visitor.log_each_position_forkedStmt :
    Visitor.logging.Logs ∧ (Visitor.logging.stmt forkedStmt []).length = 21 ∧
      ∃ paths : List Position, paths.Pairwise (· < ·) ∧
        (∀ path, path ∈ paths ↔ (Node.at? [.stmt forkedStmt] path).isSome) ∧
        paths.map (Node.at? [.stmt forkedStmt]) =
          (Visitor.logging.stmt forkedStmt []).map some := by
  obtain ⟨hlog, hpaths, -⟩ :=
    Visitor.log_each_position Visitor.logging Visitor.logging_logs forkedStmt []
  rw [hlog]
  exact ⟨Visitor.logging_logs, rfl, hpaths⟩

end Stackwise
