import Stackwise.Tree.Traversal
import Mathlib.Data.List.Pairwise
import Mathlib.Data.Set.Card

/-! Positions in trees.  A position leads down from a list of trees to a node: its first number says
in which of the trees the node is, each further number which of the nodes directly inside to go to.
The two orders of walking over trees are orders of positions: a node comes before those inside it,
or it comes after them. -/
namespace Stackwise

/-- The nodes directly inside the branches after the first, as they are written. -/
def ElseBranch.children : ElseBranch → List Node
  | .absent => []
  | .elseIf cond body next => (Condition.exprs cond).map .expr ++ [.stmt body] ++ next.children
  | .otherwise body => [.stmt body]

/-- The way to a node, as the numbers of the nodes it leads through. -/
abbrev Position := List Nat

namespace Node

def children : Node → List Node
  | .expr (.int _) => []
  | .expr (.ident ..) => []
  | .expr (.paren inner) => [.expr inner]
  | .expr (.call _ args _) => args.map .expr
  | .expr (.bin _ lhs rhs) => [.expr lhs] ++ [.expr rhs]
  | .stmt (.exit value) => value.toList.map .expr
  | .stmt (.letVar _ value _) => [.expr value]
  | .stmt (.assign _ value _) => [.expr value]
  | .stmt (.block body) => body.map .stmt
  | .stmt (.print items) => (PrintItem.exprs items).map .expr
  | .stmt (.ifElse cond body other) =>
    (Condition.exprs cond).map .expr ++ [.stmt body] ++ other.children
  | .stmt (.whileLoop cond body) => (Condition.exprs cond).map .expr ++ [.stmt body]
  | .stmt (.forLoop init cond step body) =>
    [.stmt init] ++ (Condition.exprs cond).map .expr ++ [.stmt step] ++ [.stmt body]
  | .stmt (.function _ _ body _) => [.stmt body]
  | .stmt (.ret value _ _) => value.toList.map .expr
  | .stmt (.call _ args _) => args.map .expr
  | .stmt (.breakLoop _) => []
  | .stmt (.continueLoop _) => []

def at? : List Node → Position → Option Node
  | _, [] => none
  | ns, i :: path => ns[i]?.bind fun n => if path = [] then some n else at? n.children path

variable {n : Node} {ns ms : List Node} {i : Nat} {path : Position}

@[simp] theorem at?_nil : at? ns [] = none := by
  rw [at?]

@[simp] theorem nil_at? : at? [] path = none := by
  cases path <;> simp [at?]

theorem singleton_at? : at? [n] (i :: path) =
    if i = 0 then if path = [] then some n else at? n.children path else none := by
  cases i <;> simp [at?]

/-- Numbers count on through trees put together. -/
theorem append_at? : at? (ns ++ ms) (i :: path) =
    if i < ns.length then at? ns (i :: path) else at? ms ((i - ns.length) :: path) := by
  simp only [at?, List.getElem?_append]
  split <;> rfl

theorem lt_length_of_at? (h : at? ns (i :: path) = some n) : i < ns.length := by
  obtain ⟨m, hm, -⟩ := Option.bind_eq_some_iff.1 (by rw [at?] at h; exact h)
  exact (List.getElem?_eq_some_iff.1 hm).1

end Node

namespace Position

/-- A node ends before another: where the ways part it takes the earlier one, or it is inside. -/
def EndsBefore : Position → Position → Prop
  | [], _ => False
  | _ :: _, [] => True
  | i :: p, j :: q => i < j ∨ i = j ∧ EndsBefore p q

/-- Orders of positions for which the first difference decides. -/
class Order (before : Position → Position → Prop) : Prop where
  cons_iff : ∀ i j p q, before (i :: p) (j :: q) ↔ i < j ∨ i = j ∧ before p q
  asymm : ∀ p q, before p q → ¬ before q p

theorem before_cons (before : Position → Position → Prop) [Order before] {i j : Nat}
    {p q : Position} : before (i :: p) (j :: q) ↔ i < j ∨ i = j ∧ before p q :=
  Order.cons_iff i j p q

instance : Order (· < ·) where
  cons_iff _ _ _ _ := List.cons_lt_cons_iff
  asymm _ _ h := h.not_gt

instance : Order EndsBefore where
  cons_iff _ _ _ _ := Iff.rfl
  asymm p := by
    induction p with
    | nil => exact fun _ h => h.elim
    | cons i p ih =>
      intro q h h'
      cases q with
      | nil => exact h'
      | cons j q =>
        rcases h with h | ⟨rfl, h⟩
        · rcases h' with h' | ⟨rfl, -⟩ <;> omega
        · rcases h' with h' | ⟨-, h'⟩
          · omega
          · exact ih q h h'

end Position

/-- What `pick` finds at the nodes of trees, each with its position, in an order of positions. -/
structure Lists {α : Type} (before : Position → Position → Prop) (pick : Node → Option α)
    (ns : List Node) (found : List (Position × α)) : Prop where
  mem_iff : ∀ path a, (path, a) ∈ found ↔ (Node.at? ns path).bind pick = some a
  sorted : found.Pairwise fun x y => before x.1 y.1

/-- What `pick` finds at the nodes of trees, in an order of positions. -/
def Runs {α : Type} (before : Position → Position → Prop) (pick : Node → Option α)
    (ns : List Node) (as : List α) : Prop :=
  ∃ found, Lists before pick ns found ∧ found.map Prod.snd = as

section Lists

variable {α : Type} {before : Position → Position → Prop} {pick : Node → Option α} {n : Node}
  {ns ms : List Node} {found found' : List (Position × α)} {as bs : List α}

/-- The position in trees that stand behind others. -/
def Position.behind (k : Nat) : Position → Position
  | [] => []
  | i :: path => (k + i) :: path

@[simp] theorem Position.behind_eq_cons {k i : Nat} {path rest : Position} :
    Position.behind k path = i :: rest ↔ ∃ j, i = k + j ∧ path = j :: rest := by
  cases path with
  | nil => simp [behind]
  | cons j path =>
    simp only [behind, List.cons.injEq]
    constructor
    · rintro ⟨rfl, rfl⟩
      exact ⟨j, rfl, rfl, rfl⟩
    · rintro ⟨j', rfl, rfl, rfl⟩
      exact ⟨rfl, rfl⟩

theorem Lists.nil : Lists before pick [] [] where
  mem_iff path a := by simp
  sorted := .nil

theorem Lists.cons_of_mem {path : Position} {a : α} (h : Lists before pick ns found)
    (hm : (path, a) ∈ found) : ∃ i rest, path = i :: rest ∧ i < ns.length := by
  rw [h.mem_iff] at hm
  obtain ⟨n, hn, -⟩ := Option.bind_eq_some_iff.1 hm
  cases path with
  | nil => simp at hn
  | cons i rest => exact ⟨i, rest, rfl, Node.lt_length_of_at? hn⟩

theorem Lists.append [Position.Order before] (h : Lists before pick ns found)
    (h' : Lists before pick ms found') :
    Lists before pick (ns ++ ms)
      (found ++ found'.map fun x => (Position.behind ns.length x.1, x.2)) where
  mem_iff path a := by
    rw [List.mem_append, List.mem_map]
    cases path with
    | nil =>
      simp only [Node.at?_nil, Option.bind_none, reduceCtorEq, iff_false, not_or]
      refine ⟨fun hm => ?_, fun ⟨x, hm, he⟩ => ?_⟩
      · obtain ⟨_, _, he, -⟩ := h.cons_of_mem hm
        cases he
      · obtain ⟨i, rest, hx, -⟩ := h'.cons_of_mem hm
        rw [hx] at he
        cases he
    | cons i rest =>
      rw [Node.append_at?]
      split
      next hi =>
        rw [← h.mem_iff]
        refine ⟨fun hm => hm.resolve_right ?_, .inl⟩
        rintro ⟨x, -, he⟩
        obtain ⟨j, rfl, -⟩ := Position.behind_eq_cons.1 (Prod.mk.inj he).1
        omega
      next hi =>
        rw [← h'.mem_iff]
        constructor
        · rintro (hm | ⟨⟨q, b⟩, hm, he⟩)
          · obtain ⟨_, _, he, hlt⟩ := h.cons_of_mem hm
            cases he
            exact absurd hlt hi
          · obtain ⟨hq, rfl⟩ := Prod.mk.inj he
            obtain ⟨j, rfl, rfl⟩ := Position.behind_eq_cons.1 hq
            rwa [Nat.add_sub_cancel_left]
        · intro hm
          refine .inr ⟨_, hm, ?_⟩
          rw [Position.behind, Nat.add_sub_cancel' (Nat.le_of_not_lt hi)]
  sorted := by
    rw [List.pairwise_append, List.pairwise_map]
    refine ⟨h.sorted, h'.sorted.imp_of_mem fun {x y} hx hy hxy => ?_, fun x hx y hy => ?_⟩
    · obtain ⟨i, p, hp, -⟩ := h'.cons_of_mem hx
      obtain ⟨j, q, hq, -⟩ := h'.cons_of_mem hy
      rw [hp, hq, Position.before_cons before] at hxy
      rw [hp, hq, Position.behind, Position.behind, Position.before_cons before]
      exact hxy.imp (Nat.add_lt_add_left · _) (And.imp_left (congrArg _))
    · obtain ⟨⟨q, b⟩, hm, rfl⟩ := List.mem_map.1 hy
      obtain ⟨i, p, hp, hi⟩ := h.cons_of_mem hx
      obtain ⟨j, q, rfl, -⟩ := h'.cons_of_mem hm
      rw [hp, Position.behind, Position.before_cons before]
      exact .inl (Nat.lt_add_right j hi)

/-- A node and the nodes inside it: the way to these goes through the node. -/
theorem Lists.mem_node (h : Lists before pick n.children found) (path : Position) (a : α) :
    (Node.at? [n] path).bind pick = some a ↔
      (path, a) ∈ (pick n).toList.map (Prod.mk [0]) ∨
        (path, a) ∈ found.map fun x => (0 :: x.1, x.2) := by
  rw [List.mem_map, List.mem_map]
  cases path with
  | nil => simp
  | cons i rest =>
    rw [Node.singleton_at?]
    split
    next hi =>
      subst hi
      split
      next hr =>
        subst hr
        constructor
        · intro hp
          exact .inl ⟨a, by simpa using hp, rfl⟩
        · rintro (⟨b, hp, he⟩ | ⟨⟨q, b⟩, hm, he⟩)
          · cases he
            simpa using hp
          · obtain ⟨_, _, rfl, -⟩ := h.cons_of_mem hm
            cases he
      next hr =>
        rw [← h.mem_iff]
        constructor
        · exact fun hm => .inr ⟨_, hm, rfl⟩
        · rintro (⟨b, hp, he⟩ | ⟨⟨q, b⟩, hm, he⟩)
          · cases he
            exact absurd rfl hr
          · cases he
            exact hm
    next hi =>
      simp only [Option.bind_none, reduceCtorEq, false_iff, not_or]
      refine ⟨?_, ?_⟩
      · rintro ⟨b, -, he⟩
        cases he
        exact hi rfl
      · rintro ⟨x, -, he⟩
        cases he
        exact hi rfl

theorem Lists.sorted_inside [Position.Order before] (h : Lists before pick ns found) :
    (found.map fun x => ((0 :: x.1 : Position), x.2)).Pairwise fun x y => before x.1 y.1 := by
  rw [List.pairwise_map]
  refine h.sorted.imp fun {x y} hxy => ?_
  rw [Position.before_cons before]
  exact .inr ⟨rfl, hxy⟩

theorem Lists.sorted_own (o : Option α) :
    (o.toList.map (Prod.mk ([0] : Position))).Pairwise fun x y => before x.1 y.1 := by
  cases o with
  | none => exact .nil
  | some a => exact List.pairwise_singleton _ _

namespace Runs

theorem nil : Runs before pick [] [] := ⟨[], .nil, rfl⟩

theorem append [Position.Order before] (h : Runs before pick ns as)
    (h' : Runs before pick ms bs) : Runs before pick (ns ++ ms) (as ++ bs) := by
  obtain ⟨found, hl, rfl⟩ := h
  obtain ⟨found', hl', rfl⟩ := h'
  refine ⟨_, hl.append hl', ?_⟩
  rw [List.map_append, List.map_map]
  rfl

theorem node_first (h : Runs (· < ·) pick n.children as) :
    Runs (· < ·) pick [n] ((pick n).toList ++ as) := by
  obtain ⟨found, hl, rfl⟩ := h
  refine ⟨(pick n).toList.map (Prod.mk [0]) ++ found.map fun x => (0 :: x.1, x.2), ⟨?_, ?_⟩, ?_⟩
  · intro path a
    rw [List.mem_append, hl.mem_node]
  · rw [List.pairwise_append]
    refine ⟨Lists.sorted_own _, hl.sorted_inside, fun x hx y hy => ?_⟩
    obtain ⟨a, -, rfl⟩ := List.mem_map.1 hx
    obtain ⟨⟨q, b⟩, hm, rfl⟩ := List.mem_map.1 hy
    obtain ⟨i, rest, rfl, -⟩ := hl.cons_of_mem hm
    exact List.cons_lt_cons_iff.2 (.inr ⟨rfl, List.nil_lt_cons _ _⟩)
  · simp [Function.comp_def]

theorem node_last (h : Runs Position.EndsBefore pick n.children as) :
    Runs Position.EndsBefore pick [n] (as ++ (pick n).toList) := by
  obtain ⟨found, hl, rfl⟩ := h
  refine ⟨(found.map fun x => (0 :: x.1, x.2)) ++ (pick n).toList.map (Prod.mk [0]), ⟨?_, ?_⟩, ?_⟩
  · intro path a
    rw [List.mem_append, hl.mem_node, or_comm]
  · rw [List.pairwise_append]
    refine ⟨hl.sorted_inside, Lists.sorted_own _, fun x hx y hy => ?_⟩
    obtain ⟨⟨q, b⟩, hm, rfl⟩ := List.mem_map.1 hx
    obtain ⟨a, -, rfl⟩ := List.mem_map.1 hy
    obtain ⟨i, rest, rfl, -⟩ := hl.cons_of_mem hm
    exact .inr ⟨rfl, trivial⟩
  · simp [Function.comp_def]

theorem filterMap {ns' : List Node} (h : Runs before some ns ns') :
    Runs before pick ns (ns'.filterMap pick) := by
  obtain ⟨found, hl, rfl⟩ := h
  refine ⟨found.filterMap fun x => (pick x.2).map (Prod.mk x.1), ⟨?_, ?_⟩, ?_⟩
  · intro path a
    rw [List.mem_filterMap, Option.bind_eq_some_iff]
    constructor
    · rintro ⟨⟨q, n⟩, hm, he⟩
      obtain ⟨b, hb, he⟩ := Option.map_eq_some_iff.1 he
      cases he
      rw [hl.mem_iff, Option.bind_fun_some] at hm
      exact ⟨n, hm, hb⟩
    · rintro ⟨n, hn, ha⟩
      refine ⟨(path, n), ?_, by simp [ha]⟩
      rw [hl.mem_iff, Option.bind_fun_some, hn]
  · refine hl.sorted.filterMap _ fun x y hxy x' hx y' hy => ?_
    obtain ⟨a, -, rfl⟩ := Option.map_eq_some_iff.1 hx
    obtain ⟨b, -, rfl⟩ := Option.map_eq_some_iff.1 hy
    exact hxy
  · rw [List.map_filterMap, List.filterMap_map]
    congr 1
    funext x
    cases h : pick x.2 <;> simp [h]

/-- What is found up to a place is what stands before it. -/
theorem split [Position.Order before] {a : α} (h : Runs before pick ns (as ++ a :: bs)) :
    ∃ (earlier : List (Position × α)) (path : Position), earlier.map Prod.snd = as ∧
      (Node.at? ns path).bind pick = some a ∧
      ∀ q b, (q, b) ∈ earlier ↔ before q path ∧ (Node.at? ns q).bind pick = some b := by
  obtain ⟨found, hl, he⟩ := h
  obtain ⟨earlier, later, rfl, rfl, hm⟩ := List.map_eq_append_iff.1 he
  obtain ⟨⟨path, b⟩, later, rfl, rfl, rfl⟩ := List.map_eq_cons_iff.1 hm
  have hs := List.pairwise_append.1 hl.sorted
  refine ⟨earlier, path, rfl, (hl.mem_iff path b).1 (by simp), fun q c => ⟨fun hq => ?_, ?_⟩⟩
  · exact ⟨hs.2.2 _ hq (path, b) (by simp), (hl.mem_iff q c).1 (by simp [hq])⟩
  · rintro ⟨hb, hc⟩
    rcases List.mem_append.1 ((hl.mem_iff q c).2 hc) with hq | hq
    · exact hq
    · exfalso
      rcases List.mem_cons.1 hq with hq | hq
      · cases hq
        exact Position.Order.asymm _ _ hb hb
      · exact Position.Order.asymm _ _ hb ((List.pairwise_cons.1 hs.2.1).1 _ hq)

end Runs

theorem Lists.nodup [Position.Order before] (h : Lists before pick ns found) :
    (found.map Prod.fst).Nodup := by
  refine List.pairwise_map.2 (h.sorted.imp fun {x y} hxy he => ?_)
  rw [he] at hxy
  exact Position.Order.asymm _ _ hxy hxy

/-- As much is found as there are positions where something is found. -/
theorem Runs.length_eq [Position.Order before] (h : Runs before pick ns as) :
    as.length = {path | ∃ a, (Node.at? ns path).bind pick = some a}.ncard := by
  obtain ⟨found, hl, rfl⟩ := h
  have hset : {path | ∃ a, (Node.at? ns path).bind pick = some a} =
      ((found.map Prod.fst).toFinset : Set Position) := by
    ext path
    simp [hl.mem_iff]
  rw [hset, Set.ncard_coe_finset, List.toFinset_card_of_nodup hl.nodup, List.length_map,
    List.length_map]

theorem Runs.mem_iff (h : Runs before pick ns as) {a : α} :
    a ∈ as ↔ ∃ path, (Node.at? ns path).bind pick = some a := by
  obtain ⟨found, hl, rfl⟩ := h
  simp [hl.mem_iff]

/-- A mark is on one thing only exactly if it is found at one position only. -/
theorem Runs.nodup_map_iff [Position.Order before] {β : Type} (mark : α → β)
    (h : Runs before pick ns as) :
    (as.map mark).Nodup ↔ ∀ p q a b, (Node.at? ns p).bind pick = some a →
      (Node.at? ns q).bind pick = some b → mark a = mark b → p = q := by
  obtain ⟨found, hl, rfl⟩ := h
  rw [List.map_map, List.nodup_map_iff_inj_on (List.Nodup.of_map _ hl.nodup)]
  constructor
  · intro hi p q a b ha hb hab
    exact congrArg Prod.fst (hi _ ((hl.mem_iff p a).2 ha) _ ((hl.mem_iff q b).2 hb) hab)
  · rintro hi ⟨p, a⟩ hp ⟨q, b⟩ hq hab
    have hpa := (hl.mem_iff p a).1 hp
    have hqb := (hl.mem_iff q b).1 hq
    obtain rfl := hi p q a b hpa hqb hab
    rw [hpa] at hqb
    rw [Option.some.inj hqb]

end Lists

section Nodes

mutual

theorem Expr.nodes_run : (e : Expr) → Runs (· < ·) some [.expr e] (e.nodes.map .expr)
  | .int _ => Runs.nil.node_first
  | .ident .. => Runs.nil.node_first
  | .paren inner => (Expr.nodes_run inner).node_first
  | .call _ args _ => (Expr.nodesEach_run args).node_first
  | .bin _ lhs rhs => by
    rw [Expr.nodes, List.map_cons, List.map_append]
    exact ((Expr.nodes_run lhs).append (Expr.nodes_run rhs)).node_first

theorem Expr.nodesEach_run : (es : List Expr) →
    Runs (· < ·) some (es.map .expr) (Node.ofExprs es)
  | [] => .nil
  | e :: es => by
    rw [Node.ofExprs, Expr.nodesEach, List.map_append]
    exact (Expr.nodes_run e).append (Expr.nodesEach_run es)

end

mutual

theorem Stmt.nodes_run : (s : Stmt) → Runs (· < ·) some [.stmt s] s.nodes
  | .exit value => (Expr.nodesEach_run value.toList).node_first
  | .letVar _ value _ => (Expr.nodesEach_run [value]).node_first
  | .assign _ value _ => (Expr.nodesEach_run [value]).node_first
  | .block body => (Stmt.nodesEach_run body).node_first
  | .print items => (Expr.nodesEach_run (PrintItem.exprs items)).node_first
  | .ifElse cond body other =>
    (((Expr.nodesEach_run (Condition.exprs cond)).append
      (Stmt.nodes_run body)).append (ElseBranch.nodes_run other)).node_first
  | .whileLoop cond body =>
    ((Expr.nodesEach_run (Condition.exprs cond)).append
      (Stmt.nodes_run body)).node_first
  | .forLoop init cond step body =>
    ((((Stmt.nodes_run init).append
      (Expr.nodesEach_run (Condition.exprs cond))).append
      (Stmt.nodes_run step)).append (Stmt.nodes_run body)).node_first
  | .function _ _ body _ => (Stmt.nodes_run body).node_first
  | .ret value _ _ => (Expr.nodesEach_run value.toList).node_first
  | .call _ args _ => (Expr.nodesEach_run args).node_first
  | .breakLoop _ => Runs.nil.node_first
  | .continueLoop _ => Runs.nil.node_first

theorem Stmt.nodesEach_run : (ss : List Stmt) →
    Runs (· < ·) some (ss.map .stmt) (Stmt.nodesEach ss)
  | [] => .nil
  | s :: ss => (Stmt.nodes_run s).append (Stmt.nodesEach_run ss)

theorem ElseBranch.nodes_run : (other : ElseBranch) → Runs (· < ·) some other.children other.nodes
  | .absent => .nil
  | .elseIf cond body next =>
    ((Expr.nodesEach_run (Condition.exprs cond)).append
      (Stmt.nodes_run body)).append (ElseBranch.nodes_run next)
  | .otherwise body => Stmt.nodes_run body

end

end Nodes

section Calls

theorem Runs.node_quiet {n : Node} {cs : List CallSite} (hn : CallSite.ofNode? n = none)
    (h : Runs Position.EndsBefore CallSite.ofNode? n.children cs) :
    Runs Position.EndsBefore CallSite.ofNode? [n] cs := by
  have hl := h.node_last
  rwa [hn, Option.toList_none, List.append_nil] at hl

mutual

theorem Expr.calls_run : (e : Expr) →
    Runs Position.EndsBefore CallSite.ofNode? [.expr e] e.calls
  | .int _ => Runs.nil.node_quiet rfl
  | .ident .. => Runs.nil.node_quiet rfl
  | .paren inner => (Expr.calls_run inner).node_quiet rfl
  | .call _ args _ => (Expr.callsEach_run args).node_last
  | .bin _ lhs rhs =>
    ((Expr.calls_run lhs).append (Expr.calls_run rhs)).node_quiet rfl

theorem Expr.callsEach_run : (es : List Expr) →
    Runs Position.EndsBefore CallSite.ofNode? (es.map .expr) (Expr.callsEach es)
  | [] => .nil
  | e :: es => (Expr.calls_run e).append (Expr.callsEach_run es)

end

mutual

theorem Stmt.calls_run : (s : Stmt) →
    Runs Position.EndsBefore CallSite.ofNode? [.stmt s] s.calls
  | .exit value => (Expr.callsEach_run value.toList).node_quiet rfl
  | .letVar _ value _ => (Expr.calls_run value).node_quiet rfl
  | .assign _ value _ => (Expr.calls_run value).node_quiet rfl
  | .block body => (Stmt.callsEach_run body).node_quiet rfl
  | .print items => (Expr.callsEach_run (PrintItem.exprs items)).node_quiet rfl
  | .ifElse cond body other =>
    (((Expr.callsEach_run (Condition.exprs cond)).append
      (Stmt.calls_run body)).append
      (ElseBranch.calls_run other)).node_quiet rfl
  | .whileLoop cond body =>
    ((Expr.callsEach_run (Condition.exprs cond)).append
      (Stmt.calls_run body)).node_quiet rfl
  | .forLoop init cond step body =>
    ((((Stmt.calls_run init).append
      (Expr.callsEach_run (Condition.exprs cond))).append
      (Stmt.calls_run step)).append (Stmt.calls_run body)).node_quiet rfl
  | .function _ _ body _ => (Stmt.calls_run body).node_quiet rfl
  | .ret value _ _ => (Expr.callsEach_run value.toList).node_quiet rfl
  | .call _ args _ => (Expr.callsEach_run args).node_last
  | .breakLoop _ => Runs.nil.node_quiet rfl
  | .continueLoop _ => Runs.nil.node_quiet rfl

theorem Stmt.callsEach_run : (ss : List Stmt) →
    Runs Position.EndsBefore CallSite.ofNode? (ss.map .stmt) (Stmt.callsEach ss)
  | [] => .nil
  | s :: ss => (Stmt.calls_run s).append (Stmt.callsEach_run ss)

theorem ElseBranch.calls_run : (other : ElseBranch) →
    Runs Position.EndsBefore CallSite.ofNode? other.children other.calls
  | .absent => .nil
  | .elseIf cond body next =>
    ((Expr.callsEach_run (Condition.exprs cond)).append
      (Stmt.calls_run body)).append (ElseBranch.calls_run next)
  | .otherwise body => Stmt.calls_run body

end

end Calls

end Stackwise
