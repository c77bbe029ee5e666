import Stackwise.Proofs.Placement
import Stackwise.Proofs.Regularity
import Stackwise.Proofs.Spelling

/-! Names of functions.  Whatever stands in a text, the functions of the program that is read off it
are called by words of that text, so their names hold letters, digits and underscores only. -/
namespace Stackwise

open Token (IsName)

/-- The functions of a statement, at any depth, are called by names. -/
def Stmt.Named (s : Stmt) : Prop :=
  ∀ f ∈ s.nodes.filterMap FunctionDecl.ofNode?, IsName f.name

def ElseBranch.Named (other : ElseBranch) : Prop :=
  ∀ f ∈ other.nodes.filterMap FunctionDecl.ofNode?, IsName f.name

namespace Stmt

theorem named_nodesEach {ss : List Stmt} (h : ∀ s ∈ ss, s.Named) :
    ∀ f ∈ (nodesEach ss).filterMap FunctionDecl.ofNode?, IsName f.name := by
  induction ss with
  | nil => simp [nodesEach]
  | cons s ss ih =>
    obtain ⟨hs, hss⟩ := List.forall_mem_cons.1 h
    rw [nodesEach, List.filterMap_append]
    exact List.forall_mem_append.2 ⟨hs, ih hss⟩

end Stmt

/-- Where a token is asked for the name of a function, it carries a name. -/
def Token.Naming (t : Token) : Prop := t.kind = .fnName → ∀ text ∈ t.literal, IsName text

theorem Scan.tokens_naming (source : String) : ∀ t ∈ (Scan.ofText source).tokens, t.Naming := by
  intro t ht hk text htext
  obtain ⟨kind, cs, rest, hl, hkind, hliteral⟩ := Scan.exists_lexeme ht
  rw [hliteral] at htext
  obtain rfl | rfl : kind = .ident ∨ kind = .fnName := by
    rw [hkind, Piece.kindBefore] at hk
    split at hk
    next h => exact .inl h.1
    next => exact .inr hk
  · obtain rfl := Option.some.inj htext
    cases hl with
    | name hc hds hfree =>
      refine ⟨⟨_, by simp, hc⟩, ?_, fun kind hk hn => hfree kind hk (by simp [hn])⟩
      rw [String.toList_ofList]
      exact List.forall_mem_cons.2 ⟨by simp [Piece.isWordChar, hc], hds⟩
    | keyword hw => exact absurd rfl (Piece.keyword_bare hw).2.1
    | symbol hw => exact absurd rfl (Piece.symbol_bare hw).2.1
  · cases htext

/-- Whatever is read off tokens that scanning can find, its functions are called by names. -/
def Trait.named : Trait where
  token := Token.Naming
  expr _ := True
  stmt _ := Stmt.Named
  branch _ := ElseBranch.Named
  ofExpr _ := trivial
  ofStmt h := by
    cases h with
    | block _ hb =>
      simpa [Stmt.Named, Stmt.nodes, List.filterMap_cons, FunctionDecl.ofNode?] using
        Stmt.named_nodesEach (Likeness.forall_of_forall₂ hb fun _ _ h => h)
    | ifElse _ hb ho =>
      rw [Stmt.Named, Stmt.nodes, List.filterMap_cons_none rfl, List.filterMap_append,
        List.filterMap_append, Node.filterMap_ofExprs, List.nil_append]
      exact List.forall_mem_append.2 ⟨hb, ho⟩
    | whileLoop _ hb =>
      rw [Stmt.Named, Stmt.nodes, List.filterMap_cons_none rfl, List.filterMap_append,
        Node.filterMap_ofExprs, List.nil_append]
      exact hb
    | forLoop _ _ hi _ ht hb =>
      rw [Stmt.Named, Stmt.nodes, List.filterMap_cons_none rfl, List.filterMap_append,
        List.filterMap_append, List.filterMap_append, Node.filterMap_ofExprs, List.append_nil]
      exact List.forall_mem_append.2 ⟨List.forall_mem_append.2 ⟨hi, ht⟩, hb⟩
    | @function t _ name params body _ ht hk hl _ hb =>
      have hf : FunctionDecl.ofNode? (.stmt (.function name params body t.line)) =
          some ⟨name, params, body, t.line⟩ := rfl
      rw [Stmt.Named, Stmt.nodes, List.filterMap_cons_some hf]
      exact List.forall_mem_cons.2 ⟨ht.2 hk name hl, hb⟩
    | _ => simp [Stmt.Named, Stmt.nodes, List.filterMap_cons, FunctionDecl.ofNode?]
  ofBranch h := by
    cases h with
    | absent => simp [ElseBranch.Named, ElseBranch.nodes]
    | elseIf _ hb hn =>
      rw [ElseBranch.Named, ElseBranch.nodes, List.filterMap_append, List.filterMap_append,
        Node.filterMap_ofExprs, List.nil_append]
      exact List.forall_mem_append.2 ⟨hb, hn⟩
    | otherwise hb => exact hb

/-- Functions are called by names, and these are words. -/
theorem Program.isName_of_ofScan {source : String} {p : Program}
    (h : Program.ofScan (Scan.ofText source) = .ok p) : ∀ f ∈ p.functions, IsName f.name := by
  obtain ⟨rest, hr⟩ := ofTokens_eq_ok (ofTokens_of_ofScan h)
  exact Stmt.named_nodesEach (Trait.named.program (Scan.tokens_naming source) hr)

end Stackwise
