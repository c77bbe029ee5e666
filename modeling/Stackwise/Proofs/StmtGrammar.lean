import Stackwise.Grammar.Session
import Stackwise.Proofs.ExprGrammar

/-! The grammar of conditions, statements and programs.  Whatever it derives is read as it is
derived, up to the last of its tokens and no further.  An `else` goes with the last `if` before it
that has none yet, so a statement that ends in such an `if` is not to be followed by an `else`. -/
namespace Stackwise

inductive Comparison.Derives : Comparison → List Token → Prop
  | eq {t u : Token} : t.kind = .eq → u.kind = .eq → Derives .eq [t, u]
  | ge {t u : Token} : t.kind = .gt → u.kind = .eq → Derives .ge [t, u]
  | le {t u : Token} : t.kind = .lt → u.kind = .eq → Derives .le [t, u]
  | lt {t : Token} : t.kind = .lt → Derives .lt [t]
  | gt {t : Token} : t.kind = .gt → Derives .gt [t]

def Connector.kind : Connector → TokenKind
  | and => .and
  | or => .or

inductive Link.Derives : Link → List Token → Prop
  | truth {lhs : Expr} {connector : Connector} {ts : List Token} : lhs.Derives .sum ts →
    Derives ⟨lhs, none, connector⟩ ts
  | compare {lhs rhs : Expr} {cmp : Comparison} {connector : Connector} {ts ops ts' : List Token} :
    lhs.Derives .sum ts → cmp.Derives ops → rhs.Derives .sum ts' →
    Derives ⟨lhs, some (cmp, rhs), connector⟩ (ts ++ (ops ++ ts'))

namespace Condition

inductive DerivesRest : Condition → List Token → Prop
  | nil : DerivesRest [] []
  | cons {t : Token} {k : Link} {rest : Condition} {ts ts' : List Token} :
    t.kind = k.connector.kind → k.Derives ts → DerivesRest rest ts' →
    DerivesRest (k :: rest) (t :: (ts ++ ts'))

inductive Derives : Condition → List Token → Prop
  | mk {first : Link} {rest : Condition} {ts ts' : List Token} : first.connector = .and →
    first.Derives ts → DerivesRest rest ts' → Derives (first :: rest) (ts ++ ts')

inductive DerivesParen : Condition → List Token → Prop
  | mk {o c : Token} {cond : Condition} {ts : List Token} : o.kind = .openParen → Derives cond ts →
    c.kind = .closeParen → DerivesParen cond (o :: (ts ++ [c]))

end Condition

/-- The items of a `print` with plus signs between them.  The newline that ends the last text is not
written, and where that text has nothing else it need not be written at all. -/
inductive PrintItem.DerivesLine : List PrintItem → List Token → Prop
  | last {t : Token} {text : String} : t.kind = .stringLit → t.literal = some text →
    DerivesLine [.str (text ++ "\n")] [t]
  | implied {value : Expr} {ts : List Token} : value.Derives .sum ts →
    DerivesLine [.expr value, .str "\n"] ts
  | text {t p : Token} {text : String} {items : List PrintItem} {ts : List Token} :
    t.kind = .stringLit → t.literal = some text → p.kind = .plus → DerivesLine items ts →
    DerivesLine (.str text :: items) (t :: p :: ts)
  | expr {p : Token} {value : Expr} {text : String} {items : List PrintItem} {ts ts' : List Token} :
    value.Derives .sum ts → p.kind = .plus → DerivesLine (.str text :: items) ts' →
    DerivesLine (.expr value :: .str text :: items) (ts ++ p :: ts')

namespace Stmt

/-- Assignments and calls, without the semicolon.  Without an amount, `+=` and `-=` go by 1. -/
inductive DerivesBare : Stmt → List Token → Prop
  | assign {n q : Token} {name : String} {value : Expr} {ts : List Token} : n.kind = .ident →
    n.literal = some name → q.kind = .eq → value.Derives .sum ts →
    DerivesBare (.assign name value n.line) (n :: q :: ts)
  | update {n t q : Token} {name : String} {op : BinOp} {amount : Expr} {ts : List Token} :
    n.kind = .ident → n.literal = some name → t.kind.binOp? = some op → op.precedence = 0 →
    q.kind = .eq → amount.Derives .sum ts →
    DerivesBare (.assign name (.bin op (.ident name n.line) amount) n.line) (n :: t :: q :: ts)
  | unit {n t q : Token} {name : String} {op : BinOp} :
    n.kind = .ident → n.literal = some name → t.kind.binOp? = some op → op.precedence = 0 →
    q.kind = .eq →
    DerivesBare (.assign name (.bin op (.ident name n.line) (.int 1)) n.line) [n, t, q]
  | call {f o c : Token} {name : String} {args : List Expr} {ts : List Token} : f.kind = .fnName →
    f.literal = some name → o.kind = .openParen → Expr.DerivesEach args ts → c.kind = .closeParen →
    DerivesBare (.call name args f.line) (f :: o :: (ts ++ [c]))

inductive DerivesParams : List String → List Token → Prop
  | nil : DerivesParams [] []
  | one {t : Token} {name : String} : t.kind = .ident → t.literal = some name →
    DerivesParams [name] [t]
  | more {t c : Token} {name name' : String} {names : List String} {ts : List Token} :
    t.kind = .ident → t.literal = some name → c.kind = .comma → DerivesParams (name' :: names) ts →
    DerivesParams (name :: name' :: names) (t :: c :: ts)

def isIf : Stmt → Bool
  | .ifElse .. => true
  | _ => false

/-- What a `for` may start with. -/
def isInit : Stmt → Bool
  | .letVar .. | .assign .. => true
  | _ => false

/-- What a `for` may do after its body. -/
def isStep : Stmt → Bool
  | .assign .. | .call .. => true
  | _ => false

end Stmt

mutual

/-- Whether a statement ends in an `if` or `else if` with no branch after it. -/
def Stmt.endsOpen : Stmt → Bool
  | .ifElse _ _ other => other.endsOpen
  | .whileLoop _ body => body.endsOpen
  | .forLoop _ _ _ body => body.endsOpen
  | .function _ _ body _ => body.endsOpen
  | _ => false

def ElseBranch.endsOpen : ElseBranch → Bool
  | .absent => true
  | .elseIf _ _ next => next.endsOpen
  | .otherwise body => body.endsOpen

end

mutual

/-- Statements, in a function or outside of all. -/
inductive Stmt.Derives : Bool → Stmt → List Token → Prop
  | exit {b : Bool} {k o c z : Token} {value : Option Expr} {ts : List Token} : k.kind = .kwExit →
    o.kind = .openParen → Expr.DerivesEach value.toList ts → c.kind = .closeParen → z.kind = .semi →
    Stmt.Derives b (.exit value) (k :: o :: (ts ++ [c, z]))
  | letVar {b : Bool} {k n q z : Token} {name : String} {value : Expr} {ts : List Token} :
    k.kind = .kwLet → n.kind = .ident → n.literal = some name → q.kind = .eq →
    value.Derives .sum ts → (∀ m ∈ value.mentions, m.1 ≠ name) → z.kind = .semi →
    Stmt.Derives b (.letVar name value n.line) (k :: n :: q :: (ts ++ [z]))
  | bare {b : Bool} {z : Token} {s : Stmt} {ts : List Token} : s.DerivesBare ts → z.kind = .semi →
    Stmt.Derives b s (ts ++ [z])
  | block {b : Bool} {o c : Token} {body : List Stmt} {ts : List Token} : o.kind = .openCurly →
    body ≠ [] → Stmt.DerivesEach b body ts → c.kind = .closeCurly →
    Stmt.Derives b (.block body) (o :: (ts ++ [c]))
  | newline {b : Bool} {k o c z : Token} : k.kind = .kwPrint → o.kind = .openParen →
    c.kind = .closeParen → z.kind = .semi → Stmt.Derives b (.print [.str "\n"]) [k, o, c, z]
  | print {b : Bool} {k o c z : Token} {items : List PrintItem} {ts : List Token} :
    k.kind = .kwPrint → o.kind = .openParen → PrintItem.DerivesLine items ts →
    c.kind = .closeParen → z.kind = .semi → Stmt.Derives b (.print items) (k :: o :: (ts ++ [c, z]))
  | ifElse {b : Bool} {k : Token} {cond : Condition} {body : Stmt} {other : ElseBranch}
    {ts ts' ts'' : List Token} : k.kind = .kwIf → Condition.DerivesParen cond ts →
    Stmt.Derives b body ts' → other.Derives b ts'' → (other.isAbsent ∨ ¬ body.endsOpen) →
    Stmt.Derives b (.ifElse cond body other) (k :: (ts ++ (ts' ++ ts'')))
  | whileLoop {b : Bool} {k : Token} {cond : Condition} {body : Stmt} {ts ts' : List Token} :
    k.kind = .kwWhile → Condition.DerivesParen cond ts → Stmt.Derives b body ts' →
    Stmt.Derives b (.whileLoop cond body) (k :: (ts ++ ts'))
  | forLoop {b : Bool} {k o z c : Token} {w : Option Token} {init step body : Stmt}
    {cond : Condition} {ts₁ ts₂ ts₃ ts₄ : List Token} : k.kind = .kwFor → o.kind = .openParen →
    init.isInit → Stmt.Derives b init ts₁ → Condition.Derives cond ts₂ → z.kind = .semi →
    step.DerivesBare ts₃ → (∀ t ∈ w, t.kind = .semi) → c.kind = .closeParen →
    Stmt.Derives b body ts₄ → Stmt.Derives b (.forLoop init cond step body)
      (k :: o :: (ts₁ ++ (ts₂ ++ z :: (ts₃ ++ (w.toList ++ c :: ts₄)))))
  | function {b : Bool} {k f o c : Token} {name : String} {params : List String} {body : Stmt}
    {ts ts' : List Token} : k.kind = .kwFn → f.kind = .fnName → f.literal = some name →
    o.kind = .openParen → Stmt.DerivesParams params ts → params.Nodup → c.kind = .closeParen →
    Stmt.Derives true body ts' →
    Stmt.Derives b (.function name params body f.line) (k :: f :: o :: (ts ++ c :: ts'))
  | ret {b : Bool} {k z : Token} {value : Option Expr} {ts : List Token} : k.kind = .kwReturn →
    Expr.DerivesEach value.toList ts → z.kind = .semi →
    Stmt.Derives b (.ret value b k.line) (k :: (ts ++ [z]))
  | breakLoop {b : Bool} {k z : Token} : k.kind = .kwBreak → z.kind = .semi →
    Stmt.Derives b (.breakLoop k.line) [k, z]
  | continueLoop {b : Bool} {k z : Token} : k.kind = .kwContinue → z.kind = .semi →
    Stmt.Derives b (.continueLoop k.line) [k, z]

inductive Stmt.DerivesEach : Bool → List Stmt → List Token → Prop
  | nil {b : Bool} : Stmt.DerivesEach b [] []
  | cons {b : Bool} {s : Stmt} {ss : List Stmt} {ts ts' : List Token} : s.Derives b ts →
    Stmt.DerivesEach b ss ts' → Stmt.DerivesEach b (s :: ss) (ts ++ ts')

inductive ElseBranch.Derives : Bool → ElseBranch → List Token → Prop
  | absent {b : Bool} : ElseBranch.Derives b .absent []
  | elseIf {b : Bool} {e k : Token} {cond : Condition} {body : Stmt} {next : ElseBranch}
    {ts ts' ts'' : List Token} : e.kind = .kwElse → k.kind = .kwIf →
    Condition.DerivesParen cond ts → body.Derives b ts' → ElseBranch.Derives b next ts'' →
    (next.isAbsent ∨ ¬ body.endsOpen) →
    ElseBranch.Derives b (.elseIf cond body next) (e :: k :: (ts ++ (ts' ++ ts'')))
  | otherwise {b : Bool} {e : Token} {body : Stmt} {ts : List Token} : e.kind = .kwElse →
    body.Derives b ts → ¬ body.isIf → ElseBranch.Derives b (.otherwise body) (e :: ts)

end

def Program.Derives (p : Program) (ts : List Token) : Prop := Stmt.DerivesEach false p ts

namespace Parse

section Conditions

/-- A token that may follow a condition, an assignment or a call. -/
def Closes (t : Token) : Prop := t.kind = .closeParen ∨ t.kind = .semi

/-- The kinds of token that may follow a link of a condition. -/
def endsLink : TokenKind → Bool
  | .closeParen | .semi | .and | .or => true
  | _ => false

theorem Closes.endsLink {t : Token} (h : Closes t) : endsLink t.kind := by
  rcases h with h | h <;> rw [h] <;> rfl

theorem stops_of_endsLink {t : Token} (h : endsLink t.kind) (rest : List Token) :
    Stops (t :: rest) := by
  apply stops_of_binOp?_eq_none
  cases hk : t.kind <;> first | rfl | simp [hk, endsLink] at h

theorem comparison?_of_endsLink {t : Token} (h : endsLink t.kind) (rest : List Token) :
    comparison? (t :: rest) = .ok none (t :: rest) := by
  rw [comparison?, peek_bind]
  simp only [List.head?_cons, Option.map_some]
  cases hk : t.kind <;> first | rfl | simp [hk, endsLink] at h

theorem comparison?_complete {cmp : Comparison} {ops rest : List Token} (h : cmp.Derives ops)
    (hr : rest.head?.map Token.kind ≠ some .eq) :
    comparison? (ops ++ rest) = .ok (some cmp) rest := by
  cases h with
  | eq ht hu =>
    rw [comparison?, List.cons_append, List.singleton_append, peek_bind]
    simp only [List.head?_cons, Option.map_some, ht]
    rw [bind_of_ok (expect_cons ht), bind_of_ok (accept_cons hu)]
    rfl
  | ge ht hu | le ht hu =>
    rw [comparison?, List.cons_append, List.singleton_append, peek_bind]
    simp only [List.head?_cons, Option.map_some, ht]
    rw [skip_bind, bind_of_ok (accept_cons hu)]
    rfl
  | lt ht | gt ht =>
    rw [comparison?, List.singleton_append, peek_bind]
    simp only [List.head?_cons, Option.map_some, ht]
    rw [skip_bind, bind_of_ok (accept_of_ne hr)]
    rfl

theorem Stops.comparison {cmp : Comparison} {ops : List Token} (h : cmp.Derives ops)
    (rest : List Token) : Stops (ops ++ rest) := by
  cases h with
  | eq ht _ | ge ht _ | le ht _ | lt ht | gt ht =>
    exact stops_of_binOp?_eq_none (by rw [ht]; rfl)

theorem head_of_derives {l : Expr.Level} {e : Expr} {ts : List Token} (h : e.Derives l ts)
    {kind : TokenKind} (hk : kind.startsTerm = false) (rest : List Token) :
    (ts ++ rest).head?.map Token.kind ≠ some kind := by
  obtain ⟨t, ts, rfl, ht⟩ := derives_head h
  simpa using TokenKind.startsTerm_ne ht hk

theorem map_expr_complete {α : Type} (f : Expr → α) {e : Expr} {ts rest : List Token}
    (h : e.Derives .sum ts) (hs : Stops rest) : (f <$> expr) (ts ++ rest) = .ok (f e) rest := by
  rw [map_eq_pure_bind, bind_of_ok (expr_complete h hs)]
  rfl

theorem link_complete {k : Link} {used : List Token} (h : k.Derives used) {t : Token}
    (ht : endsLink t.kind) (rest : List Token) :
    link k.connector (used ++ t :: rest) = .ok k (t :: rest) := by
  have hs := stops_of_endsLink ht rest
  cases h with
  | truth h =>
    rw [link, bind_of_ok (expr_complete h hs), bind_of_ok (comparison?_of_endsLink ht rest)]
    rfl
  | compare h ho h' =>
    rw [link, List.append_assoc, List.append_assoc,
      bind_of_ok (expr_complete h (.comparison ho _)),
      bind_of_ok (comparison?_complete ho (head_of_derives h' rfl _))]
    dsimp only
    rw [bind_of_ok (expr_complete h' hs)]
    rfl

/-- After a link comes the next connector, or else what follows the condition. -/
theorem links_next {more : Condition} {used : List Token}
    (h : Condition.DerivesRest more used) {t : Token} (ht : Closes t) (rest : List Token) :
    ∃ v vs, used ++ t :: rest = v :: vs ∧ endsLink v.kind := by
  cases h with
  | nil => exact ⟨t, rest, rfl, ht.endsLink⟩
  | @cons w k _ _ _ hw _ _ =>
    refine ⟨w, _, rfl, ?_⟩
    rw [hw]
    cases k.connector <;> rfl

theorem links_complete {more : Condition} {used : List Token}
    (h : Condition.DerivesRest more used) {t : Token} (ht : Closes t) (rest : List Token) :
    ∀ {n : Nat}, used.length ≤ n → links n (used ++ t :: rest) = .ok more (t :: rest) := by
  induction h with
  | nil =>
    intro n _
    cases n with
    | zero => rfl
    | succ n =>
      have ha : t.kind ≠ .and := by rcases ht with ht | ht <;> simp [ht]
      have ho : t.kind ≠ .or := by rcases ht with ht | ht <;> simp [ht]
      rw [links, List.nil_append, bind_of_ok (accept_of_ne (by simpa using ha))]
      simp only [Bool.false_eq_true, if_false]
      rw [bind_of_ok (accept_of_ne (by simpa using ho))]
      rfl
  | @cons u k _ ts ts' hu hk hr ih =>
    intro n hn
    simp only [List.length_cons, List.length_append] at hn
    obtain ⟨n, rfl⟩ : ∃ m, n = m + 1 := ⟨n - 1, by omega⟩
    obtain ⟨v, vs, hv, hl⟩ := links_next hr ht rest
    have hl := link_complete hk hl vs
    rw [← hv] at hl
    rw [links, List.cons_append, List.append_assoc]
    cases hc : k.connector with
    | and =>
      have hu : u.kind = .and := by rw [hu, hc]; rfl
      rw [hc] at hl
      rw [bind_of_ok (accept_cons hu)]
      simp only [if_true]
      rw [bind_of_ok hl, bind_of_ok (ih (by omega))]
      rfl
    | or =>
      have hu : u.kind = .or := by rw [hu, hc]; rfl
      rw [hc] at hl
      rw [bind_of_ok (accept_of_ne (by simp [hu]))]
      simp only [Bool.false_eq_true, if_false]
      rw [bind_of_ok (accept_cons hu)]
      simp only [if_true]
      rw [bind_of_ok hl, bind_of_ok (ih (by omega))]
      rfl

theorem condition_complete {cond : Condition} {used : List Token}
    (h : Condition.Derives cond used) {t : Token} (ht : Closes t) (rest : List Token) :
    condition (used ++ t :: rest) = .ok cond (t :: rest) := by
  obtain @⟨first, more, ts, ts', hc, hf, hr⟩ := h
  obtain ⟨v, vs, hv, hl⟩ := links_next hr ht rest
  have hf := link_complete hf hl vs
  rw [hc, ← hv] at hf
  rw [condition, List.append_assoc, bind_of_ok hf, remaining_bind,
    bind_of_ok (links_complete hr ht rest (by simp))]
  rfl

theorem parenCondition_complete {cond : Condition} {used : List Token}
    (h : Condition.DerivesParen cond used) (rest : List Token) :
    parenCondition (used ++ rest) = .ok cond rest := by
  obtain @⟨o, c, _, ts, ho, h, hc⟩ := h
  rw [parenCondition, List.cons_append, List.append_assoc, List.singleton_append,
    bind_of_ok (expect_cons ho), bind_of_ok (condition_complete h (.inl hc) rest),
    bind_of_ok (expect_cons hc)]
  rfl

end Conditions

section Print

theorem printItem_text {t : Token} {text : String} (hk : t.kind = .stringLit)
    (hl : t.literal = some text) (rest : List Token) :
    printItem (t :: rest) = .ok (.str text) rest := by
  obtain ⟨kind, literal, line⟩ := t
  dsimp only at hk hl
  rw [hk, hl]
  rfl

theorem printItem_of_ne {ts : List Token} (h : ts.head?.map Token.kind ≠ some .stringLit) :
    printItem ts = (PrintItem.expr <$> expr) ts := by
  rcases ts with _ | ⟨⟨kind, literal, line⟩, ts⟩
  · rfl
  · cases kind <;> first | rfl | simp at h

theorem printItem_expr {value : Expr} {ts rest : List Token} (h : value.Derives .sum ts)
    (hs : Stops rest) : printItem (ts ++ rest) = .ok (.expr value) rest := by
  rw [printItem_of_ne (head_of_derives h rfl rest)]
  exact map_expr_complete PrintItem.expr h hs

theorem printItems_end {c : Token} (hc : c.kind = .closeParen) (rest : List Token) (n : Nat) :
    printItems n (c :: rest) = .ok [] (c :: rest) := by
  cases n with
  | zero => rfl
  | succ n =>
    rw [printItems, bind_of_ok (accept_of_ne (by simp [hc]))]
    rfl

/-- The items that are read lack the newline at the end. -/
theorem printItems_complete {items : List PrintItem} {used : List Token}
    (h : PrintItem.DerivesLine items used) {c : Token} (hc : c.kind = .closeParen)
    (rest : List Token) :
    ∃ first mid more, printItem (used ++ c :: rest) = .ok first mid ∧
      mid.length ≤ (used ++ c :: rest).length ∧
      (∀ n, mid.length ≤ n → printItems n mid = .ok more (c :: rest)) ∧
      endLine (first :: more) = items := by
  have hs : Stops (c :: rest) := stops_of_binOp?_eq_none (by rw [hc]; rfl)
  have step {p : Token} {ts : List Token} (hp : p.kind = .plus) {first mid more}
      (h₁ : printItem (ts ++ c :: rest) = .ok first mid)
      (hm : mid.length ≤ (ts ++ c :: rest).length)
      (h₂ : ∀ n, mid.length ≤ n → printItems n mid = .ok more (c :: rest)) (n : Nat)
      (hn : (p :: (ts ++ c :: rest)).length ≤ n) :
      printItems n (p :: (ts ++ c :: rest)) = .ok (first :: more) (c :: rest) := by
    rw [List.length_cons] at hn
    obtain ⟨n, rfl⟩ : ∃ m, n = m + 1 := ⟨n - 1, by omega⟩
    rw [printItems, bind_of_ok (accept_cons hp)]
    simp only [if_true]
    rw [bind_of_ok h₁, bind_of_ok (h₂ n (by omega))]
    rfl
  induction h with
  | last hk hl =>
    exact ⟨_, _, [], printItem_text hk hl _, by simp, fun n _ => printItems_end hc rest n, rfl⟩
  | implied h =>
    exact ⟨_, _, [], printItem_expr h hs, by simp, fun n _ => printItems_end hc rest n, rfl⟩
  | text hk hl hp _ ih =>
    obtain ⟨first, mid, more, h₁, hm, h₂, he⟩ := ih
    exact ⟨_, _, first :: more, printItem_text hk hl _, by simp, step hp h₁ hm h₂,
      congrArg _ he⟩
  | @expr p value text items ts ts' h hp hd ih =>
    obtain ⟨first, mid, more, h₁, hm, h₂, he⟩ := ih
    have hs : Stops (p :: (ts' ++ c :: rest)) := by
      rintro _ _ he -
      obtain ⟨rfl, rfl⟩ := List.cons.inj he
      cases hd with
      | last hk _ | text hk _ _ _ => simp [hk]
    rw [List.append_assoc, List.cons_append]
    exact ⟨_, _, first :: more, printItem_expr h hs, by simp, step hp h₁ hm h₂, congrArg _ he⟩

theorem printStmt_newline {k o c z : Token} (hk : k.kind = .kwPrint) (ho : o.kind = .openParen)
    (hc : c.kind = .closeParen) (hz : z.kind = .semi) (rest : List Token) :
    printStmt (k :: o :: c :: z :: rest) = .ok (.print [.str "\n"]) rest := by
  rw [printStmt, bind_of_ok (expect_cons hk), bind_of_ok (expect_cons ho), peek_bind]
  simp only [List.head?_cons, Option.map_some, hc, if_true]
  rw [pure_bind, bind_of_ok (expect_cons hc), bind_of_ok (expect_cons hz)]
  rfl

theorem PrintItem.DerivesLine.head {items : List PrintItem} {used : List Token}
    (h : PrintItem.DerivesLine items used) (rest : List Token) :
    (used ++ rest).head?.map Token.kind ≠ some .closeParen := by
  cases h with
  | last hk _ | text hk _ _ _ => simp [hk]
  | implied h => exact head_of_derives h rfl rest
  | expr h _ _ =>
    rw [List.append_assoc]
    exact head_of_derives h rfl _

theorem printStmt_complete {k o c z : Token} {items : List PrintItem} {ts : List Token}
    (hk : k.kind = .kwPrint) (ho : o.kind = .openParen) (h : PrintItem.DerivesLine items ts)
    (hc : c.kind = .closeParen) (hz : z.kind = .semi) (rest : List Token) :
    printStmt (k :: o :: (ts ++ c :: z :: rest)) = .ok (.print items) rest := by
  obtain ⟨first, mid, more, h₁, hm, h₂, rfl⟩ := printItems_complete h hc (z :: rest)
  rw [printStmt, bind_of_ok (expect_cons hk), bind_of_ok (expect_cons ho), peek_bind,
    if_neg (PrintItem.DerivesLine.head h _), bind_of_ok h₁, remaining_bind,
    bind_of_ok (h₂ _ le_rfl), pure_bind]
  dsimp only
  rw [bind_of_ok (expect_cons hc), bind_of_ok (expect_cons hz)]
  rfl

end Print

section Bare

theorem amount_complete {value : Expr} {ts : List Token} (h : value.Derives .sum ts) {t : Token}
    (ht : Closes t) (rest : List Token) : amount (ts ++ t :: rest) = .ok value (t :: rest) := by
  have he := expr_complete h (stops_of_endsLink ht.endsLink rest)
  obtain ⟨u, us, rfl, hu⟩ := derives_head h
  rw [amount, peek_bind]
  simp only [List.cons_append, List.head?_cons, Option.map_some]
  rw [List.cons_append] at he
  cases hk : u.kind <;> simp only [hk, TokenKind.startsTerm, Bool.false_eq_true] at hu <;> exact he

theorem amount_unit {t : Token} (ht : Closes t) (rest : List Token) :
    amount (t :: rest) = .ok (.int 1) (t :: rest) := by
  rw [amount, peek_bind]
  rcases ht with ht | ht <;> simp only [List.head?_cons, Option.map_some, ht] <;> rfl

theorem update_complete (op : BinOp) (name : String) (line : Nat) {t q : Token} {value : Expr}
    {ts rest : List Token} (h : amount ts = .ok value rest) : update op name line (t :: q :: ts) =
      .ok (.assign name (.bin op (.ident name line) value) line) rest := by
  rw [update, skip_bind, skip_bind, bind_of_ok h]
  rfl

theorem assignment_update {n t q : Token} {name : String} {op : BinOp} {value : Expr}
    {ts rest : List Token} (hn : n.kind = .ident) (hl : n.literal = some name)
    (ht : t.kind.binOp? = some op) (hp : op.precedence = 0) (hq : q.kind = .eq)
    (h : amount ts = .ok value rest) : assignment (n :: t :: q :: ts) =
      .ok (.assign name (.bin op (.ident name n.line) value) n.line) rest := by
  rw [assignment, peek_bind]
  simp only [List.head?_cons, Option.map_some, hn]
  rw [if_neg (by simp), bind_of_ok (expectText_cons hn hl)]
  dsimp only
  rw [remaining_bind]
  simp only [List.map_cons, hq]
  cases hk : t.kind <;> simp only [hk, TokenKind.binOp?, reduceCtorEq, Option.some.injEq] at ht <;>
    subst ht
  case plus => exact update_complete .add name n.line h
  case minus => exact update_complete .sub name n.line h
  all_goals simp [BinOp.precedence] at hp

theorem assignment_complete {s : Stmt} {used : List Token} (h : s.DerivesBare used) {t : Token}
    (ht : Closes t) (rest : List Token) : assignment (used ++ t :: rest) = .ok s (t :: rest) := by
  cases h with
  | assign hn hl hq h =>
    rw [assignment, List.cons_append, List.cons_append, peek_bind]
    simp only [List.head?_cons, Option.map_some, hn]
    rw [if_neg (by simp), bind_of_ok (expectText_cons hn hl)]
    dsimp only
    rw [remaining_bind]
    simp only [List.map_cons, hq]
    rw [skip_bind, bind_of_ok (expr_complete h (stops_of_endsLink ht.endsLink rest))]
    rfl
  | update hn hl ho hp hq h => exact assignment_update hn hl ho hp hq (amount_complete h ht rest)
  | unit hn hl ho hp hq => exact assignment_update hn hl ho hp hq (amount_unit ht rest)
  | @call f o c name args ts hf hl ho h hc =>
    have he : Complete ts.length (Expr.Derives .sum) Stops expr :=
      fun _ _ _ hd _ hs => expr_complete hd hs
    rw [assignment, List.cons_append, List.cons_append, List.append_assoc, List.singleton_append,
      peek_bind]
    simp only [List.head?_cons, Option.map_some, hf, if_true]
    rw [bind_of_ok (expectText_cons hf hl), bind_of_ok (arguments_complete he ho hc h le_rfl)]
    rfl

theorem assignmentStmt_complete {s : Stmt} {used : List Token} (h : s.DerivesBare used) {z : Token}
    (hz : z.kind = .semi) (rest : List Token) :
    assignmentStmt (used ++ z :: rest) = .ok s rest := by
  rw [assignmentStmt, bind_of_ok (assignment_complete h (.inr hz) rest),
    bind_of_ok (expect_cons hz)]
  rfl

end Bare

section Params

theorem paramsMore_complete (function : String) {c : Token} (hc : c.kind = .closeParen)
    (rest : List Token) {names : List String} {used : List Token}
    (h : Stmt.DerivesParams names used) :
    names ≠ [] → names.Nodup → ∀ {n : Nat} {seen : List String}, used.length ≤ n →
      (∀ name ∈ names, name ∉ seen) →
      paramsMore function n seen (used ++ c :: rest) = .ok names rest := by
  induction h with
  | nil => exact fun hne => absurd rfl hne
  | @one t name ht hl =>
    intro _ _ n seen hn hs
    obtain ⟨n, rfl⟩ : ∃ m, n = m + 1 := ⟨n - 1, by simp at hn; omega⟩
    rw [paramsMore, List.singleton_append, bind_of_ok (expectText_cons ht hl)]
    dsimp only
    rw [if_neg (hs name (by simp)), bind_of_ok (accept_cons hc)]
    rfl
  | @more t m name name' names ts ht hl hm _ ih =>
    intro _ hd n seen hn hs
    simp only [List.length_cons] at hn
    obtain ⟨n, rfl⟩ : ∃ m, n = m + 1 := ⟨n - 1, by omega⟩
    obtain ⟨hd, hds⟩ := List.nodup_cons.1 hd
    have hs' : ∀ x ∈ name' :: names, x ∉ name :: seen := by
      intro x hx hx'
      rcases List.mem_cons.1 hx' with rfl | hx'
      · exact hd hx
      · exact hs x (List.mem_cons_of_mem _ hx) hx'
    have hr := ih (by simp) hds (by omega : ts.length ≤ n) hs'
    rw [paramsMore, List.cons_append, List.cons_append, bind_of_ok (expectText_cons ht hl)]
    dsimp only
    rw [if_neg (hs name (by simp)), bind_of_ok (accept_of_ne (by simp [hm]))]
    simp only [Bool.false_eq_true, if_false]
    rw [bind_of_ok (expect_cons hm), bind_of_ok hr]
    rfl

theorem params_complete (function : String) {o c : Token} (ho : o.kind = .openParen)
    (hc : c.kind = .closeParen) {names : List String} {used : List Token}
    (h : Stmt.DerivesParams names used) (hd : names.Nodup) (rest : List Token) :
    params function (o :: (used ++ c :: rest)) = .ok names rest := by
  rw [params, bind_of_ok (expect_cons ho)]
  cases h with
  | nil => exact bind_of_ok (accept_cons hc)
  | one ht hl =>
    rw [List.singleton_append, bind_of_ok (accept_of_ne (by simp [ht]))]
    simp only [Bool.false_eq_true, if_false]
    rw [remaining_bind]
    exact paramsMore_complete function hc rest (.one ht hl) (by simp) hd (by simp) (by simp)
  | more ht hl hm h =>
    rw [List.cons_append, bind_of_ok (accept_of_ne (by simp [ht]))]
    simp only [Bool.false_eq_true, if_false]
    rw [remaining_bind]
    exact paramsMore_complete function hc rest (.more ht hl hm h) (by simp) hd (by simp) (by simp)

end Params

section Simple

variable {k o c n q z : Token} {ts : List Token} (rest : List Token)

theorem exitStmt_complete {value : Option Expr} (hk : k.kind = .kwExit) (ho : o.kind = .openParen)
    (h : Expr.DerivesEach value.toList ts) (hc : c.kind = .closeParen) (hz : z.kind = .semi) :
    exitStmt (k :: o :: (ts ++ c :: z :: rest)) = .ok (.exit value) rest := by
  rw [exitStmt, bind_of_ok (expect_cons hk), bind_of_ok (expect_cons ho), peek_bind]
  cases value with
  | none =>
    cases h
    simp only [List.nil_append, List.head?_cons, Option.map_some, hc, if_true]
    rw [pure_bind, bind_of_ok (expect_cons hc), bind_of_ok (expect_cons hz)]
    rfl
  | some e =>
    cases h with
    | one h =>
      have hs : Stops (c :: z :: rest) := stops_of_endsLink (by rw [hc]; rfl) _
      rw [if_neg (head_of_derives h rfl _), bind_of_ok (map_expr_complete some h hs)]
      dsimp only
      rw [bind_of_ok (expect_cons hc), bind_of_ok (expect_cons hz)]
      rfl

theorem returnStmt_complete {value : Option Expr} (b : Bool) (hk : k.kind = .kwReturn)
    (h : Expr.DerivesEach value.toList ts) (hz : z.kind = .semi) :
    returnStmt b (k :: (ts ++ z :: rest)) = .ok (.ret value b k.line) rest := by
  rw [returnStmt, bind_of_ok (expect_cons hk), peek_bind]
  cases value with
  | none =>
    cases h
    simp only [List.nil_append, List.head?_cons, Option.map_some, hz, if_true]
    rw [pure_bind, bind_of_ok (expect_cons hz)]
    rfl
  | some e =>
    cases h with
    | one h =>
      have hs : Stops (z :: rest) := stops_of_endsLink (by rw [hz]; rfl) _
      rw [if_neg (head_of_derives h rfl _), bind_of_ok (map_expr_complete some h hs)]
      dsimp only
      rw [bind_of_ok (expect_cons hz)]
      rfl

theorem letStmt_complete {name : String} {value : Expr} (hk : k.kind = .kwLet)
    (hn : n.kind = .ident) (hl : n.literal = some name) (hq : q.kind = .eq)
    (h : value.Derives .sum ts) (hm : ∀ m ∈ value.mentions, m.1 ≠ name) (hz : z.kind = .semi) :
    letStmt (k :: n :: q :: (ts ++ z :: rest)) = .ok (.letVar name value n.line) rest := by
  have hs : Stops (z :: rest) := stops_of_endsLink (by rw [hz]; rfl) _
  have hf : (value.mentions.find? fun m => m.1 == name) = none :=
    List.find?_eq_none.2 fun m hv => by simpa using hm m hv
  rw [letStmt, bind_of_ok (expect_cons hk), bind_of_ok (expectText_cons hn hl)]
  dsimp only
  rw [bind_of_ok (expect_cons hq), bind_of_ok (expr_complete h hs), bind_of_ok (expect_cons hz), hf]
  rfl

theorem breakStmt_complete (hk : k.kind = .kwBreak) (hz : z.kind = .semi) :
    breakStmt (k :: z :: rest) = .ok (.breakLoop k.line) rest := by
  rw [breakStmt, bind_of_ok (expect_cons hk), bind_of_ok (expect_cons hz)]
  rfl

theorem continueStmt_complete (hk : k.kind = .kwContinue) (hz : z.kind = .semi) :
    continueStmt (k :: z :: rest) = .ok (.continueLoop k.line) rest := by
  rw [continueStmt, bind_of_ok (expect_cons hk), bind_of_ok (expect_cons hz)]
  rfl

end Simple

section Nested

/-- The kinds of token that a statement starts with. -/
def startsStmt : TokenKind → Bool
  | .kwExit | .kwLet | .openCurly | .kwPrint | .kwIf | .kwWhile | .kwFor | .kwFn | .kwReturn
  | .kwBreak | .kwContinue | .ident | .fnName => true
  | _ => false

theorem stmt_head {b : Bool} {s : Stmt} {ts : List Token} (h : s.Derives b ts) :
    ∃ t rest, ts = t :: rest ∧ startsStmt t.kind := by
  cases h with
  | exit hk | letVar hk | block hk | newline hk | print hk | ifElse hk | whileLoop hk | forLoop hk
  | function hk | ret hk | breakLoop hk | continueLoop hk => exact ⟨_, _, rfl, by rw [hk]; rfl⟩
  | bare h =>
    cases h with
    | assign hk | update hk | unit hk | call hk => exact ⟨_, _, rfl, by rw [hk]; rfl⟩

/-- No `else` is next. -/
def NoElse (ts : List Token) : Prop := ts.head?.map Token.kind ≠ some .kwElse

/-- A production for statements reads those of up to `n` tokens as they are derived.  One that ends
in an `if` with no `else` is read so where no `else` is next. -/
def ReadsStmt (n : Nat) (b : Bool) (stmt : Parse Stmt) : Prop :=
  ∀ s ts rest, Stmt.Derives b s ts → ts.length ≤ n → (s.endsOpen → NoElse rest) →
    stmt (ts ++ rest) = .ok s rest

theorem stmt_head_ne {b : Bool} {s : Stmt} {ts : List Token} (h : s.Derives b ts) {kind : TokenKind}
    (hk : startsStmt kind = false) (rest : List Token) :
    (ts ++ rest).head?.map Token.kind ≠ some kind := by
  obtain ⟨t, ts, rfl, ht⟩ := stmt_head h
  simp only [List.cons_append, List.head?_cons, Option.map_some, ne_eq, Option.some.injEq]
  rintro rfl
  simp [ht] at hk

theorem stmt_head_ne_if {b : Bool} {s : Stmt} {ts : List Token} (h : s.Derives b ts) (hi : ¬ s.isIf)
    (rest : List Token) : (ts ++ rest).head?.map Token.kind ≠ some .kwIf := by
  cases h with
  | exit hk | letVar hk | block hk | newline hk | print hk | whileLoop hk | forLoop hk | function hk
  | ret hk | breakLoop hk | continueLoop hk => simp [hk]
  | bare h =>
    cases h with
    | assign hk | update hk | unit hk | call hk => simp [hk]
  | ifElse => exact absurd rfl hi

theorem blockRest_cons {stmt : Parse Stmt} {t : Token} (h : t.kind ≠ .closeCurly) (m : Nat)
    (ts : List Token) : blockRest stmt (m + 1) (t :: ts) =
      (stmt >>= fun s => blockRest stmt m >>= fun ss => pure (s :: ss)) (t :: ts) := by
  rw [blockRest, peek_bind]
  simp only [List.head?_cons, Option.map_some]

/-- After the body of an `if` that ends open there is no `else`: the `if` has none itself. -/
theorem noElse_of_other {b : Bool} {body : Stmt} {other : ElseBranch} {ts rest : List Token}
    (h : other.Derives b ts) (ho : other.isAbsent ∨ ¬ body.endsOpen)
    (hr : other.endsOpen → NoElse rest) (hb : body.endsOpen) : NoElse (ts ++ rest) := by
  cases h with
  | absent => exact hr rfl
  | elseIf | otherwise => exact (ho.resolve_left (by simp [ElseBranch.isAbsent]) hb).elim

variable {n : Nat} {b : Bool} {stmt : Parse Stmt} (hp : ReadsStmt n b stmt)

include hp

theorem blockRest_complete {c : Token} (hc : c.kind = .closeCurly) (rest : List Token) :
    ∀ {body : List Stmt} {ts : List Token} {m : Nat}, Stmt.DerivesEach b body ts → ts.length ≤ n →
      ts.length < m → blockRest stmt m (ts ++ c :: rest) = .ok body rest
  | _, _, m, .nil, _, hm => by
    obtain ⟨m, rfl⟩ : ∃ k, m = k + 1 := ⟨m - 1, by omega⟩
    rw [blockRest, List.nil_append, peek_bind]
    simp only [List.head?_cons, Option.map_some, hc]
    rfl
  | _, _, m, @Stmt.DerivesEach.cons _ s ss ts ts' h hs, hn, hm => by
    obtain ⟨m, rfl⟩ : ∃ k, m = k + 1 := ⟨m - 1, by omega⟩
    rw [List.length_append] at hn hm
    have ha : NoElse (ts' ++ c :: rest) := by
      cases hs with
      | nil => simp [NoElse, hc]
      | cons h' _ =>
        rw [List.append_assoc]
        exact stmt_head_ne h' rfl _
    have hr := hp s ts (ts' ++ c :: rest) h (by omega) fun _ => ha
    obtain ⟨t, ts, rfl, ht⟩ := stmt_head h
    rw [List.length_cons] at hm
    have hi := blockRest_complete hc rest hs (by omega) (by omega : ts'.length < m)
    rw [List.cons_append] at hr
    have hne : t.kind ≠ .closeCurly := fun hk => by simp [hk, startsStmt] at ht
    rw [List.append_assoc, List.cons_append, blockRest_cons hne, bind_of_ok hr, bind_of_ok hi]
    rfl

theorem block_complete {o c : Token} {body : List Stmt} {ts : List Token} (ho : o.kind = .openCurly)
    (hne : body ≠ []) (h : Stmt.DerivesEach b body ts) (hn : ts.length ≤ n)
    (hc : c.kind = .closeCurly) (rest : List Token) :
      block stmt (o :: (ts ++ c :: rest)) = .ok (.block body) rest := by
  have hh : (ts ++ c :: rest).head?.map Token.kind ≠ some .closeCurly := by
    cases h with
    | nil => exact absurd rfl hne
    | cons h _ =>
      rw [List.append_assoc]
      exact stmt_head_ne h rfl _
  rw [block, bind_of_ok (expect_cons ho), peek_bind, if_neg hh, remaining_bind,
    bind_of_ok (blockRest_complete hp hc rest h hn (by simp))]
  rfl

theorem elseBranch_complete (rest : List Token) :
    ∀ {other : ElseBranch} {ts : List Token} {m : Nat}, other.Derives b ts → ts.length ≤ n →
      ts.length ≤ m → (other.endsOpen → NoElse rest) →
    elseBranch stmt m (ts ++ rest) = .ok other rest
  | _, _, 0, .absent, _, _, _ => rfl
  | _, _, m + 1, .absent, _, _, hr => by
    rw [elseBranch, List.nil_append, bind_of_ok (accept_of_ne (hr rfl))]
    rfl
  | _, _, m, @ElseBranch.Derives.elseIf _ _ _ _ body _ _ ts' ts'' he hk hc hb h ho, hn, hm, hr => by
    obtain ⟨m, rfl⟩ : ∃ k, m = k + 1 := ⟨m - 1, by simp at hm; omega⟩
    simp only [List.length_cons, List.length_append] at hn hm
    have hi := elseBranch_complete rest h (by omega) (by omega : ts''.length ≤ m) hr
    have hb := hp body ts' (ts'' ++ rest) hb (by omega) (noElse_of_other h ho hr)
    rw [elseBranch, List.cons_append, List.cons_append, List.append_assoc, List.append_assoc,
      bind_of_ok (accept_cons he)]
    simp only [if_true]
    rw [bind_of_ok (accept_cons hk)]
    simp only [if_true]
    rw [bind_of_ok (parenCondition_complete hc _), bind_of_ok hb, bind_of_ok hi]
    rfl
  | _, _, m, @ElseBranch.Derives.otherwise _ e body ts he h hi, hn, hm, hr => by
    obtain ⟨m, rfl⟩ : ∃ k, m = k + 1 := ⟨m - 1, by simp at hm; omega⟩
    simp only [List.length_cons] at hn
    rw [elseBranch, List.cons_append, bind_of_ok (accept_cons he)]
    simp only [if_true]
    rw [bind_of_ok (accept_of_ne (stmt_head_ne_if h hi rest))]
    simp only [Bool.false_eq_true, if_false]
    rw [bind_of_ok (hp body ts rest h (by omega) hr)]
    rfl

theorem ifStmt_complete {k : Token} {cond : Condition} {body : Stmt} {other : ElseBranch}
    {ts ts' ts'' rest : List Token} (hk : k.kind = .kwIf) (hc : Condition.DerivesParen cond ts)
    (hb : body.Derives b ts') (h : other.Derives b ts'') (ho : other.isAbsent ∨ ¬ body.endsOpen)
    (hn : ts'.length + ts''.length ≤ n) (hr : other.endsOpen → NoElse rest) :
    ifStmt stmt (k :: (ts ++ (ts' ++ (ts'' ++ rest)))) = .ok (.ifElse cond body other) rest := by
  have hb := hp body ts' (ts'' ++ rest) hb (by omega) (noElse_of_other h ho hr)
  rw [ifStmt, bind_of_ok (expect_cons hk), bind_of_ok (parenCondition_complete hc _), bind_of_ok hb,
    remaining_bind, bind_of_ok (elseBranch_complete hp rest h (by omega) (by simp) hr)]
  rfl

theorem whileStmt_complete {k : Token} {cond : Condition} {body : Stmt} {ts ts' rest : List Token}
    (hk : k.kind = .kwWhile) (hc : Condition.DerivesParen cond ts) (hb : body.Derives b ts')
    (hn : ts'.length ≤ n) (hr : body.endsOpen → NoElse rest) :
    whileStmt stmt (k :: (ts ++ (ts' ++ rest))) = .ok (.whileLoop cond body) rest := by
  rw [whileStmt, bind_of_ok (expect_cons hk), bind_of_ok (parenCondition_complete hc _),
    bind_of_ok (hp body ts' rest hb hn hr)]
  rfl

theorem functionStmt_complete {k f o c : Token} {name : String} {params : List String} {body : Stmt}
    {ts ts' rest : List Token} (hk : k.kind = .kwFn) (hf : f.kind = .fnName)
    (hl : f.literal = some name) (ho : o.kind = .openParen) (h : Stmt.DerivesParams params ts)
    (hd : params.Nodup) (hc : c.kind = .closeParen) (hb : body.Derives b ts') (hn : ts'.length ≤ n)
    (hr : body.endsOpen → NoElse rest) :
    functionStmt stmt (k :: f :: o :: (ts ++ c :: (ts' ++ rest))) =
      .ok (.function name params body f.line) rest := by
  rw [functionStmt, bind_of_ok (expect_cons hk), bind_of_ok (expectText_cons hf hl)]
  dsimp only
  rw [bind_of_ok (params_complete name ho hc h hd _), bind_of_ok (hp body ts' rest hb hn hr)]
  rfl

omit hp in
theorem forInit_complete {init : Stmt} {ts : List Token} (hi : init.isInit) (h : init.Derives b ts)
    (rest : List Token) : forInit (ts ++ rest) = .ok init rest := by
  cases h with
  | letVar hk hn hl hq h hm hz =>
    rw [forInit, List.cons_append, List.cons_append, List.cons_append, List.append_assoc,
      List.singleton_append, peek_bind]
    simp only [List.head?_cons, Option.map_some, hk]
    exact letStmt_complete rest hk hn hl hq h hm hz
  | bare h hz =>
    have ha := assignmentStmt_complete h hz rest
    rw [List.append_assoc, List.singleton_append, forInit, peek_bind]
    cases h with
    | assign hn | update hn | unit hn =>
      simp only [List.cons_append, List.head?_cons, Option.map_some, hn]
      exact ha
    | call => simp [Stmt.isInit] at hi
  | _ => simp [Stmt.isInit] at hi

theorem forStmt_complete {k o z c : Token} {w : Option Token} {init step body : Stmt}
    {cond : Condition} {ts₁ ts₂ ts₃ ts₄ rest : List Token} (hk : k.kind = .kwFor)
    (ho : o.kind = .openParen) (hi : init.isInit) (h₁ : init.Derives b ts₁)
    (h₂ : Condition.Derives cond ts₂) (hz : z.kind = .semi) (h₃ : step.DerivesBare ts₃)
    (hw : ∀ t ∈ w, t.kind = .semi) (hc : c.kind = .closeParen) (h₄ : body.Derives b ts₄)
    (hn : ts₄.length ≤ n) (hr : body.endsOpen → NoElse rest) :
    forStmt stmt (k :: o :: (ts₁ ++ (ts₂ ++ z :: (ts₃ ++ (w.toList ++ c :: (ts₄ ++ rest)))))) =
      .ok (.forLoop init cond step body) rest := by
  have hb := hp body ts₄ rest h₄ hn hr
  rw [forStmt, bind_of_ok (expect_cons hk), bind_of_ok (expect_cons ho),
    bind_of_ok (forInit_complete hi h₁ _), bind_of_ok (condition_complete h₂ (.inr hz) _),
    bind_of_ok (expect_cons hz)]
  cases w with
  | none =>
    rw [Option.toList_none, List.nil_append, bind_of_ok (assignment_complete h₃ (.inl hc) _),
      bind_of_ok (accept_of_ne (by simp [hc])), bind_of_ok (expect_cons hc), bind_of_ok hb]
    rfl
  | some w =>
    have hw : w.kind = .semi := hw w rfl
    rw [Option.toList_some, List.singleton_append, bind_of_ok (assignment_complete h₃ (.inr hw) _),
      bind_of_ok (accept_cons hw), bind_of_ok (expect_cons hc), bind_of_ok hb]
    rfl

end Nested

/-- Statements are read as the grammar derives them.  The induction is on the bound: what is
inside a statement has fewer tokens than the statement. -/
theorem stmtWithin_complete (n : Nat) : ∀ b, ReadsStmt n b (stmtWithin n b) := by
  induction n with
  | zero =>
    intro b s ts rest h hn
    obtain ⟨t, ts, rfl, -⟩ := stmt_head h
    simp at hn
  | succ n ih =>
    intro b s ts rest h hn hr
    rw [stmtWithin, peek_bind]
    cases h with
    | exit hk ho h hc hz => simpa [hk] using exitStmt_complete rest hk ho h hc hz
    | letVar hk hi hl hq h hm hz => simpa [hk] using letStmt_complete rest hk hi hl hq h hm hz
    | bare h hz =>
      have ha := assignmentStmt_complete h hz rest
      cases h with
      | assign hk | update hk | unit hk | call hk => simpa [hk] using ha
    | block ho hne h hc =>
      simp only [List.length_cons, List.length_append, List.length_nil] at hn
      simpa [ho] using block_complete (ih b) ho hne h (by omega) hc rest
    | newline hk ho hc hz => simpa [hk] using printStmt_newline hk ho hc hz rest
    | print hk ho h hc hz => simpa [hk] using printStmt_complete hk ho h hc hz rest
    | ifElse hk hc hb h ho =>
      simp only [List.length_cons, List.length_append] at hn
      simpa [hk] using ifStmt_complete (ih b) hk hc hb h ho (by omega) hr
    | whileLoop hk hc hb =>
      simp only [List.length_cons, List.length_append] at hn
      simpa [hk] using whileStmt_complete (ih b) hk hc hb (by omega) hr
    | forLoop hk ho hi h₁ h₂ hz h₃ hw hc h₄ =>
      simp only [List.length_cons, List.length_append] at hn
      simpa [hk] using forStmt_complete (ih b) hk ho hi h₁ h₂ hz h₃ hw hc h₄ (by omega) hr
    | function hk hf hl ho h hd hc hb =>
      simp only [List.length_cons, List.length_append] at hn
      simpa [hk] using functionStmt_complete (ih true) hk hf hl ho h hd hc hb (by omega) hr
    | ret hk h hz => simpa [hk] using returnStmt_complete rest b hk h hz
    | breakLoop hk hz => simpa [hk] using breakStmt_complete rest hk hz
    | continueLoop hk hz => simpa [hk] using continueStmt_complete rest hk hz

theorem programRest_complete : ∀ {p : Program} {ts : List Token} {m : Nat}, p.Derives ts →
    ts.length ≤ m → programRest m ts = .ok p []
  | _, _, 0, .nil, _ => rfl
  | _, _, _ + 1, .nil, _ => rfl
  | _, _, m, @Stmt.DerivesEach.cons _ s ss ts ts' h hs, hm => by
    have ha : NoElse ts' := by
      cases hs with
      | nil => simp [NoElse]
      | cons h' _ => exact stmt_head_ne h' rfl _
    have hr : stmt (ts ++ ts') = .ok s ts' :=
      stmtWithin_complete (ts ++ ts').length false s ts ts' h (by simp) fun _ => ha
    obtain ⟨t, ts, rfl, -⟩ := stmt_head h
    obtain ⟨m, rfl⟩ : ∃ k, m = k + 1 := ⟨m - 1, by simp at hm; omega⟩
    simp only [List.cons_append, List.length_cons, List.length_append] at hm
    rw [programRest, peek_bind, if_neg (by simp), bind_of_ok hr,
      bind_of_ok (programRest_complete hs (by omega))]
    rfl

theorem program_complete {p : Program} {ts : List Token} (h : p.Derives ts) :
    program ts = .ok p [] := programRest_complete h le_rfl

end Parse

end Stackwise
