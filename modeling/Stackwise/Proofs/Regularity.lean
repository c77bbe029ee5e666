import Stackwise.Proofs.Lexing
import Stackwise.Proofs.AlikeReading
import Stackwise.Proofs.Writing

/-! What later stages may rely on in a tree that was read.  `Stmt.Regular` says it of one statement,
and a program that was read has it at every statement, however deep.  `Stmt.Holds` goes down through
statements and keeps track of whether the way led into a function. -/
namespace Stackwise

mutual

/-- The integer literals of an expression, but for the -1 that a minus sign before a term stands
for.  That is a factor of a product which stands directly in parentheses. -/
def Expr.literals (parens : Bool) : Expr → List Int64
  | .int v => [v]
  | .ident _ _ => []
  | .paren inner => inner.literals true
  | .call _ args _ => Expr.literalsEach args
  | .bin op lhs rhs =>
    if parens && Expr.isNegation op rhs then lhs.literals false
    else lhs.literals false ++ rhs.literals false

def Expr.literalsEach : List Expr → List Int64
  | [] => []
  | e :: es => e.literals false ++ Expr.literalsEach es

end

def Expr.InRange (e : Expr) : Prop := ∀ v ∈ e.literals false, 0 ≤ v.toInt ∧ v.toInt ≤ 2 ^ 63 - 1

/-- There is a first link, which counts as joined by `&&`. -/
structure Condition.Regular (cond : Condition) : Prop where
  first : ∃ first rest, cond = first :: rest ∧ first.connector = .and
  exprs : ∀ e ∈ Condition.exprs cond, e.InRange

def PrintItem.isText : PrintItem → Bool
  | .str _ => true
  | .expr _ => false

/-- The last item is a text that ends the line, and a text comes directly after every value. -/
structure PrintItem.Regular (items : List PrintItem) : Prop where
  last : ∃ front text, items = front ++ [.str text] ∧ text.toList.getLast? = some '\n'
  next : ∀ before value after, items = before ++ .expr value :: after →
    ∃ text rest, after = .str text :: rest

def ElseBranch.conditions : ElseBranch → List Condition
  | .absent => []
  | .elseIf cond _ next => cond :: next.conditions
  | .otherwise _ => []

def ElseBranch.parts : ElseBranch → List Stmt
  | .absent => []
  | .elseIf _ body next => body :: next.parts
  | .otherwise body => [body]

namespace Stmt

def conditions : Stmt → List Condition
  | .ifElse cond _ other => cond :: other.conditions
  | .whileLoop cond _ => [cond]
  | .forLoop _ cond _ _ => [cond]
  | _ => []

/-- The expressions of a statement that stand outside of its conditions and of its parts. -/
def operands : Stmt → List Expr
  | .exit value => value.toList
  | .letVar _ value _ => [value]
  | .assign _ value _ => [value]
  | .print items => PrintItem.exprs items
  | .ret value _ _ => value.toList
  | .call _ args _ => args
  | _ => []

/-- The statements directly inside a statement. -/
def parts : Stmt → List Stmt
  | .block body => body
  | .ifElse _ body other => body :: other.parts
  | .whileLoop _ body => [body]
  | .forLoop init _ step body => [init, step, body]
  | .function _ _ body _ => [body]
  | _ => []

def isFunction : Stmt → Bool
  | .function .. => true
  | _ => false

/-- The statements inside a statement at any depth, itself among them, each with whether it is in a
function. -/
inductive Holds (inFunction : Bool) (s : Stmt) : Bool → Stmt → Prop
  | self : Holds inFunction s inFunction s
  | part {b : Bool} {t u : Stmt} : Holds inFunction s b t → u ∈ t.parts →
    Holds inFunction s (b || t.isFunction) u

/-- What each kind of statement is made of. -/
def Shaped (inFunction : Bool) : Stmt → Prop
  | .letVar name value _ => ∀ line, .ident name line ∉ value.nodes
  | .block body => body ≠ []
  | .print items => PrintItem.Regular items
  | .forLoop init _ step _ => init.isInit ∧ step.isStep
  | .function _ params _ _ => params.Nodup
  | .ret _ marked _ => marked = inFunction
  | _ => True

/-- A statement that is as it should be, leaving aside the statements inside it. -/
structure Regular (inFunction : Bool) (s : Stmt) : Prop where
  conditions : ∀ cond ∈ s.conditions, Condition.Regular cond
  operands : ∀ e ∈ s.operands, e.InRange
  shaped : s.Shaped inFunction

/-- A statement that is as it should be at every depth. -/
def RegularWithin (inFunction : Bool) (s : Stmt) : Prop :=
  ∀ b t, s.Holds inFunction b t → t.Regular b

theorem Holds.of_part {inFunction b : Bool} {s t u : Stmt} (ht : t ∈ s.parts)
    (h : t.Holds (inFunction || s.isFunction) b u) : s.Holds inFunction b u := by
  induction h with
  | self => exact .part .self ht
  | part _ hu ih => exact .part ih hu

theorem Holds.split {inFunction b : Bool} {s u : Stmt} (h : s.Holds inFunction b u) :
    (b = inFunction ∧ u = s) ∨ ∃ t ∈ s.parts, t.Holds (inFunction || s.isFunction) b u := by
  induction h with
  | self => exact .inl ⟨rfl, rfl⟩
  | part _ hu ih =>
    right
    rcases ih with ⟨rfl, rfl⟩ | ⟨t, ht, hh⟩
    · exact ⟨_, hu, .self⟩
    · exact ⟨t, ht, .part hh hu⟩

theorem regularWithin_iff {inFunction : Bool} {s : Stmt} :
    s.RegularWithin inFunction ↔
      s.Regular inFunction ∧ ∀ t ∈ s.parts, t.RegularWithin (inFunction || s.isFunction) := by
  constructor
  · intro h
    exact ⟨h _ _ .self, fun t ht b u hu => h b u (hu.of_part ht)⟩
  · rintro ⟨hs, hp⟩ b u h
    rcases h.split with ⟨rfl, rfl⟩ | ⟨t, ht, hu⟩
    · exact hs
    · exact hp t ht b u hu

theorem regularWithin_node {inFunction : Bool} {s : Stmt} (hf : s.isFunction = false)
    (h : s.Regular inFunction) (hp : ∀ t ∈ s.parts, t.RegularWithin inFunction) :
    s.RegularWithin inFunction := by
  rw [regularWithin_iff, hf, Bool.or_false]
  exact ⟨h, hp⟩

theorem regularWithin_leaf {inFunction : Bool} {s : Stmt} (hc : s.conditions = [])
    (hp : s.parts = []) (ho : ∀ e ∈ s.operands, e.InRange) (hs : s.Shaped inFunction) :
    s.RegularWithin inFunction := by
  rw [regularWithin_iff, hp]
  refine ⟨⟨?_, ho, hs⟩, ?_⟩
  · rw [hc]
    exact List.forall_mem_nil _
  · exact List.forall_mem_nil _

end Stmt

namespace Expr

/-- The literals of what is read are digits, so only a minus sign makes a number negative. -/
def Unsigned (e : Expr) : Prop := ∀ parens, ∀ v ∈ e.literals parens, 0 ≤ v.toInt

theorem Unsigned.inRange {e : Expr} (h : e.Unsigned) : e.InRange :=
  fun v hv => ⟨h false v hv, Int.le_sub_one_of_lt v.toInt_lt⟩

theorem unsigned_int {v : Int64} (h : 0 ≤ v.toInt) : Unsigned (.int v) := by
  intro parens w hw
  rw [literals, List.mem_singleton] at hw
  rwa [hw]

theorem Unsigned.paren {e : Expr} (h : e.Unsigned) : Unsigned (.paren e) := by
  intro parens v hv
  rw [literals] at hv
  exact h true v hv

theorem Unsigned.minus {e : Expr} (h : e.Unsigned) :
    Unsigned (.paren (.bin .mul e (.int (-1)))) := by
  intro parens v hv
  have hn : isNegation .mul (.int (-1)) = true := by decide
  rw [literals, literals, hn, Bool.and_self, if_pos rfl] at hv
  exact h false v hv

theorem Unsigned.bin {op : BinOp} {lhs rhs : Expr} (hl : lhs.Unsigned) (hr : rhs.Unsigned) :
    Unsigned (.bin op lhs rhs) := by
  intro parens v hv
  rw [literals] at hv
  split at hv
  · exact hl false v hv
  · rcases List.mem_append.1 hv with hv | hv
    · exact hl false v hv
    · exact hr false v hv

theorem unsigned_call {name : String} {args : List Expr} {line : Nat}
    (h : ∀ e ∈ args, e.Unsigned) : Unsigned (.call name args line) := by
  intro parens
  rw [literals]
  induction args with
  | nil => exact List.forall_mem_nil _
  | cons e es ih =>
    obtain ⟨he, hes⟩ := List.forall_mem_cons.1 h
    rw [literalsEach]
    exact List.forall_mem_append.2 ⟨he false, ih hes⟩

mutual

theorem ident_mem_nodes {name : String} {line : Nat} : (e : Expr) →
    (.ident name line ∈ e.nodes ↔ (name, line) ∈ e.mentions)
  | .int _ => by simp [nodes, mentions]
  | .ident _ _ => by simp [nodes, mentions]
  | .paren inner => by simpa [nodes, mentions] using ident_mem_nodes inner
  | .call _ args _ => by simpa [nodes, mentions] using ident_mem_nodesEach args
  | .bin _ lhs rhs => by simp [nodes, mentions, ident_mem_nodes lhs, ident_mem_nodes rhs]

theorem ident_mem_nodesEach {name : String} {line : Nat} : (es : List Expr) →
    (.ident name line ∈ nodesEach es ↔ (name, line) ∈ mentionsEach es)
  | [] => by simp [nodesEach, mentionsEach]
  | e :: es => by simp [nodesEach, mentionsEach, ident_mem_nodes e, ident_mem_nodesEach es]

end

end Expr

namespace PrintItem

/-- No value comes directly after a value. -/
def Spaced (items : List PrintItem) : Prop := items.IsChain fun a b => a.isText ∨ b.isText

theorem exists_endLine (items : List PrintItem) :
    ∃ front text, Parse.endLine items = front ++ [.str text] ∧
      text.toList.getLast? = some '\n' := by
  fun_induction Parse.endLine items with
  | case1 => exact ⟨[], "\n", rfl, rfl⟩
  | case2 text => exact ⟨[], text ++ "\n", rfl, by simp⟩
  | case3 s ss _ ih =>
    obtain ⟨front, text, he, ht⟩ := ih
    exact ⟨s :: front, text, by rw [he, List.cons_append], ht⟩

theorem endLine_cons (item : PrintItem) (items : List PrintItem) :
    ∃ item' rest, Parse.endLine (item :: items) = item' :: rest ∧ item'.isText = item.isText := by
  cases items with
  | nil => cases item <;> exact ⟨_, _, rfl, rfl⟩
  | cons next items => exact ⟨item, _, by cases item <;> rfl, rfl⟩

theorem Spaced.endLine {items : List PrintItem} (h : Spaced items) :
    Spaced (Parse.endLine items) := by
  fun_induction Parse.endLine items with
  | case1 => exact List.isChain_singleton _
  | case2 text => exact List.isChain_singleton _
  | case3 s ss _ ih =>
    cases ss with
    | nil => exact List.isChain_pair.2 (.inr rfl)
    | cons s' ss =>
      obtain ⟨hs, hc⟩ := List.isChain_cons_cons.1 h
      obtain ⟨item, rest, he, ht⟩ := endLine_cons s' ss
      have hc := ih hc
      rw [he] at hc ⊢
      exact List.isChain_cons_cons.2 ⟨by rwa [ht], hc⟩

theorem Spaced.regular {items : List PrintItem} (h : Spaced items) :
    PrintItem.Regular (Parse.endLine items) := by
  have hlast := exists_endLine items
  refine ⟨hlast, ?_⟩
  intro before value after he
  have hc := h.endLine
  rw [he] at hc hlast
  cases after with
  | nil =>
    obtain ⟨front, text, hf, -⟩ := hlast
    have := (List.append_inj' hf rfl).2
    simp at this
  | cons item after =>
    have hn := (List.isChain_append.1 hc).2.1
    cases item with
    | str text => exact ⟨text, after, rfl⟩
    | expr value' => simpa [isText] using (List.isChain_cons_cons.1 hn).1

end PrintItem

namespace Parse

variable {ts rest : List Token}

/-- After a value that is printed comes no operator, so what a plus sign goes on with is text. -/
theorem printItem_stops {item : PrintItem} (ht : ∀ t ∈ ts, t.Lexical)
    (h : printItem ts = .ok item rest) :
    rest <:+ ts ∧ (item.isText ∨ Stops rest) ∧
      (ts.head?.map Token.kind = some .stringLit → item.isText) := by
  by_cases hk : ts.head?.map Token.kind = some .stringLit
  · obtain ⟨⟨kind, literal, line⟩, ts, rfl⟩ : ∃ t r, ts = t :: r := by cases ts <;> simp_all
    obtain rfl : kind = .stringLit := by simpa using hk
    cases h
    exact ⟨List.suffix_cons _ _, .inl rfl, fun _ => rfl⟩
  · rw [printItem_of_ne hk, map_eq_pure_bind] at h
    obtain ⟨value, mid, h₁, ⟨⟩⟩ := bind_eq_ok.1 h
    obtain ⟨used, rfl, -, hs⟩ := expr_sound ts ht value rest h₁
    exact ⟨List.suffix_append _ _, .inr hs, fun h => absurd h hk⟩

theorem printItems_spaced (n : Nat) : ∀ {first : PrintItem} {items : List PrintItem}
    {ts rest : List Token}, (∀ t ∈ ts, t.Lexical) → first.isText ∨ Stops ts →
      printItems n ts = .ok items rest → PrintItem.Spaced (first :: items) := by
  induction n with
  | zero =>
    intro first items ts rest _ _ h
    cases h
    exact List.isChain_singleton _
  | succ n ih =>
    intro first items ts rest ht hf hr
    obtain ⟨more, mid, h₁, h⟩ := bind_eq_ok.1 hr
    rcases accept_eq_ok h₁ with ⟨rfl, plus, rfl, hp⟩ | ⟨rfl, rfl⟩
    · rw [if_pos rfl] at h
      obtain ⟨item, mid', h₂, h⟩ := bind_eq_ok.1 h
      obtain ⟨items, mid'', h₃, ⟨⟩⟩ := bind_eq_ok.1 h
      have hm := (List.forall_mem_cons.1 ht).2
      obtain ⟨hs, hstop, htext⟩ := printItem_stops hm h₂
      have hnext : first.isText ∨ item.isText :=
        hf.imp_right fun hf => htext (hf plus mid rfl (by rw [hp]; rfl))
      exact List.isChain_cons_cons.2 ⟨hnext, ih (fun t h => hm t (hs.mem h)) hstop h₃⟩
    · cases h
      exact List.isChain_singleton _

theorem printStmt_regular {items : List PrintItem} (ht : ∀ t ∈ ts, t.Lexical)
    (h : printStmt ts = .ok (.print items) rest) : PrintItem.Regular items := by
  obtain ⟨_, mid₁, h₁, hrun⟩ := bind_eq_ok.1 h
  obtain ⟨_, mid₂, h₂, hitems⟩ := bind_eq_ok.1 hrun
  obtain ⟨rfl, -⟩ := expect_eq_ok.1 h₁
  obtain ⟨rfl, -⟩ := expect_eq_ok.1 h₂
  have hm := (List.forall_mem_cons.1 (List.forall_mem_cons.1 ht).2).2
  have hend {items items' : List PrintItem} {mid : List Token}
      (h : (do
        let _ ← expect .closeParen
        let _ ← expect .semi
        return Stmt.print (endLine items')) mid = .ok (.print items) rest)
      (hs : PrintItem.Spaced items') : PrintItem.Regular items := by
    obtain ⟨_, _, -, h⟩ := bind_eq_ok.1 h
    obtain ⟨_, _, -, ⟨⟩⟩ := bind_eq_ok.1 h
    exact hs.regular
  rw [peek_bind] at hitems
  dsimp only at hitems
  split at hitems
  · exact hend hitems List.isChain_nil
  · obtain ⟨first, mid, h₃, h⟩ := bind_eq_ok.1 hitems
    obtain ⟨_, _, h₄, h⟩ := bind_eq_ok.1 h
    cases h₄
    obtain ⟨more, mid', h₅, h⟩ := bind_eq_ok.1 h
    obtain ⟨hs, hstop, -⟩ := printItem_stops hm h₃
    exact hend h (printItems_spaced _ (fun t h => hm t (hs.mem h)) hstop h₅)

end Parse

theorem Condition.Alike.regular {cond cond' : Condition}
    (h : Condition.Alike (fun e e' => e = e' ∧ e.Unsigned) cond cond') : Condition.Regular cond :=
  ⟨h.first, Likeness.forall_of_forall₂ h.exprs fun _ _ h => h.2.inRange⟩

open Likeness (forall_of_forall₂ forall₂_toList)

/-- What is read off lexical tokens is as it should be at every depth. -/
def Trait.regular : Trait where
  token := Token.Lexical
  expr := Expr.Unsigned
  stmt := Stmt.RegularWithin
  branch b other := (∀ cond ∈ other.conditions, Condition.Regular cond) ∧
    ∀ s ∈ other.parts, s.RegularWithin b
  ofExpr h := by
    cases h with
    | int ht hk hl hv =>
      obtain ⟨n, -, hn⟩ := (Numeral.int64?_eq_some (ht.2 hk _ hl)).1 hv
      exact Expr.unsigned_int (by rw [hn]; exact Int.natCast_nonneg n)
    | one => exact Expr.unsigned_int (by decide)
    | ident => exact fun parens v hv => by simp [Expr.literals] at hv
    | call _ _ _ hs => exact Expr.unsigned_call (forall_of_forall₂ hs fun _ _ h => h.2)
    | paren he => exact he.2.paren
    | minus he => exact he.2.minus
    | bin hl hr => exact hl.2.bin hr.2
  ofStmt h := by
    have hexprs {es es' : List Expr} (h : List.Forall₂ (fun e e' => e = e' ∧ e.Unsigned) es es') :
        ∀ e ∈ es, e.InRange :=
      forall_of_forall₂ h fun _ _ h => h.2.inRange
    cases h with
    | exit hv => exact Stmt.regularWithin_leaf rfl rfl (hexprs (forall₂_toList hv)) trivial
    | letVar _ he hm =>
      refine Stmt.regularWithin_leaf rfl rfl (List.forall_mem_singleton.2 he.2.inRange) ?_
      intro line hn
      exact List.find?_eq_none.1 hm _ ((Expr.ident_mem_nodes _).1 hn) (beq_self_eq_true _)
    | assign _ he =>
      exact Stmt.regularWithin_leaf rfl rfl (List.forall_mem_singleton.2 he.2.inRange) trivial
    | call _ hs => exact Stmt.regularWithin_leaf rfl rfl (hexprs hs) trivial
    | print ht hp hi =>
      refine Stmt.regularWithin_leaf rfl rfl (hexprs (PrintItem.Alike.exprs hi)) ?_
      exact Parse.printStmt_regular (forall_of_forall₂ ht fun _ _ h => h.2) hp
    | block hne hb =>
      exact Stmt.regularWithin_node rfl ⟨List.forall_mem_nil _, List.forall_mem_nil _, hne⟩
        (forall_of_forall₂ hb fun _ _ h => h)
    | ifElse hc hb ho =>
      exact Stmt.regularWithin_node rfl
        ⟨List.forall_mem_cons.2 ⟨hc.regular, ho.1⟩, List.forall_mem_nil _, trivial⟩
        (List.forall_mem_cons.2 ⟨hb, ho.2⟩)
    | whileLoop hc hb =>
      exact Stmt.regularWithin_node rfl
        ⟨List.forall_mem_singleton.2 hc.regular, List.forall_mem_nil _, trivial⟩
        (List.forall_mem_singleton.2 hb)
    | forLoop hinit hstep hi hc ht hb =>
      refine Stmt.regularWithin_node rfl
        ⟨List.forall_mem_singleton.2 hc.regular, List.forall_mem_nil _, hinit, hstep⟩ ?_
      exact List.forall_mem_cons.2 ⟨hi, List.forall_mem_cons.2 ⟨ht, List.forall_mem_singleton.2 hb⟩⟩
    | function _ _ _ hd hb =>
      rw [Stmt.regularWithin_iff, Stmt.isFunction, Bool.or_true]
      exact ⟨⟨List.forall_mem_nil _, List.forall_mem_nil _, hd⟩, List.forall_mem_singleton.2 hb⟩
    | ret _ hv => exact Stmt.regularWithin_leaf rfl rfl (hexprs (forall₂_toList hv)) rfl
    | breakLoop => exact Stmt.regularWithin_leaf rfl rfl (List.forall_mem_nil _) trivial
    | continueLoop => exact Stmt.regularWithin_leaf rfl rfl (List.forall_mem_nil _) trivial
  ofBranch h := by
    cases h with
    | absent => exact ⟨List.forall_mem_nil _, List.forall_mem_nil _⟩
    | elseIf hc hb hn =>
      exact ⟨List.forall_mem_cons.2 ⟨hc.regular, hn.1⟩, List.forall_mem_cons.2 ⟨hb, hn.2⟩⟩
    | otherwise hb => exact ⟨List.forall_mem_nil _, List.forall_mem_singleton.2 hb⟩

/-- A token that scanning finds stands for a lexeme. -/
theorem Scan.exists_lexeme {source : String} {t : Token} (ht : t ∈ (Scan.ofText source).tokens) :
    ∃ kind cs rest, Piece.Lexeme kind cs ∧ t.kind = Piece.kindBefore kind rest ∧
      t.literal = Piece.literalOf kind cs := by
  obtain ⟨⟨p, line⟩, hp, he⟩ := List.mem_filterMap.1 ht
  have hm : p ∈ (pieces source.toList).1 := by
    rw [← Piece.map_fst_place 1 (pieces source.toList).1]
    exact List.mem_map_of_mem hp
  obtain ⟨rest, hcut⟩ := (pieces_partition source.toList).exists_cut hm
  cases hcut with
  | @token kind cs hl _ =>
    obtain rfl := Option.some.inj he
    exact ⟨kind, cs, rest, hl, rfl, rfl⟩
  | blank => cases he
  | lineComment => cases he
  | blockComment => cases he
  | stray => cases he
  | unclosed => cases he

/-- The integer literals that scanning finds are digits. -/
theorem Scan.tokens_lexical (source : String) : ∀ t ∈ (Scan.ofText source).tokens, t.Lexical := by
  intro t ht hk
  obtain ⟨kind, cs, rest, hl, hkind, hliteral⟩ := Scan.exists_lexeme ht
  obtain rfl : kind = .intLit :=
    (Piece.kindBefore_eq_iff (by simp) (by simp)).1 (hkind.symm.trans hk)
  cases hl with
  | int _ hd =>
    intro text htext c hc
    obtain rfl := Option.some.inj (hliteral.symm.trans htext)
    rw [String.toList_ofList] at hc
    exact Numeral.isDigit_iff.2 (Piece.isDigit_iff.1 (hd c hc))
  | keyword hw => exact absurd rfl (Piece.keyword_bare hw).1
  | symbol hw => exact absurd rfl (Piece.symbol_bare hw).1

def Program.Regular (p : Program) : Prop :=
  ∀ s ∈ p, ∀ inFunction t, s.Holds false inFunction t → t.Regular inFunction

namespace Program

theorem ofTokens_eq_ok {ts : List Token} {p : Program} (h : ofTokens ts = .ok p) :
    ∃ rest, Parse.program ts = .ok p rest := by
  unfold ofTokens Session.read at h
  cases hr : Parse.program (Session.ofTokens ts).rest with
  | ok p' rest =>
    rw [hr] at h
    cases h
    exact ⟨rest, hr⟩
  | error f rest =>
    rw [hr] at h
    cases h

theorem ofTokens_of_ofScan {s : Scan} {p : Program} (h : ofScan s = .ok p) :
    ofTokens s.tokens = .ok p := by
  unfold ofScan at h
  cases hr : s.result with
  | error e =>
    rw [hr] at h
    cases h
  | ok ts =>
    rw [hr, Scan.eq_tokens_of_result hr] at h
    exact h

theorem regular_of_ofTokens {ts : List Token} {p : Program} (ht : ∀ t ∈ ts, t.Lexical)
    (h : ofTokens ts = .ok p) : p.Regular := by
  obtain ⟨rest, hr⟩ := ofTokens_eq_ok h
  exact Trait.regular.program ht hr

/-- Whatever is read, off lexical tokens or off a text, is as later stages rely on. -/
theorem parsed_regular :
    (∀ ts p, (∀ t ∈ ts, t.Lexical) → ofTokens ts = .ok p → p.Regular) ∧
      ∀ source p, ofScan (Scan.ofText source) = .ok p → p.Regular := by
  refine ⟨fun ts p => regular_of_ofTokens, fun source p h => ?_⟩
  exact regular_of_ofTokens (Scan.tokens_lexical source) (ofTokens_of_ofScan h)

/-- A text with a function in a branch, a minus sign, and a value between texts. -/
def nestedText : String :=
  "if (1 < 2) { fn f(a, b) { return -a * b; } } let x = f(3, 4); print(\"x\" + x + 1 + \"!\");"

set_option maxRecDepth 4000 in
theorem parsed_regular_nestedText :
    ∃ p, ofScan (Scan.ofText nestedText) = .ok p ∧ p.length = 3 ∧ p.Regular ∧
      (∀ t ∈ (Scan.ofText nestedText).tokens, t.Lexical) ∧
      ofTokens (Scan.ofText nestedText).tokens = .ok p := by
  have hrun : (ofScan (Scan.ofText nestedText)).map List.length = .ok 3 := by cbv
  cases hp : ofScan (Scan.ofText nestedText) with
  | error e =>
    rw [hp] at hrun
    cases hrun
  | ok p =>
    rw [hp] at hrun
    exact ⟨p, rfl, Except.ok.inj hrun, parsed_regular.2 _ _ hp, Scan.tokens_lexical _,
      ofTokens_of_ofScan hp⟩

end Program

end Stackwise
