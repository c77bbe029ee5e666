import Stackwise.Proofs.Positions
import Stackwise.Tree.Render

/-! Outlines of nodes.  The outline of a node is what the node is besides the nodes directly
inside it: no tree has a place in it.  The outline and the nodes inside make up the node, and in
the text of the node theirs stand one after the other, in a text that the outline fixes. -/
namespace Stackwise

/-- A text with gaps. -/
abbrev Template := List (Option String)

namespace Template

/-- The text with a text in each gap, if there are as many texts as gaps. -/
def fill? : Template → List String → Option String
  | [], [] => some ""
  | [], _ :: _ => none
  | some text :: rest, texts => (fill? rest texts).map (text ++ ·)
  | none :: _, [] => none
  | none :: rest, text :: texts => (fill? rest texts).map (text ++ ·)

def spaced : Nat → Template
  | 0 => []
  | count + 1 => some " " :: none :: spaced count

/-- The texts fit the gaps, and this is the text with them. -/
def Fills (t : Template) (texts : List String) (whole : String) : Prop := t.fill? texts = some whole

namespace Fills

variable {t u : Template} {texts more : List String} {a b : String}

theorem nil : Fills [] [] "" := rfl

theorem text (a : String) : Fills [some a] [] a := by simp [Fills, fill?]

theorem gap (a : String) : Fills [none] [a] a := by simp [Fills, fill?]

theorem append (h : Fills t texts a) (h' : Fills u more b) :
    Fills (t ++ u) (texts ++ more) (a ++ b) := by
  unfold Fills at *
  fun_induction fill? t texts generalizing a with
  | case1 =>
    cases h
    simpa using h'
  | case2 | case4 => cases h
  | case3 text rest texts ih | case5 rest text texts ih =>
    obtain ⟨c, hc, rfl⟩ := Option.map_eq_some_iff.1 h
    simp [fill?, ih hc, String.append_assoc]

theorem thenText (h : Fills t texts a) (b : String) : Fills (t ++ [some b]) texts (a ++ b) := by
  simpa using h.append (text b)

theorem thenGap (h : Fills t texts a) (x : String) : Fills (t ++ [none]) (texts ++ [x]) (a ++ x) :=
  h.append (gap x)

theorem around (a x b : String) : Fills [some a, none, some b] [x] (a ++ x ++ b) :=
  ((text a).thenGap x).thenText b

theorem aroundTwo (a x b y c : String) :
    Fills [some a, none, some b, none, some c] [x, y] (a ++ x ++ b ++ y ++ c) :=
  ((around a x b).thenGap y).thenText c

theorem spaced {α : Type} {write : α → String} {writeEach : List α → String}
    (hn : writeEach [] = "") (hc : ∀ x xs, writeEach (x :: xs) = " " ++ write x ++ writeEach xs)
    (xs : List α) : Fills (Template.spaced xs.length) (xs.map write) (writeEach xs) := by
  induction xs with
  | nil =>
    rw [hn]
    exact nil
  | cons x xs ih =>
    rw [hc]
    exact ((text " ").thenGap (write x)).append ih

end Fills

end Template

structure Link.Outline where
  comparison : Option Comparison
  connector : Connector

abbrev Condition.Outline := List Link.Outline

/-- The branches after the first, without their expressions and bodies. -/
inductive ElseBranch.Outline where
  | absent
  | elseIf (cond : Condition.Outline) (next : ElseBranch.Outline)
  | otherwise

/-- A node without the nodes directly inside it.  Where their number is not fixed it is given, or,
of a `print`, the texts among its items. -/
inductive Node.Outline where
  | int (value : Int64)
  | ident (name : String) (line : Nat)
  | paren
  | callExpr (name : String) (arity line : Nat)
  | bin (op : BinOp)
  | exit (valued : Bool)
  | letVar (name : String) (line : Nat)
  | assign (name : String) (line : Nat)
  | block (size : Nat)
  | print (items : List (Option String))
  | ifElse (cond : Condition.Outline) (other : ElseBranch.Outline)
  | whileLoop (cond : Condition.Outline)
  | forLoop (cond : Condition.Outline)
  | function (name : String) (params : List String) (line : Nat)
  | ret (valued inFunction : Bool) (line : Nat)
  | callStmt (name : String) (arity line : Nat)
  | breakLoop (line : Nat)
  | continueLoop (line : Nat)

section Outline

def Link.outline (c : Link) : Link.Outline := ⟨c.comparison.map Prod.fst, c.connector⟩

def Condition.outline (cond : Condition) : Condition.Outline := cond.map Link.outline

def ElseBranch.outline : ElseBranch → ElseBranch.Outline
  | .absent => .absent
  | .elseIf cond _ next => .elseIf (Condition.outline cond) next.outline
  | .otherwise _ => .otherwise

def Node.outline : Node → Node.Outline
  | .expr (.int value) => .int value
  | .expr (.ident name line) => .ident name line
  | .expr (.paren _) => .paren
  | .expr (.call name args line) => .callExpr name args.length line
  | .expr (.bin op _ _) => .bin op
  | .stmt (.exit value) => .exit value.isSome
  | .stmt (.letVar name _ line) => .letVar name line
  | .stmt (.assign name _ line) => .assign name line
  | .stmt (.block body) => .block body.length
  | .stmt (.print items) => .print (items.map PrintItem.text?)
  | .stmt (.ifElse cond _ other) => .ifElse (Condition.outline cond) other.outline
  | .stmt (.whileLoop cond _) => .whileLoop (Condition.outline cond)
  | .stmt (.forLoop _ cond _ _) => .forLoop (Condition.outline cond)
  | .stmt (.function name params _ line) => .function name params line
  | .stmt (.ret value inFunction line) => .ret value.isSome inFunction line
  | .stmt (.call name args line) => .callStmt name args.length line
  | .stmt (.breakLoop line) => .breakLoop line
  | .stmt (.continueLoop line) => .continueLoop line

end Outline

section Template

def Link.Outline.template (c : Link.Outline) : Template :=
  match c.comparison with
  | some cmp => [some ("(" ++ cmp.render ++ " "), none, some " ", none, some ")"]
  | none => [none]

/-- The links after the first, each behind its connector. -/
def Condition.Outline.templateRest : Condition.Outline → Template
  | [] => []
  | c :: cs => [some (" " ++ c.connector.render ++ " ")] ++ c.template ++ templateRest cs

def Condition.Outline.template : Condition.Outline → Template
  | [] => []
  | c :: cs => c.template ++ templateRest cs

/-- Items with a space before each, gaps for those that are no texts. -/
def PrintItem.template : List (Option String) → Template
  | [] => []
  | item :: items => some " " :: item.map Text.quoted :: template items

def ElseBranch.Outline.template : ElseBranch.Outline → Template
  | .absent => []
  | .elseIf cond next =>
    [some " (elif ["] ++ cond.template ++ [some "] "] ++ [none] ++ next.template ++ [some ")"]
  | .otherwise => [some " (else ", none, some ")"]

def Node.Outline.template : Node.Outline → Template
  | .int value => [some (Numeral.signed value.toInt)]
  | .ident name _ => [some name]
  | .paren => [none]
  | .callExpr name arity _ => [some ("(call " ++ name)] ++ Template.spaced arity ++ [some ")"]
  | .bin op => [some ("(" ++ op.render ++ " "), none, some " ", none, some ")"]
  | .exit false => [some "(exit)"]
  | .exit true => [some "(exit ", none, some ")"]
  | .letVar name _ => [some ("(let " ++ name ++ " "), none, some ")"]
  | .assign name _ => [some ("(= " ++ name ++ " "), none, some ")"]
  | .block size => [some "(block"] ++ Template.spaced size ++ [some ")"]
  | .print items => [some "(print"] ++ PrintItem.template items ++ [some ")"]
  | .ifElse cond other =>
    [some "(if ["] ++ cond.template ++ [some "] "] ++ [none] ++ other.template ++ [some ")"]
  | .whileLoop cond => [some "(while ["] ++ cond.template ++ [some "] "] ++ [none] ++ [some ")"]
  | .forLoop cond =>
    [some "(for ", none, some " ["] ++ cond.template ++ [some "] "] ++ [none] ++ [some " "] ++
      [none] ++ [some ")"]
  | .function name params _ =>
    [some ("(fn " ++ name ++ " (" ++ " ".intercalate params ++ ") "), none, some ")"]
  | .ret valued inFunction _ =>
    let word := if inFunction then "(return" else "(return!"
    if valued then [some (word ++ " "), none, some ")"] else [some (word ++ ")")]
  | .callStmt name arity _ => [some ("(call " ++ name)] ++ Template.spaced arity ++ [some ")"]
  | .breakLoop _ => [some "(break)"]
  | .continueLoop _ => [some "(continue)"]

end Template

def Node.render : Node → String
  | .expr e => e.render
  | .stmt s => s.render

section Render

open Template (Fills)

theorem Link.fills (c : Link) : Fills c.outline.template (c.exprs.map Expr.render) c.render := by
  obtain ⟨lhs, _ | ⟨cmp, rhs⟩, connector⟩ := c
  · exact .gap lhs.render
  · exact .aroundTwo ("(" ++ cmp.render ++ " ") lhs.render " " rhs.render ")"

theorem Condition.fills_rest (cond : Condition) :
    Fills (Condition.outline cond).templateRest ((Condition.exprs cond).map Expr.render)
      (Condition.renderRest cond) := by
  induction cond with
  | nil => exact .nil
  | cons c cs ih =>
    rw [Condition.exprs_cons, List.map_append]
    exact ((Fills.text (" " ++ c.connector.render ++ " ")).append c.fills).append ih

theorem Condition.fills (cond : Condition) :
    Fills (Condition.outline cond).template ((Condition.exprs cond).map Expr.render)
      (Condition.render cond) := by
  cases cond with
  | nil => exact .nil
  | cons c cs =>
    rw [Condition.exprs_cons, List.map_append]
    exact c.fills.append (Condition.fills_rest cs)

theorem PrintItem.fills (items : List PrintItem) :
    Fills (PrintItem.template (items.map PrintItem.text?))
      ((PrintItem.exprs items).map Expr.render)
      (String.join (items.map fun item => " " ++ item.render)) := by
  induction items with
  | nil => exact .nil
  | cons item items ih =>
    rw [List.map_cons, List.map_cons, String.join_cons]
    cases item with
    | str text => exact ((Fills.text " ").append (.text (Text.quoted text))).append ih
    | expr value => exact ((Fills.text " ").append (.gap value.render)).append ih

theorem Node.map_render_expr (es : List Expr) :
    (es.map Node.expr).map Node.render = es.map Expr.render := by
  simp [Node.render]

theorem Node.map_render_stmt (ss : List Stmt) :
    (ss.map Node.stmt).map Node.render = ss.map Stmt.render := by
  simp [Node.render]

theorem ElseBranch.fills (other : ElseBranch) :
    Fills other.outline.template (other.children.map Node.render) other.render := by
  fun_induction ElseBranch.children other with
  | case1 => exact .nil
  | case2 cond body next ih =>
    rw [List.map_append, List.map_append, Node.map_render_expr]
    exact (((((Fills.text " (elif [").append (Condition.fills cond)).thenText "] ").thenGap
      body.render).append ih).thenText ")"
  | case3 body => exact .around " (else " body.render ")"

theorem Expr.fills (e : Expr) :
    Fills (Node.expr e).outline.template ((Node.expr e).children.map Node.render) e.render := by
  cases e with
  | int value => exact .text (Numeral.signed value.toInt)
  | ident name line => exact .text name
  | paren inner => exact .gap inner.render
  | call name args line =>
    rw [Node.children, Node.map_render_expr]
    exact ((Fills.text ("(call " ++ name)).append (.spaced rfl (fun _ _ => rfl) args)).thenText ")"
  | bin op lhs rhs =>
    exact .aroundTwo ("(" ++ op.render ++ " ") lhs.render " " rhs.render ")"

theorem Stmt.fills (s : Stmt) :
    Fills (Node.stmt s).outline.template ((Node.stmt s).children.map Node.render) s.render := by
  cases s with
  | exit value =>
    cases value with
    | none => exact .text "(exit)"
    | some value => exact .around "(exit " value.render ")"
  | letVar name value line => exact .around ("(let " ++ name ++ " ") value.render ")"
  | assign name value line => exact .around ("(= " ++ name ++ " ") value.render ")"
  | block body =>
    rw [Node.children, Node.map_render_stmt]
    exact ((Fills.text "(block").append (.spaced rfl (fun _ _ => rfl) body)).thenText ")"
  | print items =>
    rw [Node.children, Node.map_render_expr]
    exact ((Fills.text "(print").append (PrintItem.fills items)).thenText ")"
  | ifElse cond body other =>
    rw [Node.children, List.map_append, List.map_append, Node.map_render_expr]
    exact (((((Fills.text "(if [").append (Condition.fills cond)).thenText "] ").thenGap
      body.render).append other.fills).thenText ")"
  | whileLoop cond body =>
    rw [Node.children, List.map_append, Node.map_render_expr]
    exact ((((Fills.text "(while [").append (Condition.fills cond)).thenText "] ").thenGap
      body.render).thenText ")"
  | forLoop init cond step body =>
    rw [Node.children, List.map_append, List.map_append, List.map_append, Node.map_render_expr]
    exact ((((((Fills.around "(for " init.render " [").append (Condition.fills cond)).thenText
      "] ").thenGap step.render).thenText " ").thenGap body.render).thenText ")"
  | function name params body line =>
    exact .around ("(fn " ++ name ++ " (" ++ " ".intercalate params ++ ") ") body.render ")"
  | ret value inFunction line =>
    cases value with
    | none =>
      cases inFunction with
      | true => exact .text "(return)"
      | false => exact .text "(return!)"
    | some value =>
      cases inFunction with
      | true => exact .around "(return " value.render ")"
      | false => exact .around "(return! " value.render ")"
  | call name args line =>
    rw [Node.children, Node.map_render_expr]
    exact ((Fills.text ("(call " ++ name)).append (.spaced rfl (fun _ _ => rfl) args)).thenText ")"
  | breakLoop line => exact .text "(break)"
  | continueLoop line => exact .text "(continue)"

/-- In the text of a node stand the texts of the nodes directly inside it, one after the other,
each in a gap of the outline. -/
theorem Node.fill?_template (n : Node) :
    n.outline.template.fill? (n.children.map Node.render) = some n.render := by
  cases n with
  | expr e => exact e.fills
  | stmt s => exact s.fills

end Render

section Whole

variable {ns ms : List Node}

theorem Node.map_expr_inj {es es' : List Expr} (h : es.map Node.expr = es'.map Node.expr) :
    es = es' :=
  List.map_injective_iff.2 (fun _ _ => Node.expr.inj) h

theorem Node.map_stmt_inj {ss ss' : List Stmt} (h : ss.map Node.stmt = ss'.map Node.stmt) :
    ss = ss' :=
  List.map_injective_iff.2 (fun _ _ => Node.stmt.inj) h

theorem Node.toList_inj {value value' : Option Expr}
    (h : value.toList.map Node.expr = value'.toList.map Node.expr) : value = value' := by
  have ht := Node.map_expr_inj h
  cases value <;> cases value' <;> simp_all

/-- A condition is known by its outline and its expressions, whatever nodes come after these. -/
theorem Condition.append_inj {cond cond' : Condition}
    (ho : Condition.outline cond = Condition.outline cond')
    (h : (Condition.exprs cond).map Node.expr ++ ns = (Condition.exprs cond').map .expr ++ ms) :
    cond = cond' ∧ ns = ms := by
  induction cond generalizing cond' with
  | nil =>
    cases cond' with
    | nil => exact ⟨rfl, h⟩
    | cons d ds => cases ho
  | cons c cs ih =>
    cases cond' with
    | nil => cases ho
    | cons d ds =>
      obtain ⟨hc, hcs⟩ := List.cons.inj ho
      -- The outline of a link says how many of the nodes in front are its own.
      obtain ⟨lhs, _ | ⟨cmp, rhs⟩, con⟩ := c <;> obtain ⟨lhs', _ | ⟨cmp', rhs'⟩, con'⟩ := d
      · obtain ⟨-, rfl⟩ := Link.Outline.mk.inj hc
        obtain ⟨hl, hrest⟩ := List.cons.inj h
        obtain ⟨rfl, rfl⟩ := ih hcs hrest
        cases hl
        exact ⟨rfl, rfl⟩
      · cases hc
      · cases hc
      · obtain ⟨hcmp, rfl⟩ := Link.Outline.mk.inj hc
        obtain ⟨hl, hrest⟩ := List.cons.inj h
        obtain ⟨hr, hmore⟩ := List.cons.inj hrest
        obtain ⟨rfl, rfl⟩ := ih hcs hmore
        cases hl
        cases hr
        cases hcmp
        exact ⟨rfl, rfl⟩

theorem PrintItem.eq_of_text? {items items' : List PrintItem}
    (ho : items.map PrintItem.text? = items'.map PrintItem.text?)
    (he : PrintItem.exprs items = PrintItem.exprs items') : items = items' := by
  induction items generalizing items' with
  | nil => exact (List.map_eq_nil_iff.1 ho.symm).symm
  | cons item items ih =>
    cases items' with
    | nil => cases ho
    | cons item' items' =>
      obtain ⟨hi, hrest⟩ := List.cons.inj ho
      cases item with
      | str text =>
        cases item' with
        | str text' =>
          cases hi
          rw [ih hrest he]
        | expr value' => cases hi
      | expr value =>
        cases item' with
        | str text' => cases hi
        | expr value' =>
          obtain ⟨rfl, hes⟩ := List.cons.inj he
          rw [ih hrest hes]

theorem ElseBranch.eq_of_outline : {other other' : ElseBranch} → other.outline = other'.outline →
    other.children = other'.children → other = other'
  | .absent, .absent, _, _ => rfl
  | .elseIf cond body next, .elseIf cond' body' next', ho, hc => by
    obtain ⟨hcond, hnext⟩ := ElseBranch.Outline.elseIf.inj ho
    rw [ElseBranch.children, ElseBranch.children, List.append_assoc, List.append_assoc] at hc
    obtain ⟨rfl, hrest⟩ := Condition.append_inj hcond hc
    obtain ⟨hbody, hc'⟩ := List.cons.inj hrest
    rw [ElseBranch.eq_of_outline hnext hc', Node.stmt.inj hbody]
  | .otherwise body, .otherwise body', _, hc => by
    cases hc
    rfl

theorem Expr.eq_of_outline {e e' : Expr} (ho : (Node.expr e).outline = (Node.expr e').outline)
    (hc : (Node.expr e).children = (Node.expr e').children) : e = e' := by
  cases e with
  | int | ident => cases e' <;> cases ho; rfl
  | paren | bin =>
    cases e' <;> cases ho
    cases hc
    rfl
  | call name args line =>
    cases e' with
    | call name' args' line' =>
      obtain ⟨rfl, -, rfl⟩ := Node.Outline.callExpr.inj ho
      rw [Node.map_expr_inj hc]
    | _ => cases ho

theorem Stmt.eq_of_outline {s s' : Stmt} (ho : (Node.stmt s).outline = (Node.stmt s').outline)
    (hc : (Node.stmt s).children = (Node.stmt s').children) : s = s' := by
  cases s with
  | exit value =>
    cases s' with
    | exit value' => rw [Node.toList_inj hc]
    | _ => cases ho
  | letVar | assign | function =>
    cases s' <;> cases ho
    cases hc
    rfl
  | block body =>
    cases s' with
    | block body' => rw [Node.map_stmt_inj hc]
    | _ => cases ho
  | print items =>
    cases s' with
    | print items' =>
      rw [PrintItem.eq_of_text? (Node.Outline.print.inj ho) (Node.map_expr_inj hc)]
    | _ => cases ho
  | ifElse cond body other =>
    cases s' with
    | ifElse cond' body' other' =>
      obtain ⟨hcond, hother⟩ := Node.Outline.ifElse.inj ho
      rw [Node.children, Node.children, List.append_assoc, List.append_assoc] at hc
      obtain ⟨rfl, hrest⟩ := Condition.append_inj hcond hc
      obtain ⟨hbody, hc'⟩ := List.cons.inj hrest
      rw [ElseBranch.eq_of_outline hother hc', Node.stmt.inj hbody]
    | _ => cases ho
  | whileLoop cond body =>
    cases s' with
    | whileLoop cond' body' =>
      obtain ⟨rfl, hrest⟩ := Condition.append_inj (Node.Outline.whileLoop.inj ho) hc
      cases hrest
      rfl
    | _ => cases ho
  | forLoop init cond step body =>
    cases s' with
    | forLoop init' cond' step' body' =>
      simp only [Node.children, List.append_assoc] at hc
      obtain ⟨hinit, hc'⟩ := List.cons.inj hc
      obtain ⟨rfl, hrest⟩ := Condition.append_inj (Node.Outline.forLoop.inj ho) hc'
      cases hinit
      cases hrest
      rfl
    | _ => cases ho
  | ret value inFunction line =>
    cases s' with
    | ret value' inFunction' line' =>
      obtain ⟨-, rfl, rfl⟩ := Node.Outline.ret.inj ho
      rw [Node.toList_inj hc]
    | _ => cases ho
  | call name args line =>
    cases s' with
    | call name' args' line' =>
      obtain ⟨rfl, -, rfl⟩ := Node.Outline.callStmt.inj ho
      rw [Node.map_expr_inj hc]
    | _ => cases ho
  | breakLoop | continueLoop => cases s' <;> cases ho; rfl

/-- A node is its outline with the nodes directly inside it: nothing else is in it. -/
theorem Node.eq_of_outline {n m : Node} (ho : n.outline = m.outline)
    (hc : n.children = m.children) : n = m := by
  cases n with
  | stmt s =>
    cases m with
    | stmt s' => rw [Stmt.eq_of_outline ho hc]
    | expr e' => cases s <;> cases e' <;> cases ho
  | expr e =>
    cases m with
    | stmt s' => cases e <;> cases s' <;> cases ho
    | expr e' => rw [Expr.eq_of_outline ho hc]

end Whole

end Stackwise
