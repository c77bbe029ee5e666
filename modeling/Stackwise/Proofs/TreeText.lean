import Stackwise.Proofs.NestedText
import Stackwise.Proofs.Writing
import Stackwise.Tree.Render

/-! Trees as nested lists.  The text of a tree is that of a nested list, in which parentheses and
lines leave no trace.  If the names in the tree are words, all words of the nested list show where
they end. -/
namespace Stackwise

section Nested

mutual

def Expr.nested : Expr → Nested
  | .int value => .word (Numeral.signed value.toInt)
  | .ident name _ => .word name
  | .paren inner => inner.nested
  | .call name args _ => .list .round (.word "call" :: .word name :: Expr.nestedEach args)
  | .bin op lhs rhs => .list .round [.word op.render, lhs.nested, rhs.nested]

def Expr.nestedEach : List Expr → List Nested
  | [] => []
  | e :: es => e.nested :: Expr.nestedEach es

end

def Link.nested (k : Link) : Nested :=
  match k.comparison with
  | some (cmp, rhs) => .list .round [.word cmp.render, k.lhs.nested, rhs.nested]
  | none => k.lhs.nested

def Condition.nestedRest : Condition → List Nested
  | [] => []
  | k :: rest => .word k.connector.render :: k.nested :: Condition.nestedRest rest

def Condition.nested : Condition → List Nested
  | [] => []
  | first :: rest => first.nested :: Condition.nestedRest rest

def PrintItem.nested : PrintItem → Nested
  | .str text => .quote text
  | .expr value => value.nested

mutual

def Stmt.nested : Stmt → Nested
  | .exit value => .list .round (.word "exit" :: value.toList.map Expr.nested)
  | .letVar name value _ => .list .round [.word "let", .word name, value.nested]
  | .assign name value _ => .list .round [.word "=", .word name, value.nested]
  | .block body => .list .round (.word "block" :: Stmt.nestedEach body)
  | .print items => .list .round (.word "print" :: items.map PrintItem.nested)
  | .ifElse cond body other =>
    .list .round (.word "if" :: .list .square (Condition.nested cond) :: body.nested ::
      other.nested)
  | .whileLoop cond body =>
    .list .round [.word "while", .list .square (Condition.nested cond), body.nested]
  | .forLoop init cond step body =>
    .list .round [.word "for", init.nested, .list .square (Condition.nested cond), step.nested,
      body.nested]
  | .function name params body _ =>
    .list .round [.word "fn", .word name, .list .round (params.map .word), body.nested]
  | .ret value inFunction _ =>
    .list .round (.word (if inFunction then "return" else "return!") ::
      value.toList.map Expr.nested)
  | .call name args _ => .list .round (.word "call" :: .word name :: Expr.nestedEach args)
  | .breakLoop _ => .list .round [.word "break"]
  | .continueLoop _ => .list .round [.word "continue"]

def Stmt.nestedEach : List Stmt → List Nested
  | [] => []
  | s :: ss => s.nested :: Stmt.nestedEach ss

def ElseBranch.nested : ElseBranch → List Nested
  | .absent => []
  | .elseIf cond body next =>
    [.list .round (.word "elif" :: .list .square (Condition.nested cond) :: body.nested ::
      next.nested)]
  | .otherwise body => [.list .round [.word "else", body.nested]]

end

end Nested

section Text

mutual

theorem Expr.toList_render : (e : Expr) → e.render.toList = e.nested.text
  | .int _ | .ident .. => by simp [Expr.render, Expr.nested]
  | .paren inner => by rw [Expr.render, Expr.nested, Expr.toList_render inner]
  | .call _ args _ => by simp [Expr.render, Expr.nested, Expr.toList_renderEach args]
  | .bin _ lhs rhs => by
    simp [Expr.render, Expr.nested, Expr.toList_render lhs, Expr.toList_render rhs]

theorem Expr.toList_renderEach : (es : List Expr) →
    (Expr.renderEach es).toList = Nested.textEach (Expr.nestedEach es)
  | [] => by simp [Expr.renderEach, Expr.nestedEach]
  | e :: es => by
    simp [Expr.renderEach, Expr.nestedEach, Expr.toList_render e, Expr.toList_renderEach es]

end

theorem Link.toList_render (k : Link) : k.render.toList = k.nested.text := by
  obtain ⟨lhs, comparison, connector⟩ := k
  cases comparison with
  | none => exact Expr.toList_render lhs
  | some c => simp [Link.render, Link.nested, Expr.toList_render]

theorem Condition.toList_renderRest (cond : Condition) :
    (Condition.renderRest cond).toList = Nested.textEach (Condition.nestedRest cond) := by
  induction cond with
  | nil => simp [Condition.renderRest, Condition.nestedRest]
  | cons k rest ih => simp [Condition.renderRest, Condition.nestedRest, Link.toList_render, ih]

theorem Condition.toList_render (cond : Condition) :
    (Condition.render cond).toList = (Nested.textEach (Condition.nested cond)).tail := by
  cases cond with
  | nil => simp [Condition.render, Condition.nested]
  | cons first rest =>
    simp [Condition.render, Condition.nested, Link.toList_render, Condition.toList_renderRest]

theorem PrintItem.toList_render (item : PrintItem) : item.render.toList = item.nested.text := by
  cases item with
  | str text => rw [PrintItem.render, PrintItem.nested, Nested.text]
  | expr value => exact Expr.toList_render value

theorem PrintItem.toList_renderEach (items : List PrintItem) :
    (String.join (items.map fun s => " " ++ s.render)).toList =
      Nested.textEach (items.map PrintItem.nested) := by
  rw [Nested.textEach_eq, String.toList_join, List.flatMap_map, List.flatMap_map]
  exact List.flatMap_congr fun item _ => by simp [PrintItem.toList_render]

theorem Nested.intercalate_words (names : List String) :
    [' '].intercalate (names.map String.toList) = (textEach (names.map .word)).tail := by
  rw [textEach_eq, ← joined, ← intercalate_text, List.map_map]
  exact congrArg _ (List.map_congr_left fun name _ => by simp)

mutual

/-- A statement is written as its nested list is. -/
theorem Stmt.toList_render : (s : Stmt) → s.render.toList = s.nested.text
  | .exit none | .breakLoop _ | .continueLoop _ => by simp [Stmt.render, Stmt.nested]
  | .exit (some _) | .letVar .. | .assign .. => by
    simp [Stmt.render, Stmt.nested, Expr.toList_render]
  | .block body => by simp [Stmt.render, Stmt.nested, Stmt.toList_renderEach body]
  | .print items => by simp [Stmt.render, Stmt.nested, PrintItem.toList_renderEach items]
  | .ifElse cond body other => by
    simp [Stmt.render, Stmt.nested, Condition.toList_render, Stmt.toList_render body,
      ElseBranch.toList_render other]
  | .whileLoop cond body => by
    simp [Stmt.render, Stmt.nested, Condition.toList_render, Stmt.toList_render body]
  | .forLoop init cond step body => by
    simp [Stmt.render, Stmt.nested, Condition.toList_render, Stmt.toList_render init,
      Stmt.toList_render step, Stmt.toList_render body]
  | .function name params body line => by
    simp [Stmt.render, Stmt.nested, Nested.intercalate_words, Stmt.toList_render body]
  | .ret value inFunction _ => by
    cases value <;> cases inFunction <;> simp [Stmt.render, Stmt.nested, Expr.toList_render]
  | .call _ args _ => by simp [Stmt.render, Stmt.nested, Expr.toList_renderEach args]

theorem Stmt.toList_renderEach : (ss : List Stmt) →
    (Stmt.renderEach ss).toList = Nested.textEach (Stmt.nestedEach ss)
  | [] => by simp [Stmt.renderEach, Stmt.nestedEach]
  | s :: ss => by
    simp [Stmt.renderEach, Stmt.nestedEach, Stmt.toList_render s, Stmt.toList_renderEach ss]

theorem ElseBranch.toList_render : (other : ElseBranch) →
    other.render.toList = Nested.textEach other.nested
  | .absent => by simp [ElseBranch.render, ElseBranch.nested]
  | .elseIf cond body next => by
    simp [ElseBranch.render, ElseBranch.nested, Condition.toList_render, Stmt.toList_render body,
      ElseBranch.toList_render next]
  | .otherwise body => by simp [ElseBranch.render, ElseBranch.nested, Stmt.toList_render body]

end

/-- The text of a program is that of its statements' nested lists, one a line. -/
theorem Program.toList_render (p : Program) :
    p.render.toList = Nested.joined '\n' (Stmt.nestedEach p) := by
  have hn : p.map (fun s => s.render.toList) = (Stmt.nestedEach p).map Nested.text := by
    induction p with
    | nil => rfl
    | cons s ss ih => rw [List.map_cons, ih, Stmt.nestedEach, List.map_cons, s.toList_render]
  rw [← Nested.intercalate_text, ← hn]
  simp [Program.render, Function.comp_def]

end Text

section Names

/-- A letter or an underscore, and after it letters, digits and underscores. -/
def isWord (text : String) : Bool :=
  text.toList.head?.any Piece.isWordStart && text.toList.all Piece.isWordChar

mutual

/-- The names of variables and functions in an expression. -/
def Expr.names : Expr → List String
  | .int _ => []
  | .ident name _ => [name]
  | .paren inner => inner.names
  | .call name args _ => name :: Expr.namesEach args
  | .bin _ lhs rhs => lhs.names ++ rhs.names

def Expr.namesEach : List Expr → List String
  | [] => []
  | e :: es => e.names ++ Expr.namesEach es

end

def Condition.names (cond : Condition) : List String := Expr.namesEach (Condition.exprs cond)

mutual

/-- The names of variables, functions and parameters in a statement. -/
def Stmt.names : Stmt → List String
  | .exit value => Expr.namesEach value.toList
  | .letVar name value _ => name :: value.names
  | .assign name value _ => name :: value.names
  | .block body => Stmt.namesEach body
  | .print items => Expr.namesEach (PrintItem.exprs items)
  | .ifElse cond body other => Condition.names cond ++ (body.names ++ other.names)
  | .whileLoop cond body => Condition.names cond ++ body.names
  | .forLoop init cond step body =>
    init.names ++ (Condition.names cond ++ (step.names ++ body.names))
  | .function name params body _ => name :: (params ++ body.names)
  | .ret value _ _ => Expr.namesEach value.toList
  | .call name args _ => name :: Expr.namesEach args
  | .breakLoop _ => []
  | .continueLoop _ => []

def Stmt.namesEach : List Stmt → List String
  | [] => []
  | s :: ss => s.names ++ Stmt.namesEach ss

def ElseBranch.names : ElseBranch → List String
  | .absent => []
  | .elseIf cond body next => Condition.names cond ++ (body.names ++ next.names)
  | .otherwise body => body.names

end

def Program.names (p : Program) : List String := Stmt.namesEach p

end Names

section Tidy

open Nested

theorem isPlain_of_isWord {w : String} (h : isWord w) : IsPlain w := by
  have hall : (openers ++ closers).all (fun c => !Piece.isWordChar c) := by decide
  obtain ⟨hhead, hchars⟩ := Bool.and_eq_true_iff.1 h
  refine ⟨?_, fun c hc => ?_⟩
  · rintro rfl
    cases hhead
  · have hw := List.all_eq_true.1 hchars c hc
    rw [List.all_append, Bool.and_eq_true_iff, List.all_eq_true, List.all_eq_true] at hall
    exact ⟨fun hm => by simpa [hw] using hall.1 c hm, fun hm => by simpa [hw] using hall.2 c hm⟩

theorem isWordStart_signed (value : Int) :
    ∀ c ∈ (Numeral.signed value).toList, Piece.isWordStart c = false := by
  have hall : ∀ d < 10, Piece.isWordStart (Numeral.digit d) = false := by decide
  intro c hc
  rcases Numeral.mem_signed value c hc with rfl | ⟨d, hd, rfl⟩
  · rfl
  · exact hall d hd

theorem isPlain_signed (value : Int) : IsPlain (Numeral.signed value) := by
  have hall : ∀ d < 10, Numeral.digit d ∉ openers ∧ Numeral.digit d ∉ closers := by decide
  have hne : (Numeral.signed value).toList ≠ [] := by
    cases value <;> simp [Numeral.signed, Numeral.decimal, Numeral.digits_ne_nil]
  refine ⟨fun he => hne (by rw [he]; rfl), fun c hc => ?_⟩
  · rcases Numeral.mem_signed value c hc with rfl | ⟨d, hd, rfl⟩
    · decide
    · exact hall d hd

theorem BinOp.isPlain_render (op : BinOp) : IsPlain op.render := by cases op <;> decide

theorem Comparison.isPlain_render (cmp : Comparison) : IsPlain cmp.render := by cases cmp <;> decide

theorem Connector.isPlain_render (con : Connector) : IsPlain con.render := by cases con <;> decide

mutual

theorem Expr.nested_tidy : (e : Expr) → (∀ name ∈ e.names, isWord name) → e.nested.Tidy
  | .int value, _ => isPlain_signed _
  | .ident name _, h => isPlain_of_isWord (h name (by simp [Expr.names]))
  | .paren inner, h => Expr.nested_tidy inner h
  | .call name args _, h => by
    rw [Expr.names, List.forall_mem_cons] at h
    exact ⟨(by decide : IsPlain _), isPlain_of_isWord h.1, Expr.nestedEach_tidy args h.2⟩
  | .bin op lhs rhs, h => by
    rw [Expr.names, List.forall_mem_append] at h
    exact ⟨op.isPlain_render, Expr.nested_tidy lhs h.1, Expr.nested_tidy rhs h.2, trivial⟩

theorem Expr.nestedEach_tidy : (es : List Expr) → (∀ name ∈ Expr.namesEach es, isWord name) →
    TidyEach (Expr.nestedEach es)
  | [], _ => trivial
  | e :: es, h => by
    rw [Expr.namesEach, List.forall_mem_append] at h
    exact ⟨Expr.nested_tidy e h.1, Expr.nestedEach_tidy es h.2⟩

end

theorem Expr.namesEach_eq (es : List Expr) : Expr.namesEach es = es.flatMap Expr.names := by
  induction es with
  | nil => rfl
  | cons e es ih => rw [Expr.namesEach, ih, List.flatMap_cons]

variable {k : Link} {cond : Condition}

theorem Link.nested_tidy (h : ∀ name ∈ Expr.namesEach k.exprs, isWord name) : k.nested.Tidy := by
  obtain ⟨lhs, comparison, connector⟩ := k
  cases comparison with
  | none =>
    refine Expr.nested_tidy lhs fun name hm => h name ?_
    simpa [Link.exprs, Expr.namesEach] using hm
  | some c =>
    simp only [Link.exprs, Expr.namesEach, List.append_nil, List.forall_mem_append] at h
    exact ⟨c.1.isPlain_render, Expr.nested_tidy lhs h.1, Expr.nested_tidy c.2 h.2, trivial⟩

theorem Condition.forall_names :
    (∀ name ∈ Condition.names cond, isWord name) ↔
      ∀ k ∈ cond, ∀ name ∈ Expr.namesEach k.exprs, isWord name := by
  simp only [Condition.names, Condition.exprs, Expr.namesEach_eq, List.flatMap_assoc,
    List.forall_mem_flatMap]

theorem Condition.nested_tidy (h : ∀ name ∈ Condition.names cond, isWord name) :
    TidyEach (Condition.nested cond) := by
  rw [Condition.forall_names] at h
  have hrest (rest : Condition) (hr : ∀ k ∈ rest, k.nested.Tidy) : TidyEach (nestedRest rest) := by
    induction rest with
    | nil => trivial
    | cons k rest ih =>
      rw [List.forall_mem_cons] at hr
      exact ⟨k.connector.isPlain_render, hr.1, ih hr.2⟩
  cases cond with
  | nil => trivial
  | cons first rest =>
    rw [List.forall_mem_cons] at h
    exact ⟨Link.nested_tidy h.1, hrest rest fun k hk => Link.nested_tidy (h.2 k hk)⟩

theorem PrintItem.nested_tidy {items : List PrintItem}
    (h : ∀ name ∈ Expr.namesEach (PrintItem.exprs items), isWord name) :
    TidyEach (items.map PrintItem.nested) := by
  induction items with
  | nil => trivial
  | cons item items ih =>
    cases item with
    | str text => exact ⟨trivial, ih h⟩
    | expr value =>
      have hs : PrintItem.exprs (.expr value :: items) = value :: PrintItem.exprs items := rfl
      rw [hs, Expr.namesEach, List.forall_mem_append] at h
      exact ⟨Expr.nested_tidy value h.1, ih h.2⟩

theorem Expr.tidy_option {value : Option Expr}
    (h : ∀ name ∈ Expr.namesEach value.toList, isWord name) :
    TidyEach (value.toList.map Expr.nested) := by
  cases value with
  | none => trivial
  | some e =>
    refine ⟨Expr.nested_tidy e fun name hm => h name ?_, trivial⟩
    simpa [Expr.namesEach] using hm

theorem Nested.tidy_words {names : List String} (h : ∀ name ∈ names, isWord name) :
    TidyEach (names.map .word) := by
  rw [tidyEach_iff, List.forall_mem_map]
  exact fun name hm => isPlain_of_isWord (h name hm)

mutual

theorem Stmt.nested_tidy : (s : Stmt) → (∀ name ∈ s.names, isWord name) → s.nested.Tidy
  | .exit value, h => ⟨(by decide : IsPlain _), Expr.tidy_option h⟩
  | .letVar name value _, h => by
    rw [Stmt.names, List.forall_mem_cons] at h
    exact ⟨(by decide : IsPlain _), isPlain_of_isWord h.1, Expr.nested_tidy value h.2, trivial⟩
  | .assign name value _, h => by
    rw [Stmt.names, List.forall_mem_cons] at h
    exact ⟨(by decide : IsPlain _), isPlain_of_isWord h.1, Expr.nested_tidy value h.2, trivial⟩
  | .block body, h => ⟨(by decide : IsPlain _), Stmt.nestedEach_tidy body h⟩
  | .print items, h => ⟨(by decide : IsPlain _), PrintItem.nested_tidy h⟩
  | .ifElse cond body other, h => by
    rw [Stmt.names, List.forall_mem_append, List.forall_mem_append] at h
    exact ⟨(by decide : IsPlain _), Condition.nested_tidy h.1, Stmt.nested_tidy body h.2.1,
      ElseBranch.nested_tidy other h.2.2⟩
  | .whileLoop cond body, h => by
    rw [Stmt.names, List.forall_mem_append] at h
    exact ⟨(by decide : IsPlain _), Condition.nested_tidy h.1, Stmt.nested_tidy body h.2, trivial⟩
  | .forLoop init cond step body, h => by
    rw [Stmt.names, List.forall_mem_append, List.forall_mem_append, List.forall_mem_append] at h
    exact ⟨(by decide : IsPlain _), Stmt.nested_tidy init h.1, Condition.nested_tidy h.2.1,
      Stmt.nested_tidy step h.2.2.1, Stmt.nested_tidy body h.2.2.2, trivial⟩
  | .function name params body _, h => by
    rw [Stmt.names, List.forall_mem_cons, List.forall_mem_append] at h
    exact ⟨(by decide : IsPlain _), isPlain_of_isWord h.1, Nested.tidy_words h.2.1,
      Stmt.nested_tidy body h.2.2, trivial⟩
  | .ret value inFunction _, h =>
    ⟨(by cases inFunction <;> decide : IsPlain (if inFunction then _ else _)), Expr.tidy_option h⟩
  | .call name args _, h => by
    rw [Stmt.names, List.forall_mem_cons] at h
    exact ⟨(by decide : IsPlain _), isPlain_of_isWord h.1, Expr.nestedEach_tidy args h.2⟩
  | .breakLoop _, _ => ⟨(by decide : IsPlain _), trivial⟩
  | .continueLoop _, _ => ⟨(by decide : IsPlain _), trivial⟩

theorem Stmt.nestedEach_tidy : (ss : List Stmt) → (∀ name ∈ Stmt.namesEach ss, isWord name) →
    TidyEach (Stmt.nestedEach ss)
  | [], _ => trivial
  | s :: ss, h => by
    rw [Stmt.namesEach, List.forall_mem_append] at h
    exact ⟨Stmt.nested_tidy s h.1, Stmt.nestedEach_tidy ss h.2⟩

theorem ElseBranch.nested_tidy : (other : ElseBranch) → (∀ name ∈ other.names, isWord name) →
    TidyEach other.nested
  | .absent, _ => trivial
  | .elseIf cond body next, h => by
    rw [ElseBranch.names, List.forall_mem_append, List.forall_mem_append] at h
    exact ⟨⟨(by decide : IsPlain _), Condition.nested_tidy h.1, Stmt.nested_tidy body h.2.1,
      ElseBranch.nested_tidy next h.2.2⟩, trivial⟩
  | .otherwise body, h => ⟨⟨(by decide : IsPlain _), Stmt.nested_tidy body h, trivial⟩, trivial⟩

end

end Tidy

end Stackwise
