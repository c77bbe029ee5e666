import Stackwise.Proofs.StmtGrammar

/-! Two runs of the productions, side by side.  A likeness says which tokens, failures and trees of
two runs count as alike, and trees have to be that are built alike.  Here are the rules by which two
productions are seen to end alike on tokens that are alike, one for each way to put productions
together.  The second run may have more tokens behind those of the first; then the runs are compared
only where the first has a token left, for a production sees the end of its tokens. -/
namespace Stackwise

/-- The kinds of token whose text is read. -/
def TokenKind.hasText : TokenKind → Bool
  | intLit | ident | fnName => true
  | _ => false

section Parts

variable (E : Expr → Expr → Prop)

structure Link.Alike (k k' : Link) : Prop where
  lhs : E k.lhs k'.lhs
  comparison : Option.Rel (fun c c' => c.1 = c'.1 ∧ E c.2 c'.2) k.comparison k'.comparison
  connector : k.connector = k'.connector

/-- The first link of a condition that is read counts as joined by `&&`. -/
structure Condition.Alike (cond cond' : Condition) : Prop where
  links : List.Forall₂ (Link.Alike E) cond cond'
  first : ∃ first rest, cond = first :: rest ∧ first.connector = .and

inductive PrintItem.Alike : PrintItem → PrintItem → Prop
  | str (text : String) : Alike (.str text) (.str text)
  | expr {e e' : Expr} (h : E e e') : Alike (.expr e) (.expr e')

variable {E}

theorem Link.Alike.exprs {k k' : Link} (h : Link.Alike E k k') :
    List.Forall₂ E k.exprs k'.exprs := by
  obtain ⟨hl, hc, -⟩ := h
  unfold Link.exprs
  generalize k.comparison = c, k'.comparison = c' at hc
  cases hc with
  | some hc => exact .cons hl (.cons hc.2 .nil)
  | none => exact .cons hl .nil

theorem Condition.Alike.exprs {cond cond' : Condition} (h : Condition.Alike E cond cond') :
    List.Forall₂ E (Condition.exprs cond) (Condition.exprs cond') := by
  obtain ⟨hs, -⟩ := h
  induction hs with
  | nil => exact .nil
  | cons hk _ ih => exact List.rel_append hk.exprs ih

theorem Condition.Alike.ne_nil {cond cond' : Condition} (h : Condition.Alike E cond cond') :
    cond ≠ [] := by
  obtain ⟨first, rest, rfl, -⟩ := h.first
  exact List.cons_ne_nil first rest

theorem PrintItem.Alike.exprs {items items' : List PrintItem}
    (h : List.Forall₂ (PrintItem.Alike E) items items') :
    List.Forall₂ E (PrintItem.exprs items) (PrintItem.exprs items') := by
  induction h with
  | nil => exact .nil
  | cons hi _ ih =>
    cases hi with
    | str => exact ih
    | expr he => exact .cons he ih

end Parts

/-- Expressions that the productions make, alike, of tokens and expressions that are alike. -/
inductive Expr.Built (T : Token → Token → Prop) (E : Expr → Expr → Prop) : Expr → Expr → Prop
  | int {t u : Token} {text : String} {value : Int64} : T t u → t.kind = .intLit →
    t.literal = some text → Numeral.int64? text = some value → Built T E (.int value) (.int value)
  | one : Built T E (.int 1) (.int 1)
  | ident {t u : Token} {name : String} : T t u → t.kind = .ident → t.literal = some name →
    Built T E (.ident name t.line) (.ident name u.line)
  | call {t u : Token} {name : String} {args args' : List Expr} : T t u → t.kind = .fnName →
    t.literal = some name → List.Forall₂ E args args' →
    Built T E (.call name args t.line) (.call name args' u.line)
  | paren {e e' : Expr} : E e e' → Built T E (.paren e) (.paren e')
  | minus {e e' : Expr} : E e e' →
    Built T E (.paren (.bin .mul e (.int (-1)))) (.paren (.bin .mul e' (.int (-1))))
  | bin {op : BinOp} {lhs lhs' rhs rhs' : Expr} : E lhs lhs' → E rhs rhs' →
    Built T E (.bin op lhs rhs) (.bin op lhs' rhs')

/-- Statements that the productions make, in a function or outside of all.  What a `print` is made
of also depends on the tokens that it was read off. -/
inductive Stmt.Built (T : Token → Token → Prop) (E : Expr → Expr → Prop)
    (S : Bool → Stmt → Stmt → Prop) (B : Bool → ElseBranch → ElseBranch → Prop) (b : Bool) :
    Stmt → Stmt → Prop
  | exit {value value' : Option Expr} : Option.Rel E value value' →
    Built T E S B b (.exit value) (.exit value')
  | letVar {t u : Token} {name : String} {e e' : Expr} : T t u → E e e' →
    (e.mentions.find? fun m => m.1 == name) = none →
    Built T E S B b (.letVar name e t.line) (.letVar name e' u.line)
  | assign {t u : Token} {name : String} {e e' : Expr} : T t u → E e e' →
    Built T E S B b (.assign name e t.line) (.assign name e' u.line)
  | call {t u : Token} {name : String} {args args' : List Expr} : T t u →
    List.Forall₂ E args args' → Built T E S B b (.call name args t.line) (.call name args' u.line)
  | print {ts us rest : List Token} {items items' : List PrintItem} : List.Forall₂ T ts us →
    Parse.printStmt ts = .ok (.print items) rest → List.Forall₂ (PrintItem.Alike E) items items' →
    Built T E S B b (.print items) (.print items')
  | block {body body' : List Stmt} : body ≠ [] → List.Forall₂ (S b) body body' →
    Built T E S B b (.block body) (.block body')
  | ifElse {cond cond' : Condition} {body body' : Stmt} {other other' : ElseBranch} :
    Condition.Alike E cond cond' → S b body body' → B b other other' →
    Built T E S B b (.ifElse cond body other) (.ifElse cond' body' other')
  | whileLoop {cond cond' : Condition} {body body' : Stmt} : Condition.Alike E cond cond' →
    S b body body' → Built T E S B b (.whileLoop cond body) (.whileLoop cond' body')
  | forLoop {init init' step step' body body' : Stmt} {cond cond' : Condition} : init.isInit →
    step.isStep → S b init init' → Condition.Alike E cond cond' → S b step step' →
    S b body body' →
    Built T E S B b (.forLoop init cond step body) (.forLoop init' cond' step' body')
  | function {t u : Token} {name : String} {params : List String} {body body' : Stmt} : T t u →
    t.kind = .fnName → t.literal = some name → params.Nodup → S true body body' →
    Built T E S B b (.function name params body t.line) (.function name params body' u.line)
  | ret {t u : Token} {value value' : Option Expr} : T t u → Option.Rel E value value' →
    Built T E S B b (.ret value b t.line) (.ret value' b u.line)
  | breakLoop {t u : Token} : T t u → Built T E S B b (.breakLoop t.line) (.breakLoop u.line)
  | continueLoop {t u : Token} : T t u →
    Built T E S B b (.continueLoop t.line) (.continueLoop u.line)

inductive ElseBranch.Built (E : Expr → Expr → Prop) (S : Stmt → Stmt → Prop)
    (B : ElseBranch → ElseBranch → Prop) : ElseBranch → ElseBranch → Prop
  | absent : Built E S B .absent .absent
  | elseIf {cond cond' : Condition} {body body' : Stmt} {next next' : ElseBranch} :
    Condition.Alike E cond cond' → S body body' → B next next' →
    Built E S B (.elseIf cond body next) (.elseIf cond' body' next')
  | otherwise {body body' : Stmt} : S body body' → Built E S B (.otherwise body) (.otherwise body')

/-- What counts as alike.  Trees that are built alike have to be. -/
structure Likeness where
  token : Token → Token → Prop
  line : Nat → Nat → Prop
  fault : Fault → Fault → Prop
  expr : Expr → Expr → Prop
  /-- Statements in a function or outside of all. -/
  stmt : Bool → Stmt → Stmt → Prop
  branch : Bool → ElseBranch → ElseBranch → Prop
  /-- What stands behind the tokens of the second run. -/
  more : List Token
  kind_eq {t u : Token} : token t u → t.kind = u.kind
  literal_eq {t u : Token} : token t u → t.literal = u.literal
  line_of {t u : Token} : token t u → line t.line u.line
  fails {cause : Cause} {l l' : Option Nat} : cause.kind ≠ .internal → Option.Rel line l l' →
    fault ⟨cause, l⟩ ⟨cause, l'⟩
  /-- Both runs miss a text. -/
  misses {t u : Token} : token t u → t.kind.hasText → t.literal = none →
    fault ⟨.tokenWithoutText t.kind, some t.line⟩ ⟨.tokenWithoutText t.kind, some u.line⟩
  mention {e e' : Expr} (name : String) : expr e e' → Option.Rel (fun m m' => line m.2 m'.2)
    (e.mentions.find? fun m => m.1 == name) (e'.mentions.find? fun m => m.1 == name)
  ofExpr {e e' : Expr} : Expr.Built token expr e e' → expr e e'
  ofStmt {b : Bool} {s s' : Stmt} : Stmt.Built token expr stmt branch b s s' → stmt b s s'
  ofBranch {b : Bool} {other other' : ElseBranch} :
    ElseBranch.Built expr (stmt b) (branch b) other other' → branch b other other'

namespace Likeness

section Lists

variable {α : Type} {R : α → α → Prop} {P : α → Prop} {xs ys : List α} {x y : Option α}

theorem forall_of_forall₂ (h : List.Forall₂ R xs ys) (hp : ∀ a b, R a b → P a) : ∀ a ∈ xs, P a := by
  have hand := h.imp fun a b hab => And.intro (hp a b hab) hab
  exact ((List.forall₂_and_left xs ys).1 hand).1

theorem eq_of_forall₂ (h : List.Forall₂ R xs ys) (hp : ∀ a b, R a b → a = b) : xs = ys := by
  rw [← List.forall₂_eq_eq_eq]
  exact h.imp hp

theorem forall₂_toList (h : Option.Rel R x y) : List.Forall₂ R x.toList y.toList := by
  cases h with
  | some h => exact .cons h .nil
  | none => exact .nil

theorem rel_self (h : ∀ a ∈ x, R a a) : Option.Rel R x x := by
  cases x with
  | none => exact .none
  | some a => exact .some (h a rfl)

end Lists

theorem eq_of_built {T : Token → Token → Prop} {E : Expr → Expr → Prop} {e e' : Expr}
    (h : Expr.Built T E e e') (ht : ∀ t u, T t u → t = u) (he : ∀ e e', E e e' → e = e') :
    e = e' := by
  cases h with
  | int | one => rfl
  | ident h => rw [ht _ _ h]
  | call h _ _ hs => rw [ht _ _ h, eq_of_forall₂ hs he]
  | paren h | minus h => rw [he _ _ h]
  | bin hl hr => rw [he _ _ hl, he _ _ hr]

end Likeness

/-- What holds of all that is read off tokens of some kind. -/
structure Trait where
  token : Token → Prop
  expr : Expr → Prop
  /-- Of statements in a function or outside of all. -/
  stmt : Bool → Stmt → Prop
  branch : Bool → ElseBranch → Prop
  ofExpr {e e' : Expr} :
    Expr.Built (fun t u => t = u ∧ token t) (fun e e' => e = e' ∧ expr e) e e' → expr e
  ofStmt {b : Bool} {s s' : Stmt} : Stmt.Built (fun t u => t = u ∧ token t)
    (fun e e' => e = e' ∧ expr e) (fun b s _ => stmt b s) (fun b other _ => branch b other) b s s' →
    stmt b s
  ofBranch {b : Bool} {other other' : ElseBranch} : ElseBranch.Built (fun e e' => e = e' ∧ expr e)
    (fun s _ => stmt b s) (fun other _ => branch b other) other other' → branch b other

/-- A run is compared with itself. -/
def Trait.likeness (T : Trait) : Likeness where
  token t u := t = u ∧ T.token t
  line _ _ := True
  fault _ _ := True
  expr e e' := e = e' ∧ T.expr e
  stmt b s _ := T.stmt b s
  branch b other _ := T.branch b other
  more := []
  kind_eq h := by rw [h.1]
  literal_eq h := by rw [h.1]
  line_of _ := trivial
  fails _ _ := trivial
  misses _ _ _ := trivial
  mention name h := by
    rw [h.1]
    exact Likeness.rel_self fun _ _ => trivial
  ofExpr h := ⟨Likeness.eq_of_built h (fun _ _ h => h.1) fun _ _ h => h.1, T.ofExpr h⟩
  ofStmt := T.ofStmt
  ofBranch := T.ofBranch

namespace Likeness

open Parse

variable {α β : Type}

def Tokens (L : Likeness) (ts us : List Token) : Prop :=
  ∃ us', us = us' ++ L.more ∧ List.Forall₂ L.token ts us'

/-- Where the first run has `rest` left, the second has as much left and maybe more.  If it has
more and the first has nothing left, the runs are compared only if `last` holds. -/
def Compared (L : Likeness) (last : Prop) (rest : List Token) : Prop :=
  L.more = [] ∨ rest ≠ [] ∨ last

/-- Two runs end alike.  The first has taken at least `k` of the tokens `ts`.  Failures are compared
only if the second run has no more tokens than the first. -/
inductive Ends (L : Likeness) (last : Prop) (k : Nat) (A : α → α → Prop) (ts : List Token) :
    EStateM.Result Fault (List Token) α → EStateM.Result Fault (List Token) α → Prop
  | ok {a a' : α} {rest : List Token} {y : EStateM.Result Fault (List Token) α} :
    A a a' → rest.length + k ≤ ts.length →
    (L.Compared last rest → ∃ rest', y = .ok a' rest' ∧ L.Tokens rest rest') →
    Ends L last k A ts (.ok a rest) y
  | error {e : Fault} {rest : List Token} {y : EStateM.Result Fault (List Token) α} :
    (L.more = [] → ∃ e' rest', y = .error e' rest' ∧ L.fault e e') →
    Ends L last k A ts (.error e rest) y

def AlikeOn (L : Likeness) (ts us : List Token) (last : Prop) (k : Nat) (A : α → α → Prop)
    (p q : Parse α) : Prop :=
  L.Ends last k A ts (p ts) (q us)

/-- Two productions end alike on tokens that are alike, at most `b` of them. -/
def Alike (L : Likeness) (last : Prop) (b k : Nat) (A : α → α → Prop) (p q : Parse α) : Prop :=
  ∀ ts us, L.Tokens ts us → ts.length ≤ b → L.Ends last k A ts (p ts) (q us)

/-- Bounds of two runs.  They differ only if the second has more tokens. -/
structure Bounds (L : Likeness) (n m : Nat) : Prop where
  le : n ≤ m
  eq : L.more = [] → n = m

variable {L : Likeness}

namespace Tokens

variable {ts us : List Token}

theorem nil : L.Tokens [] L.more := ⟨[], rfl, .nil⟩

theorem cases (h : L.Tokens ts us) : ts = [] ∧ us = L.more ∨
    ∃ t u ts' us', ts = t :: ts' ∧ us = u :: us' ∧ L.token t u ∧ L.Tokens ts' us' := by
  obtain ⟨us', rfl, h⟩ := h
  cases h with
  | nil => exact .inl ⟨rfl, rfl⟩
  | cons ht h => exact .inr ⟨_, _, _, _, rfl, rfl, ht, _, rfl, h⟩

theorem bounds (h : L.Tokens ts us) : L.Bounds ts.length us.length := by
  obtain ⟨us', rfl, h⟩ := h
  rw [List.length_append, h.length_eq]
  exact ⟨Nat.le_add_right _ _, fun hm => by rw [hm, List.length_nil, Nat.add_zero]⟩

theorem kinds_eq (h : L.Tokens ts us) :
    us.map Token.kind = ts.map Token.kind ++ L.more.map Token.kind := by
  obtain ⟨us', rfl, h⟩ := h
  rw [List.map_append]
  congr 1
  induction h with
  | nil => rfl
  | cons ht _ ih => rw [List.map_cons, List.map_cons, L.kind_eq ht, ih]

theorem head_line (h : L.Tokens ts us) (hm : L.more = []) :
    Option.Rel L.line (ts.head?.map Token.line) (us.head?.map Token.line) := by
  rcases h.cases with ⟨rfl, rfl⟩ | ⟨t, u, ts, us, rfl, rfl, ht, -⟩
  · rw [hm]
    exact .none
  · exact .some (L.line_of ht)

theorem head_kind (h : L.Tokens ts us) (hc : L.more = [] ∨ ts ≠ []) :
    ts.head?.map Token.kind = us.head?.map Token.kind := by
  rcases h.cases with ⟨rfl, rfl⟩ | ⟨t, u, ts, us, rfl, rfl, ht, -⟩
  · rw [hc.resolve_right (absurd rfl)]
  · exact congrArg some (L.kind_eq ht)

end Tokens

theorem Bounds.succ {n m : Nat} (h : L.Bounds (n + 1) m) : ∃ m', m = m' + 1 ∧ L.Bounds n m' := by
  obtain ⟨m, rfl⟩ := Nat.exists_eq_add_of_le' (Nat.zero_lt_of_lt h.le)
  exact ⟨m, rfl, Nat.le_of_succ_le_succ h.le, fun hm => Nat.succ.inj (h.eq hm)⟩

theorem Bounds.zero {m : Nat} (h : L.Bounds 0 m) : m = 0 ∨ L.more ≠ [] := by
  by_cases hm : L.more = []
  · exact .inl (h.eq hm).symm
  · exact .inr hm

section Rules

variable {last last' : Prop} {b k j : Nat} {A A' : α → α → Prop} {B : β → β → Prop}
  {p q : Parse α} {f g : α → Parse β} {ts us rest : List Token}
  {x y y' : EStateM.Result Fault (List Token) α}

theorem Ends.later (h : L.Ends last (j - k) A rest x y) (hk : rest.length + k ≤ ts.length) :
    L.Ends last j A ts x y := by
  cases h with
  | ok ha hl hy => exact .ok ha (by omega) hy
  | error hy => exact .error hy

theorem Ends.imp (h : L.Ends last k A ts x y) (ha : ∀ a a', A a a' → A' a a') :
    L.Ends last k A' ts x y := by
  cases h with
  | ok h hk hy => exact .ok (ha _ _ h) hk hy
  | error hy => exact .error hy

theorem Ends.mono (h : L.Ends last k A ts x y) (hj : j ≤ k) : L.Ends last j A ts x y := by
  cases h with
  | ok ha hl hy => exact .ok ha (by omega) hy
  | error hy => exact .error hy

/-- Where the first run leaves nothing and the second goes on, nothing is asked of the second. -/
theorem Ends.at_end (h : L.Ends last k A ts x y) (hm : L.more ≠ []) (hk : ts.length ≤ k)
    (hl : last → ts.length < k) : L.Ends last k A ts x y' := by
  cases h with
  | error => exact .error fun h => absurd h hm
  | ok ha hr hy =>
    refine .ok ha hr fun hc => ?_
    rcases hc with h | h | h
    · exact absurd h hm
    · exact absurd (List.eq_nil_of_length_eq_zero (by omega)) h
    · exact absurd (hl h) (by omega)

namespace AlikeOn

/-- The second part starts with a token left if it ends with one left, or if it takes one. -/
theorem bind_of (h : L.AlikeOn ts us last' k A p q)
    (hf : ∀ b' a a', b' + k ≤ ts.length → A a a' → L.Alike last b' (j - k) B (f a) (g a'))
    (hl : last → last' ∨ k < j) : L.AlikeOn ts us last j B (p >>= f) (q >>= g) := by
  change L.Ends last j B ts (EStateM.bind p f ts) (EStateM.bind q g us)
  unfold AlikeOn at h
  unfold EStateM.bind
  generalize p ts = x, q us = y at h
  cases h with
  | error hy =>
    refine .error fun hm => ?_
    obtain ⟨e', rest', rfl, he⟩ := hy hm
    exact ⟨e', rest', rfl, he⟩
  | @ok a a' rest _ ha hk hy =>
    have hnext (us' : List Token) (h : L.Tokens rest us') :
        L.Ends last (j - k) B rest (f a rest) (g a' us') :=
      hf rest.length a a' hk ha rest us' h le_rfl
    by_cases hc : L.Compared last' rest
    · obtain ⟨rest', rfl, hr⟩ := hy hc
      exact (hnext rest' hr).later hk
    · -- The first run is at its end, so its second part takes nothing.
      obtain ⟨hm, rfl, hl'⟩ : L.more ≠ [] ∧ rest = [] ∧ ¬ last' := by simpa [Compared] using hc
      refine ((hnext L.more .nil).at_end hm (Nat.zero_le _) fun h => ?_).later hk
      exact Nat.sub_pos_of_lt ((hl h).resolve_left hl')

theorem peek_bind {f g : Option TokenKind → Parse β} (ht : L.Tokens ts us) (hk : last → 0 < k)
    (h : L.AlikeOn ts us last k B (f (ts.head?.map Token.kind)) (g (ts.head?.map Token.kind))) :
    L.AlikeOn ts us last k B (peek >>= f) (peek >>= g) := by
  change L.Ends last k B ts (f _ ts) (g _ us)
  by_cases hc : L.more = [] ∨ ts ≠ []
  · rw [← ht.head_kind hc]
    exact h
  · obtain ⟨hm, rfl⟩ : L.more ≠ [] ∧ ts = [] := by simpa using hc
    exact Ends.at_end h hm (Nat.zero_le k) hk

end AlikeOn

namespace Alike

theorem bind (hp : L.Alike last b k A p q)
    (hf : ∀ b' a a', b' + k ≤ b → A a a' → L.Alike last b' (j - k) B (f a) (g a')) :
    L.Alike last b j B (p >>= f) (q >>= g) :=
  fun ts us ht hb => AlikeOn.bind_of (hp ts us ht hb)
    (fun b' a a' h => hf b' a a' (h.trans hb)) .inl

/-- Before a part that takes a token, it is enough to be alike where a token is left. -/
theorem before (hp : L.Alike False b k A p q)
    (hf : ∀ b' a a', b' + k ≤ b → A a a' → L.Alike last b' (j - k) B (f a) (g a')) (hj : k < j) :
    L.Alike last b j B (p >>= f) (q >>= g) :=
  fun ts us ht hb => AlikeOn.bind_of (hp ts us ht hb)
    (fun b' a a' h => hf b' a a' (h.trans hb)) fun _ => .inr hj

theorem imp (h : L.Alike last b k A p q) (ha : ∀ a a', A a a' → A' a a') :
    L.Alike last b k A' p q :=
  fun ts us ht hb => (h ts us ht hb).imp ha

theorem within {b' : Nat} (h : L.Alike last b k A p q) (hb : b' ≤ b) : L.Alike last b' k A p q :=
  fun ts us ht hl => h ts us ht (hl.trans hb)

theorem mono (h : L.Alike last b k A p q) (hj : j ≤ k) : L.Alike last b j A p q :=
  fun ts us ht hb => (h ts us ht hb).mono hj

/-- Productions that are alike at the end as well are alike where a token is left. -/
theorem weaken (h : L.Alike last b k A p q) : L.Alike False b k A p q := by
  intro ts us ht hb
  have hr := h ts us ht hb
  generalize p ts = x, q us = y at hr
  cases hr with
  | ok h hk hy => exact .ok h hk fun hc => hy (hc.imp_right (Or.imp_right False.elim))
  | error hy => exact .error hy

/-- What was read was read off tokens. -/
theorem origin (h : L.Alike last b k A p q) :
    L.Alike last b k (fun a a' => A a a' ∧
      ∃ ts us rest, List.Forall₂ L.token ts us ∧ p ts = .ok a rest) p q := by
  intro ts us ht hb
  have hr := h ts us ht hb
  obtain ⟨us', -, ht⟩ := ht
  cases hp : p ts with
  | ok a rest =>
    rw [hp] at hr
    cases hr with
    | ok h hk hy => exact .ok ⟨h, ts, us', rest, ht, hp⟩ hk hy
  | error e rest =>
    rw [hp] at hr
    cases hr with
    | error hy => exact .error hy

theorem pure {a a' : α} (h : A a a') : L.Alike last b 0 A (Pure.pure a) (Pure.pure a') :=
  fun _ us ht _ => .ok h le_rfl fun _ => ⟨us, rfl, ht⟩

theorem map {g g' : α → β} (h : L.Alike last b k A p q) (hg : ∀ a a', A a a' → B (g a) (g' a')) :
    L.Alike last b k B (g <$> p) (g' <$> q) := by
  rw [map_eq_pure_bind, map_eq_pure_bind]
  exact h.bind fun _ a a' _ ha => (Nat.sub_self k).symm ▸ pure (hg a a' ha)

theorem fail {cause : Cause} {l l' : Nat} (h : cause.kind ≠ .internal) (hl : L.line l l') :
    L.Alike last b k A (Parse.fail cause l) (Parse.fail cause l') :=
  fun _ us _ _ => .error fun _ => ⟨_, us, rfl, L.fails h (.some hl)⟩

theorem refuse {cause : Cause} (h : cause.kind ≠ .internal) :
    L.Alike last b k A (Parse.refuse cause) (Parse.refuse cause) :=
  fun _ us ht _ => .error fun hm => ⟨_, us, rfl, L.fails h (ht.head_line hm)⟩

theorem expected {what : Expectation} :
    L.Alike last b k A (Parse.expected what) (Parse.expected what) := by
  intro ts us ht _
  refine .error fun hm => ⟨_, us, rfl, ?_⟩
  rw [ht.head_kind (.inl hm)]
  exact L.fails (by simp [Cause.kind]) (ht.head_line hm)

/-- With the bound used up, the second run can only go on if it has more tokens. -/
theorem expected_spent {what : Expectation} {m : Nat} {q : Nat → Parse α} (hm : L.Bounds 0 m)
    (hq : q 0 = Parse.expected what) : L.Alike last b k A (Parse.expected what) (q m) := by
  rcases hm.zero with rfl | hne
  · rw [hq]
    exact expected
  · exact fun _ _ _ _ => .error fun h => absurd h hne

theorem pure_spent {m : Nat} {q : Nat → Parse α} {a a' : α} (hb : b ≤ 0) (hm : L.Bounds 0 m)
    (hq : q 0 = Pure.pure a') (h : A a a') : L.Alike False b 0 A (Pure.pure a) (q m) := by
  rcases hm.zero with rfl | hne
  · rw [hq]
    exact pure h
  · intro ts us _ hl
    obtain rfl := List.eq_nil_of_length_eq_zero (Nat.le_zero.1 (hl.trans hb))
    exact (pure h [] L.more .nil hl).at_end hne le_rfl False.elim

theorem peek_bind {f g : Option TokenKind → Parse β} (hk : last → 0 < k)
    (h : ∀ kind, L.Alike last b k B (f kind) (g kind)) :
    L.Alike last b k B (peek >>= f) (peek >>= g) :=
  fun ts us ht hb => AlikeOn.peek_bind ht hk (h _ ts us ht hb)

theorem remaining_bind {f g : List Token → Parse β}
    (h : ∀ ts us, L.Tokens ts us → ts.length ≤ b → L.Alike last ts.length k B (f ts) (g us)) :
    L.Alike last b k B (remaining >>= f) (remaining >>= g) :=
  fun ts us ht hb => h ts us ht hb ts us ht le_rfl

theorem skip : L.Alike False b 0 Eq Parse.skip Parse.skip := by
  intro ts us ht _
  rcases ht.cases with ⟨rfl, rfl⟩ | ⟨t, u, ts, us, rfl, rfl, -, ht⟩
  · refine .ok rfl le_rfl fun hc => ?_
    have hm : L.more = [] := hc.resolve_right (by simp)
    refine ⟨[], by rw [hm]; rfl, ?_⟩
    rw [hm] at ht
    exact ht
  · exact .ok rfl (Nat.le_succ _) fun _ => ⟨us, rfl, ht⟩

theorem expect {kind : TokenKind} : L.Alike last b 1 (fun t u => L.token t u ∧ t.kind = kind)
    (Parse.expect kind) (Parse.expect kind) := by
  intro ts us ht hb
  rcases ht.cases with ⟨rfl, rfl⟩ | ⟨t, u, ts, us, rfl, rfl, h, hr⟩
  · refine .error fun hm => ⟨_, [], by rw [hm]; rfl, ?_⟩
    exact L.fails (by simp [Cause.kind]) .none
  · rw [Parse.expect, Parse.expect, ← L.kind_eq h]
    split
    next hk => exact .ok ⟨h, hk⟩ le_rfl fun _ => ⟨us, rfl, hr⟩
    next => exact expected _ _ ht hb

/-- The text and the line of a token that is asked for its text. -/
inductive Word (L : Likeness) (kind : TokenKind) : String × Nat → String × Nat → Prop
  | of {t u : Token} {text : String} : L.token t u → t.kind = kind → t.literal = some text →
    Word L kind (text, t.line) (text, u.line)

theorem expectText {kind : TokenKind} (hk : kind.hasText) :
    L.Alike last b 1 (Word L kind) (Parse.expectText kind) (Parse.expectText kind) := by
  refine expect.bind ?_
  rintro b' t u - ⟨h, rfl⟩
  rw [← L.literal_eq h]
  cases hl : t.literal with
  | some text => exact pure (.of h rfl hl)
  | none => exact fun _ us _ _ => .error fun _ => ⟨_, us, rfl, L.misses h hk hl⟩

/-- A token that was not there may be one of those that follow, unless one more is taken anyway. -/
theorem accept_bind {kind : TokenKind} {f g : Bool → Parse β}
    (hl : last → 0 < k ∨ L.more.head?.map Token.kind ≠ some kind)
    (ht : ∀ b', b' + 1 ≤ b → L.Alike last b' (k - 1) B (f true) (g true))
    (hf : L.Alike last b k B (f false) (g false)) :
    L.Alike last b k B (accept kind >>= f) (accept kind >>= g) := by
  intro ts us h hb
  by_cases hk : ts.head?.map Token.kind = some kind
  · rcases h.cases with ⟨rfl, rfl⟩ | ⟨t, u, ts, us, rfl, rfl, htu, hr⟩
    · cases hk
    · have ht' : t.kind = kind := Option.some.inj hk
      rw [bind_of_ok (accept_cons ht'), bind_of_ok (accept_cons (L.kind_eq htu ▸ ht'))]
      exact (ht ts.length hb ts us hr le_rfl).later le_rfl
  · rw [bind_of_ok (accept_of_ne hk)]
    by_cases hk' : us.head?.map Token.kind = some kind
    · -- The second run takes a token that the first does not have.
      have hne : ¬ (L.more = [] ∨ ts ≠ []) := fun hc => hk ((h.head_kind hc).trans hk')
      obtain ⟨hm, rfl⟩ : L.more ≠ [] ∧ ts = [] := by simpa using hne
      obtain ⟨us', rfl, ⟨⟩⟩ := h
      refine (hf [] L.more .nil hb).at_end hm (Nat.zero_le k) fun h => ?_
      exact (hl h).resolve_right (absurd hk')
    · rw [bind_of_ok (accept_of_ne hk')]
      exact hf ts us h hb

end Alike

end Rules

end Likeness

end Stackwise
