import Stackwise.Proofs.Tracking

/-! Reading from one list of tokens, call after call.  What a reader does on statements is what the
productions do, and the depth that it counts is what the productions are told.  From there on one
call is a step of two machines side by side, and any calls before it are a run of these. -/
namespace Stackwise

theorem Token.find?_mentions (name : String) (ts : List Token) :
    (mentions ts).find? (fun m => m.1 == name) =
      (ts.find? fun t => t.kind = .ident ∧ t.literal = some name).map fun t => (name, t.line) := by
  induction ts with
  | nil => rfl
  | cons t ts ih =>
    by_cases hk : t.kind = .ident
    · cases hl : t.literal with
      | none =>
        have ht : t.mention? = none := by simp [mention?, hl]
        rw [mentions, List.filterMap_cons_none ht, List.find?_cons_of_neg (by simp [hl])]
        exact ih
      | some text =>
        have ht : t.mention? = some (text, t.line) := by simp [mention?, hk, hl]
        rw [mentions, List.filterMap_cons_some ht]
        by_cases hn : text = name
        · rw [List.find?_cons_of_pos (by simp [hn]),
            List.find?_cons_of_pos (by simp [hk, hl, hn]), hn]
          rfl
        · rw [List.find?_cons_of_neg (by simp [hn]), List.find?_cons_of_neg (by simp [hl, hn])]
          exact ih
    · rw [mentions_cons _ hk, List.find?_cons_of_neg (by simp [hk])]
      exact ih

namespace Stmt

/-- Every `return` inside is marked by whether it is in a function. -/
def Marked (inFunction : Bool) (s : Stmt) : Prop :=
  ∀ b value marked line, s.Holds inFunction b (.ret value marked line) → marked = b

theorem marked_node {inFunction : Bool} {s : Stmt}
    (hs : ∀ value marked line, s = .ret value marked line → marked = inFunction)
    (hp : ∀ t ∈ s.parts, t.Marked (inFunction || s.isFunction)) : s.Marked inFunction := by
  intro b value marked line h
  rcases h.split with ⟨rfl, he⟩ | ⟨t, ht, hh⟩
  · exact hs value marked line he.symm
  · exact hp t ht b value marked line hh

theorem marked_leaf {inFunction : Bool} {s : Stmt} (hp : s.parts = [])
    (hs : ∀ value marked line, s ≠ .ret value marked line) : s.Marked inFunction :=
  marked_node (fun value marked line he => absurd he (hs value marked line)) (by simp [hp])

end Stmt

/-- What is read, whatever the tokens, has its `return`s marked. -/
def Trait.marked : Trait where
  token _ := True
  expr _ := True
  stmt := Stmt.Marked
  branch b other := ∀ s ∈ other.parts, s.Marked b
  ofExpr _ := trivial
  ofStmt h := by
    cases h with
    | block _ hb =>
      refine Stmt.marked_node (by simp) ?_
      simpa [Stmt.parts, Stmt.isFunction] using Likeness.forall_of_forall₂ hb fun _ _ h => h
    | ifElse _ hb ho =>
      refine Stmt.marked_node (by simp) ?_
      simpa [Stmt.parts, Stmt.isFunction] using ⟨hb, ho⟩
    | whileLoop _ hb =>
      refine Stmt.marked_node (by simp) ?_
      simpa [Stmt.parts, Stmt.isFunction] using hb
    | forLoop _ _ hi _ ht hb =>
      refine Stmt.marked_node (by simp) ?_
      simpa [Stmt.parts, Stmt.isFunction] using ⟨hi, ht, hb⟩
    | function _ _ _ _ hb =>
      refine Stmt.marked_node (by simp) ?_
      simpa [Stmt.parts, Stmt.isFunction] using hb
    | ret => exact Stmt.marked_node (by simp) (by simp [Stmt.parts])
    | _ => exact Stmt.marked_leaf rfl (by simp)
  ofBranch h := by
    cases h with
    | absent => exact List.forall_mem_nil _
    | elseIf _ hb hn => exact List.forall_mem_cons.2 ⟨hb, hn⟩
    | otherwise hb => exact List.forall_mem_singleton.2 hb

/-- What was passed over since `r` is what a reader cuts out. -/
theorem Reading.slice_moved {r : Reader} {used rest : List Token} (hr : r.index ≤ r.tokens.length)
    (h : r.rest = used ++ rest) :
    Reading.slice r.index (r.moved rest).index (r.moved rest) = .ok used (r.moved rest) := by
  have hi := Reader.index_moved hr h
  have hb : (r.moved rest).index ≤ r.tokens.length := Nat.sub_le _ _
  have ht : (r.moved rest).tokens = r.tokens := rfl
  rw [Reading.slice, ht, if_pos ⟨by omega, hb⟩, hi, List.drop_take, Nat.add_sub_cancel_left]
  change EStateM.Result.ok (r.rest.take used.length) _ = _
  rw [h, List.take_left]

/-- Inside a function there is one function more, and outside again it is forgotten. -/
theorem Tracks.nested {α : Type} {d b k : Nat} {P : α → List Token → Prop} {m : Reading α}
    {p : Parse α} (h : Tracks (d + 1) b k P m p) : Tracks d b k P (Reading.nested m) p := by
  intro r hr
  have ht := h { r with depth := r.depth + 1 } ⟨hr.index, congrArg (· + 1) hr.depth, hr.rest⟩
  have hs : m { r with depth := r.depth + 1 } = Reader.took _ (p r.rest) := ht.same
  refine ⟨?_, ht.takes⟩
  rw [Reading.nested, hs]
  cases p r.rest <;> rfl

section Statements

variable {d b n : Nat}

namespace Tracks

theorem option_bind {β : Type} {j : Nat} {Q : β → List Token → Prop} {q : Prop} [Decidable q]
    {f : Option Expr → Reading β} {g : Option Expr → Parse β} (hn : b < n)
    (hf : ∀ b' value used, b' ≤ b →
      Tracks d b' j (fun s used' => Q s (used ++ used')) (f value) (g value)) :
    Tracks d b j Q (if q then Pure.pure none >>= f else some <$> Reading.expr n >>= f)
      (if q then Pure.pure none >>= g else some <$> Parse.expr >>= g) := by
  split
  · have hnone : Tracks d b 0 (fun (_ : Option Expr) _ => True) (Pure.pure none)
        (Pure.pure none) := .pure trivial
    exact hnone.bind fun b₁ value used h₁ _ => hf b₁ value used h₁
  · rw [map_eq_pure_bind, map_eq_pure_bind, bind_assoc, bind_assoc]
    refine ((expr hn).mono (Nat.zero_le 1) fun _ _ h => h).bind fun b₁ value used h₁ _ => ?_
    rw [pure_bind, pure_bind]
    exact hf b₁ (some value) used h₁

theorem exitStmt (hn : b ≤ n) :
    Tracks d b 1 (fun _ _ => True) (Reading.exitStmt n) Parse.exitStmt := by
  refine expect.bind fun b₁ _ _ h₁ _ => expect.bind fun b₂ _ _ h₂ _ => peek_bind fun kind => ?_
  refine option_bind (n := n) (by omega) fun b₃ value _ h₃ => ?_
  exact expect.bind fun _ _ _ _ _ => expect.bind fun _ _ _ _ _ => .pure trivial

theorem letStmt (hn : b ≤ n) :
    Tracks d b 1 (fun _ _ => True) (Reading.letStmt n) Parse.letStmt := by
  refine expect.bind fun b₁ _ _ h₁ _ => expectText.bind ?_
  rintro b₂ ⟨name, line⟩ _ h₂ -
  refine expect.bind fun b₃ _ _ h₃ _ => ?_
  intro r hr
  have hvalue := expr (n := n) (by omega) r hr
  refine TracksAt.of_eq (hvalue.bind fun value u₁ rest₁ he₁ _ hu₁ => ?_) rfl rfl
  refine (expect (r.moved rest₁) (hr.moved he₁)).bind fun t u₂ rest₂ he₂ _ hu₂ => ?_
  rw [Reader.rest_moved he₁] at he₂
  have he : r.rest = (u₁ ++ u₂) ++ rest₂ := by rw [he₁, he₂, List.append_assoc]
  have hcut : Reading.slice r.index (r.moved rest₂).index (r.moved rest₂) =
      .ok (u₁ ++ u₂) (r.moved rest₂) := Reading.slice_moved hr.index he
  have hfind := Token.find?_mentions name (u₁ ++ u₂)
  rw [Token.mentions_append, Token.mentions_of_kind (by decide) hu₂.2, List.append_nil,
    ← hu₁] at hfind
  rw [hfind]
  have hfit : (r.moved rest₂).Fits d rest₂.length := hr.moved he
  cases hf : (u₁ ++ u₂).find? fun t => t.kind = .ident ∧ t.literal = some name with
  | some t =>
    refine (Tracks.fail (r.moved rest₂) hfit).of_eq ((Reading.bind_of_ok hcut).trans ?_) rfl
    rw [hf]
  | none =>
    refine (Tracks.pure trivial (r.moved rest₂) hfit).of_eq ((Reading.bind_of_ok hcut).trans ?_) rfl
    rw [hf]

theorem amount (hn : b < n) :
    Tracks d b 0 (fun _ _ => True) (Reading.amount n) Parse.amount := by
  have hexpr : Tracks d b 0 (fun _ _ => True) (Reading.expr n) Parse.expr :=
    (expr hn).mono (Nat.zero_le 1) fun _ _ _ => trivial
  refine peek_bind fun kind => ?_
  rcases kind with _ | kind
  · exact .pure trivial
  cases kind
  case semi => exact .pure trivial
  case closeParen => exact .pure trivial
  all_goals exact hexpr

theorem update (hn : b < n) (op : BinOp) (name : String) (line : Nat) :
    Tracks d b 0 (fun _ _ => True) (Reading.update n op name line)
      (Parse.update op name line) := by
  refine skip.bind fun b₁ _ _ h₁ _ => skip.bind fun b₂ _ _ h₂ _ => ?_
  exact (amount (by omega)).bind fun _ _ _ _ _ => .pure trivial

theorem assignment (hn : b ≤ n) :
    Tracks d b 1 (fun _ _ => True) (Reading.assignment n) Parse.assignment := by
  refine peek_bind fun kind => ?_
  split
  · refine expectText.bind ?_
    rintro b₁ ⟨name, line⟩ used h₁ -
    exact ((expr (by omega)).arguments (by omega) rfl).bind fun _ _ _ _ _ => .pure trivial
  · refine expectText.bind ?_
    rintro b₁ ⟨name, line⟩ used h₁ - r hr
    have hupdate (op : BinOp) := update (d := d) (b := b₁) (n := n) (by omega) op name line
    refine .of_eq ?_ ((Reading.bind_of_ok (Reading.peek_eq r 0)).trans
      (Reading.bind_of_ok (Reading.peek_eq r 1))) Parse.remaining_bind
    rcases r.rest with _ | ⟨t, ts⟩
    · exact expected r hr
    simp only [List.getElem?_cons_zero, List.getElem?_cons_succ, Option.map_some, List.map_cons]
    cases t.kind
    case eq =>
      refine skip.bind (fun b₂ _ _ h₂ _ => ?_) r hr
      exact (expr (by omega)).bind fun _ _ _ _ _ => .pure trivial
    case plus | minus =>
      rcases ts with _ | ⟨t', ts⟩
      · exact expected r hr
      simp only [List.getElem?_cons_zero, Option.map_some, List.map_cons]
      cases t'.kind
      case eq => exact hupdate _ r hr
      all_goals exact expected r hr
    all_goals exact expected r hr

theorem assignmentStmt (hn : b ≤ n) :
    Tracks d b 1 (fun _ _ => True) (Reading.assignmentStmt n) Parse.assignmentStmt :=
  (assignment hn).bind fun _ _ _ _ hs => expect.bind fun _ _ _ _ _ => .pure hs

theorem printItem (hn : b < n) :
    Tracks d b 1 (fun _ _ => True) (Reading.printItem n) Parse.printItem := by
  intro r hr
  rcases Reading.eat_eq .stringLit hr.index with
    ⟨⟨kind, literal, line⟩, rest, he, rfl, heat⟩ | ⟨hk, heat⟩
  · have hp : Parse.printItem r.rest = .ok (.str (literal.getD "")) rest := by
      rw [he]
      rfl
    refine ⟨(Reading.bind_of_ok heat).trans (by rw [hp]; rfl), ?_⟩
    rw [hp]
    exact ⟨[_], he, le_rfl, trivial⟩
  · have hexpr : Tracks d b 1 (fun _ _ => True)
        (Reading.expr n >>= fun e => Pure.pure (PrintItem.expr e))
        (Parse.expr >>= fun e => Pure.pure (PrintItem.expr e)) :=
      (expr hn).bind fun _ _ _ _ _ => .pure trivial
    refine (hexpr r hr).of_eq (Reading.bind_of_ok heat) ?_
    rcases he : r.rest with _ | ⟨⟨kind, literal, line⟩, rest⟩
    · rfl
    rw [he] at hk
    cases kind
    case stringLit => exact absurd rfl hk
    all_goals rfl

theorem printItems {n₀ n m : Nat} (h₀ : b < n₀) (hn : b < n) (hm : b ≤ m) :
    Tracks d b 0 (fun _ _ => True) (Reading.printItems n₀ n) (Parse.printItems m) := by
  induction n generalizing b m with
  | zero => exact absurd hn (Nat.not_lt_zero b)
  | succ n ih =>
    refine .of_succ hm (fun m hm => ?_) rfl
    refine accept.bind fun b₁ more _ h₁ _ => ?_
    cases more with
    | true =>
      refine (printItem (by omega)).bind fun b₂ _ _ h₂ _ => ?_
      exact (ih (by omega) (by omega) (by omega)).bind fun _ _ _ _ _ => .pure trivial
    | false => exact .pure trivial

theorem printStmt (hn : b ≤ n) :
    Tracks d b 1 (fun _ _ => True) (Reading.printStmt n) Parse.printStmt := by
  refine expect.bind fun b₁ _ _ h₁ _ => expect.bind fun b₂ _ _ h₂ _ => peek_bind fun kind => ?_
  have hend {b' : Nat} (items : List PrintItem) : Tracks d b' 0 (fun _ _ => True)
      (Reading.expect .closeParen >>= fun _ => Reading.expect .semi >>= fun _ =>
        Pure.pure (Stmt.print (Parse.endLine items)))
      (Parse.expect .closeParen >>= fun _ => Parse.expect .semi >>= fun _ =>
        Pure.pure (Stmt.print (Parse.endLine items))) :=
    expect.bind fun _ _ _ _ _ => expect.bind fun _ _ _ _ _ => .pure trivial
  dsimp only
  split
  · exact hend []
  · refine (printItem (by omega)).bind fun b₃ first _ h₃ _ => .remaining_bind fun ts hts => ?_
    refine (printItems (by omega) (by omega) le_rfl).bind fun b₄ items _ h₄ _ => ?_
    exact hend (first :: items)

theorem blockRest {stmt : Reading Stmt} {stmt' : Parse Stmt} {m : Nat}
    (h : Tracks d b 1 (fun _ _ => True) stmt stmt') (hn : b < n) (hm : b ≤ m) :
    Tracks d b 0 (fun _ _ => True) (Reading.blockRest stmt n)
      (Parse.blockRest stmt' m) := by
  induction n generalizing b m with
  | zero => exact absurd hn (Nat.not_lt_zero b)
  | succ n ih =>
    have hmore (m : Nat) (hm : b ≤ m + 1) : Tracks d b 0 (fun _ _ => True)
        (stmt >>= fun s => Reading.blockRest stmt n >>= fun body => Pure.pure (s :: body))
        (stmt' >>= fun s => Parse.blockRest stmt' m >>= fun body => Pure.pure (s :: body)) := by
      refine h.bind fun b₁ s _ h₁ _ => ?_
      exact (ih (h.within (by omega)) (by omega) (by omega)).bind fun _ _ _ _ _ => .pure trivial
    refine .of_succ hm (fun m hm => peek_bind fun kind => ?_) rfl
    rcases kind with _ | kind
    · exact expected
    cases kind
    case closeCurly => exact skip.bind fun _ _ _ _ _ => .pure trivial
    all_goals exact hmore m hm

theorem block {stmt : Reading Stmt} {stmt' : Parse Stmt}
    (h : ∀ b' < b, Tracks d b' 1 (fun _ _ => True) stmt stmt') (hn : b ≤ n) :
    Tracks d b 1 (fun _ _ => True) (Reading.block n stmt) (Parse.block stmt') := by
  refine expect.bind fun b₁ _ _ h₁ _ => peek_bind fun kind => ?_
  split
  · exact refuse
  · refine .remaining_bind fun ts hts => ?_
    exact ((h _ (by omega)).blockRest (by omega) le_rfl).bind fun _ _ _ _ _ => .pure trivial

theorem elseBranch {stmt : Reading Stmt} {stmt' : Parse Stmt} {n₀ m : Nat}
    (h : Tracks d b 1 (fun _ _ => True) stmt stmt') (h₀ : b < n₀) (hn : b < n) (hm : b ≤ m) :
    Tracks d b 0 (fun _ _ => True) (Reading.elseBranch n₀ stmt n)
      (Parse.elseBranch stmt' m) := by
  induction n generalizing b m with
  | zero => exact absurd hn (Nat.not_lt_zero b)
  | succ n ih =>
    refine .of_succ hm (fun m hm => accept.bind fun b₁ more _ h₁ _ => ?_) rfl
    cases more with
    | false => exact .pure trivial
    | true =>
      refine accept.bind fun b₂ chained _ h₂ _ => ?_
      cases chained with
      | true =>
        refine (parenCondition (by omega)).bind fun b₃ cond _ h₃ _ => ?_
        refine (h.within (by omega)).bind fun b₄ body _ h₄ _ => ?_
        exact (ih (h.within (by omega)) (by omega) (by omega) (by omega)).bind
          fun _ _ _ _ _ => .pure trivial
      | false => exact (h.within (by omega)).bind fun _ _ _ _ _ => .pure trivial

theorem ifStmt {stmt : Reading Stmt} {stmt' : Parse Stmt}
    (h : ∀ b' < b, Tracks d b' 1 (fun _ _ => True) stmt stmt') (hn : b ≤ n) :
    Tracks d b 1 (fun _ _ => True) (Reading.ifStmt n stmt) (Parse.ifStmt stmt') := by
  refine expect.bind fun b₁ _ _ h₁ _ => (parenCondition (by omega)).bind fun b₂ cond _ h₂ _ => ?_
  refine (h _ (by omega)).bind fun b₃ body _ h₃ _ => .remaining_bind fun ts hts => ?_
  exact ((h _ (by omega)).elseBranch (by omega) (by omega) le_rfl).bind
    fun _ _ _ _ _ => .pure trivial

theorem whileStmt {stmt : Reading Stmt} {stmt' : Parse Stmt}
    (h : ∀ b' < b, Tracks d b' 1 (fun _ _ => True) stmt stmt') (hn : b ≤ n) :
    Tracks d b 1 (fun _ _ => True) (Reading.whileStmt n stmt) (Parse.whileStmt stmt') := by
  refine expect.bind fun b₁ _ _ h₁ _ => (parenCondition (by omega)).bind fun b₂ cond _ h₂ _ => ?_
  exact (h _ (by omega)).bind fun _ _ _ _ _ => .pure trivial

theorem forInit (hn : b ≤ n) :
    Tracks d b 1 (fun _ _ => True) (Reading.forInit n) Parse.forInit := by
  refine peek_bind fun kind => ?_
  rcases kind with _ | kind
  · exact expected
  cases kind
  case kwLet => exact letStmt hn
  case ident => exact assignmentStmt hn
  all_goals exact expected

theorem forStmt {stmt : Reading Stmt} {stmt' : Parse Stmt}
    (h : ∀ b' < b, Tracks d b' 1 (fun _ _ => True) stmt stmt') (hn : b ≤ n) :
    Tracks d b 1 (fun _ _ => True) (Reading.forStmt n stmt) (Parse.forStmt stmt') := by
  refine expect.bind fun b₁ _ _ h₁ _ => expect.bind fun b₂ _ _ h₂ _ => ?_
  refine (forInit (by omega)).bind fun b₃ init _ h₃ _ => ?_
  refine (condition (by omega)).bind fun b₄ cond _ h₄ _ => expect.bind fun b₅ _ _ h₅ _ => ?_
  refine (assignment (by omega)).bind fun b₆ step _ h₆ _ => ?_
  refine accept.bind fun b₇ _ _ h₇ _ => expect.bind fun b₈ _ _ h₈ _ => ?_
  exact (h _ (by omega)).bind fun _ _ _ _ _ => .pure trivial

theorem paramsMore {function : String} {m : Nat} (hn : b < n) (hm : b ≤ m) (seen : List String) :
    Tracks d b 0 (fun _ _ => True) (Reading.paramsMore function n seen)
      (Parse.paramsMore function m seen) := by
  induction n generalizing b m seen with
  | zero => exact absurd hn (Nat.not_lt_zero b)
  | succ n ih =>
    refine .of_succ (p := fun m => Parse.paramsMore function m seen) hm (fun m hm => ?_) rfl
    refine expectText.bind ?_
    rintro b₁ ⟨name, line⟩ _ h₁ -
    dsimp only
    split
    · exact fail
    refine accept.bind fun b₂ closed _ h₂ _ => ?_
    cases closed with
    | true => exact .pure trivial
    | false =>
      refine expect.bind fun b₃ _ _ h₃ _ => ?_
      exact (ih (by omega) (by omega) (name :: seen)).bind fun _ _ _ _ _ => .pure trivial

theorem params (hn : b ≤ n) (function : String) :
    Tracks d b 0 (fun _ _ => True) (Reading.params n function) (Parse.params function) := by
  refine expect.bind fun b₁ _ _ h₁ _ => accept.bind fun b₂ closed _ h₂ _ => ?_
  cases closed with
  | true => exact .pure trivial
  | false => exact .remaining_bind fun ts hts => paramsMore (by omega) le_rfl []

theorem functionStmt {body : Reading Stmt} {body' : Parse Stmt}
    (h : ∀ b' < b, Tracks (d + 1) b' 1 (fun _ _ => True) body body') (hn : b ≤ n) :
    Tracks d b 1 (fun _ _ => True) (Reading.functionStmt n body)
      (Parse.functionStmt body') := by
  refine expect.bind fun b₁ _ _ h₁ _ => expectText.bind ?_
  rintro b₂ ⟨name, line⟩ _ h₂ -
  refine (params (by omega) name).bind fun b₃ names _ h₃ _ => ?_
  exact (h _ (by omega)).nested.bind fun _ _ _ _ _ => .pure trivial

/-- The depth says whether a `return` is in a function. -/
theorem returnStmt (hn : b ≤ n) :
    Tracks d b 1 (fun _ _ => True) (Reading.returnStmt n)
      (Parse.returnStmt (decide (0 < d))) := by
  refine expect.bind fun b₁ word _ h₁ _ => peek_bind fun kind => ?_
  refine option_bind (n := n) (by omega) fun b₂ value _ h₂ => expect.bind fun b₃ _ _ h₃ _ => ?_
  intro r hr
  refine (Tracks.pure trivial r hr).of_eq ?_ rfl
  rw [← hr.depth]
  rfl

theorem breakStmt : Tracks d b 1 (fun _ _ => True) Reading.breakStmt Parse.breakStmt :=
  expect.bind fun _ _ _ _ _ => expect.bind fun _ _ _ _ _ => .pure trivial

theorem continueStmt :
    Tracks d b 1 (fun _ _ => True) Reading.continueStmt Parse.continueStmt :=
  expect.bind fun _ _ _ _ _ => expect.bind fun _ _ _ _ _ => .pure trivial

theorem stmtWithin {m : Nat} (hn : b < n) (hm : b ≤ m) :
    Tracks d b 1 (fun _ _ => True) (Reading.stmt n)
      (Parse.stmtWithin m (decide (0 < d))) := by
  induction n generalizing d b m with
  | zero => exact absurd hn (Nat.not_lt_zero b)
  | succ n ih =>
    refine .of_succ (p := fun m => Parse.stmtWithin m (decide (0 < d))) hm (fun m hm => ?_) rfl
    have hn : b ≤ n := Nat.le_of_lt_succ hn
    -- A statement inside another comes after a token.  In a body the reader is one function deeper,
    -- and there the productions are told that they are in a function.
    have hstmt (b' : Nat) (hb : b' < b) : Tracks d b' 1 (fun _ _ => True)
        (Reading.stmt n) (Parse.stmtWithin m (decide (0 < d))) := ih (by omega) (by omega)
    have hbody (b' : Nat) (hb : b' < b) : Tracks (d + 1) b' 1 (fun _ _ => True)
        (Reading.stmt n) (Parse.stmtWithin m true) := by
      simpa using ih (d := d + 1) (b := b') (m := m) (by omega) (by omega)
    refine peek_bind fun kind => ?_
    rcases kind with _ | kind
    · exact expected
    cases kind
    case kwExit => exact exitStmt hn
    case kwLet => exact letStmt hn
    case openCurly => exact block hstmt hn
    case closeCurly => exact refuse
    case kwPrint => exact printStmt hn
    case kwIf => exact ifStmt hstmt hn
    case kwElse => exact refuse
    case kwWhile => exact whileStmt hstmt hn
    case kwFor => exact forStmt hstmt hn
    case kwFn => exact functionStmt hbody hn
    case kwReturn => exact returnStmt hn
    case kwBreak => exact breakStmt
    case kwContinue => exact continueStmt
    case ident | fnName => exact assignmentStmt hn
    all_goals exact expected

theorem stmt (hn : b < n) :
    Tracks 0 b 1 (fun _ _ => True) (Reading.stmt n) Parse.stmt :=
  .remaining_bind fun _ ht => stmtWithin (by omega) le_rfl

theorem blockStmt (hn : b < n) :
    Tracks 0 b 1 (fun _ _ => True) (Reading.blockStmt n) Parse.blockStmt :=
  block (fun _ hb => stmt (hb.trans hn)) hn.le

theorem programRest {n₀ m : Nat} (h₀ : b < n₀) (hn : b < n) (hm : b ≤ m) :
    Tracks 0 b 0 (fun _ _ => True) (Reading.programRest n₀ n)
      (Parse.programRest m) := by
  induction n generalizing b m with
  | zero => exact absurd hn (Nat.not_lt_zero b)
  | succ n ih =>
    refine .of_succ hm (fun m hm => peek_bind fun kind => ?_) rfl
    split
    · exact .pure trivial
    · refine (stmt h₀).bind fun b₁ s _ h₁ _ => ?_
      exact (ih (by omega) (by omega) (by omega)).bind fun _ _ _ _ _ => .pure trivial

theorem program (hn : b < n) :
    Tracks 0 b 0 (fun _ _ => True) (Reading.program n) Parse.program :=
  .remaining_bind fun _ ht => programRest (by omega) (by omega) le_rfl

end Tracks

/-- Reading a program goes on to the end of the tokens. -/
theorem Parse.programRest_eq_ok {m : Nat} {ts rest : List Token} {p : Program} (hm : ts.length ≤ m)
    (h : Parse.programRest m ts = .ok p rest) : rest = [] := by
  induction m generalizing ts p with
  | zero =>
    cases h
    exact List.eq_nil_of_length_eq_zero (Nat.le_zero.1 hm)
  | succ m ih =>
    rw [Parse.programRest, Parse.peek_bind] at h
    cases ts with
    | nil =>
      cases h
      rfl
    | cons t ts =>
      obtain ⟨s, mid, hs, h⟩ := Parse.bind_eq_ok.1 h
      obtain ⟨p, _, hp, h⟩ := Parse.bind_eq_ok.1 h
      cases h
      have htakes := (Tracks.stmt (Nat.lt_succ_self _) (Reader.ofTokens (t :: ts))
        ⟨Nat.zero_le _, rfl, le_rfl⟩).takes
      change Parse.Takes _ _ (t :: ts) (Parse.stmt (t :: ts)) at htakes
      rw [hs] at htakes
      obtain ⟨used, he, hl, -⟩ := htakes
      have hlen := congrArg List.length he
      rw [List.length_append] at hlen
      exact ih (by omega) hp

end Statements

inductive Call where
  | expr | condition | stmt | block | program
deriving DecidableEq, Repr

inductive Tree where
  | expr (e : Expr)
  | condition (cond : Condition)
  | stmt (s : Stmt)
  | program (p : Program)

def Tree.stmts : Tree → List Stmt
  | .expr _ => []
  | .condition _ => []
  | .stmt s => [s]
  | .program p => p

namespace Call

def parse : Call → Parse Tree
  | expr => .expr <$> Parse.expr
  | condition => .condition <$> Parse.condition
  | stmt => .stmt <$> Parse.stmt
  | block => .stmt <$> Parse.blockStmt
  | program => .program <$> Parse.program

def reading (n : Nat) : Call → Reading Tree
  | expr => .expr <$> Reading.expr n
  | condition => .condition <$> Reading.condition n
  | stmt => .stmt <$> Reading.stmt n
  | block => .stmt <$> Reading.blockStmt n
  | program => .program <$> Reading.program n

/-- How many tokens a call takes at least. -/
def least : Call → Nat
  | program => 0
  | _ => 1

end Call

/-- One call, and the calls of a list in turn.  A failure does not end them. -/
def Session.call (s : Session) (c : Call) : Except Error Tree × Session := s.read c.parse

def Session.after (s : Session) (cs : List Call) : Session := cs.foldl (fun s c => (s.call c).2) s

def Reader.call (n : Nat) (r : Reader) (c : Call) : Except Stop Tree × Reader :=
  match c.reading n r with
  | .ok tree r => (.ok tree, r)
  | .error stop r => (.error stop, r)

def Reader.after (n : Nat) (r : Reader) (cs : List Call) : Reader :=
  cs.foldl (fun r c => (r.call n c).2) r

theorem Session.read_map {α β : Type} (s : Session) (f : α → β) (p : Parse α) :
    (s.read (f <$> p)).1 = (s.read p).1.map f := by
  rw [map_eq_pure_bind, Session.read, Session.read]
  cases h : p s.rest with
  | ok a rest =>
    have hf : (p >>= fun a => pure (f a)) s.rest = .ok (f a) rest := Parse.bind_of_ok h
    rw [hf]
    rfl
  | error fault rest =>
    have hf : (p >>= fun a => pure (f a)) s.rest = .error fault rest :=
      Parse.bind_eq_error.2 (.inl h)
    rw [hf]
    rfl

theorem Tracks.map {α β : Type} {d b k : Nat} {P : α → List Token → Prop}
    {Q : β → List Token → Prop} {m : Reading α} {p : Parse α} {f : α → β} (h : Tracks d b k P m p)
    (hf : ∀ a used, P a used → Q (f a) used) : Tracks d b k Q (f <$> m) (f <$> p) := by
  rw [map_eq_pure_bind, map_eq_pure_bind]
  refine h.bind fun b₁ a used h₁ ha => ?_
  rw [Nat.sub_self]
  exact .pure (by rw [List.append_nil]; exact hf a used ha)

theorem Call.tracks {b n : Nat} (hn : b < n) (c : Call) :
    Tracks 0 b c.least (fun _ _ => True) (c.reading n) c.parse := by
  cases c with
  | expr => exact (Tracks.expr hn).map fun _ _ _ => trivial
  | condition => exact (Tracks.condition hn).map fun _ _ _ => trivial
  | stmt => exact (Tracks.stmt hn).map fun _ _ _ => trivial
  | block => exact (Tracks.blockStmt hn).map fun _ _ _ => trivial
  | program => exact (Tracks.program hn).map fun _ _ _ => trivial

/-- Whatever a call is answered, the `return`s in it are marked as outside of all functions. -/
theorem Call.marked {c : Call} {ts rest : List Token} {tree : Tree}
    (h : c.parse ts = .ok tree rest) : ∀ s ∈ tree.stmts, s.Marked false := by
  have halike : Trait.marked.likeness.Alike False ts.length 0
      (fun tree _ => ∀ s ∈ tree.stmts, s.Marked false) c.parse c.parse := by
    cases c with
    | expr =>
      exact (Likeness.Alike.expr.mono (Nat.zero_le 1)).map fun _ _ _ => List.forall_mem_nil _
    | condition =>
      exact (Likeness.Alike.condition.mono (Nat.zero_le 1)).map fun _ _ _ => List.forall_mem_nil _
    | stmt =>
      exact (Likeness.Alike.stmt.weaken.mono (Nat.zero_le 1)).map fun _ _ hs =>
        List.forall_mem_singleton.2 hs
    | block =>
      exact (Likeness.Alike.stmt.weaken.block.mono (Nat.zero_le 1)).map fun _ _ hs =>
        List.forall_mem_singleton.2 hs
    | program =>
      exact Likeness.Alike.program.map fun _ _ hp => Likeness.forall_of_forall₂ hp fun _ _ h => h
  exact Trait.holds halike (fun _ _ => trivial) h

namespace Reader

/-- A reader that stands where a session stands, in range and outside of all functions. -/
structure Keeps (ts : List Token) (r : Reader) (s : Session) : Prop where
  tokens : r.tokens = ts
  index : r.index ≤ ts.length
  depth : r.depth = 0
  rest : s.rest = ts.drop r.index
  endLine : s.endLine = (Session.ofTokens ts).endLine

theorem keeps_ofTokens (ts : List Token) : Keeps ts (ofTokens ts) (Session.ofTokens ts) :=
  ⟨rfl, Nat.zero_le _, rfl, rfl, rfl⟩

theorem keeps_moved {r : Reader} {used rest : List Token} (hd : r.depth = 0)
    (h : r.rest = used ++ rest) : Keeps r.tokens (r.moved rest) ⟨rest, r.endLine⟩ :=
  ⟨rfl, Nat.sub_le _ _, hd, (rest_moved h).symm, rfl⟩

theorem Keeps.call {ts : List Token} {r : Reader} {s : Session} {n : Nat} (h : Keeps ts r s)
    (hn : ts.length < n) (c : Call) :
    (r.call n c).1 = (s.call c).1.mapError .error ∧ Keeps ts (r.call n c).2 (s.call c).2 ∧
      r.index ≤ (r.call n c).2.index ∧
      ∀ tree, (s.call c).1 = .ok tree → (c ≠ .program → r.index < (r.call n c).2.index) ∧
        (c = .program → (r.call n c).2.index = ts.length) ∧
        ∀ st ∈ tree.stmts, st.Marked false := by
  obtain ⟨rest, endLine⟩ := s
  obtain ⟨rfl, hi, hd, hrest, hend⟩ := h
  obtain rfl : rest = r.rest := hrest
  obtain rfl : endLine = r.endLine := hend
  have hl : r.rest.length = r.tokens.length - r.index := List.length_drop
  obtain ⟨hs, ht⟩ := c.tracks hn r ⟨hi, hd, by omega⟩
  rw [Reader.call, hs, Session.call, Session.read]
  cases hp : c.parse r.rest with
  | error fault rest =>
    rw [hp] at ht
    obtain ⟨used, he⟩ := ht
    refine ⟨rfl, keeps_moved hd he.symm, ?_, fun tree hc => by cases hc⟩
    have := index_moved hi he.symm
    change r.index ≤ (r.moved rest).index
    omega
  | ok tree rest =>
    rw [hp] at ht
    obtain ⟨used, he, hu, -⟩ := ht
    have hindex := index_moved hi he
    refine ⟨rfl, keeps_moved hd he, ?_, ?_⟩
    · change r.index ≤ (r.moved rest).index
      omega
    · rintro _ ⟨⟩
      refine ⟨fun hc => ?_, ?_, Call.marked hp⟩
      · have hleast : c.least = 1 := by cases c <;> simp_all [Call.least]
        change r.index < (r.moved rest).index
        omega
      · rintro rfl
        rw [Call.parse, map_eq_pure_bind] at hp
        obtain ⟨p, mid, hp, hmid⟩ := Parse.bind_eq_ok.1 hp
        cases hmid
        rw [Parse.programRest_eq_ok le_rfl hp]
        rfl

theorem keeps_after {ts : List Token} {n : Nat} (hn : ts.length < n) (cs : List Call) :
    Keeps ts ((ofTokens ts).after n cs) ((Session.ofTokens ts).after cs) := by
  have hrun (cs : List Call) : ∀ r s, Keeps ts r s → Keeps ts (r.after n cs) (s.after cs) := by
    induction cs with
    | nil => exact fun r s h => h
    | cons c cs ih => exact fun r s h => ih _ _ (h.call hn c).2.1
  exact hrun cs _ _ (keeps_ofTokens ts)

/-- A reader that is asked for a program answers what the tokens are read as. -/
theorem call_program {ts : List Token} {n : Nat} (hn : ts.length < n) :
    ((ofTokens ts).call n .program).1 = ((Program.ofTokens ts).map Tree.program).mapError
      .error := by
  rw [((keeps_ofTokens ts).call hn .program).1]
  exact congrArg (Except.mapError Stop.error) (Session.read_map _ Tree.program Parse.program)

/-- However often a list of tokens has been read from, and whatever failed, a reader that is asked
once more answers what the session answers: it does not crash, and no bound above the number of
tokens stops it.  Its index stays in range and does not go back, and it goes on when something is
read; a program is read to the end.  The reader is outside of all functions before and after, so
only what is read as a function makes a `return` one that stands in a function. -/
theorem call_after (ts : List Token) (earlier : List Call) (call : Call) (spare : Nat) :
    let n := ts.length + 1 + spare
    let s := (Session.ofTokens ts).after earlier
    let r := (ofTokens ts).after n earlier
    let r' := (r.call n call).2
    (r.call n call).1 = (s.call call).1.mapError .error ∧
      (s.rest = ts.drop r.index ∧ (s.call call).2.rest = ts.drop r'.index) ∧
      (r.index ≤ r'.index ∧ r'.index ≤ ts.length) ∧ (r.depth = 0 ∧ r'.depth = 0) ∧
      ∀ tree, (s.call call).1 = .ok tree → (call ≠ .program → r.index < r'.index) ∧
        (call = .program → r'.index = ts.length) ∧ ∀ st ∈ tree.stmts, st.Marked false := by
  intro n s r r'
  have hn : ts.length < n := by omega
  have h : Keeps ts r s := keeps_after hn earlier
  obtain ⟨hsame, h', hle, hok⟩ := h.call hn call
  exact ⟨hsame, ⟨h.rest, h'.rest⟩, ⟨hle, h'.index⟩, ⟨h.depth, h'.depth⟩, hok⟩

/-- A function that breaks off after a `return`, and a `return` that comes after it. -/
def brokenFunction : List Token :=
  [⟨.kwFn, none, 1⟩, ⟨.fnName, some "f", 1⟩, ⟨.openParen, none, 1⟩, ⟨.closeParen, none, 1⟩,
    ⟨.kwReturn, none, 1⟩, ⟨.ident, none, 1⟩, ⟨.kwReturn, none, 2⟩, ⟨.semi, none, 2⟩]

example : ((ofTokens brokenFunction).call 9 .stmt).1 =
    .error (.error ⟨.tokenWithoutText .ident, 1⟩) := rfl

example : (((ofTokens brokenFunction).after 9 [.stmt]).call 9 .stmt).1 =
    .ok (.stmt (.ret none false 2)) := rfl

end Reader

end Stackwise
