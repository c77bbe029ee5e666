import Stackwise.Proofs.Likeness

/-! One walk through the productions, for every likeness: each of them ends alike on tokens that are
alike.  What holds of all that is read, that lines have no part in it, and that more tokens behind
do not change it are likenesses. -/
namespace Stackwise

namespace Likeness

open Parse

variable {L : Likeness}

section Expressions

variable {last : Prop} {b n m : Nat} {ts us : List Token}

/-- Which operator comes next is up to the kinds of two tokens. -/
theorem Tokens.operator? (h : L.Tokens ts us) (least : Nat) :
    operator? least ts = operator? least us ∨ L.more ≠ [] ∧
      (ts = [] ∨ ts.length = 1 ∧ ∃ op, Parse.operator? least ts = some op) := by
  by_cases hm : L.more = []
  · left
    rcases h.cases with ⟨rfl, rfl⟩ | ⟨t, u, ts, us, rfl, rfl, ht, hr⟩
    · rw [hm]
    · rw [Parse.operator?, Parse.operator?, L.kind_eq ht, hr.head_kind (.inl hm)]
  · rcases h.cases with ⟨rfl, rfl⟩ | ⟨t, u, ts, us, rfl, rfl, ht, hr⟩
    · exact .inr ⟨hm, .inl rfl⟩
    · by_cases hts : ts = []
      · subst hts
        cases ho : Parse.operator? least [t] with
        | some op => exact .inr ⟨hm, .inr ⟨rfl, op, rfl⟩⟩
        | none =>
          left
          symm
          rw [Option.eq_none_iff_forall_ne_some] at ho ⊢
          intro op hop
          obtain ⟨u', rest, he, hop, hprec, -⟩ := operator?_eq_some.1 hop
          obtain ⟨rfl, -⟩ := List.cons.inj he
          exact ho op (operator?_eq_some.2 ⟨t, [], rfl, by rw [L.kind_eq ht, hop], hprec, by simp⟩)
      · left
        rw [Parse.operator?, Parse.operator?, L.kind_eq ht, hr.head_kind (.inr hts)]

namespace Alike

theorem climbMore {term term' : Parse Expr} (h : L.Alike False b 1 L.expr term term') (hb : b ≤ n)
    (hm : L.Bounds n m) (least : Nat) {lhs lhs' : Expr} (hl : L.expr lhs lhs') :
    L.Alike False b 0 L.expr (Parse.climbMore term n least lhs)
      (Parse.climbMore term' m least lhs') := by
  induction n generalizing b m least lhs lhs' with
  | zero => exact pure_spent (q := fun m => Parse.climbMore term' m least lhs') hb hm rfl hl
  | succ n ih =>
    obtain ⟨m, rfl, hm'⟩ := hm.succ
    have hround (op : BinOp) : L.Alike False b 1 L.expr
        (Parse.skip >>= fun _ => term >>= fun first =>
          Parse.climbMore term n (op.precedence + 1) first >>= fun rhs =>
            Parse.climbMore term n least (.bin op lhs rhs))
        (Parse.skip >>= fun _ => term' >>= fun first =>
          Parse.climbMore term' m (op.precedence + 1) first >>= fun rhs =>
            Parse.climbMore term' m least (.bin op lhs' rhs)) :=
      skip.bind fun b₁ _ _ h₁ _ => (h.within (by omega)).bind fun b₂ first first' h₂ hf =>
        (ih (h.within (by omega)) (by omega) hm' _ hf).bind fun b₃ rhs rhs' h₃ hr =>
          ih (h.within (by omega)) (by omega) hm' _ (L.ofExpr (.bin hl hr))
    intro ts us ht hts
    rw [Parse.climbMore, Parse.climbMore, Parse.remaining_bind, Parse.remaining_bind]
    rcases ht.operator? least with ho | ⟨hne, rfl | ⟨hlen, op, ho⟩⟩
    · rw [← ho]
      cases Parse.operator? least ts with
      | none => exact pure hl ts us ht hts
      | some op => exact (hround op ts us ht hts).mono (Nat.zero_le 1)
    · exact (pure hl [] us ht hts).at_end hne le_rfl False.elim
    · rw [ho]
      exact ((hround op ts us ht hts).at_end hne hlen.le False.elim).mono (Nat.zero_le 1)

theorem climb {term term' : Parse Expr} (h : L.Alike False b 1 L.expr term term') (least : Nat) :
    L.Alike False b 1 L.expr (Parse.climb term least) (Parse.climb term' least) :=
  .remaining_bind fun _ _ ht hts => (h.within hts).bind fun _ _ _ _ hl =>
    (h.within (by omega)).climbMore (by omega) ht.bounds least hl

theorem argumentsMore {expr expr' : Parse Expr} (h : L.Alike False b 1 L.expr expr expr')
    (hm : L.Bounds n m) :
    L.Alike last b 2 (List.Forall₂ L.expr) (Parse.argumentsMore expr n)
      (Parse.argumentsMore expr' m) := by
  induction n generalizing b m with
  | zero => exact expected_spent hm rfl
  | succ n ih =>
    obtain ⟨m, rfl, hm'⟩ := hm.succ
    refine h.before (fun b₁ arg arg' h₁ ha => .accept_bind (fun _ => .inl one_pos)
      (fun _ _ => pure (.cons ha .nil)) (expect.bind fun b₂ _ _ h₂ _ => ?_)) one_lt_two
    exact (ih (h.within (by omega)) hm').bind fun _ _ _ _ hs =>
      pure (.cons ha hs)

theorem arguments {expr expr' : Parse Expr} (h : L.Alike False b 1 L.expr expr expr') :
    L.Alike last b 2 (List.Forall₂ L.expr) (Parse.arguments expr) (Parse.arguments expr') := by
  refine expect.bind fun b₁ _ _ h₁ _ => .accept_bind (fun _ => .inl one_pos)
    (fun _ _ => pure .nil) (.remaining_bind fun ts us ht hts => ?_)
  exact ((h.within (by omega)).argumentsMore ht.bounds).mono one_le_two

theorem intLiteral : L.Alike last b 1 L.expr Parse.intLiteral Parse.intLiteral := by
  refine (expectText rfl).bind ?_
  rintro b₁ _ _ - @⟨t, u, text, ht, hk, hl⟩
  dsimp only
  cases hv : Numeral.int64? text with
  | some value => exact pure (L.ofExpr (.int ht hk hl hv))
  | none => exact fail (by simp [Cause.kind]) (L.line_of ht)

theorem term (hm : L.Bounds n m) : L.Alike False b 1 L.expr (Parse.term n) (Parse.term m) := by
  induction n generalizing b m with
  | zero => exact expected_spent hm rfl
  | succ n ih =>
    obtain ⟨m, rfl, hm'⟩ := hm.succ
    have hterm {b : Nat} : L.Alike False b 1 L.expr (Parse.term n) (Parse.term m) := ih hm'
    refine .peek_bind False.elim fun kind => ?_
    split
    · exact intLiteral
    · refine (expectText rfl).bind ?_
      rintro b₁ _ _ - ⟨ht, hk, hl⟩
      exact pure (L.ofExpr (.ident ht hk hl))
    · refine (expectText rfl).bind ?_
      rintro b₁ _ _ - ⟨ht, hk, hl⟩
      exact (hterm.climb 0).arguments.bind fun _ _ _ _ hs =>
        pure (L.ofExpr (.call ht hk hl hs))
    · exact skip.bind fun _ _ _ _ _ => (hterm.climb 0).bind fun _ _ _ _ he =>
        expect.bind fun _ _ _ _ _ => pure (L.ofExpr (.paren he))
    · exact skip.bind fun _ _ _ _ _ => hterm.bind fun _ _ _ _ he => pure (L.ofExpr (.minus he))
    · exact expected

theorem expr : L.Alike False b 1 L.expr Parse.expr Parse.expr :=
  .remaining_bind fun _ _ ht _ => (term ht.bounds).climb 0

theorem comparison? : L.Alike False b 0 Eq Parse.comparison? Parse.comparison? := by
  refine .peek_bind False.elim fun kind => ?_
  split
  · refine expect.bind fun _ _ _ _ hf => ?_
    exact .accept_bind False.elim (fun _ _ => pure rfl)
      (fail (by simp [Cause.kind]) (L.line_of hf.1))
  · exact skip.bind fun _ _ _ _ _ => .accept_bind False.elim (fun _ _ => pure rfl) (pure rfl)
  · exact skip.bind fun _ _ _ _ _ => .accept_bind False.elim (fun _ _ => pure rfl) (pure rfl)
  · exact pure rfl

theorem link (connector : Connector) :
    L.Alike False b 1 (fun k k' => Link.Alike L.expr k k' ∧ k.connector = connector)
      (Parse.link connector) (Parse.link connector) := by
  refine expr.bind fun _ lhs lhs' _ hl => comparison?.bind ?_
  rintro _ cmp _ - rfl
  cases cmp with
  | some cmp =>
    exact expr.bind fun _ _ _ _ hr =>
      pure ⟨⟨hl, .some ⟨rfl, hr⟩, rfl⟩, rfl⟩
  | none => exact pure ⟨⟨hl, .none, rfl⟩, rfl⟩

theorem links (hb : b ≤ n) (hm : L.Bounds n m) :
    L.Alike False b 0 (List.Forall₂ (Link.Alike L.expr)) (Parse.links n) (Parse.links m) := by
  induction n generalizing b m with
  | zero => exact pure_spent hb hm rfl .nil
  | succ n ih =>
    obtain ⟨m, rfl, hm'⟩ := hm.succ
    have hlink {b' : Nat} (hb' : b' + 1 ≤ b) (connector : Connector) :
        L.Alike False b' 0 (List.Forall₂ (Link.Alike L.expr))
          (Parse.link connector >>= fun c => Parse.links n >>= fun cs => Pure.pure (c :: cs))
          (Parse.link connector >>= fun c => Parse.links m >>= fun cs => Pure.pure (c :: cs)) :=
      (link connector).bind fun _ _ _ _ hk =>
        (ih (by omega) hm').bind fun _ _ _ _ hs => pure (.cons hk.1 hs)
    exact .accept_bind False.elim (fun _ h => hlink h .and)
      (.accept_bind False.elim (fun _ h => hlink h .or) (pure .nil))

theorem condition :
    L.Alike False b 1 (Condition.Alike L.expr) Parse.condition Parse.condition :=
  (link .and).bind fun _ first _ _ hk => .remaining_bind fun _ _ ht _ =>
    (links le_rfl ht.bounds).bind fun _ rest _ _ hs =>
      pure ⟨.cons hk.1 hs, first, rest, rfl, hk.2⟩

theorem parenCondition :
    L.Alike last b 3 (Condition.Alike L.expr) Parse.parenCondition Parse.parenCondition :=
  expect.bind fun _ _ _ _ _ => condition.before (fun _ _ _ _ hc => expect.bind fun _ _ _ _ _ =>
    pure hc) one_lt_two

end Alike

end Expressions

section Statements

variable {last : Prop} {b n m : Nat} {c : Bool}

theorem endLine {E : Expr → Expr → Prop} {items items' : List PrintItem}
    (h : List.Forall₂ (PrintItem.Alike E) items items') :
    List.Forall₂ (PrintItem.Alike E) (Parse.endLine items) (Parse.endLine items') := by
  induction h with
  | nil => exact .cons (.str _) .nil
  | @cons _ _ items _ hi hs ih =>
    cases hi with
    | expr he => exact .cons (.expr he) ih
    | str text =>
      cases hs with
      | nil => exact .cons (.str _) .nil
      | cons => exact .cons (.str text) ih

namespace Alike

/-- An expression that may be left out, before the token that ends it. -/
theorem optional {kind : TokenKind} {B : Stmt → Stmt → Prop} {f g : Option Expr → Parse Stmt}
    (hf : ∀ b' value value', b' ≤ b → Option.Rel L.expr value value' →
      L.Alike last b' 1 B (f value) (g value')) :
    L.Alike last b 1 B
      (do let value ← if (← peek) = some kind then Pure.pure none else some <$> Parse.expr
          f value)
      (do let value ← if (← peek) = some kind then Pure.pure none else some <$> Parse.expr
          g value) := by
  refine .peek_bind (fun _ => one_pos) fun next => ?_
  dsimp only
  split
  · exact (pure .none).before hf one_pos
  · exact ((expr.map fun _ _ => .some).mono (Nat.zero_le 1)).before hf one_pos

theorem exitStmt : L.Alike last b 1 (L.stmt c) Parse.exitStmt Parse.exitStmt := by
  refine expect.bind fun _ _ _ _ _ => expect.bind fun _ _ _ _ _ => ?_
  refine (optional fun _ value value' _ hv => ?_).mono (Nat.zero_le 1)
  exact expect.bind fun _ _ _ _ _ => expect.bind fun _ _ _ _ _ =>
    pure (L.ofStmt (.exit hv))

theorem returnStmt : L.Alike last b 1 (L.stmt c) (Parse.returnStmt c) (Parse.returnStmt c) :=
  expect.bind fun _ _ _ _ hw => (optional fun _ _ _ _ hv => expect.bind fun _ _ _ _ _ =>
    pure (L.ofStmt (.ret hw.1 hv))).mono (Nat.zero_le 1)

theorem letStmt : L.Alike last b 1 (fun s s' => s.isInit ∧ L.stmt c s s') Parse.letStmt
    Parse.letStmt := by
  refine expect.bind fun _ _ _ _ _ => (expectText rfl).bind ?_
  rintro b₁ _ _ - @⟨t, u, name, ht, hk, hl⟩
  refine expect.bind fun _ _ _ _ _ => Alike.mono ?_ (Nat.zero_le 2)
  refine expr.before (fun _ value value' _ hv => expect.bind fun _ _ _ _ _ => ?_) one_lt_two
  have hm := L.mention name hv
  cases hf : value.mentions.find? fun m => m.1 == name with
  | some place =>
    rw [hf] at hm
    cases hf' : value'.mentions.find? fun m => m.1 == name with
    | some place' =>
      rw [hf'] at hm
      cases hm with
      | some hm => exact fail (by simp [Cause.kind]) hm
    | none =>
      rw [hf'] at hm
      cases hm
  | none =>
    rw [hf] at hm
    cases hf' : value'.mentions.find? fun m => m.1 == name with
    | some place' =>
      rw [hf'] at hm
      cases hm
    | none => exact pure ⟨rfl, L.ofStmt (.letVar ht hv hf)⟩

theorem amount : L.Alike False b 0 L.expr Parse.amount Parse.amount := by
  refine .peek_bind False.elim fun kind => ?_
  split
  · exact pure (L.ofExpr .one)
  · exact pure (L.ofExpr .one)
  · exact pure (L.ofExpr .one)
  · exact expr.mono (Nat.zero_le 1)

theorem update {t u : Token} {name : String} (op : BinOp) (ht : L.token t u) (hk : t.kind = .ident)
    (hl : t.literal = some name) :
    L.Alike False b 0 (fun s s' => s.isInit ∧ s.isStep ∧ L.stmt c s s')
      (Parse.update op name t.line) (Parse.update op name u.line) :=
  skip.bind fun _ _ _ _ _ => skip.bind fun _ _ _ _ _ => amount.bind fun _ _ _ _ he =>
    pure ⟨rfl, rfl, L.ofStmt (.assign ht (L.ofExpr (.bin (L.ofExpr (.ident ht hk hl)) he)))⟩

/-- Where no call begins, an assignment is read. -/
theorem assignment_of_ne {ts us : List Token} (h : L.Tokens ts us)
    (hk : ts.head?.map Token.kind ≠ some .fnName) :
    L.AlikeOn ts us False 1 (fun s s' => s.isInit ∧ s.isStep ∧ L.stmt c s s') Parse.assignment
      Parse.assignment := by
  refine .peek_bind h False.elim ?_
  rw [if_neg hk]
  refine (expectText rfl).bind ?_ ts us h le_rfl
  rintro b₁ _ _ - @⟨t, u, name, ht, hk, hl⟩
  refine .remaining_bind fun ts us h hts => ?_
  have hset : L.Alike False ts.length 0 (fun s s' => s.isInit ∧ s.isStep ∧ L.stmt c s s')
      (Parse.skip >>= fun _ => Parse.expr >>= fun e => Pure.pure (Stmt.assign name e t.line))
      (Parse.skip >>= fun _ => Parse.expr >>= fun e => Pure.pure (Stmt.assign name e u.line)) :=
    skip.bind fun _ _ _ _ _ => expr.bind fun _ _ _ _ he =>
      pure ⟨rfl, rfl, L.ofStmt (.assign ht he)⟩
  have hkinds := h.kinds_eq
  by_cases hm : L.more = []
  · rw [hm, List.map_nil, List.append_nil] at hkinds
    rw [hkinds]
    split
    · exact hset
    · exact update _ ht hk hl
    · exact update _ ht hk hl
    · exact expected
  · -- What decides is at the front of the tokens, and more of them behind do not change it.
    rw [hkinds]
    split
    next he =>
      rw [he]
      exact hset
    next he =>
      rw [he]
      exact update _ ht hk hl
    next he =>
      rw [he]
      exact update _ ht hk hl
    · exact fun _ _ _ _ => .error fun h => absurd h hm

theorem assignment : L.Alike False b 1 (fun s s' => s.isStep ∧ L.stmt c s s') Parse.assignment
    Parse.assignment := by
  intro ts us h hb
  by_cases hk : ts.head?.map Token.kind = some .fnName
  · refine AlikeOn.peek_bind h False.elim ?_
    rw [if_pos hk]
    refine (expectText rfl).bind ?_ ts us h le_rfl
    rintro b₁ _ _ - ⟨ht, hk, hl⟩
    exact expr.arguments.bind fun _ _ _ _ hs => pure ⟨rfl, L.ofStmt (.call ht hs)⟩
  · exact Ends.imp (assignment_of_ne h hk) fun _ _ h => h.2

theorem assignmentStmt : L.Alike last b 1 (L.stmt c) Parse.assignmentStmt Parse.assignmentStmt :=
  (assignment.before (fun _ _ _ _ hs => expect.bind fun _ _ _ _ _ => pure hs.2) one_lt_two).mono
    one_le_two

theorem forInit : L.Alike last b 1 (fun s s' => s.isInit ∧ L.stmt c s s') Parse.forInit
    Parse.forInit := by
  intro ts us h hb
  refine AlikeOn.peek_bind h (fun _ => one_pos) ?_
  generalize hk : ts.head?.map Token.kind = kind
  split
  · exact letStmt ts us h hb
  · have ha := assignment_of_ne (c := c) h (by simp [hk])
    exact Ends.mono (ha.bind_of (fun _ _ _ _ hs => expect.bind fun _ _ _ _ _ =>
      pure ⟨hs.1, hs.2.2⟩) fun _ => .inr one_lt_two) one_le_two
  · exact expected ts us h hb

theorem printItem :
    L.Alike False b 1 (PrintItem.Alike L.expr) Parse.printItem Parse.printItem := by
  have hexpr {b : Nat} : L.Alike False b 1 (PrintItem.Alike L.expr) (PrintItem.expr <$> Parse.expr)
      (PrintItem.expr <$> Parse.expr) := expr.map fun _ _ => .expr
  intro ts us h hb
  rcases h.cases with ⟨rfl, rfl⟩ | ⟨⟨kind, literal, line⟩, ⟨_, _, line'⟩, ts, us, rfl, rfl, ht, hr⟩
  · have hend := hexpr [] L.more h hb
    by_cases hm : L.more = []
    · rw [hm] at hend ⊢
      exact hend
    · exact hend.at_end hm (Nat.zero_le 1) False.elim
  · obtain rfl := L.kind_eq ht
    obtain rfl := L.literal_eq ht
    by_cases hk : kind = .stringLit
    · subst hk
      exact .ok (.str _) le_rfl fun _ => ⟨us, rfl, hr⟩
    · rw [printItem_of_ne (by simpa using hk), printItem_of_ne (by simpa using hk)]
      exact hexpr _ _ h hb

theorem printItems (hb : b ≤ n) (hm : L.Bounds n m) :
    L.Alike False b 0 (List.Forall₂ (PrintItem.Alike L.expr)) (Parse.printItems n)
      (Parse.printItems m) := by
  induction n generalizing b m with
  | zero => exact pure_spent hb hm rfl .nil
  | succ n ih =>
    obtain ⟨m, rfl, hm'⟩ := hm.succ
    refine .accept_bind False.elim (fun b₁ h₁ => ?_) (pure .nil)
    exact printItem.bind fun _ _ _ _ hi =>
      (ih (by omega) hm').bind fun _ _ _ _ hs => pure (.cons hi hs)

theorem printStmt : L.Alike last b 1 (L.stmt c) Parse.printStmt Parse.printStmt := by
  have hend {b : Nat} {items items' : List PrintItem}
      (h : List.Forall₂ (PrintItem.Alike L.expr) items items') :
      L.Alike last b 1 (fun s s' => ∃ items items', s = .print items ∧ s' = .print items' ∧
        List.Forall₂ (PrintItem.Alike L.expr) items items')
        (do
          let _ ← Parse.expect .closeParen
          let _ ← Parse.expect .semi
          return Stmt.print (Parse.endLine items))
        (do
          let _ ← Parse.expect .closeParen
          let _ ← Parse.expect .semi
          return Stmt.print (Parse.endLine items')) :=
    expect.bind fun _ _ _ _ _ => expect.bind fun _ _ _ _ _ =>
      pure ⟨_, _, rfl, rfl, endLine h⟩
  have hprint : L.Alike last b 1 (fun s s' => ∃ items items', s = .print items ∧
      s' = .print items' ∧ List.Forall₂ (PrintItem.Alike L.expr) items items') Parse.printStmt
      Parse.printStmt := by
    refine expect.bind fun _ _ _ _ _ => expect.bind fun _ _ _ _ _ => ?_
    refine Alike.mono ?_ (Nat.zero_le 1)
    refine .peek_bind (fun _ => one_pos) fun kind => ?_
    dsimp only
    split
    · exact (pure .nil).before (fun _ _ _ _ => hend) one_pos
    · refine (printItem.mono (Nat.zero_le 1)).before (fun _ _ _ _ hi => ?_) one_pos
      refine .remaining_bind fun ts us ht hts => ?_
      refine (printItems le_rfl ht.bounds).before (fun _ _ _ _ hs => ?_) one_pos
      exact (pure (.cons hi hs)).before (fun _ _ _ _ => hend) one_pos
  refine hprint.origin.imp ?_
  rintro _ _ ⟨⟨items, items', rfl, rfl, hi⟩, ts, us, rest, ht, hp⟩
  exact L.ofStmt (.print ht hp hi)

theorem paramsMore {function : String} (hm : L.Bounds n m) (seen : List String) :
    L.Alike last b 1 (fun names names' => names = names' ∧ names.Nodup ∧
      ∀ name ∈ names, name ∉ seen) (Parse.paramsMore function n seen)
      (Parse.paramsMore function m seen) := by
  induction n generalizing b m seen with
  | zero => exact expected_spent (q := fun m => Parse.paramsMore function m seen) hm rfl
  | succ n ih =>
    obtain ⟨m, rfl, hm'⟩ := hm.succ
    refine Alike.mono ?_ one_le_two
    refine (expectText rfl).bind ?_
    rintro b₁ _ _ - @⟨t, u, name, ht, -, -⟩
    dsimp only
    split
    · exact fail (by simp [Cause.kind]) (L.line_of ht)
    next hn =>
      refine .accept_bind (fun _ => .inl one_pos) (fun _ _ => pure ?_) (expect.bind ?_)
      · exact ⟨rfl, List.nodup_singleton _, List.forall_mem_singleton.2 hn⟩
      · refine fun _ _ _ _ _ => (ih hm' _).bind ?_
        rintro _ names _ - ⟨rfl, hd, hs⟩
        refine pure ⟨rfl, List.nodup_cons.2 ⟨fun h => hs _ h List.mem_cons_self, hd⟩, ?_⟩
        exact List.forall_mem_cons.2 ⟨hn, fun name h h' => hs name h (List.mem_cons_of_mem _ h')⟩

theorem params {function : String} : L.Alike last b 1 (fun names names' => names = names' ∧
    names.Nodup) (Parse.params function) (Parse.params function) := by
  refine Alike.mono ?_ one_le_two
  refine expect.bind fun _ _ _ _ _ => .accept_bind (fun _ => .inl one_pos)
    (fun _ _ => pure ⟨rfl, List.nodup_nil⟩) (.remaining_bind fun _ _ ht _ => ?_)
  exact (paramsMore ht.bounds []).imp fun _ _ h => ⟨h.1, h.2.1⟩

theorem breakStmt : L.Alike last b 1 (L.stmt c) Parse.breakStmt Parse.breakStmt :=
  expect.bind fun _ _ _ _ hw => expect.bind fun _ _ _ _ _ =>
    pure (L.ofStmt (.breakLoop hw.1))

theorem continueStmt : L.Alike last b 1 (L.stmt c) Parse.continueStmt Parse.continueStmt :=
  expect.bind fun _ _ _ _ hw => expect.bind fun _ _ _ _ _ =>
    pure (L.ofStmt (.continueLoop hw.1))

variable {inner inner' : Parse Stmt}

theorem blockRest (h : L.Alike False b 1 (L.stmt c) inner inner') (hm : L.Bounds n m) :
    L.Alike last b 1 (List.Forall₂ (L.stmt c)) (Parse.blockRest inner n)
      (Parse.blockRest inner' m) := by
  induction n generalizing b m with
  | zero => exact expected_spent hm rfl
  | succ n ih =>
    obtain ⟨m, rfl, hm'⟩ := hm.succ
    intro ts us ht hb
    refine AlikeOn.peek_bind ht (fun _ => one_pos) ?_
    rcases ht.cases with ⟨rfl, rfl⟩ | ⟨t, u, ts, us, rfl, rfl, -, hr⟩
    · exact expected [] L.more ht hb
    · rw [List.head?_cons, Option.map_some]
      split
      · exact expected _ _ ht hb
      · exact .ok .nil le_rfl fun _ => ⟨us, rfl, hr⟩
      · refine Alike.mono ?_ one_le_two _ _ ht hb
        refine h.before (fun b' _ _ hb' hs => ?_) one_lt_two
        exact (ih (h.within (by omega)) hm').bind fun _ _ _ _ hss => pure (.cons hs hss)

/-- Braces hold something, for the closing brace would have come first. -/
theorem block_ne_nil {ts rest : List Token} {body : List Stmt}
    (h : Parse.block inner ts = .ok (.block body) rest) : body ≠ [] := by
  obtain ⟨_, mid, -, h⟩ := bind_eq_ok.1 h
  rw [Parse.peek_bind] at h
  split at h
  · cases h
  next hk =>
    rw [Parse.remaining_bind] at h
    obtain ⟨_, _, h, ⟨⟩⟩ := bind_eq_ok.1 h
    rintro rfl
    cases mid with
    | nil => cases h
    | cons t ts =>
      rw [List.length_cons, blockRest_cons (by simpa using hk)] at h
      obtain ⟨_, _, -, h⟩ := bind_eq_ok.1 h
      obtain ⟨_, _, -, ⟨⟩⟩ := bind_eq_ok.1 h

theorem block (h : L.Alike False b 1 (L.stmt c) inner inner') :
    L.Alike last b 1 (L.stmt c) (Parse.block inner) (Parse.block inner') := by
  have hbody : L.Alike last b 1 (fun s s' => ∃ body body', s = .block body ∧ s' = .block body' ∧
      List.Forall₂ (L.stmt c) body body') (Parse.block inner) (Parse.block inner') := by
    refine Alike.mono ?_ one_le_two
    refine expect.bind fun b' _ _ hb' _ => .peek_bind (fun _ => one_pos) fun kind => ?_
    split
    · exact refuse (by simp [Cause.kind])
    · refine .remaining_bind fun ts us ht hts => ?_
      exact (blockRest (h.within (by omega)) ht.bounds).bind fun _ _ _ _ hb =>
        pure ⟨_, _, rfl, rfl, hb⟩
  refine hbody.origin.imp ?_
  rintro _ _ ⟨⟨body, body', rfl, rfl, hb⟩, ts, us, rest, -, hp⟩
  exact L.ofStmt (.block (block_ne_nil hp) hb)

/-- Where an `if` ends is seen by the token behind it not being `else`. -/
theorem elseBranch (h : L.Alike (NoElse L.more) b 1 (L.stmt c) inner inner') (hb : b ≤ n)
    (hm : L.Bounds n m) :
    L.Alike (NoElse L.more) b 0 (L.branch c) (Parse.elseBranch inner n)
      (Parse.elseBranch inner' m) := by
  induction n generalizing b m with
  | zero =>
    intro ts us ht hts
    obtain rfl := List.eq_nil_of_length_eq_zero (Nat.le_zero.1 (hts.trans hb))
    obtain ⟨us', rfl, ⟨⟩⟩ := ht
    refine .ok (L.ofBranch .absent) le_rfl fun hc => ⟨L.more, ?_, .nil⟩
    have hno : NoElse L.more := by
      rcases hc with h | h | h
      · rw [h]
        simp [NoElse]
      · exact absurd rfl h
      · exact h
    cases m with
    | zero => rfl
    | succ m =>
      rw [Parse.elseBranch, List.nil_append, bind_of_ok (accept_of_ne hno)]
      rfl
  | succ n ih =>
    obtain ⟨m, rfl, hm'⟩ := hm.succ
    have habsent : L.Alike (NoElse L.more) b 0 (L.branch c) (Pure.pure .absent)
        (Pure.pure .absent) := pure (L.ofBranch .absent)
    refine .accept_bind .inr (fun b₁ h₁ => Alike.mono ?_ (Nat.zero_le 1)) habsent
    refine .accept_bind (fun _ => .inl one_pos) (fun b₂ h₂ => ?_) ?_
    · refine parenCondition.bind fun b₃ _ _ h₃ hc => ?_
      refine (h.within (by omega)).bind fun b₄ _ _ h₄ hs => ?_
      exact (ih (h.within (by omega)) (by omega) hm').bind fun _ _ _ _ hn =>
        pure (L.ofBranch (.elseIf hc hs hn))
    · exact (h.within (by omega)).bind fun _ _ _ _ hs => pure (L.ofBranch (.otherwise hs))

theorem ifStmt (h : L.Alike (NoElse L.more) b 1 (L.stmt c) inner inner') :
    L.Alike (NoElse L.more) b 1 (L.stmt c) (Parse.ifStmt inner) (Parse.ifStmt inner') := by
  refine expect.bind fun b₁ _ _ h₁ _ => ?_
  refine parenCondition.bind fun b₂ _ _ h₂ hc => ?_
  refine (h.within (by omega)).bind fun b₃ _ _ h₃ hs => ?_
  refine .remaining_bind fun ts us ht hts => ?_
  exact (elseBranch (h.within (by omega)) le_rfl ht.bounds).bind fun _ _ _ _ ho =>
    pure (L.ofStmt (.ifElse hc hs ho))

theorem whileStmt (h : L.Alike last b 1 (L.stmt c) inner inner') :
    L.Alike last b 1 (L.stmt c) (Parse.whileStmt inner) (Parse.whileStmt inner') := by
  refine expect.bind fun b₁ _ _ h₁ _ => ?_
  refine parenCondition.bind fun b₂ _ _ h₂ hc => ?_
  exact (h.within (by omega)).bind fun _ _ _ _ hs =>
    pure (L.ofStmt (.whileLoop hc hs))

theorem forStmt (h : L.Alike last b 1 (L.stmt c) inner inner') :
    L.Alike last b 1 (L.stmt c) (Parse.forStmt inner) (Parse.forStmt inner') := by
  refine expect.bind fun b₁ _ _ h₁ _ => expect.bind fun b₂ _ _ h₂ _ => ?_
  refine (forInit (c := c)).bind fun b₃ init init' h₃ hi => ?_
  refine Alike.mono ?_ (Nat.zero_le 2)
  refine condition.before (fun b₄ cond cond' h₄ hc => expect.bind fun b₅ _ _ h₅ _ => ?_) one_lt_two
  refine Alike.mono ?_ (Nat.zero_le 2)
  refine (assignment (c := c)).before (fun b₆ step step' h₆ ht => ?_) one_lt_two
  have hend {b' : Nat} (hb : b' ≤ b) : L.Alike last b' 1 (L.stmt c)
      (Parse.expect .closeParen >>= fun _ => inner >>= fun body =>
        Pure.pure (Stmt.forLoop init cond step body))
      (Parse.expect .closeParen >>= fun _ => inner' >>= fun body =>
        Pure.pure (Stmt.forLoop init' cond' step' body)) :=
    expect.bind fun _ _ _ _ _ => (h.within (by omega)).bind
      fun _ _ _ _ hs => pure (L.ofStmt (.forLoop hi.1 ht.1 hi.2 hc ht.2 hs))
  exact .accept_bind (fun _ => .inl one_pos) (fun b₇ h₇ => (hend (by omega)).mono (Nat.zero_le 1))
    (hend (by omega))

theorem functionStmt (h : L.Alike last b 1 (L.stmt true) inner inner') :
    L.Alike last b 1 (L.stmt c) (Parse.functionStmt inner) (Parse.functionStmt inner') := by
  refine expect.bind fun b₁ _ _ h₁ _ => (expectText rfl).bind ?_
  rintro b₂ _ _ h₂ ⟨ht, hk, hl⟩
  refine params.bind ?_
  rintro b₃ names _ h₃ ⟨rfl, hd⟩
  exact (h.within (by omega)).bind fun _ _ _ _ hs =>
    pure (L.ofStmt (.function ht hk hl hd hs))

theorem stmtWithin (hm : L.Bounds n m) :
    L.Alike (NoElse L.more) b 1 (L.stmt c) (Parse.stmtWithin n c) (Parse.stmtWithin m c) := by
  induction n generalizing b m c with
  | zero => exact expected_spent (q := fun m => Parse.stmtWithin m c) hm rfl
  | succ n ih =>
    obtain ⟨m, rfl, hm'⟩ := hm.succ
    have hstmt {b : Nat} {c : Bool} : L.Alike (NoElse L.more) b 1 (L.stmt c)
        (Parse.stmtWithin n c) (Parse.stmtWithin m c) := ih hm'
    refine .peek_bind (fun _ => one_pos) fun kind => ?_
    split
    · exact exitStmt
    · exact letStmt.imp fun _ _ h => h.2
    · exact hstmt.weaken.block
    · exact refuse (by simp [Cause.kind])
    · exact printStmt
    · exact hstmt.ifStmt
    · exact refuse (by simp [Cause.kind])
    · exact hstmt.whileStmt
    · exact hstmt.forStmt
    · exact hstmt.functionStmt
    · exact returnStmt
    · exact breakStmt
    · exact continueStmt
    · exact assignmentStmt
    · exact assignmentStmt
    · exact expected

theorem stmt : L.Alike (NoElse L.more) b 1 (L.stmt false) Parse.stmt Parse.stmt :=
  .remaining_bind fun _ _ ht _ => stmtWithin ht.bounds

theorem programRest (hb : b ≤ n) (hm : L.Bounds n m) :
    L.Alike False b 0 (List.Forall₂ (L.stmt false)) (Parse.programRest n)
      (Parse.programRest m) := by
  induction n generalizing b m with
  | zero => exact pure_spent hb hm rfl .nil
  | succ n ih =>
    obtain ⟨m, rfl, hm'⟩ := hm.succ
    refine .peek_bind False.elim fun kind => ?_
    split
    · exact pure .nil
    · exact stmt.weaken.bind fun _ _ _ _ hs =>
        (ih (by omega) hm').bind fun _ _ _ _ hp => pure (.cons hs hp)

theorem program :
    L.Alike False b 0 (List.Forall₂ (L.stmt false)) Parse.program Parse.program :=
  .remaining_bind fun _ _ ht _ => programRest le_rfl ht.bounds

end Alike

end Statements

theorem program_ends {ts us : List Token} (h : List.Forall₂ L.token ts us) (hm : L.more = []) :
    L.Ends False 0 (List.Forall₂ (L.stmt false)) ts (Parse.program ts) (Parse.program us) :=
  Alike.program ts us ⟨us, by rw [hm, List.append_nil], h⟩ le_rfl

end Likeness

namespace Trait

variable {T : Trait} {ts rest : List Token}

theorem holds {α : Type} {last : Prop} {k : Nat} {P : α → Prop} {p : Parse α} {a : α}
    (h : T.likeness.Alike last ts.length k (fun a _ => P a) p p) (ht : ∀ t ∈ ts, T.token t)
    (hp : p ts = .ok a rest) : P a := by
  have hrun := h ts ts ⟨ts, (List.append_nil ts).symm, List.forall₂_same.2 fun t h => ⟨rfl, ht t h⟩⟩
    le_rfl
  rw [hp] at hrun
  cases hrun with
  | ok ha => exact ha

theorem program {p : Program} (ht : ∀ t ∈ ts, T.token t) (h : Parse.program ts = .ok p rest) :
    ∀ s ∈ p, T.stmt false s :=
  holds (Likeness.Alike.program.imp fun _ _ h => Likeness.forall_of_forall₂ h fun _ _ h => h) ht h

end Trait

end Stackwise
