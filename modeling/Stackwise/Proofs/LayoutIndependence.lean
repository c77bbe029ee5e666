import Stackwise.Proofs.AlikeReading
import Stackwise.Proofs.Core
import Stackwise.Proofs.Emission

/-! Layout has no part in what a text means.  Two texts may be cut into the same tokens on different
lines.  The trees read off them then have one core, so both texts have the same assembly, or both
are rejected for the same cause. -/
namespace Stackwise

/-- What a token says, apart from its line. -/
def Token.content (t : Token) : TokenKind × Option String := (t.kind, t.literal)

/-- The same tokens, maybe on other lines. -/
def Relaid (ts us : List Token) : Prop := ts.map Token.content = us.map Token.content

theorem forall₂_eq_iff {α β : Type} {f : α → β} {xs ys : List α} :
    List.Forall₂ (fun x y => f x = f y) xs ys ↔ xs.map f = ys.map f := by
  rw [← List.forall₂_map_right_iff, ← List.forall₂_map_left_iff, List.forall₂_eq_eq_eq]

section Cores

theorem core_of_rel {value value' : Option Expr}
    (h : Option.Rel (fun e e' => e.core = e'.core) value value') :
    value.map Expr.core = value'.map Expr.core := by
  cases h with
  | some h => exact congrArg some h
  | none => rfl

theorem Link.Alike.coreWith {k k' : Link} (h : Link.Alike (fun e e' => e.core = e'.core) k k')
    (connector : Connector) : k.coreWith connector = k'.coreWith connector := by
  obtain ⟨hl, hc, -⟩ := h
  unfold Link.coreWith
  generalize k.comparison = c, k'.comparison = c' at hc
  cases hc with
  | some hc => simp only [Option.map_some, hl, hc.1, hc.2]
  | none => simp only [Option.map_none, hl]

theorem Link.Alike.core {k k' : Link} (h : Link.Alike (fun e e' => e.core = e'.core) k k') :
    k.core = k'.core := by
  rw [Link.core, Link.core, h.connector, h.coreWith]

theorem Condition.Alike.core {cond cond' : Condition}
    (h : Condition.Alike (fun e e' => e.core = e'.core) cond cond') :
    Condition.core cond = Condition.core cond' := by
  obtain ⟨hs, -⟩ := h
  cases hs with
  | nil => rfl
  | cons hk hs =>
    rw [Condition.core, Condition.core, hk.coreWith]
    exact congrArg _ (forall₂_eq_iff.1 (hs.imp fun _ _ h => h.core))

theorem PrintItem.Alike.core {item item' : PrintItem}
    (h : PrintItem.Alike (fun e e' => e.core = e'.core) item item') : item.core = item'.core := by
  cases h with
  | str => rfl
  | expr h => exact congrArg PrintItem.expr h

end Cores

/-- Lines are passed on, and nothing else depends on them. -/
def Likeness.core : Likeness where
  token t u := t.content = u.content
  line _ _ := True
  fault f f' := f.cause = f'.cause
  expr e e' := e.core = e'.core
  stmt _ s s' := s.core = s'.core
  branch _ other other' := other.core = other'.core
  more := []
  kind_eq h := congrArg Prod.fst h
  literal_eq h := congrArg Prod.snd h
  line_of _ := trivial
  fails _ _ := rfl
  misses _ _ _ := rfl
  mention {e e'} name h := by
    have hm := Expr.isSome_find?_mentions h name
    generalize e.mentions.find? _ = m, e'.mentions.find? _ = m' at hm
    cases m with
    | none =>
      cases m' with
      | none => exact .none
      | some => cases hm
    | some =>
      cases m' with
      | none => cases hm
      | some => exact .some trivial
  ofExpr h := by
    cases h with
    | int | one | ident => rfl
    | paren he => exact he
    | call _ _ _ hs =>
      rw [Expr.core, Expr.core, Expr.coreEach_eq, Expr.coreEach_eq, forall₂_eq_iff.1 hs]
    | minus he => simp only [Expr.core, he]
    | bin hl hr => rw [Expr.core, Expr.core, hl, hr]
  ofStmt h := by
    cases h with
    | exit hv => rw [Stmt.core, Stmt.core, core_of_rel hv]
    | letVar _ he | assign _ he => rw [Stmt.core, Stmt.core, he]
    | call _ hs =>
      rw [Stmt.core, Stmt.core, Expr.coreEach_eq, Expr.coreEach_eq, forall₂_eq_iff.1 hs]
    | print _ _ hi =>
      rw [Stmt.core, Stmt.core, forall₂_eq_iff.1 (hi.imp fun _ _ h => h.core)]
    | block _ hb =>
      rw [Stmt.core, Stmt.core, Stmt.coreEach_eq, Stmt.coreEach_eq, forall₂_eq_iff.1 hb]
    | ifElse hc hb ho => rw [Stmt.core, Stmt.core, hc.core, hb, ho]
    | whileLoop hc hb => rw [Stmt.core, Stmt.core, hc.core, hb]
    | forLoop _ _ hi hc ht hb => rw [Stmt.core, Stmt.core, hi, hc.core, ht, hb]
    | function _ _ _ _ hb => rw [Stmt.core, Stmt.core, hb]
    | ret _ hv => rw [Stmt.core, Stmt.core, core_of_rel hv]
    | breakLoop | continueLoop => rfl
  ofBranch h := by
    cases h with
    | absent => rfl
    | elseIf hc hb hn => rw [ElseBranch.core, ElseBranch.core, hc.core, hb, hn]
    | otherwise hb => rw [ElseBranch.core, ElseBranch.core, hb]

/-- The same tokens on other lines are read as trees with one core, or refused for one cause. -/
theorem Program.ofTokens_relaid {ts us : List Token} (h : Relaid ts us) :
    Except.Alike (fun p q => Program.core p = Program.core q) (ofTokens ts) (ofTokens us) := by
  have hr := Likeness.program_ends (L := Likeness.core) (forall₂_eq_iff.2 h) rfl
  unfold ofTokens Session.read Session.ofTokens
  dsimp only
  generalize Parse.program ts = x, Parse.program us = y at hr
  cases hr with
  | ok hp _ hy =>
    obtain ⟨_, rfl, -⟩ := hy (.inl rfl)
    exact .ok (by rw [Program.core, Program.core, Stmt.coreEach_eq, Stmt.coreEach_eq,
      forall₂_eq_iff.1 hp])
  | error hy =>
    obtain ⟨_, _, rfl, hc⟩ := hy rfl
    exact .error (congrArg Cause.core hc)

/-- Texts with the same tokens have the same assembly, or both have none, for causes that differ at
most in a line that they mention. -/
theorem compile_layout_independent {source₁ source₂ : String} {ts₁ ts₂ : List Token}
    (h₁ : (Scan.ofText source₁).result = .ok ts₁) (h₂ : (Scan.ofText source₂).result = .ok ts₂)
    (h : Relaid ts₁ ts₂) :
    (∃ assembly, (compile source₁).result = .ok assembly ∧
      (compile source₂).result = .ok assembly) ∨
    ∃ e₁ e₂, (compile source₁).result = .error e₁ ∧ (compile source₂).result = .error e₂ ∧
      e₁.cause.core = e₂.cause.core ∧ e₁.cause.kind = e₂.cause.kind := by
  have hc : Except.Alike Eq (compile source₁).result (compile source₂).result := by
    rw [compile_result, compile_result, Program.ofScan, Program.ofScan, h₁, h₂]
    exact (Program.ofTokens_relaid h).bind fun p q => Program.assemble_congr
  generalize (compile source₁).result = x₁, (compile source₂).result = x₂ at hc
  cases hc with
  | ok ha => exact .inl ⟨_, rfl, congrArg _ ha.symm⟩
  | error hk =>
    refine .inr ⟨_, _, rfl, rfl, hk, ?_⟩
    rw [← Cause.kind_core, hk, Cause.kind_core]

def denseText : String := "fn f(n)return n*2;let x=f(3);print(x);"

/-- The same with line breaks, comments and a character that belongs to no token. -/
def looseText : String :=
  "fn f(n) // twice\n  return n * 2;\n\n@ let x =\n  f(3); /* six */ print(x);\n"

def denseClash : String := "fn f() exit(1); fn f() exit(2);"

/-- The same on several lines. -/
def looseClash : String := "\nfn f()\n  exit(1);\nfn f()\n  exit(2);\n"

theorem Scan.result_of_closed {s : Scan} (h : s.unclosed = none) : s.result = .ok s.tokens := by
  rw [Scan.result, h]

set_option maxRecDepth 4000 in
theorem compile_layout_independent_texts :
    (∃ ts₁ ts₂ assembly, (Scan.ofText denseText).result = .ok ts₁ ∧
      (Scan.ofText looseText).result = .ok ts₂ ∧ Relaid ts₁ ts₂ ∧
      (compile denseText).result = .ok assembly ∧ (compile looseText).result = .ok assembly) ∧
    ∃ e₁ e₂, (compile denseClash).result = .error e₁ ∧ (compile looseClash).result = .error e₂ ∧
      e₁.cause ≠ e₂.cause ∧ e₁.cause.core = e₂.cause.core := by
  constructor
  · have h₁ : (Scan.ofText denseText).unclosed = none := by decide +kernel
    have h₂ : (Scan.ofText looseText).unclosed = none := by decide +kernel
    have h : (Scan.ofText denseText).tokens.map Token.content =
        (Scan.ofText looseText).tokens.map Token.content := by decide +kernel
    have hrun : ((Program.ofScan (Scan.ofText denseText)).bind fun p =>
        (Signatures.ofProgram p).bind fun table => (p.code table).bind fun _ => .ok p.length) =
          .ok 3 := by
      decide +kernel
    obtain ⟨p, assembly, -, ha, -⟩ := exists_assembly hrun
    obtain ⟨assembly', h₃, h₄⟩ | ⟨e₁, e₂, h₃, -⟩ :=
      compile_layout_independent (Scan.result_of_closed h₁) (Scan.result_of_closed h₂) h
    · exact ⟨_, _, assembly', Scan.result_of_closed h₁, Scan.result_of_closed h₂, h, h₃, h₄⟩
    · cases ha.symm.trans h₃
  · have h₁ : (Scan.ofText denseClash).unclosed = none := by decide +kernel
    have h₂ : (Scan.ofText looseClash).unclosed = none := by decide +kernel
    have h : (Scan.ofText denseClash).tokens.map Token.content =
        (Scan.ofText looseClash).tokens.map Token.content := by decide +kernel
    have hd : (compile denseClash).result = .error ⟨.functionRedeclared "f" 1, 1⟩ := by
      rw [compile_result]
      decide +kernel
    have hl : (compile looseClash).result = .error ⟨.functionRedeclared "f" 2, 4⟩ := by
      rw [compile_result]
      decide +kernel
    obtain ⟨assembly, h₃, -⟩ | ⟨e₁, e₂, h₃, h₄, hc, -⟩ :=
      compile_layout_independent (Scan.result_of_closed h₁) (Scan.result_of_closed h₂) h
    · cases hd.symm.trans h₃
    · obtain rfl := Except.error.inj (hd.symm.trans h₃)
      obtain rfl := Except.error.inj (hl.symm.trans h₄)
      exact ⟨_, _, hd, hl, by decide, hc⟩

end Stackwise
