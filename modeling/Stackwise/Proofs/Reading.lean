import Stackwise.Proofs.AlikeReading

/-! What reading a text keeps.  Every token stands on a line of the text and carries its text where
one is asked for; so every tree that is read has its lines from the text and no condition without a
link, and every failure to read is reported on a line of the text. -/
namespace Stackwise

/-- A line of a text that has so many lines. -/
def InText (lines line : Nat) : Prop := 1 ≤ line ∧ line ≤ lines

/-- The rejection is no fault of the compiler, and its line is one of the text. -/
def Error.Honest (lines : Nat) (e : Error) : Prop :=
  e.cause.kind ≠ .internal ∧ InText lines e.line

structure Token.Proper (lines : Nat) (t : Token) : Prop where
  line : InText lines t.line
  text : t.kind.hasText → t.literal.isSome

section Scan

namespace Piece

/-- A piece that is a token carries the text of the token. -/
def Carries (p : Piece) : Prop :=
  ∀ kind literal, p.shape = .token kind literal → kind.hasText → literal.isSome

theorem wordShape_carries (word rest : List Char) : Carries ⟨wordShape word rest, word⟩ := by
  intro kind literal h hk
  cases hw : TokenKind.keyword? (String.ofList word) with
  | some kind' =>
    simp only [wordShape, hw, Shape.token.injEq] at h
    obtain ⟨rfl, rfl⟩ := h
    have hm := List.mem_of_find?_eq_some hw
    have hn : ∀ kind ∈ TokenKind.keywords, kind.hasText = false := by decide
    rw [hn _ hm] at hk
    cases hk
  | none =>
    simp only [wordShape, hw, Shape.token.injEq] at h
    obtain ⟨-, rfl⟩ := h
    rfl

theorem ofSymbol_carries (c : Char) (cs : List Char) : (ofSymbol c cs).1.Carries := by
  intro kind literal h hk
  have h₂ : ∀ {c c' : Char} {kind : TokenKind}, symbol₂? c c' = some kind →
      kind.hasText = false := by
    intro c c' kind h
    unfold symbol₂? at h
    split at h <;> cases h <;> rfl
  have h₁ : symbol? c = some kind → kind.hasText = false := by
    intro h
    unfold symbol? at h
    split at h <;> cases h <;> rfl
  unfold ofSymbol at h
  split at h
  next kind' hs =>
    obtain ⟨rfl, -⟩ := Shape.token.inj h
    obtain ⟨c', -, hs⟩ := Option.bind_eq_some_iff.1 hs
    simp [h₂ hs] at hk
  next =>
    split at h
    next kind' hs =>
      obtain ⟨rfl, -⟩ := Shape.token.inj h
      simp [h₁ hs] at hk
    next => cases h

theorem ofQuote_carries (cs : List Char) : (ofQuote cs).1.Carries := by
  intro kind literal h hk
  unfold ofQuote at h
  split at h
  · obtain ⟨-, rfl⟩ := Shape.token.inj h
    rfl
  · cases h

theorem first?_carries {c : Char} {cs rest : List Char} {p : Piece}
    (h : first? c cs = some (p, rest)) : p.Carries := by
  unfold first? run at h
  split at h
  · cases h
    nofun
  split at h
  · cases h
    intro kind literal h _
    obtain ⟨-, rfl⟩ := Shape.token.inj h
    rfl
  split at h
  · cases h
    exact wordShape_carries _ _
  split at h
  · have hq := ofQuote_carries cs
    rwa [Option.some.inj h] at hq
  split at h
  · cases h
    nofun
  · obtain ⟨⟨b, r⟩, -, hr⟩ := Option.map_eq_some_iff.1 h
    cases hr
    nofun
  · have hs := ofSymbol_carries c cs
    rwa [Option.some.inj h] at hs

/-- Pieces lie between the line of the first and the line where the text ends. -/
theorem mem_place {ps : List Piece} : ∀ {n line : Nat} {p : Piece}, (p, line) ∈ place n ps →
    n ≤ line ∧ line + p.newlines ≤ n + (ps.flatMap text).count '\n' := by
  induction ps with
  | nil => nofun
  | cons q ps ih =>
    intro n line p h
    simp only [place, List.mem_cons, Prod.mk.injEq] at h
    simp only [List.flatMap_cons, List.count_append]
    rcases h with ⟨rfl, rfl⟩ | h
    · exact ⟨Nat.le_refl _, by simp only [newlines]; omega⟩
    · obtain ⟨hl, hu⟩ := ih h
      simp only [newlines] at hl hu ⊢
      omega

end Piece

theorem pieces_carry (cs : List Char) : ∀ p ∈ (pieces cs).1, p.Carries := by
  fun_induction pieces cs with
  | case1 | case2 => simp
  | case3 c cs p rest h ps left hp ih =>
    rw [hp] at ih
    simp only [List.mem_cons, forall_eq_or_imp]
    exact ⟨Piece.first?_carries h, ih⟩

namespace Scan

def lines (source : String) : Nat := 1 + source.toList.count '\n'

theorem count_pieces_le (source : String) :
    1 + ((pieces source.toList).1.flatMap Piece.text).count '\n' ≤ lines source := by
  have h := congrArg (List.count '\n') (pieces_text source.toList)
  rw [List.count_append] at h
  unfold lines
  omega

theorem tokens_proper (source : String) :
    ∀ t ∈ (ofText source).tokens, t.Proper (lines source) := by
  intro t ht
  obtain ⟨⟨p, line⟩, hp, h⟩ := List.mem_filterMap.1 ht
  have hm : p ∈ (pieces source.toList).1 := by
    have := List.mem_map_of_mem (f := Prod.fst) hp
    rwa [Piece.map_fst_place] at this
  have hn := Piece.mem_place hp
  have hc := count_pieces_le source
  simp only [Token.ofPiece?] at h
  split at h
  next kind literal hs =>
    cases h
    exact ⟨⟨by dsimp only; omega, by dsimp only; omega⟩, pieces_carry _ p hm kind literal hs⟩
  next => cases h

theorem result_error {source : String} {e : Error} (h : (ofText source).result = .error e) :
    e.Honest (lines source) := by
  unfold result at h
  split at h
  next line hu =>
    cases h
    simp only [ofText, ofPieces] at hu
    split at hu
    · cases hu
    · cases hu
      exact ⟨by simp [Cause.kind], Nat.le_add_right _ _, count_pieces_le source⟩
  next => cases h

end Scan

end Scan

section Tree

mutual

/-- The lines of an expression are lines of the text. -/
def Expr.Proper (lines : Nat) : Expr → Prop
  | .int _ => True
  | .ident _ line => InText lines line
  | .paren inner => inner.Proper lines
  | .call _ args line => InText lines line ∧ Expr.ProperEach lines args
  | .bin _ lhs rhs => lhs.Proper lines ∧ rhs.Proper lines

def Expr.ProperEach (lines : Nat) : List Expr → Prop
  | [] => True
  | e :: es => e.Proper lines ∧ Expr.ProperEach lines es

end

/-- There is a link, and the lines of all links are lines of the text. -/
def Condition.Proper (lines : Nat) (cond : Condition) : Prop :=
  cond ≠ [] ∧ Expr.ProperEach lines cond.exprs

mutual

/-- Every condition has a link, and the lines of a statement are lines of the text. -/
def Stmt.Proper (lines : Nat) : Stmt → Prop
  | .exit value => Expr.ProperEach lines value.toList
  | .letVar _ value line => InText lines line ∧ value.Proper lines
  | .assign _ value line => InText lines line ∧ value.Proper lines
  | .block body => Stmt.ProperEach lines body
  | .print items => Expr.ProperEach lines (PrintItem.exprs items)
  | .ifElse cond body other =>
    Condition.Proper lines cond ∧ body.Proper lines ∧ other.Proper lines
  | .whileLoop cond body => Condition.Proper lines cond ∧ body.Proper lines
  | .forLoop init cond step body =>
    init.Proper lines ∧ Condition.Proper lines cond ∧ step.Proper lines ∧ body.Proper lines
  | .function _ _ body line => InText lines line ∧ body.Proper lines
  | .ret value _ line => InText lines line ∧ Expr.ProperEach lines value.toList
  | .call _ args line => InText lines line ∧ Expr.ProperEach lines args
  | .breakLoop line => InText lines line
  | .continueLoop line => InText lines line

def Stmt.ProperEach (lines : Nat) : List Stmt → Prop
  | [] => True
  | s :: ss => s.Proper lines ∧ Stmt.ProperEach lines ss

def ElseBranch.Proper (lines : Nat) : ElseBranch → Prop
  | .absent => True
  | .elseIf cond body next =>
    Condition.Proper lines cond ∧ body.Proper lines ∧ next.Proper lines
  | .otherwise body => body.Proper lines

end

variable {lines : Nat}

theorem Expr.properEach_iff {es : List Expr} :
    Expr.ProperEach lines es ↔ ∀ e ∈ es, e.Proper lines := by
  induction es with
  | nil => simp [Expr.ProperEach]
  | cons e es ih => simp [Expr.ProperEach, ih]

theorem Stmt.properEach_iff {ss : List Stmt} :
    Stmt.ProperEach lines ss ↔ ∀ s ∈ ss, s.Proper lines := by
  induction ss with
  | nil => simp [Stmt.ProperEach]
  | cons s ss ih => simp [Stmt.ProperEach, ih]

mutual

theorem Expr.Proper.mentions : (e : Expr) → e.Proper lines → ∀ m ∈ e.mentions, InText lines m.2
  | .int _, _, m, hm => by simp [Expr.mentions] at hm
  | .ident name line, h, m, hm => by
    simp only [Expr.mentions, List.mem_singleton] at hm
    subst hm
    exact h
  | .paren inner, h, m, hm => Expr.Proper.mentions inner h m hm
  | .call name args line, h, m, hm => Expr.ProperEach.mentions args h.2 m hm
  | .bin op lhs rhs, h, m, hm => by
    rcases List.mem_append.1 hm with hm | hm
    · exact Expr.Proper.mentions lhs h.1 m hm
    · exact Expr.Proper.mentions rhs h.2 m hm

theorem Expr.ProperEach.mentions : (es : List Expr) → Expr.ProperEach lines es →
    ∀ m ∈ Expr.mentionsEach es, InText lines m.2
  | [], _, m, hm => by simp [Expr.mentionsEach] at hm
  | e :: es, h, m, hm => by
    rcases List.mem_append.1 hm with hm | hm
    · exact Expr.Proper.mentions e h.1 m hm
    · exact Expr.ProperEach.mentions es h.2 m hm

end

end Tree

def Fault.Honest (lines : Nat) (f : Fault) : Prop :=
  f.cause.kind ≠ .internal ∧ ∀ l ∈ f.line, InText lines l

namespace Likeness

/-- From proper tokens on, what is read is proper and what fails is honest. -/
def proper (lines : Nat) : Likeness where
  token t u := t = u ∧ t.Proper lines
  line l _ := InText lines l
  fault f _ := f.Honest lines
  expr e e' := e = e' ∧ e.Proper lines
  stmt _ s _ := s.Proper lines
  branch _ other _ := other.Proper lines
  more := []
  kind_eq h := by rw [h.1]
  literal_eq h := by rw [h.1]
  line_of h := h.2.line
  fails hc hl := by
    refine ⟨hc, fun l hm => ?_⟩
    cases hl with
    | some hl => exact Option.some.inj hm ▸ hl
    | none => cases hm
  misses h hk hl := by
    have ht := h.2.text hk
    rw [hl] at ht
    cases ht
  mention name h := by
    obtain ⟨rfl, h⟩ := h
    exact rel_self fun m hm => h.mentions _ m (List.mem_of_find?_eq_some hm)
  ofExpr h := by
    refine ⟨eq_of_built h (fun _ _ h => h.1) fun _ _ h => h.1, ?_⟩
    cases h with
    | int | one => trivial
    | ident ht => exact ht.2.line
    | call ht _ _ hs =>
      exact ⟨ht.2.line, Expr.properEach_iff.2 (forall_of_forall₂ hs fun _ _ h => h.2)⟩
    | paren he => exact he.2
    | minus he => exact ⟨he.2, trivial⟩
    | bin hl hr => exact ⟨hl.2, hr.2⟩
  ofStmt h := by
    have hexprs {es es' : List Expr}
        (h : List.Forall₂ (fun e e' => e = e' ∧ e.Proper lines) es es') :
        Expr.ProperEach lines es :=
      Expr.properEach_iff.2 (forall_of_forall₂ h fun _ _ h => h.2)
    cases h with
    | exit hv => exact hexprs (forall₂_toList hv)
    | letVar ht he => exact ⟨ht.2.line, he.2⟩
    | assign ht he => exact ⟨ht.2.line, he.2⟩
    | call ht hs => exact ⟨ht.2.line, hexprs hs⟩
    | print _ _ hi => exact hexprs (PrintItem.Alike.exprs hi)
    | block _ hb => exact Stmt.properEach_iff.2 (forall_of_forall₂ hb fun _ _ h => h)
    | ifElse hc hb ho => exact ⟨⟨hc.ne_nil, hexprs hc.exprs⟩, hb, ho⟩
    | whileLoop hc hb => exact ⟨⟨hc.ne_nil, hexprs hc.exprs⟩, hb⟩
    | forLoop _ _ hi hc ht hb => exact ⟨hi, ⟨hc.ne_nil, hexprs hc.exprs⟩, ht, hb⟩
    | function ht _ _ _ hb => exact ⟨ht.2.line, hb⟩
    | ret ht hv => exact ⟨ht.2.line, hexprs (forall₂_toList hv)⟩
    | breakLoop ht => exact ht.2.line
    | continueLoop ht => exact ht.2.line
  ofBranch h := by
    cases h with
    | absent => trivial
    | elseIf hc hb hn =>
      refine ⟨⟨hc.ne_nil, Expr.properEach_iff.2 ?_⟩, hb, hn⟩
      exact forall_of_forall₂ hc.exprs fun _ _ h => h.2
    | otherwise hb => exact hb

end Likeness

/-- The end of the tokens counts as on a line of the text. -/
theorem Session.endLine_inText {lines : Nat} {ts : List Token} (hl : 1 ≤ lines)
    (ht : ∀ t ∈ ts, t.Proper lines) : InText lines (Session.ofTokens ts).endLine := by
  cases h : ts.getLast? with
  | none => simpa [Session.ofTokens, h, InText] using hl
  | some t => simpa [Session.ofTokens, h] using (ht t (List.mem_of_getLast? h)).line

namespace Program

variable {source : String} {lines : Nat}

theorem ofTokens_reads {ts : List Token} (hl : 1 ≤ lines) (ht : ∀ t ∈ ts, t.Proper lines) :
    (∀ p, ofTokens ts = .ok p → Stmt.ProperEach lines p) ∧
      ∀ e, ofTokens ts = .error e → e.Honest lines := by
  have hrun : (Likeness.proper lines).Ends False 0 _ ts (Parse.program ts) (Parse.program ts) :=
    Likeness.program_ends (List.forall₂_same.2 fun t h => ⟨rfl, ht t h⟩) rfl
  have he := Session.endLine_inText hl ht
  unfold ofTokens Session.read Session.ofTokens
  dsimp only
  generalize Parse.program ts = x at hrun
  cases hrun with
  | @ok p _ _ _ hp =>
    refine ⟨fun p' h => ?_, fun e h => (by cases h)⟩
    obtain rfl := Except.ok.inj h
    exact Stmt.properEach_iff.2 (Likeness.forall_of_forall₂ hp fun _ _ h => h)
  | @error f _ _ hf =>
    refine ⟨fun p h => (by cases h), fun e h => ?_⟩
    obtain ⟨_, _, -, hk, hn⟩ := hf rfl
    cases h
    refine ⟨hk, ?_⟩
    cases hf : f.line with
    | none => exact he
    | some l => exact hn l hf

/-- A text that is read has its lines in the tree, and one that is not read has a line where it
fails. -/
theorem ofScan_reads (source : String) :
    (∀ p, ofScan (Scan.ofText source) = .ok p → Stmt.ProperEach (Scan.lines source) p) ∧
      ∀ e, ofScan (Scan.ofText source) = .error e → e.Honest (Scan.lines source) := by
  unfold ofScan
  cases h : (Scan.ofText source).result with
  | error e =>
    refine ⟨fun p hp => (nomatch hp), fun e' he => ?_⟩
    cases he
    exact Scan.result_error h
  | ok ts =>
    obtain rfl : (Scan.ofText source).tokens = ts := by
      unfold Scan.result at h
      split at h
      · cases h
      · exact Except.ok.inj h
    exact ofTokens_reads (Nat.le_add_right _ _) (Scan.tokens_proper source)

end Program

end Stackwise
