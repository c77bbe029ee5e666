import Stackwise.Proofs.StmtGrammar

/-! Programs written as tokens.  A tree is in surface form if it is one that the concrete syntax can
spell; then writing it out gives tokens with the texts, and the lines, that the tree records. -/
namespace Stackwise

/-- A token whose line no tree records. -/
def Token.mark (kind : TokenKind) : Token := ⟨kind, none, 0⟩

def BinOp.kind : BinOp → TokenKind
  | add => .plus
  | sub => .minus
  | mul => .star
  | div => .slash

@[simp] theorem BinOp.binOp?_kind (op : BinOp) : op.kind.binOp? = some op := by
  cases op <;> rfl

namespace Expr

def isMinusOne : Expr → Bool
  | .int v => v = -1
  | _ => false

/-- The product with -1 that a minus sign before a term stands for, once it is in parentheses. -/
def isNegation (op : BinOp) (rhs : Expr) : Bool := op = .mul && rhs.isMinusOne

def enclose (parens : Bool) (ts : List Token) : List Token :=
  if parens then .mark .openParen :: (ts ++ [.mark .closeParen]) else ts

mutual

def write (parens : Bool) : Expr → List Token
  | .int v => enclose parens [⟨.intLit, some (Numeral.decimal v.toInt.toNat), 0⟩]
  | .ident name line => enclose parens [⟨.ident, some name, line⟩]
  | .paren inner => enclose parens (inner.write true)
  | .call name args line =>
    enclose parens (⟨.fnName, some name, line⟩ :: .mark .openParen ::
      (writeEach args ++ [.mark .closeParen]))
  | .bin op lhs rhs =>
    if parens && isNegation op rhs then .mark .minus :: lhs.write false
    else enclose parens (lhs.write false ++ .mark op.kind :: rhs.write false)

def writeEach : List Expr → List Token
  | [] => []
  | e :: es =>
    match es with
    | [] => e.write false
    | _ :: _ => e.write false ++ .mark .comma :: writeEach es

end

mutual

/-- No literal is negative, but for the -1 that a minus sign before a term stands for. -/
def Spelled (parens : Bool) : Expr → Prop
  | .int v => 0 ≤ v.toInt
  | .ident _ _ => True
  | .paren inner => inner.Spelled true
  | .call _ args _ => SpelledEach args
  | .bin op lhs rhs =>
    if parens && isNegation op rhs then lhs.isTerm ∧ lhs.Spelled false
    else lhs.Spelled false ∧ rhs.Spelled false

def SpelledEach : List Expr → Prop
  | [] => True
  | e :: es => e.Spelled false ∧ SpelledEach es

end

/-- The expressions that can be written. -/
def Surface (e : Expr) : Prop := e.WellShaped ∧ e.Spelled false

end Expr

section Condition

def Comparison.write : Comparison → List Token
  | eq => [.mark .eq, .mark .eq]
  | ge => [.mark .gt, .mark .eq]
  | le => [.mark .lt, .mark .eq]
  | lt => [.mark .lt]
  | gt => [.mark .gt]

def Connector.write : Connector → Token
  | and => .mark .and
  | or => .mark .or

def Link.write (k : Link) : List Token :=
  match k.comparison with
  | some (cmp, rhs) => k.lhs.write false ++ (cmp.write ++ rhs.write false)
  | none => k.lhs.write false

def Condition.writeRest : Condition → List Token
  | [] => []
  | k :: rest => k.connector.write :: (k.write ++ Condition.writeRest rest)

def Condition.write : Condition → List Token
  | [] => []
  | first :: rest => first.write ++ Condition.writeRest rest

def Condition.writeParen (cond : Condition) : List Token :=
  .mark .openParen :: (Condition.write cond ++ [.mark .closeParen])

def Link.Surface (k : Link) : Prop := ∀ e ∈ k.exprs, e.Surface

/-- There is a first link, which counts as joined by `&&`. -/
def Condition.Surface (cond : Condition) : Prop :=
  (∃ first rest, cond = first :: rest ∧ first.connector = .and) ∧ ∀ k ∈ cond, k.Surface

end Condition

namespace PrintItem

/-- The text without its last character. -/
def chomp (text : String) : String := String.ofList text.toList.dropLast

def writeEach : List PrintItem → List Token
  | [] => []
  | [.str text] => [⟨.stringLit, some (chomp text), 0⟩]
  | .str text :: items => ⟨.stringLit, some text, 0⟩ :: .mark .plus :: writeEach items
  | [.expr value] => value.write false
  | .expr value :: items => value.write false ++ .mark .plus :: writeEach items

/-- Items of which the last is a text that ends a line, and no expression follows another. -/
def SurfaceEach : List PrintItem → Prop
  | [] => False
  | [.str text] => text.toList.getLast? = some '\n'
  | .str _ :: items => SurfaceEach items
  | .expr value :: items =>
    value.Surface ∧ (∃ text rest, items = .str text :: rest) ∧ SurfaceEach items

end PrintItem

namespace Stmt

/-- The operator and the amount of an assignment that can be written with `+=` or `-=`. -/
def update? (name : String) (line : Nat) : Expr → Option (BinOp × Expr)
  | .bin op (.ident name' line') amount =>
    if name' = name ∧ line' = line ∧ op.precedence = 0 then some (op, amount) else none
  | _ => none

theorem update?_eq_some {name : String} {line : Nat} {value : Expr} {op : BinOp} {amount : Expr} :
    update? name line value = some (op, amount) ↔
      value = .bin op (.ident name line) amount ∧ op.precedence = 0 := by
  unfold update?
  split
  · simp only [Option.ite_none_right_eq_some, Option.some.injEq, Prod.mk.injEq, Expr.bin.injEq,
      Expr.ident.injEq]
    grind
  next hne =>
    simp only [reduceCtorEq, false_iff, not_and]
    rintro rfl
    exact absurd rfl (hne _ _ _ _)

def writeBare : Stmt → List Token
  | .assign name value line =>
    match update? name line value with
    | some (op, amount) =>
      ⟨.ident, some name, line⟩ :: .mark op.kind :: .mark .eq :: amount.write false
    | none => ⟨.ident, some name, line⟩ :: .mark .eq :: value.write false
  | .call name args line =>
    ⟨.fnName, some name, line⟩ :: .mark .openParen :: (Expr.writeEach args ++ [.mark .closeParen])
  | _ => []

def writeParams : List String → List Token
  | [] => []
  | [name] => [⟨.ident, some name, 0⟩]
  | name :: names => ⟨.ident, some name, 0⟩ :: .mark .comma :: writeParams names

def writeOption (value : Option Expr) : List Token := Expr.writeEach value.toList

end Stmt

mutual

def Stmt.write : Stmt → List Token
  | .exit value =>
    .mark .kwExit :: .mark .openParen ::
      (Stmt.writeOption value ++ [.mark .closeParen, .mark .semi])
  | .letVar name value line =>
    .mark .kwLet :: ⟨.ident, some name, line⟩ :: .mark .eq :: (value.write false ++ [.mark .semi])
  | .assign name value line => Stmt.writeBare (.assign name value line) ++ [.mark .semi]
  | .block body => .mark .openCurly :: (Stmt.writeEach body ++ [.mark .closeCurly])
  | .print items =>
    .mark .kwPrint :: .mark .openParen ::
      (PrintItem.writeEach items ++ [.mark .closeParen, .mark .semi])
  | .ifElse cond body other =>
    .mark .kwIf :: (Condition.writeParen cond ++ (body.write ++ other.write))
  | .whileLoop cond body => .mark .kwWhile :: (Condition.writeParen cond ++ body.write)
  | .forLoop init cond step body =>
    .mark .kwFor :: .mark .openParen ::
      (init.write ++ (Condition.write cond ++ .mark .semi ::
        (Stmt.writeBare step ++ .mark .closeParen :: body.write)))
  | .function name params body line =>
    .mark .kwFn :: ⟨.fnName, some name, line⟩ :: .mark .openParen ::
      (Stmt.writeParams params ++ .mark .closeParen :: body.write)
  | .ret value _ line => ⟨.kwReturn, none, line⟩ :: (Stmt.writeOption value ++ [.mark .semi])
  | .call name args line => Stmt.writeBare (.call name args line) ++ [.mark .semi]
  | .breakLoop line => [⟨.kwBreak, none, line⟩, .mark .semi]
  | .continueLoop line => [⟨.kwContinue, none, line⟩, .mark .semi]

def Stmt.writeEach : List Stmt → List Token
  | [] => []
  | s :: ss => s.write ++ Stmt.writeEach ss

def ElseBranch.write : ElseBranch → List Token
  | .absent => []
  | .elseIf cond body next =>
    .mark .kwElse :: .mark .kwIf :: (Condition.writeParen cond ++ (body.write ++ next.write))
  | .otherwise body => .mark .kwElse :: body.write

end

def Program.write (p : Program) : List Token := Stmt.writeEach p

mutual

/-- The statements that can be written, in a function or outside of all.  The value of an assignment
may be a sum or difference of the variable and any expression: it is written with `+=` or `-=`. -/
def Stmt.Surface (inFunction : Bool) : Stmt → Prop
  | .exit value => ∀ e ∈ value, e.Surface
  | .letVar name value _ => value.Surface ∧ ∀ m ∈ value.mentions, m.1 ≠ name
  | .assign name value line => value.Surface ∨
      ∃ op amount, value = .bin op (.ident name line) amount ∧ op.precedence = 0 ∧ amount.Surface
  | .block body => body ≠ [] ∧ Stmt.SurfaceEach inFunction body
  | .print items => PrintItem.SurfaceEach items
  | .ifElse cond body other => Condition.Surface cond ∧ body.Surface inFunction ∧
      other.Surface inFunction ∧ (other.isAbsent ∨ ¬ body.endsOpen)
  | .whileLoop cond body => Condition.Surface cond ∧ body.Surface inFunction
  | .forLoop init cond step body => init.isInit ∧ init.Surface inFunction ∧
      Condition.Surface cond ∧ step.isStep ∧ step.Surface inFunction ∧ body.Surface inFunction
  | .function _ params body _ => params.Nodup ∧ body.Surface true
  | .ret value marked _ => marked = inFunction ∧ ∀ e ∈ value, e.Surface
  | .call _ args _ => ∀ e ∈ args, e.Surface
  | .breakLoop _ => True
  | .continueLoop _ => True

def Stmt.SurfaceEach (inFunction : Bool) : List Stmt → Prop
  | [] => True
  | s :: ss => s.Surface inFunction ∧ Stmt.SurfaceEach inFunction ss

def ElseBranch.Surface (inFunction : Bool) : ElseBranch → Prop
  | .absent => True
  | .elseIf cond body next => Condition.Surface cond ∧ body.Surface inFunction ∧
      next.Surface inFunction ∧ (next.isAbsent ∨ ¬ body.endsOpen)
  | .otherwise body => body.Surface inFunction ∧ ¬ body.isIf

end

def Program.Surface (p : Program) : Prop := Stmt.SurfaceEach false p

namespace Numeral

theorem isDigit_digit {d : Nat} (h : d < 10) : (digit d).isDigit := by
  rw [isDigit_iff, toNat_digit d h]
  omega

theorem value_digit {d : Nat} (h : d < 10) : (digit d).toNat - '0'.toNat = d := by
  rw [toNat_digit d h]
  exact Nat.add_sub_cancel_left ..

theorem denotes_decimal (n : Nat) : Denotes (decimal n) n := by
  unfold Denotes decimal
  rw [String.toList_ofList]
  fun_induction digits 10 n with
  | case1 n h ih =>
    obtain ⟨-, hd, hv⟩ := ih
    refine ⟨by simp, ?_, ?_⟩
    · intro c hc
      rcases List.mem_append.1 hc with hc | hc
      · exact hd c hc
      · rw [List.mem_singleton.1 hc]
        exact isDigit_digit (by omega)
    · rw [List.reverse_append, List.reverse_singleton, List.singleton_append, List.map_cons,
        Nat.ofDigits_cons, hv, value_digit (by omega)]
      omega
  | case2 n h =>
    have hn : n < 10 := by omega
    refine ⟨by simp, ?_, ?_⟩
    · simpa using isDigit_digit hn
    · simpa using value_digit hn

theorem read?_decimal (n : Nat) : read? (decimal n).toList = some n := by
  obtain ⟨hn, hd, hv⟩ := denotes_decimal n
  rw [read?_digits hn hd, hv]

theorem readSigned?_signed (i : Int) : readSigned? (signed i).toList = some i := by
  cases i with
  | ofNat n =>
    rw [signed, readSigned?_digits (denotes_decimal n).2.1, read?_decimal]
    rfl
  | negSucc n =>
    have hs : (signed (.negSucc n)).toList = '-' :: (decimal (n + 1)).toList := by simp [signed]
    rw [hs, readSigned?, read?_decimal]
    rfl

theorem int64?_signed (v : Int64) : int64? (signed v.toInt) = some v := by
  rw [int64?, readSigned?_signed, Option.bind_some, if_pos, Int64.ofInt_toInt]
  exact ⟨v.minValue_le_toInt, v.toInt_le⟩

end Numeral

namespace Expr

theorem yields_enclose {parens : Bool} {e : Expr} {ts : List Token} (h : e.Yields ts) :
    Yields (if parens then .paren e else e) (enclose parens ts) := by
  cases parens with
  | false => exact h
  | true => exact .paren rfl rfl h

theorem isNegation_iff {op : BinOp} {rhs : Expr} :
    isNegation op rhs ↔ op = .mul ∧ rhs = .int (-1) := by
  cases rhs <;> simp [isNegation, isMinusOne]

mutual

theorem yields_write {parens : Bool} : (e : Expr) → e.Spelled parens →
    Yields (if parens then .paren e else e) (e.write parens)
  | .int v, h => by
    refine yields_enclose (.int rfl rfl (Numeral.denotes_decimal _) ?_)
    rw [Int.toNat_of_nonneg h]
  | .ident name line, _ => yields_enclose (.ident (t := ⟨.ident, some name, line⟩) rfl rfl)
  | .paren inner, h => yields_enclose (yields_write inner h)
  | .call name args line, h =>
    yields_enclose (.call (f := ⟨.fnName, some name, line⟩) rfl rfl rfl rfl
      (yieldsEach_writeEach args h))
  | .bin op lhs rhs, h => by
    rw [Spelled] at h
    rw [write]
    by_cases hn : (parens && isNegation op rhs) = true
    · rw [if_pos hn] at h ⊢
      obtain ⟨rfl, hm⟩ := Bool.and_eq_true_iff.1 hn
      obtain ⟨rfl, rfl⟩ := isNegation_iff.1 hm
      exact .minus rfl h.1 (yields_write lhs h.2)
    · rw [if_neg hn] at h ⊢
      exact yields_enclose (.bin (yields_write lhs h.1) op.binOp?_kind (yields_write rhs h.2))

theorem yieldsEach_writeEach : (es : List Expr) → SpelledEach es → YieldsEach es (writeEach es)
  | [], _ => .nil
  | [e], h => .one (yields_write e h.1)
  | e :: e' :: es, h => .more (yields_write e h.1) rfl (yieldsEach_writeEach (e' :: es) h.2)

end

theorem Surface.derives {e : Expr} (h : e.Surface) : e.Derives .sum (e.write false) :=
  derives_sum.2 ⟨h.1, yields_write e h.2⟩

theorem Surface.bin_right {op : BinOp} {lhs rhs : Expr} (h : (Expr.bin op lhs rhs).Surface) :
    rhs.Surface := by
  obtain ⟨hw, hs⟩ := h
  rw [Spelled, if_neg (by simp)] at hs
  exact ⟨hw.2.1, hs.2⟩

theorem derivesEach_writeEach {es : List Expr} (h : ∀ e ∈ es, e.Surface) :
    DerivesEach es (writeEach es) := by
  induction es with
  | nil => exact .nil
  | cons e es ih =>
    rw [List.forall_mem_cons] at h
    cases es with
    | nil => exact .one h.1.derives
    | cons e' es => exact .more h.1.derives rfl (ih h.2)

end Expr

section Condition

theorem Comparison.derives_write (cmp : Comparison) : cmp.Derives cmp.write := by
  cases cmp with
  | eq => exact .eq rfl rfl
  | ge => exact .ge rfl rfl
  | le => exact .le rfl rfl
  | lt => exact .lt rfl
  | gt => exact .gt rfl

theorem Link.Surface.derives {k : Link} (h : k.Surface) : k.Derives k.write := by
  obtain ⟨lhs, _ | ⟨cmp, rhs⟩, connector⟩ := k
  · exact .truth (h lhs (by simp [Link.exprs])).derives
  · exact .compare (h lhs (by simp [Link.exprs])).derives cmp.derives_write
      (h rhs (by simp [Link.exprs])).derives

theorem Condition.derives_writeRest {rest : Condition} (h : ∀ k ∈ rest, k.Surface) :
    Condition.DerivesRest rest (Condition.writeRest rest) := by
  induction rest with
  | nil => exact .nil
  | cons k rest ih =>
    rw [List.forall_mem_cons] at h
    refine .cons ?_ h.1.derives (ih h.2)
    cases k.connector <;> rfl

theorem Condition.Surface.derives {cond : Condition} (h : Condition.Surface cond) :
    Condition.Derives cond (Condition.write cond) := by
  obtain ⟨⟨first, rest, rfl, hf⟩, hs⟩ := h
  rw [List.forall_mem_cons] at hs
  exact .mk hf hs.1.derives (Condition.derives_writeRest hs.2)

theorem Condition.Surface.derivesParen {cond : Condition} (h : Condition.Surface cond) :
    Condition.DerivesParen cond (Condition.writeParen cond) := .mk rfl h.derives rfl

end Condition

section Print

theorem PrintItem.chomp_append {text : String} (h : text.toList.getLast? = some '\n') :
    PrintItem.chomp text ++ "\n" = text := by
  rw [← String.toList_inj, String.toList_append, PrintItem.chomp, String.toList_ofList]
  exact List.dropLast_append_getLast? '\n' h

theorem PrintItem.derivesLine_writeEach : (items : List PrintItem) → PrintItem.SurfaceEach items →
    PrintItem.DerivesLine items (PrintItem.writeEach items)
  | [.str text], h => by
    have hl := PrintItem.DerivesLine.last (t := ⟨.stringLit, some (chomp text), 0⟩) rfl rfl
    rwa [chomp_append h] at hl
  | .str text :: item :: items, h =>
    .text rfl rfl rfl (PrintItem.derivesLine_writeEach (item :: items) h)
  | [.expr value], ⟨_, ⟨_, _, h⟩, _⟩ => nomatch h
  | .expr value :: item :: items, ⟨hv, ⟨text, rest, hi⟩, h⟩ => by
    have ih := PrintItem.derivesLine_writeEach (item :: items) h
    rw [hi] at ih ⊢
    exact .expr hv.derives rfl ih

end Print

section Stmt

theorem Stmt.derivesParams_writeParams (names : List String) :
    Stmt.DerivesParams names (Stmt.writeParams names) := by
  induction names with
  | nil => exact .nil
  | cons name names ih =>
    cases names with
    | nil => exact .one rfl rfl
    | cons name' names => exact .more rfl rfl rfl ih

theorem Stmt.derives_writeOption {value : Option Expr} (h : ∀ e ∈ value, e.Surface) :
    Expr.DerivesEach value.toList (Stmt.writeOption value) :=
  Expr.derivesEach_writeEach fun e he => h e (by simpa using he)

theorem Stmt.derivesBare_writeBare {b : Bool} {s : Stmt} (hs : s.isStep) (h : s.Surface b) :
    s.DerivesBare s.writeBare := by
  cases s with
  | assign name value line =>
    rw [Stmt.writeBare]
    cases hu : Stmt.update? name line value with
    | some u =>
      obtain ⟨op, amount⟩ := u
      obtain ⟨rfl, hp⟩ := Stmt.update?_eq_some.1 hu
      have ha : amount.Surface := by
        rcases h with hv | ⟨op', amount', he, -, ha⟩
        · exact hv.bin_right
        · cases he
          exact ha
      exact .update (n := ⟨.ident, some name, line⟩) rfl rfl op.binOp?_kind hp rfl ha.derives
    | none =>
      have hv : value.Surface := by
        rcases h with hv | ⟨op, amount, he, hp, -⟩
        · exact hv
        · simp [Stmt.update?_eq_some.2 ⟨he, hp⟩] at hu
      exact .assign (n := ⟨.ident, some name, line⟩) rfl rfl rfl hv.derives
  | call name args line =>
    exact .call (f := ⟨.fnName, some name, line⟩) rfl rfl rfl (Expr.derivesEach_writeEach h) rfl
  | _ => simp [Stmt.isStep] at hs

end Stmt

mutual

theorem Stmt.derives_write {b : Bool} : (s : Stmt) → s.Surface b → s.Derives b s.write
  | .exit value, h => .exit rfl rfl (Stmt.derives_writeOption h) rfl rfl
  | .letVar name value line, h =>
    .letVar (n := ⟨.ident, some name, line⟩) rfl rfl rfl rfl h.1.derives h.2 rfl
  | .assign name value line, h => .bare (Stmt.derivesBare_writeBare (b := b) rfl h) rfl
  | .block body, h => .block rfl h.1 (Stmt.derivesEach_writeEach body h.2) rfl
  | .print items, h => .print rfl rfl (PrintItem.derivesLine_writeEach items h) rfl rfl
  | .ifElse cond body other, h =>
    .ifElse rfl h.1.derivesParen (Stmt.derives_write body h.2.1)
      (ElseBranch.derives_write other h.2.2.1) h.2.2.2
  | .whileLoop cond body, h => .whileLoop rfl h.1.derivesParen (Stmt.derives_write body h.2)
  | .forLoop init cond step body, h =>
    .forLoop (w := none) rfl rfl h.1 (Stmt.derives_write init h.2.1) h.2.2.1.derives rfl
      (Stmt.derivesBare_writeBare h.2.2.2.1 h.2.2.2.2.1) (by simp) rfl
      (Stmt.derives_write body h.2.2.2.2.2)
  | .function name params body line, h =>
    .function (f := ⟨.fnName, some name, line⟩) rfl rfl rfl rfl
      (Stmt.derivesParams_writeParams params) h.1 rfl (Stmt.derives_write body h.2)
  | .ret value marked line, h => by
    obtain ⟨rfl, h⟩ := h
    exact .ret (k := ⟨.kwReturn, none, line⟩) rfl (Stmt.derives_writeOption h) rfl
  | .call name args line, h => .bare (Stmt.derivesBare_writeBare (b := b) rfl h) rfl
  | .breakLoop line, _ => .breakLoop (k := ⟨.kwBreak, none, line⟩) rfl rfl
  | .continueLoop line, _ => .continueLoop (k := ⟨.kwContinue, none, line⟩) rfl rfl

theorem Stmt.derivesEach_writeEach {b : Bool} : (ss : List Stmt) → Stmt.SurfaceEach b ss →
    Stmt.DerivesEach b ss (Stmt.writeEach ss)
  | [], _ => .nil
  | s :: ss, h => .cons (Stmt.derives_write s h.1) (Stmt.derivesEach_writeEach ss h.2)

theorem ElseBranch.derives_write {b : Bool} : (other : ElseBranch) → other.Surface b →
    other.Derives b other.write
  | .absent, _ => .absent
  | .elseIf _ body next, h =>
    .elseIf rfl rfl h.1.derivesParen (Stmt.derives_write body h.2.1)
      (ElseBranch.derives_write next h.2.2.1) h.2.2.2
  | .otherwise body, h => .otherwise rfl (Stmt.derives_write body h.1) h.2

end

theorem Program.Surface.derives {p : Program} (h : p.Surface) : p.Derives p.write :=
  Stmt.derivesEach_writeEach p h

/-- Reading undoes writing: the tokens that a program is written as are read as that program, to the
last one.  So are all other tokens that the grammar derives from it: with other lines where the tree
records none, with a semicolon after the step of a `for`, with the last newline of a `print` left
out, with `=` instead of `+=`, or with no amount where it is 1. -/
theorem Program.parse_write (p : Program) (h : p.Surface) :
    Parse.program p.write = .ok p [] ∧ Program.ofTokens p.write = .ok p ∧
    p.Derives p.write ∧
    ∀ ts, p.Derives ts → Parse.program ts = .ok p [] ∧ Program.ofTokens ts = .ok p := by
  have hr (ts : List Token) (hd : p.Derives ts) :
      Parse.program ts = .ok p [] ∧ Program.ofTokens ts = .ok p := by
    have hp := Parse.program_complete hd
    exact ⟨hp, by simp [Program.ofTokens, Session.read, Session.ofTokens, hp]⟩
  obtain ⟨h₁, h₂⟩ := hr _ h.derives
  exact ⟨h₁, h₂, h.derives, hr⟩

/-- A program that is written as

    fn f(a, b) { return -a * (b + 2); }
    let n = 10;
    for (let i = 0; i <= n && f(i, 1) > 3 || i; i -= n - 1) {
      if (i == 4) print("i: " + i + "!");
      else if (i) { break; }
      else while (i < 7) i = i * 2;
    }
    f(n, 0);
    exit(n / 3);
-/
def sampleProgram : Program :=
  [.function "f" ["a", "b"] (.block [.ret (some (.bin .mul
      (.paren (.bin .mul (.ident "a" 1) (.int (-1))))
      (.paren (.bin .add (.ident "b" 1) (.int 2))))) true 1]) 1,
    .letVar "n" (.int 10) 2,
    .forLoop (.letVar "i" (.int 0) 3)
      [⟨.ident "i" 3, some (.le, .ident "n" 3), .and⟩,
        ⟨.call "f" [.ident "i" 3, .int 1] 3, some (.gt, .int 3), .and⟩,
        ⟨.ident "i" 3, none, .or⟩]
      (.assign "i" (.bin .sub (.ident "i" 3) (.bin .sub (.ident "n" 3) (.int 1))) 3)
      (.block [.ifElse [⟨.ident "i" 4, some (.eq, .int 4), .and⟩]
        (.print [.str "i: ", .expr (.ident "i" 4), .str "!\n"])
        (.elseIf [⟨.ident "i" 5, none, .and⟩] (.block [.breakLoop 5])
          (.otherwise (.whileLoop [⟨.ident "i" 6, some (.lt, .int 7), .and⟩]
            (.assign "i" (.bin .mul (.ident "i" 6) (.int 2)) 6))))]),
    .call "f" [.ident "n" 8, .int 0] 8,
    .exit (some (.bin .div (.ident "n" 9) (.int 3)))]

theorem Program.parse_write_sampleProgram :
    Program.Surface sampleProgram ∧
      Parse.program (Program.write sampleProgram) = .ok sampleProgram [] := by
  have h : Program.Surface sampleProgram := by
    simp [sampleProgram, Program.Surface, Stmt.SurfaceEach, Stmt.Surface, ElseBranch.Surface,
      Condition.Surface, Link.Surface, Link.exprs, PrintItem.SurfaceEach, Expr.Surface,
      Expr.WellShaped, Expr.WellShapedEach, Expr.Spelled, Expr.SpelledEach, Expr.mentions,
      Expr.isNegation, Expr.isMinusOne, Expr.isTerm, Expr.isProduct, BinOp.precedence, Stmt.isInit,
      Stmt.isStep, Stmt.isIf, Stmt.endsOpen, ElseBranch.isAbsent]
  exact ⟨h, (parse_write sampleProgram h).1⟩

end Stackwise
