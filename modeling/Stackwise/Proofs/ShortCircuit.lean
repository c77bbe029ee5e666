import Stackwise.Proofs.Branching
import Stackwise.Proofs.Execution

/-! Which links of a condition its code evaluates, and where it goes then.  In the place of an
operand's code stands code that notes the operand's number and pushes any word; so a run of the code
says which operands were evaluated, and in what order. -/
namespace Stackwise

open Emit Machine

def Connector.join : Connector → Bool → Bool → Bool
  | and, v, b => v && b
  | or, v, b => v || b

/-- Nothing that is joined to the truth value changes it. -/
def Connector.settles : Connector → Bool → Bool
  | and, v => !v
  | or, v => v

namespace Condition

variable (truth : Link → Bool)

/-- The truth value of a condition: those of all its links, joined from left to right. -/
def fold : Condition → Bool
  | [] => false
  | first :: rest => rest.foldl (fun v k => k.connector.join v (truth k)) (truth first)

/-- The links that are evaluated after a truth value, one that cannot change it being skipped. -/
def evaluatedAfter : Bool → Condition → Condition
  | _, [] => []
  | v, k :: rest =>
    (if k.connector.settles v then [] else [k]) ++
      evaluatedAfter (k.connector.join v (truth k)) rest

/-- The links that decide a condition. -/
def evaluated : Condition → Condition
  | [] => []
  | first :: rest => first :: evaluatedAfter truth (truth first) rest

end Condition

def Expr.number : Expr → Nat
  | ident _ n => n
  | _ => 0

def Link.operands (k : Link) : List Nat := k.exprs.map Expr.number

def Link.truth (values : Nat → Int64) (k : Link) : Bool :=
  match k.comparison with
  | some (cmp, rhs) => cmp.holds (values k.lhs.number) (values rhs.number)
  | none => values k.lhs.number != 0

/-- The link with its operands numbered, the left one with twice the link's own number. -/
def Link.numbered (i : Nat) (k : Link) : Link :=
  { k with
    lhs := .ident "" (2 * i)
    comparison := k.comparison.map fun p => (p.1, .ident "" (2 * i + 1)) }

namespace Condition

def numberedFrom : Nat → Condition → Condition
  | _, [] => []
  | i, k :: rest => k.numbered i :: numberedFrom (i + 1) rest

def numbered (cond : Condition) : Condition := numberedFrom 0 cond

def operand? (cond : Condition) (n : Nat) : Option Expr :=
  cond[n / 2]?.bind fun k => if n % 2 = 0 then some k.lhs else k.comparison.map Prod.snd

end Condition

/-- Notes in `rcx` which operand is evaluated, and pushes a word. -/
def Emit.operandCode (values : Nat → Int64) (n : Nat) : Code :=
  [.instr (.mov (.reg .rcx) (.int n)), .instr (.mov (.reg .rax) (.int (values n).toInt)),
    .instr (.push (.reg .rax))]

/-- Emits a numbered operand, which is to have the given word. -/
def Emit.operand (values : Nat → Int64) (e : Expr) : Emit Unit := do
  instr (.mov (.reg .rcx) (.int e.number))
  load (.int (values e.number).toInt)

theorem Emit.operand_eq_ok {values : Nat → Int64} {e : Expr} {c : Cursor} {r : Emitted Unit} :
    operand values e c = .ok r ↔
      r = ⟨(), ⟨c.height + 1, c.labels⟩, operandCode values e.number⟩ := by
  simp [operand, operandCode, bind_eq_ok]

namespace Line

/-- The operand whose evaluation a line notes. -/
def operand? : Line → Option Nat
  | instr (.mov (.reg .rcx) (.int n)) => some n.toNat
  | _ => none

/-- The code of operands where they are evaluated, in the place of the lines that stand for it. -/
def expand (operand : Nat → Code) : Line → Code
  | instr (.mov (.reg .rcx) (.int n)) => operand n.toNat
  | instr (.mov _ _) => []
  | instr (.push _) => []
  | l => [l]

end Line

section Run

variable {code post rest : Code} {values : Nat → Int64} {stack : List Slot} {out : List UInt8}
  {s : State}

theorem Machine.Stands.passes_operand {n : Nat}
    (h : Stands code (operandCode values n ++ rest) stack out s) :
    ∃ t, Passes code s (operandCode values n) t ∧
      Stands code rest (.word (values n) :: stack) out t := by
  obtain ⟨h₁, hs₁⟩ := h.mov (by decide) State.read?_int
  obtain ⟨h₂, hs₂⟩ := hs₁.mov (by decide) State.read?_int
  obtain ⟨t, h₃, hs₃, -⟩ := hs₂.push (w := values n) (by simp [Value.word?])
  exact ⟨t, .step h.line h₁ (.step hs₁.line h₂ (.step hs₂.line h₃ (.refl t))), hs₃⟩

theorem Line.filterMap_operandCode (n : Nat) :
    (operandCode values n).filterMap Line.operand? = [n] := by
  simp [operandCode, List.filterMap_cons, Line.operand?]

theorem Link.emit_passes {k : Link} {target : Label} {truth : Bool} {c : Cursor} {r : Emitted Unit}
    (h : k.emit (operand values) target truth c = .ok r) (hl : code.count (.label target) ≤ 1)
    (ht : .label target :: post <:+ code) (hs : Stands code (r.code ++ rest) stack out s) :
    ∃ lines t, Passes code s lines t ∧
      Stands code (if k.truth values = truth then post else rest) stack out t ∧
      lines.filterMap Line.operand? = k.operands := by
  obtain ⟨r₁, h₁, h₂⟩ := Link.emit_eq_ok.1 h
  obtain rfl := operand_eq_ok.1 h₁
  cases hk : k.comparison with
  | some p =>
    obtain ⟨cmp, rhs⟩ := p
    rw [hk] at h₂
    obtain ⟨r₂, h₂, -, rfl⟩ := h₂
    obtain rfl := operand_eq_ok.1 h₂
    simp only [List.append_assoc, List.cons_append, List.nil_append] at hs
    obtain ⟨s₁, hp₁, hs₁⟩ := hs.passes_operand
    obtain ⟨s₂, hp₂, hs₂⟩ := hs₁.passes_operand
    obtain ⟨t, hp₃, hs₃⟩ := hs₂.passes_cmp hl ht
    rw [Comparison.holds_failing_when] at hp₃ hs₃
    refine ⟨_, t, hp₁.trans (hp₂.trans hp₃), ?_, ?_⟩
    · simpa [Link.truth, hk] using hs₃
    · simp only [List.filterMap_append, Line.filterMap_operandCode]
      split <;> simp [List.filterMap_cons, Line.operand?, Link.operands, Link.exprs, hk]
  | none =>
    rw [hk] at h₂
    obtain ⟨-, rfl⟩ := h₂
    simp only [List.append_assoc, List.cons_append, List.nil_append] at hs
    obtain ⟨s₁, hp₁, hs₁⟩ := hs.passes_operand
    obtain ⟨t, hp₂, hs₂⟩ := hs₁.passes_test hl ht
    rw [ConditionCode.holds_zero_when] at hp₂ hs₂
    refine ⟨_, t, hp₁.trans hp₂, ?_, ?_⟩
    · simpa [Link.truth, hk] using hs₂
    · simp only [List.filterMap_append, Line.filterMap_operandCode]
      split <;> simp [List.filterMap_cons, Line.operand?, Link.operands, Link.exprs, hk]

/-- From before `rest`, with operands evaluated already, the machine comes before `goal`, and the
operands evaluated by then are the given ones. -/
def Machine.Arrives (code : Code) (stack : List Slot) (out : List UInt8) (goal : Code)
    (all : List Nat) (rest : Code) (before : List Nat) : Prop :=
  ∀ s, Stands code rest stack out s → ∃ lines t, Passes code s lines t ∧
    Stands code goal stack out t ∧ before ++ lines.filterMap Line.operand? = all

def Link.check (values : Nat → Int64) (k : Link) : Check (List Nat) := fun Q before =>
  Q (k.truth values) (before ++ k.operands)

theorem Condition.checkRest_iff (values : Nat → Int64) (rest : Condition)
    (Q : Bool → List Nat → Prop) : ∀ (v : Bool) (before : List Nat),
      Condition.checkRest (Link.check values) v rest Q before ↔
        Q (rest.foldl (fun v k => k.connector.join v (k.truth values)) v)
          (before ++
            (Condition.evaluatedAfter (Link.truth values) v rest).flatMap Link.operands) := by
  induction rest with
  | nil => simp [Condition.checkRest, Condition.evaluatedAfter]
  | cons k rest ih =>
    intro v before
    cases hk : k.connector <;> cases v <;> simp [Condition.checkRest, Condition.evaluatedAfter,
      Link.check, Connector.join, Connector.settles, hk, ih]

theorem Condition.checkAll_iff (values : Nat → Int64) {cond : Condition} (hc : cond ≠ [])
    (Q : Bool → List Nat → Prop) (before : List Nat) :
    Condition.checkAll (Link.check values) cond Q before ↔
      Q (Condition.fold (Link.truth values) cond)
        (before ++ (Condition.evaluated (Link.truth values) cond).flatMap Link.operands) := by
  cases cond with
  | nil => exact absurd rfl hc
  | cons first rest =>
    simp [Condition.checkAll, Link.check, Condition.checkRest_iff, Condition.fold,
      Condition.evaluated]

theorem Emit.operand_pushes (e : Expr) (c : Cursor) (r : Emitted Unit)
    (h : operand values e c = .ok r) : Pushes c 1 r := by
  obtain rfl := operand_eq_ok.1 h
  exact ⟨rfl, fun l => by simp [operandCode]⟩

theorem Machine.Arrives.branches {goal : Code} {all : List Nat} {height : Nat}
    (hl : ∀ l, code.count (.label l) ≤ 1) :
    Branches (Link.check values) code (operand values) height
      (Arrives code stack out goal all) where
  mono hq hi := hi _ _ hq
  label hk s hs := by
    obtain ⟨h₁, hs₁⟩ := hs.label
    obtain ⟨lines, t, hp, hst, hw⟩ := hk _ hs₁
    exact ⟨_, t, .step hs.line h₁ hp, hst, by simpa [List.filterMap_cons, Line.operand?] using hw⟩
  jump ht hk s hs := by
    obtain ⟨s₁, h₁, hs₁, -⟩ := hs.jump (hl _) ht
    obtain ⟨h₂, hs₂⟩ := hs₁.label
    obtain ⟨lines, t, hp, hst, hw⟩ := hk _ hs₂
    exact ⟨_, t, .step hs.line h₁ (.step hs₁.line h₂ hp), hst,
      by simpa [List.filterMap_cons, Line.operand?] using hw⟩
  link h _ ht hk s hs := by
    rw [Link.check, ← apply_ite (Arrives code stack out goal all)] at hk
    obtain ⟨lines₁, s₁, hp₁, hs₁, hn⟩ := Link.emit_passes h (hl _) ht hs
    obtain ⟨lines, t, hp, hst, hw⟩ := hk s₁ hs₁
    refine ⟨_, t, hp₁.trans hp, hst, ?_⟩
    rw [List.filterMap_append, hn, ← List.append_assoc, hw]

/-- The code of a condition goes to the target if the condition has the truth value, and else on;
on the way it evaluates the links that decide. -/
theorem Condition.emit_passes {cond : Condition} {target : Label} {truth : Bool} {c : Cursor}
    {r : Emitted Unit} (h : Condition.emit (operand values) cond target truth c = .ok r)
    (hc : cond ≠ []) (hl : ∀ l, code.count (.label l) ≤ 1) (ht : .label target :: post <:+ code)
    (hs : Stands code (r.code ++ rest) stack out s) :
    ∃ lines t, Passes code s lines t ∧
      Stands code (if Condition.fold (Link.truth values) cond = truth then post else rest) stack out
        t ∧
      lines.filterMap Line.operand? =
        (Condition.evaluated (Link.truth values) cond).flatMap Link.operands := by
  let goal := if Condition.fold (Link.truth values) cond = truth then post else rest
  let all := (Condition.evaluated (Link.truth values) cond).flatMap Link.operands
  have here : Arrives code stack out goal all goal all := fun t ht => ⟨[], t, .refl t, ht, by simp⟩
  have ha : Arrives code stack out goal all (r.code ++ rest) [] := by
    refine (Arrives.branches hl).condition_of_check
      (Q := fun b w => b = Condition.fold (Link.truth values) cond ∧ w = all)
      operand_pushes h rfl ht hs.suffix ?_ ?_ ((Condition.checkAll_iff values hc _ _).2 ⟨rfl, rfl⟩)
    · rintro w ⟨hb, rfl⟩
      simpa [goal, hb] using here
    · rintro w ⟨hb, rfl⟩
      simpa [goal, ← hb] using here
  obtain ⟨lines, t, hp, hst, hw⟩ := ha s hs
  exact ⟨lines, t, hp, hst, hw⟩

end Run

section Expr

variable {table : Signatures} {scope : Scope}

mutual

/-- The code of an expression hangs on the height, but not on the labels handed out. -/
theorem Expr.emit_ok (height : Nat) : (e : Expr) →
    (∀ m ∈ e.mentions, (scope.find? m.1).isSome) →
    (∀ s ∈ e.calls, table.Fits s) →
    ∃ code, ∀ n, e.emit table scope ⟨height, n⟩ = .ok ⟨(), ⟨height + 1, n⟩, code⟩
  | .int v, _, _ => ⟨_, fun n => Expr.emit_int_eq_ok.2 rfl⟩
  | .ident name line, hm, _ => by
    obtain ⟨v, hv⟩ := Option.isSome_iff_exists.1 (hm (name, line) (by simp [Expr.mentions]))
    exact ⟨[.instr (.mov (.reg .rax) (.slot (8 * (height - v.slot - 1)))),
      .instr (.push (.reg .rax))], fun n => Expr.emit_ident_eq_ok.2 ⟨v, hv, rfl⟩⟩
  | .paren inner, hm, hc => by
    simp only [Expr.mentions, Expr.calls] at hm hc
    simpa only [Expr.emit] using Expr.emit_ok height inner hm hc
  | .call name args line, hm, hc => by
    simp only [Expr.mentions, Expr.calls, List.mem_append, List.mem_singleton] at hm hc
    obtain ⟨code, h⟩ := Expr.emitEach_ok height args hm fun s hs => hc s (.inl hs)
    refine ⟨code ++ .instr (.call (.function name)) :: dropping args.length ++
      [.instr (.push (.reg .rax))], fun n => Expr.emit_call_eq_ok.2
        ⟨_, call_eq_ok.2 ⟨hc _ (.inr rfl), _, h n, Nat.le_add_left _ _, rfl⟩, ?_⟩⟩
    simp
  | .bin op lhs rhs, hm, hc => by
    simp only [Expr.mentions, Expr.calls, List.mem_append] at hm hc
    obtain ⟨code₁, h₁⟩ := Expr.emit_ok height rhs (fun m h => hm m (.inr h)) fun s h =>
        hc s (.inr h)
    obtain ⟨code₂, h₂⟩ := Expr.emit_ok (height + 1) lhs (fun m h => hm m (.inl h))
      fun s h => hc s (.inl h)
    exact ⟨code₁ ++ (code₂ ++ .instr (.pop .rax) :: .instr (.pop .rbx) ::
      (op.code.map .instr ++ [.instr (.push (.reg .rax))])),
      fun n => Expr.emit_bin_eq_ok.2 ⟨_, _, h₁ n, h₂ n, Nat.le_add_left _ _, rfl⟩⟩

theorem Expr.emitEach_ok (height : Nat) : (es : List Expr) →
    (∀ m ∈ Expr.mentionsEach es, (scope.find? m.1).isSome) →
    (∀ s ∈ Expr.callsEach es, table.Fits s) →
    ∃ code, ∀ n, Expr.emitEach table scope es ⟨height, n⟩ =
      .ok ⟨(), ⟨height + es.length, n⟩, code⟩
  | [], _, _ => ⟨[], fun n => by simp [Expr.emitEach]⟩
  | e :: es, hm, hc => by
    simp only [Expr.mentionsEach, Expr.callsEach, List.mem_append] at hm hc
    obtain ⟨code₁, h₁⟩ := Expr.emit_ok height e (fun m h => hm m (.inl h)) fun s h => hc s (.inl h)
    obtain ⟨code₂, h₂⟩ := Expr.emitEach_ok (height + 1) es (fun m h => hm m (.inr h))
      fun s h => hc s (.inr h)
    refine ⟨code₁ ++ code₂, fun n => Expr.emitEach_cons_eq_ok.2 ⟨_, _, h₁ n, h₂ n, ?_⟩⟩
    simp only [List.length_cons, Emitted.mk.injEq, Cursor.mk.injEq, and_true, true_and]
    omega

end

end Expr

/-- From one height to another, one action emits what another one does once its lines are
expanded. -/
def Emit.Expands {α : Type} (f : Line → Code) (height height' : Nat) (m m' : Emit α) : Prop :=
  ∀ n, ∃ a : Emitted α, m' ⟨height, n⟩ = .ok a ∧ a.cursor.height = height' ∧
    m ⟨height, n⟩ = .ok ⟨a.value, a.cursor, a.code.flatMap f⟩

namespace Emit.Expands

variable {α β : Type} {f : Line → Code} {height height' height'' : Nat}

theorem bind {m m' : Emit α} {k k' : α → Emit β} (hm : Expands f height height' m m')
    (hk : ∀ x, Expands f height' height'' (k x) (k' x)) :
    Expands f height height'' (m >>= k) (m' >>= k') := by
  intro n
  obtain ⟨a, ha, hh, hr⟩ := hm n
  obtain ⟨b, hb, hh', hr'⟩ := hk a.value a.cursor.labels
  have hc : a.cursor = ⟨height', a.cursor.labels⟩ := by rw [← hh]
  rw [← hc] at hb hr'
  exact ⟨_, bind_eq_ok.2 ⟨a, b, ha, hb, rfl⟩, hh',
    bind_eq_ok.2 ⟨_, _, hr, hr', by simp⟩⟩

theorem pure (x : α) : Expands f height height (Pure.pure x) (Pure.pure x) :=
  fun _ => ⟨_, rfl, rfl, rfl⟩

theorem freshLabel : Expands f height height Emit.freshLabel Emit.freshLabel :=
  fun _ => ⟨_, rfl, rfl, rfl⟩

theorem line {l : Line} (hl : f l = [l]) : Expands f height height (Emit.line l) (Emit.line l) :=
  fun _ => ⟨_, line_apply l _, rfl, by simp [line_apply, hl]⟩

theorem pop {r : Reg} (hr : f (.instr (.pop r)) = [.instr (.pop r)]) :
    Expands f (height + 1) height (Emit.pop r) (Emit.pop r) := by
  intro n
  have hp : Emit.pop r ⟨height + 1, n⟩ = .ok ⟨(), ⟨height, n⟩, [.instr (.pop r)]⟩ := by
    simp [pop_apply]
  exact ⟨_, hp, rfl, by simp [hp, hr]⟩

end Emit.Expands

section Expansion

variable {value : Expr → Emit Unit} {operands : Nat → Code} {values : Nat → Int64} {height : Nat}

/-- The operands of the link with the number `i` have the code that stands under their numbers. -/
structure Link.Operated (value : Expr → Emit Unit) (operands : Nat → Code) (height i : Nat)
    (k : Link) : Prop where
  lhs : ∀ n, value k.lhs ⟨height, n⟩ = .ok ⟨(), ⟨height + 1, n⟩, operands (2 * i)⟩
  rhs : ∀ cmp e, k.comparison = some (cmp, e) → ∀ n,
    value e ⟨height + 1, n⟩ = .ok ⟨(), ⟨height + 2, n⟩, operands (2 * i + 1)⟩

theorem Emit.operand_expands {e : Expr} {m : Nat}
    (h : ∀ n, value e ⟨height, n⟩ = .ok ⟨(), ⟨height + 1, n⟩, operands m⟩) :
    Expands (Line.expand operands) height (height + 1) (value e)
      (operand values (.ident "" m)) :=
  fun n => ⟨_, operand_eq_ok.2 rfl, rfl, by simp [h n, operandCode, Line.expand, Expr.number]⟩

theorem Link.emit_expands {i : Nat} {k : Link} (hk : k.Operated value operands height i)
    (target : Label) (truth : Bool) :
    Expands (Line.expand operands) height height (k.emit value target truth)
      ((k.numbered i).emit (operand values) target truth) := by
  rw [Link.emit_eq, Link.emit_eq]
  refine (operand_expands hk.lhs).bind fun _ => ?_
  cases hc : k.comparison with
  | none =>
    simp only [Link.numbered, hc, Option.map_none]
    exact (Expands.pop rfl).bind fun _ => (Expands.line rfl).bind fun _ => Expands.line rfl
  | some p =>
    simp only [Link.numbered, hc, Option.map_some]
    exact (operand_expands (hk.rhs _ _ hc)).bind fun _ => (Expands.pop rfl).bind fun _ =>
      (Expands.pop rfl).bind fun _ => (Expands.line rfl).bind fun _ => Expands.line rfl

theorem Condition.isEmpty_numberedFrom (i : Nat) (cond : Condition) :
    (numberedFrom i cond).isEmpty = cond.isEmpty := by
  cases cond <;> rfl

theorem Condition.any_or_numberedFrom (cond : Condition) (i : Nat) :
    ((numberedFrom i cond).any fun k => k.connector = .or) =
      cond.any fun k => k.connector = .or := by
  induction cond generalizing i with
  | nil => rfl
  | cons k rest ih => simp [numberedFrom, Link.numbered, ih]

theorem Exits.falseLabel_expands (exits : Exits) (rest : Condition) (i : Nat) :
    Expands (Line.expand operands) height height (exits.falseLabel rest)
      (exits.falseLabel (Condition.numberedFrom i rest)) := by
  unfold Exits.falseLabel
  rw [Condition.any_or_numberedFrom]
  split
  · exact .freshLabel
  · exact .pure _

theorem Exits.link_expands {i j : Nat} {k : Link} (hk : k.Operated value operands height i)
    (exits : Exits) (rest : Condition) (ifFalse : Label) :
    Expands (Line.expand operands) height height (exits.link value k rest ifFalse)
      (exits.link (operand values) (k.numbered i) (Condition.numberedFrom j rest) ifFalse) := by
  unfold Exits.link
  rw [Condition.isEmpty_numberedFrom]
  split
  · exact Link.emit_expands hk _ _
  · exact Link.emit_expands hk _ _

theorem Exits.links_expands (exits : Exits) (rest : Condition) : ∀ (i : Nat) (ifFalse : Label),
    (∀ j (k : Link), rest[j]? = some k → k.Operated value operands height (i + j)) →
    Expands (Line.expand operands) height height (exits.links value ifFalse rest)
      (exits.links (operand values) ifFalse (Condition.numberedFrom i rest)) := by
  induction rest with
  | nil => exact fun _ _ _ => .pure ()
  | cons k rest ih =>
    intro i ifFalse ho
    have hk : k.Operated value operands height i := ho 0 k rfl
    have hrest : ∀ j (k : Link), rest[j]? = some k →
        k.Operated value operands height (i + 1 + j) := by
      intro j k hj
      have := ho (j + 1) k hj
      rwa [← Nat.add_assoc, Nat.add_right_comm] at this
    have hn : (k.numbered i).connector = k.connector := rfl
    rw [Condition.numberedFrom, Exits.links, Exits.links, hn]
    cases k.connector with
    | and => exact (exits.link_expands hk rest _).bind fun _ => ih (i + 1) _ hrest
    | or =>
      simp only [Condition.isEmpty_numberedFrom]
      split
      · exact (Expands.line rfl).bind fun _ => (Expands.line rfl).bind fun _ =>
          exits.link_expands hk rest _
      · exact Expands.freshLabel.bind fun _ => (Expands.line rfl).bind fun _ =>
          (Expands.line rfl).bind fun _ => (exits.falseLabel_expands rest _).bind fun _ =>
          (exits.link_expands hk rest _).bind fun _ => (Expands.line rfl).bind fun _ =>
          ih (i + 1) _ hrest

/-- A condition emits what it emits with its operands numbered, but for the code of the operands. -/
theorem Condition.emit_expands (values : Nat → Int64) {cond : Condition} (hc : cond ≠ [])
    (ho : ∀ j (k : Link), cond[j]? = some k → k.Operated value operands height j) (target : Label)
    (truth : Bool) :
    Expands (Line.expand operands) height height (Condition.emit value cond target truth)
      (Condition.emit (operand values) cond.numbered target truth) := by
  cases cond with
  | nil => exact absurd rfl hc
  | cons first rest =>
    have hrest : ∀ j (k : Link), rest[j]? = some k → k.Operated value operands height (1 + j) := by
      intro j k hj
      have := ho (j + 1) k hj
      rwa [Nat.add_comm] at this
    have htail (exits : Exits) (last : Emit Unit)
        (hlast : Expands (Line.expand operands) height height last last) :
        Expands (Line.expand operands) height height
          (do
            let firstFalse ← exits.falseLabel rest
            exits.link value first rest firstFalse
            exits.links value firstFalse rest
            last)
          (do
            let firstFalse ← exits.falseLabel (numberedFrom 1 rest)
            exits.link (operand values) (first.numbered 0) (numberedFrom 1 rest) firstFalse
            exits.links (operand values) firstFalse (numberedFrom 1 rest)
            last) :=
      (exits.falseLabel_expands rest 1).bind fun _ =>
        (exits.link_expands (ho 0 first rfl) rest _).bind fun _ =>
        (exits.links_expands rest 1 _ hrest).bind fun _ => hlast
    simp only [Condition.numbered, Condition.numberedFrom, Condition.emit_cons]
    split
    · exact Expands.freshLabel.bind fun _ => htail _ _ (.line rfl)
    · exact (Expands.pure target).bind fun _ => htail _ _ (.pure ())

end Expansion

theorem Expr.mentionsEach_eq (es : List Expr) :
    Expr.mentionsEach es = es.flatMap Expr.mentions := by
  induction es with
  | nil => rfl
  | cons e es ih => simp [Expr.mentionsEach, ih]

theorem Expr.callsEach_eq (es : List Expr) : Expr.callsEach es = es.flatMap Expr.calls := by
  induction es with
  | nil => rfl
  | cons e es ih => simp [Expr.callsEach, ih]

theorem Condition.mem_exprs_of_operand? {cond : Condition} {n : Nat} {e : Expr}
    (h : cond.operand? n = some e) : e ∈ cond.exprs := by
  obtain ⟨k, hk, he⟩ := Option.bind_eq_some_iff.1 h
  refine List.mem_flatMap.2 ⟨k, List.mem_of_getElem? hk, ?_⟩
  split at he
  · obtain rfl := Option.some.inj he
    cases hc : k.comparison <;> simp [Link.exprs, hc]
  · obtain ⟨p, hp, rfl⟩ := Option.map_eq_some_iff.1 he
    simp [Link.exprs, hp]

theorem Emit.Places.count_label_le_one {α : Type} {c : Cursor} {r : Emitted α} (h : Places c r)
    {before after : Code} (hd : ∀ l, (before ++ after).count (.label l) ≤ 1)
    (hn : ∀ n, c.labels ≤ n → n < r.cursor.labels → .label (.fresh n) ∉ before ++ after)
    (l : Label) : (before ++ (r.code ++ after)).count (.label l) ≤ 1 := by
  have hl := h l
  have hd := hd l
  simp only [List.count_append] at hd ⊢
  cases l with
  | fresh n =>
    by_cases hr : c.labels ≤ n ∧ n < r.cursor.labels
    · have hz := List.count_eq_zero.2 (hn n hr.1 hr.2)
      rw [List.count_append] at hz
      simp only [Label.under] at hl
      split_ifs at hl <;> omega
    · simp only [Label.under] at hl
      split_ifs at hl <;> omega
  | _ =>
    simp only [Label.under] at hl
    omega

/-- The code of a condition whose variables are declared and whose calls fit is emitted, and with
code in the place of its operands that pushes any words it goes to the target if the truth values of
the links, joined from left to right, are the given one, and else on to its end.  The operands
evaluated on the way are those of the links that decide, each once and in order. -/
theorem Condition.emit_short_circuits (table : Signatures) (scope : Scope) (cond : Condition)
    (target : Label) (truth : Bool) (c : Cursor) (hc : cond ≠ [])
    (hm : ∀ m ∈ Expr.mentionsEach cond.exprs, (scope.find? m.1).isSome)
    (hs : ∀ s ∈ Expr.callsEach cond.exprs, table.Fits s) :
    ∃ r operands, Condition.emit (Expr.emit table scope) cond target truth c = .ok r ∧
      r.cursor.height = c.height ∧
      (∀ n e, cond.operand? n = some e → ∀ labels, e.emit table scope ⟨c.height + n % 2, labels⟩ =
        .ok ⟨(), ⟨c.height + n % 2 + 1, labels⟩, operands n⟩) ∧
      ∀ values : Nat → Int64, ∃ code,
        Condition.emit (operand values) cond.numbered target truth c = .ok ⟨(), r.cursor, code⟩ ∧
        r.code = code.flatMap (Line.expand operands) ∧
        ∀ before after post stack out s,
          (∀ l, (before ++ after).count (.label l) ≤ 1) →
          (∀ n, c.labels ≤ n → n < r.cursor.labels → .label (.fresh n) ∉ before ++ after) →
          .label target :: post <:+ before ++ (code ++ after) →
          Stands (before ++ (code ++ after)) (code ++ after) stack out s →
          ∃ lines t, Passes (before ++ (code ++ after)) s lines t ∧
            Stands (before ++ (code ++ after))
              (if Condition.fold (Link.truth values) cond.numbered = truth then post else after)
              stack out t ∧
            lines.filterMap Line.operand? =
              (Condition.evaluated (Link.truth values) cond.numbered).flatMap Link.operands := by
  have hop (n : Nat) : ∃ code, ∀ e, cond.operand? n = some e → ∀ labels,
      e.emit table scope ⟨c.height + n % 2, labels⟩ =
        .ok ⟨(), ⟨c.height + n % 2 + 1, labels⟩, code⟩ := by
    cases he : cond.operand? n with
    | none => exact ⟨[], by simp⟩
    | some e =>
      have hmem := Condition.mem_exprs_of_operand? he
      rw [Expr.mentionsEach_eq] at hm
      rw [Expr.callsEach_eq] at hs
      obtain ⟨code, h⟩ := Expr.emit_ok (c.height + n % 2) e
        (fun m h => hm m (List.mem_flatMap.2 ⟨e, hmem, h⟩))
        fun s h => hs s (List.mem_flatMap.2 ⟨e, hmem, h⟩)
      exact ⟨code, fun e' he' => Option.some.inj he' ▸ h⟩
  choose operands hop using hop
  have ho : ∀ j (k : Link), cond[j]? = some k →
      k.Operated (Expr.emit table scope) operands c.height j := by
    intro j k hj
    refine ⟨fun n => ?_, fun cmp e he n => ?_⟩
    · simpa using hop (2 * j) k.lhs (by simp [operand?, hj]) n
    · simpa [Nat.add_mod] using hop (2 * j + 1) e (by
        have hd : (2 * j + 1) / 2 = j := by omega
        simp [operand?, hd, hj, he, Nat.add_mod]) n
  have hne : cond.numbered ≠ [] := by
    cases cond with
    | nil => exact absurd rfl hc
    | cons first rest => exact List.cons_ne_nil _ _
  obtain ⟨a₀, -, hh, hr⟩ := Condition.emit_expands (fun _ => 0) hc ho target truth c.labels
  refine ⟨_, operands, hr, hh, hop, fun values => ?_⟩
  obtain ⟨a, ha, -, hr'⟩ := Condition.emit_expands values hc ho target truth c.labels
  obtain ⟨hcur, hcode⟩ : a₀.cursor = a.cursor ∧ _ := by
    simpa using hr.symm.trans hr'
  refine ⟨a.code, hcur ▸ ha, hcode, fun before after post stack out s hd hn ht hst => ?_⟩
  have hl := (Condition.emit_steady operand_pushes ha).places.count_label_le_one hd (hcur ▸ hn)
  exact Condition.emit_passes ha hne hl ht hst

/-- A condition whose second link is skipped if the first one is false. -/
def skippingCondition : Condition :=
  [⟨.ident "a" 1, some (.lt, .int 3), .or⟩, ⟨.ident "b" 1, none, .and⟩,
    ⟨.call "f" [.ident "b" 1] 1, some (.gt, .int 0), .or⟩]

/-- Where the first operand is 5 and those of the last link are 1 and 0, the condition is true by
its last link. -/
theorem Condition.emit_short_circuits_skippingCondition :
    ∃ code cursor lines t, Condition.emit (operand fun n => [5, 3, 0, 0, 1, 0].getD n 0)
        skippingCondition.numbered (.named "done") true ⟨2, 5⟩ = .ok ⟨(), cursor, code⟩ ∧
      Passes (code ++ [.instr .ret, .label (.named "done")])
        ⟨0, fun _ => .address 0, none, fun _ => .byte 0, []⟩ lines t ∧
      Stands (code ++ [.instr .ret, .label (.named "done")]) [] [] [] t ∧
      lines.filterMap Line.operand? = [0, 1, 4, 5] := by
  obtain ⟨r, operands, -, -, -, h⟩ := Condition.emit_short_circuits [⟨"f", 1, 1⟩]
    ⟨[⟨"b", 1⟩, ⟨"a", 0⟩], []⟩ skippingCondition (.named "done") true ⟨2, 5⟩ (by decide) (by decide)
    (by decide)
  obtain ⟨code, hc, -, h⟩ := h fun n => [5, 3, 0, 0, 1, 0].getD n 0
  have hd (l : Label) :
      ([] ++ [.instr .ret, .label (.named "done")] : Code).count (.label l) ≤ 1 := by
    simp only [List.nil_append, List.count_cons, List.count_nil]
    split <;> simp
  obtain ⟨lines, t, hp, hst, hn⟩ := h [] [.instr .ret, .label (.named "done")] [] [] []
    ⟨0, fun _ => .address 0, none, fun _ => .byte 0, []⟩ hd (by simp)
    ⟨code ++ [.instr .ret], by simp⟩ ⟨rfl, ⟨0, rfl, trivial⟩, rfl⟩
  exact ⟨code, r.cursor, lines, t, hc, hp, hst, hn⟩

end Stackwise
