import Stackwise.Proofs.Boundaries
import Stackwise.Proofs.Decimal

/-! What the code of an expression without calls does to the machine.  It is passed line by line to
its end, it reads the variables where they lie and nothing else, and it puts one word on the stack,
the value; the words that were there stay as they were.  A division must not be by zero, and its
quotient must fit. -/
namespace Stackwise

open Machine

theorem Run.pure_bind {α β : Type} (a : α) (f : α → Run β) : (pure a >>= f : Run β) = f a := by
  change Run.bind (Run.pure a) f = f a
  cases h : f a <;> simp [Run.bind, Run.pure, h] <;> rfl

theorem Run.pure_injective {α : Type} {a b : α} (h : (pure a : Run α) = pure b) : a = b :=
  Ending.done.inj (Prod.mk.inj (Option.some.inj h)).1

namespace Machine

/-- Where a line reads a variable. -/
def State.variables (s : State) : Line → List Int
  | .instr (.mov _ (.slot n)) => (s.place? (.slot n)).toList
  | _ => []

/-- Steps lead past lines from one state to another, with variables read at these places in turn. -/
inductive Reads (code : Code) : State → List Line → List Int → State → Prop where
  | refl (s : State) : Reads code s [] [] s
  | step {s t u : State} {l : Line} {ls : List Line} {places : List Int} : code[s.pc]? = some l →
    step code s = some t → Reads code t ls places u →
    Reads code s (l :: ls) (s.variables l ++ places) u

variable {code rest : Code} {s t u : State} {a : Int}

theorem Reads.trans {ls ls' : List Line} {places places' : List Int}
    (h : Reads code s ls places t) (h' : Reads code t ls' places' u) :
    Reads code s (ls ++ ls') (places ++ places') u := by
  induction h with
  | refl => exact h'
  | step hl hs _ ih =>
    rw [List.cons_append, List.append_assoc]
    exact .step hl hs (ih h')

theorem Reads.instr {i : Instr} {ls : List Line} {places : List Int}
    (h : code.drop s.pc = .instr i :: rest) (he : exec code s i = some t)
    (ht : Reads code t ls places u) :
    Reads code s (.instr i :: ls) (s.variables (.instr i) ++ places) u := by
  have hl := congrArg List.head? h
  rw [List.head?_drop] at hl
  exact .step hl (by rw [step_of_drop h, he]) ht

/-- From `s` to `t` a word was put on the stack, which went down to `a` before, and nothing else
happened: what was on the stack and what was written is as it was.  Some registers may differ. -/
structure Pushed (code rest : Code) (a : Int) (v : Int64) (s t : State) : Prop where
  rest : code.drop t.pc = rest
  top : t.regs .rsp = .address (a - 8)
  word : t.memory.fetch (a - 8) 8 = (Slot.word v).cells
  below : ∀ b, a ≤ b → t.memory b = s.memory b
  output : t.output = s.output
  regs : ∀ r, r ≠ .rsp → r ≠ .rax → r ≠ .rbx → r ≠ .rdx → t.regs r = s.regs r

theorem Pushed.of_rax {v : Int64} (h : code.drop s.pc = .instr (.push (.reg .rax)) :: rest)
    (ha : s.regs .rsp = .address a) (hv : s.regs .rax = .ofWord v) :
    ∃ t, exec code s (.push (.reg .rax)) = some t ∧ Pushed code rest a v s t := by
  refine ⟨((s.set .rsp (.address (a - 8))).put (a - 8) (Slot.word v).cells).next, ?_, ?_⟩
  · simp [exec, hv, State.push?, ha, Value.address?]
  · refine ⟨drop_next h, by simp, ?_, fun b hb => ?_, rfl, fun r hr _ _ _ => ?_⟩
    · have hw := s.memory.fetch_store_self (a - 8) (Slot.word v).cells
      rwa [Slot.length_cells] at hw
    · exact s.memory.store_above _ (by rw [Slot.length_cells]; push_cast; omega)
    · simp [State.set_regs_of_ne hr]

theorem Pushed.load {v : Int64} {src : Operand}
    (h : code.drop s.pc = .instr (.mov (.reg .rax) src) :: .instr (.push (.reg .rax)) :: rest)
    (ha : s.regs .rsp = .address a) (hv : s.read? src = some (.ofWord v)) :
    ∃ t, Reads code s [.instr (.mov (.reg .rax) src), .instr (.push (.reg .rax))]
      (s.variables (.instr (.mov (.reg .rax) src))) t ∧ Pushed code rest a v s t := by
  have hm : exec code s (.mov (.reg .rax) src) = some (s.set .rax (.ofWord v)).next := by
    simp [exec, State.move?, hv]
  have ha' : (s.set .rax (.ofWord v)).next.regs .rsp = .address a := by
    simpa [State.set_regs_of_ne (show Reg.rsp ≠ .rax by decide)] using ha
  obtain ⟨t, ht, hp⟩ := Pushed.of_rax (s := (s.set .rax (.ofWord v)).next) (v := v)
      (drop_next h) ha'
    (by simp)
  refine ⟨t, ?_, hp.rest, hp.top, hp.word, hp.below, hp.output, fun r h₁ h₂ h₃ h₄ => ?_⟩
  · have hr := Reads.instr h hm (.instr (drop_next h) ht (.refl t))
    simpa [State.variables] using hr
  · rw [hp.regs r h₁ h₂ h₃ h₄, State.next_regs, State.set_regs_of_ne h₂]

theorem exec_pop (code : Code) (r : Reg) {w : Int64} (ha : s.regs .rsp = .address a)
    (hw : s.memory.fetch a 8 = (Slot.word w).cells) :
    exec code s (.pop r) = some ((s.set .rsp (.address (a + 8))).set r (.ofWord w)).next := by
  simp [exec, State.pop?, ha, Value.address?, hw]

end Machine

theorem BinOp.code_reads {op : BinOp} {x y v : Int64} {code rest : Code} {s : State}
    (h : code.drop s.pc = op.code.map .instr ++ rest) (hx : s.regs .rax = .ofWord x)
    (hy : s.regs .rbx = .ofWord y) (hv : op.apply x y = pure v) :
    ∃ t, Reads code s (op.code.map .instr) [] t ∧ code.drop t.pc = rest ∧
      t.regs .rax = .ofWord v ∧ t.memory = s.memory ∧ t.output = s.output ∧
      ∀ r, r ≠ .rax → r ≠ .rdx → t.regs r = s.regs r := by
  have one {o : Alu} (h : code.drop s.pc = .instr (.alu o (.reg .rax) (.reg .rbx)) :: rest)
      (ho : s.alu? o (.reg .rax) (.reg .rbx) = some (s.set .rax (.ofWord v))) :
      ∃ t, Reads code s [.instr (.alu o (.reg .rax) (.reg .rbx))] [] t ∧ code.drop t.pc = rest ∧
        t.regs .rax = .ofWord v ∧ t.memory = s.memory ∧ t.output = s.output ∧
        ∀ r, r ≠ .rax → r ≠ .rdx → t.regs r = s.regs r :=
    ⟨(s.set .rax (.ofWord v)).next, .instr h (by simp [exec, ho]) (.refl _), drop_next h,
      by simp, rfl, rfl, fun r hr _ => State.set_regs_of_ne hr⟩
  cases op with
  | add =>
    cases hv
    exact one h (by simp [State.alu?, hx, hy])
  | sub =>
    cases hv
    exact one h (by simp [State.alu?, hx, hy])
  | mul =>
    cases hv
    exact one h (by simp [State.alu?, hx, hy])
  | div =>
    rw [apply] at hv
    split at hv
    · cases hv
    next hd =>
    cases hv
    obtain ⟨hz, hm⟩ := not_or.1 hd
    have h₁ : exec code s .cqo = some (s.set .rdx (.number (if x < 0 then -1 else 0))).next := by
      simp [exec, hx]
    generalize hs₁ : (s.set .rdx (.number (if x < 0 then -1 else 0))).next = s₁ at h₁
    have hr₁ (r : Reg) (hr : r ≠ .rdx) : s₁.regs r = s.regs r := by
      rw [← hs₁]
      exact State.set_regs_of_ne hr
    have hu := State.unary?_idiv (s := s₁) (x := x) (y := y) (by rw [hr₁ _ (by decide), hx])
      (by simp [← hs₁]) (by rw [hr₁ _ (by decide), hy]) hz hm
    have h₂ : code.drop s₁.pc = .instr (.unary .idiv .rbx) :: rest := by
      rw [← hs₁]
      exact drop_next h
    refine ⟨_, .instr h h₁ (.instr h₂ (by rw [exec, hu]; rfl) (.refl _)), drop_next h₂, ?_, ?_, ?_,
      ?_⟩
    · simp [State.set]
    · simp [← hs₁]
    · simp [← hs₁]
    · intro r h₁ h₂
      simp [State.set_regs_of_ne h₁, State.set_regs_of_ne h₂, hr₁ r h₂]

/-- Two operands on the stack are replaced by what the operator yields, the left one on top. -/
theorem BinOp.combine {op : BinOp} {x y v : Int64} {code rest : Code} {s : State} {a : Int}
    (h : code.drop s.pc = .instr (.pop .rax) :: .instr (.pop .rbx) ::
      (op.code.map .instr ++ .instr (.push (.reg .rax)) :: rest))
    (ha : s.regs .rsp = .address (a - 8 - 8))
      (hx : s.memory.fetch (a - 8 - 8) 8 = (Slot.word x).cells)
    (hy : s.memory.fetch (a - 8) 8 = (Slot.word y).cells) (hv : op.apply x y = pure v) :
    ∃ t, Reads code s (.instr (.pop .rax) :: .instr (.pop .rbx) ::
      (op.code.map .instr ++ [.instr (.push (.reg .rax))])) [] t ∧ Pushed code rest a v s t := by
  have h₁ := exec_pop code .rax ha hx
  generalize hs₁ : ((s.set .rsp (.address (a - 8 - 8 + 8))).set .rax (.ofWord x)).next = s₁ at h₁
  have hd₁ : code.drop s₁.pc = .instr (.pop .rbx) ::
      (op.code.map .instr ++ .instr (.push (.reg .rax)) :: rest) := by
    rw [← hs₁]
    exact drop_next h
  have ha₁ : s₁.regs .rsp = .address (a - 8) := by simp [← hs₁, State.set]
  have h₂ := exec_pop code .rbx (s := s₁) (w := y) ha₁ (by simpa [← hs₁] using hy)
  generalize hs₂ : ((s₁.set .rsp (.address (a - 8 + 8))).set .rbx (.ofWord y)).next = s₂ at h₂
  have hd₂ : code.drop s₂.pc = op.code.map .instr ++ .instr (.push (.reg .rax)) :: rest := by
    rw [← hs₂]
    exact drop_next hd₁
  obtain ⟨t, ht, hdt, hvt, hm, ho, hr⟩ := BinOp.code_reads (x := x) (y := y) hd₂
    (by simp [← hs₂, ← hs₁, State.set]) (by simp [← hs₂]) hv
  have hat : t.regs .rsp = .address a := by
    rw [hr _ (by decide) (by decide)]
    simp [← hs₂, State.set]
  obtain ⟨u, hu, hp⟩ := Pushed.of_rax hdt hat hvt
  refine ⟨u, ?_, hp.rest, hp.top, hp.word, fun b hb => ?_, ?_, fun r h₁ h₂ h₃ h₄ => ?_⟩
  · exact .instr h h₁ (.instr hd₁ h₂ (ht.trans (.instr hdt hu (.refl u))))
  · rw [hp.below b hb, hm, ← hs₂, ← hs₁]
    rfl
  · rw [hp.output, ho, ← hs₂, ← hs₁]
    rfl
  · rw [hp.regs r h₁ h₂ h₃ h₄, hr r h₂ h₄, ← hs₂, ← hs₁]
    simp [State.set, h₁, h₂, h₃]

/-- Where a variable lies, if the stack of a height goes down to `a`. -/
def Var.place (height : Nat) (a : Int) (v : Var) : Int := a + 8 * (height - v.slot - 1)

theorem Var.place_succ (height : Nat) (a : Int) (v : Var) :
    v.place (height + 1) (a - 8) = v.place height a := by
  unfold place
  push_cast
  ring

namespace Scope

/-- What the variables mean. -/
def bindings (scope : Scope) (value : Var → Int64) : Env :=
  scope.visible.map fun v => (v.name, value v)

theorem get?_bindings (scope : Scope) (value : Var → Int64) (name : String) :
    (scope.bindings value).get? name = (scope.find? name).map value := by
  simp [bindings, Env.get?, find?, List.find?_map, Function.comp_def]

def LiesIn (scope : Scope) (value : Var → Int64) (height : Nat) (a : Int) (m : Memory) : Prop :=
  ∀ v ∈ scope.visible, m.fetch (v.place height a) 8 = (Slot.word (value v)).cells

def Under (scope : Scope) (height : Nat) : Prop := ∀ v ∈ scope.visible, v.slot < height

theorem Under.mono {scope : Scope} {m n : Nat} (h : scope.Under m) (hn : m ≤ n) : scope.Under n :=
  fun v hv => (h v hv).trans_le (by exact_mod_cast hn)

theorem LiesIn.pushed {scope : Scope} {value : Var → Int64} {height : Nat} {a : Int}
    {code rest : Code}
    {w : Int64} {s t : State} (h : scope.LiesIn value height a s.memory) (hu : scope.Under height)
    (hp : Pushed code rest a w s t) : scope.LiesIn value (height + 1) (a - 8) t.memory := by
  intro v hv
  have hs := hu v hv
  rw [v.place_succ, ← h v hv]
  refine Memory.fetch_congr fun b hb _ => hp.below b ?_
  unfold Var.place at hb
  omega

end Scope

/-- No division inside an expression is by zero or has a quotient that does not fit. -/
def Expr.DividesSafely (call : Calls) (env : Env) (e : Expr) : Prop :=
  ∀ lhs rhs, .bin .div lhs rhs ∈ e.nodes → ∀ x y, lhs.eval call env = pure x →
    rhs.eval call env = pure y → y ≠ 0 ∧ ¬ (x = Int64.minValue ∧ y = -1)

theorem BinOp.exists_apply {op : BinOp} {x y : Int64}
    (h : op = .div → y ≠ 0 ∧ ¬ (x = Int64.minValue ∧ y = -1)) : ∃ v, op.apply x y = pure v := by
  cases op with
  | div => exact ⟨x / y, if_neg (not_or.2 (h rfl))⟩
  | _ => exact ⟨_, rfl⟩

section Expressions

variable {table : Signatures} {scope : Scope} {value : Var → Int64} {call : Calls} {code : Code}

theorem Expr.self_mem_nodes (e : Expr) : e ∈ e.nodes := by
  cases e <;> simp [Expr.nodes]

theorem Expr.emit_pushed : (e : Expr) → ∀ {c : Cursor} {r : Emitted Unit} {rest : Code} {s : State}
    {a : Int}, e.calls = [] → e.emit table scope c = .ok r → scope.Under c.height →
    e.DividesSafely call (scope.bindings value) → code.drop s.pc = r.code ++ rest →
    s.regs .rsp = .address a → scope.LiesIn value c.height a s.memory →
    ∃ (v : Int64) (vars : List Var) (t : State), e.eval call (scope.bindings value) = pure v ∧
      e.mentions.map (fun x => scope.find? x.1) = vars.map some ∧
      Reads code s r.code (vars.reverse.map (Var.place c.height a)) t ∧ Pushed code rest a v s t
  | .int v, c, r, rest, s, a, he, hr, hu, hd, hcode, ha, hl => by
    rw [Expr.emit_int_eq_ok] at hr
    subst hr
    obtain ⟨t, ht, hp⟩ := Pushed.load (v := v) hcode ha rfl
    exact ⟨v, [], t, rfl, rfl, ht, hp⟩
  | .ident name n, c, r, rest, s, a, he, hr, hu, hd, hcode, ha, hl => by
    obtain ⟨v, hv, rfl⟩ := Expr.emit_ident_eq_ok.1 hr
    have hm : v ∈ scope.visible := List.mem_of_find?_eq_some hv
    have hplace : s.place? (.slot (8 * (c.height - v.slot - 1))) = some (v.place c.height a) := by
      simp [State.place?, ha, Value.address?, Var.place]
    obtain ⟨t, ht, hp⟩ := Pushed.load (v := value v) hcode ha
      (by simp [State.read?, hplace, hl v hm])
    refine ⟨value v, [v], t, ?_, by simp [Expr.mentions, hv], ?_, hp⟩
    · rw [Expr.eval, Scope.get?_bindings, hv]
      rfl
    · simpa [State.variables, hplace] using ht
  | .paren inner, c, r, rest, s, a, he, hr, hu, hd, hcode, ha, hl => by
    rw [Expr.emit] at hr
    exact Expr.emit_pushed inner he hr hu
      (fun lhs rhs h => hd lhs rhs (List.mem_cons_of_mem _ h)) hcode ha hl
  | .call name args n, c, r, rest, s, a, he, hr, hu, hd, hcode, ha, hl => by
    simp [Expr.calls] at he
  | .bin op lhs rhs, c, r, rest, s, a, he, hr, hu, hd, hcode, ha, hl => by
    obtain ⟨r₁, r₂, h₁, h₂, -, rfl⟩ := Expr.emit_bin_eq_ok.1 hr
    obtain ⟨hel, her⟩ := List.append_eq_nil_iff.1 he
    have hh : r₁.cursor.height = c.height + 1 := by simp [(Expr.emit_pushes rhs h₁).cursor]
    simp only [List.append_assoc, List.cons_append] at hcode
    obtain ⟨y, vars₁, s₁, hy, hvars₁, hr₁, hp₁⟩ := Expr.emit_pushed rhs her h₁ hu
      (fun l k h => hd l k (List.mem_cons_of_mem _ (List.mem_append_right _ h))) hcode ha hl
    obtain ⟨x, vars₂, s₂, hx, hvars₂, hr₂, hp₂⟩ := Expr.emit_pushed lhs hel h₂
      (hu.mono (by omega))
      (fun l k h => hd l k (List.mem_cons_of_mem _ (List.mem_append_left _ h))) hp₁.rest hp₁.top
      (hh ▸ hl.pushed hu hp₁)
    obtain ⟨v, hv⟩ := BinOp.exists_apply fun ho =>
      hd lhs rhs (ho ▸ Expr.self_mem_nodes _) x y hx hy
    have hword : s₂.memory.fetch (a - 8) 8 = (Slot.word y).cells := by
      rw [← hp₁.word]
      exact Memory.fetch_congr fun b hb _ => hp₂.below b hb
    obtain ⟨t, ht, hp⟩ := BinOp.combine hp₂.rest hp₂.top hp₂.word hword hv
    refine ⟨v, vars₂ ++ vars₁, t, ?_, ?_, ?_, hp.rest, hp.top, hp.word, fun b hb => ?_, ?_,
      fun r k₁ k₂ k₃ k₄ => ?_⟩
    · rw [Expr.eval, hy, Run.pure_bind, hx, Run.pure_bind, hv]
    · rw [Expr.mentions, List.map_append, hvars₁, hvars₂, List.map_append]
    · have hplaces : vars₂.reverse.map (Var.place r₁.cursor.height (a - 8)) =
          vars₂.reverse.map (Var.place c.height a) := by
        rw [hh, funext (Var.place_succ c.height a)]
      rw [hplaces] at hr₂
      have hreads := hr₁.trans (hr₂.trans ht)
      rwa [List.append_nil, ← List.map_append, ← List.reverse_append] at hreads
    · rw [hp.below b hb, hp₂.below b (by omega), hp₁.below b hb]
    · rw [hp.output, hp₂.output, hp₁.output]
    · rw [hp.regs r k₁ k₂ k₃ k₄, hp₂.regs r k₁ k₂ k₃ k₄, hp₁.regs r k₁ k₂ k₃ k₄]

end Expressions

theorem Moment.Consistent.under {m : Moment} (h : m.Consistent) :
    m.scope.Under m.cursor.height := by
  intro v hv
  obtain ⟨i, hi⟩ : ∃ i : Nat, m.vars[i]? = some v := List.mem_iff_getElem?.1 (List.mem_reverse.2 hv)
  by_cases hp : i < m.params.length
  · have hs := (h.param i _ (List.getElem?_eq_getElem hp)).symm.trans hi
    obtain rfl := Option.some.inj hs
    dsimp only
    omega
  · have hl : m.locals[i - m.params.length]? = some v := by
      rw [Moment.locals, List.getElem?_drop, Nat.add_sub_of_le (Nat.not_lt.1 hp), hi]
    have hlt := (List.getElem?_eq_some_iff.1 hl).1
    rw [h.slot _ v hl, h.height]
    exact_mod_cast hlt

/-- Code made for an expression without calls, wherever all that is counted agrees and words may lie
on top of the variables, computes the value and touches nothing else.  Each name is read where the
innermost variable of that name lies, the rightmost one first. -/
theorem Expr.emit_pushes_value {e : Expr} {table : Signatures} {m : Moment} {c : Cursor}
    {r : Emitted Unit} {value : Var → Int64} {call : Calls} {code rest : Code} {s : State} {a : Int}
    (he : e.calls = []) (hm : m.Consistent) (hc : m.cursor.height ≤ c.height)
    (hr : e.emit table m.scope c = .ok r) (hcode : code.drop s.pc = r.code ++ rest)
    (ha : s.regs .rsp = .address a) (hvars : m.scope.LiesIn value c.height a s.memory)
    (hd : e.DividesSafely call (m.scope.bindings value)) :
    ∃ (v : Int64) (vars : List Var) (t : State), e.eval call (m.scope.bindings value) = pure v ∧
      e.mentions.map (fun x => m.scope.find? x.1) = vars.map some ∧
      Reads code s r.code (vars.reverse.map (Var.place c.height a)) t ∧ Pushed code rest a v s t ∧
      r.cursor.height = c.height + 1 := by
  obtain ⟨v, vars, t, hv, hvars, ht, hp⟩ := e.emit_pushed he hr (hm.under.mono hc) hd hcode ha hvars
  exact ⟨v, vars, t, hv, hvars, ht, hp, by simp [(e.emit_pushes hr).cursor]⟩

namespace Shadowing

/-- In a function of `a` and `b` that declares a variable `b` of its own. -/
def moment : Moment :=
  ⟨["a", "b"], true, [⟨2, 0⟩], [], ((Scope.ofParams ["a", "b"]).nested).declare ⟨"b", 0⟩, ⟨1, 0⟩⟩

/-- The tree of `a / b - b`. -/
def difference : Expr :=
  .bin .sub (.bin .div (.ident "a" 1) (.ident "b" 1)) (.ident "b" 1)

/-- The parameter `a` is 7, the variable `b` is -2 and the parameter that it hides is 0. -/
def value (v : Var) : Int64 := if v.slot = 0 then -2 else if v.name = "a" then 7 else 0

def memory : Memory :=
  Memory.store (fun _ => .byte 0) 0 ([.word (-2), .link 9, .word 0, .word 7].flatMap Slot.cells)

def code : Code :=
  [.instr (.mov (.reg .rax) (.slot 0)), .instr (.push (.reg .rax)),
    .instr (.mov (.reg .rax) (.slot 8)), .instr (.push (.reg .rax)),
    .instr (.mov (.reg .rax) (.slot 40)), .instr (.push (.reg .rax)),
    .instr (.pop .rax), .instr (.pop .rbx), .instr .cqo, .instr (.unary .idiv .rbx),
    .instr (.push (.reg .rax)), .instr (.pop .rax), .instr (.pop .rbx),
    .instr (.alu .sub (.reg .rax) (.reg .rbx)), .instr (.push (.reg .rax))]

def state : State := ⟨0, fun _ => .address 0, none, memory, []⟩

theorem consistent : moment.Consistent :=
  (Moment.Consistent.ofParams ["a", "b"] 0).declare "b" rfl

theorem emit_eq : difference.emit [] moment.scope ⟨1, 0⟩ = .ok ⟨(), ⟨2, 0⟩, code⟩ := by
  have load (name : String) {v : Var} (hv : moment.scope.find? name = some v) (c : Cursor) :
      (Expr.ident name 1).emit [] moment.scope c = .ok ⟨(), ⟨c.height + 1, c.labels⟩,
        [.instr (.mov (.reg .rax) (.slot (8 * (c.height - v.slot - 1)))),
          .instr (.push (.reg .rax))]⟩ :=
    Expr.emit_ident_eq_ok.2 ⟨v, hv, rfl⟩
  have ha := load "a" rfl
  have hb := load "b" rfl
  refine Expr.emit_bin_eq_ok.2 ⟨_, _, hb _, Expr.emit_bin_eq_ok.2 ⟨_, _, hb _, ha _, ?_, rfl⟩, ?_,
    ?_⟩
  · decide
  · decide
  · rfl

theorem liesIn : moment.scope.LiesIn value 1 0 state.memory := by
  intro v hv
  have hv : v ∈ [⟨"b", 0⟩, ⟨"b", -2⟩, (⟨"a", -3⟩ : Var)] := hv
  simp only [List.mem_cons, List.not_mem_nil, or_false] at hv
  rcases hv with rfl | rfl | rfl <;> rfl

theorem dividesSafely (call : Calls) :
    difference.DividesSafely call (moment.scope.bindings value) := by
  intro lhs rhs h x y hx hy
  obtain ⟨rfl, rfl⟩ : lhs = .ident "a" 1 ∧ rhs = .ident "b" 1 := by
    simpa [difference, Expr.nodes] using h
  have hb : (Expr.ident "b" 1).eval call (moment.scope.bindings value) = pure (-2) := rfl
  obtain rfl : y = -2 := Run.pure_injective (hy.symm.trans hb)
  exact ⟨by decide, fun hxy => absurd hxy.2 (by decide)⟩

end Shadowing

/-- The innermost `b` is read twice, and the parameter that it hides, by which `a` could not be
divided, is not. -/
theorem Expr.emit_pushes_value_difference : ∃ t,
    Reads Shadowing.code Shadowing.state Shadowing.code [0, 0, 24] t ∧
      Pushed Shadowing.code [] 0 (-1) Shadowing.state t := by
  obtain ⟨v, vars, t, hv, hvars, ht, hp, -⟩ := @Expr.emit_pushes_value
    Shadowing.difference [] Shadowing.moment ⟨1, 0⟩ _ Shadowing.value (fun _ _ => .fault)
    Shadowing.code [] Shadowing.state 0 rfl Shadowing.consistent le_rfl Shadowing.emit_eq rfl rfl
    Shadowing.liesIn (Shadowing.dividesSafely _)
  obtain rfl : v = -1 := Run.pure_injective (hv.symm.trans rfl)
  obtain rfl : vars = [⟨"a", -3⟩, ⟨"b", 0⟩, ⟨"b", 0⟩] :=
    List.map_injective_iff.2 (Option.some_injective Var) (hvars.symm.trans rfl)
  exact ⟨t, ht, hp⟩

end Stackwise
