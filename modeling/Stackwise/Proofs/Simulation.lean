import Stackwise.Proofs.Evaluation

/-! The code of statements does what they mean.  A statement has four ways out: on to what follows
it, to the two ends of the loop around it, and back to the caller; for each one it is said where the
code goes and what it leaves on the stack. -/
namespace Stackwise

open Emit Machine Run

/-- What is visible is bound, below whatever else is. -/
def Scope.Kept (scope : Scope) (env : Env) : Prop :=
  scope.visible.map Var.name <:+ env.map Prod.fst

namespace Frame

/-- The code goes on past a label of the loop around it, with the bindings that were there when the
loop began.  `scope` is what is visible at the statement that leaves. -/
def Leaves (code : Code) (E : Int64 → List UInt8 → Prop) (f : Frame) (ctx : Context) (scope : Scope)
    (target : Loop → Label) (env : Env) (out : List UInt8) : Prop :=
  scope.Kept env →
    ∃ loop post, ctx.loop = some loop ∧ .label (target loop) :: post <:+ code ∧
      FinishesFrom code E post (f.stack loop.height (env.oldest (loop.height + f.arity))) out

/-- Where the code of a statement must lead.  `scope` is the scope before it; `scope'` and `height'`
are those after it, which only a statement that goes on reaches. -/
def Continues (code : Code) (E : Int64 → List UInt8 → Prop) (f : Frame) (ctx : Context)
    (scope : Scope) (rest : Code) (scope' : Scope) (height' : Nat) :
    Flow × Env → List UInt8 → Prop
  | (.next, env), out => f.Fits scope' height' env →
    FinishesFrom code E rest (f.stack height' env) out
  | (.broke, env), out => f.Leaves code E ctx scope Loop.breakTo env out
  | (.continued, env), out => f.Leaves code E ctx scope Loop.continueTo env out
  | (.returned v, env), out => scope.Kept env → ∃ pc, f.link = some pc ∧
    FinishesWith code E v (code.drop pc) (Env.words (env.oldest f.arity) ++ f.base) out

end Frame

/-- Code that is emitted for an action does what the action means. -/
def Simulates (code : Code) (E : Int64 → List UInt8 → Prop) (f : Frame) (ctx : Context)
    (scope : Scope) (height : Nat) (action : Action) (fragment : Code) (scope' : Scope)
    (height' : Nat) : Prop :=
  ∀ ⦃rest : Code⦄ ⦃env : Env⦄ ⦃out : List UInt8⦄, fragment ++ rest <:+ code →
    f.Fits scope height env →
    Ensures E (action env) (f.Continues code E ctx scope rest scope' height') out →
    FinishesFrom code E (fragment ++ rest) (f.stack height env) out

/-- What the whole code ensures of its parts. -/
structure Surroundings (code : Code) (E : Int64 → List UInt8 → Prop) (call : Calls)
    (table : Signatures) : Prop where
  labels : ∀ l, code.count (.label l) ≤ 1
  calls : CallsFinish code E table call
  prints : .instr (.call PrintInt.entry) ∈ code → PrintInt.code <:+ code

variable {code : Code} {E : Int64 → List UInt8 → Prop} {call : Calls} {f : Frame} {ctx : Context}
  {scope scope' : Scope} {height height' : Nat}

namespace Frame

/-- The ways out of a statement do not hang on what follows it, but for the first. -/
theorem Continues.rest {rest rest' : Code} {next : Flow × Env} {out : List UInt8}
    (h : f.Continues code E ctx scope rest scope' height' next out)
    (hr : ∀ env, FinishesFrom code E rest (f.stack height' env) out →
      FinishesFrom code E rest' (f.stack height' env) out) :
    f.Continues code E ctx scope rest' scope' height' next out := by
  obtain ⟨flow, env⟩ := next
  cases flow with
  | next => exact fun hf => hr env (h hf)
  | broke => exact h
  | continued => exact h
  | returned v => exact h

theorem Fits.kept {env : Env} (hf : f.Fits scope height env) : scope.Kept env :=
  ⟨[], hf.names⟩

theorem Fits.kept_oldest {env inner : Env} (hf : f.Fits scope height env)
    (hn : scope.nested.Kept inner) : scope.Kept (inner.oldest env.length) := by
  rw [Scope.Kept, Scope.visible_nested, hf.names] at hn
  obtain ⟨news, hn⟩ := hn
  have hlen := congrArg List.length hn
  simp only [List.length_append, List.length_map] at hlen
  have ho : (inner.oldest env.length).map Prod.fst = env.map Prod.fst := by
    rw [Env.oldest, List.map_drop, ← hn, List.drop_left' (by omega)]
  exact ⟨[], hf.names.trans ho.symm⟩

theorem Leaves.of_oldest {target : Loop → Label} {env inner : Env} {out : List UInt8}
    (h : f.Leaves code E ctx scope target (inner.oldest env.length) out)
    (hs : ctx.Below height) (hf : f.Fits scope height env) :
    f.Leaves code E ctx scope.nested target inner out := by
  intro hn
  obtain ⟨loop, post, hl, hp, hk⟩ := h (hf.kept_oldest hn)
  have hle := hs loop hl
  rw [Env.oldest_oldest (by rw [hf.length]; omega)] at hk
  exact ⟨loop, post, hl, hp, hk⟩

end Frame

/-- A scope of its own is left with the bindings off the stack that it made. -/
theorem Simulates.scoped {action : Action} {fragment : Code} {inner : Scope}
    (hg : Scope.Grown scope.nested height inner height') (hs : ctx.Below height)
    (h : Simulates code E f ctx scope.nested height action fragment inner height') :
    Simulates code E f ctx scope height (Action.inScope action)
      (fragment ++ dropping inner.own.length) scope height := by
  intro rest env out hsuf hf hk
  simp only [Action.inScope, ensures_bind, ensures_pure] at hk
  rw [List.append_assoc] at hsuf ⊢
  refine h hsuf hf.nested (hk.mono ?_)
  rintro ⟨flow, env'⟩ out hc
  have hlen := hf.length
  cases flow with
  | next =>
    intro hf'
    have hlen' := hf'.length
    have hh := hg.own_length
    have ho : env'.oldest env.length = env'.drop inner.own.length := by
      unfold Env.oldest
      congr 1
      omega
    rw [hh, Nat.add_comm, Frame.stack_add, ← ho]
    refine FinishesFrom.dropping ?_ (hc ⟨?_, hf.laid⟩)
    · rw [Env.length_words, List.length_take]
      omega
    · have hn := hf'.names
      rw [hg.visible] at hn
      rw [ho, List.map_drop, ← hn, List.map_append, List.drop_left' (by simp)]
  | broke => exact Frame.Leaves.of_oldest hc hs hf
  | continued => exact Frame.Leaves.of_oldest hc hs hf
  | returned v =>
    intro hn
    obtain ⟨pc, hp, hw⟩ := hc (hf.kept_oldest hn)
    rw [Env.oldest_oldest (by omega)] at hw
    exact ⟨pc, hp, hw⟩

theorem Simulates.inScope {action : Action} {body : Scope → Emit Scope} {c : Cursor}
    {r : Emitted Unit} (h : Emit.inScope scope body c = .ok r) (hh : c.height = height)
    (hs : ctx.Below height)
    (hb : ∀ r₁, body scope.nested c = .ok r₁ →
      Scope.Grown scope.nested c.height r₁.value r₁.cursor.height ∧
        Simulates code E f ctx scope.nested c.height action r₁.code r₁.value r₁.cursor.height) :
    Simulates code E f ctx scope height (Action.inScope action) r.code scope height := by
  subst hh
  obtain ⟨r₁, h₁, -, rfl⟩ := inScope_eq_ok.1 h
  obtain ⟨hg, hsim⟩ := hb r₁ h₁
  exact hsim.scoped hg hs

theorem Frame.Continues.of_andThen {first second : Action} {scope₁ scope₂ : Scope}
    {height₁ height₂ : Nat} {rest rest' : Code} {env : Env} {out : List UInt8}
    (hk : Ensures E (first.andThen second env)
      (f.Continues code E ctx scope rest scope₂ height₂) out)
    (hn : ∀ {env : Env} {out : List UInt8}, f.Fits scope₁ height₁ env →
      Ensures E (second env) (f.Continues code E ctx scope rest scope₂ height₂) out →
      FinishesFrom code E rest' (f.stack height₁ env) out) :
    Ensures E (first env) (f.Continues code E ctx scope rest' scope₁ height₁) out := by
  simp only [Action.andThen, ensures_bind] at hk
  refine hk.mono ?_
  rintro ⟨flow, env₁⟩ out hc
  cases flow with
  | next => exact fun hf => hn hf hc
  | broke =>
    rw [ensures_pure] at hc
    exact hc
  | continued =>
    rw [ensures_pure] at hc
    exact hc
  | returned v =>
    rw [ensures_pure] at hc
    exact hc

theorem Simulates.andThen {first second : Action} {fragment₁ fragment₂ : Code}
    {scope₁ scope₂ : Scope} {height₁ height₂ : Nat} (hg : Scope.Grown scope height scope₁ height₁)
    (h₁ : Simulates code E f ctx scope height first fragment₁ scope₁ height₁)
    (h₂ : Simulates code E f ctx scope₁ height₁ second fragment₂ scope₂ height₂) :
    Simulates code E f ctx scope height (first.andThen second) (fragment₁ ++ fragment₂) scope₂
      height₂ := by
  intro rest env out hsuf hf hk
  rw [List.append_assoc] at hsuf ⊢
  refine h₁ hsuf hf (Frame.Continues.of_andThen hk fun hf₁ hk₂ => ?_)
  refine h₂ ((List.suffix_append _ _).trans hsuf) hf₁ (hk₂.mono ?_)
  rintro ⟨flow, env₂⟩ out hc
  cases flow with
  | next => exact hc
  | broke => exact fun hn => hc (hg.visible_suffix.trans hn)
  | continued => exact fun hn => hc (hg.visible_suffix.trans hn)
  | returned v => exact fun hn => hc (hg.visible_suffix.trans hn)

section Leaf

variable {bound : Nat} {c : Cursor} {r : Emitted Scope}

theorem Stmt.exit_simulates (hc : CallsFinish code E ctx.table call) {value : Option Expr}
    (h : (Stmt.exit value).emit ctx scope c = .ok r) :
    Simulates code E f ctx scope c.height ((Stmt.exit value).exec call bound) r.code r.value
      r.cursor.height := by
  intro rest env out hsuf hf hk
  cases value with
  | none =>
    rw [Stmt.emit_exit_none_eq_ok] at h
    subst h
    rw [Stmt.exec, ensures_exit] at hk
    exact FinishesFrom.exit_zero hk
  | some e =>
    obtain ⟨r₁, h₁, -, rfl⟩ := Stmt.emit_exit_some_eq_ok.1 h
    rw [Stmt.exec, ensures_bind] at hk
    rw [List.append_assoc]
    refine Expr.emit_finishes hc e [] h₁ hf (by simp) (hk.mono fun v out hv => ?_)
    rw [ensures_exit] at hv
    exact FinishesFrom.exit hv

theorem Stmt.letVar_simulates (hc : CallsFinish code E ctx.table call) {name : String}
    {value : Expr} {n : Nat} (h : (Stmt.letVar name value n).emit ctx scope c = .ok r) :
    Simulates code E f ctx scope c.height
      ((Stmt.letVar name value n).exec call bound) r.code r.value
      r.cursor.height := by
  intro rest env out hsuf hf hk
  obtain ⟨-, r₁, h₁, rfl⟩ := Stmt.emit_letVar_eq_ok.1 h
  have hp := Expr.emit_pushes value h₁
  simp only [Stmt.exec, ensures_bind, ensures_pure] at hk
  refine Expr.emit_finishes hc value [] h₁ hf (by simp) (hk.mono fun v out hv => ?_)
  simp only [hp.cursor] at hv
  refine hv ?_
  simpa using hf.declare name v

theorem Stmt.assign_simulates (hc : CallsFinish code E ctx.table call) {name : String}
    {value : Expr} {n : Nat} (h : (Stmt.assign name value n).emit ctx scope c = .ok r) :
    Simulates code E f ctx scope c.height
      ((Stmt.assign name value n).exec call bound) r.code r.value
      r.cursor.height := by
  intro rest env out hsuf hf hk
  obtain ⟨v, r₁, hv, h₁, -, rfl⟩ := Stmt.emit_assign_eq_ok.1 h
  have hp := Expr.emit_pushes value h₁
  obtain ⟨x, xs, ys, hx, hst, hl, hset⟩ := Frame.lookup c.height hf.names hf.laid hv
  simp only [Stmt.exec, hx, ensures_bind, ensures_pure] at hk
  rw [List.append_assoc]
  refine Expr.emit_finishes hc value [] h₁ hf (by simp) (hk.mono fun w out hw => ?_)
  obtain ⟨_, -, hw⟩ := ensures_ofOption.1 hw
  have hw := hw (by simpa [hp.cursor] using hf.set name w)
  simp only [hp.cursor, Nat.add_sub_cancel, hset] at hw
  rw [List.nil_append, hst]
  refine FinishesWith.pop (FinishesFrom.store ?_ hw)
  omega

theorem Stmt.print_simulates (hs : Surroundings code E call ctx.table) {items : List PrintItem}
    (h : (Stmt.print items).emit ctx scope c = .ok r) :
    Simulates code E f ctx scope c.height ((Stmt.print items).exec call bound) r.code r.value
      r.cursor.height := by
  intro rest env out hsuf hf hk
  obtain ⟨r₁, h₁, rfl⟩ := Stmt.emit_print_eq_ok.1 h
  have hp := (PrintItem.emitEach_pushes items h₁).steady
  simp only [Stmt.exec, ensures_bind, ensures_pure, hp.height] at hk
  exact PrintItem.emitEach_finishes hs.calls hs.labels hs.prints hf items h₁ rfl
    (hk.mono fun _ out hn => hn hf)

theorem Stmt.call_simulates (hc : CallsFinish code E ctx.table call) {name : String}
    {args : List Expr} {n : Nat} (h : (Stmt.call name args n).emit ctx scope c = .ok r) :
    Simulates code E f ctx scope c.height ((Stmt.call name args n).exec call bound) r.code r.value
      r.cursor.height := by
  intro rest env out hsuf hf hk
  obtain ⟨r₁, h₁, rfl⟩ := Stmt.emit_call_eq_ok.1 h
  have hp := (call_pushes h₁ fun r₂ h₂ => Expr.emitEach_pushes args h₂).steady
  simp only [Stmt.exec, ensures_bind, ensures_pure, hp.height] at hk
  refine hc.call_finishes (Expr.evalEach call env args) h₁ (fun r₂ rest h₂ hv => ?_) ?_
  · exact Expr.emitEach_finishes hc args [] h₂ hf (by simp) hv
  · rw [ensures_bind]
    exact hk.mono fun vs out hv => hv.mono fun v out hw => (hw hf).with v

theorem Stmt.function_simulates {name : String} {params : List String} {body : Stmt} {n : Nat}
    (h : (Stmt.function name params body n).emit ctx scope c = .ok r) :
    Simulates code E f ctx scope c.height
      ((Stmt.function name params body n).exec call bound) r.code
      r.value r.cursor.height := by
  intro rest env out hsuf hf hk
  obtain ⟨-, rfl⟩ := Stmt.emit_function_eq_ok.1 h
  rw [Stmt.exec_function, ensures_pure] at hk
  exact hk hf

/-- The frame of a function is dropped down to the way back. -/
theorem Frame.return_finishes {pc : Nat} {v : Int64} {rest : Code} {env : Env} {out : List UInt8}
    (hf : f.Fits scope height env) (hp : f.link = some pc)
    (hk : FinishesWith code E v (code.drop pc) (Env.words (env.oldest f.arity) ++ f.base) out) :
    FinishesWith code E v (dropping height ++ (.instr .ret :: rest)) (f.stack height env) out := by
  have hlen := hf.length
  have hst := f.stack_add height 0 env
  have ho : env.oldest f.arity = env.drop height := by
    unfold Env.oldest
    congr 1
    omega
  rw [Nat.add_zero] at hst
  rw [hst, Frame.stack_zero, hp, ← ho]
  refine FinishesWith.dropping ?_ hk.ret
  rw [Env.length_words, List.length_take]
  omega

theorem Stmt.ret_simulates (hc : CallsFinish code E ctx.table call)
    {value : Option Expr} {inFunction : Bool} {n : Nat}
    (h : (Stmt.ret value inFunction n).emit ctx scope c = .ok r) :
    Simulates code E f ctx scope c.height ((Stmt.ret value inFunction n).exec call bound) r.code
      r.value r.cursor.height := by
  intro rest env out hsuf hf hk
  cases value with
  | none =>
    obtain ⟨-, rfl⟩ := Stmt.emit_ret_none_eq_ok.1 h
    rw [Stmt.exec, ensures_pure] at hk
    obtain ⟨pc, hp, hk⟩ := hk hf.kept
    rw [List.cons_append, List.append_assoc]
    exact FinishesWith.int rfl (Frame.return_finishes hf hp hk)
  | some e =>
    obtain ⟨-, r₁, h₁, -, rfl⟩ := Stmt.emit_ret_some_eq_ok.1 h
    have hp := Expr.emit_pushes e h₁
    simp only [Stmt.exec, ensures_bind, ensures_pure] at hk
    simp only [hp.cursor, Nat.add_sub_cancel, List.append_assoc, List.cons_append]
    refine Expr.emit_finishes hc e [] h₁ hf (by simp) (hk.mono fun v out hv => ?_)
    obtain ⟨pc, hp, hv⟩ := hv hf.kept
    exact FinishesWith.pop (Frame.return_finishes hf hp hv)

theorem Frame.leave_finishes (target : Loop → Label) {loop : Loop} {rest : Code} {env : Env}
    {out : List UInt8} (hl : ∀ l, code.count (.label l) ≤ 1) (hloop : ctx.loop = some loop)
    (hle : loop.height ≤ height) (hf : f.Fits scope height env)
    (hk : f.Leaves code E ctx scope target env out) :
    FinishesFrom code E (dropping (height - loop.height) ++ (.instr (.jump .always (target loop)) ::
      rest)) (f.stack height env) out := by
  obtain ⟨_, post, hloop', hp, hk⟩ := hk hf.kept
  obtain rfl := Option.some.inj (hloop.symm.trans hloop')
  have hlen := hf.length
  have hst := f.stack_add (height - loop.height) loop.height env
  have ho : env.oldest (loop.height + f.arity) = env.drop (height - loop.height) := by
    unfold Env.oldest
    congr 1
    omega
  rw [Nat.sub_add_cancel hle] at hst
  rw [hst, ← ho]
  refine FinishesFrom.dropping ?_ (FinishesFrom.jump (hl _) hp hk)
  rw [Env.length_words, List.length_take]
  omega

theorem Stmt.breakLoop_simulates (hl : ∀ l, code.count (.label l) ≤ 1) {n : Nat}
    (h : (Stmt.breakLoop n).emit ctx scope c = .ok r) :
    Simulates code E f ctx scope c.height ((Stmt.breakLoop n).exec call bound) r.code r.value
      r.cursor.height := by
  intro rest env out hsuf hf hk
  obtain ⟨loop, hloop, hle, rfl⟩ := Stmt.emit_breakLoop_eq_ok.1 h
  rw [Stmt.exec, ensures_pure] at hk
  rw [List.append_assoc]
  exact Frame.leave_finishes Loop.breakTo hl hloop hle hf hk

theorem Stmt.continueLoop_simulates (hl : ∀ l, code.count (.label l) ≤ 1) {n : Nat}
    (h : (Stmt.continueLoop n).emit ctx scope c = .ok r) :
    Simulates code E f ctx scope c.height ((Stmt.continueLoop n).exec call bound) r.code r.value
      r.cursor.height := by
  intro rest env out hsuf hf hk
  obtain ⟨loop, hloop, hle, rfl⟩ := Stmt.emit_continueLoop_eq_ok.1 h
  rw [Stmt.exec, ensures_pure] at hk
  rw [List.append_assoc]
  exact Frame.leave_finishes Loop.continueTo hl hloop hle hf hk

end Leaf

section Loop

variable {cond : Env → Run Bool} {body step : Action} {bodyCode stepCode bottom rest : Code}
  {done next : Label}

theorem Simulates.turn_finishes {again : Action} {env : Env} {out : List UInt8}
    (hbody : Simulates code E f { ctx with loop := some ⟨height, done, next⟩ } scope height
      (Action.inScope body) bodyCode scope height)
    (hs : bodyCode ++ (.label next :: (stepCode ++ (bottom ++ (.label done :: rest)))) <:+ code)
    (hagain : ∀ {env : Env} {out : List UInt8}, f.Fits scope height env →
      Ensures E (again env) (f.Continues code E ctx scope rest scope height) out →
      FinishesFrom code E (stepCode ++ (bottom ++ (.label done :: rest))) (f.stack height env) out)
    (hf : f.Fits scope height env)
    (hk : Ensures E ((Action.inScope body).turn again env)
      (f.Continues code E ctx scope rest scope height) out) :
    FinishesFrom code E (bodyCode ++ (.label next ::
      (stepCode ++ (bottom ++ (.label done :: rest)))))
      (f.stack height env) out := by
  have hnext : .label next :: (stepCode ++ (bottom ++ (.label done :: rest))) <:+ code :=
    (List.suffix_append _ _).trans hs
  have hdone : .label done :: rest <:+ code :=
    (List.suffix_append _ _).trans ((List.suffix_append _ _).trans
      ((List.suffix_cons _ _).trans hnext))
  -- What is left of the bindings at an end of the loop are those of its scope.
  have hleft {inner : Env} (hn : scope.Kept (inner.oldest env.length)) :
      f.Fits scope height (inner.oldest env.length) := by
    refine ⟨hn.eq_of_length ?_, hf.laid⟩
    have hle := hn.length_le
    have hlen := hf.length
    have hvis := hf.laid.length_visible
    simp only [List.length_map, Env.oldest, List.length_drop] at hle ⊢
    omega
  have hold (inner : Env) : (inner.oldest env.length).oldest (height + f.arity) =
      inner.oldest env.length := by
    rw [← hf.length, Env.oldest_oldest le_rfl]
  simp only [Action.turn, Action.inScope, ensures_bind, ensures_pure] at hk
  refine hbody hs hf ?_
  simp only [Action.inScope, ensures_bind, ensures_pure]
  refine hk.mono ?_
  rintro ⟨flow, inner⟩ out hc
  cases flow with
  | next => exact fun hf' => (hagain hf' hc).label
  | broke =>
    intro hn
    rw [ensures_pure] at hc
    exact ⟨_, rest, rfl, hdone, by simpa only [hold] using hc (hleft hn)⟩
  | continued =>
    intro hn
    exact ⟨_, _, rfl, hnext, by simpa only [hold] using hagain (hleft hn) hc⟩
  | returned v =>
    rw [ensures_pure] at hc
    exact hc

theorem Simulates.loop_finishes
    (hbody : Simulates code E f { ctx with loop := some ⟨height, done, next⟩ } scope height
      (Action.inScope body) bodyCode scope height)
    (hstep : Simulates code E f ctx scope height step stepCode scope height)
    (hs : bodyCode ++ (.label next :: (stepCode ++ (bottom ++ (.label done :: rest)))) <:+ code)
    (hbottom : ∀ {env : Env} {out : List UInt8}, f.Fits scope height env →
      Ensures E (cond env) (fun b => if b = true then
        FinishesFrom code E (bodyCode ++ (.label next ::
          (stepCode ++ (bottom ++ (.label done :: rest))))) (f.stack height env)
        else FinishesFrom code E (.label done :: rest) (f.stack height env)) out →
      FinishesFrom code E (bottom ++ (.label done :: rest)) (f.stack height env) out) (n : Nat) :
    ∀ {env : Env} {out : List UInt8}, f.Fits scope height env →
      Ensures E (Action.loop cond (Action.inScope body) step n env)
        (f.Continues code E ctx scope rest scope height) out →
      FinishesFrom code E (bottom ++ (.label done :: rest)) (f.stack height env) out := by
  have hstep_suffix : stepCode ++ (bottom ++ (.label done :: rest)) <:+ code :=
    (List.suffix_cons _ _).trans ((List.suffix_append _ _).trans hs)
  induction n with
  | zero => exact fun _ hk => absurd hk ensures_fault
  | succ n ih =>
    intro env out hf hk
    rw [Action.loop, ensures_bind] at hk
    refine hbottom hf (hk.mono fun b out hb => ?_)
    cases b with
    | true =>
      refine hbody.turn_finishes hs (fun hf' hagain => ?_) hf hb
      exact hstep hstep_suffix hf' (Frame.Continues.of_andThen hagain fun hf'' hloop =>
        ih hf'' hloop)
    | false =>
      rw [if_neg (by decide), ensures_pure] at hb
      exact (hb hf).label

/-- A loop as a whole: its condition stands before the body and once more after the step. -/
theorem Simulates.loop (hS : Surroundings code E call ctx.table) {cond : Condition} {head : Label}
    {c₁ c₂ : Cursor} {r₁ r₂ : Emitted Unit}
    (htop : Condition.emit (Expr.emit ctx.table scope) cond done false c₁ = .ok r₁)
    (hh₁ : c₁.height = height)
    (hbottom : Condition.emit (Expr.emit ctx.table scope) cond head true c₂ = .ok r₂)
    (hh₂ : c₂.height = height)
    (hbody : Simulates code E f { ctx with loop := some ⟨height, done, next⟩ } scope height
      (Action.inScope body) bodyCode scope height)
    (hstep : Simulates code E f ctx scope height step stepCode scope height) (n : Nat) :
    Simulates code E f ctx scope height
      (Action.loop (fun env => Condition.eval (Expr.eval call env) cond)
        (Action.inScope body) step n)
      (r₁.code ++ (.label head :: (bodyCode ++ (.label next :: (stepCode ++ (r₂.code ++
        [.label done])))))) scope height := by
  intro rest env out hsuf hf hk
  simp only [List.append_assoc, List.cons_append, List.nil_append] at hsuf ⊢
  have hhead := (List.suffix_append _ _).trans hsuf
  have hturn := (List.suffix_cons _ _).trans hhead
  have hb := (List.suffix_append _ _).trans ((List.suffix_cons _ _).trans
    ((List.suffix_append _ _).trans hturn))
  have hagain {n : Nat} {env : Env} {out : List UInt8} (hf : f.Fits scope height env)
      (hk : Ensures E (Action.loop (fun env => Condition.eval (Expr.eval call env) cond)
        (Action.inScope body) step n env) (f.Continues code E ctx scope rest scope height) out) :=
    hbody.loop_finishes hstep hturn (fun hf hk => Condition.emit_finishes hS.calls hbottom hf hh₂
      hS.labels hhead hb hk) n hf hk
  cases n with
  | zero => exact absurd hk ensures_fault
  | succ n =>
    rw [Action.loop, ensures_bind] at hk
    refine Condition.emit_finishes hS.calls htop hf hh₁ hS.labels
      ((List.suffix_append _ _).trans hb) hsuf (hk.mono fun b out hb => ?_)
    cases b with
    | true =>
      refine (hbody.turn_finishes hturn (fun hf' hk' => ?_) hf hb).label
      exact hstep ((List.suffix_cons _ _).trans ((List.suffix_append _ _).trans hturn)) hf'
        (Frame.Continues.of_andThen hk' fun hf'' hloop => hagain hf'' hloop)
    | false =>
      rw [if_neg (by decide), ensures_pure] at hb
      exact hb hf

theorem Simulates.skip : Simulates code E f ctx scope height .skip [] scope height := by
  intro rest env out _ hf hk
  rw [Action.skip, ensures_pure] at hk
  exact hk hf

end Loop

section Branch

variable {bound : Nat} {c : Cursor}

theorem Simulates.branch (hS : Surroundings code E call ctx.table) {cond : Condition}
    {body other : Action} {bodyCode after : Code} {skip : Label} {r₁ : Emitted Unit} {env : Env}
    {out : List UInt8} {K : Flow × Env → List UInt8 → Prop}
    (hcond : Condition.emit (Expr.emit ctx.table scope) cond skip false c = .ok r₁)
    (hh : c.height = height) (hsuf : r₁.code ++ (bodyCode ++ after) <:+ code)
    (hskip : ∃ post, .label skip :: post <:+ code ∧ ∀ out, Ensures E (other env) K out →
      FinishesFrom code E post (f.stack height env) out)
    (hf : f.Fits scope height env)
    (hbody : ∀ out, Ensures E (body env) K out →
      FinishesFrom code E (bodyCode ++ after) (f.stack height env) out)
    (hk : Ensures E (do if ← Condition.eval (Expr.eval call env) cond then body env else other env)
      K out) :
    FinishesFrom code E (r₁.code ++ (bodyCode ++ after)) (f.stack height env) out := by
  obtain ⟨post, hp, hother⟩ := hskip
  rw [ensures_bind] at hk
  refine Condition.emit_finishes hS.calls hcond hf hh hS.labels hp hsuf (hk.mono fun b out hb => ?_)
  cases b with
  | true => exact hbody out hb
  | false => exact hother out hb

end Branch

theorem ElseBranch.eq_absent {other : ElseBranch} (h : other.isAbsent) : other = .absent := by
  cases other with
  | absent => rfl
  | _ => cases h

mutual

/-- The code of a statement does what the statement means. -/
theorem Stmt.emit_simulates {bound : Nat} :
    (s : Stmt) → ∀ {ctx : Context} {scope : Scope} {c : Cursor}
    {r : Emitted Scope}, Surroundings code E call ctx.table → s.emit ctx scope c = .ok r →
      ctx.Below c.height →
      Simulates code E f ctx scope c.height (s.exec call bound) r.code r.value r.cursor.height
  | .exit value, ctx, scope, c, r, hS, h, hb => Stmt.exit_simulates hS.calls h
  | .letVar name value n, ctx, scope, c, r, hS, h, hb => Stmt.letVar_simulates hS.calls h
  | .assign name value n, ctx, scope, c, r, hS, h, hb => Stmt.assign_simulates hS.calls h
  | .block body, ctx, scope, c, r, hS, h, hb => by
    obtain ⟨r₁, h₁, rfl⟩ := Stmt.emit_block_eq_ok.1 h
    have hst := inScope_height h₁
    rw [hst]
    intro rest env out hsuf hf hk
    rw [Stmt.exec] at hk
    exact Simulates.inScope h₁ rfl hb (fun r₂ h₂ => ⟨(Stmt.emitEach_grows body h₂).1,
      Stmt.emitEach_simulates body hS h₂ hb⟩) hsuf hf hk
  | .print items, ctx, scope, c, r, hS, h, hb => Stmt.print_simulates hS h
  | .ifElse cond body other, ctx, scope, c, r, hS, h, hb => by
    obtain ⟨r₁, r₂, h₁, h₂, h₃⟩ := Stmt.emit_ifElse_eq_ok.1 h
    have hc := Condition.emit_expr_steady h₁
    have hst := inScope_height h₂
    have hbody : Simulates code E f ctx scope c.height
        (Action.inScope (body.exec call bound)) r₂.code
        scope c.height :=
      Simulates.inScope h₂ hc.height hb fun r₃ h₃ => ⟨(Stmt.emit_grows body h₃).1,
        Stmt.emit_simulates body hS h₃ (hb.mono hc.height.ge)⟩
    intro rest env out hsuf hf hk
    rw [Stmt.exec] at hk
    split at h₃
    next ho =>
      obtain rfl := ElseBranch.eq_absent ho
      subst h₃
      simp only [hst, hc.height, List.append_assoc, List.singleton_append] at hsuf hk ⊢
      have hsuf₂ := (List.suffix_append _ _).trans hsuf
      refine Simulates.branch hS h₁ rfl hsuf
        ⟨rest, (List.suffix_append _ _).trans hsuf₂, ?_⟩ hf ?_ hk
      · intro out hk
        rw [ElseBranch.exec, ensures_pure] at hk
        exact hk hf
      · exact fun out hk => hbody hsuf₂ hf
          (hk.mono fun next out hc => hc.rest fun env hk => hk.label)
    next ho =>
      obtain ⟨r₃, h₃, rfl⟩ := h₃
      have hot := ElseBranch.emit_steady other h₃
      have hh : r₂.cursor.height = c.height := by rw [hst, hc.height]
      simp only [hot.height, hh, List.append_assoc, List.cons_append, List.nil_append] at hsuf hk ⊢
      have hsuf₂ := (List.suffix_append _ _).trans hsuf
      have hskip := (List.suffix_cons _ _).trans ((List.suffix_append _ _).trans hsuf₂)
      have hother := (List.suffix_cons _ _).trans hskip
      have hdone := (List.suffix_append _ _).trans hother
      refine Simulates.branch hS h₁ rfl hsuf ⟨_, hskip, ?_⟩ hf ?_ hk
      · intro out hk
        rw [← hh] at hf hk hb ⊢
        exact ElseBranch.emit_simulates (c := ⟨r₂.cursor.height, r₂.cursor.labels + 1⟩) other hS h₃
          hb
          hother hf hk
      · exact fun out hk => hbody hsuf₂ hf (hk.mono fun next out hc => hc.rest fun env hk =>
          FinishesFrom.jump (hS.labels _) hdone hk)
  | .whileLoop cond body, ctx, scope, c, r, hS, h, hb => by
    obtain ⟨r₁, r₂, r₃, h₁, h₂, h₃, rfl⟩ := Stmt.emit_whileLoop_eq_ok.1 h
    have hc := Condition.emit_expr_steady h₁
    have hst := inScope_height h₂
    have hd := Condition.emit_expr_steady h₃
    have hbody : Simulates code E f { ctx with loop := some ⟨r₁.cursor.height, .fresh c.labels,
        .fresh (c.labels + 2)⟩ } scope r₁.cursor.height
          (Action.inScope (body.exec call bound)) r₂.code
        scope r₁.cursor.height :=
      Simulates.inScope h₂ rfl (Context.below_loop _ _ _ _) fun r₄ h₄ =>
        ⟨(Stmt.emit_grows body h₄).1, Stmt.emit_simulates body hS h₄ (Context.below_loop _ _ _ _)⟩
    have hloop := Simulates.loop hS h₁ hc.height.symm h₃ hst hbody .skip bound
    simp only [hd.height, hst, hc.height] at hloop ⊢
    intro rest env out hsuf hf hk
    rw [Stmt.exec] at hk
    exact hloop hsuf hf hk
  | .forLoop init cond step body, ctx, scope, c, r, hS, h, hb => by
    obtain ⟨r₀, r₁, r₂, r₃, r₄, h₀, h₁, h₂, h₃, h₄, -, rfl⟩ := Stmt.emit_forLoop_ok h
    obtain ⟨hg, -⟩ := Stmt.emit_grows init h₀
    have hc := Condition.emit_expr_steady h₁
    have hst := inScope_height h₂
    have hsp := inScope_height h₃
    have hh₁ : r₁.cursor.height = r₀.cursor.height := hc.height
    have hh₂ : r₂.cursor.height = r₀.cursor.height := hst.trans hh₁
    have hb₀ : ctx.Below r₀.cursor.height := hb.mono hg.height_le
    have hinit : Simulates code E f ctx scope.nested c.height
        (init.exec call bound) r₀.code r₀.value
        r₀.cursor.height := Stmt.emit_simulates init hS h₀ hb
    have hbody : Simulates code E f { ctx with loop := some ⟨r₀.cursor.height,
        .fresh r₀.cursor.labels, .fresh (r₀.cursor.labels + 2)⟩ } r₀.value r₀.cursor.height
        (Action.inScope (body.exec call bound)) r₂.code r₀.value r₀.cursor.height := by
      rw [hh₁] at h₂
      exact Simulates.inScope h₂ hh₁ (Context.below_loop _ _ _ _) fun r₅ h₅ =>
        ⟨(Stmt.emit_grows body h₅).1, Stmt.emit_simulates body hS h₅
          ((Context.below_loop _ _ _ _).mono hh₁.ge)⟩
    have hstep : Simulates code E f ctx r₀.value r₀.cursor.height
        (Action.inScope (step.exec call bound)) r₃.code r₀.value r₀.cursor.height :=
      Simulates.inScope h₃ hh₂ hb₀ fun r₅ h₅ => ⟨(Stmt.emit_grows step h₅).1,
        Stmt.emit_simulates step hS h₅ (hb₀.mono hh₂.ge)⟩
    have hloop := Simulates.loop hS h₁ rfl h₄ (hsp.trans hh₂) hbody hstep bound
    intro rest env out hsuf hf hk
    rw [Stmt.exec] at hk
    have hfor := (hinit.andThen hg hloop).scoped hg hb
    simp only [List.append_assoc, List.cons_append, List.nil_append] at hfor
    exact hfor hsuf hf hk
  | .function name params body n, ctx, scope, c, r, hS, h, hb => Stmt.function_simulates h
  | .ret value inFunction n, ctx, scope, c, r, hS, h, hb => Stmt.ret_simulates hS.calls h
  | .call name args n, ctx, scope, c, r, hS, h, hb => Stmt.call_simulates hS.calls h
  | .breakLoop n, ctx, scope, c, r, hS, h, hb => Stmt.breakLoop_simulates hS.labels h
  | .continueLoop n, ctx, scope, c, r, hS, h, hb => Stmt.continueLoop_simulates hS.labels h

theorem Stmt.emitEach_simulates {bound : Nat} : (ss : List Stmt) → ∀ {ctx : Context} {scope : Scope}
    {c : Cursor} {r : Emitted Scope}, Surroundings code E call ctx.table →
      Stmt.emitEach ss ctx scope c = .ok r → ctx.Below c.height →
      Simulates code E f ctx scope c.height (Stmt.execEach call bound ss) r.code r.value
        r.cursor.height
  | [], ctx, scope, c, r, hS, h, hb => by
    rw [Stmt.emitEach_nil_eq_ok] at h
    subst h
    intro rest env out _ hf hk
    rw [Stmt.execEach, ensures_pure] at hk
    exact hk hf
  | s :: ss, ctx, scope, c, r, hS, h, hb => by
    obtain ⟨r₁, r₂, h₁, h₂, rfl⟩ := Stmt.emitEach_cons_eq_ok.1 h
    obtain ⟨hg, -⟩ := Stmt.emit_grows s h₁
    intro rest env out hsuf hf hk
    rw [Stmt.execEach] at hk
    exact Simulates.andThen hg (Stmt.emit_simulates s hS h₁ hb)
      (Stmt.emitEach_simulates ss hS h₂ (hb.mono hg.height_le)) hsuf hf hk

theorem ElseBranch.emit_simulates {bound : Nat} : (other : ElseBranch) → ∀ {ctx : Context}
    {scope : Scope} {done : Label} {c : Cursor} {r : Emitted Unit} {post : Code} {env : Env}
    {out : List UInt8}, Surroundings code E call ctx.table → other.emit ctx scope done c = .ok r →
      ctx.Below c.height → r.code ++ (.label done :: post) <:+ code → f.Fits scope c.height env →
      Ensures E (other.exec call bound env) (f.Continues code E ctx scope post scope c.height) out →
      FinishesFrom code E (r.code ++ (.label done :: post)) (f.stack c.height env) out
  | .absent, ctx, scope, done, c, r, post, env, out, hS, h, hb, hsuf, hf, hk => by
    rw [ElseBranch.emit, pure_eq_ok] at h
    subst h
    rw [ElseBranch.exec, ensures_pure] at hk
    exact (hk hf).label
  | .elseIf cond body next, ctx, scope, done, c, r, post, env, out, hS, h, hb, hsuf, hf, hk => by
    obtain ⟨r₁, r₂, h₁, h₂, h₃⟩ := ElseBranch.emit_elseIf_eq_ok.1 h
    have hc := Condition.emit_expr_steady h₁
    have hst := inScope_height h₂
    have hbody : Simulates code E f ctx scope c.height
        (Action.inScope (body.exec call bound)) r₂.code
        scope c.height :=
      Simulates.inScope h₂ hc.height hb fun r₃ h₃ => ⟨(Stmt.emit_grows body h₃).1,
        Stmt.emit_simulates body hS h₃ (hb.mono hc.height.ge)⟩
    have hdone := (List.suffix_append _ _).trans hsuf
    rw [ElseBranch.exec] at hk
    split at h₃
    next ho =>
      obtain rfl := ElseBranch.eq_absent ho
      subst h₃
      simp only [List.append_assoc, List.singleton_append] at hsuf ⊢
      have hsuf₂ := (List.suffix_append _ _).trans hsuf
      refine Simulates.branch hS h₁ rfl hsuf ⟨_, (List.suffix_append _ _).trans hsuf₂, ?_⟩ hf ?_ hk
      · intro out hk
        rw [ElseBranch.exec, ensures_pure] at hk
        exact (hk hf).label
      · exact fun out hk => hbody hsuf₂ hf (hk.mono fun next out hc => hc.rest fun env hk =>
          hk.label.label)
    next ho =>
      obtain ⟨r₃, h₃, rfl⟩ := h₃
      have hh : r₂.cursor.height = c.height := by rw [hst, hc.height]
      simp only [List.append_assoc, List.cons_append] at hsuf ⊢
      have hsuf₂ := (List.suffix_append _ _).trans hsuf
      have hskip := (List.suffix_cons _ _).trans ((List.suffix_append _ _).trans hsuf₂)
      refine Simulates.branch hS h₁ rfl hsuf ⟨_, hskip, ?_⟩ hf ?_ hk
      · intro out hk
        rw [← hh] at hf hk hb ⊢
        exact ElseBranch.emit_simulates next hS h₃ hb ((List.suffix_cons _ _).trans hskip) hf hk
      · exact fun out hk => hbody hsuf₂ hf (hk.mono fun next out hc => hc.rest fun env hk =>
          FinishesFrom.jump (hS.labels _) hdone hk)
  | .otherwise body, ctx, scope, done, c, r, post, env, out, hS, h, hb, hsuf, hf, hk => by
    rw [ElseBranch.emit] at h
    rw [ElseBranch.exec] at hk
    refine Simulates.inScope h rfl hb (fun r₁ h₁ => ⟨(Stmt.emit_grows body h₁).1,
      Stmt.emit_simulates body hS h₁ hb⟩) hsuf hf (hk.mono fun next out hc => ?_)
    exact hc.rest fun env hk => hk.label

end

end Stackwise
