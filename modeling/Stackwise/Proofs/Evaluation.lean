import Stackwise.Proofs.Branching
import Stackwise.Proofs.Decimal
import Stackwise.Proofs.Frame

/-! The code of expressions, conditions and items to print does what they mean.  Each statement says
it backward: if the program finishes as it should from the end of the code, with the value that is
meant on the stack, it does so from the beginning. -/
namespace Stackwise

open Emit Machine Run

/-- The code of every function in the table does what a call of it means.  What a call leaves in the
places of its arguments is open. -/
def CallsFinish (code : Code) (E : Int64 → List UInt8 → Prop) (table : Signatures) (call : Calls) :
    Prop :=
  ∀ (name : String) (vs : List Int64) (rest : Code) (stack : List Slot) (out : List UInt8),
    (table.get? name).map Signature.arity = some vs.length →
    Ensures E (call name vs) (fun v out => ∀ ps : List Slot, ps.length = vs.length →
      FinishesWith code E v rest (ps ++ stack) out) out →
    FinishesFrom code E (.instr (.call (.function name)) :: rest)
      ((vs.map Slot.word).reverse ++ stack) out

section Expr

variable {code : Code} {E : Int64 → List UInt8 → Prop} {table : Signatures} {call : Calls}
  {scope : Scope} {f : Frame} {env : Env} {height : Nat}

theorem BinOp.pops_finishes {op : BinOp} {x y : Int64} {rest : Code} {stack : List Slot}
    {out : List UInt8}
    (hk : Ensures E (op.apply x y) (fun v out => FinishesWith code E v rest stack out) out) :
    FinishesFrom code E (.instr (.pop .rax) :: .instr (.pop .rbx) :: (op.code.map .instr ++ rest))
      (.word x :: .word y :: stack) out := by
  intro s hs
  obtain ⟨s₁, h₁, hs₁, hx, -⟩ := hs.pop (by decide)
  obtain ⟨s₂, h₂, hs₂, hy, hr⟩ := hs₁.pop (by decide)
  exact .step h₁ (.step h₂ (BinOp.code_finishes hk hs₂
    (by rw [hr _ (by decide) (by decide), hx]) hy))

theorem CallsFinish.call_finishes (hc : CallsFinish code E table call) {name : String}
    {arity n : Nat}
    {args : Emit Unit} {c : Cursor} {r : Emitted Unit} (vals : Run (List Int64)) {rest : Code}
    {stack : List Slot} {out : List UInt8} (h : Emit.call table name arity n args c = .ok r)
    (ha : ∀ r₁ rest, args c = .ok r₁ → Ensures E vals (fun vs out => vs.length = arity →
      FinishesFrom code E rest ((vs.map Slot.word).reverse ++ stack) out) out →
      FinishesFrom code E (r₁.code ++ rest) stack out)
    (hk : Ensures E (vals >>= call name) (fun v out => FinishesWith code E v rest stack out) out) :
    FinishesFrom code E (r.code ++ rest) stack out := by
  obtain ⟨ht, r₁, h₁, -, rfl⟩ := call_eq_ok.1 h
  rw [List.append_assoc, List.cons_append]
  rw [ensures_bind] at hk
  refine ha r₁ _ h₁ (hk.mono fun vs out hv hl => ?_)
  refine hc name vs _ stack out (by rw [ht, hl]) (hv.mono fun v out hw ps hp => ?_)
  exact hw.dropping (by rw [hp, hl])

mutual

/-- The code of an expression pushes its value. -/
theorem Expr.emit_finishes (hc : CallsFinish code E table call) :
    (e : Expr) → ∀ (temps : List Slot) {c : Cursor} {r : Emitted Unit} {rest : Code}
      {out : List UInt8}, e.emit table scope c = .ok r → f.Fits scope height env →
      c.height = temps.length + height →
      Ensures E (e.eval call env) (fun v out =>
        FinishesFrom code E rest (.word v :: (temps ++ f.stack height env)) out) out →
      FinishesFrom code E (r.code ++ rest) (temps ++ f.stack height env) out
  | .int v, temps, c, r, rest, out, h, hf, hh, hk => by
    rw [Expr.emit_int_eq_ok] at h
    subst h
    rw [Expr.eval, ensures_pure] at hk
    exact FinishesWith.int rfl hk.push
  | .ident name n, temps, c, r, rest, out, h, hf, hh, hk => by
    obtain ⟨v, hv, rfl⟩ := Expr.emit_ident_eq_ok.1 h
    obtain ⟨x, xs, ys, hx, hst, hl, -⟩ := Frame.lookup height hf.names hf.laid hv
    rw [Expr.eval, hx] at hk
    obtain ⟨_, ⟨⟩, hk⟩ := ensures_ofOption.1 hk
    rw [hst, ← List.append_assoc] at hk ⊢
    refine FinishesWith.slot ?_ hk.push
    rw [List.length_append, hh]
    push_cast
    omega
  | .paren inner, temps, c, r, rest, out, h, hf, hh, hk => by
    rw [Expr.emit] at h
    rw [Expr.eval] at hk
    exact Expr.emit_finishes hc inner temps h hf hh hk
  | .call name args n, temps, c, r, rest, out, h, hf, hh, hk => by
    obtain ⟨r₁, h₁, rfl⟩ := Expr.emit_call_eq_ok.1 h
    rw [Expr.eval] at hk
    rw [List.append_assoc]
    refine hc.call_finishes _ h₁ (fun r₂ rest h₂ => ?_) (hk.mono fun v out hv => hv.push)
    exact Expr.emitEach_finishes hc args temps h₂ hf hh
  | .bin op lhs rhs, temps, c, r, rest, out, h, hf, hh, hk => by
    obtain ⟨r₁, r₂, h₁, h₂, -, rfl⟩ := Expr.emit_bin_eq_ok.1 h
    have hp := Expr.emit_pushes rhs h₁
    simp only [Expr.eval, ensures_bind] at hk
    simp only [List.append_assoc, List.cons_append]
    refine Expr.emit_finishes hc rhs temps h₁ hf hh (hk.mono fun y out hy => ?_)
    refine Expr.emit_finishes hc lhs (.word y :: temps) h₂ hf
      (by simp [hp.cursor, hh]; omega) (hy.mono fun x out hx => ?_)
    exact BinOp.pops_finishes (hx.mono fun v out hv => hv.push)

theorem Expr.emitEach_finishes (hc : CallsFinish code E table call) :
    (es : List Expr) → ∀ (temps : List Slot) {c : Cursor} {r : Emitted Unit} {rest : Code}
      {out : List UInt8}, Expr.emitEach table scope es c = .ok r → f.Fits scope height env →
      c.height = temps.length + height →
      Ensures E (Expr.evalEach call env es) (fun vs out => vs.length = es.length →
        FinishesFrom code E rest ((vs.map Slot.word).reverse ++ (temps ++ f.stack height env)) out)
        out →
      FinishesFrom code E (r.code ++ rest) (temps ++ f.stack height env) out
  | [], temps, c, r, rest, out, h, hf, hh, hk => by
    rw [Expr.emitEach, pure_eq_ok] at h
    subst h
    rw [Expr.evalEach, ensures_pure] at hk
    exact hk rfl
  | e :: es, temps, c, r, rest, out, h, hf, hh, hk => by
    obtain ⟨r₁, r₂, h₁, h₂, rfl⟩ := Expr.emitEach_cons_eq_ok.1 h
    have hp := Expr.emit_pushes e h₁
    simp only [Expr.evalEach, ensures_bind, ensures_pure] at hk
    rw [List.append_assoc]
    refine Expr.emit_finishes hc e temps h₁ hf hh (hk.mono fun v out hv => ?_)
    refine Expr.emitEach_finishes hc es (.word v :: temps) h₂ hf
      (by simp [hp.cursor, hh]; omega) (hv.mono fun vs out hvs hl => ?_)
    simpa using hvs (by simp [hl])

end

end Expr

section Condition

variable {code post rest : Code} {E : Int64 → List UInt8 → Prop} {table : Signatures} {call : Calls}
  {scope : Scope} {f : Frame} {env : Env} {height : Nat} {stack : List Slot} {out : List UInt8}

theorem FinishesFrom.cmp {cc : ConditionCode} {target : Label} {x y : Int64}
    (hl : code.count (.label target) ≤ 1) (ht : .label target :: post <:+ code)
    (hk : if cc.holds (.ofCmp x y) then FinishesFrom code E post stack out
      else FinishesFrom code E rest stack out) :
    FinishesFrom code E (.instr (.pop .rbx) :: .instr (.pop .rax) ::
      .instr (.alu .cmp (.reg .rax) (.reg .rbx)) :: .instr (.jump (.on cc) target) :: rest)
      (.word y :: .word x :: stack) out := by
  intro s hs
  obtain ⟨t, hp, hs'⟩ := hs.passes_cmp hl ht
  refine .leads hp.leads ?_
  split at hk
  next hh => exact hk t (by rwa [if_pos hh] at hs')
  next hh => exact hk t (by rwa [if_neg hh] at hs')

theorem FinishesFrom.test {cc : ConditionCode} {target : Label} {x : Int64}
    (hl : code.count (.label target) ≤ 1) (ht : .label target :: post <:+ code)
    (hk : if cc.holds (.ofTest x x) then FinishesFrom code E post stack out
      else FinishesFrom code E rest stack out) :
    FinishesFrom code E (.instr (.pop .rax) :: .instr (.alu .test (.reg .rax) (.reg .rax)) ::
      .instr (.jump (.on cc) target) :: rest) (.word x :: stack) out := by
  intro s hs
  obtain ⟨t, hp, hs'⟩ := hs.passes_test hl ht
  refine .leads hp.leads ?_
  split at hk
  next hh => exact hk t (by rwa [if_pos hh] at hs')
  next hh => exact hk t (by rwa [if_neg hh] at hs')

theorem Link.emit_finishes (hc : CallsFinish code E table call) {k : Link} {target : Label}
    {truth : Bool} {c : Cursor} {r : Emitted Unit}
    (h : k.emit (Expr.emit table scope) target truth c = .ok r) (hf : f.Fits scope height env)
    (hh : c.height = height) (hl : code.count (.label target) ≤ 1)
    (ht : .label target :: post <:+ code)
    (hk : Ensures E (k.eval (Expr.eval call env)) (fun b => if b = truth then
      FinishesFrom code E post (f.stack height env) else
      FinishesFrom code E rest (f.stack height env)) out) :
    FinishesFrom code E (r.code ++ rest) (f.stack height env) out := by
  obtain ⟨r₁, h₁, h₂⟩ := Link.emit_eq_ok.1 h
  have hp := Expr.emit_pushes k.lhs h₁
  rw [Link.eval, ensures_bind] at hk
  have hh₀ : c.height = ([] : List Slot).length + height := by simpa using hh
  cases hcmp : k.comparison with
  | some p =>
    obtain ⟨cmp, rhs⟩ := p
    rw [hcmp] at h₂
    obtain ⟨r₂, h₂, -, rfl⟩ := h₂
    simp only [hcmp, ensures_bind, ensures_pure] at hk
    simp only [List.append_assoc, List.cons_append, List.nil_append]
    refine Expr.emit_finishes hc k.lhs [] h₁ hf hh₀ (hk.mono fun x out hx => ?_)
    refine Expr.emit_finishes hc rhs [.word x] h₂ hf (by simp [hp.cursor, hh]; omega)
      (hx.mono fun y out hy => ?_)
    refine FinishesFrom.cmp hl ht ?_
    rw [Comparison.holds_failing_when]
    by_cases hb : cmp.holds x y = truth
    · simpa [hb] using hy
    · simpa [hb] using hy
  | none =>
    rw [hcmp] at h₂
    obtain ⟨-, rfl⟩ := h₂
    simp only [hcmp, ensures_pure] at hk
    simp only [List.append_assoc, List.cons_append, List.nil_append]
    refine Expr.emit_finishes hc k.lhs [] h₁ hf hh₀ (hk.mono fun x out hx => ?_)
    refine FinishesFrom.test hl ht ?_
    rw [ConditionCode.holds_zero_when]
    by_cases hb : (x != 0) = truth
    · simpa [hb] using hx
    · simpa [hb] using hx

theorem Condition.checkAll_of_ensures {value : Expr → Run Int64} {cond : Condition}
    {Q : Bool → List UInt8 → Prop} (h : Ensures E (Condition.eval value cond) Q out) :
    Condition.checkAll (fun k Q out => Ensures E (k.eval value) Q out) cond Q out := by
  have hrest (rest : Condition) (truth : Bool) : Ensures E (Condition.evalRest value truth rest) Q =
      Condition.checkRest (fun k Q out => Ensures E (k.eval value) Q out) truth rest Q := by
    induction rest generalizing truth with
    | nil => simp [Condition.evalRest, Condition.checkRest]
    | cons k rest ih =>
      cases hk : k.connector <;> cases truth <;>
        simp [Condition.evalRest, Condition.checkRest, hk, ih]
  cases cond with
  | nil => simp [Condition.eval] at h
  | cons first rest =>
    rw [Condition.eval, ensures_bind] at h
    simp only [hrest] at h
    exact h

/-- The code of a condition goes to the target if the condition has the truth value, and else on. -/
theorem Condition.emit_finishes (hc : CallsFinish code E table call) {cond : Condition}
    {target : Label} {truth : Bool} {c : Cursor} {r : Emitted Unit}
    (h : Condition.emit (Expr.emit table scope) cond target truth c = .ok r)
    (hf : f.Fits scope height env) (hh : c.height = height) (hl : ∀ l, code.count (.label l) ≤ 1)
    (ht : .label target :: post <:+ code) (hs : r.code ++ rest <:+ code)
    (hk : Ensures E (Condition.eval (Expr.eval call env) cond) (fun b => if b = truth then
      FinishesFrom code E post (f.stack height env) else
      FinishesFrom code E rest (f.stack height env)) out) :
    FinishesFrom code E (r.code ++ rest) (f.stack height env) out := by
  have hb : Branches (fun k Q out => Ensures E (k.eval (Expr.eval call env)) Q out) code
      (Expr.emit table scope) height fun rest => FinishesFrom code E rest (f.stack height env) :=
    { mono := fun hq hi => hq.mono hi
      label := fun hq => hq.label
      jump := fun hp hq => FinishesFrom.jump (hl _) hp hq
      link := fun h hh ht hq => Link.emit_finishes hc h hf hh (hl _) ht hq }
  refine hb.condition_of_check (fun e _ _ => Expr.emit_pushes e) h hh ht hs (fun out hq => ?_)
    (fun out hq => ?_) (Condition.checkAll_of_ensures hk)
  · simpa using hq
  · cases truth <;> simpa using hq

end Condition

section Print

variable {code rest : Code} {E : Int64 → List UInt8 → Prop} {table : Signatures} {call : Calls}
  {scope : Scope} {f : Frame} {env : Env} {height : Nat} {stack : List Slot} {out : List UInt8}

def Word.slots (ws : List UInt64) : List Slot := ws.map fun w => .word w.toInt64

/-- The bytes of a text lie in memory where its words are on the stack. -/
theorem Machine.Holds.fetch_pack {m : Memory} {a : Int} {bs : List UInt8}
    (h : Holds m a (Word.slots (Word.pack bs) ++ stack)) : m.fetch a bs.length = bs.map .byte := by
  obtain ⟨k, hk⟩ := Word.flatMap_bytes_pack bs
  have hf := (Holds.append.1 h).1.fetch_eq
  have hc : (Word.slots (Word.pack bs)).flatMap Slot.cells =
      bs.map Cell.byte ++ (List.replicate k 0).map Cell.byte := by
    rw [← List.map_append, ← hk, Word.slots, List.flatMap_map, List.map_flatMap]
    rfl
  have hl : 8 * (Word.slots (Word.pack bs)).length = bs.length + k := by
    rw [← m.length_fetch a (8 * _), hf, hc]
    simp
  rw [hl, Memory.fetch_add, hc] at hf
  exact (List.append_inj hf (by simp)).1

theorem Word.ofInt_toNat (w : UInt64) : Int64.ofInt w.toNat = w.toInt64 := by
  apply Int64.toBitVec_inj.1
  apply BitVec.eq_of_toNat_eq
  simp [Int64.ofInt]
  rfl

theorem Emit.pushWords_finishes (ws : List UInt64) :
    ∀ {c : Cursor} {r : Emitted Unit} {rest : Code},
    pushWords ws c = .ok r → FinishesFrom code E rest (Word.slots ws ++ stack) out →
      FinishesFrom code E (r.code ++ rest) stack out := by
  induction ws with
  | nil =>
    intro c r rest h hk
    rw [pushWords, pure_eq_ok] at h
    subst h
    exact hk
  | cons w ws ih =>
    intro c r rest h hk
    simp only [pushWords, bind_eq_ok, load_eq_ok] at h
    obtain ⟨r₁, _, h₁, rfl, rfl⟩ := h
    rw [List.append_assoc]
    refine ih h₁ fun s hs => ?_
    obtain ⟨h₂, hs₂⟩ := hs.mov (by decide) rfl
    obtain ⟨t, h₃, hs₃, -⟩ := hs₂.push (w := w.toInt64)
      (by simp [Value.word?, Word.ofInt_toNat])
    exact .step h₂ (.step h₃ (hk t hs₃))

/-- A text whose words are on the stack is written. -/
theorem FinishesFrom.write {bs : List UInt8}
    (hk : FinishesFrom code E rest (Word.slots (Word.pack bs) ++ stack) (out ++ bs)) :
    FinishesFrom code E (.instr (.mov (.reg .rax) sysWrite) ::
      .instr (.mov (.reg .rdi) standardOutput) :: .instr (.mov (.reg .rsi) (.reg .rsp)) ::
      .instr (.mov (.reg .rdx) (.int bs.length)) :: .instr .syscall :: rest)
      (Word.slots (Word.pack bs) ++ stack) out := by
  intro s hs
  obtain ⟨a, ha, hst⟩ := hs.stack
  obtain ⟨h₁, hs₁⟩ := hs.mov (by decide) rfl
  obtain ⟨h₂, hs₂⟩ := hs₁.mov (by decide) rfl
  obtain ⟨h₃, hs₃⟩ := hs₂.mov (by decide) rfl
  obtain ⟨h₄, hs₄⟩ := hs₃.mov (by decide) rfl
  obtain ⟨t, h₅, hs₅⟩ := hs₄.write (a := a) (n := bs.length) (by simp [State.set])
    (by simp [State.set]) (by simp [State.set, ha]) (by simp) hst.fetch_pack
  exact .step h₁ (.step h₂ (.step h₃ (.step h₄ (.step h₅ (hk t hs₅)))))

theorem Emit.writeText_finishes {text : String} {c : Cursor} {r : Emitted Unit}
    (h : writeText text c = .ok r)
    (hk : FinishesFrom code E rest stack (out ++ text.toUTF8.data.toList)) :
    FinishesFrom code E (r.code ++ rest) stack out := by
  unfold writeText at h
  dsimp only at h
  split at h
  next he =>
    rw [pure_eq_ok] at h
    subst h
    rw [List.isEmpty_iff.1 he, List.append_nil] at hk
    exact hk
  next he =>
    simp only [bind_eq_ok, instrs_eq_ok, drop_eq_ok] at h
    obtain ⟨r₁, _, h₁, ⟨_, _, rfl, ⟨-, rfl⟩, rfl⟩, rfl⟩ := h
    rw [List.append_assoc]
    refine pushWords_finishes _ h₁ (FinishesFrom.write (hk.dropping ?_))
    simp [Word.slots]

theorem PrintItem.emit_finishes (hc : CallsFinish code E table call)
    (hl : ∀ l, code.count (.label l) ≤ 1)
    (hp : .instr (.call PrintInt.entry) ∈ code → PrintInt.code <:+ code) (s : PrintItem)
    {c : Cursor} {r : Emitted Unit} (h : s.emit table scope c = .ok r)
    (hf : f.Fits scope height env) (hh : c.height = height)
    (hk : Ensures E (s.exec (Expr.eval call env)) (fun _ =>
      FinishesFrom code E rest (f.stack height env)) out) :
    FinishesFrom code E (r.code ++ rest) (f.stack height env) out := by
  cases s with
  | str text => exact Emit.writeText_finishes h hk
  | expr e =>
    obtain ⟨r₁, h₁, -, rfl⟩ := PrintItem.emit_expr_eq_ok.1 h
    simp only [PrintItem.exec, ensures_bind, ensures_write] at hk
    rw [List.append_assoc]
    refine Expr.emit_finishes hc e [] h₁ hf (by simpa using hh) (hk.mono fun v out hv => ?_)
    refine FinishesWith.pop fun t ht hx => ?_
    have hm : .instr (.call PrintInt.entry) ∈ code := ht.suffix.subset (by simp)
    exact PrintInt.finishes hl (hp hm) hv t ht hx

theorem PrintItem.emitEach_finishes (hc : CallsFinish code E table call)
    (hl : ∀ l, code.count (.label l) ≤ 1)
    (hp : .instr (.call PrintInt.entry) ∈ code → PrintInt.code <:+ code)
    (hf : f.Fits scope height env) (items : List PrintItem) :
    ∀ {c : Cursor} {r : Emitted Unit} {out : List UInt8},
      PrintItem.emitEach table scope items c = .ok r → c.height = height →
      Ensures E (PrintItem.execEach (Expr.eval call env) items) (fun _ =>
        FinishesFrom code E rest (f.stack height env)) out →
      FinishesFrom code E (r.code ++ rest) (f.stack height env) out := by
  induction items with
  | nil =>
    intro c r out h hh hk
    rw [PrintItem.emitEach, pure_eq_ok] at h
    subst h
    rw [PrintItem.execEach, ensures_pure] at hk
    exact hk
  | cons s items ih =>
    intro c r out h hh hk
    simp only [PrintItem.emitEach, bind_eq_ok] at h
    obtain ⟨r₁, r₂, h₁, h₂, rfl⟩ := h
    have hs := (PrintItem.emit_pushes s h₁).steady
    rw [PrintItem.execEach, ensures_bind] at hk
    rw [List.append_assoc]
    refine PrintItem.emit_finishes hc hl hp s h₁ hf hh (hk.mono fun _ out hi => ?_)
    exact ih h₂ (hs.height.trans hh) hi

end Print

end Stackwise
