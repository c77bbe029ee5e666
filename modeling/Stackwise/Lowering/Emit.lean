import Stackwise.Assembly.Writer
import Stackwise.Tree.Basic

/-! Making code.  A generator writes assembly, notes the functions whose declarations it meets,
since their code comes later, and notes whether its code writes integers. -/
namespace Stackwise

/-- Assembly in the making, the functions met so far in order, and whether an integer is written. -/
structure Draft extends Assembly where
  met : List FunctionDecl
  writesInt : Bool

namespace Draft

def blank (c : Cursor) : Draft := ⟨⟨c, []⟩, [], false⟩

/-- What was made from a blank draft, after what there was. -/
def append (d e : Draft) : Draft :=
  ⟨⟨e.cursor, d.code ++ e.code⟩, d.met ++ e.met, d.writesInt || e.writesInt⟩

/-- The result of an action on a blank draft, after what there was. -/
def onto {α : Type} (d : Draft) : EStateM.Result Error Draft α → EStateM.Result Error Draft α
  | .ok x e => .ok x (d.append e)
  | .error x e => .error x (d.append e)

@[simp] theorem append_blank (d : Draft) : d.append (blank d.cursor) = d := by
  simp [append, blank]

theorem onto_append {α : Type} (d e : Draft) (r : EStateM.Result Error Draft α) :
    (d.append e).onto r = d.onto (e.onto r) := by
  cases r <;> simp [onto, append, Bool.or_assoc]

end Draft

/-- What an action yields, where it leaves the counts, and the lines it emits. -/
structure Emitted (α : Type) where
  value : α
  cursor : Cursor
  code : Code

/-- An action of a generator.  What it does hangs on the counts alone, and it adds to what there
is. -/
structure Emit (α : Type) where
  run : EStateM Error Draft α
  adds : ∀ d, run d = d.onto (run (.blank d.cursor))

namespace Emit

variable {α β : Type}

def apply (m : Emit α) (c : Cursor) : Except Error (Emitted α) :=
  match m.run (.blank c) with
  | .ok x d => .ok ⟨x, d.cursor, d.code⟩
  | .error e _ => .error e

instance : CoeFun (Emit α) fun _ => Cursor → Except Error (Emitted α) := ⟨apply⟩

protected def pure (x : α) : Emit α where
  run := pure x
  adds d := by simp [Pure.pure, EStateM.pure, Draft.onto]

/-- One action after another; the second one's lines follow the first one's. -/
protected def bind (m : Emit α) (f : α → Emit β) : Emit β where
  run := m.run >>= fun x => (f x).run
  adds d := by
    change EStateM.bind m.run (fun x => (f x).run) d =
      d.onto (EStateM.bind m.run (fun x => (f x).run) (.blank d.cursor))
    unfold EStateM.bind
    rw [m.adds d]
    cases m.run (.blank d.cursor) with
    | error e d' => rfl
    | ok x d' =>
      simp only [Draft.onto]
      rw [(f x).adds (d.append d'), Draft.onto_append, (f x).adds d']
      rfl

instance : Monad Emit where
  pure := Emit.pure
  bind := Emit.bind

/-- An operation of a writer, which meets no function. -/
def ofWriter (m : Writer α) (h : m.Appends) : Emit α where
  run d :=
    match m d.toAssembly with
    | .ok x a => .ok x { d with toAssembly := a }
    | .error e a => .error e { d with toAssembly := a }
  adds d := by
    rw [h d.toAssembly]
    cases hm : m ⟨d.cursor, []⟩ <;> simp [Assembly.onto, Draft.onto, Draft.append, Draft.blank, hm]

def fail (cause : Cause) (line : Nat) : Emit α := ofWriter (throw ⟨cause, line⟩) (.throw _)

def height : Emit Nat := ofWriter Writer.height .height

def line (l : Line) : Emit Unit := ofWriter (Writer.line l) (.line l)

def directive (text : String) : Emit Unit := line (.directive text)

def label (l : Label) : Emit Unit := line (.label l)

def instr (i : Instr) : Emit Unit := line (.instr i)

def jump (j : Jump) (target : Label) : Emit Unit := instr (.jump j target)

def freshLabel : Emit Label := ofWriter Writer.freshLabel .freshLabel

def push (src : Operand) : Emit Unit := ofWriter (Writer.push src) (.push src)

def pop (dst : Reg) : Emit Unit := ofWriter (Writer.pop dst) (.pop dst)

def unwind (words : Nat) : Emit Unit := ofWriter (Writer.unwind words) (.unwind words)

def drop (words : Nat) : Emit Unit := ofWriter (Writer.release words) (.release words)

def enterFrame : Emit Nat := ofWriter Writer.beginFrame .beginFrame

def leaveFrame (outside : Nat) : Emit Unit :=
  ofWriter (Writer.endFrame outside) (.setHeight outside)

def lines : Code → Emit Unit
  | [] => pure ()
  | l :: ls => do
    line l
    lines ls

def instrs (is : List Instr) : Emit Unit := lines (is.map .instr)

/-- Notes a function, whose code is to come later. -/
def meet (f : FunctionDecl) : Emit Unit where
  run := modify fun d => { d with met := d.met ++ [f] }
  adds d := by
    change EStateM.Result.ok () _ = EStateM.Result.ok () _
    simp [Draft.append, Draft.blank]

/-- Notes that an integer is written. -/
def noteInt : Emit Unit where
  run := modify fun d => { d with writesInt := true }
  adds d := by
    change EStateM.Result.ok () _ = EStateM.Result.ok () _
    simp [Draft.append, Draft.blank]

section Apply

@[simp] theorem pure_apply (x : α) (c : Cursor) : (pure x : Emit α) c = .ok ⟨x, c, []⟩ := rfl

theorem bind_apply (m : Emit α) (f : α → Emit β) (c : Cursor) :
    (m >>= f) c =
      match m c with
      | .error e => .error e
      | .ok r =>
        match f r.value r.cursor with
        | .error e => .error e
        | .ok r₂ => .ok ⟨r₂.value, r₂.cursor, r.code ++ r₂.code⟩ := by
  have hrun : (m >>= f).run (.blank c) = EStateM.bind m.run (fun x => (f x).run) (.blank c) := rfl
  unfold apply
  rw [hrun]
  unfold EStateM.bind
  cases m.run (.blank c) with
  | error e d => rfl
  | ok x d =>
    dsimp only
    rw [(f x).adds d]
    cases (f x).run (.blank d.cursor) <;> rfl

theorem bind_eq_ok {m : Emit α} {f : α → Emit β} {c : Cursor} {r : Emitted β} :
    (m >>= f) c = .ok r ↔ ∃ r₁ r₂, m c = .ok r₁ ∧ f r₁.value r₁.cursor = .ok r₂ ∧
      r = ⟨r₂.value, r₂.cursor, r₁.code ++ r₂.code⟩ := by
  rw [bind_apply]
  cases hm : m c with
  | error e => simp
  | ok r₁ =>
    cases hf : f r₁.value r₁.cursor with
    | error e => simp [hf]
    | ok r₂ => simp [hf, eq_comm]

theorem bind_eq_error {m : Emit α} {f : α → Emit β} {c : Cursor} {e : Error} :
    (m >>= f) c = .error e ↔
      m c = .error e ∨ ∃ r₁, m c = .ok r₁ ∧ f r₁.value r₁.cursor = .error e := by
  rw [bind_apply]
  cases hm : m c with
  | error e' => simp
  | ok r₁ => cases hf : f r₁.value r₁.cursor <;> simp [hf]

theorem fail_apply (cause : Cause) (n : Nat) (c : Cursor) :
    (fail cause n : Emit α) c = .error ⟨cause, n⟩ := rfl

theorem height_apply (c : Cursor) : height c = .ok ⟨c.height, c, []⟩ := rfl

theorem line_apply (l : Line) (c : Cursor) : line l c = .ok ⟨(), c, [l]⟩ := rfl

theorem freshLabel_apply (c : Cursor) :
    freshLabel c = .ok ⟨.fresh c.labels, ⟨c.height, c.labels + 1⟩, []⟩ := rfl

@[simp] theorem push_apply (src : Operand) (c : Cursor) :
    push src c = .ok ⟨(), ⟨c.height + 1, c.labels⟩, [.instr (.push src)]⟩ := rfl

theorem ofWriter_apply (m : Writer α) (h : m.Appends) (c : Cursor) :
    ofWriter m h c =
      match m ⟨c, []⟩ with
      | .ok x a => .ok ⟨x, a.cursor, a.code⟩
      | .error e _ => .error e := by
  change (match (match m ⟨c, []⟩ with
    | .ok x a => EStateM.Result.ok x (⟨a, [], false⟩ : Draft)
    | .error e a => .error e ⟨a, [], false⟩) with
    | .ok x d => Except.ok (⟨x, d.cursor, d.code⟩ : Emitted α)
    | .error e _ => .error e) = _
  cases m ⟨c, []⟩ <;> rfl

theorem pop_apply (dst : Reg) (c : Cursor) :
    pop dst c = if 1 ≤ c.height then .ok ⟨(), ⟨c.height - 1, c.labels⟩, [.instr (.pop dst)]⟩
      else .error ⟨.stackUnderflow 1 c.height, 0⟩ := by
  rw [pop, ofWriter_apply, Writer.pop, Writer.shrink_bind_apply]
  by_cases h : 1 ≤ c.height
  · simp only [h, if_true]
    rfl
  · simp only [h, if_false]

end Apply

end Emit

end Stackwise
