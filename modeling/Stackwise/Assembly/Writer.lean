import Stackwise.Assembly.Basic
import Stackwise.Error

/-! Writing assembly.  A writer has the lines so far and keeps count of two things: the words that
its code has on the operand stack, and the labels handed out.  Each operation changes these one
after the other, and what it did before it fails stays done. -/
namespace Stackwise

/-- The height of the operand stack in words, and the number of labels handed out. -/
structure Cursor where
  height : Nat
  labels : Nat
deriving DecidableEq, Repr

def Cursor.start : Cursor := ⟨0, 0⟩

/-- Assembly in the making: where the counts stand, and the lines so far. -/
structure Assembly where
  cursor : Cursor
  code : Code
deriving DecidableEq, Repr

def Assembly.empty : Assembly := ⟨.start, []⟩

abbrev Writer := EStateM Error Assembly

namespace Writer

def line (l : Line) : Writer Unit := modify fun a => { a with code := a.code ++ [l] }

def directive (text : String) : Writer Unit := line (.directive text)

def verbatim (text : String) : Writer Unit := line (.verbatim text)

def label (l : Label) : Writer Unit := line (.label l)

def instr (i : Instr) : Writer Unit := line (.instr i)

def jump (j : Jump) (target : Label) : Writer Unit := instr (.jump j target)

def height : Writer Nat := return (← get).cursor.height

def setHeight (words : Nat) : Writer Unit :=
  modify fun a => { a with cursor := { a.cursor with height := words } }

def freshLabel : Writer Label := do
  let labels := (← get).cursor.labels
  modify fun a => { a with cursor := { a.cursor with labels := labels + 1 } }
  return .fresh labels

/-- Counts words off the stack, which must hold them. -/
def shrink (words : Nat) : Writer Unit := do
  let height ← height
  if words ≤ height then setHeight (height - words)
  else throw ⟨.stackUnderflow words height, 0⟩

def push (src : Operand) : Writer Unit := do
  instr (.push src)
  setHeight ((← height) + 1)

def pop (dst : Reg) : Writer Unit := do
  shrink 1
  instr (.pop dst)

/-- Writes code that drops words, on a path that leaves the code around it; the count stays. -/
def unwind (words : Nat) : Writer Unit :=
  if words = 0 then pure () else instr (.alu .add (.reg .rsp) (.int (8 * words)))

def release (words : Nat) : Writer Unit := do
  shrink words
  unwind words

def beginFrame : Writer Nat := do
  let outside ← height
  setHeight 0
  return outside

def endFrame (outside : Nat) : Writer Unit := setHeight outside

theorem shrink_apply (words : Nat) (a : Assembly) :
    shrink words a =
      if words ≤ a.cursor.height then
        .ok () ⟨⟨a.cursor.height - words, a.cursor.labels⟩, a.code⟩
      else .error ⟨.stackUnderflow words a.cursor.height, 0⟩ a := by
  change (if words ≤ a.cursor.height then setHeight (a.cursor.height - words)
    else throw ⟨.stackUnderflow words a.cursor.height, 0⟩ : Writer Unit) a = _
  split <;> rfl

/-- Nothing is written before the height is seen to be enough. -/
theorem shrink_bind_apply {α : Type} (words : Nat) (m : Writer α) (a : Assembly) :
    (shrink words >>= fun _ => m) a =
      if words ≤ a.cursor.height then m ⟨⟨a.cursor.height - words, a.cursor.labels⟩, a.code⟩
      else .error ⟨.stackUnderflow words a.cursor.height, 0⟩ a := by
  change EStateM.bind (shrink words) (fun _ => m) a = _
  rw [EStateM.bind, shrink_apply]
  by_cases h : words ≤ a.cursor.height
  · simp only [h, if_true]
  · simp only [h, if_false]

end Writer

/-- The result of an operation, its lines after those that were there. -/
def Assembly.onto {α : Type} (a : Assembly) :
    EStateM.Result Error Assembly α → EStateM.Result Error Assembly α
  | .ok x b => .ok x ⟨b.cursor, a.code ++ b.code⟩
  | .error e b => .error e ⟨b.cursor, a.code ++ b.code⟩

namespace Writer

/-- What an operation does hangs on the counts alone, and it adds to the lines. -/
def Appends {α : Type} (m : Writer α) : Prop := ∀ a, m a = a.onto (m ⟨a.cursor, []⟩)

namespace Appends

variable {α β : Type}

theorem pure (x : α) : Appends (pure x : Writer α) := by
  intro a
  simp [Pure.pure, EStateM.pure, Assembly.onto]

theorem bind {m : Writer α} {f : α → Writer β} (hm : Appends m) (hf : ∀ x, Appends (f x)) :
    Appends (m >>= f) := by
  intro a
  change EStateM.bind m f a = a.onto (EStateM.bind m f ⟨a.cursor, []⟩)
  unfold EStateM.bind
  rw [hm a]
  cases m ⟨a.cursor, []⟩ with
  | error e b => rfl
  | ok x b =>
    simp only [Assembly.onto]
    rw [hf x ⟨b.cursor, a.code ++ b.code⟩, hf x b]
    cases f x ⟨b.cursor, []⟩ <;> simp [Assembly.onto]

theorem line (l : Line) : (line l).Appends := fun _ => rfl

theorem height : Writer.height.Appends := by
  intro a
  change EStateM.Result.ok a.cursor.height a = .ok a.cursor.height ⟨a.cursor, a.code ++ []⟩
  rw [List.append_nil]

theorem setHeight (words : Nat) : (setHeight words).Appends := by
  intro a
  change EStateM.Result.ok () (⟨⟨words, a.cursor.labels⟩, a.code⟩ : Assembly) =
    .ok () ⟨⟨words, a.cursor.labels⟩, a.code ++ []⟩
  rw [List.append_nil]

theorem freshLabel : Writer.freshLabel.Appends := by
  intro a
  change EStateM.Result.ok (Label.fresh a.cursor.labels)
      (⟨⟨a.cursor.height, a.cursor.labels + 1⟩, a.code⟩ : Assembly) =
    .ok (.fresh a.cursor.labels) ⟨⟨a.cursor.height, a.cursor.labels + 1⟩, a.code ++ []⟩
  rw [List.append_nil]

theorem throw (e : Error) : Appends (throw e : Writer α) := by
  intro a
  change EStateM.Result.error e a = .error e ⟨a.cursor, a.code ++ []⟩
  rw [List.append_nil]

theorem shrink (words : Nat) : (shrink words).Appends := by
  refine .bind .height fun height => ?_
  by_cases h : words ≤ height
  · simpa [h] using .setHeight _
  · simpa [h] using .throw _

theorem push (src : Operand) : (push src).Appends :=
  .bind (.line _) fun _ => .bind .height fun _ => .setHeight _

theorem pop (dst : Reg) : (pop dst).Appends := .bind (.shrink 1) fun _ => .line _

theorem unwind (words : Nat) : (unwind words).Appends := by
  by_cases h : words = 0
  · simpa [Writer.unwind, h] using .pure ()
  · simpa [Writer.unwind, h] using .line _

theorem release (words : Nat) : (release words).Appends :=
  .bind (.shrink words) fun _ => .unwind words

theorem beginFrame : Writer.beginFrame.Appends :=
  .bind .height fun _ => .bind (.setHeight 0) fun _ => .pure _

end Appends

end Writer

end Stackwise
