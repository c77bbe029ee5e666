import Stackwise.Proofs.Execution

/-! Frames: how the bindings of a program or of a call lie on the stack.  The locals lie on top,
the newest first; below them lies the way back, if there is one, then the parameters, then what
was there before the call. -/
namespace Stackwise

open Machine

namespace Env

variable {env : Env}

@[simp] theorem map_fst_set (name : String) (v : Int64) (env : Env) :
    (env.set name v).map Prod.fst = env.map Prod.fst := by
  induction env with
  | nil => rfl
  | cons b env ih =>
    rw [set]
    split
    next h => simp [beq_iff_eq.1 h]
    next => simp [ih]

theorem oldest_oldest {m n : Nat} (h : m ≤ n) : (env.oldest n).oldest m = env.oldest m := by
  unfold oldest
  rw [List.drop_drop, List.length_drop]
  congr 1
  omega

def words (env : Env) : List Slot := env.map fun b => .word b.2

@[simp] theorem length_words (env : Env) : env.words.length = env.length := by simp [words]

end Env

/-- A frame: the number of its parameters, the place in the code to go back to unless it is that of
the program itself, and the words below it.  Only functions have parameters. -/
structure Frame where
  arity : Nat
  link : Option Nat
  base : List Slot
  arity_of_link : link = none → arity = 0

namespace Frame

def main : Frame := ⟨0, none, [], fun _ => rfl⟩

def ofCall (arity pc : Nat) (base : List Slot) : Frame := ⟨arity, some pc, base, by simp⟩

def stack (f : Frame) (height : Nat) (env : Env) : List Slot :=
  Env.words (env.take height) ++ ((f.link.map Slot.link).toList ++
    (Env.words (env.drop height) ++ f.base))

variable {f : Frame} {height : Nat} {env : Env}

@[simp] theorem stack_succ (f : Frame) (height : Nat) (b : String × Int64) (env : Env) :
    f.stack (height + 1) (b :: env) = .word b.2 :: f.stack height env := rfl

theorem stack_zero (f : Frame) (env : Env) :
    f.stack 0 env = (f.link.map Slot.link).toList ++ (Env.words env ++ f.base) := by
  simp [stack, Env.words]

/-- Locals lie on top of the older ones. -/
theorem stack_add (f : Frame) (n height : Nat) (env : Env) :
    f.stack (n + height) env = Env.words (env.take n) ++ f.stack height (env.drop n) := by
  simp [stack, Env.words, List.take_add, List.drop_drop]

/-- The bindings are those of the scope, which has them where they belong. -/
structure Fits (f : Frame) (scope : Scope) (height : Nat) (env : Env) : Prop where
  names : scope.visible.map Var.name = env.map Prod.fst
  laid : scope.Laid f.arity height

theorem Fits.length {scope : Scope} (h : f.Fits scope height env) :
    env.length = height + f.arity := by
  rw [← h.laid.length_visible, ← List.length_map (f := Prod.fst), ← h.names, List.length_map]

theorem Fits.nested {scope : Scope} (h : f.Fits scope height env) :
    f.Fits scope.nested height env :=
  ⟨h.names, h.laid⟩

theorem Fits.set {scope : Scope} (h : f.Fits scope height env) (name : String) (v : Int64) :
    f.Fits scope height (env.set name v) :=
  ⟨by rw [Env.map_fst_set, h.names], h.laid⟩

theorem Fits.declare {scope : Scope} (h : f.Fits scope height env) (name : String) (v : Int64) :
    f.Fits (scope.declare ⟨name, height⟩) (height + 1) ((name, v) :: env) :=
  ⟨congrArg (List.cons name) h.names, congrArg (List.cons _) h.laid⟩

/-- A binding of parameters lies as far below the newest one as its slot. -/
theorem lookup_params {name : String} {v : Var} (base : List Slot) (n : Nat) :
    ∀ {top : Int} {vars : List Var} {env : Env}, vars.map Var.name = env.map Prod.fst →
      vars.map Var.slot = Scope.paramSlots top n →
      vars.find? (fun v => v.name == name) = some v →
      ∃ x xs ys, env.get? name = some x ∧ env.words ++ base = xs ++ .word x :: ys ∧
        (xs.length : Int) = top - v.slot ∧
        ∀ y, (env.set name y).words ++ base = xs ++ .word y :: ys := by
  induction n with
  | zero =>
    intro top vars env hn hs hv
    obtain rfl : vars = [] := List.map_eq_nil_iff.1 hs
    simp at hv
  | succ n ih =>
    intro top vars env hn hs hv
    cases vars with
    | nil => simp at hv
    | cons u vars =>
      cases env with
      | nil => simp at hn
      | cons b env =>
        simp only [List.map_cons, List.cons.injEq, Scope.paramSlots] at hn hs
        by_cases hu : u.name == name
        · have hb : (b.1 == name) = true := hn.1 ▸ hu
          obtain rfl : u = v := by simpa [hu] using hv
          refine ⟨b.2, [], Env.words env ++ base, by simp [Env.get?, hb], rfl, by simp [hs.1],
            fun y => ?_⟩
          simp [Env.set, hb, Env.words]
        · have hb : ¬ (b.1 == name) = true := hn.1 ▸ hu
          obtain ⟨x, xs, ys, hx, hst, hl, hset⟩ := ih hn.2 hs.2 (by simpa [hu] using hv)
          refine ⟨x, .word b.2 :: xs, ys, ?_, ?_, ?_, fun y => ?_⟩
          · simpa [Env.get?, hb] using hx
          · simpa [Env.words] using hst
          · simp only [List.length_cons]
            push_cast
            omega
          · simpa [Env.set, hb, Env.words] using hset y

/-- A variable is bound, and its binding lies as far below the top as its slot is below the
height. -/
theorem lookup {name : String} {v : Var} (height : Nat) :
    ∀ {vars : List Var} {env : Env}, vars.map Var.name = env.map Prod.fst →
      vars.map Var.slot = Scope.slots f.arity height →
      vars.find? (fun v => v.name == name) = some v →
      ∃ x xs ys, env.get? name = some x ∧ f.stack height env = xs ++ .word x :: ys ∧
        (xs.length : Int) = height - v.slot - 1 ∧
        ∀ y, f.stack height (env.set name y) = xs ++ .word y :: ys := by
  induction height with
  | zero =>
    intro vars env hn hs hv
    obtain ⟨x, xs, ys, hx, hst, hl, hset⟩ := lookup_params f.base f.arity hn hs hv
    cases hk : f.link with
    | none =>
      rw [f.arity_of_link hk] at hs
      obtain rfl : vars = [] := List.map_eq_nil_iff.1 hs
      simp at hv
    | some pc =>
      refine ⟨x, .link pc :: xs, ys, hx, ?_, ?_, fun y => ?_⟩
      · simp [stack_zero, hk, hst]
      · simp only [List.length_cons]
        push_cast
        omega
      · simp [stack_zero, hk, hset y]
  | succ height ih =>
    intro vars env hn hs hv
    cases vars with
    | nil => simp at hv
    | cons u vars =>
      cases env with
      | nil => simp at hn
      | cons b env =>
        simp only [List.map_cons, List.cons.injEq, Scope.slots] at hn hs
        by_cases hu : u.name == name
        · have hb : (b.1 == name) = true := hn.1 ▸ hu
          obtain rfl : u = v := by simpa [hu] using hv
          refine ⟨b.2, [], f.stack height env, by simp [Env.get?, hb], rfl, ?_, fun y => ?_⟩
          · simp [hs.1]
          · simp [Env.set, hb]
        · have hb : ¬ (b.1 == name) = true := hn.1 ▸ hu
          obtain ⟨x, xs, ys, hx, hst, hl, hset⟩ := ih hn.2 hs.2 (by simpa [hu] using hv)
          refine ⟨x, .word b.2 :: xs, ys, ?_, by simp [hst], ?_, fun y => ?_⟩
          · simpa [Env.get?, hb] using hx
          · simp only [List.length_cons]
            push_cast
            omega
          · simpa [Env.set, hb] using hset y

end Frame

end Stackwise
