import Stackwise.Proofs.Emission
import Mathlib.Tactic.Ring

/-! What emission counts.  Every construct leaves the height that its code leaves, and places every
label that it takes exactly once; a statement adds to the scope the variables it declares, each in
the slot at the height where it stands. -/
namespace Stackwise

open Emit

/-- One if the label is among the first `n` handed out, and else zero. -/
def Label.under (n : Nat) : Label → Nat
  | fresh i => if i < n then 1 else 0
  | _ => 0

/-- One if the label is the one handed out after `n` others, and else zero. -/
def Label.hits (n : Nat) (l : Label) : Nat := if fresh n = l then 1 else 0

namespace Label

@[simp] theorem under_succ (n : Nat) (l : Label) : l.under (n + 1) = l.under n + l.hits n := by
  cases l with
  | fresh i =>
    simp only [under, hits, fresh.injEq]
    split_ifs <;> omega
  | _ => simp [under, hits]

theorem under_le_one (n : Nat) (l : Label) : l.under n ≤ 1 := by
  cases l with
  | fresh i => simp only [under]; split <;> omega
  | _ => simp [under]

end Label

namespace Code

@[simp] theorem count_label_fresh (l : Label) (i : Nat) (code : Code) :
    List.count (.label l) (.label (.fresh i) :: code) = l.hits i + List.count (.label l) code := by
  simp [List.count_cons, Label.hits, Nat.add_comm]

@[simp] theorem count_label_dropping (l : Label) (n : Nat) :
    List.count (.label l) (dropping n) = 0 := by
  unfold dropping
  split <;> simp

@[simp] theorem count_label_map_instr (l : Label) (is : List Instr) :
    List.count (.label l) (is.map Line.instr) = 0 := by
  simp [List.count_eq_zero]

end Code

/-- From a cursor on, an action's code places the labels that it takes, each once, and no others. -/
def Emit.Places {α : Type} (c : Cursor) (r : Emitted α) : Prop :=
  ∀ l, r.code.count (.label l) + l.under c.labels = l.under r.cursor.labels

/-- An action that leaves the height as it was. -/
structure Emit.Steady {α : Type} (c : Cursor) (r : Emitted α) : Prop where
  height : r.cursor.height = c.height
  places : Places c r

/-- An action that pushes words takes no label and places none. -/
structure Emit.Pushes (c : Cursor) (words : Nat) (r : Emitted Unit) : Prop where
  cursor : r.cursor = ⟨c.height + words, c.labels⟩
  unlabelled : ∀ l, r.code.count (.label l) = 0

theorem Emit.Pushes.places {c : Cursor} {words : Nat} {r : Emitted Unit} (h : Pushes c words r) :
    Places c r := by
  intro l
  rw [h.unlabelled, h.cursor, Nat.zero_add]

theorem Emit.Pushes.steady {c : Cursor} {r : Emitted Unit} (h : Pushes c 0 r) : Steady c r :=
  ⟨by simp [h.cursor], h.places⟩

theorem Emit.call_pushes {table : Signatures} {name : String} {arity n : Nat} {args : Emit Unit}
    {c : Cursor} {r : Emitted Unit} (h : Emit.call table name arity n args c = .ok r)
    (ha : ∀ r₁, args c = .ok r₁ → Pushes c arity r₁) : Pushes c 0 r := by
  obtain ⟨-, r₁, h₁, -, rfl⟩ := call_eq_ok.1 h
  have hp := ha r₁ h₁
  refine ⟨by simp [hp.cursor], fun l => ?_⟩
  simp [hp.unlabelled]

section Expr

variable {table : Signatures} {scope : Scope}

mutual

theorem Expr.emit_pushes :
    (e : Expr) → ∀ {c : Cursor} {r : Emitted Unit}, e.emit table scope c = .ok r → Pushes c 1 r
  | .int v, c, r, h => by
    rw [Expr.emit_int_eq_ok] at h
    subst h
    exact ⟨rfl, by simp⟩
  | .ident name n, c, r, h => by
    obtain ⟨v, -, rfl⟩ := Expr.emit_ident_eq_ok.1 h
    exact ⟨rfl, by simp⟩
  | .paren inner, c, r, h => by
    rw [Expr.emit] at h
    exact Expr.emit_pushes inner h
  | .call name args n, c, r, h => by
    obtain ⟨r₁, h₁, rfl⟩ := Expr.emit_call_eq_ok.1 h
    have hp := call_pushes h₁ fun r₂ h₂ => Expr.emitEach_pushes args h₂
    exact ⟨by simp [hp.cursor], by simp [hp.unlabelled]⟩
  | .bin op lhs rhs, c, r, h => by
    obtain ⟨r₁, r₂, h₁, h₂, -, rfl⟩ := Expr.emit_bin_eq_ok.1 h
    have hr := Expr.emit_pushes rhs h₁
    have hl := Expr.emit_pushes lhs h₂
    exact ⟨by simp [hl.cursor, hr.cursor], by simp [hl.unlabelled, hr.unlabelled]⟩

theorem Expr.emitEach_pushes :
    (es : List Expr) → ∀ {c : Cursor} {r : Emitted Unit},
      Expr.emitEach table scope es c = .ok r → Pushes c es.length r
  | [], c, r, h => by
    rw [Expr.emitEach, pure_eq_ok] at h
    subst h
    exact ⟨rfl, by simp⟩
  | e :: es, c, r, h => by
    obtain ⟨r₁, r₂, h₁, h₂, rfl⟩ := Expr.emitEach_cons_eq_ok.1 h
    have he := Expr.emit_pushes e h₁
    have hs := Expr.emitEach_pushes es h₂
    refine ⟨?_, by simp [he.unlabelled, hs.unlabelled]⟩
    simp only [hs.cursor, he.cursor, List.length_cons, Cursor.mk.injEq, and_true]
    omega

end

end Expr

section Condition

variable {value : Expr → Emit Unit}

theorem Link.emit_pushes {k : Link} {target : Label} {truth : Bool} {c : Cursor} {r : Emitted Unit}
    (hv : ∀ e c r, value e c = .ok r → Pushes c 1 r) (h : k.emit value target truth c = .ok r) :
    Pushes c 0 r := by
  obtain ⟨r₁, h₁, h₂⟩ := Link.emit_eq_ok.1 h
  have hl := hv _ _ _ h₁
  cases hk : k.comparison with
  | none =>
    rw [hk] at h₂
    obtain ⟨-, rfl⟩ := h₂
    exact ⟨by simp [hl.cursor], by simp [hl.unlabelled]⟩
  | some p =>
    rw [hk] at h₂
    obtain ⟨r₂, h₂, -, rfl⟩ := h₂
    have hr := hv _ _ _ h₂
    exact ⟨by simp [hl.cursor, hr.cursor], by simp [hl.unlabelled, hr.unlabelled]⟩

theorem Exits.link_pushes {exits : Exits} {k : Link} {rest : Condition} {ifFalse : Label}
    {c : Cursor} {r : Emitted Unit} (hv : ∀ e c r, value e c = .ok r → Pushes c 1 r)
    (h : exits.link value k rest ifFalse c = .ok r) : Pushes c 0 r := by
  unfold Exits.link at h
  split at h <;> exact Link.emit_pushes hv h

@[simp] theorem Exits.start_target (target : Label) (truth : Bool) (c : Cursor) :
    (Exits.start target truth c).target = target := rfl

@[simp] theorem Exits.start_truth (target : Label) (truth : Bool) (c : Cursor) :
    (Exits.start target truth c).truth = truth := rfl

/-- One if the label is where a false link before `rest` goes and `rest` places it, and else
zero. -/
def Condition.claims (rest : Condition) (ifFalse l : Label) : Nat :=
  if Condition.hasOr rest ∧ ifFalse = l then 1 else 0

theorem Condition.claims_falseTo (exits : Exits) (rest : Condition) (n : Nat) (l : Label) :
    Condition.claims rest (exits.falseTo rest n) l + l.under n =
      l.under (n + (Condition.hasOr rest).toNat) := by
  unfold Condition.claims Exits.falseTo
  cases Condition.hasOr rest with
  | false => simp
  | true => simp [Label.hits, Nat.add_comm]

/-- The links after the first place the labels they take, and the one that they are given if one
of them is joined by `||`. -/
theorem Exits.links_places {exits : Exits} (hv : ∀ e c r, value e c = .ok r → Pushes c 1 r)
    (rest : Condition) : ∀ {ifFalse : Label} {c : Cursor} {r : Emitted Unit},
      exits.links value ifFalse rest c = .ok r →
      r.cursor.height = c.height ∧
        ∀ l, r.code.count (.label l) + l.under c.labels =
          Condition.claims rest ifFalse l + l.under r.cursor.labels := by
  induction rest with
  | nil =>
    intro ifFalse c r h
    rw [Exits.links, pure_eq_ok] at h
    subst h
    simp [Condition.claims, Condition.hasOr]
  | cons k rest ih =>
    intro ifFalse c r h
    cases hk : k.connector with
    | and =>
      obtain ⟨r₁, r₂, h₁, h₂, rfl⟩ := (Exits.links_and_eq_ok hk).1 h
      have hp := Exits.link_pushes hv h₁
      obtain ⟨hh, hc⟩ := ih h₂
      have ho : Condition.hasOr (k :: rest) = Condition.hasOr rest := by simp [Condition.hasOr, hk]
      rw [hp.cursor] at hh hc
      refine ⟨hh, fun l => ?_⟩
      simpa [hp.unlabelled, Condition.claims, ho] using hc l
    | or =>
      have hm (l : Label) :
          Condition.claims (k :: rest) ifFalse l = if ifFalse = l then 1 else 0 := by
        simp [Condition.claims, Condition.hasOr, hk]
      by_cases ht : exits.truth ∧ rest.isEmpty
      · obtain ⟨r₁, h₁, rfl⟩ := (Exits.links_or_last_eq_ok hk ht).1 h
        have hp := Exits.link_pushes hv h₁
        refine ⟨by simp [hp.cursor], fun l => ?_⟩
        simp [hm, hp.unlabelled, hp.cursor, List.count_cons]
      · obtain ⟨r₁, r₂, h₁, h₂, rfl⟩ := (Exits.links_or_eq_ok hk ht).1 h
        have hp := Exits.link_pushes hv h₁
        obtain ⟨hh, hc⟩ := ih h₂
        rw [hp.cursor] at hh hc
        refine ⟨hh, fun l => ?_⟩
        have hl := hc l
        have hf := Condition.claims_falseTo exits rest (c.labels + 1) l
        have hi : List.count (Line.label l) (.label ifFalse :: (r₁.code ++
            .label (.fresh c.labels) :: r₂.code)) =
              l.hits c.labels + r₂.code.count (.label l) + if ifFalse = l then 1 else 0 := by
          rw [List.count_cons, List.count_append, hp.unlabelled, Code.count_label_fresh]
          simp
        rw [List.count_cons_of_ne (by simp), hi, hm]
        simp only [Label.under_succ] at hl hf ⊢
        omega

theorem Condition.emit_steady {cond : Condition} {target : Label} {truth : Bool} {c : Cursor}
    {r : Emitted Unit} (hv : ∀ e c r, value e c = .ok r → Pushes c 1 r)
    (h : Condition.emit value cond target truth c = .ok r) : Steady c r := by
  cases cond with
  | nil => simp [Condition.emit] at h
  | cons first rest =>
    obtain ⟨r₁, r₂, h₁, h₂, rfl⟩ := Condition.emit_cons_eq_ok.1 h
    have hp := Exits.link_pushes hv h₁
    obtain ⟨hh, hc⟩ := Exits.links_places hv rest h₂
    rw [hp.cursor] at hh hc
    refine ⟨hh, fun l => ?_⟩
    have hl := hc l
    have hf := Condition.claims_falseTo (Exits.start target truth c) rest
      (c.labels + truth.toNat) l
    have hs : List.count (.label l) (if truth then [.label (.fresh c.labels)] else [] : Code) +
        l.under c.labels = l.under (c.labels + truth.toNat) := by
      cases truth <;> simp [Nat.add_comm]
    simp only [List.count_append, hp.unlabelled] at hl ⊢
    omega

end Condition

/-- Declarations take a scope at one height to a scope at another. -/
inductive Scope.Grown (scope : Scope) (height : Nat) : Scope → Nat → Prop where
  | refl : Grown scope height scope height
  | declare {scope' : Scope} {height' : Nat} (name : String) :
    Grown scope height scope' height' →
      Grown scope height (scope'.declare ⟨name, height'⟩) (height' + 1)

namespace Scope.Grown

variable {scope scope' scope'' : Scope} {height height' height'' : Nat}

theorem trans (h₁ : Grown scope height scope' height')
    (h₂ : Grown scope' height' scope'' height'') :
    Grown scope height scope'' height'' := by
  induction h₂ with
  | refl => exact h₁
  | declare name _ ih => exact .declare name ih

theorem split (h : Grown scope height scope' height') :
    ∃ news, scope'.own = news ++ scope.own ∧ scope'.outer = scope.outer ∧
      height' = height + news.length := by
  induction h with
  | refl => exact ⟨[], rfl, rfl, rfl⟩
  | @declare _ height' name _ ih =>
    obtain ⟨news, ho, hu, hh⟩ := ih
    exact ⟨⟨name, height'⟩ :: news, by simp [Scope.declare, ho], hu, by simp [hh, Nat.add_assoc]⟩

theorem height_le (h : Grown scope height scope' height') : height ≤ height' := by
  obtain ⟨news, -, -, hh⟩ := h.split
  omega

theorem visible_suffix (h : Grown scope height scope' height') :
    scope.visible.map Var.name <:+ scope'.visible.map Var.name := by
  obtain ⟨news, ho, hu, -⟩ := h.split
  rw [Scope.visible, Scope.visible, ho, hu, List.append_assoc]
  exact (List.suffix_append _ _).map _

/-- A scope that grew from a nested one stands as high as its own variables require. -/
theorem own_length (h : Grown scope.nested height scope' height') :
    height' = height + scope'.own.length := by
  obtain ⟨news, ho, -, hh⟩ := h.split
  rw [hh, ho]
  simp [Scope.nested]

theorem visible (h : Grown scope.nested height scope' height') :
    scope'.visible = scope'.own ++ scope.visible := by
  obtain ⟨news, -, hu, -⟩ := h.split
  rw [Scope.visible, hu]
  rfl

end Scope.Grown

/-- A scope of its own is left at the height at which it was entered. -/
theorem Emit.inScope_steady {scope : Scope} {body : Scope → Emit Scope} {c : Cursor}
    {r : Emitted Unit} (h : inScope scope body c = .ok r)
    (hb : ∀ r₁, body scope.nested c = .ok r₁ → Places c r₁) : Steady c r := by
  obtain ⟨r₁, h₁, -, rfl⟩ := inScope_eq_ok.1 h
  refine ⟨rfl, fun l => ?_⟩
  simpa using hb r₁ h₁ l

/-- The loop around a statement is no higher on the stack than the statement. -/
def Context.Below (ctx : Context) (height : Nat) : Prop :=
  ∀ loop, ctx.loop = some loop → loop.height ≤ height

theorem Context.Below.mono {ctx : Context} {height height' : Nat} (h : ctx.Below height)
    (hh : height ≤ height') : ctx.Below height' :=
  fun loop hl => (h loop hl).trans hh

theorem Context.below_loop (ctx : Context) (height : Nat) (done next : Label) :
    Context.Below { ctx with loop := some ⟨height, done, next⟩ } height := by
  rintro _ ⟨⟩
  exact le_rfl

def Scope.paramSlots (top : Int) : Nat → List Int
  | 0 => []
  | n + 1 => top :: paramSlots (top - 1) n

/-- The slots of what is visible at a height, in a frame with so many parameters. -/
def Scope.slots (arity : Nat) : Nat → List Int
  | 0 => paramSlots (-2) arity
  | height + 1 => height :: slots arity height

/-- The visible variables have the slots that belong to them at a height. -/
def Scope.Laid (arity : Nat) (scope : Scope) (height : Nat) : Prop :=
  scope.visible.map Var.slot = slots arity height

namespace Scope

variable {arity height : Nat} {scope : Scope}

@[simp] theorem length_paramSlots (top : Int) (n : Nat) : (paramSlots top n).length = n := by
  induction n generalizing top with
  | zero => rfl
  | succ n ih => simp [paramSlots, ih]

@[simp] theorem length_slots (arity height : Nat) :
    (slots arity height).length = height + arity := by
  induction height with
  | zero => simp [slots]
  | succ height ih => simp [slots, ih]; omega

theorem Laid.length_visible (h : Laid arity scope height) :
    scope.visible.length = height + arity := by
  rw [← length_slots, ← h, List.length_map]

theorem Laid.nested (h : Laid arity scope height) : Laid arity scope.nested height := h

/-- Variables are declared where they belong. -/
theorem Grown.laid {scope' : Scope} {height' : Nat} (hg : Grown scope height scope' height')
    (h : Laid arity scope height) : Laid arity scope' height' := by
  induction hg with
  | refl => exact h
  | declare name _ ih => exact congrArg (List.cons _) ih

theorem laid_empty : Laid 0 .empty 0 := rfl

theorem getElem_paramSlots (top : Int) (n i : Nat) (h : i < (paramSlots top n).length) :
    (paramSlots top n)[i] = top - i := by
  induction n generalizing top i with
  | zero => simp at h
  | succ n ih =>
    cases i with
    | zero => simp [paramSlots]
    | succ i =>
      simp only [paramSlots, List.getElem_cons_succ, ih]
      push_cast
      ring

theorem laid_ofParams (params : List String) : Laid params.length (.ofParams params) 0 := by
  refine List.ext_getElem (by simp [visible, ofParams]) fun i h₁ h₂ => ?_
  simp only [length_slots, Nat.zero_add] at h₂
  simp only [slots, getElem_paramSlots, visible, ofParams, List.nil_append, List.getElem_map,
    List.getElem_reverse, List.getElem_zipIdx, List.length_map, List.length_zipIdx]
  omega

end Scope

theorem Emit.pushWords_pushes (ws : List UInt64) : ∀ {c : Cursor} {r : Emitted Unit},
    pushWords ws c = .ok r → Pushes c ws.length r := by
  induction ws with
  | nil =>
    intro c r h
    rw [pushWords, pure_eq_ok] at h
    subst h
    exact ⟨rfl, by simp⟩
  | cons w ws ih =>
    intro c r h
    simp only [pushWords, bind_eq_ok, load_eq_ok] at h
    obtain ⟨r₁, _, h₁, rfl, rfl⟩ := h
    have hp := ih h₁
    exact ⟨by simp [hp.cursor, Nat.add_assoc], by simp [hp.unlabelled]⟩

theorem Emit.writeText_pushes {text : String} {c : Cursor} {r : Emitted Unit}
    (h : writeText text c = .ok r) : Pushes c 0 r := by
  unfold writeText at h
  dsimp only at h
  split at h
  · rw [pure_eq_ok] at h
    subst h
    exact ⟨rfl, by simp⟩
  · simp only [bind_eq_ok, instrs_eq_ok, drop_eq_ok] at h
    obtain ⟨r₁, _, h₁, ⟨_, _, rfl, ⟨-, rfl⟩, rfl⟩, rfl⟩ := h
    have hp := pushWords_pushes _ h₁
    exact ⟨by simp [hp.cursor], by simp [hp.unlabelled]⟩

theorem PrintItem.emit_pushes {table : Signatures} {scope : Scope} (s : PrintItem) {c : Cursor}
    {r : Emitted Unit} (h : s.emit table scope c = .ok r) : Pushes c 0 r := by
  cases s with
  | str text => exact writeText_pushes h
  | expr e =>
    obtain ⟨r₁, h₁, -, rfl⟩ := PrintItem.emit_expr_eq_ok.1 h
    have hp := Expr.emit_pushes e h₁
    exact ⟨by simp [hp.cursor], by simp [hp.unlabelled]⟩

theorem PrintItem.emitEach_pushes {table : Signatures} {scope : Scope} (items : List PrintItem) :
    ∀ {c : Cursor} {r : Emitted Unit},
      PrintItem.emitEach table scope items c = .ok r → Pushes c 0 r := by
  induction items with
  | nil =>
    intro c r h
    rw [PrintItem.emitEach, pure_eq_ok] at h
    subst h
    exact ⟨rfl, by simp⟩
  | cons s items ih =>
    intro c r h
    simp only [PrintItem.emitEach, bind_eq_ok] at h
    obtain ⟨r₁, r₂, h₁, h₂, rfl⟩ := h
    have hs := PrintItem.emit_pushes s h₁
    have hi := ih h₂
    exact ⟨by simp [hi.cursor, hs.cursor], by simp [hi.unlabelled, hs.unlabelled]⟩

section Stmt

variable {ctx : Context} {scope : Scope} {c : Cursor}

theorem Condition.emit_expr_steady {table : Signatures} {cond : Condition} {target : Label}
    {truth : Bool} {r : Emitted Unit}
    (h : Condition.emit (Expr.emit table scope) cond target truth c = .ok r) : Steady c r :=
  Condition.emit_steady (fun e _ _ => Expr.emit_pushes e) h

mutual

/-- A statement adds its variables to the scope and to the height alike. -/
theorem Stmt.emit_grows : (s : Stmt) → ∀ {ctx : Context} {scope : Scope} {c : Cursor}
    {r : Emitted Scope}, s.emit ctx scope c = .ok r →
      Scope.Grown scope c.height r.value r.cursor.height ∧ Places c r
  | .exit none, ctx, scope, c, r, h => by
    rw [Stmt.emit_exit_none_eq_ok] at h
    subst h
    exact ⟨.refl, fun l => by simp⟩
  | .exit (some value), ctx, scope, c, r, h => by
    obtain ⟨r₁, h₁, -, rfl⟩ := Stmt.emit_exit_some_eq_ok.1 h
    have hp := Expr.emit_pushes value h₁
    refine ⟨?_, fun l => ?_⟩
    · simpa [hp.cursor] using Scope.Grown.refl
    · simp [hp.cursor, hp.unlabelled]
  | .letVar name value n, ctx, scope, c, r, h => by
    obtain ⟨-, r₁, h₁, rfl⟩ := Stmt.emit_letVar_eq_ok.1 h
    have hp := Expr.emit_pushes value h₁
    refine ⟨?_, hp.places⟩
    simpa [hp.cursor] using Scope.Grown.declare name .refl
  | .assign name value n, ctx, scope, c, r, h => by
    obtain ⟨v, r₁, -, h₁, -, rfl⟩ := Stmt.emit_assign_eq_ok.1 h
    have hp := Expr.emit_pushes value h₁
    refine ⟨?_, fun l => ?_⟩
    · simpa [hp.cursor] using Scope.Grown.refl
    · simp [hp.cursor, hp.unlabelled]
  | .block body, ctx, scope, c, r, h => by
    obtain ⟨r₁, h₁, rfl⟩ := Stmt.emit_block_eq_ok.1 h
    have hb := Emit.inScope_steady h₁ fun r₂ h₂ => (Stmt.emitEach_grows body h₂).2
    exact ⟨by rw [hb.height]; exact .refl, hb.places⟩
  | .print items, ctx, scope, c, r, h => by
    obtain ⟨r₁, h₁, rfl⟩ := Stmt.emit_print_eq_ok.1 h
    have hp := (PrintItem.emitEach_pushes items h₁).steady
    exact ⟨by rw [hp.height]; exact .refl, hp.places⟩
  | .ifElse cond body other, ctx, scope, c, r, h => by
    obtain ⟨r₁, r₂, h₁, h₂, h₃⟩ := Stmt.emit_ifElse_eq_ok.1 h
    have hc := Condition.emit_expr_steady h₁
    have hb := Emit.inScope_steady h₂ fun r₃ h₃ => (Stmt.emit_grows body h₃).2
    split at h₃
    · subst h₃
      refine ⟨by rw [hb.height, hc.height]; exact .refl, fun l => ?_⟩
      have e₁ := hc.places l
      have e₂ := hb.places l
      simp at e₁ e₂ ⊢
      omega
    · obtain ⟨r₃, h₃, rfl⟩ := h₃
      have ho := ElseBranch.emit_steady other h₃
      refine ⟨by rw [ho.height, hb.height, hc.height]; exact .refl, fun l => ?_⟩
      have e₁ := hc.places l
      have e₂ := hb.places l
      have e₃ := ho.places l
      simp at e₁ e₂ e₃ ⊢
      omega
  | .whileLoop cond body, ctx, scope, c, r, h => by
    obtain ⟨r₁, r₂, r₃, h₁, h₂, h₃, rfl⟩ := Stmt.emit_whileLoop_eq_ok.1 h
    have hc := Condition.emit_expr_steady h₁
    have hb := Emit.inScope_steady h₂ fun r₄ h₄ => (Stmt.emit_grows body h₄).2
    have hd := Condition.emit_expr_steady h₃
    refine ⟨by rw [hd.height, hb.height, hc.height]; exact .refl, fun l => ?_⟩
    have e₁ := hc.places l
    have e₂ := hb.places l
    have e₃ := hd.places l
    simp at e₁ e₂ e₃ ⊢
    omega
  | .forLoop init cond step body, ctx, scope, c, r, h => by
    obtain ⟨r₀, r₁, r₂, r₃, r₄, h₀, h₁, h₂, h₃, h₄, -, rfl⟩ := Stmt.emit_forLoop_ok h
    have hi := (Stmt.emit_grows init h₀).2
    have hc := Condition.emit_expr_steady h₁
    have hb := Emit.inScope_steady h₂ fun r₅ h₅ => (Stmt.emit_grows body h₅).2
    have hs := Emit.inScope_steady h₃ fun r₅ h₅ => (Stmt.emit_grows step h₅).2
    have hd := Condition.emit_expr_steady h₄
    refine ⟨.refl, fun l => ?_⟩
    have e₀ := hi l
    have e₁ := hc.places l
    have e₂ := hb.places l
    have e₃ := hs.places l
    have e₄ := hd.places l
    simp at e₀ e₁ e₂ e₃ e₄ ⊢
    omega
  | .function name params body n, ctx, scope, c, r, h => by
    obtain ⟨-, rfl⟩ := Stmt.emit_function_eq_ok.1 h
    exact ⟨.refl, fun l => by simp⟩
  | .ret none inFunction n, ctx, scope, c, r, h => by
    obtain ⟨-, rfl⟩ := Stmt.emit_ret_none_eq_ok.1 h
    exact ⟨.refl, fun l => by simp⟩
  | .ret (some value) inFunction n, ctx, scope, c, r, h => by
    obtain ⟨-, r₁, h₁, -, rfl⟩ := Stmt.emit_ret_some_eq_ok.1 h
    have hp := Expr.emit_pushes value h₁
    refine ⟨?_, fun l => ?_⟩
    · simpa [hp.cursor] using Scope.Grown.refl
    · simp [hp.cursor, hp.unlabelled]
  | .call name args n, ctx, scope, c, r, h => by
    obtain ⟨r₁, h₁, rfl⟩ := Stmt.emit_call_eq_ok.1 h
    have hp := (call_pushes h₁ fun r₂ h₂ => Expr.emitEach_pushes args h₂).steady
    exact ⟨by rw [hp.height]; exact .refl, hp.places⟩
  | .breakLoop n, ctx, scope, c, r, h => by
    obtain ⟨loop, -, -, rfl⟩ := Stmt.emit_breakLoop_eq_ok.1 h
    exact ⟨.refl, fun l => by simp⟩
  | .continueLoop n, ctx, scope, c, r, h => by
    obtain ⟨loop, -, -, rfl⟩ := Stmt.emit_continueLoop_eq_ok.1 h
    exact ⟨.refl, fun l => by simp⟩

theorem Stmt.emitEach_grows : (ss : List Stmt) → ∀ {ctx : Context} {scope : Scope} {c : Cursor}
    {r : Emitted Scope}, Stmt.emitEach ss ctx scope c = .ok r →
      Scope.Grown scope c.height r.value r.cursor.height ∧ Places c r
  | [], ctx, scope, c, r, h => by
    rw [Stmt.emitEach_nil_eq_ok] at h
    subst h
    exact ⟨.refl, fun l => by simp⟩
  | s :: ss, ctx, scope, c, r, h => by
    obtain ⟨r₁, r₂, h₁, h₂, rfl⟩ := Stmt.emitEach_cons_eq_ok.1 h
    obtain ⟨hg₁, hp₁⟩ := Stmt.emit_grows s h₁
    obtain ⟨hg₂, hp₂⟩ := Stmt.emitEach_grows ss h₂
    refine ⟨hg₁.trans hg₂, fun l => ?_⟩
    have e₁ := hp₁ l
    have e₂ := hp₂ l
    simp only [List.count_append]
    omega

theorem ElseBranch.emit_steady : (other : ElseBranch) → ∀ {ctx : Context} {scope : Scope}
    {done : Label} {c : Cursor} {r : Emitted Unit}, other.emit ctx scope done c = .ok r →
      Steady c r
  | .absent, ctx, scope, done, c, r, h => by
    rw [ElseBranch.emit, pure_eq_ok] at h
    subst h
    exact ⟨rfl, fun l => by simp⟩
  | .elseIf cond body next, ctx, scope, done, c, r, h => by
    obtain ⟨r₁, r₂, h₁, h₂, h₃⟩ := ElseBranch.emit_elseIf_eq_ok.1 h
    have hc := Condition.emit_expr_steady h₁
    have hb := Emit.inScope_steady h₂ fun r₃ h₃ => (Stmt.emit_grows body h₃).2
    split at h₃
    · subst h₃
      refine ⟨by rw [hb.height, hc.height], fun l => ?_⟩
      have e₁ := hc.places l
      have e₂ := hb.places l
      simp at e₁ e₂ ⊢
      omega
    · obtain ⟨r₃, h₃, rfl⟩ := h₃
      have ho := ElseBranch.emit_steady next h₃
      refine ⟨by rw [ho.height, hb.height, hc.height], fun l => ?_⟩
      have e₁ := hc.places l
      have e₂ := hb.places l
      have e₃ := ho.places l
      simp at e₁ e₂ e₃ ⊢
      omega
  | .otherwise body, ctx, scope, done, c, r, h => by
    rw [ElseBranch.emit] at h
    exact Emit.inScope_steady h fun r₁ h₁ => (Stmt.emit_grows body h₁).2

end

end Stmt

end Stackwise
