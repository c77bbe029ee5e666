import Stackwise.Proofs.Placement

/-! Code can be read off with a depth of the stack at every line.  The depths agree along the
ways that control can take, whatever is computed; here this is shown for each construct. -/
namespace Stackwise

open Emit

/-- By how many words an instruction changes the depth; a call is counted with the return from it.
None where the instruction does something else to `rsp`. -/
def Instr.effect? : Instr → Option Int
  | .push _ => some 1
  | .pop dst => if dst = .rsp then none else some (-1)
  | .alu .add (.reg .rsp) (.int n) => if 8 ∣ n then some (-(n / 8)) else none
  | .mov (.reg .rsp) _ | .lea .rsp _ | .alu _ (.reg .rsp) _ | .unary _ .rsp | .text _ => none
  | _ => some 0

def Instr.operands : Instr → List Operand
  | .push src | .lea _ src => [src]
  | .mov dst src | .alu _ dst src => [dst, src]
  | _ => []

namespace Line

def effect? : Line → Option Int
  | .instr i => i.effect?
  | .verbatim _ => none
  | _ => some 0

def operands : Line → List Operand
  | .instr i => i.operands
  | _ => []

def stops : Line → Bool
  | .instr (.jump .always _) | .instr .ret => true
  | _ => false

/-- A line may stand at a depth in a frame with so many parameters.  It takes off no more words
than there are, returns with none left, and reaches words of the frame and parameters, but not the
return address between them. -/
structure Allowed (arity depth : Nat) (l : Line) : Prop where
  effect : ∃ e, l.effect? = some e ∧ 0 ≤ depth + e
  ret : l = .instr .ret → depth = 0
  slot : ∀ n : Int, .slot n ∈ l.operands → 8 ∣ n ∧
    (0 ≤ n / 8 ∧ n / 8 < depth ∨ depth < n / 8 ∧ n / 8 ≤ depth + arity)

/-- The line computes, without regard to the stack. -/
def quiet : Line → Bool
  | .instr (.jump ..) | .instr .ret => false
  | l => l.effect? = some 0 ∧ l.operands.all fun o => match o with
    | .slot _ => false
    | _ => true

theorem quiet.allowed {l : Line} (h : l.quiet) (arity depth : Nat) :
    l.effect? = some 0 ∧ l.Allowed arity depth := by
  unfold quiet at h
  split at h
  · simp at h
  · simp at h
  · simp only [Bool.decide_and, Bool.and_eq_true, decide_eq_true_eq, List.all_eq_true] at h
    obtain ⟨he, ho⟩ := h
    refine ⟨he, ⟨0, he, by omega⟩, ?_, fun n hn => ?_⟩
    · rintro rfl
      contradiction
    · simpa using ho _ hn

end Line

/-- Lines with their depths.  The depth of a line is what the line before it leaves, unless
control does not come from there. -/
inductive Flows : Nat → List (Line × Nat) → Nat → Prop where
  | nil {d : Nat} : Flows d [] d
  | pass {l : Line} {e : Int} {d d₁ d₂ : Nat} {lines : List (Line × Nat)} :
    l.effect? = some e → (d₁ : Int) = d + e → Flows d₁ lines d₂ → Flows d ((l, d) :: lines) d₂
  | stop {l : Line} {d d₁ d₂ : Nat} {lines : List (Line × Nat)} :
    l.stops → Flows d₁ lines d₂ → Flows d ((l, d) :: lines) d₂

theorem Flows.append {d d₁ d₂ : Nat} {lines lines' : List (Line × Nat)} (h : Flows d lines d₁)
    (h' : Flows d₁ lines' d₂) : Flows d (lines ++ lines') d₂ := by
  induction h with
  | nil => exact h'
  | pass he hd _ ih => exact .pass he hd (ih h')
  | stop hs _ ih => exact .stop hs (ih h')

/-- Code that takes the stack from one depth to another.  Its jumps go to labels in it, or to the
`targets`, at the depths where they are; the labels `placed` stand in it. -/
def Balanced (targets placed : List (Label × Nat)) (arity depth : Nat) (code : Code)
    (depth' : Nat) : Prop :=
  ∃ lines, lines.map Prod.fst = code ∧ Flows depth lines depth' ∧
    (∀ x ∈ lines, x.1.Allowed arity x.2) ∧
    (∀ kind l d, (.instr (.jump kind l), d) ∈ lines → (.label l, d) ∈ lines ∨ (l, d) ∈ targets) ∧
    ∀ l d, (l, d) ∈ placed → (.label l, d) ∈ lines

namespace Balanced

variable {targets targets' placed placed' : List (Label × Nat)} {arity d d₁ d₂ : Nat}
  {code code' : Code} {l : Label}

theorem nil : Balanced targets [] arity d [] d :=
  ⟨[], rfl, .nil, by simp, by simp, by simp⟩

theorem append (h : Balanced targets placed arity d code d₁)
    (h' : Balanced targets placed' arity d₁ code' d₂) :
    Balanced targets (placed ++ placed') arity d (code ++ code') d₂ := by
  obtain ⟨lines, rfl, hf, ha, hj, hp⟩ := h
  obtain ⟨lines', rfl, hf', ha', hj', hp'⟩ := h'
  refine ⟨lines ++ lines', by simp, hf.append hf', ?_, ?_, ?_⟩
  · intro x hx
    rcases List.mem_append.1 hx with hx | hx
    · exact ha x hx
    · exact ha' x hx
  · intro kind l d hx
    rcases List.mem_append.1 hx with hx | hx
    · exact (hj kind l d hx).imp_left (List.mem_append_left _)
    · exact (hj' kind l d hx).imp_left (List.mem_append_right _)
  · intro l d hx
    rcases List.mem_append.1 hx with hx | hx
    · exact List.mem_append_left _ (hp l d hx)
    · exact List.mem_append_right _ (hp' l d hx)

theorem cons {l : Line} (h : Balanced targets [] arity d [l] d₁)
    (h' : Balanced targets placed arity d₁ code d₂) :
      Balanced targets placed arity d (l :: code) d₂ :=
  h.append h'

theorem mono (h : Balanced targets placed arity d code d₁) (ht : targets ⊆ targets')
    (hp : placed' ⊆ placed) : Balanced targets' placed' arity d code d₁ := by
  obtain ⟨lines, hl, hf, ha, hj, hp'⟩ := h
  exact ⟨lines, hl, hf, ha, fun kind l d hx => (hj kind l d hx).imp_right fun hm => ht hm,
    fun l d hx => hp' l d (hp hx)⟩

/-- A target that stands in the code is no longer one. -/
theorem settle (h : Balanced ((l, d₂) :: targets) placed arity d code d₁) (hp : (l, d₂) ∈ placed) :
    Balanced targets placed arity d code d₁ := by
  obtain ⟨lines, hl, hf, ha, hj, hp'⟩ := h
  refine ⟨lines, hl, hf, ha, fun kind l' d' hx => ?_, hp'⟩
  rcases hj kind l' d' hx with hm | hm
  · exact .inl hm
  · rcases List.mem_cons.1 hm with he | hm
    · cases he
      exact .inl (hp' _ _ hp)
    · exact .inr hm

theorem single {l : Line} (hf : Flows d [(l, d)] d₁) (ha : l.Allowed arity d)
    (hj : ∀ kind target, l = .instr (.jump kind target) → (target, d) ∈ targets) :
    Balanced targets [] arity d [l] d₁ := by
  refine ⟨[(l, d)], rfl, hf, by simpa using ha, fun kind target d' hx => ?_, by simp⟩
  simp only [List.mem_singleton, Prod.mk.injEq] at hx
  obtain ⟨rfl, rfl⟩ := hx
  exact .inr (hj kind target rfl)

theorem quiet (code : Code) (h : code.all Line.quiet) : Balanced targets [] arity d code d := by
  induction code with
  | nil => exact nil
  | cons l code ih =>
    simp only [List.all_cons, Bool.and_eq_true] at h
    obtain ⟨hl, hc⟩ := h
    obtain ⟨he, ha⟩ := Line.quiet.allowed hl arity d
    refine append (single (.pass he (by simp) .nil) ha ?_) (ih hc)
    rintro kind target rfl
    simp [Line.quiet] at hl

theorem label : Balanced targets [(l, d)] arity d [.label l] d := by
  have ha : Line.Allowed arity d (.label l) :=
    ⟨⟨0, rfl, by omega⟩, by simp, by simp [Line.operands]⟩
  exact ⟨[(.label l, d)], rfl, .pass rfl (by simp) .nil, by simpa using ha, by simp, by simp⟩

theorem allowed_jump (kind : Jump) : Line.Allowed arity d (.instr (.jump kind l)) :=
  ⟨⟨0, rfl, by omega⟩, by simp, by simp [Line.operands, Instr.operands]⟩

theorem jump {cond : ConditionCode} (h : (l, d) ∈ targets) :
    Balanced targets [] arity d [.instr (.jump (.on cond) l)] d := by
  refine single (.pass rfl (by simp) .nil) (allowed_jump _) ?_
  rintro kind target ⟨⟩
  exact h

/-- What follows a jump that is always taken may stand at any depth. -/
theorem leave (h : (l, d) ∈ targets) :
    Balanced targets [] arity d [.instr (.jump .always l)] d₁ := by
  refine single (.stop rfl .nil) (allowed_jump _) ?_
  rintro kind target ⟨⟩
  exact h

theorem ret : Balanced targets [] arity 0 [.instr .ret] d :=
  single (.stop rfl .nil)
    ⟨⟨0, rfl, by omega⟩, fun _ => rfl, by simp [Line.operands, Instr.operands]⟩ (by simp)

/-- An instruction that moves words between the stack and elsewhere, or none. -/
theorem instr {i : Instr} {e : Int} (he : i.effect? = some e) (hd : (d₁ : Int) = d + e)
    (hr : i ≠ .ret) (hj : ∀ kind target, i ≠ .jump kind target)
    (hs : ∀ n : Int, .slot n ∈ i.operands → 8 ∣ n ∧
      (0 ≤ n / 8 ∧ n / 8 < d ∨ d < n / 8 ∧ n / 8 ≤ d + arity)) :
    Balanced targets [] arity d [.instr i] d₁ :=
  single (.pass he hd .nil) ⟨⟨e, he, by omega⟩, fun h => absurd (Line.instr.inj h) hr, hs⟩
    fun kind target h => absurd (Line.instr.inj h) (hj kind target)

theorem push {r : Reg} : Balanced targets [] arity d [.instr (.push (.reg r))] (d + 1) :=
  instr (e := 1) rfl (by simp) (by simp) (by simp) (by simp [Instr.operands])

theorem pop {r : Reg} (hr : r ≠ .rsp) : Balanced targets [] arity (d + 1) [.instr (.pop r)] d :=
  instr (e := -1) (by simp [Instr.effect?, hr]) (by simp) (by simp) (by simp)
    (by simp [Instr.operands])

theorem dropping (n : Nat) : Balanced targets [] arity (d + n) (dropping n) d := by
  unfold Emit.dropping
  split
  next h =>
    subst h
    exact nil
  next =>
    have he : Instr.effect? (.alu .add (.reg .rsp) (.int (8 * n))) = some (-(n : Int)) := by
      simp [Instr.effect?]
    exact instr he (by omega) (by simp) (by simp) (by simp [Instr.operands])

theorem leaves (hd : d₁ ≤ d) (h : (l, d₁) ∈ targets) :
    Balanced targets [] arity d (Emit.dropping (d - d₁) ++ [.instr (.jump .always l)]) d₂ := by
  have b : Balanced targets [] arity (d₁ + (d - d₁)) (Emit.dropping (d - d₁)) d₁ := dropping _
  rw [Nat.add_sub_of_le hd] at b
  exact b.append (leave h)

section Shapes

variable {cond body other again : Code} {skip done head next : Label}

theorem branch (hc : Balanced ((skip, d) :: targets) [] arity d cond d)
    (hb : Balanced ((skip, d) :: targets) [] arity d body d) :
    Balanced targets [] arity d (cond ++ (body ++ [.label skip])) d :=
  ((hc.append (hb.append label)).settle (by simp)).mono (List.Subset.refl _) (List.nil_subset _)

/-- A branch after which another is jumped over. -/
theorem branch_else (hc : Balanced ((skip, d) :: targets) [] arity d cond d)
    (hb : Balanced ((skip, d) :: targets) [] arity d body d)
    (ho : Balanced ((skip, d) :: targets) placed arity d other d) (hd : (done, d) ∈ targets) :
    Balanced targets placed arity d
      (cond ++ (body ++ .instr (.jump .always done) :: .label skip :: other)) d := by
  have h := hc.append (hb.append ((leave (List.mem_cons_of_mem _ hd)).append
    ((label (l := skip)).append ho)))
  exact (h.settle (by simp)).mono (List.Subset.refl _) (by simp)

theorem loop
    (hc : Balanced ((done, d) :: (head, d) :: (next, d) :: targets) [] arity d cond d)
    (hb : Balanced ((done, d) :: (head, d) :: (next, d) :: targets) [] arity d body d)
    (ha : Balanced ((done, d) :: (head, d) :: (next, d) :: targets) [] arity d again d) :
    Balanced targets [] arity d
      (cond ++ .label head :: (body ++ .label next :: (again ++ [.label done]))) d := by
  have h := hc.append ((label (l := head)).append (hb.append ((label (l := next)).append
    (ha.append (label (l := done))))))
  have hs := ((h.settle (by simp)).settle (by simp)).settle (by simp)
  exact hs.mono (List.Subset.refl _) (List.nil_subset _)

end Shapes

end Balanced

theorem Scope.mem_paramSlots {top slot : Int} {n : Nat} (h : slot ∈ paramSlots top n) :
    top - n < slot ∧ slot ≤ top := by
  induction n generalizing top with
  | zero => simp [paramSlots] at h
  | succ n ih =>
    rcases List.mem_cons.1 h with rfl | h
    · omega
    · have := ih h
      omega

theorem Scope.mem_slots {arity height : Nat} {slot : Int} (h : slot ∈ slots arity height) :
    0 ≤ slot ∧ slot < height ∨ -arity - 2 < slot ∧ slot ≤ -2 := by
  induction height with
  | zero =>
    have := mem_paramSlots h
    omega
  | succ height ih =>
    rcases List.mem_cons.1 h with rfl | h
    · omega
    · have := ih h
      omega

/-- A variable lies in the frame at a depth: among its words, or among its parameters. -/
theorem Scope.Laid.reaches {arity height d : Nat} {scope : Scope} {name : String} {v : Var}
    (h : scope.Laid arity height) (hv : scope.find? name = some v) (hd : height ≤ d) {n : Int}
    (hn : n = 8 * ((d : Int) - v.slot - 1)) :
    8 ∣ n ∧ (0 ≤ n / 8 ∧ n / 8 < d ∨ d < n / 8 ∧ n / 8 ≤ d + arity) := by
  have hm : v.slot ∈ slots arity height := by
    rw [← h]
    exact List.mem_map_of_mem (List.mem_of_find?_eq_some hv)
  have hs := mem_slots hm
  omega

theorem Emit.call_balanced {table : Signatures} {name : String} {n m : Nat} {args : Emit Unit}
    {c : Cursor} {r : Emitted Unit} {targets : List (Label × Nat)} {arity : Nat}
    (h : Emit.call table name n m args c = .ok r) (hp : ∀ r₁, args c = .ok r₁ → Pushes c n r₁)
    (ha : ∀ r₁, args c = .ok r₁ → Balanced targets [] arity c.height r₁.code r₁.cursor.height) :
    Balanced targets [] arity c.height r.code r.cursor.height := by
  obtain ⟨-, r₁, h₁, -, rfl⟩ := call_eq_ok.1 h
  have b₁ := ha r₁ h₁
  simp only [(hp r₁ h₁).cursor, Nat.add_sub_cancel] at b₁ ⊢
  exact b₁.append ((Balanced.quiet [_] rfl).cons (.dropping n))

section Expr

variable {table : Signatures} {scope : Scope} {arity height : Nat} {targets : List (Label × Nat)}

mutual

theorem Expr.emit_balanced (hl : scope.Laid arity height) :
    (e : Expr) → ∀ {c : Cursor} {r : Emitted Unit}, e.emit table scope c = .ok r →
      height ≤ c.height → Balanced targets [] arity c.height r.code r.cursor.height
  | .int v, c, r, h, hh => by
    rw [Expr.emit_int_eq_ok] at h
    subst h
    exact (Balanced.quiet [_] rfl).cons .push
  | .ident name n, c, r, h, hh => by
    obtain ⟨v, hv, rfl⟩ := Expr.emit_ident_eq_ok.1 h
    refine Balanced.cons (Balanced.instr rfl (by simp) (by simp) (by simp) ?_) .push
    intro n hn
    simp only [Instr.operands, List.mem_cons, reduceCtorEq, Operand.slot.injEq, List.not_mem_nil,
      or_false, false_or] at hn
    exact hl.reaches hv hh hn
  | .paren inner, c, r, h, hh => by
    rw [Expr.emit] at h
    exact Expr.emit_balanced hl inner h hh
  | .call name args n, c, r, h, hh => by
    obtain ⟨r₁, h₁, rfl⟩ := Expr.emit_call_eq_ok.1 h
    have hc := Emit.call_balanced h₁ (fun r₂ h₂ => Expr.emitEach_pushes args h₂)
      fun r₂ h₂ => Expr.emitEach_balanced hl args h₂ hh
    exact hc.append .push
  | .bin op lhs rhs, c, r, h, hh => by
    obtain ⟨r₁, r₂, h₁, h₂, -, rfl⟩ := Expr.emit_bin_eq_ok.1 h
    have hr := Expr.emit_pushes rhs h₁
    have hl' := Expr.emit_pushes lhs h₂
    have hh₁ : height ≤ r₁.cursor.height := by simp only [hr.cursor]; omega
    have b₁ := Expr.emit_balanced hl rhs h₁ hh
    have b₂ := Expr.emit_balanced hl lhs h₂ hh₁
    simp only [hl'.cursor, hr.cursor] at b₁ b₂ ⊢
    have hq : (op.code.map Line.instr).all Line.quiet := by cases op <;> rfl
    exact b₁.append (b₂.append ((Balanced.pop (by decide)).cons ((Balanced.pop (by decide)).cons
      ((Balanced.quiet _ hq).append .push))))

theorem Expr.emitEach_balanced (hl : scope.Laid arity height) :
    (es : List Expr) → ∀ {c : Cursor} {r : Emitted Unit}, Expr.emitEach table scope es c = .ok r →
      height ≤ c.height → Balanced targets [] arity c.height r.code r.cursor.height
  | [], c, r, h, hh => by
    rw [Expr.emitEach, pure_eq_ok] at h
    subst h
    exact .nil
  | e :: es, c, r, h, hh => by
    obtain ⟨r₁, r₂, h₁, h₂, rfl⟩ := Expr.emitEach_cons_eq_ok.1 h
    have hp := Expr.emit_pushes e h₁
    have hh₁ : height ≤ r₁.cursor.height := by simp only [hp.cursor]; omega
    exact (Expr.emit_balanced hl e h₁ hh).append (Expr.emitEach_balanced hl es h₂ hh₁)

end

end Expr

section Condition

variable {value : Expr → Emit Unit} {targets : List (Label × Nat)} {arity height : Nat}

/-- Operands push one word, from a height on. -/
structure Operands (value : Expr → Emit Unit) (arity height : Nat) : Prop where
  pushes : ∀ e c r, value e c = .ok r → Pushes c 1 r
  balanced : ∀ targets e c r, value e c = .ok r → height ≤ c.height →
    Balanced targets [] arity c.height r.code r.cursor.height

theorem Link.emit_balanced (hv : Operands value arity height) {k : Link} {target : Label}
    {truth : Bool} {c : Cursor} {r : Emitted Unit} (h : k.emit value target truth c = .ok r)
    (hh : height ≤ c.height) (ht : (target, c.height) ∈ targets) :
    Balanced targets [] arity c.height r.code c.height := by
  obtain ⟨r₁, h₁, h₂⟩ := Link.emit_eq_ok.1 h
  have b₁ := hv.balanced targets _ _ _ h₁ hh
  have p₁ := hv.pushes _ _ _ h₁
  cases hk : k.comparison with
  | none =>
    rw [hk] at h₂
    obtain ⟨-, rfl⟩ := h₂
    simp only [p₁.cursor] at b₁
    exact b₁.append ((Balanced.pop (by decide)).cons ((Balanced.quiet [_] rfl).cons (.jump ht)))
  | some p =>
    rw [hk] at h₂
    obtain ⟨r₂, h₂, -, rfl⟩ := h₂
    have p₂ := hv.pushes _ _ _ h₂
    have b₂ := hv.balanced targets _ _ _ h₂ (by simp only [p₁.cursor]; omega)
    simp only [p₂.cursor, p₁.cursor] at b₁ b₂
    exact b₁.append (b₂.append ((Balanced.pop (by decide)).cons ((Balanced.pop (by decide)).cons
      ((Balanced.quiet [_] rfl).cons (.jump ht)))))

theorem Exits.link_balanced (hv : Operands value arity height) {exits : Exits} {k : Link}
    {rest : Condition} {ifFalse : Label} {c : Cursor} {r : Emitted Unit}
    (h : exits.link value k rest ifFalse c = .ok r) (hh : height ≤ c.height)
    (ht : exits.truth → (exits.target, c.height) ∈ targets) (hf : (ifFalse, c.height) ∈ targets) :
    Balanced targets [] arity c.height r.code c.height := by
  unfold Exits.link at h
  split at h
  next he => exact Link.emit_balanced hv h hh (ht he.1)
  next => exact Link.emit_balanced hv h hh hf

/-- A false link goes out of the condition, or to a label that stands in what follows it. -/
theorem Balanced.settle_falseTo {placed : List (Label × Nat)} {d d₁ d₂ n : Nat} {code : Code}
    {exits : Exits} {rest : Condition}
    (h : Balanced ((exits.falseTo rest n, d) :: targets) placed arity d₁ code d₂)
    (hp : Condition.hasOr rest → (exits.falseTo rest n, d) ∈ placed)
    (ht : (exits.ifFalse, d) ∈ targets) : Balanced targets placed arity d₁ code d₂ := by
  cases ho : Condition.hasOr rest with
  | true => exact h.settle (hp ho)
  | false =>
    have he : exits.falseTo rest n = exits.ifFalse := by simp [Exits.falseTo, ho]
    rw [he] at h
    exact h.mono (List.cons_subset.2 ⟨ht, List.Subset.refl _⟩) (List.Subset.refl _)

/-- The links after the first; `ifFalse` is placed by the first of them that `||` joins. -/
theorem Exits.links_balanced (hv : Operands value arity height) {exits : Exits} (rest : Condition) :
    ∀ {targets : List (Label × Nat)} {ifFalse : Label} {c : Cursor} {r : Emitted Unit},
      exits.links value ifFalse rest c = .ok r → height ≤ c.height →
      (exits.truth → (exits.target, c.height) ∈ targets) → (exits.ifFalse, c.height) ∈ targets →
      (ifFalse, c.height) ∈ targets →
      ∃ placed, Balanced targets placed arity c.height r.code c.height ∧
        (Condition.hasOr rest → (ifFalse, c.height) ∈ placed) := by
  induction rest with
  | nil =>
    intro targets ifFalse c r h hh ht hf hi
    rw [Exits.links, pure_eq_ok] at h
    subst h
    exact ⟨[], .nil, by simp [Condition.hasOr]⟩
  | cons k rest ih =>
    intro targets ifFalse c r h hh ht hf hi
    cases hk : k.connector with
    | and =>
      obtain ⟨r₁, r₂, h₁, h₂, rfl⟩ := (Exits.links_and_eq_ok hk).1 h
      have hp := Exits.link_pushes hv.pushes h₁
      have b₁ := Exits.link_balanced hv h₁ hh ht hi
      rw [hp.cursor] at h₂
      obtain ⟨placed, b₂, ho⟩ := ih h₂ hh ht hf hi
      refine ⟨placed, b₁.append b₂, fun hor => ho ?_⟩
      simpa [Condition.hasOr, hk] using hor
    | or =>
      by_cases hl : exits.truth ∧ rest.isEmpty
      · obtain ⟨r₁, h₁, rfl⟩ := (Exits.links_or_last_eq_ok hk hl).1 h
        have b₁ := Exits.link_balanced hv h₁ hh ht hf
        exact ⟨_, (Balanced.leave (ht hl.1)).append (Balanced.label.append b₁), by simp⟩
      · obtain ⟨r₁, r₂, h₁, h₂, rfl⟩ := (Exits.links_or_eq_ok hk hl).1 h
        have hp := Exits.link_pushes hv.pushes h₁
        rw [hp.cursor] at h₂
        -- Both the next false label and the place after the link are targets until they stand.
        have hsub : targets ⊆ (exits.falseTo rest (c.labels + 1), c.height) ::
            (.fresh c.labels, c.height) :: targets := by simp
        have b₁ := Exits.link_balanced hv h₁ hh (fun he => hsub (ht he)) List.mem_cons_self
        obtain ⟨placed, b₂, ho⟩ := ih h₂ hh (fun he => hsub (ht he)) (hsub hf) List.mem_cons_self
        have b := (Balanced.leave (l := .fresh c.labels) (d := c.height) (by simp)).append
          ((Balanced.label (l := ifFalse)).append
            (b₁.append ((Balanced.label (l := .fresh c.labels)).append b₂)))
        refine ⟨_, (b.settle_falseTo (fun h => ?_) ?_).settle (by simp), by simp⟩
        · have hm : (exits.falseTo rest (c.labels + 1), c.height) ∈ placed := ho h
          simp [hm]
        · simp [hf]

theorem Exits.chain_balanced (hv : Operands value arity height) {exits : Exits} {first : Link}
    {rest : Condition} {n : Nat} {c : Cursor} {r₁ r₂ : Emitted Unit}
    (h₁ : exits.link value first rest (exits.falseTo rest n) c = .ok r₁)
    (h₂ : exits.links value (exits.falseTo rest n) rest r₁.cursor = .ok r₂) (hh : height ≤ c.height)
    (ht : exits.truth → (exits.target, c.height) ∈ targets)
    (hf : (exits.ifFalse, c.height) ∈ targets) :
    Balanced targets [] arity c.height (r₁.code ++ r₂.code) c.height := by
  have hp := Exits.link_pushes hv.pushes h₁
  rw [hp.cursor] at h₂
  have hsub : targets ⊆ (exits.falseTo rest n, c.height) :: targets := List.subset_cons_self _ _
  have b₁ := Exits.link_balanced hv h₁ hh (fun he => hsub (ht he)) List.mem_cons_self
  obtain ⟨placed, b₂, ho⟩ :=
    Exits.links_balanced hv rest h₂ hh (fun he => hsub (ht he)) (hsub hf) List.mem_cons_self
  exact ((b₁.append b₂).settle_falseTo ho hf).mono (List.Subset.refl _) (List.nil_subset _)

theorem Condition.emit_balanced (hv : Operands value arity height) {cond : Condition}
    {target : Label} {truth : Bool} {c : Cursor} {r : Emitted Unit}
    (h : Condition.emit value cond target truth c = .ok r) (hh : height ≤ c.height)
    (ht : (target, c.height) ∈ targets) : Balanced targets [] arity c.height r.code c.height := by
  cases cond with
  | nil => simp [Condition.emit] at h
  | cons first rest =>
    obtain ⟨r₁, r₂, h₁, h₂, rfl⟩ := Condition.emit_cons_eq_ok.1 h
    rw [← List.append_assoc]
    cases truth with
    | false => exact (Exits.chain_balanced hv h₁ h₂ hh (by simp) ht).append .nil
    | true =>
      have b : Balanced ((.fresh c.labels, c.height) :: targets) [] arity c.height
          (r₁.code ++ r₂.code) c.height :=
        Exits.chain_balanced (c := ⟨c.height, c.labels + 1 + (Condition.hasOr rest).toNat⟩) hv h₁ h₂
          hh
          (fun _ => List.mem_cons_of_mem _ ht) List.mem_cons_self
      exact ((b.append .label).settle (by simp)).mono (List.Subset.refl _) (List.nil_subset _)

end Condition

section Print

variable {table : Signatures} {scope : Scope} {arity height : Nat} {targets : List (Label × Nat)}

theorem Emit.pushWords_balanced (ws : List UInt64) : ∀ {c : Cursor} {r : Emitted Unit},
    pushWords ws c = .ok r → Balanced targets [] arity c.height r.code r.cursor.height := by
  induction ws with
  | nil =>
    intro c r h
    rw [pushWords, pure_eq_ok] at h
    subst h
    exact .nil
  | cons w ws ih =>
    intro c r h
    simp only [pushWords, bind_eq_ok, load_eq_ok] at h
    obtain ⟨r₁, _, h₁, rfl, rfl⟩ := h
    exact (ih h₁).append ((Balanced.quiet [_] rfl).cons .push)

theorem Emit.writeText_balanced {text : String} {c : Cursor} {r : Emitted Unit}
    (h : writeText text c = .ok r) : Balanced targets [] arity c.height r.code r.cursor.height := by
  unfold writeText at h
  dsimp only at h
  split at h
  · rw [pure_eq_ok] at h
    subst h
    exact .nil
  · simp only [bind_eq_ok, instrs_eq_ok, drop_eq_ok] at h
    obtain ⟨r₁, _, h₁, ⟨_, _, rfl, ⟨-, rfl⟩, rfl⟩, rfl⟩ := h
    have b₁ : Balanced targets [] arity _ r₁.code _ := pushWords_balanced _ h₁
    simp only [(pushWords_pushes _ h₁).cursor, Nat.add_sub_cancel] at b₁ ⊢
    exact b₁.append ((Balanced.quiet _ rfl).append (.dropping _))

theorem PrintItem.emit_balanced (hl : scope.Laid arity height) (s : PrintItem) {c : Cursor}
    {r : Emitted Unit} (h : s.emit table scope c = .ok r) (hh : height ≤ c.height) :
    Balanced targets [] arity c.height r.code r.cursor.height := by
  cases s with
  | str text => exact writeText_balanced h
  | expr e =>
    obtain ⟨r₁, h₁, -, rfl⟩ := PrintItem.emit_expr_eq_ok.1 h
    have b₁ : Balanced targets [] arity _ r₁.code _ := Expr.emit_balanced hl e h₁ hh
    simp only [(Expr.emit_pushes e h₁).cursor, Nat.add_sub_cancel] at b₁ ⊢
    exact b₁.append ((Balanced.pop (by decide)).cons (.quiet _ rfl))

theorem PrintItem.emitEach_balanced (hl : scope.Laid arity height) (items : List PrintItem) :
    ∀ {c : Cursor} {r : Emitted Unit}, PrintItem.emitEach table scope items c = .ok r →
      height ≤ c.height → Balanced targets [] arity c.height r.code r.cursor.height := by
  induction items with
  | nil =>
    intro c r h hh
    rw [PrintItem.emitEach, pure_eq_ok] at h
    subst h
    exact .nil
  | cons s items ih =>
    intro c r h hh
    simp only [PrintItem.emitEach, bind_eq_ok] at h
    obtain ⟨r₁, r₂, h₁, h₂, rfl⟩ := h
    have hh₁ : height ≤ r₁.cursor.height := by
      rwa [(PrintItem.emit_pushes s h₁).steady.height]
    exact (PrintItem.emit_balanced hl s h₁ hh).append (ih h₂ hh₁)

end Print

/-- The two ends of the loop around a statement are targets. -/
def Context.Within (ctx : Context) (targets : List (Label × Nat)) : Prop :=
  ∀ loop, ctx.loop = some loop →
    (loop.breakTo, loop.height) ∈ targets ∧ (loop.continueTo, loop.height) ∈ targets

section Stmt

variable {arity : Nat}

theorem Context.Within.mono {ctx : Context} {targets targets' : List (Label × Nat)}
    (h : ctx.Within targets) (ht : targets ⊆ targets') : ctx.Within targets' := by
  intro loop hl
  obtain ⟨hb, hc⟩ := h loop hl
  exact ⟨ht hb, ht hc⟩

theorem Emit.inScope_balanced {scope : Scope} {body : Scope → Emit Scope} {c : Cursor}
    {r : Emitted Unit} {targets : List (Label × Nat)} (h : inScope scope body c = .ok r)
    (hb : ∀ r₁, body scope.nested c = .ok r₁ →
      Balanced targets [] arity c.height r₁.code r₁.cursor.height) :
    Balanced targets [] arity c.height r.code c.height := by
  obtain ⟨r₁, h₁, hh, rfl⟩ := inScope_eq_ok.1 h
  have b₁ := hb r₁ h₁
  rw [hh] at b₁
  exact b₁.append (.dropping _)

theorem Condition.emit_expr_balanced {table : Signatures} {scope : Scope} {cond : Condition}
    {target : Label} {truth : Bool} {c : Cursor} {r : Emitted Unit} {targets : List (Label × Nat)}
    (hl : scope.Laid arity c.height)
    (h : Condition.emit (Expr.emit table scope) cond target truth c = .ok r)
    (ht : (target, c.height) ∈ targets) : Balanced targets [] arity c.height r.code c.height :=
  Condition.emit_balanced ⟨fun e _ _ => Expr.emit_pushes e, fun _ e _ _ => Expr.emit_balanced hl e⟩
    h
    le_rfl ht

/-- The labels of a loop that begins at a cursor, beside other targets. -/
def Cursor.loopTargets (c : Cursor) (targets : List (Label × Nat)) : List (Label × Nat) :=
  (.fresh c.labels, c.height) :: (.fresh (c.labels + 1), c.height) ::
    (.fresh (c.labels + 2), c.height) :: targets

theorem Cursor.subset_loopTargets (c : Cursor) (targets : List (Label × Nat)) :
    targets ⊆ c.loopTargets targets :=
  fun _ hx => List.mem_cons_of_mem _ (List.mem_cons_of_mem _ (List.mem_cons_of_mem _ hx))

theorem Cursor.within_loopTargets (c : Cursor) {ctx : Context} {targets : List (Label × Nat)} :
    Context.Within { ctx with loop := some ⟨c.height, .fresh c.labels, .fresh (c.labels + 2)⟩ }
      (c.loopTargets targets) := by
  rintro _ ⟨⟩
  simp [Cursor.loopTargets]

/-- A loop whose condition stands before its body, and again after it. -/
theorem Emit.loop_balanced {table : Signatures} {scope : Scope} {cond : Condition}
    {body : Scope → Emit Scope} {c : Cursor} {r₁ r₂ : Emitted Unit} {targets : List (Label × Nat)}
    {again : Code} (hl : scope.Laid arity c.height)
    (h₁ : Condition.emit (Expr.emit table scope) cond (.fresh c.labels) false
      ⟨c.height, c.labels + 3⟩ = .ok r₁)
    (h₂ : inScope scope body r₁.cursor = .ok r₂)
    (hb : ∀ r₃, body scope.nested r₁.cursor = .ok r₃ →
      Balanced (c.loopTargets targets) [] arity r₁.cursor.height r₃.code r₃.cursor.height)
    (ha : Balanced (c.loopTargets targets) [] arity c.height again c.height) :
    Balanced targets [] arity c.height (r₁.code ++ .label (.fresh (c.labels + 1)) ::
      (r₂.code ++ .label (.fresh (c.labels + 2)) :: (again ++ [.label (.fresh c.labels)])))
      c.height := by
  have e₁ : r₁.cursor.height = c.height := (Condition.emit_expr_steady h₁).height
  have b₂ := Emit.inScope_balanced h₂ hb
  rw [e₁] at b₂
  refine Balanced.loop ?_ b₂ ha
  exact Condition.emit_expr_balanced (c := ⟨c.height, c.labels + 3⟩) hl h₁ List.mem_cons_self

/-- A condition that jumps over a body. -/
theorem Emit.guarded_balanced {table : Signatures} {scope : Scope} {cond : Condition}
    {body : Scope → Emit Scope} {c : Cursor} {r₁ r₂ : Emitted Unit} {targets : List (Label × Nat)}
    (hl : scope.Laid arity c.height)
    (h₁ : Condition.emit (Expr.emit table scope) cond (.fresh c.labels) false
      ⟨c.height, c.labels + 1⟩ = .ok r₁)
    (h₂ : inScope scope body r₁.cursor = .ok r₂) (ht : (.fresh c.labels, c.height) ∈ targets)
    (hb : ∀ r₃, body scope.nested r₁.cursor = .ok r₃ → r₁.cursor.height = c.height →
      Balanced targets [] arity r₁.cursor.height r₃.code r₃.cursor.height) :
    r₂.cursor.height = c.height ∧ Balanced targets [] arity c.height r₁.code c.height ∧
      Balanced targets [] arity c.height r₂.code c.height := by
  have e₁ : r₁.cursor.height = c.height := (Condition.emit_expr_steady h₁).height
  have b₂ := Emit.inScope_balanced h₂ fun r₃ h₃ => hb r₃ h₃ e₁
  rw [e₁] at b₂
  exact ⟨(inScope_height h₂).trans e₁,
    Condition.emit_expr_balanced (c := ⟨c.height, c.labels + 1⟩) hl h₁ ht, b₂⟩

mutual

theorem Stmt.emit_balanced : (s : Stmt) → ∀ {targets : List (Label × Nat)} {ctx : Context}
    {scope : Scope} {c : Cursor} {r : Emitted Scope}, s.emit ctx scope c = .ok r →
      scope.Laid arity c.height → ctx.Within targets →
      Balanced targets [] arity c.height r.code r.cursor.height
  | .exit none, targets, ctx, scope, c, r, h, hl, hw => by
    rw [Stmt.emit_exit_none_eq_ok] at h
    subst h
    exact .quiet _ rfl
  | .exit (some value), targets, ctx, scope, c, r, h, hl, hw => by
    obtain ⟨r₁, h₁, -, rfl⟩ := Stmt.emit_exit_some_eq_ok.1 h
    have b₁ : Balanced targets [] arity _ r₁.code _ := Expr.emit_balanced hl value h₁ le_rfl
    simp only [(Expr.emit_pushes value h₁).cursor, Nat.add_sub_cancel] at b₁ ⊢
    exact b₁.append ((Balanced.pop (by decide)).cons (.quiet _ rfl))
  | .letVar name value n, targets, ctx, scope, c, r, h, hl, hw => by
    obtain ⟨-, r₁, h₁, rfl⟩ := Stmt.emit_letVar_eq_ok.1 h
    exact Expr.emit_balanced hl value h₁ le_rfl
  | .assign name value n, targets, ctx, scope, c, r, h, hl, hw => by
    obtain ⟨v, r₁, hv, h₁, -, rfl⟩ := Stmt.emit_assign_eq_ok.1 h
    have b₁ : Balanced targets [] arity _ r₁.code _ := Expr.emit_balanced hl value h₁ le_rfl
    simp only [(Expr.emit_pushes value h₁).cursor, Nat.add_sub_cancel] at b₁ ⊢
    refine b₁.append ((Balanced.pop (by decide)).cons
      (.instr rfl (by simp) (by simp) (by simp) fun n hn => ?_))
    simp only [Instr.operands, List.mem_cons, reduceCtorEq, Operand.slot.injEq, List.not_mem_nil,
      or_false] at hn
    exact hl.reaches hv le_rfl hn
  | .block body, targets, ctx, scope, c, r, h, hl, hw => by
    obtain ⟨r₁, h₁, rfl⟩ := Stmt.emit_block_eq_ok.1 h
    rw [inScope_height h₁]
    exact Emit.inScope_balanced h₁ fun r₂ h₂ => Stmt.emitEach_balanced body h₂ hl.nested hw
  | .print items, targets, ctx, scope, c, r, h, hl, hw => by
    obtain ⟨r₁, h₁, rfl⟩ := Stmt.emit_print_eq_ok.1 h
    exact PrintItem.emitEach_balanced hl items h₁ le_rfl
  | .ifElse cond body other, targets, ctx, scope, c, r, h, hl, hw => by
    obtain ⟨r₁, r₂, h₁, h₂, h₃⟩ := Stmt.emit_ifElse_eq_ok.1 h
    split at h₃
    · subst h₃
      obtain ⟨hh, b₁, b₂⟩ := Emit.guarded_balanced hl h₁ h₂ List.mem_cons_self fun r₃ h₃ he =>
        Stmt.emit_balanced body h₃ (he ▸ hl.nested) (hw.mono (List.subset_cons_self _ _))
      rw [hh]
      exact b₁.branch b₂
    · obtain ⟨r₃, h₃, rfl⟩ := h₃
      have hw' : ctx.Within ((.fresh c.labels, c.height) :: (.fresh r₂.cursor.labels, c.height) ::
          targets) := hw.mono (by simp)
      obtain ⟨hh, b₁, b₂⟩ := Emit.guarded_balanced hl h₁ h₂ List.mem_cons_self fun r₄ h₄ he =>
        Stmt.emit_balanced body h₄ (he ▸ hl.nested) hw'
      have ho := ElseBranch.emit_steady other h₃
      rw [hh] at h₃ ho
      have b₃ := ElseBranch.emit_balanced other h₃ hl hw' (by simp)
      rw [ho.height]
      exact ((b₁.branch_else b₂ (b₃.append .label) List.mem_cons_self).settle (by simp)).mono
        (List.Subset.refl _) (List.nil_subset _)
  | .whileLoop cond body, targets, ctx, scope, c, r, h, hl, hw => by
    obtain ⟨r₁, r₂, r₃, h₁, h₂, h₃, rfl⟩ := Stmt.emit_whileLoop_eq_ok.1 h
    have e₁ : r₁.cursor.height = c.height := (Condition.emit_expr_steady h₁).height
    have e₂ := (inScope_height h₂).trans e₁
    have e₃ := (Condition.emit_expr_steady h₃).height.trans e₂
    rw [e₃]
    refine Emit.loop_balanced hl h₁ h₂ (fun r₄ h₄ => ?_) ?_
    · exact Stmt.emit_balanced body h₄ (e₁ ▸ hl.nested) (e₁ ▸ c.within_loopTargets)
    · rw [← e₂] at hl ⊢
      exact Condition.emit_expr_balanced hl h₃ (by simp [Cursor.loopTargets, e₂])
  | .forLoop init cond step body, targets, ctx, scope, c, r, h, hl, hw => by
    obtain ⟨r₀, r₁, r₂, r₃, r₄, h₀, h₁, h₂, h₃, h₄, -, rfl⟩ := Stmt.emit_forLoop_ok h
    have hg := (Stmt.emit_grows init h₀).1
    have hl₀ := hg.laid hl.nested
    have hw₀ := hw.mono (r₀.cursor.subset_loopTargets targets)
    have e₁ : r₁.cursor.height = r₀.cursor.height := (Condition.emit_expr_steady h₁).height
    have e₂ := (inScope_height h₂).trans e₁
    have e₃ := (inScope_height h₃).trans e₂
    have e₄ := (Condition.emit_expr_steady h₄).height.trans e₃
    have b₃ := Emit.inScope_balanced h₃ fun r₅ h₅ =>
      Stmt.emit_balanced step h₅ (e₂ ▸ hl₀.nested) hw₀
    have b₄ : Balanced (r₀.cursor.loopTargets targets) [] arity _ r₄.code _ :=
      Condition.emit_expr_balanced (e₃ ▸ hl₀) h₄ (by simp [Cursor.loopTargets, e₃])
    rw [e₂] at b₃
    rw [e₃] at b₄
    have b := Emit.loop_balanced hl₀ h₁ h₂ (fun r₅ h₅ => Stmt.emit_balanced body h₅
      (e₁ ▸ hl₀.nested) (e₁ ▸ r₀.cursor.within_loopTargets)) (b₃.append b₄)
    have hd : r₀.cursor.height = c.height + r₀.value.own.length := hg.own_length
    have b' := (Stmt.emit_balanced init h₀ hl.nested hw).append
        (b.append (hd ▸ Balanced.dropping _))
    simpa using b'
  | .function name params body n, targets, ctx, scope, c, r, h, hl, hw => by
    obtain ⟨-, rfl⟩ := Stmt.emit_function_eq_ok.1 h
    exact .nil
  | .ret none inFunction n, targets, ctx, scope, c, r, h, hl, hw => by
    obtain ⟨-, rfl⟩ := Stmt.emit_ret_none_eq_ok.1 h
    have b : Balanced targets [] arity c.height (dropping c.height) 0 := by
      simpa using Balanced.dropping (d := 0) c.height
    exact (Balanced.quiet [_] rfl).cons (b.append .ret)
  | .ret (some value) inFunction n, targets, ctx, scope, c, r, h, hl, hw => by
    obtain ⟨-, r₁, h₁, -, rfl⟩ := Stmt.emit_ret_some_eq_ok.1 h
    have b₁ : Balanced targets [] arity _ r₁.code _ := Expr.emit_balanced hl value h₁ le_rfl
    have b : Balanced targets [] arity c.height (dropping c.height) 0 := by
      simpa using Balanced.dropping (d := 0) c.height
    simp only [(Expr.emit_pushes value h₁).cursor, Nat.add_sub_cancel] at b₁ ⊢
    exact b₁.append ((Balanced.pop (by decide)).cons (b.append .ret))
  | .call name args n, targets, ctx, scope, c, r, h, hl, hw => by
    obtain ⟨r₁, h₁, rfl⟩ := Stmt.emit_call_eq_ok.1 h
    exact Emit.call_balanced h₁ (fun r₂ h₂ => Expr.emitEach_pushes args h₂)
      fun r₂ h₂ => Expr.emitEach_balanced hl args h₂ le_rfl
  | .breakLoop n, targets, ctx, scope, c, r, h, hl, hw => by
    obtain ⟨loop, hloop, hle, rfl⟩ := Stmt.emit_breakLoop_eq_ok.1 h
    exact Balanced.leaves hle (hw loop hloop).1
  | .continueLoop n, targets, ctx, scope, c, r, h, hl, hw => by
    obtain ⟨loop, hloop, hle, rfl⟩ := Stmt.emit_continueLoop_eq_ok.1 h
    exact Balanced.leaves hle (hw loop hloop).2

theorem Stmt.emitEach_balanced : (ss : List Stmt) → ∀ {targets : List (Label × Nat)} {ctx : Context}
    {scope : Scope} {c : Cursor} {r : Emitted Scope}, Stmt.emitEach ss ctx scope c = .ok r →
      scope.Laid arity c.height → ctx.Within targets →
      Balanced targets [] arity c.height r.code r.cursor.height
  | [], targets, ctx, scope, c, r, h, hl, hw => by
    rw [Stmt.emitEach_nil_eq_ok] at h
    subst h
    exact .nil
  | s :: ss, targets, ctx, scope, c, r, h, hl, hw => by
    obtain ⟨r₁, r₂, h₁, h₂, rfl⟩ := Stmt.emitEach_cons_eq_ok.1 h
    have hg := (Stmt.emit_grows s h₁).1
    exact (Stmt.emit_balanced s h₁ hl hw).append
      (Stmt.emitEach_balanced ss h₂ (hg.laid hl) hw)

theorem ElseBranch.emit_balanced : (other : ElseBranch) → ∀ {targets : List (Label × Nat)}
    {ctx : Context} {scope : Scope} {done : Label} {c : Cursor} {r : Emitted Unit},
      other.emit ctx scope done c = .ok r → scope.Laid arity c.height →
      ctx.Within targets → (done, c.height) ∈ targets →
      Balanced targets [] arity c.height r.code c.height
  | .absent, targets, ctx, scope, done, c, r, h, hl, hw, hd => by
    rw [ElseBranch.emit, pure_eq_ok] at h
    subst h
    exact .nil
  | .elseIf cond body next, targets, ctx, scope, done, c, r, h, hl, hw, hd => by
    obtain ⟨r₁, r₂, h₁, h₂, h₃⟩ := ElseBranch.emit_elseIf_eq_ok.1 h
    have hw' := hw.mono (List.subset_cons_self (.fresh c.labels, c.height) _)
    obtain ⟨hh, b₁, b₂⟩ := Emit.guarded_balanced hl h₁ h₂ List.mem_cons_self fun r₃ h₃ he =>
      Stmt.emit_balanced body h₃ (he ▸ hl.nested) hw'
    split at h₃
    · subst h₃
      exact b₁.branch b₂
    · obtain ⟨r₃, h₃, rfl⟩ := h₃
      rw [← hh] at hl hd
      have b₃ := ElseBranch.emit_balanced next h₃ hl hw' (List.mem_cons_of_mem _ hd)
      rw [hh] at b₃ hd
      exact b₁.branch_else b₂ b₃ hd
  | .otherwise body, targets, ctx, scope, done, c, r, h, hl, hw, hd => by
    rw [ElseBranch.emit] at h
    exact Emit.inScope_balanced h fun r₁ h₁ => Stmt.emit_balanced body h₁ hl.nested hw

end

end Stmt

end Stackwise
