import Stackwise.Compile

/-! What successful emission yields.  Each action and each construct is opened here once: the
cursor it leaves, the code it emits, and the emissions of its parts. -/
namespace Stackwise

def Emit.dropping (words : Nat) : Code :=
  if words = 0 then [] else [.instr (.alu .add (.reg .rsp) (.int (8 * words)))]

theorem Writer.unwind_apply (words : Nat) (a : Assembly) :
    unwind words a = .ok () ⟨a.cursor, a.code ++ Emit.dropping words⟩ := by
  unfold unwind Emit.dropping
  by_cases h : words = 0
  · simp only [h, if_true, List.append_nil]
    rfl
  · simp only [h, if_false]
    rfl

namespace Emit

variable {α : Type} {c : Cursor}

@[simp] theorem pure_eq_ok {a : α} {r : Emitted α} :
    (pure a : Emit α) c = .ok r ↔ r = ⟨a, c, []⟩ := by
  simp [eq_comm]

@[simp] theorem fail_eq_ok {cause : Cause} {n : Nat} {r : Emitted α} :
    (fail cause n : Emit α) c = .ok r ↔ False := by
  simp [fail_apply]

@[simp] theorem height_eq_ok {r : Emitted Nat} : height c = .ok r ↔ r = ⟨c.height, c, []⟩ := by
  simp [height_apply, eq_comm]

@[simp] theorem directive_eq_ok {text : String} {r : Emitted Unit} :
    directive text c = .ok r ↔ r = ⟨(), c, [.directive text]⟩ := by
  simp [directive, line_apply, eq_comm]

@[simp] theorem label_eq_ok {l : Label} {r : Emitted Unit} :
    label l c = .ok r ↔ r = ⟨(), c, [.label l]⟩ := by
  simp [label, line_apply, eq_comm]

@[simp] theorem instr_eq_ok {i : Instr} {r : Emitted Unit} :
    instr i c = .ok r ↔ r = ⟨(), c, [.instr i]⟩ := by
  simp [instr, line_apply, eq_comm]

theorem lines_run (code : Code) : ∀ d : Draft,
    (lines code).run d = .ok () { d with code := d.code ++ code } := by
  induction code with
  | nil =>
    intro d
    rw [List.append_nil]
    rfl
  | cons l code ih =>
    intro d
    change (lines code).run { d with code := d.code ++ [l] } = _
    rw [ih]
    simp

@[simp] theorem instrs_eq_ok {is : List Instr} {r : Emitted Unit} :
    instrs is c = .ok r ↔ r = ⟨(), c, is.map .instr⟩ := by
  rw [instrs, apply, lines_run]
  simp [Draft.blank, eq_comm]

@[simp] theorem jump_eq_ok {j : Jump} {l : Label} {r : Emitted Unit} :
    jump j l c = .ok r ↔ r = ⟨(), c, [.instr (.jump j l)]⟩ := by
  simp [jump]

@[simp] theorem freshLabel_eq_ok {r : Emitted Label} :
    freshLabel c = .ok r ↔ r = ⟨.fresh c.labels, ⟨c.height, c.labels + 1⟩, []⟩ := by
  simp [freshLabel_apply, eq_comm]

/-- An action without code only changes what comes after it. -/
theorem bind_of_apply {β : Type} {m : Emit α} {f : α → Emit β} {a : α} {c' : Cursor}
    (h : m c = .ok ⟨a, c', []⟩) : (m >>= f) c = f a c' := by
  rw [bind_apply, h]
  cases hf : f a c' <;> simp [hf]

theorem height_bind {f : Nat → Emit α} : (height >>= f) c = f c.height c := bind_of_apply rfl

theorem freshLabel_bind {f : Label → Emit α} :
    (freshLabel >>= f) c = f (.fresh c.labels) ⟨c.height, c.labels + 1⟩ := bind_of_apply rfl

@[simp] theorem push_eq_ok {src : Operand} {r : Emitted Unit} :
    push src c = .ok r ↔ r = ⟨(), ⟨c.height + 1, c.labels⟩, [.instr (.push src)]⟩ := by
  simp [eq_comm]

@[simp] theorem pop_eq_ok {dst : Reg} {r : Emitted Unit} :
    pop dst c = .ok r ↔
      1 ≤ c.height ∧ r = ⟨(), ⟨c.height - 1, c.labels⟩, [.instr (.pop dst)]⟩ := by
  rw [pop_apply]
  split <;> simp_all [eq_comm]

@[simp] theorem load_eq_ok {src : Operand} {r : Emitted Unit} :
    load src c = .ok r ↔ r = ⟨(), ⟨c.height + 1, c.labels⟩,
      [.instr (.mov (.reg .rax) src), .instr (.push (.reg .rax))]⟩ := by
  simp [load, bind_eq_ok]

@[simp] theorem unwind_eq_ok {n : Nat} {r : Emitted Unit} :
    unwind n c = .ok r ↔ r = ⟨(), c, dropping n⟩ := by
  rw [unwind, ofWriter_apply, Writer.unwind_apply]
  simp [eq_comm]

theorem drop_apply (n : Nat) (c : Cursor) :
    drop n c = if n ≤ c.height then .ok ⟨(), ⟨c.height - n, c.labels⟩, dropping n⟩
      else .error ⟨.stackUnderflow n c.height, 0⟩ := by
  rw [drop, ofWriter_apply, Writer.release, Writer.shrink_bind_apply]
  by_cases h : n ≤ c.height
  · simp [h, Writer.unwind_apply]
  · simp [h]

@[simp] theorem drop_eq_ok {n : Nat} {r : Emitted Unit} :
    drop n c = .ok r ↔ n ≤ c.height ∧ r = ⟨(), ⟨c.height - n, c.labels⟩, dropping n⟩ := by
  rw [drop_apply]
  by_cases h : n ≤ c.height <;> simp [h, eq_comm]

@[simp] theorem enterFrame_eq_ok {r : Emitted Nat} :
    enterFrame c = .ok r ↔ r = ⟨c.height, ⟨0, c.labels⟩, []⟩ := by
  have h : enterFrame c = .ok ⟨c.height, ⟨0, c.labels⟩, []⟩ := rfl
  simp [h, eq_comm]

@[simp] theorem leaveFrame_eq_ok {n : Nat} {r : Emitted Unit} :
    leaveFrame n c = .ok r ↔ r = ⟨(), ⟨n, c.labels⟩, []⟩ := by
  have h : leaveFrame n c = .ok ⟨(), ⟨n, c.labels⟩, []⟩ := rfl
  simp [h, eq_comm]

@[simp] theorem meet_eq_ok {f : FunctionDecl} {r : Emitted Unit} :
    meet f c = .ok r ↔ r = ⟨(), c, []⟩ := by
  have h : meet f c = .ok ⟨(), c, []⟩ := rfl
  simp [h, eq_comm]

@[simp] theorem noteInt_eq_ok {r : Emitted Unit} : noteInt c = .ok r ↔ r = ⟨(), c, []⟩ := by
  have h : noteInt c = .ok ⟨(), c, []⟩ := rfl
  simp [h, eq_comm]

@[simp] theorem place_eq_ok {scope : Scope} {name : String} {n : Nat} {r : Emitted Operand} :
    place scope name n c = .ok r ↔ ∃ v, scope.find? name = some v ∧
      r = ⟨.slot (8 * (c.height - v.slot - 1)), c, []⟩ := by
  unfold place
  cases scope.find? name <;> simp [bind_eq_ok]

theorem inScope_eq_ok {scope : Scope} {body : Scope → Emit Scope} {r : Emitted Unit} :
    inScope scope body c = .ok r ↔ ∃ r₁, body scope.nested c = .ok r₁ ∧
      r₁.cursor.height = c.height + r₁.value.own.length ∧
      r = ⟨(), ⟨c.height, r₁.cursor.labels⟩, r₁.code ++ dropping r₁.value.own.length⟩ := by
  simp only [inScope, height_bind, bind_eq_ok, drop_eq_ok]
  constructor
  · rintro ⟨r₁, _, h₁, ⟨_, _, ⟨hl, rfl⟩, h₂, rfl⟩, rfl⟩
    dsimp only at h₂
    split at h₂
    next hh =>
      rw [pure_eq_ok] at h₂
      subst h₂
      exact ⟨r₁, h₁, by omega, by simp [hh]⟩
    next => simp at h₂
  · rintro ⟨r₁, h₁, hh, rfl⟩
    exact ⟨r₁, _, h₁, ⟨_, ⟨(), ⟨c.height, r₁.cursor.labels⟩, []⟩, ⟨by omega, rfl⟩, by simp [hh],
      rfl⟩, by simp⟩

theorem inScope_height {scope : Scope} {body : Scope → Emit Scope} {r : Emitted Unit}
    (h : inScope scope body c = .ok r) : r.cursor.height = c.height := by
  obtain ⟨r₁, -, -, rfl⟩ := inScope_eq_ok.1 h
  rfl

theorem call_eq_ok {table : Signatures} {name : String} {arity n : Nat} {args : Emit Unit}
    {r : Emitted Unit} :
    call table name arity n args c = .ok r ↔
      (table.get? name).map Signature.arity = some arity ∧ ∃ r₁, args c = .ok r₁ ∧
        arity ≤ r₁.cursor.height ∧
        r = ⟨(), ⟨r₁.cursor.height - arity, r₁.cursor.labels⟩,
          r₁.code ++ .instr (.call (.function name)) :: dropping arity⟩ := by
  unfold call
  cases ht : table.get? name with
  | none => simp
  | some s =>
    by_cases ha : s.arity = arity
    · simp only [ha, if_true, bind_eq_ok, instr_eq_ok, drop_eq_ok, Option.map_some, true_and]
      constructor
      · rintro ⟨r₁, _, h₁, ⟨_, _, rfl, ⟨hl, rfl⟩, rfl⟩, rfl⟩
        exact ⟨r₁, h₁, hl, rfl⟩
      · rintro ⟨r₁, h₁, hl, rfl⟩
        exact ⟨r₁, _, h₁, ⟨_, _, rfl, ⟨hl, rfl⟩, rfl⟩, rfl⟩
    · simp [ha]

end Emit

open Emit

/-- The function that is called is in the table, with as many parameters as there are arguments. -/
def Signatures.Fits (table : Signatures) (s : CallSite) : Prop :=
  (table.get? s.name).map Signature.arity = some s.arity

instance (table : Signatures) (s : CallSite) : Decidable (table.Fits s) :=
  inferInstanceAs (Decidable (_ = _))

section Expr

variable {table : Signatures} {scope : Scope} {c : Cursor} {r : Emitted Unit}

theorem Expr.emit_int_eq_ok {v : Int64} :
    (Expr.int v).emit table scope c = .ok r ↔ r = ⟨(), ⟨c.height + 1, c.labels⟩,
      [.instr (.mov (.reg .rax) (.int v.toInt)), .instr (.push (.reg .rax))]⟩ := by
  simp [Expr.emit]

theorem Expr.emit_ident_eq_ok {name : String} {n : Nat} :
    (Expr.ident name n).emit table scope c = .ok r ↔ ∃ v, scope.find? name = some v ∧
      r = ⟨(), ⟨c.height + 1, c.labels⟩,
        [.instr (.mov (.reg .rax) (.slot (8 * (c.height - v.slot - 1)))),
          .instr (.push (.reg .rax))]⟩ := by
  simp only [Expr.emit, bind_eq_ok, place_eq_ok, load_eq_ok]
  constructor
  · rintro ⟨_, _, ⟨v, hv, rfl⟩, rfl, rfl⟩
    exact ⟨v, hv, rfl⟩
  · rintro ⟨v, hv, rfl⟩
    exact ⟨_, _, ⟨v, hv, rfl⟩, rfl, rfl⟩

theorem Expr.emit_call_eq_ok {name : String} {args : List Expr} {n : Nat} :
    (Expr.call name args n).emit table scope c = .ok r ↔
      ∃ r₁, Emit.call table name args.length n (Expr.emitEach table scope args) c = .ok r₁ ∧
        r = ⟨(), ⟨r₁.cursor.height + 1, r₁.cursor.labels⟩,
          r₁.code ++ [.instr (.push (.reg .rax))]⟩ := by
  simp [Expr.emit, bind_eq_ok]

theorem Expr.emit_bin_eq_ok {op : BinOp} {lhs rhs : Expr} :
    (Expr.bin op lhs rhs).emit table scope c = .ok r ↔
      ∃ r₁ r₂, rhs.emit table scope c = .ok r₁ ∧ lhs.emit table scope r₁.cursor = .ok r₂ ∧
        2 ≤ r₂.cursor.height ∧
        r = ⟨(), ⟨r₂.cursor.height - 1, r₂.cursor.labels⟩,
          r₁.code ++ (r₂.code ++ .instr (.pop .rax) :: .instr (.pop .rbx) ::
            (op.code.map .instr ++ [.instr (.push (.reg .rax))]))⟩ := by
  simp only [Expr.emit, bind_eq_ok, pop_eq_ok, instrs_eq_ok, push_eq_ok]
  constructor
  · rintro ⟨r₁, _, h₁, ⟨r₂, _, h₂, ⟨_, _, ⟨ha, rfl⟩, ⟨_, _, ⟨hb, rfl⟩, ⟨_, _, rfl, rfl, rfl⟩, rfl⟩,
      rfl⟩, rfl⟩, rfl⟩
    refine ⟨r₁, r₂, h₁, h₂, ?_, ?_⟩
    · dsimp only at hb
      omega
    · have hh : r₂.cursor.height - 1 - 1 + 1 = r₂.cursor.height - 1 := by
        dsimp only at hb
        omega
      simp [hh]
  · rintro ⟨r₁, r₂, h₁, h₂, hb, rfl⟩
    have hh : r₂.cursor.height - 1 - 1 + 1 = r₂.cursor.height - 1 := by omega
    refine ⟨r₁, _, h₁, ⟨r₂, _, h₂, ⟨_, _, ⟨by omega, rfl⟩, ⟨_, _, ⟨?_, rfl⟩, ⟨_, _, rfl, rfl, rfl⟩,
      rfl⟩, rfl⟩, rfl⟩, ?_⟩
    · dsimp only
      omega
    · simp [hh]

theorem Expr.emitEach_cons_eq_ok {e : Expr} {es : List Expr} :
    Expr.emitEach table scope (e :: es) c = .ok r ↔
      ∃ r₁ r₂, e.emit table scope c = .ok r₁ ∧ Expr.emitEach table scope es r₁.cursor = .ok r₂ ∧
        r = ⟨(), r₂.cursor, r₁.code ++ r₂.code⟩ := by
  simp [Expr.emitEach, bind_eq_ok]

end Expr

section Condition

/-- The condition under which the comparison of `rax` with `rbx` fails. -/
def Comparison.failing : Comparison → ConditionCode
  | eq => .ne
  | ge => .l
  | le => .g
  | lt => .ge
  | gt => .le

/-- The condition under which a link has a truth value, given the one under which it fails. -/
def ConditionCode.when (failing : ConditionCode) (truth : Bool) : ConditionCode :=
  if truth then failing.negate else failing

theorem Comparison.jumpIfFalse_eq (cmp : Comparison) : cmp.jumpIfFalse = .on cmp.failing := by
  cases cmp <;> rfl

theorem Link.exists_jumpIfFalse (c : Link) : ∃ failing, c.jumpIfFalse = .on failing := by
  unfold Link.jumpIfFalse
  split
  · exact ⟨_, Comparison.jumpIfFalse_eq _⟩
  · exact ⟨.z, rfl⟩

theorem Emit.jumpUnless_on (failing : ConditionCode) (truth : Bool) (target : Label) :
    jumpUnless (.on failing) truth target = jump (.on (failing.when truth)) target := by
  cases truth <;> rfl

variable {value : Expr → Emit Unit} {c : Cursor} {r : Emitted Unit}

theorem Link.emit_eq (k : Link) (target : Label) (truth : Bool) :
    k.emit value target truth = (do
      value k.lhs
      match k.comparison with
      | some (cmp, rhs) =>
        value rhs
        pop .rbx
        pop .rax
        instr (.alu .cmp (.reg .rax) (.reg .rbx))
        jump (.on (cmp.failing.when truth)) target
      | none =>
        pop .rax
        instr (.alu .test (.reg .rax) (.reg .rax))
        jump (.on (ConditionCode.z.when truth)) target) := by
  unfold Link.emit Link.jumpIfFalse
  cases k.comparison with
  | none => simp only [jumpUnless_on]
  | some p => simp only [Comparison.jumpIfFalse_eq, jumpUnless_on]

theorem Link.emit_eq_ok {k : Link} {target : Label} {truth : Bool} :
    k.emit value target truth c = .ok r ↔ ∃ r₁, value k.lhs c = .ok r₁ ∧
      match k.comparison with
      | some (cmp, rhs) => ∃ r₂, value rhs r₁.cursor = .ok r₂ ∧ 2 ≤ r₂.cursor.height ∧
        r = ⟨(), ⟨r₂.cursor.height - 2, r₂.cursor.labels⟩,
          r₁.code ++ (r₂.code ++ [.instr (.pop .rbx), .instr (.pop .rax),
            .instr (.alu .cmp (.reg .rax) (.reg .rbx)),
            .instr (.jump (.on (cmp.failing.when truth)) target)])⟩
      | none => 1 ≤ r₁.cursor.height ∧
        r = ⟨(), ⟨r₁.cursor.height - 1, r₁.cursor.labels⟩,
          r₁.code ++ [.instr (.pop .rax), .instr (.alu .test (.reg .rax) (.reg .rax)),
            .instr (.jump (.on (ConditionCode.z.when truth)) target)]⟩ := by
  rw [Link.emit_eq]
  cases hk : k.comparison with
  | none =>
    simp only [bind_eq_ok, pop_eq_ok, instr_eq_ok, jump_eq_ok]
    constructor
    · rintro ⟨r₁, _, h₁, ⟨_, _, ⟨hp, rfl⟩, ⟨_, _, rfl, rfl, rfl⟩, rfl⟩, rfl⟩
      exact ⟨r₁, h₁, hp, rfl⟩
    · rintro ⟨r₁, h₁, hp, rfl⟩
      exact ⟨r₁, _, h₁, ⟨_, _, ⟨hp, rfl⟩, ⟨_, _, rfl, rfl, rfl⟩, rfl⟩, rfl⟩
  | some p =>
    obtain ⟨cmp, rhs⟩ := p
    simp only [bind_eq_ok, pop_eq_ok, instr_eq_ok, jump_eq_ok]
    constructor
    · rintro ⟨r₁, _, h₁, ⟨r₂, _, h₂, ⟨_, _, ⟨hp, rfl⟩,
        ⟨_, _, ⟨hp', rfl⟩, ⟨_, _, rfl, rfl, rfl⟩, rfl⟩,
        rfl⟩, rfl⟩, rfl⟩
      dsimp only at hp'
      exact ⟨r₁, h₁, r₂, h₂, by omega, rfl⟩
    · rintro ⟨r₁, h₁, r₂, h₂, hp, rfl⟩
      refine ⟨r₁, _, h₁, ⟨r₂, _, h₂, ⟨_, _, ⟨by omega, rfl⟩,
        ⟨_, _, ⟨?_, rfl⟩, ⟨_, _, rfl, rfl, rfl⟩,
        rfl⟩, rfl⟩, rfl⟩, rfl⟩
      dsimp only
      omega

/-- Some link is joined by `||`. -/
def Condition.hasOr (cond : Condition) : Bool := cond.any fun k => k.connector = .or

namespace Exits

/-- Where a false link before `rest` goes: to the next link that `||` joins, whose label is a new
one, or out of the condition if no such link follows. -/
def falseLabel (exits : Exits) (rest : Condition) : Emit Label :=
  if rest.any fun k => k.connector = .or then freshLabel else pure exits.ifFalse

/-- The links after the first; `ifFalse` is where a false link before them goes. -/
def links (exits : Exits) (value : Expr → Emit Unit) : Label → Condition → Emit Unit
  | _, [] => pure ()
  | ifFalse, k :: rest => do
    match k.connector with
    | .and =>
      exits.link value k rest ifFalse
      exits.links value ifFalse rest
    | .or =>
      if exits.truth ∧ rest.isEmpty then
        jump .always exits.target
        label ifFalse
        exits.link value k rest exits.ifFalse
      else
        let resume ← freshLabel
        jump .always resume
        label ifFalse
        let ifFalse ← exits.falseLabel rest
        exits.link value k rest ifFalse
        label resume
        exits.links value ifFalse rest

variable {exits : Exits} {segments segment : Nat}

/-- The last segment is the one that no `||` follows. -/
theorem segmentLabel_eq {rest : Condition}
    (h : segments = segment + 1 + rest.countP fun k => k.connector = .or) :
    exits.segmentLabel segments segment = exits.falseLabel rest := by
  unfold segmentLabel falseLabel
  by_cases hr : rest.any fun k => k.connector = .or
  · have hpos : 0 < rest.countP fun k => k.connector = .or := by
      simpa [List.countP_pos_iff] using hr
    rw [if_neg (by omega), if_pos hr]
  · have hzero : (rest.countP fun k => k.connector = .or) = 0 := by
      simpa [List.countP_eq_zero] using hr
    rw [if_pos (by omega), if_neg hr]

/-- Counting segments is looking ahead for `||`. -/
theorem segmentLinks_eq {rest : Condition} : ∀ {segment : Nat} {ifFalse : Label},
    segments = segment + 1 + (rest.countP fun k => k.connector = .or) →
      exits.segmentLinks value segments segment ifFalse rest = exits.links value ifFalse rest := by
  induction rest with
  | nil => exact fun _ => rfl
  | cons k rest ih =>
    intro segment ifFalse h
    rw [segmentLinks, links]
    cases hk : k.connector with
    | and =>
      rw [List.countP_cons_of_neg (by simp [hk])] at h
      simp only [ih h]
    | or =>
      rw [List.countP_cons_of_pos (by simp [hk])] at h
      have hnext : segments = segment + 1 + 1 + rest.countP fun k => k.connector = .or := by omega
      simp only [segmentLabel_eq hnext, ih hnext]
      by_cases ht : exits.truth ∧ rest.isEmpty
      · have hlast : exits.falseLabel rest = pure exits.ifFalse := by
          rw [List.isEmpty_iff.1 ht.2]
          rfl
        simp only [if_pos ht, hlast]
        rfl
      · simp only [if_neg ht]

end Exits

/-- The code of a condition, with each link that looks ahead for `||`. -/
theorem Condition.emit_cons (first : Link) (rest : Condition) (target : Label) (truth : Bool) :
    Condition.emit value (first :: rest) target truth = (do
      let ifFalse ← if truth then freshLabel else pure target
      let exits : Exits := ⟨target, truth, ifFalse⟩
      let firstFalse ← exits.falseLabel rest
      exits.link value first rest firstFalse
      exits.links value firstFalse rest
      if truth then label ifFalse else pure ()) := by
  have h : Condition.segments rest = 0 + 1 + rest.countP fun k => k.connector = .or := by
    rw [Condition.segments, Nat.zero_add]
  simp only [Condition.emit, Exits.segmentLabel_eq h, Exits.segmentLinks_eq h]

def Exits.falseTo (exits : Exits) (rest : Condition) (labels : Nat) : Label :=
  if Condition.hasOr rest then .fresh labels else exits.ifFalse

@[simp] theorem Exits.falseLabel_eq_ok {exits : Exits} {rest : Condition} {r : Emitted Label} :
    exits.falseLabel rest c = .ok r ↔ r = ⟨exits.falseTo rest c.labels,
      ⟨c.height, c.labels + (Condition.hasOr rest).toNat⟩, []⟩ := by
  unfold Exits.falseLabel Exits.falseTo Condition.hasOr
  cases rest.any fun k => k.connector = .or with
  | false => simp [eq_comm]
  | true => simp

theorem Exits.links_and_eq_ok {exits : Exits} {ifFalse : Label} {k : Link} {rest : Condition}
    (hk : k.connector = .and) :
    exits.links value ifFalse (k :: rest) c = .ok r ↔
      ∃ r₁ r₂, exits.link value k rest ifFalse c = .ok r₁ ∧
        exits.links value ifFalse rest r₁.cursor = .ok r₂ ∧
        r = ⟨(), r₂.cursor, r₁.code ++ r₂.code⟩ := by
  rw [Exits.links, hk]
  simp [bind_eq_ok]

/-- The last link of a condition that jumps on truth, joined by `||`. -/
theorem Exits.links_or_last_eq_ok {exits : Exits} {ifFalse : Label} {k : Link} {rest : Condition}
    (hk : k.connector = .or) (ht : exits.truth ∧ rest.isEmpty) :
    exits.links value ifFalse (k :: rest) c = .ok r ↔
      ∃ r₁, exits.link value k rest exits.ifFalse c = .ok r₁ ∧
        r = ⟨(), r₁.cursor, .instr (.jump .always exits.target) :: .label ifFalse :: r₁.code⟩ := by
  rw [Exits.links, hk]
  simp only [if_pos ht, bind_eq_ok, jump_eq_ok, label_eq_ok]
  constructor
  · rintro ⟨_, _, rfl, ⟨_, r₁, rfl, h₁, rfl⟩, rfl⟩
    exact ⟨r₁, h₁, by simp⟩
  · rintro ⟨r₁, h₁, rfl⟩
    exact ⟨_, _, rfl, ⟨_, r₁, rfl, h₁, rfl⟩, by simp⟩

theorem Exits.links_or_eq_ok {exits : Exits} {ifFalse : Label} {k : Link} {rest : Condition}
    (hk : k.connector = .or) (ht : ¬ (exits.truth ∧ rest.isEmpty)) :
    exits.links value ifFalse (k :: rest) c = .ok r ↔
      ∃ r₁ r₂, exits.link value k rest (exits.falseTo rest (c.labels + 1))
          ⟨c.height, c.labels + 1 + (Condition.hasOr rest).toNat⟩ = .ok r₁ ∧
        exits.links value (exits.falseTo rest (c.labels + 1)) rest r₁.cursor = .ok r₂ ∧
        r = ⟨(), r₂.cursor, .instr (.jump .always (.fresh c.labels)) :: .label ifFalse ::
          (r₁.code ++ .label (.fresh c.labels) :: r₂.code)⟩ := by
  rw [Exits.links, hk]
  simp only [if_neg ht, freshLabel_bind, bind_eq_ok, jump_eq_ok, label_eq_ok,
    Exits.falseLabel_eq_ok]
  constructor
  · rintro ⟨_, _, rfl, ⟨_, _, rfl, ⟨_, _, rfl, ⟨r₁, _, h₁, ⟨_, r₂, rfl, h₂, rfl⟩, rfl⟩, rfl⟩, rfl⟩,
      rfl⟩
    exact ⟨r₁, r₂, h₁, h₂, by simp⟩
  · rintro ⟨r₁, r₂, h₁, h₂, rfl⟩
    exact ⟨_, _, rfl, ⟨_, _, rfl, ⟨_, _, rfl, ⟨r₁, _, h₁, ⟨_, r₂, rfl, h₂, rfl⟩, rfl⟩, rfl⟩, rfl⟩,
      by simp⟩

/-- Where the code of a condition goes that is emitted at a cursor. -/
def Exits.start (target : Label) (truth : Bool) (c : Cursor) : Exits :=
  ⟨target, truth, if truth then .fresh c.labels else target⟩

theorem Condition.emit_cons_eq_ok {first : Link} {rest : Condition} {target : Label}
    {truth : Bool} :
    Condition.emit value (first :: rest) target truth c = .ok r ↔
      ∃ r₁ r₂, (Exits.start target truth c).link value first rest
          ((Exits.start target truth c).falseTo rest (c.labels + truth.toNat))
          ⟨c.height, c.labels + truth.toNat + (Condition.hasOr rest).toNat⟩ = .ok r₁ ∧
        (Exits.start target truth c).links value
          ((Exits.start target truth c).falseTo rest (c.labels + truth.toNat)) rest
          r₁.cursor = .ok r₂ ∧
        r = ⟨(), r₂.cursor, r₁.code ++ (r₂.code ++
          if truth then [.label (.fresh c.labels)] else [])⟩ := by
  cases truth with
  | false =>
    simp only [Condition.emit_cons, Bool.false_eq_true, if_false, bind_eq_ok, pure_eq_ok,
      Exits.falseLabel_eq_ok]
    constructor
    · rintro ⟨_, _, rfl, ⟨_, _, rfl, ⟨r₁, _, h₁, ⟨r₂, _, h₂, rfl, rfl⟩, rfl⟩, rfl⟩, rfl⟩
      exact ⟨r₁, r₂, h₁, h₂, rfl⟩
    · rintro ⟨r₁, r₂, h₁, h₂, rfl⟩
      exact ⟨_, _, rfl, ⟨_, _, rfl, ⟨r₁, _, h₁, ⟨r₂, _, h₂, rfl, rfl⟩, rfl⟩, rfl⟩, rfl⟩
  | true =>
    simp only [Condition.emit_cons, if_true, bind_eq_ok, freshLabel_eq_ok, label_eq_ok,
      Exits.falseLabel_eq_ok]
    constructor
    · rintro ⟨_, _, rfl, ⟨_, _, rfl, ⟨r₁, _, h₁, ⟨r₂, _, h₂, rfl, rfl⟩, rfl⟩, rfl⟩, rfl⟩
      exact ⟨r₁, r₂, h₁, h₂, rfl⟩
    · rintro ⟨r₁, r₂, h₁, h₂, rfl⟩
      exact ⟨_, _, rfl, ⟨_, _, rfl, ⟨r₁, _, h₁, ⟨r₂, _, h₂, rfl, rfl⟩, rfl⟩, rfl⟩, rfl⟩

end Condition

theorem PrintItem.emit_expr_eq_ok {table : Signatures} {scope : Scope} {e : Expr} {c : Cursor}
    {r : Emitted Unit} :
    (PrintItem.expr e).emit table scope c = .ok r ↔
      ∃ r₁, e.emit table scope c = .ok r₁ ∧ 1 ≤ r₁.cursor.height ∧
        r = ⟨(), ⟨r₁.cursor.height - 1, r₁.cursor.labels⟩,
          r₁.code ++ [.instr (.pop .rax), .instr (.call PrintInt.entry)]⟩ := by
  simp only [PrintItem.emit, bind_eq_ok, pop_eq_ok, instr_eq_ok, noteInt_eq_ok]
  constructor
  · rintro ⟨r₁, _, h₁, ⟨_, _, ⟨hp, rfl⟩, ⟨_, _, rfl, rfl, rfl⟩, rfl⟩, rfl⟩
    exact ⟨r₁, h₁, hp, rfl⟩
  · rintro ⟨r₁, h₁, hp, rfl⟩
    exact ⟨r₁, _, h₁, ⟨_, _, ⟨hp, rfl⟩, ⟨_, _, rfl, rfl, rfl⟩, rfl⟩, rfl⟩

section Stmt

variable {ctx : Context} {scope : Scope} {c : Cursor} {r : Emitted Scope}

theorem Stmt.emit_exit_none_eq_ok :
    (Stmt.exit none).emit ctx scope c = .ok r ↔ r = ⟨scope, c, [.instr (.mov (.reg .rax) sysExit),
      .instr (.mov (.reg .rdi) (.int 0)), .instr .syscall]⟩ := by
  simp [Stmt.emit, exitNormally, bind_eq_ok]

theorem Stmt.emit_exit_some_eq_ok {value : Expr} :
    (Stmt.exit (some value)).emit ctx scope c = .ok r ↔
      ∃ r₁, value.emit ctx.table scope c = .ok r₁ ∧ 1 ≤ r₁.cursor.height ∧
        r = ⟨scope, ⟨r₁.cursor.height - 1, r₁.cursor.labels⟩,
          r₁.code ++ [.instr (.pop .rdi), .instr (.mov (.reg .rax) sysExit), .instr .syscall]⟩ := by
  simp only [Stmt.emit, exitWithTop, bind_eq_ok, pop_eq_ok, instrs_eq_ok, pure_eq_ok]
  constructor
  · rintro ⟨r₁, _, h₁, ⟨_, _, ⟨_, _, ⟨hp, rfl⟩, rfl, rfl⟩, rfl, rfl⟩, rfl⟩
    exact ⟨r₁, h₁, hp, rfl⟩
  · rintro ⟨r₁, h₁, hp, rfl⟩
    exact ⟨r₁, _, h₁, ⟨_, _, ⟨_, _, ⟨hp, rfl⟩, rfl, rfl⟩, rfl, rfl⟩, rfl⟩

theorem Stmt.emit_letVar_eq_ok {name : String} {value : Expr} {n : Nat} :
    (Stmt.letVar name value n).emit ctx scope c = .ok r ↔ scope.declares name = false ∧
      ∃ r₁, value.emit ctx.table scope c = .ok r₁ ∧
        r = ⟨scope.declare ⟨name, (r₁.cursor.height : Int) - 1⟩, r₁.cursor, r₁.code⟩ := by
  rw [Stmt.emit]
  cases scope.declares name <;> simp [bind_eq_ok]

theorem Stmt.emit_assign_eq_ok {name : String} {value : Expr} {n : Nat} :
    (Stmt.assign name value n).emit ctx scope c = .ok r ↔
      ∃ v r₁, scope.find? name = some v ∧ value.emit ctx.table scope c = .ok r₁ ∧
        1 ≤ r₁.cursor.height ∧
        r = ⟨scope, ⟨r₁.cursor.height - 1, r₁.cursor.labels⟩,
          r₁.code ++ [.instr (.pop .rax),
            .instr (.mov (.slot (8 * (c.height - v.slot - 1))) (.reg .rax))]⟩ := by
  simp only [Stmt.emit, bind_eq_ok, place_eq_ok, pop_eq_ok, instr_eq_ok, pure_eq_ok]
  constructor
  · rintro ⟨_, _, ⟨v, hv, rfl⟩, ⟨r₁, _, h₁, ⟨_, _, ⟨hp, rfl⟩, ⟨_, _, rfl, rfl, rfl⟩, rfl⟩, rfl⟩,
      rfl⟩
    exact ⟨v, r₁, hv, h₁, hp, rfl⟩
  · rintro ⟨v, r₁, hv, h₁, hp, rfl⟩
    exact ⟨_, _, ⟨v, hv, rfl⟩, ⟨r₁, _, h₁, ⟨_, _, ⟨hp, rfl⟩, ⟨_, _, rfl, rfl, rfl⟩, rfl⟩, rfl⟩, rfl⟩

theorem Stmt.emit_block_eq_ok {body : List Stmt} :
    (Stmt.block body).emit ctx scope c = .ok r ↔
      ∃ r₁, inScope scope (fun inner => Stmt.emitEach body ctx inner) c = .ok r₁ ∧
        r = ⟨scope, r₁.cursor, r₁.code⟩ := by
  simp [Stmt.emit, bind_eq_ok]

theorem Stmt.emit_print_eq_ok {items : List PrintItem} :
    (Stmt.print items).emit ctx scope c = .ok r ↔
      ∃ r₁, PrintItem.emitEach ctx.table scope items c = .ok r₁ ∧
        r = ⟨scope, r₁.cursor, r₁.code⟩ := by
  simp [Stmt.emit, bind_eq_ok]

theorem Stmt.emit_ifElse_eq_ok {cond : Condition} {body : Stmt} {other : ElseBranch} :
    (Stmt.ifElse cond body other).emit ctx scope c = .ok r ↔
      ∃ r₁ r₂, Condition.emit (Expr.emit ctx.table scope) cond (.fresh c.labels) false
          ⟨c.height, c.labels + 1⟩ = .ok r₁ ∧
        inScope scope (fun inner => body.emit ctx inner) r₁.cursor = .ok r₂ ∧
        if other.isAbsent then
          r = ⟨scope, r₂.cursor, r₁.code ++ (r₂.code ++ [.label (.fresh c.labels)])⟩
        else
          ∃ r₃, other.emit ctx scope (.fresh r₂.cursor.labels)
              ⟨r₂.cursor.height, r₂.cursor.labels + 1⟩ = .ok r₃ ∧
            r = ⟨scope, r₃.cursor, r₁.code ++ (r₂.code ++
              .instr (.jump .always (.fresh r₂.cursor.labels)) :: .label (.fresh c.labels) ::
                (r₃.code ++ [.label (.fresh r₂.cursor.labels)]))⟩ := by
  rw [Stmt.emit]
  cases other.isAbsent with
  | true =>
    simp only [if_true, freshLabel_bind, bind_eq_ok, label_eq_ok, pure_eq_ok]
    constructor
    · rintro ⟨r₁, _, h₁, ⟨r₂, _, h₂, ⟨_, _, rfl, rfl, rfl⟩, rfl⟩, rfl⟩
      exact ⟨r₁, r₂, h₁, h₂, rfl⟩
    · rintro ⟨r₁, r₂, h₁, h₂, rfl⟩
      exact ⟨r₁, _, h₁, ⟨r₂, _, h₂, ⟨_, _, rfl, rfl, rfl⟩, rfl⟩, rfl⟩
  | false =>
    simp only [Bool.false_eq_true, if_false, freshLabel_bind, bind_eq_ok, jump_eq_ok, label_eq_ok,
      pure_eq_ok]
    constructor
    · rintro ⟨r₁, _, h₁, ⟨r₂, _, h₂, ⟨_, _, rfl,
        ⟨_, _, rfl, ⟨r₃, _, h₃, ⟨_, _, rfl, rfl, rfl⟩, rfl⟩,
        rfl⟩, rfl⟩, rfl⟩, rfl⟩
      exact ⟨r₁, r₂, h₁, h₂, r₃, h₃, by simp⟩
    · rintro ⟨r₁, r₂, h₁, h₂, r₃, h₃, rfl⟩
      exact ⟨r₁, _, h₁, ⟨r₂, _, h₂, ⟨_, _, rfl, ⟨_, _, rfl, ⟨r₃, _, h₃, ⟨_, _, rfl, rfl, rfl⟩, rfl⟩,
        rfl⟩, rfl⟩, rfl⟩, by simp⟩

theorem Stmt.emit_whileLoop_eq_ok {cond : Condition} {body : Stmt} :
    (Stmt.whileLoop cond body).emit ctx scope c = .ok r ↔
      ∃ r₁ r₂ r₃, Condition.emit (Expr.emit ctx.table scope) cond (.fresh c.labels) false
          ⟨c.height, c.labels + 3⟩ = .ok r₁ ∧
        inScope scope (fun inner => body.emit { ctx with
          loop := some ⟨r₁.cursor.height, .fresh c.labels, .fresh (c.labels + 2)⟩ } inner)
          r₁.cursor = .ok r₂ ∧
        Condition.emit (Expr.emit ctx.table scope) cond (.fresh (c.labels + 1)) true
          r₂.cursor = .ok r₃ ∧
        r = ⟨scope, r₃.cursor, r₁.code ++ .label (.fresh (c.labels + 1)) ::
          (r₂.code ++ .label (.fresh (c.labels + 2)) ::
            (r₃.code ++ [.label (.fresh c.labels)]))⟩ := by
  simp only [Stmt.emit, freshLabel_bind, height_bind, bind_eq_ok, label_eq_ok, pure_eq_ok]
  constructor
  · rintro ⟨r₁, _, h₁, ⟨_, _, rfl, ⟨r₂, _, h₂, ⟨_, _, rfl, ⟨r₃, _, h₃, ⟨_, _, rfl, rfl, rfl⟩, rfl⟩,
      rfl⟩, rfl⟩, rfl⟩, rfl⟩
    exact ⟨r₁, r₂, r₃, h₁, h₂, h₃, by simp⟩
  · rintro ⟨r₁, r₂, r₃, h₁, h₂, h₃, rfl⟩
    exact ⟨r₁, _, h₁, ⟨_, _, rfl, ⟨r₂, _, h₂, ⟨_, _, rfl, ⟨r₃, _, h₃, ⟨_, _, rfl, rfl, rfl⟩, rfl⟩,
      rfl⟩, rfl⟩, rfl⟩, by simp⟩

theorem Stmt.emit_forLoop_ok {init step body : Stmt} {cond : Condition}
    (h : (Stmt.forLoop init cond step body).emit ctx scope c = .ok r) :
    ∃ r₀ r₁ r₂ r₃ r₄, init.emit ctx scope.nested c = .ok r₀ ∧
      Condition.emit (Expr.emit ctx.table r₀.value) cond (.fresh r₀.cursor.labels) false
        ⟨r₀.cursor.height, r₀.cursor.labels + 3⟩ = .ok r₁ ∧
      inScope r₀.value (fun inner => body.emit { ctx with
        loop := some ⟨r₁.cursor.height, .fresh r₀.cursor.labels,
          .fresh (r₀.cursor.labels + 2)⟩ } inner) r₁.cursor = .ok r₂ ∧
      inScope r₀.value (fun inner => step.emit ctx inner) r₂.cursor = .ok r₃ ∧
      Condition.emit (Expr.emit ctx.table r₀.value) cond (.fresh (r₀.cursor.labels + 1)) true
        r₃.cursor = .ok r₄ ∧
      r₄.cursor.height = c.height + r₀.value.own.length ∧
      r = ⟨scope, ⟨c.height, r₄.cursor.labels⟩,
        r₀.code ++ (r₁.code ++ .label (.fresh (r₀.cursor.labels + 1)) ::
          (r₂.code ++ .label (.fresh (r₀.cursor.labels + 2)) ::
            (r₃.code ++ (r₄.code ++ .label (.fresh r₀.cursor.labels) ::
              dropping r₀.value.own.length))))⟩ := by
  rw [Stmt.emit, bind_eq_ok] at h
  obtain ⟨_, _, h, h', rfl⟩ := h
  obtain ⟨r', hb, hl, rfl⟩ := inScope_eq_ok.1 h
  rw [pure_eq_ok] at h'
  subst h'
  simp only [freshLabel_bind, height_bind, bind_eq_ok, label_eq_ok, pure_eq_ok] at hb
  obtain ⟨r₀, _, h₀, ⟨r₁, _, h₁, ⟨_, _, rfl, ⟨r₂, _, h₂, ⟨_, _, rfl, ⟨r₃, _, h₃, ⟨r₄, _, h₄,
    ⟨_, _, rfl, rfl, rfl⟩, rfl⟩, rfl⟩, rfl⟩, rfl⟩, rfl⟩, rfl⟩, rfl⟩ := hb
  exact ⟨r₀, r₁, r₂, r₃, r₄, h₀, h₁, h₂, h₃, h₄, hl, by simp⟩

theorem Stmt.emit_function_eq_ok {name : String} {params : List String} {body : Stmt} {n : Nat} :
    (Stmt.function name params body n).emit ctx scope c = .ok r ↔
      scope.find? name = none ∧ r = ⟨scope, c, []⟩ := by
  rw [Stmt.emit]
  cases scope.find? name with
  | none => simp [bind_eq_ok]
  | some v => simp

theorem Stmt.emit_ret_none_eq_ok {inFunction : Bool} {n : Nat} :
    (Stmt.ret none inFunction n).emit ctx scope c = .ok r ↔
      (inFunction ∧ ctx.inFunction) ∧
        r = ⟨scope, c, .instr (.mov (.reg .rax) (.int 0)) ::
          (dropping c.height ++ [.instr .ret])⟩ := by
  rw [Stmt.emit]
  split <;> simp_all [bind_eq_ok]

theorem Stmt.emit_ret_some_eq_ok {value : Expr} {inFunction : Bool} {n : Nat} :
    (Stmt.ret (some value) inFunction n).emit ctx scope c = .ok r ↔
      (inFunction ∧ ctx.inFunction) ∧ ∃ r₁, value.emit ctx.table scope c = .ok r₁ ∧
        1 ≤ r₁.cursor.height ∧
        r = ⟨scope, ⟨r₁.cursor.height - 1, r₁.cursor.labels⟩, r₁.code ++ .instr (.pop .rax) ::
          (dropping (r₁.cursor.height - 1) ++ [.instr .ret])⟩ := by
  rw [Stmt.emit]
  by_cases hf : inFunction ∧ ctx.inFunction
  · simp only [if_pos hf, bind_eq_ok, pop_eq_ok, height_eq_ok, unwind_eq_ok, instr_eq_ok,
      pure_eq_ok]
    constructor
    · rintro ⟨r₁, _, h₁, ⟨_, _, ⟨hp, rfl⟩,
        ⟨_, _, rfl, ⟨_, _, rfl, ⟨_, _, rfl, rfl, rfl⟩, rfl⟩, rfl⟩,
        rfl⟩, rfl⟩
      exact ⟨hf, r₁, h₁, hp, by simp⟩
    · rintro ⟨-, r₁, h₁, hp, rfl⟩
      exact ⟨r₁, _, h₁, ⟨_, _, ⟨hp, rfl⟩, ⟨_, _, rfl, ⟨_, _, rfl, ⟨_, _, rfl, rfl, rfl⟩, rfl⟩, rfl⟩,
        rfl⟩, by simp⟩
  · simp [hf]

theorem Stmt.emit_call_eq_ok {name : String} {args : List Expr} {n : Nat} :
    (Stmt.call name args n).emit ctx scope c = .ok r ↔
      ∃ r₁, Emit.call ctx.table name args.length n (Expr.emitEach ctx.table scope args) c = .ok r₁ ∧
        r = ⟨scope, r₁.cursor, r₁.code⟩ := by
  simp [Stmt.emit, bind_eq_ok]

theorem Loop.leave_eq_ok {loop : Loop} {target : Label} {r : Emitted Unit} :
    loop.leave target c = .ok r ↔ loop.height ≤ c.height ∧
      r = ⟨(), c, dropping (c.height - loop.height) ++ [.instr (.jump .always target)]⟩ := by
  rw [Loop.leave, height_bind]
  by_cases hh : loop.height ≤ c.height <;> simp [hh, bind_eq_ok]

theorem Stmt.emit_breakLoop_eq_ok {n : Nat} :
    (Stmt.breakLoop n).emit ctx scope c = .ok r ↔ ∃ loop, ctx.loop = some loop ∧
      loop.height ≤ c.height ∧ r = ⟨scope, c, dropping (c.height - loop.height) ++
        [.instr (.jump .always loop.breakTo)]⟩ := by
  rw [Stmt.emit]
  cases ctx.loop <;> simp [bind_eq_ok, Loop.leave_eq_ok, and_assoc]

theorem Stmt.emit_continueLoop_eq_ok {n : Nat} :
    (Stmt.continueLoop n).emit ctx scope c = .ok r ↔ ∃ loop, ctx.loop = some loop ∧
      loop.height ≤ c.height ∧ r = ⟨scope, c, dropping (c.height - loop.height) ++
        [.instr (.jump .always loop.continueTo)]⟩ := by
  rw [Stmt.emit]
  cases ctx.loop <;> simp [bind_eq_ok, Loop.leave_eq_ok, and_assoc]

theorem Stmt.emitEach_cons_eq_ok {s : Stmt} {ss : List Stmt} :
    Stmt.emitEach (s :: ss) ctx scope c = .ok r ↔
      ∃ r₁ r₂, s.emit ctx scope c = .ok r₁ ∧ Stmt.emitEach ss ctx r₁.value r₁.cursor = .ok r₂ ∧
        r = ⟨r₂.value, r₂.cursor, r₁.code ++ r₂.code⟩ := by
  simp [Stmt.emitEach, bind_eq_ok]

theorem Stmt.emitEach_nil_eq_ok :
    Stmt.emitEach [] ctx scope c = .ok r ↔ r = ⟨scope, c, []⟩ := by
  simp [Stmt.emitEach, eq_comm]

theorem ElseBranch.emit_elseIf_eq_ok {cond : Condition} {body : Stmt} {next : ElseBranch}
    {done : Label} {r : Emitted Unit} :
    (ElseBranch.elseIf cond body next).emit ctx scope done c = .ok r ↔
      ∃ r₁ r₂, Condition.emit (Expr.emit ctx.table scope) cond (.fresh c.labels) false
          ⟨c.height, c.labels + 1⟩ = .ok r₁ ∧
        inScope scope (fun inner => body.emit ctx inner) r₁.cursor = .ok r₂ ∧
        if next.isAbsent then
          r = ⟨(), r₂.cursor, r₁.code ++ (r₂.code ++ [.label (.fresh c.labels)])⟩
        else
          ∃ r₃, next.emit ctx scope done r₂.cursor = .ok r₃ ∧
            r = ⟨(), r₃.cursor, r₁.code ++ (r₂.code ++
              .instr (.jump .always done) :: .label (.fresh c.labels) :: r₃.code)⟩ := by
  rw [ElseBranch.emit]
  cases next.isAbsent with
  | true =>
    simp only [if_true, freshLabel_bind, bind_eq_ok, label_eq_ok]
    constructor
    · rintro ⟨r₁, _, h₁, ⟨r₂, _, h₂, rfl, rfl⟩, rfl⟩
      exact ⟨r₁, r₂, h₁, h₂, rfl⟩
    · rintro ⟨r₁, r₂, h₁, h₂, rfl⟩
      exact ⟨r₁, _, h₁, ⟨r₂, _, h₂, rfl, rfl⟩, rfl⟩
  | false =>
    simp only [Bool.false_eq_true, if_false, freshLabel_bind, bind_eq_ok, jump_eq_ok, label_eq_ok]
    constructor
    · rintro ⟨r₁, _, h₁, ⟨r₂, _, h₂, ⟨_, _, rfl, ⟨_, r₃, rfl, h₃, rfl⟩, rfl⟩, rfl⟩, rfl⟩
      exact ⟨r₁, r₂, h₁, h₂, r₃, h₃, rfl⟩
    · rintro ⟨r₁, r₂, h₁, h₂, r₃, h₃, rfl⟩
      exact ⟨r₁, _, h₁, ⟨r₂, _, h₂, ⟨_, _, rfl, ⟨_, r₃, rfl, h₃, rfl⟩, rfl⟩, rfl⟩, rfl⟩

end Stmt

section Program

variable {table : Signatures} {c : Cursor}

theorem FunctionDecl.emit_eq_ok {f : FunctionDecl} {r : Emitted Unit} :
    f.emit table c = .ok r ↔
      ∃ r₁, inScope (.ofParams f.params) (fun scope => f.body.emit ⟨table, none, true⟩ scope)
          ⟨0, c.labels⟩ = .ok r₁ ∧
        r = ⟨(), ⟨c.height, r₁.cursor.labels⟩, .label (.function f.name) ::
          (r₁.code ++ [.instr (.mov (.reg .rax) (.int 0)), .instr .ret])⟩ := by
  simp only [FunctionDecl.emit, bind_eq_ok, enterFrame_eq_ok, label_eq_ok, instrs_eq_ok,
    leaveFrame_eq_ok]
  constructor
  · rintro ⟨_, _, rfl, ⟨_, _, rfl, ⟨r₁, _, h₁, ⟨_, _, rfl, rfl, rfl⟩, rfl⟩, rfl⟩, rfl⟩
    exact ⟨r₁, h₁, by simp⟩
  · rintro ⟨r₁, h₁, rfl⟩
    exact ⟨_, _, rfl, ⟨_, _, rfl, ⟨r₁, _, h₁, ⟨_, _, rfl, rfl, rfl⟩, rfl⟩, rfl⟩, by simp⟩

def FunctionDecl.emitEach (table : Signatures) : List FunctionDecl → Emit Unit
  | [] => pure ()
  | f :: fs => do
    f.emit table
    FunctionDecl.emitEach table fs

theorem FunctionDecl.emitEach_cons_eq_ok {f : FunctionDecl} {fs : List FunctionDecl}
    {r : Emitted Unit} :
    FunctionDecl.emitEach table (f :: fs) c = .ok r ↔
      ∃ r₁ r₂, f.emit table c = .ok r₁ ∧ FunctionDecl.emitEach table fs r₁.cursor = .ok r₂ ∧
        r = ⟨(), r₂.cursor, r₁.code ++ r₂.code⟩ := by
  simp [FunctionDecl.emitEach, bind_eq_ok]

/-- The code between the statements of a program and its functions. -/
def Program.ending (p : Program) : Code :=
  if p.endsWithExit then []
  else [.instr (.mov (.reg .rax) sysExit), .instr (.mov (.reg .rdi) (.int 0)), .instr .syscall]

theorem Program.emitMain_eq_ok {p : Program} {r : Emitted Unit} :
    p.emitMain table c = .ok r ↔
      ∃ r₁, Stmt.emitEach p ⟨table, none, false⟩ .empty c = .ok r₁ ∧
        r = ⟨(), r₁.cursor, .directive "global _start" :: .directive "section .text" ::
          .label (.named "_start") :: (r₁.code ++ p.ending)⟩ := by
  unfold Program.emitMain Program.ending
  cases p.endsWithExit with
  | true =>
    simp only [if_true, bind_eq_ok, directive_eq_ok, label_eq_ok, pure_eq_ok]
    constructor
    · rintro ⟨_, _, rfl, ⟨_, _, rfl, ⟨_, _, rfl, ⟨r₁, _, h₁, rfl, rfl⟩, rfl⟩, rfl⟩, rfl⟩
      exact ⟨r₁, h₁, rfl⟩
    · rintro ⟨r₁, h₁, rfl⟩
      exact ⟨_, _, rfl, ⟨_, _, rfl, ⟨_, _, rfl, ⟨r₁, _, h₁, rfl, rfl⟩, rfl⟩, rfl⟩, rfl⟩
  | false =>
    simp only [Bool.false_eq_true, if_false, bind_eq_ok, directive_eq_ok, label_eq_ok, exitNormally,
      instrs_eq_ok]
    constructor
    · rintro ⟨_, _, rfl, ⟨_, _, rfl, ⟨_, _, rfl, ⟨r₁, _, h₁, rfl, rfl⟩, rfl⟩, rfl⟩, rfl⟩
      exact ⟨r₁, h₁, rfl⟩
    · rintro ⟨r₁, h₁, rfl⟩
      exact ⟨_, _, rfl, ⟨_, _, rfl, ⟨_, _, rfl, ⟨r₁, _, h₁, rfl, rfl⟩, rfl⟩, rfl⟩, rfl⟩

/-- The code of a program but for the routine that writes integers, its functions by depth. -/
def Program.emit (table : Signatures) (p : Program) : Emit Unit := do
  p.emitMain table
  FunctionDecl.emitEach table p.functionsByDepth

theorem Program.emit_eq_ok {p : Program} {r : Emitted Unit} :
    p.emit table c = .ok r ↔
      ∃ r₁ r₂, Stmt.emitEach p ⟨table, none, false⟩ .empty c = .ok r₁ ∧
        FunctionDecl.emitEach table p.functionsByDepth r₁.cursor = .ok r₂ ∧
        r = ⟨(), r₂.cursor, .directive "global _start" :: .directive "section .text" ::
          .label (.named "_start") :: (r₁.code ++ (p.ending ++ r₂.code))⟩ := by
  simp only [Program.emit, bind_eq_ok, emitMain_eq_ok]
  constructor
  · rintro ⟨_, r₂, ⟨r₁, h₁, rfl⟩, h₂, rfl⟩
    exact ⟨r₁, r₂, h₁, h₂, by simp⟩
  · rintro ⟨r₁, r₂, h₁, h₂, rfl⟩
    exact ⟨_, r₂, ⟨r₁, h₁, rfl⟩, h₂, by simp⟩

section Pending

/-- What is met while code is made for functions met before is what stands in them, so that all
functions come by depth. -/
theorem Program.emitMet_eq (next : Nat) (d : Draft) : Program.emitMet table next d =
    (FunctionDecl.emitEach table (FunctionDecl.breadthFirst (d.met.drop next))).run d := by
  fun_induction Program.emitMet table next d with
  | case1 next d hf =>
    rw [List.drop_eq_nil_of_le (List.getElem?_eq_none_iff.1 hf), FunctionDecl.breadthFirst]
    rfl
  | case2 next d f hf e d' hr =>
    obtain ⟨hn, rfl⟩ := List.getElem?_eq_some_iff.1 hf
    rw [List.drop_eq_getElem_cons hn, FunctionDecl.breadthFirst]
    change _ = EStateM.bind _ _ d
    rw [EStateM.bind, hr]
  | case3 next d f hf u d' hr ih =>
    obtain ⟨hn, rfl⟩ := List.getElem?_eq_some_iff.1 hf
    rw [List.drop_eq_getElem_cons hn, FunctionDecl.breadthFirst]
    change _ = EStateM.bind _ _ d
    rw [EStateM.bind, hr, ih, FunctionDecl.met_run hr,
      List.drop_append_of_le_length (by omega)]

theorem FunctionDecl.breadthFirst_eq (fs : List FunctionDecl) : FunctionDecl.breadthFirst fs =
    fs ++ (FunctionDecl.breadthFirst fs).flatMap fun f => f.body.outerFunctions := by
  fun_induction FunctionDecl.breadthFirst fs with
  | case1 => rfl
  | case2 f fs ih =>
    rw [List.flatMap_cons, List.cons_append, ← List.append_assoc, ← ih]

theorem Emit.Notes.main (p : Program) : Notes (Stmt.outerFunctionsEach p) (p.emitMain table) := by
  refine before directive fun _ => before directive fun _ => before label fun _ =>
    after (stmts p) fun _ => ?_
  split
  · exact pure
  · exact exitNormally

theorem Emit.Notes.functions (fs : List FunctionDecl) :
    Notes (fs.flatMap fun f => f.body.outerFunctions) (FunctionDecl.emitEach table fs) := by
  induction fs with
  | nil => exact pure
  | cons f fs ih => exact bind (function f) fun _ => ih

theorem Emit.Notes.program (p : Program) : Notes p.functionsByDepth (p.emit table) := by
  rw [Program.functionsByDepth, FunctionDecl.breadthFirst_eq]
  exact bind (main p) fun _ => functions _

/-- All that is done for a program: the code of its functions comes by depth, and the routine comes
last if some code calls it. -/
theorem Program.generate_eq (p : Program) : p.generate table (.blank .start) =
    match (p.emit table).run (.blank .start) with
    | .ok _ d => .ok () { d with
        code := if d.code.contains (.instr (.call PrintInt.entry)) then d.code ++ PrintInt.code
          else d.code }
    | .error e d => .error e d := by
  have hemit : (p.emit table).run (.blank .start) =
      match (p.emitMain table).run (.blank .start) with
      | .ok _ d => (FunctionDecl.emitEach table p.functionsByDepth).run d
      | .error e d => .error e d := by
    change EStateM.bind _ _ _ = _
    unfold EStateM.bind
    cases (p.emitMain table).run (.blank .start) <;> rfl
  rw [hemit]
  unfold Program.generate
  simp only [bind, EStateM.bind]
  cases hr : (p.emitMain table).run (.blank .start) with
  | error e d => rfl
  | ok u d =>
    dsimp only
    rw [Program.emitMet_eq, List.drop_zero, (Emit.Notes.main p _ _ _ hr).1,
      ← Program.functionsByDepth]
    rw [hr] at hemit
    cases hs : (FunctionDecl.emitEach table p.functionsByDepth).run d with
    | error e d' => rfl
    | ok u' d' =>
      have hint := (Emit.Notes.program p _ _ _ (hemit.trans hs)).2
      change (if d'.writesInt then (lines PrintInt.code).run else pure ()) d' = _
      by_cases hw : d'.writesInt
      · rw [if_pos hw, lines_run]
        simp [hint.1 hw]
      · rw [if_neg hw]
        simp only [List.contains_iff_mem, mt hint.2 hw, if_false]
        rfl

end Pending

theorem Program.code_eq (p : Program) : p.code table = (do
    let r ← p.emit table .start
    return if r.code.contains (.instr (.call PrintInt.entry)) then r.code ++ PrintInt.code
      else r.code) := by
  unfold Program.code Emit.apply
  rw [Program.generate_eq]
  cases (p.emit table).run (.blank .start) <;> rfl

theorem Program.code_eq_ok {p : Program} {code : Code} :
    p.code table = .ok code ↔ ∃ r, p.emit table .start = .ok r ∧
      code = if r.code.contains (.instr (.call PrintInt.entry)) then r.code ++ PrintInt.code
        else r.code := by
  rw [Program.code_eq]
  cases p.emit table .start with
  | error e => simp [bind, Except.bind]
  | ok r => simp [bind, Except.bind, pure, Except.pure, eq_comm]

theorem Except.bind_eq_ok {ε α β : Type} {x : Except ε α} {f : α → Except ε β} {b : β} :
    x.bind f = .ok b ↔ ∃ a, x = .ok a ∧ f a = .ok b := by
  cases x <;> simp [Except.bind]

theorem Program.assemble_eq_ok {p : Program} {assembly : String} : p.assemble = .ok assembly ↔
    ∃ table code, Signatures.ofProgram p = .ok table ∧ p.code table = .ok code ∧
      assembly = Code.render code := by
  constructor
  · intro h
    obtain ⟨table, ht, h⟩ := Except.bind_eq_ok.1 h
    obtain ⟨code, hc, h⟩ := Except.bind_eq_ok.1 h
    exact ⟨table, code, ht, hc, (Except.ok.inj h).symm⟩
  · rintro ⟨table, code, ht, hc, rfl⟩
    exact Except.bind_eq_ok.2 ⟨table, ht, Except.bind_eq_ok.2 ⟨code, hc, rfl⟩⟩

end Program

theorem compile_result (source : String) :
    (compile source).result = (Program.ofScan (Scan.ofText source)).bind Program.assemble := by
  unfold compile
  dsimp only
  split
  next h => exact h.symm
  next h => exact h.symm

theorem compile_eq_ok {source assembly : String} : (compile source).result = .ok assembly ↔
    ∃ p, Program.ofScan (Scan.ofText source) = .ok p ∧ p.assemble = .ok assembly := by
  rw [compile_result, Except.bind_eq_ok]

/-- A text is accepted if code is emitted for it. -/
theorem exists_assembly {α : Type} {source : String} {f : Program → α} {a : α}
    (h : ((Program.ofScan (Scan.ofText source)).bind fun p =>
      (Signatures.ofProgram p).bind fun table =>
      (p.code table).bind fun _ => .ok (f p)) = .ok a) :
    ∃ p assembly, Program.ofScan (Scan.ofText source) = .ok p ∧
      (compile source).result = .ok assembly ∧ f p = a := by
  obtain ⟨p, hp, h⟩ := Except.bind_eq_ok.1 h
  obtain ⟨table, ht, h⟩ := Except.bind_eq_ok.1 h
  obtain ⟨code, hc, h⟩ := Except.bind_eq_ok.1 h
  have ha := Program.assemble_eq_ok.2 ⟨table, code, ht, hc, rfl⟩
  exact ⟨p, _, hp, compile_eq_ok.2 ⟨p, hp, ha⟩, Except.ok.inj h⟩

end Stackwise
