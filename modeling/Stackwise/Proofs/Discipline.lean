import Stackwise.Proofs.Depth
import Mathlib

/-! The stack discipline of whole programs: one depth of the stack at every line. -/
namespace Stackwise

open Emit

namespace Code

/-- What was last moved to `rax`. -/
def lastRax? (before : Code) : Option Operand :=
  before.reverse.findSome? fun
    | .instr (.mov (.reg .rax) src) => some src
    | _ => none

/-- The function in whose code the last of the lines stands; there is none in the code before all
functions. -/
def function? (lines : Code) : Option String :=
  lines.reverse.findSome? fun
    | .label (.function name) => some name
    | _ => none

/-- Whether control goes on from a line after `before` to the next one.  It does not from a system
call that ends the program. -/
def goesOn (before : Code) (l : Line) : Bool :=
  !l.stops && !(l = .instr .syscall && before.lastRax? = some sysExit)

/-- Depths of the stack, one for every line, that agree along all ways of control. -/
structure Depths (fs : List FunctionDecl) (code : Code) (depth : Nat → Nat) : Prop where
  entry : ∀ i, code[i]? = some (.label (.named "_start")) → depth i = 0
  function : ∀ i name, code[i]? = some (.label (.function name)) → depth i = 0
  next : ∀ i l, code[i]? = some l → goesOn (code.take i) l → i + 1 < code.length ∧
    ∃ e : Int, l.effect? = some e ∧ (depth (i + 1) : Int) = depth i + e
  jump : ∀ i kind target, code[i]? = some (.instr (.jump kind target)) →
    ∃ j, (∀ j', code[j']? = some (.label target) ↔ j' = j) ∧ depth j = depth i
  stays : ∀ i l, code[i]? = some l → ∃ e : Int, l.effect? = some e ∧ 0 ≤ depth i + e
  ret : ∀ i, code[i]? = some (.instr .ret) → depth i = 0
  slot : ∀ i l (n : Int), code[i]? = some l → .slot n ∈ l.operands → 8 ∣ n ∧
    (0 ≤ n / 8 ∧ n / 8 < depth i ∨ ∃ f ∈ fs, function? (code.take (i + 1)) = some f.name ∧
      depth i < n / 8 ∧ n / 8 ≤ depth i + f.params.length)

theorem lastRax?_append (xs ys : Code) : lastRax? (xs ++ ys) = (lastRax? ys).or (lastRax? xs) := by
  simp [lastRax?, List.findSome?_append]

theorem function?_append (xs ys : Code) :
    function? (xs ++ ys) = (function? ys).or (function? xs) := by
  simp [function?, List.findSome?_append]

theorem function?_eq_none {lines : Code} (h : ∀ name, .label (.function name) ∉ lines) :
    function? lines = none := by
  simp only [function?, List.findSome?_eq_none_iff, List.mem_reverse]
  intro l hl
  split
  next name => exact absurd hl (h name)
  next => rfl

theorem goesOn_of_append {xs ys : Code} {l : Line} (h : goesOn (xs ++ ys) l) : goesOn ys l := by
  simp only [goesOn, Bool.and_eq_true, Bool.not_eq_true', Bool.and_eq_false_imp,
    decide_eq_true_eq, decide_eq_false_iff_not] at h ⊢
  refine ⟨h.1, fun hl hr => h.2 hl ?_⟩
  rw [lastRax?_append, hr, Option.some_or]

theorem goesOn_exit {before : Code} (pre : Code) (h : lastRax? before = some sysExit) :
    goesOn (pre ++ before) (.instr .syscall) = false := by
  have hr : lastRax? (pre ++ before) = some sysExit := by rw [lastRax?_append, h, Option.some_or]
  simp [goesOn, hr]

end Code

theorem Flows.next {d d₁ d₂ : Nat} {l : Line} {pre post : List (Line × Nat)}
    (h : Flows d (pre ++ (l, d₁) :: post) d₂) (hs : l.stops = false) :
    ∃ e, l.effect? = some e ∧ ∀ x post', post = x :: post' → (x.2 : Int) = d₁ + e := by
  induction pre generalizing d with
  | nil =>
    cases h with
    | pass he hd hf =>
      refine ⟨_, he, ?_⟩
      rintro x post' rfl
      cases hf <;> exact hd
    | stop hst _ => simp [hs] at hst
  | cons y pre ih =>
    cases h with
    | pass _ _ hf => exact ih hf
    | stop _ hf => exact ih hf

theorem List.split_append {α : Type} {xs ys pre post : List α} {x : α}
    (h : xs ++ ys = pre ++ x :: post) :
    (∃ post', xs = pre ++ x :: post' ∧ post = post' ++ ys) ∨
      ∃ pre', pre = xs ++ pre' ∧ ys = pre' ++ x :: post := by
  rcases List.append_eq_append_iff.1 h with ⟨as, rfl, rfl⟩ | ⟨bs, rfl, hb⟩
  · exact .inr ⟨as, rfl, rfl⟩
  · cases bs with
    | nil => exact .inr ⟨[], by simp, by simpa using hb.symm⟩
    | cons b bs =>
      obtain ⟨rfl, rfl⟩ := List.cons_eq_cons.1 hb
      exact .inl ⟨bs, rfl, rfl⟩

structure Sound (fs : List FunctionDecl) (lines : List (Line × Nat)) : Prop where
  entry : ∀ l d, (.label l, d) ∈ lines → (∀ n, l ≠ .fresh n) → d = 0
  next : ∀ (pre : List (Line × Nat)) (l : Line) (d : Nat) (post : List (Line × Nat)),
    lines = pre ++ (l, d) :: post → Code.goesOn (pre.map Prod.fst) l →
      ∃ x post' e, post = x :: post' ∧ l.effect? = some e ∧ (x.2 : Int) = d + e
  jump : ∀ kind l d, (.instr (.jump kind l), d) ∈ lines → (.label l, d) ∈ lines
  line : ∀ (pre : List (Line × Nat)) (x : Line × Nat) (post : List (Line × Nat)),
    lines = pre ++ x :: post → ∃ arity, x.1.Allowed arity x.2 ∧
      (arity = 0 ∨ ∃ f ∈ fs, Code.function? ((pre ++ [x]).map Prod.fst) = some f.name ∧
        f.params.length = arity)

namespace Sound

variable {fs : List FunctionDecl} {lines lines' : List (Line × Nat)}

theorem next_of_flows {d d' : Nat} (hf : Flows d lines d')
    (hl : ∀ pre x, lines = pre ++ [x] → Code.goesOn (pre.map Prod.fst) x.1 = false)
    (pre : List (Line × Nat)) (l : Line) (d₁ : Nat) (post : List (Line × Nat))
    (hs : lines = pre ++ (l, d₁) :: post) (hg : Code.goesOn (pre.map Prod.fst) l) :
    ∃ x post' e, post = x :: post' ∧ l.effect? = some e ∧ (x.2 : Int) = d₁ + e := by
  subst hs
  have hst : l.stops = false := by
    simp only [Code.goesOn, Bool.and_eq_true, Bool.not_eq_true'] at hg
    exact hg.1
  obtain ⟨e, he, hn⟩ := hf.next hst
  cases post with
  | nil =>
    have := hl pre (l, d₁) rfl
    simp [hg] at this
  | cons x post => exact ⟨x, post, e, rfl, he, hn x post rfl⟩

theorem nil : Sound fs [] := ⟨by simp, by simp, by simp, by simp⟩

theorem append (h : Sound fs lines) (h' : Sound fs lines') : Sound fs (lines ++ lines') := by
  constructor
  · intro l d hx hn
    rcases List.mem_append.1 hx with hx | hx
    · exact h.entry l d hx hn
    · exact h'.entry l d hx hn
  · intro pre l d post hs hg
    rcases List.split_append hs with ⟨post', hl, rfl⟩ | ⟨pre', rfl, hr⟩
    · obtain ⟨x, post'', e, rfl, he, hd⟩ := h.next pre l d post' hl hg
      exact ⟨x, post'' ++ lines', e, rfl, he, hd⟩
    · rw [List.map_append] at hg
      exact h'.next pre' l d post hr (Code.goesOn_of_append hg)
  · intro kind l d hx
    rcases List.mem_append.1 hx with hx | hx
    · exact List.mem_append_left _ (h.jump kind l d hx)
    · exact List.mem_append_right _ (h'.jump kind l d hx)
  · intro pre x post hs
    rcases List.split_append hs with ⟨post', hl, rfl⟩ | ⟨pre', rfl, hr⟩
    · exact h.line pre x post' hl
    · obtain ⟨arity, ha, hf⟩ := h'.line pre' x post hr
      refine ⟨arity, ha, hf.imp_right ?_⟩
      rintro ⟨f, hf, hn, hp⟩
      refine ⟨f, hf, ?_, hp⟩
      rw [List.append_assoc, List.map_append, Code.function?_append, hn, Option.some_or]

end Sound

/-- Only labels that were handed out are placed. -/
theorem Emit.Places.fresh {α : Type} {c : Cursor} {r : Emitted α} (h : Places c r) {l : Label}
    (hl : .label l ∈ r.code) : ∃ n, l = .fresh n := by
  have hp := h l
  have hc := List.count_pos_iff.2 hl
  cases l with
  | fresh n => exact ⟨n, rfl⟩
  | named text =>
    simp only [Label.under] at hp
    omega
  | function name =>
    simp only [Label.under] at hp
    omega

/-- The code of a function, line by line: it begins with the function's label at depth 0, where it
returns to, and no other function's label stands in it. -/
theorem FunctionDecl.emit_flows {table : Signatures} {f : FunctionDecl} {c : Cursor}
    {r : Emitted Unit} (h : f.emit table c = .ok r) :
    ∃ body : List (Line × Nat),
      r.code = .label (.function f.name) :: (body.map Prod.fst ++ [.instr .ret]) ∧
      Flows 0 ((.label (.function f.name), 0) :: (body ++ [(.instr .ret, 0)])) 0 ∧
      (∀ x ∈ body, x.1.Allowed f.params.length x.2) ∧
      (∀ kind l d, (.instr (.jump kind l), d) ∈ body → (.label l, d) ∈ body) ∧
      ∀ l d, (.label l, d) ∈ body → ∃ n, l = .fresh n := by
  obtain ⟨r₁, h₁, rfl⟩ := FunctionDecl.emit_eq_ok.1 h
  have hs := Emit.inScope_steady h₁ fun r₂ h₂ => (Stmt.emit_grows f.body h₂).2
  have hb : Balanced [] [] f.params.length 0 r₁.code 0 :=
    Emit.inScope_balanced (c := ⟨0, c.labels⟩) h₁ fun r₂ h₂ =>
      Stmt.emit_balanced f.body h₂ (Scope.laid_ofParams f.params).nested (by simp [Context.Within])
  have hq : Balanced [] [] f.params.length 0 [.instr (.mov (.reg .rax) (.int 0))] 0 := .quiet _ rfl
  obtain ⟨body, hc, hf, ha, hj, -⟩ := hb.append hq
  refine ⟨body, by simp [hc], .pass rfl (by simp) (hf.append (.stop rfl .nil)), ha, ?_, ?_⟩
  · exact fun kind l d hx => (hj kind l d hx).resolve_right (List.not_mem_nil)
  · intro l d hx
    have hm : .label l ∈ r₁.code := by
      have := List.mem_map_of_mem (f := Prod.fst) hx
      rw [hc] at this
      simpa using this
    exact hs.places.fresh hm

theorem FunctionDecl.emit_sound {table : Signatures} {f : FunctionDecl} {fs : List FunctionDecl}
    {c : Cursor} {r : Emitted Unit} (h : f.emit table c = .ok r) (hfs : f ∈ fs) :
    ∃ lines, lines.map Prod.fst = r.code ∧ Sound fs lines := by
  obtain ⟨body, hc, hf, ha, hj, hl⟩ := FunctionDecl.emit_flows h
  refine ⟨(.label (.function f.name), 0) :: (body ++ [(.instr .ret, 0)]), by simp [hc],
    ?_, ?_, ?_, ?_⟩
  · intro l d hx hn
    simp only [List.mem_cons, Prod.mk.injEq, List.mem_append, List.not_mem_nil, reduceCtorEq,
      false_and, or_false] at hx
    rcases hx with hx | hx
    · exact hx.2
    · obtain ⟨n, rfl⟩ := hl l d hx
      exact absurd rfl (hn n)
  · refine Sound.next_of_flows hf ?_
    intro pre x hx
    rw [← List.cons_append] at hx
    obtain ⟨-, hx⟩ := List.append_inj' hx rfl
    obtain rfl := List.singleton_inj.1 hx
    rfl
  · intro kind l d hx
    simp only [List.mem_cons, Prod.mk.injEq, List.mem_append, List.not_mem_nil, reduceCtorEq,
      Line.instr.injEq, false_and, or_false, false_or] at hx
    simp [hj kind l d hx]
  · intro pre x post hx
    refine ⟨f.params.length, ?_, .inr ⟨f, hfs, ?_, rfl⟩⟩
    · have hm : x ∈ (.label (.function f.name), 0) :: (body ++ [(.instr .ret, 0)]) := by simp [hx]
      simp only [List.mem_cons, List.mem_append, List.not_mem_nil, or_false] at hm
      rcases hm with rfl | hm | rfl
      · exact (Line.quiet.allowed rfl _ _).2
      · exact ha x hm
      · exact ⟨⟨0, rfl, le_rfl⟩, by simp, by simp [Line.operands, Instr.operands]⟩
    · cases pre with
      | nil =>
        obtain ⟨rfl, -⟩ := List.cons_eq_cons.1 hx
        rfl
      | cons y pre =>
        obtain ⟨rfl, hb⟩ := List.cons_eq_cons.1 hx
        have hb : body ++ [(.instr .ret, 0)] = pre ++ [x] ++ post := by simpa using hb
        have hn : Code.function? (List.map Prod.fst (pre ++ [x])) = none := by
          refine Code.function?_eq_none fun name hm => ?_
          obtain ⟨⟨l, d⟩, hm, rfl⟩ := List.mem_map.1 hm
          have hm' : (Line.label (.function name), d) ∈ body ++ [(.instr .ret, 0)] :=
            hb ▸ List.mem_append_left post hm
          simp only [List.mem_append, List.mem_cons, Prod.mk.injEq, List.not_mem_nil, reduceCtorEq,
            false_and, or_false] at hm'
          obtain ⟨n, hn⟩ := hl _ _ hm'
          cases hn
        have hs : List.map Prod.fst ((Line.label (.function f.name), 0) :: pre ++ [x]) =
            [.label (.function f.name)] ++ List.map Prod.fst (pre ++ [x]) := rfl
        rw [hs, Code.function?_append, hn]
        rfl

theorem FunctionDecl.emitEach_sound {table : Signatures} {fs : List FunctionDecl}
    (gs : List FunctionDecl) : ∀ {c : Cursor} {r : Emitted Unit},
      FunctionDecl.emitEach table gs c = .ok r → gs ⊆ fs →
      ∃ lines, lines.map Prod.fst = r.code ∧ Sound fs lines := by
  induction gs with
  | nil =>
    intro c r h _
    rw [FunctionDecl.emitEach, pure_eq_ok] at h
    subst h
    exact ⟨[], rfl, .nil⟩
  | cons g gs ih =>
    intro c r h hs
    obtain ⟨r₁, r₂, h₁, h₂, rfl⟩ := FunctionDecl.emitEach_cons_eq_ok.1 h
    obtain ⟨lines₁, hc₁, hs₁⟩ := FunctionDecl.emit_sound h₁ (hs List.mem_cons_self)
    obtain ⟨lines₂, hc₂, hs₂⟩ := ih h₂ fun f hf => hs (List.mem_cons_of_mem _ hf)
    exact ⟨lines₁ ++ lines₂, by simp [hc₁, hc₂], hs₁.append hs₂⟩

namespace Program

variable {p : Program} {table : Signatures}

theorem emitEach_ends_with_exit (he : p.endsWithExit) :
    ∀ {ctx : Context} {scope : Scope} {c : Cursor}
    {r : Emitted Scope}, Stmt.emitEach p ctx scope c = .ok r →
      ∃ before, r.code = before ++ [.instr .syscall] ∧ Code.lastRax? before = some sysExit := by
  induction p with
  | nil => simp [endsWithExit] at he
  | cons s ss ih =>
    intro ctx scope c r h
    obtain ⟨r₁, r₂, h₁, h₂, rfl⟩ := Stmt.emitEach_cons_eq_ok.1 h
    cases ss with
    | nil =>
      obtain ⟨value, rfl⟩ : ∃ value, s = .exit value := by
        cases s <;> simp_all [endsWithExit]
      rw [Stmt.emitEach_nil_eq_ok] at h₂
      subst h₂
      cases value with
      | none =>
        rw [Stmt.emit_exit_none_eq_ok] at h₁
        subst h₁
        exact ⟨[.instr (.mov (.reg .rax) sysExit), .instr (.mov (.reg .rdi) (.int 0))], rfl, rfl⟩
      | some e =>
        obtain ⟨r₂, -, -, rfl⟩ := Stmt.emit_exit_some_eq_ok.1 h₁
        refine ⟨r₂.code ++ [.instr (.pop .rdi), .instr (.mov (.reg .rax) sysExit)], by simp, ?_⟩
        rw [Code.lastRax?_append]
        rfl
    | cons s' ss =>
      obtain ⟨before, hb, hr⟩ := ih (by simpa [endsWithExit] using he) h₂
      exact ⟨r₁.code ++ before, by simp [hb], by rw [Code.lastRax?_append, hr, Option.some_or]⟩

/-- The code before the functions ends the program. -/
theorem code_ends_with_exit {c : Cursor} {r : Emitted Scope}
    (h : Stmt.emitEach p ⟨table, none, false⟩ .empty c = .ok r) :
    ∃ before, r.code ++ p.ending = before ++ [.instr .syscall] ∧
      Code.lastRax? before = some sysExit := by
  cases he : p.endsWithExit with
  | true =>
    obtain ⟨before, hb, hr⟩ := emitEach_ends_with_exit he h
    exact ⟨before, by simp [ending, he, hb], hr⟩
  | false =>
    refine ⟨r.code ++ [.instr (.mov (.reg .rax) sysExit), .instr (.mov (.reg .rdi) (.int 0))],
      by simp [ending, he], ?_⟩
    rw [Code.lastRax?_append]
    rfl

theorem main_sound {fs : List FunctionDecl} {r : Emitted Scope}
    (h : Stmt.emitEach p ⟨table, none, false⟩ .empty .start = .ok r) :
    ∃ lines, lines.map Prod.fst = .directive "global _start" :: .directive "section .text" ::
      .label (.named "_start") :: (r.code ++ p.ending) ∧ Sound fs lines := by
  have hb : Balanced [] [] 0 0 r.code r.cursor.height :=
    Stmt.emitEach_balanced p h Scope.laid_empty (by simp [Context.Within])
  have hq : Balanced [] [] 0 r.cursor.height p.ending r.cursor.height := by
    refine .quiet _ ?_
    unfold ending
    split <;> rfl
  obtain ⟨body, hc, hf, ha, hj, -⟩ := hb.append hq
  obtain ⟨before, hend, hrax⟩ := code_ends_with_exit h
  have hlab : ∀ l d, (Line.label l, d) ∈ body → ∃ n, l = .fresh n := by
    intro l d hx
    have hm : Line.label l ∈ r.code ++ p.ending := hc ▸ List.mem_map_of_mem (f := Prod.fst) hx
    rcases List.mem_append.1 hm with hm | hm
    · exact (Stmt.emitEach_grows p h).2.fresh hm
    · unfold ending at hm
      split at hm <;> simp at hm
  refine ⟨(.directive "global _start", 0) :: (.directive "section .text", 0) ::
    (.label (.named "_start"), 0) :: body, by simp [hc], ?_, ?_, ?_, ?_⟩
  · intro l d hx hn
    simp only [List.mem_cons, Prod.mk.injEq, reduceCtorEq, false_and, false_or] at hx
    rcases hx with hx | hx
    · exact hx.2
    · obtain ⟨n, rfl⟩ := hlab l d hx
      exact absurd rfl (hn n)
  · refine Sound.next_of_flows (.pass rfl (by simp) (.pass rfl (by simp) (.pass rfl (by simp) hf)))
      ?_
    intro pre x hx
    have hx := congrArg (List.map Prod.fst) hx
    simp only [List.map_cons, hc, hend, List.map_append, List.map_nil] at hx
    simp only [← List.cons_append] at hx
    obtain ⟨hpre, hlast⟩ := List.append_inj' hx rfl
    rw [← hpre, ← List.singleton_inj.1 hlast]
    exact Code.goesOn_exit [_, _, _] hrax
  · intro kind l d hx
    simp only [List.mem_cons, Prod.mk.injEq, reduceCtorEq, false_and, false_or] at hx ⊢
    exact .inr ((hj kind l d hx).resolve_right List.not_mem_nil)
  · intro pre x post hx
    refine ⟨0, ?_, .inl rfl⟩
    have hm : x ∈ (Line.directive "global _start", 0) :: (.directive "section .text", 0) ::
        (.label (.named "_start"), 0) :: body := by simp [hx]
    simp only [List.mem_cons] at hm
    rcases hm with rfl | rfl | rfl | hm
    · exact (Line.quiet.allowed rfl _ _).2
    · exact (Line.quiet.allowed rfl _ _).2
    · exact (Line.quiet.allowed rfl _ _).2
    · exact ha x hm

end Program

theorem Code.two_le_count {code : Code} {l : Line} {i j : Nat} (hi : code[i]? = some l)
    (hj : code[j]? = some l) (hij : i < j) : 2 ≤ code.count l := by
  have hb : l ∈ code.take (i + 1) := by
    refine List.mem_of_getElem? (i := i) ?_
    rw [List.getElem?_take_of_lt (Nat.lt_succ_self i), hi]
  have ha : l ∈ code.drop (i + 1) := by
    refine List.mem_of_getElem? (i := j - (i + 1)) ?_
    rw [List.getElem?_drop, Nat.add_sub_of_le hij, hj]
  have hs : code.count l = (code.take (i + 1)).count l + (code.drop (i + 1)).count l := by
    rw [← List.count_append, List.take_append_drop]
  have := List.count_pos_iff.2 hb
  have := List.count_pos_iff.2 ha
  omega

theorem Code.index_unique {code : Code} {l : Line} (hc : code.count l ≤ 1) {i j : Nat}
    (hi : code[i]? = some l) (hj : code[j]? = some l) : i = j := by
  rcases Nat.lt_trichotomy i j with hij | hij | hij
  · have := two_le_count hi hj hij
    omega
  · exact hij
  · have := two_le_count hj hi hij
    omega

theorem Sound.depths {fs : List FunctionDecl} {lines : List (Line × Nat)} (h : Sound fs lines)
    (hl : ∀ l, (lines.map Prod.fst).count (.label l) ≤ 1) :
    Code.Depths fs (lines.map Prod.fst) fun i => ((lines[i]?).map Prod.snd).getD 0 := by
  have hat {i : Nat} {l : Line} (hi : (lines.map Prod.fst)[i]? = some l) :
      lines[i]? = some (l, ((lines[i]?).map Prod.snd).getD 0) := by
    rw [List.getElem?_map, Option.map_eq_some_iff] at hi
    obtain ⟨⟨l, d⟩, hi, rfl⟩ := hi
    simp [hi]
  have hmem {i : Nat} {l : Line} (hi : (lines.map Prod.fst)[i]? = some l) :=
    List.mem_of_getElem? (hat hi)
  have hsplit {i : Nat} {l : Line} (hi : (lines.map Prod.fst)[i]? = some l) :
      lines = lines.take i ++ (l, ((lines[i]?).map Prod.snd).getD 0) :: lines.drop (i + 1) := by
    obtain ⟨hlt, hx⟩ := List.getElem?_eq_some_iff.1 (hat hi)
    rw [← hx, List.getElem_cons_drop, List.take_append_drop]
  constructor
  · exact fun i hi => h.entry _ _ (hmem hi) (by simp)
  · exact fun i name hi => h.entry _ _ (hmem hi) (by simp)
  · intro i l hi hg
    rw [← List.map_take] at hg
    obtain ⟨x, post, e, hpost, he, hd⟩ := h.next _ l _ _ (hsplit hi) hg
    have hx : lines[i + 1]? = some x := by
      have := congrArg List.head? hpost
      simpa using this
    refine ⟨by simpa using (List.getElem?_eq_some_iff.1 hx).1, e, he, ?_⟩
    simpa [hx] using hd
  · intro i kind target hi
    obtain ⟨j, hj⟩ := List.mem_iff_getElem?.1 (h.jump kind target _ (hmem hi))
    have hj' : (lines.map Prod.fst)[j]? = some (.label target) := by simp [hj]
    refine ⟨j, fun j' => ⟨fun hj'' => Code.index_unique (hl target) hj'' hj', ?_⟩, by simp [hj]⟩
    rintro rfl
    exact hj'
  · intro i l hi
    obtain ⟨arity, ha, -⟩ := h.line _ _ _ (hsplit hi)
    exact ha.effect
  · intro i hi
    obtain ⟨arity, ha, -⟩ := h.line _ _ _ (hsplit hi)
    exact ha.ret rfl
  · intro i l n hi hn
    obtain ⟨arity, ha, hf⟩ := h.line _ _ _ (hsplit hi)
    obtain ⟨hd, hr⟩ := ha.slot n hn
    refine ⟨hd, hr.imp_right fun hr => ?_⟩
    rcases hf with rfl | ⟨f, hf, hn, rfl⟩
    · omega
    · refine ⟨f, hf, ?_, hr⟩
      rwa [← List.map_take, List.take_add_one, hat hi]

/-- The code of a program has a depth at every line. -/
theorem Program.emit_depths {p : Program} {table : Signatures} {r : Emitted Unit}
    (h : p.emit table .start = .ok r) (hl : ∀ l, r.code.count (.label l) ≤ 1) :
    ∃ depth, Code.Depths p.functions r.code depth := by
  obtain ⟨r₁, r₂, h₁, h₂, rfl⟩ := Program.emit_eq_ok.1 h
  obtain ⟨lines₁, hc₁, hs₁⟩ := Program.main_sound h₁
  obtain ⟨lines₂, hc₂, hs₂⟩ :=
    FunctionDecl.emitEach_sound _ h₂ p.functionsByDepth_perm.subset
  have hc : (lines₁ ++ lines₂).map Prod.fst = .directive "global _start" ::
      .directive "section .text" :: .label (.named "_start") ::
        (r₁.code ++ (p.ending ++ r₂.code)) := by
    simp [hc₁, hc₂]
  refine ⟨_, hc ▸ (hs₁.append hs₂).depths ?_⟩
  rw [hc]
  exact hl

end Stackwise
