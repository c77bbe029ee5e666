import Stackwise.Proofs.AcceptedAssembly
import Stackwise.Proofs.Simulation
import Mathlib

/-! Compilation preserves meaning.  Calls are dealt with by induction on how deep they nest; a
program is then what its statements are, followed by an exit. -/
namespace Stackwise

open Emit Machine Run

variable {code : Code} {E : Int64 → List UInt8 → Prop} {table : Signatures}

theorem Frame.fits_params {params : List String} {args : List Int64} {pc : Nat} {base : List Slot}
    (h : params.length = args.length) :
    (Frame.ofCall params.length pc base).Fits (.ofParams params) 0 (params.zip args).reverse := by
  refine ⟨?_, Scope.laid_ofParams params⟩
  have hz : (params.zip args).map Prod.fst = params := List.map_fst_zip (by omega)
  have hi : params.zipIdx.map Prod.fst = params := by simp
  rw [List.map_reverse, hz]
  simp only [Scope.visible, Scope.ofParams, List.nil_append, List.map_reverse, List.map_map]
  exact congrArg List.reverse hi

theorem Frame.stack_params {params : List String} {args : List Int64} {pc : Nat} {base : List Slot}
    (h : params.length = args.length) :
    (Frame.ofCall params.length pc base).stack 0 (params.zip args).reverse =
      .link pc :: ((args.map Slot.word).reverse ++ base) := by
  have hz : (params.zip args).map Prod.snd = args := List.map_snd_zip (by omega)
  have hw : Env.words (params.zip args).reverse = (args.map Slot.word).reverse := by
    rw [Env.words, List.map_reverse]
    conv_rhs => rw [← hz, List.map_map]
    rfl
  rw [Frame.stack_zero, hw]
  rfl

/-- The code of a function does what a call of the function means. -/
theorem FunctionDecl.apply_finishes {call : Calls} (hS : Surroundings code E call table)
    {f : FunctionDecl} {c : Cursor} {r : Emitted Unit} {rest post : Code}
      (h : f.emit table c = .ok r)
    (hsuf : r.code ++ post <:+ code) {bound : Nat} {args : List Int64} {stack : List Slot}
    {out : List UInt8}
    (hk : Ensures E (f.apply call bound args) (fun v out => ∀ ps : List Slot,
      ps.length = args.length → FinishesWith code E v rest (ps ++ stack) out) out) :
    FinishesFrom code E (.instr (.call (.function f.name)) :: rest)
      ((args.map Slot.word).reverse ++ stack) out := by
  obtain ⟨r₁, h₁, rfl⟩ := FunctionDecl.emit_eq_ok.1 h
  rw [List.cons_append, List.append_assoc] at hsuf
  rw [FunctionDecl.apply] at hk
  split at hk
  next hlen =>
    refine FinishesFrom.call (hS.labels _) hsuf fun pc hpc => ?_
    rw [← Frame.stack_params hlen]
    have hbody : Simulates code E (Frame.ofCall f.params.length pc stack) ⟨table, none, true⟩
        (.ofParams f.params) 0 (Action.inScope (f.body.exec call bound)) r₁.code
          (.ofParams f.params)
        0 :=
      Simulates.inScope h₁ rfl (by simp [Context.Below]) fun r₂ h₂ =>
        ⟨(Stmt.emit_grows f.body h₂).1, Stmt.emit_simulates f.body hS h₂ (by simp [Context.Below])⟩
    rw [ensures_bind] at hk
    refine hbody ((List.suffix_cons _ _).trans hsuf) (Frame.fits_params hlen) (hk.mono ?_)
    rintro ⟨flow, env⟩ out hc
    cases flow with
    | next =>
      intro hf
      rw [ensures_pure] at hc
      have hl := hf.length
      have hw := hc (Env.words env) (by simp [hl, Frame.ofCall, hlen])
      rw [← hpc] at hw
      rw [Frame.stack_zero]
      exact FinishesWith.int rfl hw.ret
    | broke => exact absurd hc ensures_fault
    | continued => exact absurd hc ensures_fault
    | returned v =>
      intro hn
      rw [ensures_pure] at hc
      have hle := hn.length_le
      have hv := (Scope.laid_ofParams f.params).length_visible
      simp only [List.length_map, hv, Nat.zero_add] at hle
      refine ⟨pc, rfl, ?_⟩
      rw [hpc]
      refine hc _ ?_
      simp only [Env.length_words, Env.oldest, List.length_drop, Frame.ofCall]
      omega
  next => exact absurd hk ensures_fault

theorem FunctionDecl.calls_finish {fs : List FunctionDecl} (hl : ∀ l, code.count (.label l) ≤ 1)
    (hp : .instr (.call PrintInt.entry) ∈ code → PrintInt.code <:+ code)
    (hfs : ∀ f ∈ fs, ∃ c r post, f.emit table c = .ok r ∧ r.code ++ post <:+ code) (bound : Nat) :
    CallsFinish code E table (FunctionDecl.calls fs bound) := by
  induction bound with
  | zero => exact fun name vs rest stack out _ hk => absurd hk ensures_fault
  | succ bound ih =>
    intro name vs rest stack out _ hk
    rw [FunctionDecl.calls, ensures_bind] at hk
    obtain ⟨f, hf, hf'⟩ := ensures_ofOption.1 hk
    obtain ⟨c, r, post, hr, hsuf⟩ := hfs f (List.mem_of_find?_eq_some hf)
    obtain rfl : f.name = name := by simpa using List.find?_some hf
    exact FunctionDecl.apply_finishes ⟨hl, ih, hp⟩ hr hsuf hf'

namespace Program

variable {p : Program}

/-- Statements that end with an `exit` do not come to their end. -/
theorem execEach_ne_next {call : Calls} {bound : Nat} (he : p.endsWithExit) {env : Env}
    {out : List UInt8} {K : Flow × Env → List UInt8 → Prop}
    (hk : Ensures E (Stmt.execEach call bound p env) K out) :
    Ensures E (Stmt.execEach call bound p env)
      (fun next out => next.1 ≠ .next ∧ K next out) out := by
  induction p generalizing env out with
  | nil => simp [endsWithExit] at he
  | cons s ss ih =>
    simp only [Stmt.execEach, Action.andThen, ensures_bind] at hk ⊢
    cases ss with
    | nil =>
      obtain ⟨value, rfl⟩ : ∃ value, s = .exit value := by
        cases s <;> simp_all [endsWithExit]
      cases value <;> simpa [Stmt.exec] using hk
    | cons s' ss =>
      refine hk.mono ?_
      rintro ⟨flow, env'⟩ out hk'
      cases flow with
      | next => exact ih (by simpa [endsWithExit] using he) hk'
      | broke => simpa using hk'
      | continued => simpa using hk'
      | returned v => simpa using hk'

theorem code_split {code : Code} (h : p.code table = .ok code) :
    ∃ r tail, p.emit table .start = .ok r ∧ code = r.code ++ tail ∧
      (.instr (.call PrintInt.entry) ∈ code → PrintInt.code <:+ code) := by
  obtain ⟨r, hr, rfl⟩ := code_eq_ok.1 h
  split
  next => exact ⟨r, PrintInt.code, hr, rfl, fun _ => List.suffix_append _ _⟩
  next hc =>
    refine ⟨r, [], hr, (List.append_nil _).symm, fun hm => absurd ?_ hc⟩
    simpa using hm

theorem functions_suffix {r : Emitted Unit} (hr : p.emit table .start = .ok r) (tail : Code)
    {f : FunctionDecl} (hf : f ∈ p.functions) :
    ∃ c r₁ post, f.emit table c = .ok r₁ ∧ r₁.code ++ post <:+ r.code ++ tail := by
  obtain ⟨r₁, r₂, -, h₂, rfl⟩ := emit_eq_ok.1 hr
  obtain ⟨c, r₃, rest, h₃, pre, hpre⟩ :=
    FunctionDecl.emitEach_mem _ h₂ (p.functionsByDepth_perm.mem_iff.2 hf)
  refine ⟨c, r₃, rest ++ tail, h₃, ?_⟩
  rw [← List.append_assoc]
  refine ⟨.directive "global _start" :: .directive "section .text" :: .label (.named "_start") ::
    (r₁.code ++ (p.ending ++ pre)), ?_⟩
  simp [← hpre]

theorem code_finishes {code : Code} (ht : Signatures.ofProgram p = .ok table)
    (h : p.code table = .ok code) {bound : Nat} {out : List UInt8}
    (hk : Ensures E (p.exec bound) (fun _ _ => False) out) :
    ∃ post, .label (.named "_start") :: post <:+ code ∧ FinishesFrom code E post [] out := by
  have hl := code_labels ht h
  obtain ⟨r, tail, hr, rfl, hp⟩ := code_split h
  have hS : Surroundings (r.code ++ tail) E (FunctionDecl.calls p.functions bound) table :=
    ⟨hl, FunctionDecl.calls_finish hl hp (fun f hf => functions_suffix hr tail hf) bound, hp⟩
  obtain ⟨r₁, r₂, h₁, h₂, rfl⟩ := emit_eq_ok.1 hr
  have hsuf : .label (.named "_start") :: (r₁.code ++ (p.ending ++ (r₂.code ++ tail))) <:+
      .directive "global _start" :: .directive "section .text" :: .label (.named "_start") ::
        (r₁.code ++ (p.ending ++ r₂.code)) ++ tail :=
    ⟨[.directive "global _start", .directive "section .text"], by simp⟩
  refine ⟨_, hsuf, ?_⟩
  rw [exec, ensures_bind] at hk
  have hf : Frame.main.Fits .empty 0 [] := ⟨rfl, Scope.laid_empty⟩
  have hend : Ensures E (Stmt.execEach (FunctionDecl.calls p.functions bound) bound p [])
      (fun next out => next.1 = .next ∧ p.endsWithExit = false ∧ E 0 out) out := by
    cases he : p.endsWithExit with
    | true =>
      refine (execEach_ne_next he hk).mono ?_
      rintro ⟨flow, env⟩ out ⟨hne, hc⟩
      cases flow with
      | next => exact absurd rfl hne
      | broke | continued | returned => exact absurd hc ensures_fault
    | false =>
      refine hk.mono ?_
      rintro ⟨flow, env⟩ out hc
      cases flow with
      | next => exact ⟨rfl, rfl, by simpa using hc⟩
      | broke | continued | returned => exact absurd hc ensures_fault
  refine Stmt.emitEach_simulates (f := Frame.main) p hS h₁ (by simp [Context.Below])
    ((List.suffix_cons _ _).trans hsuf) hf (hend.mono ?_)
  rintro ⟨flow, env⟩ out ⟨rfl, he, hx⟩ -
  simp only [ending, he]
  exact FinishesFrom.exit_zero hx

theorem code_halts {code : Code} (ht : Signatures.ofProgram p = .ok table)
    (h : p.code table = .ok code) {status : Int64} {output : List UInt8}
    (hr : p.Terminates status output) {s : State} (hs : Starts code s) :
    Halts code status output s := by
  obtain ⟨bound, hb⟩ := hr
  have hk : Ensures (fun v out => v = status ∧ out = output) (p.exec bound) (fun _ _ => False)
      [] := by
    simp [hb, Ensures]
  obtain ⟨post, hpost, hfin⟩ := code_finishes ht h hk
  obtain ⟨pc, hpc, hdrop⟩ := Code.idxOf?_label (code_labels ht h _) hpost
  obtain rfl : pc = s.pc := Option.some.inj (hpc.symm.trans hs.entry)
  obtain ⟨a, ha⟩ := hs.stack
  have hst : Stands code (.label (.named "_start") :: post) [] [] s :=
    ⟨hdrop, ⟨a, ha, trivial⟩, hs.output⟩
  refine (hfin.label s hst).trans fun t ht => .now ?_
  obtain ⟨v, hv, rfl, rfl⟩ := ht
  exact ⟨hv, rfl⟩

theorem exists_starts {code : Code} (ht : Signatures.ofProgram p = .ok table)
    (h : p.code table = .ok code) : ∃ s, Starts code s := by
  obtain ⟨r, tail, hr, hc, -⟩ := code_split h
  obtain ⟨r₁, r₂, -, -, rfl⟩ := emit_eq_ok.1 hr
  have hsuf : .label (.named "_start") :: (r₁.code ++ (p.ending ++ (r₂.code ++ tail))) <:+ code :=
    ⟨[.directive "global _start", .directive "section .text"], by simp [hc]⟩
  obtain ⟨pc, hpc, -⟩ := Code.idxOf?_label (code_labels ht h _) hsuf
  exact ⟨⟨pc, fun _ => .address 0, none, fun _ => .byte 0, []⟩, hpc, ⟨0, rfl⟩, rfl⟩

end Program

/-- The assembly of a text that is accepted, as it is read, does what the text means: it can be
started, and however it is started, if the program ends in order, so does the machine, with the same
status and having written the same bytes. -/
theorem compile_preserves_meaning {source assembly : String}
    (h : (compile source).result = .ok assembly) :
    ∃ p code, Program.ofScan (Scan.ofText source) = .ok p ∧ Code.parse? assembly = some code ∧
      (∃ s, Starts code s) ∧ ∀ status output, p.Terminates status output →
        ∀ s, Starts code s → Halts code status output s := by
  obtain ⟨p, hp, ha⟩ := compile_eq_ok.1 h
  obtain ⟨table, code, ht, hc, rfl⟩ := Program.assemble_eq_ok.1 ha
  exact ⟨p, code, hp, Program.parse?_code hp ht hc, Program.exists_starts ht hc,
    fun status output hr s hs => Program.code_halts ht hc hr hs⟩

/-- A text with a recursive function, which is called to print a value and to choose a status. -/
def factorialText : String :=
  "fn f(n) { if (n <= 0) return 1; return n * f(n - 1); } print(f(3)); exit(0 - f(2));"

set_option maxRecDepth 4000 in
theorem compile_preserves_meaning_factorialText :
    ∃ assembly code, (compile factorialText).result = .ok assembly ∧
      Code.parse? assembly = some code ∧ (∃ s, Starts code s) ∧
      ∀ s, Starts code s → Halts code (-2) [54, 10] s := by
  have hrun : ((Program.ofScan (Scan.ofText factorialText)).bind fun p =>
      (Signatures.ofProgram p).bind fun table => (p.code table).bind fun _ => .ok (p.exec 5)) =
      .ok (some (.exited (-2), [54, 10])) := by decide +kernel
  obtain ⟨p, assembly, hp, hc, hrun⟩ := exists_assembly hrun
  obtain ⟨p', code, hp', hread, hs, hh⟩ := compile_preserves_meaning hc
  obtain rfl : p = p' := Except.ok.inj (hp.symm.trans hp')
  exact ⟨assembly, code, hc, hread, hs, hh _ _ ⟨5, hrun⟩⟩

end Stackwise
