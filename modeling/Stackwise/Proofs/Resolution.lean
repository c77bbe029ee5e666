import Stackwise.Proofs.Honesty
import Stackwise.Proofs.Placement

/-! Which programs have a table of functions.  All functions of a program are declared in it, at
whatever position, and every call is held against them.  A function that is declared again is
reported before any call; among functions the first counts as they are written, among calls the
first to end. -/
namespace Stackwise

namespace Program

def DeclaresAt (p : Program) (path : Position) (f : FunctionDecl) : Prop :=
  Node.at? (p.map .stmt) path = some (.stmt (.function f.name f.params f.body f.line))

/-- A function is called at a position, by a statement or in an expression. -/
def CallsAt (p : Program) (path : Position) (c : CallSite) : Prop :=
  ∃ args : List Expr, args.length = c.arity ∧
    (Node.at? (p.map .stmt) path = some (.expr (.call c.name args c.line)) ∨
      Node.at? (p.map .stmt) path = some (.stmt (.call c.name args c.line)))

def DeclaresOnce (p : Program) : Prop :=
  ∀ path path' f g, p.DeclaresAt path f → p.DeclaresAt path' g → f.name = g.name → path = path'

/-- There is a function of the name, with as many parameters as the call has arguments. -/
def Answers (p : Program) (c : CallSite) : Prop :=
  ∃ path f, p.DeclaresAt path f ∧ f.name = c.name ∧ f.params.length = c.arity

/-- The first function, as they are written, whose name another one had before. -/
structure FirstRepeat (p : Program) (f earlier : FunctionDecl) (path : Position) : Prop where
  here : p.DeclaresAt path f
  before : ∃ q < path, p.DeclaresAt q earlier
  same : earlier.name = f.name
  first : ∀ q < path, ∀ g, p.DeclaresAt q g → ∀ q' < q, ∀ g', p.DeclaresAt q' g' → g'.name ≠ g.name

/-- The first call to end that no function answers. -/
structure FirstMisfit (p : Program) (c : CallSite) (path : Position) : Prop where
  here : p.CallsAt path c
  misfit : ¬ p.Answers c
  first : ∀ q c', Position.EndsBefore q path → p.CallsAt q c' → p.Answers c'

end Program

theorem FunctionDecl.ofNode?_eq_some {n : Node} {f : FunctionDecl} :
    ofNode? n = some f ↔ n = .stmt (.function f.name f.params f.body f.line) := by
  constructor
  · intro h
    unfold ofNode? at h
    split at h
    · cases h
      rfl
    · cases h
  · rintro rfl
    rfl

theorem CallSite.ofNode?_eq_some {n : Node} {c : CallSite} :
    ofNode? n = some c ↔ ∃ args : List Expr, args.length = c.arity ∧
      (n = .expr (.call c.name args c.line) ∨ n = .stmt (.call c.name args c.line)) := by
  constructor
  · intro h
    unfold ofNode? at h
    split at h
    · cases h
      exact ⟨_, rfl, .inl rfl⟩
    · cases h
      exact ⟨_, rfl, .inr rfl⟩
    · cases h
  · obtain ⟨name, arity, line⟩ := c
    rintro ⟨args, rfl, rfl | rfl⟩ <;> rfl

namespace Program

variable {p : Program} {path : Position}

theorem declaresAt_iff {f : FunctionDecl} :
    (Node.at? (p.map .stmt) path).bind FunctionDecl.ofNode? = some f ↔ p.DeclaresAt path f := by
  simp [Option.bind_eq_some_iff, FunctionDecl.ofNode?_eq_some, DeclaresAt]

theorem callsAt_iff {c : CallSite} :
    (Node.at? (p.map .stmt) path).bind CallSite.ofNode? = some c ↔ p.CallsAt path c := by
  simp only [Option.bind_eq_some_iff, CallSite.ofNode?_eq_some, CallsAt]
  constructor
  · rintro ⟨n, hn, args, ha, rfl | rfl⟩
    · exact ⟨args, ha, .inl hn⟩
    · exact ⟨args, ha, .inr hn⟩
  · rintro ⟨args, ha, hn | hn⟩
    · exact ⟨_, hn, args, ha, .inl rfl⟩
    · exact ⟨_, hn, args, ha, .inr rfl⟩

theorem functions_run (p : Program) :
    Runs (· < ·) FunctionDecl.ofNode? (p.map .stmt) p.functions :=
  (Stmt.nodesEach_run p).filterMap

theorem mem_functions {f : FunctionDecl} : f ∈ p.functions ↔ ∃ path, p.DeclaresAt path f := by
  simp only [p.functions_run.mem_iff, declaresAt_iff]

theorem mem_calls {c : CallSite} : c ∈ p.calls ↔ ∃ path, p.CallsAt path c := by
  have h : Runs Position.EndsBefore CallSite.ofNode? (p.map .stmt) p.calls := Stmt.callsEach_run p
  simp only [h.mem_iff, callsAt_iff]

theorem declaresOnce_iff : p.DeclaresOnce ↔ (p.functions.map FunctionDecl.name).Nodup := by
  simp only [p.functions_run.nodup_map_iff, declaresAt_iff]
  rfl

theorem answers_iff {c : CallSite} :
    p.Answers c ↔ ∃ f ∈ p.functions, f.name = c.name ∧ f.arity = c.arity := by
  simp only [mem_functions, Answers, FunctionDecl.arity]
  constructor
  · rintro ⟨path, f, hf, hn, ha⟩
    exact ⟨f, ⟨path, hf⟩, hn, ha⟩
  · rintro ⟨f, ⟨path, hf⟩, hn, ha⟩
    exact ⟨path, f, hf, hn, ha⟩

end Program

namespace Signatures

variable {fs : List FunctionDecl} {t : Signatures} {e : Error}

theorem get?_map_signature (hn : (fs.map FunctionDecl.name).Nodup) {name : String} {s : Signature} :
    get? (fs.map FunctionDecl.signature) name = some s ↔
      ∃ f ∈ fs, f.name = name ∧ s = f.signature := by
  constructor
  · intro h
    obtain ⟨f, hf, rfl⟩ := List.mem_map.1 (List.mem_of_find?_eq_some h)
    exact ⟨f, hf, by simpa [FunctionDecl.signature] using List.find?_some h, rfl⟩
  · rintro ⟨f, hf, rfl, rfl⟩
    cases hg : get? (fs.map FunctionDecl.signature) f.name with
    | none => exact absurd rfl (get?_eq_none.1 hg f.signature (List.mem_map_of_mem hf))
    | some s =>
      obtain ⟨g, hg', rfl⟩ := List.mem_map.1 (List.mem_of_find?_eq_some hg)
      have hname : g.name = f.name := by
        simpa [FunctionDecl.signature] using List.find?_some hg
      rw [List.inj_on_of_nodup_map hn hg' hf hname]

theorem foldlM_declare_eq_error : ∀ done : List FunctionDecl, (done.map FunctionDecl.name).Nodup →
    fs.foldlM declare (done.map FunctionDecl.signature) = .error e →
      ∃ before f after g, fs = before ++ f :: after ∧
        ((done ++ before).map FunctionDecl.name).Nodup ∧ g ∈ done ++ before ∧ g.name = f.name ∧
        e = ⟨.functionRedeclared f.name g.line, f.line⟩ := by
  induction fs with
  | nil =>
    intro done _ h
    cases h
  | cons f fs ih =>
    intro done hn h
    rw [List.foldlM_cons] at h
    cases hg : get? (done.map FunctionDecl.signature) f.name with
    | some s =>
      obtain ⟨g, hm, hname, rfl⟩ := (get?_map_signature hn).1 hg
      simp only [declare, hg, bind, Except.bind] at h
      cases h
      exact ⟨[], f, fs, g, rfl, by simpa using hn, by simpa using hm, hname, rfl⟩
    | none =>
      have hfree : f.name ∉ done.map FunctionDecl.name := by
        rintro hm
        obtain ⟨g, hgm, hname⟩ := List.mem_map.1 hm
        exact get?_eq_none.1 hg g.signature (List.mem_map_of_mem hgm) hname
      have hn' : ((done ++ [f]).map FunctionDecl.name).Nodup := by
        rw [List.map_append, List.map_singleton, ← List.concat_eq_append, List.nodup_concat]
        exact ⟨hfree, hn⟩
      simp only [declare, hg, bind, Except.bind] at h
      obtain ⟨before, f', after, g, rfl, hb, hm, hname, he⟩ :=
        ih (done ++ [f]) hn' (by simpa using h)
      refine ⟨f :: before, f', after, g, rfl, ?_, ?_, hname, he⟩
      · simpa using hb
      · simpa using hm

theorem forM_check_eq_error {calls : List CallSite} (h : calls.forM t.check = .error e) :
    ∃ before c after, calls = before ++ c :: after ∧ (∀ c' ∈ before, t.Fits c') ∧
      t.check c = .error e := by
  induction calls with
  | nil => cases h
  | cons c calls ih =>
    simp only [List.forM, bind, Except.bind] at h
    cases hc : t.check c with
    | error e' =>
      rw [hc] at h
      cases h
      exact ⟨[], c, calls, rfl, List.forall_mem_nil _, hc⟩
    | ok u =>
      rw [hc] at h
      obtain ⟨before, c', after, rfl, hb, he⟩ := ih h
      exact ⟨c :: before, c', after, rfl, List.forall_mem_cons.2 ⟨check_eq_ok hc, hb⟩, he⟩

end Signatures

namespace Program

variable {p : Program}

theorem fits_iff (hn : (p.functions.map FunctionDecl.name).Nodup) {c : CallSite} :
    Signatures.Fits (p.functions.map FunctionDecl.signature) c ↔ p.Answers c := by
  rw [Signatures.Fits, Option.map_eq_some_iff, answers_iff]
  constructor
  · rintro ⟨s, hs, ha⟩
    obtain ⟨f, hf, hname, rfl⟩ := (Signatures.get?_map_signature hn).1 hs
    exact ⟨f, hf, hname, ha⟩
  · rintro ⟨f, hf, hname, ha⟩
    exact ⟨f.signature, (Signatures.get?_map_signature hn).2 ⟨f, hf, hname, rfl⟩, ha⟩

theorem exists_firstRepeat {before after : List FunctionDecl} {f g : FunctionDecl}
    (hs : p.functions = before ++ f :: after) (hn : (before.map FunctionDecl.name).Nodup)
    (hg : g ∈ before) (hname : g.name = f.name) : ∃ path, p.FirstRepeat f g path := by
  have hrun := p.functions_run
  rw [hs] at hrun
  obtain ⟨earlier, path, rfl, hf, hmem⟩ := hrun.split
  simp only [declaresAt_iff] at hf hmem
  refine ⟨path, hf, ?_, hname, ?_⟩
  · obtain ⟨⟨q, g'⟩, hq, rfl⟩ := List.mem_map.1 hg
    exact ⟨q, (hmem q g').1 hq⟩
  · intro q hq h hh q' hq' h' hh' hsame
    rw [List.map_map] at hn
    have hm := (hmem q h).2 ⟨hq, hh⟩
    have hm' := (hmem q' h').2 ⟨hq'.trans hq, hh'⟩
    obtain ⟨rfl, -⟩ := Prod.mk.inj (List.inj_on_of_nodup_map hn hm' hm hsame)
    exact lt_irrefl _ hq'

theorem exists_firstMisfit {before after : List CallSite} {c : CallSite}
    (hs : p.calls = before ++ c :: after) (hb : ∀ c' ∈ before, p.Answers c') (hc : ¬ p.Answers c) :
    ∃ path, p.FirstMisfit c path := by
  have hrun : Runs Position.EndsBefore CallSite.ofNode? (p.map .stmt) p.calls :=
    Stmt.callsEach_run p
  rw [hs] at hrun
  obtain ⟨earlier, path, rfl, hp, hmem⟩ := hrun.split
  simp only [callsAt_iff] at hp hmem
  refine ⟨path, hp, hc, fun q c' hq hc' => ?_⟩
  exact hb c' (List.mem_map.2 ⟨(q, c'), (hmem q c').2 ⟨hq, hc'⟩, rfl⟩)

theorem FirstRepeat.not_declaresOnce {f g : FunctionDecl} {path : Position}
    (h : p.FirstRepeat f g path) : ¬ p.DeclaresOnce := by
  intro ho
  obtain ⟨q, hq, hg⟩ := h.before
  obtain rfl := ho q path g f hg h.here h.same
  exact lt_irrefl _ hq

/-- How a call is refused that no function answers. -/
def Refuses (p : Program) (c : CallSite) (e : Error) : Prop :=
  (∀ path f, p.DeclaresAt path f → f.name ≠ c.name) ∧ e = ⟨.functionUndeclared c.name, c.line⟩ ∨
    ∃ path f, p.DeclaresAt path f ∧ f.name = c.name ∧
      e = ⟨.arityMismatch c.name f.params.length c.arity, c.line⟩

theorem refuses_of_check (hn : (p.functions.map FunctionDecl.name).Nodup) {c : CallSite} {e : Error}
    (h : Signatures.check (p.functions.map FunctionDecl.signature) c = .error e) :
    p.Refuses c e ∧ ¬ p.Answers c := by
  rw [← fits_iff hn, Signatures.Fits]
  unfold Signatures.check at h
  split at h
  next hg =>
    cases h
    refine ⟨.inl ⟨fun path f hf hname => ?_, rfl⟩, by simp [hg]⟩
    have hm := mem_functions.2 ⟨path, hf⟩
    exact Signatures.get?_eq_none.1 hg f.signature (List.mem_map_of_mem hm) hname
  next s hg =>
    obtain ⟨f, hf, hname, rfl⟩ := (Signatures.get?_map_signature hn).1 hg
    obtain ⟨path, hf⟩ := mem_functions.1 hf
    split at h
    · cases h
    next ha =>
      cases h
      exact ⟨.inr ⟨path, f, hf, hname, rfl⟩, by simpa [hg] using ha⟩

/-- What is reported where there is no table. -/
theorem ofProgram_error_cases {e : Error} (h : Signatures.ofProgram p = .error e) :
    (∃ path f g, p.FirstRepeat f g path ∧ e = ⟨.functionRedeclared f.name g.line, f.line⟩) ∨
      (p.DeclaresOnce ∧ ∃ path c, p.FirstMisfit c path ∧ p.Refuses c e) := by
  rw [Signatures.ofProgram_eq] at h
  cases hf : Signatures.ofFunctions p.functions with
  | error e' =>
    rw [hf] at h
    cases h
    obtain ⟨before, f, after, g, hs, hn, hg, hname, rfl⟩ :=
      Signatures.foldlM_declare_eq_error [] List.nodup_nil hf
    obtain ⟨path, hr⟩ := exists_firstRepeat hs (by simpa using hn) (by simpa using hg) hname
    exact .inl ⟨path, f, g, hr, rfl⟩
  | ok t =>
    obtain ⟨rfl, hn⟩ := Signatures.ofFunctions_eq_ok hf
    cases hc : p.calls.forM (Signatures.check (p.functions.map FunctionDecl.signature)) with
    | ok u => simp [hf, hc, bind, Except.bind, pure, Except.pure] at h
    | error e' =>
      simp only [hf, hc, bind, Except.bind] at h
      cases h
      obtain ⟨before, c, after, hs, hb, he⟩ := Signatures.forM_check_eq_error hc
      obtain ⟨hr, hna⟩ := refuses_of_check hn he
      obtain ⟨path, hm⟩ := exists_firstMisfit hs (fun c' hc' => (fits_iff hn).1 (hb c' hc')) hna
      exact .inr ⟨declaresOnce_iff.2 hn, path, c, hm, hr⟩

end Program

/-- A program has a table of functions exactly if no two of its functions have one name and a
function answers every call; the table then has these functions and no others.  Else the first
function whose name was taken is reported or, if there is none, the first call to end that no
function answers. -/
theorem Signatures.ofProgram_exact (p : Program) :
    ((∃ t, ofProgram p = .ok t) ↔
      p.DeclaresOnce ∧ ∀ path c, p.CallsAt path c → p.Answers c) ∧
    (∀ t, ofProgram p = .ok t →
      (∀ name s, t.get? name = some s ↔ ∃ path f, p.DeclaresAt path f ∧ f.name = name ∧
        s = ⟨name, f.params.length, f.line⟩) ∧
      t.length = {path | ∃ f, p.DeclaresAt path f}.ncard) ∧
    ∀ e, ofProgram p = .error e → e.cause.kind = .semantic ∧
      ((∃ path f g, p.FirstRepeat f g path ∧ e = ⟨.functionRedeclared f.name g.line, f.line⟩ ∧
          e.cause.message =
            "Function `" ++ f.name ++ "` already declared at line " ++ Numeral.decimal g.line) ∨
        (p.DeclaresOnce ∧ ∃ path c, p.FirstMisfit c path ∧ p.Refuses c e)) := by
  refine ⟨⟨?_, ?_⟩, ?_, ?_⟩
  · rintro ⟨t, ht⟩
    obtain ⟨rfl, hn⟩ := ofProgram_eq_ok ht
    refine ⟨Program.declaresOnce_iff.2 hn, fun path c hc => ?_⟩
    exact (Program.fits_iff hn).1 (ofProgram_fits ht c (Program.mem_calls.2 ⟨path, hc⟩))
  · rintro ⟨hd, hc⟩
    cases h : ofProgram p with
    | ok t => exact ⟨t, rfl⟩
    | error e =>
      exfalso
      rcases Program.ofProgram_error_cases h with ⟨path, f, g, hr, -⟩ | ⟨-, path, c, hm, -⟩
      · exact hr.not_declaresOnce hd
      · exact hm.misfit (hc path c hm.here)
  · intro t ht
    obtain ⟨rfl, hn⟩ := ofProgram_eq_ok ht
    refine ⟨fun name s => ?_, ?_⟩
    · rw [get?_map_signature hn]
      constructor
      · rintro ⟨f, hf, rfl, rfl⟩
        obtain ⟨path, hf⟩ := Program.mem_functions.1 hf
        exact ⟨path, f, hf, rfl, rfl⟩
      · rintro ⟨path, f, hf, rfl, rfl⟩
        exact ⟨f, Program.mem_functions.2 ⟨path, hf⟩, rfl, rfl⟩
    · rw [List.length_map, p.functions_run.length_eq]
      simp only [Program.declaresAt_iff]
  · intro e he
    rcases Program.ofProgram_error_cases he with ⟨path, f, g, hr, rfl⟩ | ⟨hd, path, c, hm, hr⟩
    · exact ⟨rfl, .inl ⟨path, f, g, hr, rfl, rfl⟩⟩
    · refine ⟨?_, .inr ⟨hd, path, c, hm, hr⟩⟩
      rcases hr with ⟨-, rfl⟩ | ⟨_, _, -, -, rfl⟩ <;> rfl

/-- A second `f` is reported, although a call before it has no function at all. -/
example : Signatures.ofProgram [.call "g" [] 1, .function "f" [] (.breakLoop 2) 2,
    .block [.function "f" ["a"] (.breakLoop 3) 3]] = .error ⟨.functionRedeclared "f" 2, 3⟩ := by
  rfl

/-- Of two calls that do not fit, the one in the argument of the other is reported. -/
example : Signatures.ofProgram [.exit (some (.call "g" [.call "h" [] 2] 1))] =
    .error ⟨.functionUndeclared "h", 2⟩ := by
  rfl

end Stackwise
