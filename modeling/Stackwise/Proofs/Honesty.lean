import Stackwise.Proofs.Reading
import Stackwise.Proofs.Boundaries
import Stackwise.Proofs.Sessions
import Mathlib

/-! What a text can be rejected for.  Reading a text and making the table of its functions leave no
condition without a link and no call that does not fit, so the places of its program that are not
allowed are faults of the text: the rejection is never internal, and it names a line of the text.
Nor does anything crash on the way. -/
namespace Stackwise

/-- The place is allowed, or else its rejection is honest. -/
def Site.Sound (lines : Nat) (table : Signatures) (s : Site) : Prop :=
  s.Allowed table ∨ s.error.Honest lines

section Tree

variable {lines : Nat}

mutual

theorem Expr.Proper.calls : (e : Expr) → e.Proper lines → ∀ c ∈ e.calls, InText lines c.line
  | .int _, _, c, hc => by simp [Expr.calls] at hc
  | .ident _ _, _, c, hc => by simp [Expr.calls] at hc
  | .paren inner, h, c, hc => Expr.Proper.calls inner h c hc
  | .call name args line, h, c, hc => by
    rcases List.mem_append.1 hc with hc | hc
    · exact Expr.ProperEach.calls args h.2 c hc
    · rw [List.mem_singleton.1 hc]
      exact h.1
  | .bin op lhs rhs, h, c, hc => by
    rcases List.mem_append.1 hc with hc | hc
    · exact Expr.Proper.calls lhs h.1 c hc
    · exact Expr.Proper.calls rhs h.2 c hc

theorem Expr.ProperEach.calls : (es : List Expr) → Expr.ProperEach lines es →
    ∀ c ∈ Expr.callsEach es, InText lines c.line
  | [], _, c, hc => by simp [Expr.callsEach] at hc
  | e :: es, h, c, hc => by
    rcases List.mem_append.1 hc with hc | hc
    · exact Expr.Proper.calls e h.1 c hc
    · exact Expr.ProperEach.calls es h.2 c hc

end

mutual

theorem Stmt.Proper.calls : (s : Stmt) → s.Proper lines → ∀ c ∈ s.calls, InText lines c.line
  | .exit value, h, c, hc => Expr.ProperEach.calls _ h c hc
  | .letVar name value line, h, c, hc => Expr.Proper.calls value h.2 c hc
  | .assign name value line, h, c, hc => Expr.Proper.calls value h.2 c hc
  | .block body, h, c, hc => Stmt.ProperEach.calls body h c hc
  | .print items, h, c, hc => Expr.ProperEach.calls _ h c hc
  | .ifElse cond body other, h, c, hc => by
    simp only [Stmt.calls, List.mem_append] at hc
    rcases hc with (hc | hc) | hc
    · exact Expr.ProperEach.calls _ h.1.2 c hc
    · exact Stmt.Proper.calls body h.2.1 c hc
    · exact ElseBranch.Proper.calls other h.2.2 c hc
  | .whileLoop cond body, h, c, hc => by
    rcases List.mem_append.1 hc with hc | hc
    · exact Expr.ProperEach.calls _ h.1.2 c hc
    · exact Stmt.Proper.calls body h.2 c hc
  | .forLoop init cond step body, h, c, hc => by
    simp only [Stmt.calls, List.mem_append] at hc
    rcases hc with ((hc | hc) | hc) | hc
    · exact Stmt.Proper.calls init h.1 c hc
    · exact Expr.ProperEach.calls _ h.2.1.2 c hc
    · exact Stmt.Proper.calls step h.2.2.1 c hc
    · exact Stmt.Proper.calls body h.2.2.2 c hc
  | .function name params body line, h, c, hc => Stmt.Proper.calls body h.2 c hc
  | .ret value inFunction line, h, c, hc => Expr.ProperEach.calls _ h.2 c hc
  | .call name args line, h, c, hc => by
    rcases List.mem_append.1 hc with hc | hc
    · exact Expr.ProperEach.calls args h.2 c hc
    · rw [List.mem_singleton.1 hc]
      exact h.1
  | .breakLoop line, h, c, hc => by simp [Stmt.calls] at hc
  | .continueLoop line, h, c, hc => by simp [Stmt.calls] at hc

theorem Stmt.ProperEach.calls : (ss : List Stmt) → Stmt.ProperEach lines ss →
    ∀ c ∈ Stmt.callsEach ss, InText lines c.line
  | [], _, c, hc => by simp [Stmt.callsEach] at hc
  | s :: ss, h, c, hc => by
    rcases List.mem_append.1 hc with hc | hc
    · exact Stmt.Proper.calls s h.1 c hc
    · exact Stmt.ProperEach.calls ss h.2 c hc

theorem ElseBranch.Proper.calls : (other : ElseBranch) → other.Proper lines →
    ∀ c ∈ other.calls, InText lines c.line
  | .absent, _, c, hc => by simp [ElseBranch.calls] at hc
  | .elseIf cond body next, h, c, hc => by
    simp only [ElseBranch.calls, List.mem_append] at hc
    rcases hc with (hc | hc) | hc
    · exact Expr.ProperEach.calls _ h.1.2 c hc
    · exact Stmt.Proper.calls body h.2.1 c hc
    · exact ElseBranch.Proper.calls next h.2.2 c hc
  | .otherwise body, h, c, hc => Stmt.Proper.calls body h c hc

end

/-- What holds of a function that stands in a tree with these calls. -/
structure FunctionDecl.Within (lines : Nat) (calls : List CallSite) (f : FunctionDecl) : Prop where
  line : InText lines f.line
  proper : f.body.Proper lines
  calls : ∀ c ∈ f.body.calls, c ∈ calls

theorem FunctionDecl.Within.mono {calls calls' : List CallSite} {f : FunctionDecl}
    (h : f.Within lines calls) (hc : ∀ c ∈ calls, c ∈ calls') : f.Within lines calls' :=
  ⟨h.line, h.proper, fun c hm => hc c (h.calls c hm)⟩

mutual

theorem Stmt.Proper.functions : (s : Stmt) → s.Proper lines →
    ∀ f ∈ s.nodes.filterMap FunctionDecl.ofNode?, f.Within lines s.calls
  | .exit _, _, f, hf | .letVar .., _, f, hf | .assign .., _, f, hf | .print _, _, f, hf
  | .ret .., _, f, hf | .call .., _, f, hf | .breakLoop _, _, f, hf | .continueLoop _, _, f,
      hf => by
    simp [Stmt.nodes, FunctionDecl.ofNode?, List.filterMap_cons] at hf
  | .block body, h, f, hf => by
    refine Stmt.ProperEach.functions body h f ?_
    simpa [Stmt.nodes, FunctionDecl.ofNode?, List.filterMap_cons] using hf
  | .ifElse cond body other, h, f, hf => by
    simp only [Stmt.nodes, FunctionDecl.ofNode?, List.filterMap_cons, List.filterMap_append,
      Node.filterMap_ofExprs, List.nil_append, List.mem_append] at hf
    rcases hf with hf | hf
    · exact (Stmt.Proper.functions body h.2.1 f hf).mono (by simp +contextual [Stmt.calls])
    · exact (ElseBranch.Proper.functions other h.2.2 f hf).mono (by simp +contextual [Stmt.calls])
  | .whileLoop cond body, h, f, hf => by
    simp only [Stmt.nodes, FunctionDecl.ofNode?, List.filterMap_cons, List.filterMap_append,
      Node.filterMap_ofExprs, List.nil_append] at hf
    exact (Stmt.Proper.functions body h.2 f hf).mono (by simp +contextual [Stmt.calls])
  | .forLoop init cond step body, h, f, hf => by
    simp only [Stmt.nodes, FunctionDecl.ofNode?, List.filterMap_cons, List.filterMap_append,
      Node.filterMap_ofExprs, List.append_nil, List.mem_append] at hf
    rcases hf with (hf | hf) | hf
    · exact (Stmt.Proper.functions init h.1 f hf).mono (by simp +contextual [Stmt.calls])
    · exact (Stmt.Proper.functions step h.2.2.1 f hf).mono (by simp +contextual [Stmt.calls])
    · exact (Stmt.Proper.functions body h.2.2.2 f hf).mono (by simp +contextual [Stmt.calls])
  | .function name params body line, h, f, hf => by
    simp only [Stmt.nodes, FunctionDecl.ofNode?, List.filterMap_cons, List.mem_cons] at hf
    rcases hf with rfl | hf
    · exact ⟨h.1, h.2, fun _ hm => hm⟩
    · exact Stmt.Proper.functions body h.2 f hf

theorem Stmt.ProperEach.functions : (ss : List Stmt) → Stmt.ProperEach lines ss →
    ∀ f ∈ (Stmt.nodesEach ss).filterMap FunctionDecl.ofNode?, f.Within lines (Stmt.callsEach ss)
  | [], _, f, hf => by simp [Stmt.nodesEach] at hf
  | s :: ss, h, f, hf => by
    rw [Stmt.nodesEach, List.filterMap_append, List.mem_append] at hf
    rcases hf with hf | hf
    · exact (Stmt.Proper.functions s h.1 f hf).mono (by simp +contextual [Stmt.callsEach])
    · exact (Stmt.ProperEach.functions ss h.2 f hf).mono (by simp +contextual [Stmt.callsEach])

theorem ElseBranch.Proper.functions : (other : ElseBranch) → other.Proper lines →
    ∀ f ∈ other.nodes.filterMap FunctionDecl.ofNode?, f.Within lines other.calls
  | .absent, _, f, hf => by simp [ElseBranch.nodes] at hf
  | .elseIf cond body next, h, f, hf => by
    simp only [ElseBranch.nodes, List.filterMap_append, Node.filterMap_ofExprs, List.nil_append,
      List.mem_append] at hf
    rcases hf with hf | hf
    · exact (Stmt.Proper.functions body h.2.1 f hf).mono (by simp +contextual [ElseBranch.calls])
    · exact (ElseBranch.Proper.functions next h.2.2 f hf).mono
        (by simp +contextual [ElseBranch.calls])
  | .otherwise body, h, f, hf => Stmt.Proper.functions body h f hf

end

end Tree

namespace Signatures

variable {lines : Nat} {table : Signatures} {e : Error}

theorem foldlM_declare_error {fs : List FunctionDecl} (hf : ∀ f ∈ fs, InText lines f.line) :
    ∀ {t : Signatures}, fs.foldlM declare t = .error e → e.Honest lines := by
  induction fs with
  | nil =>
    intro t h
    simp [pure, Except.pure] at h
  | cons f fs ih =>
    intro t h
    rw [List.foldlM_cons] at h
    rw [List.forall_mem_cons] at hf
    unfold declare at h
    cases hg : t.get? f.name with
    | some s =>
      obtain rfl := Except.error.inj ((by simpa [hg, bind, Except.bind] using h) :
        (Except.error _ : Except Error Signatures) = .error e)
      exact ⟨by simp [Cause.kind], hf.1⟩
    | none =>
      simp only [hg, bind, Except.bind] at h
      exact ih hf.2 h

theorem check_eq_ok {c : CallSite} {u : Unit} (h : table.check c = .ok u) : table.Fits c := by
  unfold check at h
  unfold Fits
  cases hg : table.get? c.name with
  | none => simp [hg] at h
  | some s =>
    simp only [hg] at h
    split at h
    · simpa
    · cases h

theorem check_error {c : CallSite} (h : table.check c = .error e) (hl : InText lines c.line) :
    e.Honest lines := by
  unfold check at h
  split at h
  · cases h
    exact ⟨by simp [Cause.kind], hl⟩
  · split at h
    · cases h
    · cases h
      exact ⟨by simp [Cause.kind], hl⟩

theorem forM_check {calls : List CallSite} :
    (∀ u, calls.forM table.check = .ok u → ∀ c ∈ calls, table.Fits c) ∧
      ∀ e, calls.forM table.check = .error e → ∃ c ∈ calls, table.check c = .error e := by
  induction calls with
  | nil => simp [pure, Except.pure]
  | cons c calls ih =>
    simp only [List.forM, bind, Except.bind]
    cases hc : table.check c with
    | error e => simp [hc]
    | ok u =>
      obtain ⟨hok, herr⟩ := ih
      refine ⟨fun u' h => ?_, fun e h => ?_⟩
      · exact List.forall_mem_cons.2 ⟨check_eq_ok hc, hok u' h⟩
      · obtain ⟨c', hm, he⟩ := herr e h
        exact ⟨c', List.mem_cons_of_mem _ hm, he⟩

theorem ofProgram_fits {p : Program} (h : ofProgram p = .ok table) :
    ∀ c ∈ p.calls, table.Fits c := by
  rw [ofProgram_eq] at h
  obtain ⟨t, -, h⟩ := Except.bind_eq_ok.1 h
  obtain ⟨u, hc, h⟩ := Except.bind_eq_ok.1 h
  obtain rfl := Except.ok.inj h
  exact forM_check.1 u hc

theorem ofProgram_error {p : Program} (hp : Stmt.ProperEach lines p) (h : ofProgram p = .error e) :
    e.Honest lines := by
  rw [ofProgram_eq] at h
  cases hf : ofFunctions p.functions with
  | error e' =>
    simp only [hf, bind, Except.bind] at h
    cases h
    exact foldlM_declare_error (fun f hm => (hp.functions p f hm).line) hf
  | ok t =>
    cases hc : p.calls.forM t.check with
    | error e' =>
      simp only [hf, hc, bind, Except.bind] at h
      cases h
      obtain ⟨c, hm, he⟩ := forM_check.2 _ hc
      exact check_error he (hp.calls p c hm)
    | ok u => simp [hf, hc, bind, Except.bind, pure, Except.pure] at h

end Signatures

section Sites

variable {lines : Nat} {table : Signatures}

mutual

theorem Expr.sites_sound {g : Setting} : (e : Expr) → e.Proper lines →
    (∀ c ∈ e.calls, table.Fits c) → ∀ s ∈ e.sites g, s.Sound lines table
  | .int _, _, _, s, hs => by simp [Expr.sites] at hs
  | .ident name line, h, _, s, hs => by
    rw [List.mem_singleton.1 hs]
    exact .inr ⟨by simp [Site.error, Cause.kind], h⟩
  | .paren inner, h, hc, s, hs => Expr.sites_sound inner h hc s hs
  | .call name args line, h, hc, s, hs => by
    simp only [Expr.calls, List.forall_mem_append, List.forall_mem_singleton] at hc
    rcases List.mem_cons.1 hs with rfl | hs
    · exact .inl hc.2
    · exact Expr.sitesEach_sound args h.2 hc.1 s hs
  | .bin op lhs rhs, h, hc, s, hs => by
    simp only [Expr.calls, List.forall_mem_append] at hc
    rcases List.mem_append.1 hs with hs | hs
    · exact Expr.sites_sound rhs h.2 hc.2 s hs
    · exact Expr.sites_sound lhs h.1 hc.1 s hs

theorem Expr.sitesEach_sound {g : Setting} : (es : List Expr) → Expr.ProperEach lines es →
    (∀ c ∈ Expr.callsEach es, table.Fits c) → ∀ s ∈ Expr.sitesEach g es, s.Sound lines table
  | [], _, _, s, hs => by simp [Expr.sitesEach] at hs
  | e :: es, h, hc, s, hs => by
    simp only [Expr.callsEach, List.forall_mem_append] at hc
    rcases List.mem_append.1 hs with hs | hs
    · exact Expr.sites_sound e h.1 hc.1 s hs
    · exact Expr.sitesEach_sound es h.2 hc.2 s hs

end

theorem Condition.sites_sound {g : Setting} {cond : Condition} (h : cond.Proper lines)
    (hc : ∀ c ∈ Expr.callsEach cond.exprs, table.Fits c) :
    ∀ s ∈ cond.sites g, s.Sound lines table := by
  intro s hs
  rcases List.mem_cons.1 hs with rfl | hs
  · exact .inl h.1
  · exact Expr.sitesEach_sound _ h.2 hc s hs

mutual

theorem Stmt.sites_sound : (s : Stmt) → ∀ {g : Setting}, s.Proper lines →
    (∀ c ∈ s.calls, table.Fits c) → ∀ site ∈ s.sites g, site.Sound lines table
  | .exit value, g, h, hc, s, hs => Expr.sitesEach_sound _ h hc s hs
  | .letVar name value line, g, h, hc, s, hs => by
    rcases List.mem_cons.1 hs with rfl | hs
    · exact .inr ⟨by simp [Site.error, Cause.kind], h.1⟩
    · exact Expr.sites_sound value h.2 hc s hs
  | .assign name value line, g, h, hc, s, hs => by
    rcases List.mem_cons.1 hs with rfl | hs
    · exact .inr ⟨by simp [Site.error, Cause.kind], h.1⟩
    · exact Expr.sites_sound value h.2 hc s hs
  | .block body, g, h, hc, s, hs => Stmt.sitesEach_sound body h hc s hs
  | .print items, g, h, hc, s, hs => Expr.sitesEach_sound _ h hc s hs
  | .ifElse cond body other, g, h, hc, s, hs => by
    simp only [Stmt.calls, List.forall_mem_append] at hc
    simp only [Stmt.sites, List.mem_append] at hs
    rcases hs with hs | hs | hs
    · exact Condition.sites_sound h.1 hc.1.1 s hs
    · exact Stmt.sites_sound body h.2.1 hc.1.2 s hs
    · exact ElseBranch.sites_sound other h.2.2 hc.2 s hs
  | .whileLoop cond body, g, h, hc, s, hs => by
    simp only [Stmt.calls, List.forall_mem_append] at hc
    rcases List.mem_append.1 hs with hs | hs
    · exact Condition.sites_sound h.1 hc.1 s hs
    · exact Stmt.sites_sound body h.2 hc.2 s hs
  | .forLoop init cond step body, g, h, hc, s, hs => by
    simp only [Stmt.calls, List.forall_mem_append] at hc
    simp only [Stmt.sites, List.mem_append] at hs
    rcases hs with hs | hs | hs | hs
    · exact Stmt.sites_sound init h.1 hc.1.1.1 s hs
    · exact Condition.sites_sound h.2.1 hc.1.1.2 s hs
    · exact Stmt.sites_sound body h.2.2.2 hc.2 s hs
    · exact Stmt.sites_sound step h.2.2.1 hc.1.2 s hs
  | .function name params body line, g, h, hc, s, hs => by
    rw [List.mem_singleton.1 hs]
    exact .inr ⟨by simp [Site.error, Cause.kind], h.1⟩
  | .ret value inFunction line, g, h, hc, s, hs => by
    rcases List.mem_cons.1 hs with rfl | hs
    · exact .inr ⟨by simp [Site.error, Cause.kind], h.1⟩
    · exact Expr.sitesEach_sound _ h.2 hc s hs
  | .call name args line, g, h, hc, s, hs => by
    simp only [Stmt.calls, List.forall_mem_append, List.forall_mem_singleton] at hc
    rcases List.mem_cons.1 hs with rfl | hs
    · exact .inl hc.2
    · exact Expr.sitesEach_sound args h.2 hc.1 s hs
  | .breakLoop line, g, h, hc, s, hs => by
    rw [List.mem_singleton.1 hs]
    exact .inr ⟨by simp [Site.error, Cause.kind], h⟩
  | .continueLoop line, g, h, hc, s, hs => by
    rw [List.mem_singleton.1 hs]
    exact .inr ⟨by simp [Site.error, Cause.kind], h⟩

theorem Stmt.sitesEach_sound : (ss : List Stmt) → ∀ {g : Setting}, Stmt.ProperEach lines ss →
    (∀ c ∈ Stmt.callsEach ss, table.Fits c) → ∀ site ∈ Stmt.sitesEach g ss, site.Sound lines table
  | [], g, _, _, s, hs => by simp [Stmt.sitesEach] at hs
  | s :: ss, g, h, hc, site, hs => by
    simp only [Stmt.callsEach, List.forall_mem_append] at hc
    rcases List.mem_append.1 hs with hs | hs
    · exact Stmt.sites_sound s h.1 hc.1 site hs
    · exact Stmt.sitesEach_sound ss h.2 hc.2 site hs

theorem ElseBranch.sites_sound : (other : ElseBranch) → ∀ {g : Setting}, other.Proper lines →
    (∀ c ∈ other.calls, table.Fits c) → ∀ site ∈ other.sites g, site.Sound lines table
  | .absent, g, _, _, s, hs => by simp [ElseBranch.sites] at hs
  | .elseIf cond body next, g, h, hc, s, hs => by
    simp only [ElseBranch.calls, List.forall_mem_append] at hc
    simp only [ElseBranch.sites, List.mem_append] at hs
    rcases hs with hs | hs | hs
    · exact Condition.sites_sound h.1 hc.1.1 s hs
    · exact Stmt.sites_sound body h.2.1 hc.1.2 s hs
    · exact ElseBranch.sites_sound next h.2.2 hc.2 s hs
  | .otherwise body, g, h, hc, s, hs => Stmt.sites_sound body h hc s hs

end

theorem Program.sites_sound {p : Program} (hp : Stmt.ProperEach lines p)
    (hc : ∀ c ∈ p.calls, table.Fits c) : ∀ s ∈ p.sites, s.Sound lines table := by
  intro s hs
  rcases List.mem_append.1 hs with hs | hs
  · exact Stmt.sitesEach_sound p hp hc s hs
  · obtain ⟨f, hf, hs⟩ := List.mem_flatMap.1 hs
    have hw := hp.functions p f (p.functionsByDepth_perm.mem_iff.1 hf)
    exact Stmt.sites_sound f.body hw.proper (fun c h => hc c (hw.calls c h)) s hs

end Sites

theorem Site.error_kind (s : Site) :
    s.error.cause.kind = .semantic ∨ s.error.cause.kind = .internal := by
  obtain ⟨g, construct⟩ := s
  cases construct <;> simp [Site.error, Cause.kind]

/-- A sound place that could only be rejected as a fault of the compiler is allowed. -/
theorem Site.Sound.allowed {lines : Nat} {table : Signatures} {s : Site} (h : s.Sound lines table)
    (hk : s.error.cause.kind = .internal) : s.Allowed table :=
  h.resolve_right fun he => he.1 hk

namespace Program

variable {lines : Nat} {table : Signatures} {p : Program} {e : Error}

theorem code_error (hp : Stmt.ProperEach lines p) (ht : Signatures.ofProgram p = .ok table)
    (h : p.code table = .error e) : e.cause.kind = .semantic ∧ InText lines e.line := by
  obtain ⟨before, s, after, hs, -, hn, rfl⟩ := Site.fault?_eq_some.1 (code_eq_error.1 h)
  have hm : s ∈ p.sites := by simp [hs]
  obtain ⟨hk, hl⟩ := (sites_sound hp (Signatures.ofProgram_fits ht) s hm).resolve_left hn
  exact ⟨s.error_kind.resolve_right hk, hl⟩

theorem assemble_error (hp : Stmt.ProperEach lines p) (h : p.assemble = .error e) :
    e.Honest lines := by
  unfold assemble at h
  cases ht : Signatures.ofProgram p with
  | error e' =>
    simp only [ht, bind, Except.bind] at h
    cases h
    exact Signatures.ofProgram_error hp ht
  | ok table =>
    cases hc : p.code table with
    | error e' =>
      simp only [ht, hc, bind, Except.bind] at h
      cases h
      obtain ⟨hk, hl⟩ := code_error hp ht hc
      exact ⟨by simp [hk], hl⟩
    | ok code => simp [ht, hc, bind, Except.bind, pure, Except.pure] at h

end Program

/-- Nothing comes up in a text that would make compiling it crash. -/
structure CompilesSafely (source : String) : Prop where
  /-- The places whose lines are asked for lie in the text, and never before an earlier one. -/
  lines : ((Piece.located [] (pieces source.toList).1).flatMap Piece.asked ++
    [source.toList]).Pairwise (· <+: ·)
  /-- A quoted text has both its quotes, so that they can be cut off. -/
  quotes : ∀ p ∈ (pieces source.toList).1, ∀ literal, p.shape = .token .stringLit literal →
    ∃ body, p.text = '"' :: (body ++ ['"']) ∧ literal = some (String.ofList body)
  /-- A reader never cuts tokens out of range, takes a token for an operator that is none, or leaves
  a function that it is not in. -/
  reading : ∀ n, (Scan.ofText source).tokens.length < n →
    ((Reader.ofTokens (Scan.ofText source).tokens).call n .program).1 =
      ((Program.ofTokens (Scan.ofText source).tokens).map Tree.program).mapError .error
  /-- No scope is marked, and no loop entered, with more variables or words than there are when code
  is made inside it. -/
  counts : ∀ p table, Program.ofScan (Scan.ofText source) = .ok p →
    Signatures.ofProgram p = .ok table → ∀ t m, p.Reaches table t m → m.Consistent
  /-- The jump that a link makes has a condition, and so it has a negation. -/
  jumps : ∀ (c : Link) (truth : Bool), ∃ failing, c.jumpIfFalse = .on failing ∧
    (if truth then c.jumpIfFalse.negate else .ok c.jumpIfFalse) = .ok (.on (failing.when truth))

theorem compilesSafely (source : String) : CompilesSafely source where
  lines := by
    rw [List.pairwise_append]
    refine ⟨Piece.pairwise_asked [] _, List.pairwise_singleton _ _, fun a ha b hb => ?_⟩
    obtain rfl := List.mem_singleton.1 hb
    exact (Piece.isPrefix_of_mem_asked ha).2.trans ⟨_, pieces_text source.toList⟩
  quotes _ hp _ hs := by
    obtain ⟨_, hcut⟩ := (pieces_partition source.toList).exists_cut hp
    exact hcut.exists_body hs
  reading _ hn := Reader.call_program hn
  counts _ _ _ _ _ _ h := h.consistent
  jumps c truth := by
    obtain ⟨failing, hf⟩ := c.exists_jumpIfFalse
    refine ⟨failing, hf, ?_⟩
    rw [hf]
    cases truth <;> rfl

/-- A text is rejected only for a fault of its own, on one of its lines, and nothing crashes.  What
the generator takes for granted has been seen to before: tokens carry their texts, and where code is
made no condition is empty, every call fits the table, and the stack and the scopes are in balance,
so that only the static rules are left to fail. -/
theorem compile_rejects_honestly (source : String) :
    CompilesSafely source ∧
    (∀ t ∈ (Scan.ofText source).tokens, t.kind.hasText → t.literal.isSome) ∧
    (∀ p table, Program.ofScan (Scan.ofText source) = .ok p → Signatures.ofProgram p = .ok table →
      (∀ s ∈ p.sites, ∀ cond, s.construct = .condition cond → cond ≠ []) ∧
      (∀ s ∈ p.sites, ∀ call, s.construct = .call call → table.Fits call) ∧
      ∀ e, p.code table = .error e → e.cause.kind = .semantic) ∧
    ∀ e, (compile source).result = .error e →
      (e.cause.kind = .lexical ∨ e.cause.kind = .syntactic ∨ e.cause.kind = .semantic) ∧
        1 ≤ e.line ∧ e.line ≤ 1 + source.toList.count '\n' := by
  obtain ⟨hok, herr⟩ := Program.ofScan_reads source
  refine ⟨compilesSafely source, fun t ht => (Scan.tokens_proper source t ht).text,
    fun p table hp ht => ?_, fun e he => ?_⟩
  · have hs := Program.sites_sound (hok p hp) (Signatures.ofProgram_fits ht)
    refine ⟨?_, ?_, fun e he => (Program.code_error (hok p hp) ht he).1⟩
    · rintro ⟨g, construct⟩ hm cond rfl
      exact (hs _ hm).allowed rfl
    · rintro ⟨g, construct⟩ hm call rfl
      exact (hs _ hm).allowed rfl
  · have hh : e.Honest (Scan.lines source) := by
      rw [compile_result] at he
      cases hp : Program.ofScan (Scan.ofText source) with
      | error e' =>
        rw [hp] at he
        cases he
        exact herr e hp
      | ok p =>
        rw [hp] at he
        exact Program.assemble_error (hok p hp) he
    refine ⟨?_, hh.2⟩
    have hk := hh.1
    cases hc : e.cause.kind <;> simp [hc] at hk ⊢

/-- A text that reads a variable outside of its scope, on the last of its three lines. -/
def outOfScopeText : String := "fn f(n) return n;\n{ let x = 1; }\nexit(f(x));"

set_option maxRecDepth 4000 in
theorem compile_rejects_honestly_outOfScopeText :
    ∃ e, (compile outOfScopeText).result = .error e ∧
      (e.cause.kind = .lexical ∨ e.cause.kind = .syntactic ∨ e.cause.kind = .semantic) ∧
        1 ≤ e.line ∧ e.line ≤ 1 + outOfScopeText.toList.count '\n' := by
  have h : (compile outOfScopeText).result = .error ⟨.undeclared "x", 3⟩ := by
    rw [compile_result]
    decide +kernel
  exact ⟨_, h, (compile_rejects_honestly outOfScopeText).2.2.2 _ h⟩

end Stackwise
