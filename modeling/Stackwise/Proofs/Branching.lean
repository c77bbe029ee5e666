import Stackwise.Proofs.Bookkeeping

/-! Where the code of a condition leads.  The code jumps forward between its links in a way of its
own, so that its correctness is one argument for whatever is to be shown at its two ends: what holds
of the short-circuiting fold at its end holds of the code at its beginning. -/
namespace Stackwise

open Emit

abbrev Check (ω : Type) := (Bool → ω → Prop) → ω → Prop

section Check

variable {ω : Type} (check : Link → Check ω)

namespace Condition

/-- The check of links that follow a truth value, one that cannot change it being passed over. -/
def checkRest : Bool → Condition → Check ω
  | truth, [], Q => Q truth
  | truth, k :: rest, Q =>
    match k.connector, truth with
    | .and, false => checkRest false rest Q
    | .or, true => checkRest true rest Q
    | _, _ => check k fun b => checkRest b rest Q

def checkAll : Condition → Check ω
  | [], _ => fun _ => False
  | first :: rest, Q => check first fun b => checkRest check b rest Q

end Condition

/-- A property of places in the code that labels, jumps and the code of links at a height carry
backward. -/
structure Branches (code : Code) (value : Expr → Emit Unit) (height : Nat)
    (K : Code → ω → Prop) : Prop where
  mono : ∀ {k : Link} {Q Q' : Bool → ω → Prop} {w : ω}, check k Q w →
    (∀ b w, Q b w → Q' b w) → check k Q' w
  label : ∀ {l : Label} {rest : Code} {w : ω}, K rest w → K (.label l :: rest) w
  jump : ∀ {l : Label} {post rest : Code} {w : ω}, .label l :: post <:+ code → K post w →
    K (.instr (.jump .always l) :: rest) w
  link : ∀ {k : Link} {target : Label} {truth : Bool} {c : Cursor} {r : Emitted Unit}
    {post rest : Code} {w : ω}, k.emit value target truth c = .ok r → c.height = height →
      .label target :: post <:+ code →
      check k (fun b => if b = truth then K post else K rest) w → K (r.code ++ rest) w

end Check

namespace Branches

variable {ω : Type} {check : Link → Check ω} {code : Code} {value : Expr → Emit Unit}
  {height : Nat} {K : Code → ω → Prop} {exits : Exits} {Q : Bool → ω → Prop}
  {targetPost falsePost after : Code}

theorem link_of_check (hb : Branches check code value height K) {k : Link} {rest : Condition}
    {ifFalse : Label} {c : Cursor} {r : Emitted Unit} {onTrue post : Code} {w : ω}
    (h : exits.link value k rest ifFalse c = .ok r) (hh : c.height = height)
    (ht : .label exits.target :: targetPost <:+ code) (hf : .label ifFalse :: post <:+ code)
    (hq : check k Q w)
    (hlast : exits.truth ∧ rest.isEmpty → ∀ w,
      (Q true w → K targetPost w) ∧ (Q false w → K onTrue w))
    (hmid : ¬ (exits.truth ∧ rest.isEmpty) → ∀ w, (Q true w → K onTrue w) ∧
      (Q false w → K post w)) :
    K (r.code ++ onTrue) w := by
  unfold Exits.link at h
  split at h
  next hl =>
    refine hb.link h hh ht (hb.mono hq ?_)
    intro b w hw
    cases b with
    | true => exact (hlast hl w).1 hw
    | false => exact (hlast hl w).2 hw
  next hl =>
    refine hb.link h hh hf (hb.mono hq ?_)
    intro b w hw
    cases b with
    | true => exact (hmid hl w).1 hw
    | false => exact (hmid hl w).2 hw

/-- The links after the first, entered after a true link at their beginning and after a false one at
the label they are given. -/
theorem links_of_check (hb : Branches check code value height K) (exits : Exits)
    (hv : ∀ e c r, value e c = .ok r → Pushes c 1 r)
    (ht : .label exits.target :: targetPost <:+ code)
    (hf : .label exits.ifFalse :: falsePost <:+ code)
    (kt : ∀ w, Q exits.truth w → K targetPost w) (ka : ∀ w, Q (!exits.truth) w → K after w)
    (kf : ∀ w, Q false w → K falsePost w) (rest : Condition) :
    ∀ {ifFalse : Label} {c : Cursor} {r : Emitted Unit},
      exits.links value ifFalse rest c = .ok r → c.height = height →
      (Condition.hasOr rest = false → ifFalse = exits.ifFalse) → r.code ++ after <:+ code →
      (¬ (exits.truth ∧ rest.isEmpty) → ∀ w, Condition.checkRest check true rest Q w →
        K (r.code ++ after) w) ∧
      ∃ post, .label ifFalse :: post <:+ code ∧
        ∀ w, Condition.checkRest check false rest Q w → K post w := by
  induction rest with
  | nil =>
    intro ifFalse c r h hh hi hs
    rw [Exits.links, pure_eq_ok] at h
    subst h
    refine ⟨fun hl w hw => ka w ?_, falsePost, ?_, kf⟩
    · simp only [List.isEmpty_nil, and_true, Bool.not_eq_true] at hl
      rw [hl]
      exact hw
    · rwa [hi rfl]
  | cons k rest ih =>
    intro ifFalse c r h hh hi hs
    cases hk : k.connector with
    | and =>
      obtain ⟨r₁, r₂, h₁, h₂, rfl⟩ := (Exits.links_and_eq_ok hk).1 h
      have hp := Exits.link_pushes hv h₁
      have ho : Condition.hasOr (k :: rest) = Condition.hasOr rest := by simp [Condition.hasOr, hk]
      rw [List.append_assoc] at hs ⊢
      obtain ⟨kTrue, post, hpost, kFalse⟩ := ih h₂ (by simp [hp.cursor, hh])
        (fun hr => hi (ho.trans hr)) ((List.suffix_append _ _).trans hs)
      refine ⟨fun _ w hw => ?_, post, hpost, fun w hw => ?_⟩
      · simp only [Condition.checkRest, hk] at hw
        refine hb.link_of_check h₁ hh ht hpost hw (fun hl w => ?_)
          fun hl w => ⟨kTrue hl w, kFalse w⟩
        obtain ⟨htr, hre⟩ := hl
        obtain rfl := List.isEmpty_iff.1 hre
        rw [Exits.links, pure_eq_ok] at h₂
        subst h₂
        rw [htr] at kt ka
        exact ⟨kt w, ka w⟩
      · simp only [Condition.checkRest, hk] at hw
        exact kFalse w hw
    | or =>
      by_cases hl : exits.truth ∧ rest.isEmpty
      · obtain ⟨r₁, h₁, rfl⟩ := (Exits.links_or_last_eq_ok hk hl).1 h
        obtain ⟨htr, hre⟩ := hl
        obtain rfl := List.isEmpty_iff.1 hre
        rw [htr] at kt ka
        simp only [List.cons_append] at hs ⊢
        refine ⟨fun _ w hw => ?_, r₁.code ++ after, (List.suffix_cons _ _).trans hs, fun w hw => ?_⟩
        · simp only [Condition.checkRest, hk] at hw
          exact hb.jump ht (kt w hw)
        · simp only [Condition.checkRest, hk] at hw
          exact hb.link_of_check h₁ hh ht hf hw (fun _ w => ⟨kt w, ka w⟩)
            fun hn => absurd ⟨htr, rfl⟩ hn
      · obtain ⟨r₁, r₂, h₁, h₂, rfl⟩ := (Exits.links_or_eq_ok hk hl).1 h
        have hp := Exits.link_pushes hv h₁
        simp only [List.cons_append, List.append_assoc] at hs ⊢
        have hs₁ : .label (.fresh c.labels) :: (r₂.code ++ after) <:+ code :=
          (List.suffix_append _ _).trans ((List.suffix_cons _ _).trans
            ((List.suffix_cons _ _).trans hs))
        obtain ⟨kTrue, post, hpost, kFalse⟩ := ih h₂ (by simp [hp.cursor, hh])
          (fun hr => by simp [Exits.falseTo, hr]) ((List.suffix_cons _ _).trans hs₁)
        refine ⟨fun _ w hw => ?_, _, (List.suffix_cons _ _).trans hs, fun w hw => ?_⟩
        · simp only [Condition.checkRest, hk] at hw
          exact hb.jump hs₁ (kTrue hl w hw)
        · simp only [Condition.checkRest, hk] at hw
          exact hb.link_of_check h₁ hh ht hpost hw (fun hl' => absurd hl' hl)
            fun _ w => ⟨fun hq => hb.label (kTrue hl w hq), kFalse w⟩

theorem condition_of_check (hb : Branches check code value height K)
    (hv : ∀ e c r, value e c = .ok r → Pushes c 1 r) {cond : Condition} {target : Label}
    {truth : Bool} {c : Cursor} {r : Emitted Unit} {w : ω}
    (h : Condition.emit value cond target truth c = .ok r) (hh : c.height = height)
    (ht : .label target :: targetPost <:+ code) (hs : r.code ++ after <:+ code)
    (kt : ∀ w, Q truth w → K targetPost w) (ka : ∀ w, Q (!truth) w → K after w)
    (hq : Condition.checkAll check cond Q w) : K (r.code ++ after) w := by
  cases cond with
  | nil => exact hq.elim
  | cons first rest =>
    obtain ⟨r₁, r₂, h₁, h₂, rfl⟩ := Condition.emit_cons_eq_ok.1 h
    have hp := Exits.link_pushes hv h₁
    simp only [List.append_assoc] at hs ⊢
    have hs₂ := (List.suffix_append _ _).trans hs
    have hs₃ := (List.suffix_append _ _).trans hs₂
    have ka' : ∀ w, Q (!truth) w →
        K ((if truth then [.label (.fresh c.labels)] else []) ++ after) w := by
      intro w hw
      cases truth with
      | true => exact hb.label (ka w hw)
      | false => exact ka w hw
    obtain ⟨falsePost, hf, kf⟩ : ∃ falsePost,
        .label (Exits.start target truth c).ifFalse :: falsePost <:+ code ∧
          ∀ w, Q false w → K falsePost w := by
      cases truth with
      | true => exact ⟨after, hs₃, ka⟩
      | false => exact ⟨targetPost, ht, kt⟩
    obtain ⟨kTrue, post, hpost, kFalse⟩ := hb.links_of_check
      (Exits.start target truth c) hv ht hf kt ka' kf rest h₂ (by simp [hp.cursor, hh])
      (fun hr => by simp [Exits.falseTo, hr]) hs₂
    refine hb.link_of_check h₁ hh (Exits.start_target target truth c ▸ ht) hpost hq
      (fun hl w => ?_) fun hl w => ⟨kTrue hl w, kFalse w⟩
    obtain ⟨htr, hre⟩ := hl
    obtain rfl := List.isEmpty_iff.1 hre
    rw [Exits.links, pure_eq_ok] at h₂
    subst h₂
    obtain rfl : truth = true := htr
    exact ⟨kt w, ka' w⟩

end Branches

end Stackwise
