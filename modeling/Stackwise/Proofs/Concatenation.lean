import Stackwise.Proofs.Regularity

/-! Programs may be written one after the other.  What a production reads off some tokens it also
reads off them when more tokens follow, as long as these do not go on with what was read.  Inside a
statement there is always a token left to end an expression, and only an `else` goes on with a whole
statement, so the tokens of two programs together are read as the statements of both. -/
namespace Stackwise

section Parts

theorem Condition.Alike.eq {cond cond' : Condition} (h : Condition.Alike Eq cond cond') :
    cond = cond' := by
  refine Likeness.eq_of_forall₂ h.links ?_
  rintro ⟨lhs, c, connector⟩ ⟨_, c', _⟩ ⟨rfl, hc, rfl⟩
  cases hc with
  | some hc => rw [Prod.ext hc.1 hc.2]
  | none => rfl

theorem PrintItem.Alike.eq {item item' : PrintItem} (h : PrintItem.Alike Eq item item') :
    item = item' := by
  cases h with
  | str => rfl
  | expr h => rw [h]

theorem eq_of_rel {value value' : Option Expr} (h : Option.Rel Eq value value') :
    value = value' := by
  cases h with
  | some h => rw [h]
  | none => rfl

end Parts

/-- The same is read where more tokens stand behind. -/
def Likeness.extended (more : List Token) : Likeness where
  token := Eq
  line := Eq
  fault _ _ := True
  expr := Eq
  stmt _ := Eq
  branch _ := Eq
  more := more
  kind_eq h := by rw [h]
  literal_eq h := by rw [h]
  line_of h := by rw [h]
  fails _ _ := trivial
  misses _ _ _ := trivial
  mention name h := by
    rw [h]
    exact rel_self fun _ _ => rfl
  ofExpr h := eq_of_built h (fun _ _ h => h) fun _ _ h => h
  ofStmt h := by
    cases h with
    | exit hv => rw [eq_of_rel hv]
    | letVar ht he | assign ht he => rw [ht, he]
    | call ht hs => rw [ht, eq_of_forall₂ hs fun _ _ h => h]
    | print _ _ hi => rw [eq_of_forall₂ hi fun _ _ h => h.eq]
    | block _ hb => rw [eq_of_forall₂ hb fun _ _ h => h]
    | ifElse hc hb ho => rw [hc.eq, hb, ho]
    | whileLoop hc hb => rw [hc.eq, hb]
    | forLoop _ _ hi hc ht hb => rw [hi, hc.eq, ht, hb]
    | function ht _ _ _ hb => rw [ht, hb]
    | ret ht hv => rw [ht, eq_of_rel hv]
    | breakLoop ht | continueLoop ht => rw [ht]
  ofBranch h := by
    cases h with
    | absent => rfl
    | elseIf hc hb hn => rw [hc.eq, hb, hn]
    | otherwise hb => rw [hb]

namespace Parse

/-- A statement is read alike before tokens that do not go on with it. -/
theorem stmt_append {ts rest more : List Token} {s : Stmt} (hm : NoElse more)
    (h : stmt ts = .ok s rest) :
    rest.length < ts.length ∧ stmt (ts ++ more) = .ok s (rest ++ more) := by
  have hrun := Likeness.Alike.stmt (L := .extended more) ts (ts ++ more)
    ⟨ts, rfl, List.forall₂_same.2 fun _ _ => rfl⟩ le_rfl
  rw [h] at hrun
  cases hrun with
  | ok hs hl hy =>
    obtain ⟨_, he, us, rfl, hu⟩ := hy (.inr (.inr hm))
    obtain rfl : s = _ := hs
    obtain rfl : rest = us := Likeness.eq_of_forall₂ hu fun _ _ h => h
    exact ⟨hl, he⟩

section Programs

theorem programRest_cons_eq_ok {n : Nat} {t : Token} {ts rest : List Token} {p : Program} :
    programRest (n + 1) (t :: ts) = .ok p rest ↔
      ∃ s p' mid, p = s :: p' ∧ stmt (t :: ts) = .ok s mid ∧ programRest n mid = .ok p' rest := by
  have hstep : programRest (n + 1) (t :: ts) =
      (stmt >>= fun s => programRest n >>= fun p' => pure (s :: p')) (t :: ts) := rfl
  rw [hstep, bind_eq_ok]
  constructor
  · rintro ⟨s, mid, hs, h⟩
    obtain ⟨p', _, hp, ⟨⟩⟩ := bind_eq_ok.1 h
    exact ⟨s, p', mid, rfl, hs, hp⟩
  · rintro ⟨s, p', mid, rfl, hs, hp⟩
    exact ⟨s, mid, hs, bind_of_ok hp⟩

/-- The statements before some tokens are read first, and those that follow with any bound that is
large enough for them. -/
theorem programRest_append {n m : Nat} {ts us rest : List Token} {p q : Program} (hus : NoElse us)
    (hq : ∀ m, us.length ≤ m → programRest m us = .ok q []) (hn : ts.length ≤ n)
    (hp : programRest n ts = .ok p rest) (hm : n + us.length ≤ m) :
    programRest m (ts ++ us) = .ok (p ++ q) [] := by
  induction n generalizing ts p m with
  | zero =>
    obtain rfl := List.eq_nil_of_length_eq_zero (Nat.le_zero.1 hn)
    cases hp
    exact hq m (by omega)
  | succ n ih =>
    cases ts with
    | nil =>
      cases hp
      exact hq m (by omega)
    | cons t ts =>
      obtain ⟨m, rfl⟩ : ∃ m', m = m' + 1 := Nat.exists_eq_add_of_le' (by omega)
      obtain ⟨s, p, mid, rfl, hs, hp⟩ := programRest_cons_eq_ok.1 hp
      obtain ⟨hl, hs⟩ := stmt_append hus hs
      refine programRest_cons_eq_ok.2 ⟨s, p ++ q, mid ++ us, rfl, hs, ?_⟩
      exact ih (by omega) hp (by omega)

theorem programRest_nil (m : Nat) : programRest m [] = .ok [] [] := by
  cases m <;> rfl

/-- A program is read to the end, with any bound that is large enough. -/
theorem programRest_of_program {ts rest : List Token} {p : Program} (h : program ts = .ok p rest)
    {m : Nat} (hm : ts.length ≤ m) : programRest m ts = .ok p [] := by
  have happend : programRest m (ts ++ []) = .ok (p ++ []) [] :=
    programRest_append (by simp [NoElse]) (fun m _ => programRest_nil m) le_rfl h
      (by simpa using hm)
  simpa using happend

/-- A program does not start with `else`. -/
theorem noElse_of_program {ts rest : List Token} {p : Program} (h : program ts = .ok p rest) :
    NoElse ts := by
  cases ts with
  | nil => simp [NoElse]
  | cons t ts =>
    intro hk
    obtain ⟨s, p', mid, -, hs, -⟩ := programRest_cons_eq_ok.1 h
    have hk : t.kind = .kwElse := by simpa using hk
    obtain ⟨kind, literal, line⟩ := t
    subst hk
    cases hs

theorem program_append {ts us rest rest' : List Token} {p q : Program}
    (hp : program ts = .ok p rest) (hq : program us = .ok q rest') :
    program (ts ++ us) = .ok (p ++ q) [] :=
  programRest_append (noElse_of_program hq) (fun _ => programRest_of_program hq) le_rfl hp
    (List.length_append ▸ le_rfl)

end Programs

end Parse

namespace Program

/-- The tokens of two programs, one after the other, are read as the statements of both. -/
theorem ofTokens_append {ts us : List Token} {p q : Program} (hp : ofTokens ts = .ok p)
    (hq : ofTokens us = .ok q) : ofTokens (ts ++ us) = .ok (p ++ q) := by
  obtain ⟨rest, hp⟩ := ofTokens_eq_ok hp
  obtain ⟨rest', hq⟩ := ofTokens_eq_ok hq
  unfold ofTokens Session.read
  have h : Parse.program (Session.ofTokens (ts ++ us)).rest = .ok (p ++ q) [] :=
    Parse.program_append hp hq
  rw [h]

/-- The tokens of `if (x) f();`, which an `else` could go on with. -/
def openIf : List Token :=
  [⟨.kwIf, none, 1⟩, ⟨.openParen, none, 1⟩, ⟨.ident, some "x", 1⟩, ⟨.closeParen, none, 1⟩,
    ⟨.fnName, some "f", 2⟩, ⟨.openParen, none, 2⟩, ⟨.closeParen, none, 2⟩, ⟨.semi, none, 2⟩]

def openIfTree : Stmt := .ifElse [⟨.ident "x" 1, none, .and⟩] (.call "f" [] 2) .absent

theorem ofTokens_append_openIf :
    ofTokens openIf = .ok [openIfTree] ∧ ofTokens (openIf ++ openIf) =
      .ok [openIfTree, openIfTree] :=
  have h : ofTokens openIf = .ok [openIfTree] := rfl
  ⟨h, ofTokens_append h h⟩

end Program

end Stackwise
