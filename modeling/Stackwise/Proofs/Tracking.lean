import Stackwise.Proofs.Reader
import Stackwise.Proofs.Regularity

/-! A reader does what the productions do on the tokens that it has left, as long as its bound is
above their number.  The two are compared step by step, and along the way it is kept track of how
many tokens are taken, and of what they are.  The reader counts in a list that stays, so the walk
is not one of two runs of the productions. -/
namespace Stackwise

/-- The name and the line of a token that is a variable. -/
def Token.mention? (t : Token) : Option (String × Nat) :=
  if t.kind = .ident then t.literal.map fun name => (name, t.line) else none

def Token.mentions (ts : List Token) : List (String × Nat) := ts.filterMap mention?

@[simp] theorem Token.mentions_nil : mentions [] = [] := rfl

@[simp] theorem Token.mentions_append (ts us : List Token) :
    mentions (ts ++ us) = mentions ts ++ mentions us :=
  List.filterMap_append

theorem Token.mentions_cons {t : Token} (ts : List Token) (h : t.kind ≠ .ident) :
    mentions (t :: ts) = mentions ts :=
  List.filterMap_cons_none (if_neg h)

theorem Token.mentions_of_kind {kind : TokenKind} {ts : List Token} (hk : kind ≠ .ident)
    (h : ∀ t ∈ ts, t.kind = kind) : mentions ts = [] :=
  List.filterMap_eq_nil_iff.2 fun t ht => if_neg (by rwa [h t ht])

namespace Reader

def rest (r : Reader) : List Token := r.tokens.drop r.index

/-- The reader when just `rest` is left. -/
def moved (r : Reader) (rest : List Token) : Reader :=
  { r with index := r.tokens.length - rest.length }

def endLine (r : Reader) : Nat := (Session.ofTokens r.tokens).endLine

/-- What a reader is to make of what a production yields on the tokens that are left. -/
def took {α : Type} (r : Reader) :
    EStateM.Result Fault (List Token) α → EStateM.Result Stop Reader α
  | .ok a rest => .ok a (r.moved rest)
  | .error fault rest => .error (.error ⟨fault.cause, fault.line.getD r.endLine⟩) (r.moved rest)

/-- The index is in range, at most `b` tokens are left, and the reader is inside `d` functions. -/
structure Fits (d b : Nat) (r : Reader) : Prop where
  index : r.index ≤ r.tokens.length
  depth : r.depth = d
  rest : r.rest.length ≤ b

theorem getElem?_index (r : Reader) (k : Nat) : r.tokens[r.index + k]? = r.rest[k]? :=
  List.getElem?_drop.symm

theorem head?_rest (r : Reader) : r.tokens[r.index]? = r.rest.head? := by
  rw [List.head?_eq_getElem?, ← getElem?_index, Nat.add_zero]

theorem moved_rest {r : Reader} (h : r.index ≤ r.tokens.length) : r.moved r.rest = r := by
  have hi : r.tokens.length - r.rest.length = r.index := by
    rw [rest, List.length_drop, Nat.sub_sub_self h]
  rw [moved, hi]

theorem rest_moved {r : Reader} {used rest : List Token} (h : r.rest = used ++ rest) :
    (r.moved rest).rest = rest := by
  have hs : rest <:+ r.tokens :=
    (List.suffix_append used rest).trans (h ▸ List.drop_suffix r.index r.tokens)
  exact (List.suffix_iff_eq_drop.1 hs).symm

theorem index_moved {r : Reader} {used rest : List Token} (hr : r.index ≤ r.tokens.length)
    (h : r.rest = used ++ rest) : (r.moved rest).index = r.index + used.length := by
  have hl := congrArg List.length h
  rw [Reader.rest, List.length_drop, List.length_append] at hl
  change r.tokens.length - rest.length = _
  omega

theorem Fits.moved {d b : Nat} {r : Reader} {used rest : List Token} (hr : r.Fits d b)
    (h : r.rest = used ++ rest) : (r.moved rest).Fits d rest.length :=
  ⟨Nat.sub_le _ _, hr.depth, (congrArg List.length (rest_moved h)).le⟩

theorem Fits.length {d b : Nat} {r : Reader} {used rest : List Token} (hr : r.Fits d b)
    (h : r.rest = used ++ rest) : used.length + rest.length ≤ b := by
  have hb := hr.rest
  rwa [h, List.length_append] at hb

theorem moved_cons {r : Reader} {t : Token} {rest : List Token} (hi : r.index ≤ r.tokens.length)
    (h : r.rest = t :: rest) :
    r.moved rest = { r with index := r.index + 1 } ∧ r.index < r.tokens.length := by
  have hm : (r.moved rest).index = r.index + [t].length := index_moved hi h
  have hl := congrArg List.length h
  rw [Reader.rest, List.length_drop, List.length_cons] at hl
  exact ⟨congrArg (fun i => { r with index := i }) hm, by omega⟩

theorem line_eq (r : Reader) : r.line = (r.rest.head?.map Token.line).getD r.endLine := by
  rw [line, head?_rest, endLine, Session.ofTokens]
  cases r.rest.head? <;> rfl

end Reader

variable {α β : Type}

theorem Reading.bind_of_ok {m : Reading α} {f : α → Reading β} {r r' : Reader} {a : α}
    (h : m r = .ok a r') : (m >>= f) r = f a r' := by
  change EStateM.bind m f r = _
  rw [EStateM.bind, h]

theorem Reading.bind_of_error {m : Reading α} {f : α → Reading β} {r r' : Reader} {stop : Stop}
    (h : m r = .error stop r') : (m >>= f) r = .error stop r' := by
  change EStateM.bind m f r = _
  rw [EStateM.bind, h]

/-- On success at least `k` tokens are gone, `used`, and the result is as `P` says; on failure
nothing but tokens off the front is gone. -/
def Parse.Takes (k : Nat) (P : α → List Token → Prop) (ts : List Token) :
    EStateM.Result Fault (List Token) α → Prop
  | .ok a rest => ∃ used, ts = used ++ rest ∧ k ≤ used.length ∧ P a used
  | .error _ rest => rest <:+ ts

/-- One run of a reader, against a production. -/
structure TracksAt (r : Reader) (k : Nat) (P : α → List Token → Prop) (m : Reading α)
    (p : Parse α) : Prop where
  same : m r = r.took (p r.rest)
  takes : Parse.Takes k P r.rest (p r.rest)

/-- A reader inside `d` functions, with at most `b` tokens left, does what a production does. -/
def Tracks (d b k : Nat) (P : α → List Token → Prop) (m : Reading α) (p : Parse α) : Prop :=
  ∀ r : Reader, r.Fits d b → TracksAt r k P m p

section Rules

variable {d b k j : Nat} {P P' : α → List Token → Prop} {Q : β → List Token → Prop}
  {m : Reading α} {p : Parse α} {f : α → Reading β} {g : α → Parse β} {r : Reader}

theorem TracksAt.of_eq {m' : Reading α} {p' : Parse α} (h : TracksAt r k P m' p') (hm : m r = m' r)
    (hp : p r.rest = p' r.rest) : TracksAt r k P m p := by
  obtain ⟨hs, ht⟩ := h
  exact ⟨by rw [hm, hp, hs], by rwa [hp]⟩

theorem TracksAt.mono (h : TracksAt r k P m p) (hk : j ≤ k) (hp : ∀ a used, P a used → P' a used) :
    TracksAt r j P' m p := by
  refine ⟨h.same, ?_⟩
  have ht := h.takes
  cases hr : p r.rest with
  | ok a rest =>
    rw [hr] at ht
    obtain ⟨used, he, hl, hu⟩ := ht
    exact ⟨used, he, hk.trans hl, hp a used hu⟩
  | error fault rest => rwa [hr] at ht

theorem Tracks.mono (h : Tracks d b k P m p) (hk : j ≤ k) (hp : ∀ a used, P a used → P' a used) :
    Tracks d b j P' m p :=
  fun r hr => (h r hr).mono hk hp

theorem Tracks.within {b' : Nat} (h : Tracks d b k P m p) (hb : b' ≤ b) : Tracks d b' k P m p :=
  fun r hr => h r ⟨hr.index, hr.depth, hr.rest.trans hb⟩

theorem TracksAt.bind (h : TracksAt r k P m p)
    (hf : ∀ a used rest, r.rest = used ++ rest → k ≤ used.length → P a used →
      TracksAt (r.moved rest) (j - k) (fun c used' => Q c (used ++ used')) (f a) (g a)) :
    TracksAt r j Q (m >>= f) (p >>= g) := by
  obtain ⟨hs, ht⟩ := h
  cases hp : p r.rest with
  | error fault rest =>
    rw [hp] at hs ht
    have hg : (p >>= g) r.rest = .error fault rest := Parse.bind_eq_error.2 (.inl hp)
    refine ⟨?_, by rwa [hg]⟩
    rw [hg]
    exact Reading.bind_of_error hs
  | ok a rest =>
    rw [hp] at hs ht
    obtain ⟨used, he, hl, hu⟩ := ht
    have hg : (p >>= g) r.rest = g a rest := Parse.bind_of_ok hp
    have hm : (m >>= f) r = f a (r.moved rest) := Reading.bind_of_ok hs
    obtain ⟨hs', ht'⟩ := hf a used rest he hl hu
    rw [Reader.rest_moved he] at hs' ht'
    refine ⟨by rw [hm, hg, hs']; rfl, ?_⟩
    rw [hg]
    cases hc : g a rest with
    | error fault rest' =>
      rw [hc] at ht'
      exact ht'.trans ⟨used, he.symm⟩
    | ok c rest' =>
      rw [hc] at ht'
      obtain ⟨used', he', hl', hu'⟩ := ht'
      exact ⟨used ++ used', by rw [he, he', List.append_assoc],
        by rw [List.length_append]; omega, hu'⟩

/-- With no token left, a production may be replaced by one that is the same there. -/
theorem Tracks.at_end {p' : Parse α} (h : Tracks d 0 k P m p') (hp : p [] = p' []) :
    Tracks d 0 k P m p := by
  intro r hr
  have he : r.rest = [] := List.eq_nil_of_length_eq_zero (Nat.le_zero.1 hr.rest)
  exact (h r hr).of_eq rfl (by rw [he, hp])

/-- A bound that is large enough may be taken as one that is not used up: with no token left, none
makes a difference. -/
theorem Tracks.of_succ {p : Nat → Parse α} {n : Nat} (hn : b ≤ n)
    (h : ∀ n, b ≤ n + 1 → Tracks d b k P m (p (n + 1))) (hend : p 0 [] = p 1 []) :
    Tracks d b k P m (p n) := by
  cases n with
  | zero =>
    obtain rfl := Nat.le_zero.1 hn
    exact (h 0 (Nat.zero_le 1)).at_end hend
  | succ n => exact h n hn

/-- What comes after a step has so many tokens less. -/
theorem Tracks.bind (h : Tracks d b k P m p)
    (hf : ∀ b' a used, b' + k ≤ b → P a used →
      Tracks d b' (j - k) (fun c used' => Q c (used ++ used')) (f a) (g a)) :
    Tracks d b j Q (m >>= f) (p >>= g) := by
  intro r hr
  refine (h r hr).bind fun a used rest he hl hu => ?_
  have hb := hr.length he
  exact hf rest.length a used (by omega) hu (r.moved rest) (hr.moved he)

theorem Tracks.pure {a : α} (h : P a []) : Tracks d b 0 P (Pure.pure a) (Pure.pure a) := by
  intro r hr
  refine ⟨?_, [], rfl, le_rfl, h⟩
  change EStateM.Result.ok a r = .ok a (r.moved r.rest)
  rw [Reader.moved_rest hr.index]

/-- A failure takes nothing. -/
theorem TracksAt.of_error (hr : r.index ≤ r.tokens.length) {fault : Fault}
    (hp : p r.rest = .error fault r.rest)
    (hm : m r = .error (.error ⟨fault.cause, fault.line.getD r.endLine⟩) r) :
    TracksAt r k P m p := by
  refine ⟨?_, ?_⟩
  · rw [hm, hp, Reader.took, Reader.moved_rest hr]
  · rw [hp]
    exact List.suffix_rfl

theorem Tracks.fail {cause : Cause} {line : Nat} :
    Tracks d b k P (Reading.fail cause line) (Parse.fail cause line) :=
  fun _ hr => .of_error hr.index rfl rfl

theorem Tracks.refuse {cause : Cause} :
    Tracks d b k P (Reading.refuse cause) (Parse.refuse cause) := by
  intro r hr
  refine .of_error hr.index rfl ?_
  rw [← r.line_eq]
  rfl

theorem Reading.peek_eq (r : Reader) (offset : Nat) :
    Reading.peek offset r = .ok (r.rest[offset]?.map Token.kind) r := by
  rw [Reading.peek, r.getElem?_index]

theorem TracksAt.peek_bind {k : Nat} {P : β → List Token → Prop}
    {f : Option TokenKind → Reading β} {g : Option TokenKind → Parse β}
    (h : TracksAt r k P (f (r.rest.head?.map Token.kind)) (g (r.rest.head?.map Token.kind))) :
    TracksAt r k P (Reading.peek 0 >>= f) (Parse.peek >>= g) := by
  obtain ⟨hs, ht⟩ := h
  refine ⟨?_, ht⟩
  rw [Parse.peek_bind, ← hs, ← r.head?_rest]
  rfl

theorem Tracks.peek_bind {k : Nat} {P : β → List Token → Prop} {f : Option TokenKind → Reading β}
    {g : Option TokenKind → Parse β} (h : ∀ kind, Tracks d b k P (f kind) (g kind)) :
    Tracks d b k P (Reading.peek 0 >>= f) (Parse.peek >>= g) :=
  fun r hr => .peek_bind (h _ r hr)

theorem Tracks.remaining_bind {k : Nat} {P : β → List Token → Prop} {m : Reading β}
    {g : List Token → Parse β} (h : ∀ ts, ts.length ≤ b → Tracks d ts.length k P m (g ts)) :
    Tracks d b k P m (Parse.remaining >>= g) := by
  intro r hr
  obtain ⟨hs, ht⟩ := h r.rest hr.rest r ⟨hr.index, hr.depth, le_rfl⟩
  exact ⟨hs, ht⟩

theorem Tracks.expected {what : Expectation} :
    Tracks d b k P (Reading.expected what) (Parse.expected what) := by
  intro r hr
  refine .of_error hr.index rfl ?_
  rw [← r.line_eq, ← r.head?_rest]
  rfl

theorem TracksAt.skip {t : Token} {rest : List Token} (hr : r.Fits d b) (he : r.rest = t :: rest) :
    TracksAt r 1 (fun _ used => used = [t]) Reading.next Parse.skip := by
  obtain ⟨hm, hi⟩ := Reader.moved_cons hr.index he
  refine ⟨?_, [t], ?_, le_rfl, rfl⟩
  · rw [Parse.skip, he]
    change _ = EStateM.Result.ok () (r.moved rest)
    rw [hm, Reading.next, if_pos hi]
  · rw [he]
    rfl

/-- Passing over a token that may not be there. -/
theorem Tracks.skip : Tracks d b 0 (fun _ _ => True) Reading.next Parse.skip := by
  intro r hr
  cases he : r.rest with
  | nil =>
    have hi : ¬ r.index < r.tokens.length := Nat.not_lt.2 (List.drop_eq_nil_iff.1 he)
    refine (Tracks.pure trivial r hr).of_eq ?_ (by rw [he]; rfl)
    rw [Reading.next, if_neg hi]
    rfl
  | cons t rest => exact (TracksAt.skip hr he).mono (Nat.zero_le 1) fun _ _ _ => trivial

/-- Passing over a token that is known to be there. -/
theorem TracksAt.skip_bind {Q : β → List Token → Prop} {f : Unit → Reading β} {g : Unit → Parse β}
    {kind : TokenKind} (hr : r.Fits d b) (hk : r.rest.head?.map Token.kind = some kind)
    (hf : ∀ b' t, b' + 1 ≤ b → t.kind = kind →
      Tracks d b' (j - 1) (fun c used' => Q c (t :: used')) (f ()) (g ())) :
    TracksAt r j Q (Reading.next >>= f) (Parse.skip >>= g) := by
  obtain ⟨t, ht, hkind⟩ := Option.map_eq_some_iff.1 hk
  obtain ⟨rest, he⟩ := List.head?_eq_some_iff.1 ht
  refine (TracksAt.skip hr he).bind ?_
  rintro ⟨⟩ used rest he - rfl
  have hb := hr.length he
  exact hf rest.length t (by rw [Nat.add_comm]; exact hb) hkind (r.moved rest) (hr.moved he)

end Rules

section Moves

variable {d b : Nat}

theorem Reading.eat_eq (kind : TokenKind) {r : Reader} (hr : r.index ≤ r.tokens.length) :
    (∃ t rest, r.rest = t :: rest ∧ t.kind = kind ∧
        Reading.eat kind r = .ok (some t) (r.moved rest)) ∨
      (r.rest.head?.map Token.kind ≠ some kind ∧ Reading.eat kind r = .ok none r) := by
  cases he : r.rest with
  | nil =>
    refine .inr ⟨by simp, ?_⟩
    rw [Reading.eat, r.head?_rest, he]
    rfl
  | cons t rest =>
    have hh : r.tokens[r.index]? = some t := by rw [r.head?_rest, he, List.head?_cons]
    rw [Reading.eat, hh]
    by_cases hk : t.kind = kind
    · refine .inl ⟨t, rest, rfl, hk, ?_⟩
      rw [(Reader.moved_cons hr he).1]
      exact if_pos hk
    · exact .inr ⟨by simpa using hk, if_neg hk⟩

theorem Tracks.accept {kind : TokenKind} : Tracks d b 0 (fun _ used => ∀ t ∈ used, t.kind = kind)
    (Reading.accept kind) (Parse.accept kind) := by
  intro r hr
  rcases Reading.eat_eq kind hr.index with ⟨t, rest, he, hk, heat⟩ | ⟨hk, heat⟩
  · have hp : Parse.accept kind r.rest = .ok true rest := by rw [he, Parse.accept_cons hk]
    refine ⟨(Reading.bind_of_ok heat).trans (by rw [hp]; rfl), ?_⟩
    rw [hp]
    exact ⟨[t], he, Nat.zero_le _, by simpa using hk⟩
  · exact (Tracks.pure (by simp) r hr).of_eq (Reading.bind_of_ok heat) (Parse.accept_of_ne hk)

theorem Tracks.expect {kind : TokenKind} :
    Tracks d b 1 (fun t used => used = [t] ∧ ∀ t ∈ used, t.kind = kind) (Reading.expect kind)
      (Parse.expect kind) := by
  intro r hr
  rcases Reading.eat_eq kind hr.index with ⟨t, rest, he, hk, heat⟩ | ⟨hk, heat⟩
  · have hp : Parse.expect kind r.rest = .ok t rest := by rw [he, Parse.expect_cons hk]
    refine ⟨(Reading.bind_of_ok heat).trans (by rw [hp]; rfl), ?_⟩
    rw [hp]
    exact ⟨[t], he, le_rfl, rfl, by simpa using hk⟩
  · refine (Tracks.expected r hr).of_eq (Reading.bind_of_ok heat) ?_
    cases he : r.rest with
    | nil => rfl
    | cons t rest =>
      rw [he] at hk
      exact if_neg (by simpa using hk)

theorem Tracks.expectText {kind : TokenKind} :
    Tracks d b 1 (fun x used => ∃ t : Token, used = [t] ∧ t.kind = kind ∧ t.literal = some x.1 ∧
      t.line = x.2) (Reading.expectText kind) (Parse.expectText kind) := by
  refine expect.bind ?_
  rintro b' t used - ⟨rfl, hk⟩
  cases hl : t.literal with
  | some text => exact .pure ⟨t, rfl, hk t (by simp), hl, rfl⟩
  | none => exact fail

end Moves

section Expressions

variable {d b : Nat}

theorem TokenKind.precedence?_eq (kind : TokenKind) :
    kind.precedence? = kind.binOp?.map BinOp.precedence := by
  cases kind <;> rfl

theorem Reading.operator?_eq (least : Nat) (r : Reader) :
    (∃ kind op, r.rest.head?.map Token.kind = some kind ∧ kind.binOp? = some op ∧
        Parse.operator? least r.rest = some op ∧
        Reading.operator? least r = .ok (some (kind, op.precedence)) r) ∨
      (Parse.operator? least r.rest = none ∧ Reading.operator? least r = .ok none r) := by
  have h₀ := Reading.peek_eq r 0
  have h₁ := Reading.peek_eq r 1
  cases he : r.rest with
  | nil =>
    rw [he] at h₀
    exact .inr ⟨rfl, Reading.bind_of_ok h₀⟩
  | cons t ts =>
    rw [he] at h₀ h₁
    rw [List.getElem?_cons_succ, ← List.head?_eq_getElem?] at h₁
    rw [List.getElem?_cons_zero, Option.map_some] at h₀
    cases hop : t.kind.binOp? with
    | none =>
      refine .inr ⟨by simp [Parse.operator?, hop], (Reading.bind_of_ok h₀).trans ?_⟩
      simp only [TokenKind.precedence?_eq, hop, Option.map_none]
      rfl
    | some op =>
      have hread : Reading.operator? least r = (if least ≤ op.precedence ∧
          ts.head?.map Token.kind ≠ some .stringLit then Pure.pure (some (t.kind, op.precedence))
          else Pure.pure none : Reading (Option (TokenKind × Nat))) r := by
        refine (Reading.bind_of_ok h₀).trans ?_
        simp only [TokenKind.precedence?_eq, hop, Option.map_some]
        exact Reading.bind_of_ok h₁
      by_cases hc : least ≤ op.precedence ∧ ts.head?.map Token.kind ≠ some .stringLit
      · rw [if_pos hc] at hread
        exact .inl ⟨t.kind, op, rfl, hop, Parse.operator?_eq_some.2 ⟨t, ts, rfl, hop, hc⟩, hread⟩
      · rw [if_neg hc] at hread
        exact .inr ⟨by simp only [Parse.operator?, hop, if_neg hc], hread⟩

/-- The variables of an expression are those among the tokens that were taken for it. -/
def Spells (e : Expr) (used : List Token) : Prop := e.mentions = Token.mentions used

def SpellsEach (es : List Expr) (used : List Token) : Prop :=
  Expr.mentionsEach es = Token.mentions used

namespace Tracks

theorem climbMore {term : Reading Expr} {term' : Parse Expr} {n m : Nat}
    (h : Tracks d b 1 Spells term term') (hn : b < n) (hm : b ≤ m) (least : Nat) (lhs : Expr) :
    Tracks d b 0 (fun e used => e.mentions = lhs.mentions ++ Token.mentions used)
      (Reading.climbMore term n least lhs) (Parse.climbMore term' m least lhs) := by
  induction n generalizing b m least lhs with
  | zero => exact absurd hn (Nat.not_lt_zero b)
  | succ n ih =>
    refine .of_succ (p := fun m => Parse.climbMore term' m least lhs) hm (fun m hm => ?_) rfl
    intro r hr
    rcases Reading.operator?_eq least r with ⟨kind, op, hk, hop, hp, ho⟩ | ⟨hp, ho⟩
    · have hb : Reading.binOp kind = Pure.pure op := by rw [Reading.binOp, hop]
      have hstep : Parse.climbMore term' (m + 1) least lhs r.rest =
          (Parse.skip >>= fun _ => term' >>= fun first =>
            Parse.climbMore term' m (op.precedence + 1) first >>= fun rhs =>
              Parse.climbMore term' m least (.bin op lhs rhs)) r.rest :=
        Parse.remaining_bind.trans (by rw [hp])
      refine .of_eq (.skip_bind hr hk fun b₁ t h₁ ht => ?_) (Reading.bind_of_ok ho) hstep
      refine (h.within (by omega)).bind fun b₂ first u₁ h₂ hu₁ => ?_
      refine (ih (h.within (by omega)) (by omega) (by omega) _ _).bind fun b₃ rhs u₂ h₃ hu₂ => ?_
      rw [hb, pure_bind]
      refine (ih (h.within (by omega)) (by omega) (by omega) _ _).mono le_rfl fun e u₃ he => ?_
      have ht : t.kind ≠ .ident := by
        rintro hi
        rw [← ht, hi] at hop
        cases hop
      rw [he, Expr.mentions, hu₂, hu₁, Token.mentions_cons _ ht]
      simp only [Token.mentions_append, List.append_assoc]
    · refine (Tracks.pure (by simp [Token.mentions]) r hr).of_eq (Reading.bind_of_ok ho) ?_
      exact Parse.remaining_bind.trans (by rw [hp])

theorem climb {n : Nat} {term : Reading Expr} {term' : Parse Expr}
    (h : Tracks d b 1 Spells term term') (hn : b < n) (least : Nat) :
    Tracks d b 1 Spells (Reading.climb n term least) (Parse.climb term' least) := by
  refine .remaining_bind fun ts ht => (h.within ht).bind fun b₁ first used h₁ hu => ?_
  refine ((h.within (by omega)).climbMore (by omega) (by omega) least first).mono le_rfl
    fun e used' he => ?_
  rw [Spells, he, hu, Token.mentions_append]

theorem argumentsMore {expr : Reading Expr} {expr' : Parse Expr} {n m : Nat}
    (h : Tracks d b 1 Spells expr expr') (hn : b < n) (hm : b ≤ m)
    (hend : expr' [] = Parse.expected .expression []) :
    Tracks d b 1 SpellsEach (Reading.argumentsMore expr n) (Parse.argumentsMore expr' m) := by
  induction n generalizing b m with
  | zero => exact absurd hn (Nat.not_lt_zero b)
  | succ n ih =>
    refine .of_succ hm (fun m hm => ?_) (Parse.bind_eq_error.2 (.inl hend)).symm
    refine h.bind fun b₁ arg u₁ h₁ he => accept.bind fun b₂ closed u₂ h₂ hu₂ => ?_
    cases closed with
    | true =>
      refine .pure ?_
      rw [SpellsEach, Expr.mentionsEach, he]
      simp [Expr.mentionsEach, Token.mentions_of_kind _ hu₂]
    | false =>
      refine expect.bind fun b₃ t u₃ h₃ hu₃ => ?_
      refine (ih (h.within (by omega)) (by omega) (by omega)).bind fun b₄ args u₄ h₄ hu₄ => ?_
      refine .pure ?_
      rw [SpellsEach, Expr.mentionsEach, he, hu₄]
      simp [Token.mentions_of_kind _ hu₂, Token.mentions_of_kind _ hu₃.2]

theorem arguments {expr : Reading Expr} {expr' : Parse Expr} {n : Nat}
    (h : Tracks d b 1 Spells expr expr') (hn : b < n)
    (hend : expr' [] = Parse.expected .expression []) :
    Tracks d b 1 SpellsEach (Reading.arguments n expr) (Parse.arguments expr') := by
  refine expect.bind fun b₁ t u₁ h₁ hu₁ => accept.bind fun b₂ closed u₂ h₂ hu₂ => ?_
  have ht : Token.mentions (u₁ ++ u₂) = [] := by
    simp [Token.mentions_of_kind _ hu₁.2, Token.mentions_of_kind _ hu₂]
  cases closed with
  | true => exact .pure (by simpa [SpellsEach, Expr.mentionsEach] using ht)
  | false =>
    refine .remaining_bind fun ts hts => ?_
    refine ((h.within (by omega)).argumentsMore (by omega) le_rfl hend).mono (Nat.zero_le 1) ?_
    intro args used hu
    rw [SpellsEach, hu, ← List.append_assoc, Token.mentions_append, ht, List.nil_append]

theorem intLiteral : Tracks d b 1 Spells Reading.intLiteral Parse.intLiteral := by
  refine expectText.bind ?_
  rintro b₁ ⟨text, line⟩ used - ⟨t, rfl, hk, -, -⟩
  dsimp only
  cases Numeral.int64? text with
  | some value => exact .pure (by simp [Spells, Expr.mentions, Token.mentions_cons _, hk])
  | none => exact fail

theorem term {n m : Nat} (hn : b < n) (hm : b ≤ m) :
    Tracks d b 1 Spells (Reading.term n) (Parse.term m) := by
  induction n generalizing b m with
  | zero => exact absurd hn (Nat.not_lt_zero b)
  | succ n ih =>
    refine .of_succ hm (fun m hm => ?_) rfl
    -- A term inside another comes after a token, so it has a token less and a bound less.
    intro r hr
    refine .peek_bind ?_
    generalize hk : r.rest.head?.map Token.kind = kind
    rcases kind with _ | kind
    · exact expected r hr
    cases kind
    case intLit => exact intLiteral r hr
    case ident =>
      refine expectText.bind ?_ r hr
      rintro b₁ ⟨name, line⟩ used - ⟨t, rfl, hk, hl, ht⟩
      exact .pure (by simp [Spells, Expr.mentions, Token.mentions, Token.mention?, hk, hl, ht])
    case fnName =>
      refine expectText.bind ?_ r hr
      rintro b₁ ⟨name, line⟩ used h₁ ⟨t, rfl, hk, -, -⟩
      refine (((ih (by omega) (by omega)).climb (by omega) 0).arguments (by omega) ?_).bind ?_
      · cases m <;> rfl
      · intro b₂ args u₂ _ hu
        exact .pure (by rw [Spells, Expr.mentions, hu]; simp [Token.mentions_cons, hk])
    case openParen =>
      refine .skip_bind hr hk fun b₁ t h₁ ht => ?_
      refine ((ih (by omega) (by omega)).climb (by omega) 0).bind fun b₂ inner u₂ h₂ hu₂ => ?_
      refine expect.bind fun b₃ c u₃ h₃ hu₃ => ?_
      refine .pure ?_
      rw [Spells, Expr.mentions, hu₂, Token.mentions_cons _ (by simp [ht])]
      simp [Token.mentions_of_kind _ hu₃.2]
    case minus =>
      refine .skip_bind hr hk fun b₁ t h₁ ht => ?_
      refine (ih (by omega) (by omega)).bind fun b₂ operand u₂ h₂ hu₂ => ?_
      refine .pure ?_
      rw [Spells, Expr.mentions, Expr.mentions, hu₂, Token.mentions_cons _ (by simp [ht])]
      simp [Expr.mentions]
    all_goals exact expected r hr

theorem expr {n : Nat} (hn : b < n) : Tracks d b 1 Spells (Reading.expr n) Parse.expr := by
  refine .remaining_bind fun ts ht => ?_
  exact (term (by omega) le_rfl).climb (by omega) 0

end Tracks

end Expressions

section Conditions

variable {d b : Nat}

namespace Tracks

theorem comparison? : Tracks d b 0 (fun _ _ => True) Reading.comparison? Parse.comparison? := by
  refine peek_bind fun kind => ?_
  rcases kind with _ | kind
  · exact .pure trivial
  cases kind
  case eq =>
    refine expect.bind fun b₁ first _ _ _ => accept.bind fun b₂ double _ _ _ => ?_
    cases double with
    | true => exact .pure trivial
    | false => exact fail
  case gt => exact skip.bind fun _ _ _ _ _ => accept.bind fun _ _ _ _ _ => .pure trivial
  case lt => exact skip.bind fun _ _ _ _ _ => accept.bind fun _ _ _ _ _ => .pure trivial
  all_goals exact .pure trivial

theorem link {n : Nat} (hn : b < n) (connector : Connector) :
    Tracks d b 1 (fun _ _ => True) (Reading.link n connector) (Parse.link connector) := by
  refine (expr hn).bind fun b₁ lhs _ h₁ _ => comparison?.bind fun b₂ cmp _ h₂ _ => ?_
  cases cmp with
  | some cmp => exact (expr (by omega)).bind fun _ _ _ _ _ => .pure trivial
  | none => exact .pure trivial

theorem links {n₀ n m : Nat} (h₀ : b < n₀) (hn : b < n) (hm : b ≤ m) :
    Tracks d b 0 (fun _ _ => True) (Reading.links n₀ n) (Parse.links m) := by
  induction n generalizing b m with
  | zero => exact absurd hn (Nat.not_lt_zero b)
  | succ n ih =>
    refine .of_succ hm (fun m hm => ?_) rfl
    have hlink {b' : Nat} (hb : b' ≤ b) (connector : Connector) : Tracks d b' 0 (fun _ _ => True)
        (Reading.link n₀ connector >>= fun c => Reading.links n₀ n >>= fun cs =>
          Pure.pure (c :: cs))
        (Parse.link connector >>= fun c => Parse.links m >>= fun cs => Pure.pure (c :: cs)) :=
      (link (by omega) connector).bind fun b₁ _ _ h₁ _ =>
        (ih (by omega) (by omega) (by omega)).bind fun _ _ _ _ _ => .pure trivial
    refine accept.bind fun b₁ conj _ h₁ _ => ?_
    cases conj with
    | true => exact hlink h₁ .and
    | false =>
      refine accept.bind fun b₂ disj _ h₂ _ => ?_
      cases disj with
      | true => exact hlink (h₂.trans h₁) .or
      | false => exact .pure trivial

theorem condition {n : Nat} (hn : b < n) :
    Tracks d b 1 (fun _ _ => True) (Reading.condition n) Parse.condition := by
  refine (link hn .and).bind fun b₁ first _ h₁ _ => .remaining_bind fun ts hts => ?_
  exact (links (by omega) (by omega) le_rfl).bind fun _ _ _ _ _ => .pure trivial

theorem parenCondition {n : Nat} (hn : b ≤ n) :
    Tracks d b 1 (fun _ _ => True) (Reading.parenCondition n) Parse.parenCondition := by
  refine expect.bind fun b₁ _ _ h₁ _ => (condition (by omega)).bind fun b₂ _ _ h₂ _ => ?_
  exact expect.bind fun _ _ _ _ _ => .pure trivial

end Tracks

end Conditions

end Stackwise
