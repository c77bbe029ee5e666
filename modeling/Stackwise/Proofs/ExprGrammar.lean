import Stackwise.Grammar.Expr
import Mathlib

/-! The grammar of expressions.  An expression is read exactly where the grammar derives it and no
operator goes on from there, so a list of tokens is read as one expression at most.  The grammar has
two levels of operators above terms, and the reader climbs from one precedence to the next; on trees
it is a condition on the operands of an operator, together with the tokens that a tree is written
as. -/
namespace Stackwise

/-- One or more ASCII digits, which denote a number. -/
def Numeral.Denotes (text : String) (n : Nat) : Prop :=
  text.toList ≠ [] ∧ (∀ c ∈ text.toList, c.isDigit) ∧
    Nat.ofDigits 10 (text.toList.reverse.map fun c => c.toNat - '0'.toNat) = n

/-- An integer literal carries digits. -/
def Token.Lexical (t : Token) : Prop :=
  t.kind = .intLit → ∀ text ∈ t.literal, ∀ c ∈ text.toList, c.isDigit

namespace Expr

def isTerm : Expr → Bool
  | .bin .. => false
  | _ => true

/-- Whether an expression is a term or is made by an operator of the higher precedence. -/
def isProduct : Expr → Bool
  | .bin op _ _ => op.precedence = 1
  | _ => true

mutual

/-- What an operator takes as operands, here and everywhere inside. -/
def WellShaped : Expr → Prop
  | .int _ => True
  | .ident _ _ => True
  | .paren inner => inner.WellShaped
  | .call _ args _ => WellShapedEach args
  | .bin op lhs rhs => lhs.WellShaped ∧ rhs.WellShaped ∧
      if op.precedence = 1 then lhs.isProduct ∧ rhs.isTerm else rhs.isProduct

def WellShapedEach : List Expr → Prop
  | [] => True
  | e :: es => e.WellShaped ∧ WellShapedEach es

end

mutual

/-- The tokens that a tree is written as, in order.  A product of a term and the literal -1 in
parentheses is written as the term after a minus sign. -/
inductive Yields : Expr → List Token → Prop
  | int {t : Token} {text : String} {v : Int64} {n : Nat} : t.kind = .intLit →
    t.literal = some text → Numeral.Denotes text n → v.toInt = n → Yields (.int v) [t]
  | ident {t : Token} {name : String} : t.kind = .ident → t.literal = some name →
    Yields (.ident name t.line) [t]
  | paren {o c : Token} {inner : Expr} {ts : List Token} : o.kind = .openParen →
    c.kind = .closeParen → Yields inner ts → Yields (.paren inner) (o :: (ts ++ [c]))
  | minus {m : Token} {e : Expr} {ts : List Token} : m.kind = .minus → e.isTerm → Yields e ts →
    Yields (.paren (.bin .mul e (.int (-1)))) (m :: ts)
  | call {f o c : Token} {name : String} {args : List Expr} {ts : List Token} : f.kind = .fnName →
    f.literal = some name → o.kind = .openParen → c.kind = .closeParen → YieldsEach args ts →
    Yields (.call name args f.line) (f :: o :: (ts ++ [c]))
  | bin {t : Token} {op : BinOp} {lhs rhs : Expr} {ts ts' : List Token} : Yields lhs ts →
    t.kind.binOp? = some op → Yields rhs ts' → Yields (.bin op lhs rhs) (ts ++ t :: ts')

inductive YieldsEach : List Expr → List Token → Prop
  | nil : YieldsEach [] []
  | one {e : Expr} {ts : List Token} : Yields e ts → YieldsEach [e] ts
  | more {t : Token} {e e' : Expr} {es : List Expr} {ts ts' : List Token} : Yields e ts →
    t.kind = .comma → YieldsEach (e' :: es) ts' → YieldsEach (e :: e' :: es) (ts ++ t :: ts')

end

inductive Level where
  | term | product | sum
deriving DecidableEq, Repr

mutual

/-- The grammar: sums of products of terms, both grouping to the left. -/
inductive Derives : Level → Expr → List Token → Prop
  | int {t : Token} {text : String} {v : Int64} {n : Nat} : t.kind = .intLit →
    t.literal = some text → Numeral.Denotes text n → v.toInt = n → Derives .term (.int v) [t]
  | ident {t : Token} {name : String} : t.kind = .ident → t.literal = some name →
    Derives .term (.ident name t.line) [t]
  | paren {o c : Token} {inner : Expr} {ts : List Token} : o.kind = .openParen →
    c.kind = .closeParen → Derives .sum inner ts → Derives .term (.paren inner) (o :: (ts ++ [c]))
  | minus {m : Token} {e : Expr} {ts : List Token} : m.kind = .minus → Derives .term e ts →
    Derives .term (.paren (.bin .mul e (.int (-1)))) (m :: ts)
  | call {f o c : Token} {name : String} {args : List Expr} {ts : List Token} : f.kind = .fnName →
    f.literal = some name → o.kind = .openParen → c.kind = .closeParen → DerivesEach args ts →
    Derives .term (.call name args f.line) (f :: o :: (ts ++ [c]))
  | ofTerm {e : Expr} {ts : List Token} : Derives .term e ts → Derives .product e ts
  | product {t : Token} {op : BinOp} {lhs rhs : Expr} {ts ts' : List Token} :
    Derives .product lhs ts → t.kind.binOp? = some op → op.precedence = 1 →
    Derives .term rhs ts' → Derives .product (.bin op lhs rhs) (ts ++ t :: ts')
  | ofProduct {e : Expr} {ts : List Token} : Derives .product e ts → Derives .sum e ts
  | sum {t : Token} {op : BinOp} {lhs rhs : Expr} {ts ts' : List Token} :
    Derives .sum lhs ts → t.kind.binOp? = some op → op.precedence = 0 →
    Derives .product rhs ts' → Derives .sum (.bin op lhs rhs) (ts ++ t :: ts')

inductive DerivesEach : List Expr → List Token → Prop
  | nil : DerivesEach [] []
  | one {e : Expr} {ts : List Token} : Derives .sum e ts → DerivesEach [e] ts
  | more {t : Token} {e e' : Expr} {es : List Expr} {ts ts' : List Token} : Derives .sum e ts →
    t.kind = .comma → DerivesEach (e' :: es) ts' → DerivesEach (e :: e' :: es) (ts ++ t :: ts')

end

section Shape

theorem isProduct_of_isTerm {e : Expr} (h : e.isTerm) : e.isProduct := by
  cases e <;> simp_all [isTerm, isProduct]

def Level.Holds : Level → Expr → Prop
  | .term, e => e.isTerm
  | .product, e => e.isProduct
  | .sum, _ => True

mutual

theorem Derives.shape {l : Level} {e : Expr} {ts : List Token} :
    e.Derives l ts → e.WellShaped ∧ e.Yields ts ∧ l.Holds e
  | .int hk hl hd hv => ⟨trivial, .int hk hl hd hv, rfl⟩
  | .ident hk hl => ⟨trivial, .ident hk hl, rfl⟩
  | .paren ho hc h => by
    obtain ⟨hs, hy, -⟩ := h.shape
    exact ⟨hs, .paren ho hc hy, rfl⟩
  | .minus hm h => by
    obtain ⟨hs, hy, ht⟩ := h.shape
    exact ⟨⟨hs, trivial, isProduct_of_isTerm ht, rfl⟩, .minus hm ht hy, rfl⟩
  | .call hf hn ho hc h => by
    obtain ⟨hs, hy⟩ := h.shape
    exact ⟨hs, .call hf hn ho hc hy, rfl⟩
  | .ofTerm h => by
    obtain ⟨hs, hy, ht⟩ := h.shape
    exact ⟨hs, hy, isProduct_of_isTerm ht⟩
  | .product h₁ hb hp h₂ => by
    obtain ⟨hs₁, hy₁, ht₁⟩ := h₁.shape
    obtain ⟨hs₂, hy₂, ht₂⟩ := h₂.shape
    exact ⟨⟨hs₁, hs₂, by rw [if_pos hp]; exact ⟨ht₁, ht₂⟩⟩, .bin hy₁ hb hy₂,
      by simpa [Level.Holds, isProduct] using hp⟩
  | .ofProduct h => by
    obtain ⟨hs, hy, -⟩ := h.shape
    exact ⟨hs, hy, trivial⟩
  | .sum h₁ hb hp h₂ => by
    obtain ⟨hs₁, hy₁, -⟩ := h₁.shape
    obtain ⟨hs₂, hy₂, ht₂⟩ := h₂.shape
    exact ⟨⟨hs₁, hs₂, by rw [if_neg (by omega)]; exact ht₂⟩, .bin hy₁ hb hy₂, trivial⟩

theorem DerivesEach.shape {es : List Expr} {ts : List Token} :
    DerivesEach es ts → WellShapedEach es ∧ YieldsEach es ts
  | .nil => ⟨trivial, .nil⟩
  | .one h => by
    obtain ⟨hs, hy, -⟩ := h.shape
    exact ⟨⟨hs, trivial⟩, .one hy⟩
  | .more h hc hm => by
    obtain ⟨hs, hy, -⟩ := h.shape
    obtain ⟨hs', hy'⟩ := hm.shape
    exact ⟨⟨hs, hs'⟩, .more hy hc hy'⟩

end

theorem Derives.of_term {e : Expr} {ts : List Token} (h : e.Derives .term ts) (l : Level) :
    e.Derives l ts := by
  cases l with
  | term => exact h
  | product => exact .ofTerm h
  | sum => exact .ofProduct (.ofTerm h)

mutual

theorem Yields.derives {e : Expr} {ts : List Token} :
    e.Yields ts → e.WellShaped → ∀ l : Level, l.Holds e → e.Derives l ts
  | .int hk hl hd hv, _, l, _ => Derives.of_term (.int hk hl hd hv) l
  | .ident hk hl, _, l, _ => Derives.of_term (.ident hk hl) l
  | .paren ho hc h, hs, l, _ => Derives.of_term (.paren ho hc (h.derives hs .sum trivial)) l
  | .minus hm ht h, hs, l, _ => Derives.of_term (.minus hm (h.derives hs.1 .term ht)) l
  | .call hf hn ho hc h, hs, l, _ => Derives.of_term (.call hf hn ho hc (h.derives hs)) l
  | @Yields.bin _ op _ _ _ _ h₁ hb h₂, ⟨hs₁, hs₂, ho⟩, l, hl => by
    by_cases hp : op.precedence = 1
    · rw [if_pos hp] at ho
      have hd : Derives .product (.bin op _ _) _ :=
        .product (h₁.derives hs₁ .product ho.1) hb hp (h₂.derives hs₂ .term ho.2)
      cases l with
      | term => simp [Level.Holds, isTerm] at hl
      | product => exact hd
      | sum => exact .ofProduct hd
    · rw [if_neg hp] at ho
      have h0 : op.precedence = 0 := by cases op <;> simp_all [BinOp.precedence]
      cases l with
      | term => simp [Level.Holds, isTerm] at hl
      | product => simp [Level.Holds, isProduct, hp] at hl
      | sum => exact .sum (h₁.derives hs₁ .sum trivial) hb h0 (h₂.derives hs₂ .product ho)

theorem YieldsEach.derives {es : List Expr} {ts : List Token} :
    YieldsEach es ts → WellShapedEach es → DerivesEach es ts
  | .nil, _ => .nil
  | .one h, hs => .one (h.derives hs.1 .sum trivial)
  | .more h hc hm, hs => .more (h.derives hs.1 .sum trivial) hc (hm.derives hs.2)

end

/-- The grammar derives the well-shaped trees. -/
theorem derives_sum {e : Expr} {ts : List Token} :
    e.Derives .sum ts ↔ e.WellShaped ∧ e.Yields ts := by
  constructor
  · intro h
    obtain ⟨hs, hy, -⟩ := h.shape
    exact ⟨hs, hy⟩
  · rintro ⟨hs, hy⟩
    exact hy.derives hs .sum trivial

end Shape

end Expr

namespace Numeral

theorem isDigit_iff {c : Char} : c.isDigit ↔ 48 ≤ c.toNat ∧ c.toNat ≤ 57 := by
  simp only [Char.isDigit, Bool.and_eq_true, decide_eq_true_eq, ge_iff_le, UInt32.le_iff_toNat_le]
  rfl

theorem foldlM_digits {cs : List Char} (h : ∀ c ∈ cs, c.isDigit) : ∀ v : Nat,
    cs.foldlM (fun v c => (decimalValue? c).map (v * 10 + ·)) v =
      some (cs.foldl (fun v c => v * 10 + (c.toNat - 48)) v) := by
  induction cs with
  | nil => exact fun v => rfl
  | cons c cs ih =>
    intro v
    rw [List.forall_mem_cons] at h
    rw [List.foldlM_cons, decimalValue?, if_pos (isDigit_iff.1 h.1)]
    exact ih h.2 _

theorem read?_digits {cs : List Char} (hn : cs ≠ []) (h : ∀ c ∈ cs, c.isDigit) :
    read? cs = some (Nat.ofDigits 10 (cs.reverse.map fun c => c.toNat - '0'.toNat)) := by
  have hf : Nat.ofDigits 10 (cs.reverse.map fun c => c.toNat - '0'.toNat) =
      cs.foldl (fun v c => v * 10 + (c.toNat - 48)) 0 := by
    rw [Nat.ofDigits_eq_foldr, List.foldr_map, List.foldr_reverse]
    congr 1
    funext v c
    simp only [Nat.cast_id]
    rw [Nat.add_comm, Nat.mul_comm]
    rfl
  rw [hf, ← foldlM_digits h]
  cases cs with
  | nil => exact absurd rfl hn
  | cons c cs => rfl

theorem readSigned?_digits {cs : List Char} (h : ∀ c ∈ cs, c.isDigit) :
    readSigned? cs = (read? cs).map Int.ofNat := by
  unfold readSigned?
  split
  · exact absurd (h '-' (by simp)) (by decide)
  · exact absurd (h '+' (by simp)) (by decide)
  · rfl

/-- Digits are read as the number that they denote, if it is in range. -/
theorem int64?_eq_some {text : String} {v : Int64} (h : ∀ c ∈ text.toList, c.isDigit) :
    int64? text = some v ↔ ∃ n, Denotes text n ∧ v.toInt = n := by
  rw [int64?, readSigned?_digits h]
  by_cases hn : text.toList = []
  · simp [hn, read?, Denotes]
  rw [read?_digits hn h]
  generalize hm : Nat.ofDigits 10 (text.toList.reverse.map fun c => c.toNat - '0'.toNat) = m
  have hd : ∀ n, Denotes text n ↔ n = m := fun n =>
    ⟨fun hd => hd.2.2.symm.trans hm, fun he => ⟨hn, h, hm.trans he.symm⟩⟩
  have hmin : Int64.minValue.toInt = -2 ^ 63 := by decide
  have hmax : Int64.maxValue.toInt = 2 ^ 63 - 1 := by decide
  simp only [Option.map_some, Option.bind_some, hd, exists_eq_left, hmin, hmax,
    Int.ofNat_eq_natCast]
  constructor
  · intro he
    split at he
    · obtain rfl := Option.some.inj he
      exact Int64.toInt_ofInt_of_le (by omega) (by omega)
    · cases he
  · intro he
    have hlt := v.toInt_lt
    rw [if_pos (by omega), ← he, Int64.ofInt_toInt]

end Numeral

/-- The kinds of token that a term starts with. -/
def TokenKind.startsTerm : TokenKind → Bool
  | intLit | ident | fnName | openParen | minus => true
  | _ => false

theorem TokenKind.startsTerm_ne {kind kind' : TokenKind} (h : kind.startsTerm)
    (h' : kind'.startsTerm = false) : kind ≠ kind' := by
  rintro rfl
  simp [h] at h'

namespace Parse

section Steps

variable {α β : Type} {ts : List Token}

theorem bind_of_ok {p : Parse α} {f : α → Parse β} {a : α} {mid : List Token}
    (h : p ts = .ok a mid) : (p >>= f) ts = f a mid := by
  change EStateM.bind p f ts = _
  simp [EStateM.bind, h]

theorem peek_bind {f : Option TokenKind → Parse β} :
    (peek >>= f) ts = f (ts.head?.map Token.kind) ts := rfl

theorem remaining_bind {f : List Token → Parse β} : (remaining >>= f) ts = f ts ts := rfl

theorem skip_bind {t : Token} {f : Unit → Parse β} : (skip >>= f) (t :: ts) = f () ts := rfl

theorem expect_cons {kind : TokenKind} {t : Token} (h : t.kind = kind) :
    expect kind (t :: ts) = .ok t ts := expect_eq_ok.2 ⟨rfl, h⟩

theorem accept_cons {kind : TokenKind} {t : Token} (h : t.kind = kind) :
    accept kind (t :: ts) = .ok true ts := by
  simp [accept, h]

theorem accept_of_ne {kind : TokenKind} (h : ts.head?.map Token.kind ≠ some kind) :
    accept kind ts = .ok false ts := by
  cases ts with
  | nil => rfl
  | cons t ts => simpa [accept] using h

theorem accept_eq_ok {kind : TokenKind} {b : Bool} {rest : List Token}
    (h : accept kind ts = .ok b rest) :
    (b = true ∧ ∃ t, ts = t :: rest ∧ t.kind = kind) ∨ (b = false ∧ ts = rest) := by
  cases ts with
  | nil =>
    cases h
    exact .inr ⟨rfl, rfl⟩
  | cons t ts =>
    by_cases hk : t.kind = kind
    · rw [accept_cons hk] at h
      cases h
      exact .inl ⟨rfl, t, rfl, hk⟩
    · rw [accept_of_ne (by simpa using hk)] at h
      cases h
      exact .inr ⟨rfl, rfl⟩

theorem expectText_cons {kind : TokenKind} {t : Token} {text : String} (h : t.kind = kind)
    (hl : t.literal = some text) : expectText kind (t :: ts) = .ok (text, t.line) ts := by
  rw [expectText, bind_of_ok (expect_cons h), hl]
  rfl

theorem expectText_eq_ok {kind : TokenKind} {text : String} {line : Nat} {rest : List Token}
    (h : expectText kind ts = .ok (text, line) rest) :
    ∃ t, ts = t :: rest ∧ t.kind = kind ∧ t.literal = some text ∧ t.line = line := by
  obtain ⟨t, mid, h₁, h₂⟩ := bind_eq_ok.1 h
  obtain ⟨rfl, hk⟩ := expect_eq_ok.1 h₁
  cases hl : t.literal with
  | none =>
    rw [hl] at h₂
    cases h₂
  | some text' =>
    rw [hl] at h₂
    cases h₂
    exact ⟨t, rfl, hk, hl, rfl⟩

end Steps

section Climbing

/-- No operator follows, or only one that belongs to the items of a `print`. -/
def Stops (ts : List Token) : Prop :=
  ∀ t rest, ts = t :: rest → t.kind.binOp?.isSome → rest.head?.map Token.kind = some .stringLit

theorem operator?_eq_some {least : Nat} {ts : List Token} {op : BinOp} :
    operator? least ts = some op ↔ ∃ t rest, ts = t :: rest ∧ t.kind.binOp? = some op ∧
      least ≤ op.precedence ∧ rest.head?.map Token.kind ≠ some .stringLit := by
  cases ts with
  | nil => simp [operator?]
  | cons t ts =>
    simp only [operator?, List.cons.injEq]
    cases hb : t.kind.binOp? with
    | none => simp [hb]
    | some op' =>
      by_cases hc : least ≤ op'.precedence ∧ ts.head?.map Token.kind ≠ some .stringLit
      · simp only [if_pos hc, Option.some.injEq]
        constructor
        · rintro rfl
          exact ⟨t, ts, ⟨rfl, rfl⟩, hb, hc⟩
        · rintro ⟨_, _, ⟨rfl, rfl⟩, hb', -⟩
          exact Option.some.inj (hb.symm.trans hb')
      · simp only [if_neg hc, reduceCtorEq, false_iff]
        rintro ⟨_, _, ⟨rfl, rfl⟩, hb', hc'⟩
        obtain rfl := Option.some.inj (hb.symm.trans hb')
        exact hc hc'

/-- The operator that follows binds no tighter than what was asked for in vain. -/
theorem precedence_lt_of_operator? {least more : Nat} {ts : List Token} {op : BinOp}
    (hn : operator? more ts = none) (h : operator? least ts = some op) : op.precedence < more := by
  obtain ⟨t, rest, rfl, hb, -, hs⟩ := operator?_eq_some.1 h
  by_contra hle
  rw [operator?_eq_some.2 ⟨t, rest, rfl, hb, Nat.le_of_not_lt hle, hs⟩] at hn
  cases hn

theorem operator?_eq_none_mono {least more : Nat} {ts : List Token} (hle : least ≤ more)
    (h : operator? least ts = none) : operator? more ts = none := by
  refine Option.eq_none_iff_forall_ne_some.2 fun op ho => ?_
  obtain ⟨-, -, -, -, hp, -⟩ := operator?_eq_some.1 ho
  exact absurd (precedence_lt_of_operator? h ho) (by omega)

theorem stops_iff {ts : List Token} : Stops ts ↔ operator? 0 ts = none := by
  simp only [Option.eq_none_iff_forall_ne_some, ne_eq, operator?_eq_some]
  constructor
  · rintro h op ⟨t, rest, rfl, hb, -, hn⟩
    exact hn (h t rest rfl (by simp [hb]))
  · rintro h t rest rfl hb
    obtain ⟨op, hb⟩ := Option.isSome_iff_exists.1 hb
    by_contra hn
    exact h op ⟨t, rest, rfl, hb, Nat.zero_le _, hn⟩

/-- Whatever a production takes off lexical tokens is derived, and what is left may follow it. -/
def Sound {α : Type} (D : α → List Token → Prop) (S : List Token → Prop) (p : Parse α) : Prop :=
  ∀ ts, (∀ t ∈ ts, t.Lexical) → ∀ a rest, p ts = .ok a rest →
    ∃ used, ts = used ++ rest ∧ D a used ∧ S rest

/-- A production takes up to `n` tokens that are derived off whatever may follow them. -/
def Complete {α : Type} (n : Nat) (D : α → List Token → Prop) (S : List Token → Prop)
    (p : Parse α) : Prop :=
  ∀ a used rest, D a used → used.length ≤ n → S rest → p (used ++ rest) = .ok a rest

/-- Terms joined by operators that bind at least as tight as given: to the left of each the
operators bind no looser, to the right they bind tighter. -/
inductive Grouped (D : Expr → List Token → Prop) : Nat → Expr → List Token → Prop
  | term {least : Nat} {e : Expr} {ts : List Token} : D e ts → Grouped D least e ts
  | join {least : Nat} {t : Token} {op : BinOp} {lhs rhs : Expr} {ts ts' : List Token} :
    Grouped D op.precedence lhs ts → t.kind.binOp? = some op →
    Grouped D (op.precedence + 1) rhs ts' → least ≤ op.precedence →
    Grouped D least (.bin op lhs rhs) (ts ++ t :: ts')

variable {D : Expr → List Token → Prop} {term : Parse Expr}

theorem Grouped.mono {least more : Nat} {e : Expr} {ts : List Token} (h : Grouped D more e ts)
    (hle : least ≤ more) : Grouped D least e ts := by
  cases h with
  | term h => exact .term h
  | join hl hb hr hp => exact .join hl hb hr (hle.trans hp)

theorem Grouped.head {least : Nat} {e : Expr} {ts : List Token} (h : Grouped D least e ts)
    (hd : ∀ e ts, D e ts → ∃ t rest, ts = t :: rest ∧ t.kind.startsTerm) :
    ∃ t rest, ts = t :: rest ∧ t.kind.startsTerm := by
  induction h with
  | term h => exact hd _ _ h
  | join _ _ _ _ ih =>
    obtain ⟨t, rest, rfl, hk⟩ := ih
    exact ⟨t, _, rfl, hk⟩

theorem climbMore_sound (hp : Sound D (fun _ => True) term) {e : Expr} {rest : List Token}
    (n : Nat) :
    ∀ {least : Nat} {lhs : Expr} {ts done : List Token}, (∀ t ∈ ts, t.Lexical) → ts.length ≤ n →
      Grouped D least lhs done →
      (∀ op, operator? least ts = some op → Grouped D op.precedence lhs done) →
      climbMore term n least lhs ts = .ok e rest →
      ∃ used, ts = used ++ rest ∧ Grouped D least e (done ++ used) ∧
        operator? least rest = none := by
  -- What was read so far may be the left operand of the operator that follows.
  induction n generalizing e rest with
  | zero =>
    intro least lhs ts done _ hl hg _ h
    obtain rfl : ts = [] := List.length_eq_zero_iff.1 (by omega)
    cases h
    exact ⟨[], rfl, by simpa using hg, rfl⟩
  | succ n ih =>
    intro least lhs ts done ht hl hg hnext h
    rw [climbMore, remaining_bind] at h
    cases ho : operator? least ts with
    | none =>
      rw [ho] at h
      cases h
      exact ⟨[], rfl, by simpa using hg, ho⟩
    | some op =>
      have hlhs := hnext op ho
      obtain ⟨t, ts, rfl, hb, hle, -⟩ := operator?_eq_some.1 ho
      simp only [ho, skip_bind] at h
      rw [List.forall_mem_cons] at ht
      obtain ⟨first, mid, h₁, hr₁⟩ := bind_eq_ok.1 h
      obtain ⟨used₁, rfl, hd, -⟩ := hp ts ht.2 first mid h₁
      have ht₁ : ∀ t ∈ mid, t.Lexical := fun t hm => ht.2 t (List.mem_append_right _ hm)
      simp only [List.length_cons, List.length_append] at hl
      obtain ⟨rhs, mid₂, h₂, hr₂⟩ := bind_eq_ok.1 hr₁
      obtain ⟨used₂, rfl, hrhs, hstop⟩ := ih ht₁ (by omega) (.term hd) (fun _ _ => .term hd) h₂
      have hbin := Grouped.join hlhs hb hrhs le_rfl
      simp only [List.length_append] at hl
      obtain ⟨used₃, rfl, he, hr⟩ := ih (fun t hm => ht₁ t (List.mem_append_right _ hm)) (by omega)
        (hbin.mono hle) (fun op' ho' => hbin.mono (Nat.le_of_lt_succ
          (precedence_lt_of_operator? hstop ho'))) hr₂
      exact ⟨t :: (used₁ ++ used₂ ++ used₃), by simp, by simpa using he, hr⟩

theorem climb_sound (hp : Sound D (fun _ => True) term) (least : Nat) :
    Sound (Grouped D least) (fun rest => operator? least rest = none) (climb term least) := by
  intro ts ht e rest h
  rw [climb, remaining_bind] at h
  obtain ⟨first, mid, h₁, h₂⟩ := bind_eq_ok.1 h
  obtain ⟨used₁, rfl, hd, -⟩ := hp ts ht first mid h₁
  obtain ⟨used₂, rfl, he, hr⟩ := climbMore_sound hp _
    (fun t hm => ht t (List.mem_append_right _ hm)) (by simp) (.term hd) (fun _ _ => .term hd) h₂
  exact ⟨used₁ ++ used₂, by simp, he, hr⟩

theorem climbMore_of_none {least : Nat} {ts : List Token} (h : operator? least ts = none) (n : Nat)
    (lhs : Expr) : climbMore term n least lhs ts = .ok lhs ts := by
  cases n with
  | zero => rfl
  | succ n =>
    rw [climbMore, remaining_bind, h]
    rfl

/-- Reading what is grouped leads to where its last term has been read, if the operator that follows
does not take that term for itself. -/
theorem climbMore_of_grouped {n : Nat} (hp : Complete n D (fun _ => True) term)
    (hd : ∀ e ts, D e ts → ∃ t rest, ts = t :: rest ∧ t.kind.startsTerm) {more : Nat} {e : Expr}
    {used : List Token} (h : Grouped D more e used) :
    used.length ≤ n → ∀ {least m : Nat} {rest : List Token}, least ≤ more →
      operator? (more + 1) rest = none → used.length + rest.length ≤ m →
      ∃ m', rest.length ≤ m' ∧
        (term >>= climbMore term m least) (used ++ rest) = climbMore term m' least e rest := by
  induction h with
  | term h =>
    intro hn least m rest _ _ hm
    exact ⟨m, by omega, bind_of_ok (hp _ _ _ h hn trivial)⟩
  | @join more t op lhs rhs ts ts' hl hb hr hle ihl ihr =>
    intro hn least m rest hleast hrest hm
    have hstop : operator? (op.precedence + 1) rest = none :=
      operator?_eq_none_mono (by omega) hrest
    obtain ⟨u, us, rfl, hu⟩ := hr.head hd
    simp only [List.length_append, List.length_cons] at hn hm
    have hs : (u :: us ++ rest).head?.map Token.kind ≠ some .stringLit := by
      simpa using TokenKind.startsTerm_ne hu rfl
    have ho : operator? least (t :: (u :: us ++ rest)) = some op :=
      operator?_eq_some.2 ⟨t, _, rfl, hb, hleast.trans hle, hs⟩
    have hend : operator? (op.precedence + 1) (t :: (u :: us ++ rest)) = none := by
      refine Option.eq_none_iff_forall_ne_some.2 fun op' ho' => ?_
      obtain ⟨t', rest', he, hb', hp', -⟩ := operator?_eq_some.1 ho'
      obtain ⟨rfl, -⟩ := List.cons.inj he
      obtain rfl := Option.some.inj (hb.symm.trans hb')
      omega
    obtain ⟨m₁, hm₁, he₁⟩ := ihl (by omega) (hleast.trans hle) hend (m := m) (by simp; omega)
    obtain ⟨m₁, rfl⟩ : ∃ k, m₁ = k + 1 := ⟨m₁ - 1, by simp at hm₁; omega⟩
    simp only [List.length_append, List.length_cons] at hm₁
    obtain ⟨m₂, -, he₂⟩ := ihr (by simp; omega) le_rfl
      (operator?_eq_none_mono (Nat.le_succ _) hstop) (m := m₁) (by simp; omega)
    refine ⟨m₁, by omega, ?_⟩
    rw [List.append_assoc, List.cons_append, he₁, climbMore, remaining_bind, ho]
    change (term >>= fun first => climbMore term m₁ (op.precedence + 1) first >>= _) _ = _
    rw [← bind_assoc]
    exact bind_of_ok (he₂.trans (climbMore_of_none hstop m₂ rhs))

theorem climb_complete {n : Nat} (hp : Complete n D (fun _ => True) term)
    (hd : ∀ e ts, D e ts → ∃ t rest, ts = t :: rest ∧ t.kind.startsTerm) (least : Nat) :
    Complete n (Grouped D least) (fun rest => operator? least rest = none) (climb term least) := by
  intro e used rest h hn hr
  obtain ⟨m, -, he⟩ := climbMore_of_grouped hp hd h hn le_rfl
    (operator?_eq_none_mono (Nat.le_succ _) hr) List.length_append.ge
  rw [climb, remaining_bind]
  exact he.trans (climbMore_of_none hr m e)

end Climbing

section Terms

open Stackwise.Expr

theorem derives_head {l : Level} {e : Expr} {ts : List Token} :
    e.Derives l ts → ∃ t rest, ts = t :: rest ∧ t.kind.startsTerm
  | .int hk .. => ⟨_, _, rfl, by rw [hk]; rfl⟩
  | .ident hk _ => ⟨_, _, rfl, by rw [hk]; rfl⟩
  | .paren ho _ _ => ⟨_, _, rfl, by rw [ho]; rfl⟩
  | .minus hm _ => ⟨_, _, rfl, by rw [hm]; rfl⟩
  | .call hf .. => ⟨_, _, rfl, by rw [hf]; rfl⟩
  | .ofTerm h => derives_head h
  | .ofProduct h => derives_head h
  | .product h₁ .. | .sum h₁ .. => by
    obtain ⟨t, rest, rfl, hk⟩ := derives_head h₁
    exact ⟨t, _, rfl, hk⟩

theorem grouped_of_derives_product {e : Expr} {ts : List Token} :
    e.Derives .product ts → Grouped (Derives .term) 1 e ts
  | .ofTerm h => .term h
  | .product h₁ hb hp h₂ =>
    .join (hp ▸ grouped_of_derives_product h₁) hb (.term h₂) hp.ge

theorem grouped_of_derives_sum {e : Expr} {ts : List Token} :
    e.Derives .sum ts → Grouped (Derives .term) 0 e ts
  | .ofProduct h => (grouped_of_derives_product h).mono (Nat.zero_le 1)
  | .sum h₁ hb hp h₂ =>
    .join (hp ▸ grouped_of_derives_sum h₁) hb (hp ▸ grouped_of_derives_product h₂) hp.ge

/-- With operators of two precedences, grouping gives the levels of the grammar. -/
theorem derives_of_grouped {least : Nat} {e : Expr} {ts : List Token}
    (h : Grouped (Derives .term) least e ts) :
    e.Derives .sum ts ∧ (1 ≤ least → e.Derives .product ts) ∧ (2 ≤ least → e.Derives .term ts) := by
  induction h with
  | term h => exact ⟨h.of_term _, fun _ => h.of_term _, fun _ => h⟩
  | @join least t op lhs rhs ts ts' _ hb _ hle ihl ihr =>
    have hcases : op.precedence = 0 ∨ op.precedence = 1 := by cases op <;> simp [BinOp.precedence]
    rcases hcases with hp | hp
    · refine ⟨.sum ihl.1 hb hp (ihr.2.1 (by omega)), fun _ => ?_, fun _ => ?_⟩ <;> omega
    · have hd : (Expr.bin op lhs rhs).Derives .product (ts ++ t :: ts') :=
        .product (ihl.2.1 hp.ge) hb hp (ihr.2.2 (by omega))
      exact ⟨.ofProduct hd, fun _ => hd, fun _ => by omega⟩

theorem derives_sum_iff {e : Expr} {ts : List Token} :
    e.Derives .sum ts ↔ Grouped (Derives .term) 0 e ts :=
  ⟨grouped_of_derives_sum, fun h => (derives_of_grouped h).1⟩

theorem climb_sum_sound {term : Parse Expr} (h : Sound (Derives .term) (fun _ => True) term) :
    Sound (Derives .sum) Stops (climb term 0) := by
  intro ts ht e rest hr
  obtain ⟨used, rfl, hg, hs⟩ := climb_sound h 0 ts ht e rest hr
  exact ⟨used, rfl, derives_sum_iff.2 hg, stops_iff.2 hs⟩

theorem climb_sum_complete {n : Nat} {term : Parse Expr}
    (h : Complete n (Derives .term) (fun _ => True) term) :
    Complete n (Derives .sum) Stops (climb term 0) := by
  intro e used rest hd hn hs
  exact climb_complete h (fun _ _ => derives_head) 0 e used rest (derives_sum_iff.1 hd) hn
    (stops_iff.1 hs)

theorem stops_of_binOp?_eq_none {t : Token} {ts : List Token} (h : t.kind.binOp? = none) :
    Stops (t :: ts) := by
  rintro _ _ he hb
  obtain ⟨rfl, rfl⟩ := List.cons.inj he
  simp [h] at hb

/-- Expressions with commas between them, at least one, and the closing parenthesis. -/
def ClosedArgs (args : List Expr) (ts : List Token) : Prop :=
  args ≠ [] ∧ ∃ inner c, ts = inner ++ [c] ∧ DerivesEach args inner ∧ c.kind = .closeParen

theorem argumentsMore_sound {expr : Parse Expr} (h : Sound (Derives .sum) Stops expr) (n : Nat) :
    Sound ClosedArgs (fun _ => True) (argumentsMore expr n) := by
  induction n with
  | zero => nofun
  | succ n ih =>
    intro ts ht args rest hr
    obtain ⟨arg, mid, h₁, hr₁⟩ := bind_eq_ok.1 hr
    obtain ⟨used, rfl, hd, -⟩ := h ts ht arg mid h₁
    have hm : ∀ t ∈ mid, t.Lexical := fun t hm => ht t (List.mem_append_right _ hm)
    obtain ⟨b, mid', h₂, hr₂⟩ := bind_eq_ok.1 hr₁
    rcases accept_eq_ok h₂ with ⟨rfl, c, rfl, hc⟩ | ⟨rfl, rfl⟩
    · cases hr₂
      exact ⟨used ++ [c], by simp, ⟨by simp, used, c, rfl, .one hd, hc⟩, trivial⟩
    · obtain ⟨t, mid', h₃, hr₃⟩ := bind_eq_ok.1 hr₂
      obtain ⟨rfl, hk⟩ := expect_eq_ok.1 h₃
      obtain ⟨args', mid, h₄, hr₄⟩ := bind_eq_ok.1 hr₃
      cases hr₄
      rw [List.forall_mem_cons] at hm
      obtain ⟨used', rfl, ⟨hne, inner, c, rfl, hi, hc⟩, -⟩ := ih mid' hm.2 args' rest h₄
      obtain ⟨arg', args', rfl⟩ := List.exists_cons_of_ne_nil hne
      exact ⟨used ++ t :: (inner ++ [c]), by simp,
        ⟨by simp, used ++ t :: inner, c, by simp, .more hd hk hi, hc⟩, trivial⟩

theorem argumentsMore_complete {n : Nat} {expr : Parse Expr}
    (h : Complete n (Derives .sum) Stops expr)
    {c : Token} (hc : c.kind = .closeParen) {rest : List Token} {args : List Expr} :
    ∀ {inner : List Token} {m : Nat}, args ≠ [] → DerivesEach args inner → inner.length ≤ n →
      inner.length < m → argumentsMore expr m (inner ++ c :: rest) = .ok args rest := by
  induction args with
  | nil => exact fun hne => absurd rfl hne
  | cons arg args ih =>
    intro inner m _ hd hn hm
    obtain ⟨m, rfl⟩ : ∃ k, m = k + 1 := ⟨m - 1, by omega⟩
    cases hd with
    | one hd =>
      have hs : Stops (c :: rest) := stops_of_binOp?_eq_none (by rw [hc]; rfl)
      rw [argumentsMore, bind_of_ok (h _ _ _ hd hn hs), bind_of_ok (accept_cons hc)]
      rfl
    | @more t _ arg' args used inner hd hk hds =>
      simp only [List.length_append, List.length_cons] at hn hm
      have hs : Stops (t :: (inner ++ c :: rest)) := stops_of_binOp?_eq_none (by rw [hk]; rfl)
      rw [argumentsMore, List.append_assoc, List.cons_append,
        bind_of_ok (h _ _ _ hd (by omega) hs), bind_of_ok (accept_of_ne (by simp [hk]))]
      simp only [Bool.false_eq_true, if_false]
      rw [bind_of_ok (expect_cons hk), bind_of_ok (ih (by simp) hds (by omega) (by omega))]
      rfl

theorem arguments_sound {expr : Parse Expr} (h : Sound (Derives .sum) Stops expr) :
    Sound (fun args ts => ∃ o inner c, ts = o :: (inner ++ [c]) ∧ o.kind = .openParen ∧
      DerivesEach args inner ∧ c.kind = .closeParen) (fun _ => True) (arguments expr) := by
  intro ts ht args rest hr
  obtain ⟨o, mid, h₁, hr₁⟩ := bind_eq_ok.1 hr
  obtain ⟨rfl, ho⟩ := expect_eq_ok.1 h₁
  rw [List.forall_mem_cons] at ht
  obtain ⟨b, mid', h₂, hr₂⟩ := bind_eq_ok.1 hr₁
  rcases accept_eq_ok h₂ with ⟨rfl, c, rfl, hc⟩ | ⟨rfl, rfl⟩
  · cases hr₂
    exact ⟨[o, c], rfl, ⟨o, [], c, rfl, ho, .nil, hc⟩, trivial⟩
  · obtain ⟨used, rfl, ⟨-, inner, c, rfl, hd, hc⟩, -⟩ :=
      argumentsMore_sound h _ mid ht.2 args rest hr₂
    exact ⟨o :: (inner ++ [c]), rfl, ⟨o, inner, c, rfl, ho, hd, hc⟩, trivial⟩

theorem arguments_complete {n : Nat} {expr : Parse Expr} (h : Complete n (Derives .sum) Stops expr)
    {o c : Token} (ho : o.kind = .openParen) (hc : c.kind = .closeParen) {args : List Expr}
    {inner rest : List Token} (hd : DerivesEach args inner) (hn : inner.length ≤ n) :
    arguments expr (o :: (inner ++ c :: rest)) = .ok args rest := by
  rw [arguments, bind_of_ok (expect_cons ho)]
  cases args with
  | nil =>
    cases hd
    exact bind_of_ok (accept_cons hc)
  | cons arg args =>
    have hh : ∃ t ts, inner = t :: ts ∧ t.kind.startsTerm := by
      cases hd with
      | one hd => exact derives_head hd
      | more hd _ _ =>
        obtain ⟨t, ts, rfl, hk⟩ := derives_head hd
        exact ⟨t, _, rfl, hk⟩
    obtain ⟨t, ts, rfl, hk⟩ := hh
    rw [bind_of_ok (accept_of_ne (by simpa using TokenKind.startsTerm_ne hk rfl))]
    simp only [Bool.false_eq_true, if_false]
    rw [remaining_bind]
    exact argumentsMore_complete h hc (by simp) hd hn (by simp)

/-- Terms are read as the grammar derives them, whatever follows. -/
theorem term_sound (n : Nat) : Sound (Derives .term) (fun _ => True) (term n) := by
  induction n with
  | zero => nofun
  | succ n ih =>
    intro ts ht e rest h
    rw [term, peek_bind] at h
    cases ts with
    | nil => cases h
    | cons t ts =>
      rw [List.forall_mem_cons] at ht
      simp only [List.head?_cons, Option.map_some] at h
      cases hk : t.kind <;> simp only [hk] at h
      case intLit =>
        obtain ⟨⟨text, line⟩, mid, h₁, h₂⟩ := bind_eq_ok.1 h
        obtain ⟨t', he, -, hl, -⟩ := expectText_eq_ok h₁
        obtain ⟨rfl, rfl⟩ := List.cons.inj he
        cases hi : Numeral.int64? text with
        | none =>
          simp only [hi] at h₂
          cases h₂
        | some v =>
          simp only [hi] at h₂
          cases h₂
          obtain ⟨n, hd, hv⟩ := (Numeral.int64?_eq_some (ht.1 hk text hl)).1 hi
          exact ⟨[t], rfl, .int hk hl hd hv, trivial⟩
      case ident =>
        obtain ⟨⟨name, line⟩, mid, h₁, h₂⟩ := bind_eq_ok.1 h
        obtain ⟨t', he, -, hl, rfl⟩ := expectText_eq_ok h₁
        obtain ⟨rfl, rfl⟩ := List.cons.inj he
        cases h₂
        exact ⟨[t], rfl, .ident hk hl, trivial⟩
      case fnName =>
        obtain ⟨⟨name, line⟩, mid, h₁, h₂⟩ := bind_eq_ok.1 h
        obtain ⟨t', he, -, hl, rfl⟩ := expectText_eq_ok h₁
        obtain ⟨rfl, rfl⟩ := List.cons.inj he
        obtain ⟨args, mid, h₃, h₄⟩ := bind_eq_ok.1 h₂
        cases h₄
        obtain ⟨used, rfl, ⟨o, inner, c, rfl, ho, hd, hc⟩, -⟩ :=
          arguments_sound (climb_sum_sound ih) ts ht.2 args rest h₃
        exact ⟨t :: o :: (inner ++ [c]), rfl, .call hk hl ho hc hd, trivial⟩
      case openParen =>
        rw [skip_bind] at h
        obtain ⟨inner, mid, h₁, h₂⟩ := bind_eq_ok.1 h
        obtain ⟨used, rfl, hd, -⟩ := climb_sum_sound ih ts ht.2 inner mid h₁
        obtain ⟨c, mid', h₃, h₄⟩ := bind_eq_ok.1 h₂
        obtain ⟨rfl, hc⟩ := expect_eq_ok.1 h₃
        cases h₄
        exact ⟨t :: (used ++ [c]), by simp, .paren hk hc hd, trivial⟩
      case minus =>
        rw [skip_bind] at h
        obtain ⟨operand, mid, h₁, h₂⟩ := bind_eq_ok.1 h
        obtain ⟨used, rfl, hd, -⟩ := ih ts ht.2 operand mid h₁
        cases h₂
        exact ⟨t :: used, rfl, .minus hk hd, trivial⟩
      all_goals cases h

theorem term_complete (n : Nat) : Complete n (Derives .term) (fun _ => True) (term n) := by
  induction n with
  | zero =>
    intro e used rest hd hn
    obtain ⟨t, ts, rfl, -⟩ := derives_head hd
    simp at hn
  | succ n ih =>
    intro e used rest hd hn _
    cases hd with
    | int hk hl hd hv =>
      rw [term, List.singleton_append, peek_bind]
      simp only [List.head?_cons, Option.map_some, hk]
      rw [intLiteral, bind_of_ok (expectText_cons hk hl)]
      simp only [(Numeral.int64?_eq_some hd.2.1).2 ⟨_, hd, hv⟩]
      rfl
    | ident hk hl =>
      rw [term, List.singleton_append, peek_bind]
      simp only [List.head?_cons, Option.map_some, hk]
      rw [bind_of_ok (expectText_cons hk hl)]
      rfl
    | @paren o c inner ts ho hc hd =>
      simp only [List.length_cons, List.length_append, List.length_nil] at hn
      have hs : Stops (c :: rest) := stops_of_binOp?_eq_none (by rw [hc]; rfl)
      rw [term, List.cons_append, List.append_assoc, List.singleton_append, peek_bind]
      simp only [List.head?_cons, Option.map_some, ho]
      rw [skip_bind, bind_of_ok (climb_sum_complete ih _ _ _ hd (by omega) hs),
        bind_of_ok (expect_cons hc)]
      rfl
    | @minus m e ts hm hd =>
      simp only [List.length_cons] at hn
      rw [term, List.cons_append, peek_bind]
      simp only [List.head?_cons, Option.map_some, hm]
      rw [skip_bind, bind_of_ok (ih _ _ _ hd (by omega) trivial)]
      rfl
    | @call f o c name args ts hf hl ho hc hd =>
      simp only [List.length_cons, List.length_append, List.length_nil] at hn
      rw [term, List.cons_append, List.cons_append, List.append_assoc, List.singleton_append,
        peek_bind]
      simp only [List.head?_cons, Option.map_some, hf]
      rw [bind_of_ok (expectText_cons hf hl),
        bind_of_ok (arguments_complete (climb_sum_complete ih) ho hc hd (by omega))]
      rfl

theorem expr_sound : Sound (Derives .sum) Stops expr := fun ts ht e rest h =>
  climb_sum_sound (term_sound ts.length) ts ht e rest h

/-- What the grammar derives is read as derived, where no operator goes on. -/
theorem expr_complete {e : Expr} {used rest : List Token} (h : e.Derives .sum used)
    (hs : Stops rest) : expr (used ++ rest) = .ok e rest :=
  climb_sum_complete (term_complete (used ++ rest).length) e used rest h (by simp) hs

end Terms

theorem expr_eq_ok {ts : List Token} (ht : ∀ t ∈ ts, t.Lexical) {e : Expr} {rest : List Token} :
    expr ts = .ok e rest ↔
      ∃ used, ts = used ++ rest ∧ e.WellShaped ∧ e.Yields used ∧ Stops rest := by
  constructor
  · intro h
    obtain ⟨used, rfl, hd, hs⟩ := expr_sound ts ht e rest h
    obtain ⟨hw, hy⟩ := Expr.derives_sum.1 hd
    exact ⟨used, rfl, hw, hy, hs⟩
  · rintro ⟨used, rfl, hw, hy, hs⟩
    exact expr_complete (Expr.derives_sum.2 ⟨hw, hy⟩) hs

end Parse

/-- The tokens from one index to another are what the expression is written as, and no operator goes
on from there. -/
def Expr.Spans (e : Expr) (tokens : List Token) (i j : Nat) : Prop :=
  i ≤ j ∧ j ≤ tokens.length ∧ e.WellShaped ∧ e.Yields ((tokens.drop i).take (j - i)) ∧
    Parse.Stops (tokens.drop j)

theorem Parse.expr_drop {tokens : List Token} (h : ∀ t ∈ tokens, t.Lexical) {i : Nat} {e : Expr}
    {rest : List Token} :
    expr (tokens.drop i) = .ok e rest ↔ ∃ j, rest = tokens.drop j ∧ e.Spans tokens i j := by
  rw [expr_eq_ok fun t ht => h t (List.mem_of_mem_drop ht)]
  constructor
  · rintro ⟨used, hu, hw, hy, hs⟩
    have hl : tokens.length - i = used.length + rest.length := by
      rw [← List.length_drop, hu, List.length_append]
    have hn : 0 < used.length := by
      obtain ⟨t, ts, rfl, -⟩ := derives_head (Expr.derives_sum.2 ⟨hw, hy⟩)
      simp
    have hr : rest = tokens.drop (i + used.length) := by
      rw [← List.drop_drop, hu, List.drop_left]
    refine ⟨i + used.length, hr, by omega, by omega, hw, ?_, hr ▸ hs⟩
    rwa [Nat.add_sub_cancel_left, hu, List.take_left]
  · rintro ⟨j, rfl, hij, -, hw, hy, hs⟩
    refine ⟨_, ?_, hw, hy, hs⟩
    conv_lhs => rw [← List.take_append_drop (j - i) (tokens.drop i)]
    rw [List.drop_drop, Nat.add_sub_cancel' hij]

/-- Reading an expression from an index on succeeds if and only if the tokens from there up to
some other index are what a well-shaped tree is written as and no operator goes on; there is one
such tree and one such index at most, and the well-shaped trees are those of the grammar of two
levels. -/
theorem Parse.expr_reads_grammar (tokens : List Token) (h : ∀ t ∈ tokens, t.Lexical) (i : Nat) :
    (∀ e rest, expr (tokens.drop i) = .ok e rest ↔
      ∃ j, rest = tokens.drop j ∧ e.Spans tokens i j) ∧
    (∀ e j e' j', Expr.Spans e tokens i j → Expr.Spans e' tokens i j' → e = e' ∧ j = j') ∧
    ∀ e ts, Expr.WellShaped e ∧ Expr.Yields e ts ↔ Expr.Derives .sum e ts := by
  refine ⟨fun e rest => expr_drop h, ?_, fun e ts => Expr.derives_sum.symm⟩
  intro e j e' j' hj hj'
  have he := (expr_drop h).2 ⟨j, rfl, hj⟩
  rw [(expr_drop h).2 ⟨j', rfl, hj'⟩] at he
  obtain ⟨rfl, hd⟩ : e' = e ∧ tokens.drop j' = tokens.drop j := by simpa using he
  have hl := congrArg List.length hd
  simp only [List.length_drop] at hl
  have := hj.2.1
  have := hj'.2.1
  exact ⟨rfl, by omega⟩

/-- The tokens of `(7 - f(x, -2) * 3 + "!")`. -/
def mixedTokens : List Token :=
  [⟨.openParen, none, 1⟩, ⟨.intLit, some "7", 1⟩, ⟨.minus, none, 1⟩, ⟨.fnName, some "f", 1⟩,
    ⟨.openParen, none, 1⟩, ⟨.ident, some "x", 1⟩, ⟨.comma, none, 1⟩, ⟨.minus, none, 1⟩,
    ⟨.intLit, some "2", 1⟩, ⟨.closeParen, none, 1⟩, ⟨.star, none, 1⟩, ⟨.intLit, some "3", 1⟩,
    ⟨.plus, none, 1⟩, ⟨.stringLit, some "!", 1⟩, ⟨.closeParen, none, 1⟩]

def mixedExpr : Expr :=
  .bin .sub (.int 7) (.bin .mul
    (.call "f" [.ident "x" 1, .paren (.bin .mul (.int 2) (.int (-1)))] 1) (.int 3))

/-- The expression ends before the plus sign, which belongs to the quoted text. -/
theorem Parse.expr_reads_grammar_mixedTokens :
    (∀ t ∈ mixedTokens, t.Lexical) ∧ mixedExpr.Spans mixedTokens 1 12 := by
  have h : ∀ t ∈ mixedTokens, t.Lexical := by simp [mixedTokens, Token.Lexical]
  have he : expr (mixedTokens.drop 1) = .ok mixedExpr (mixedTokens.drop 12) := by cbv
  obtain ⟨j, hj, hs⟩ := ((expr_reads_grammar mixedTokens h 1).1 _ _).1 he
  have hl := congrArg List.length hj
  have hlt := hs.2.1
  simp only [List.length_drop, mixedTokens, List.length_cons, List.length_nil] at hl hlt
  obtain rfl : j = 12 := by omega
  exact ⟨h, hs⟩

end Stackwise
