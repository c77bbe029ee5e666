import Stackwise.Token.Scan
import Mathlib.Data.List.Infix
import Mathlib.Data.List.TakeWhile
import Mathlib.Tactic.Tauto

/-! What is taken off the front of a text.  `Lexeme` and `Matches` say what the front can be,
`Longest` which match is taken, and `Cut` what the piece then is.  Taking the first piece off yields
a piece as `Cut` describes (`first?_cut`) and any such piece is the one that is taken off
(`Cut.first?_eq`), so there is one in every text but where a block comment begins that is never
closed (`first?_eq_none`). -/
namespace Stackwise

def TokenKind.symbols : List (TokenKind × List Char) :=
  [(.semi, [';']), (.comma, [',']), (.dot, ['.']), (.openParen, ['(']), (.closeParen, [')']),
    (.openCurly, ['\x7b']), (.closeCurly, ['\x7d']), (.eq, ['=']), (.gt, ['>']), (.lt, ['<']),
    (.plus, ['+']), (.minus, ['-']), (.star, ['*']), (.slash, ['/']), (.and, ['&', '&']),
    (.or, ['|', '|'])]

namespace Piece

/-- The lexemes of each kind of token.  A word is a name if it is not, as a whole, a keyword. -/
inductive Lexeme : TokenKind → List Char → Prop
  | keyword {kind : TokenKind} : kind ∈ TokenKind.keywords → Lexeme kind kind.name.toList
  | name {c : Char} {cs : List Char} : isWordStart c → (∀ d ∈ cs, isWordChar d) →
    (∀ kind ∈ TokenKind.keywords, kind.name.toList ≠ c :: cs) → Lexeme .ident (c :: cs)
  | int {cs : List Char} : cs ≠ [] → (∀ c ∈ cs, isDigit c) → Lexeme .intLit cs
  | quoted {body : List Char} : '"' ∉ body → Lexeme .stringLit ('"' :: (body ++ ['"']))
  | symbol {kind : TokenKind} {cs : List Char} : (kind, cs) ∈ TokenKind.symbols → Lexeme kind cs

/-- What the front of a text is compared with. -/
inductive Matches : List Char → Prop
  | token {kind : TokenKind} {cs : List Char} : Lexeme kind cs → Matches cs
  | blank {cs : List Char} : cs ≠ [] → (∀ c ∈ cs, isBlank c) → Matches cs
  | lineComment {body : List Char} : '\n' ∉ body → Matches ('/' :: '/' :: body)
  | openComment : Matches ['/', '*']

/-- No more of the text matches than what is taken off before `rest`. -/
def Longest (cs rest : List Char) : Prop :=
  ∀ more, more ≠ [] → more <+: rest → ¬ Matches (cs ++ more)

def literalOf (kind : TokenKind) (cs : List Char) : Option String :=
  match kind with
  | .intLit | .ident => some (String.ofList cs)
  | .stringLit => some (String.ofList cs.tail.dropLast)
  | _ => none

/-- A name directly before `(` is that of a function. -/
def kindBefore (kind : TokenKind) (rest : List Char) : TokenKind :=
  if kind = .ident ∧ rest.head? = some '(' then .fnName else kind

/-- What a piece is that is taken off the front of a text and leaves `rest`. -/
inductive Cut (rest : List Char) : Piece → Prop
  | blank {cs : List Char} : cs ≠ [] → (∀ c ∈ cs, isBlank c) → (∀ c ∈ rest.head?, ¬ isBlank c) →
    Cut rest ⟨.blank, cs⟩
  | lineComment {body : List Char} : '\n' ∉ body → (∀ c ∈ rest.head?, c = '\n') →
    Cut rest ⟨.lineComment, '/' :: '/' :: body⟩
  | blockComment {body : List Char} : ¬ ['*', '/'] <:+: body ++ ['*'] →
    Cut rest ⟨.blockComment, '/' :: '*' :: (body ++ ['*', '/'])⟩
  | token {kind : TokenKind} {cs : List Char} : Lexeme kind cs → Longest cs rest →
    Cut rest ⟨.token (kindBefore kind rest) (literalOf kind cs), cs⟩
  | stray {c : Char} : c ≠ '"' → (∀ cs, cs <+: c :: rest → ¬ Matches cs) → Cut rest ⟨.stray, [c]⟩
  | unclosed {cs : List Char} : '"' ∉ cs → rest = [] → Cut rest ⟨.stray, '"' :: cs⟩

section Chars

variable {c : Char}

theorem isDigit_iff : isDigit c ↔ 48 ≤ c.toNat ∧ c.toNat ≤ 57 := by
  simp only [isDigit, Bool.and_eq_true, decide_eq_true_eq, Char.le_def, UInt32.le_iff_toNat_le]
  rfl

theorem isWordStart_iff : isWordStart c ↔ 97 ≤ c.toNat ∧ c.toNat ≤ 122 ∨
    65 ≤ c.toNat ∧ c.toNat ≤ 90 ∨ c.toNat = 95 := by
  simp only [isWordStart, Bool.and_eq_true, Bool.or_eq_true, decide_eq_true_eq, Char.le_def,
    UInt32.le_iff_toNat_le, beq_iff_eq, or_assoc, ← Char.toNat_inj]
  rfl

theorem isBlank_iff : isBlank c ↔ c.toNat = 32 ∨ c.toNat = 9 ∨ c.toNat = 10 ∨ c.toNat = 13 ∨
    c.toNat = 12 := by
  simp only [isBlank, Bool.or_eq_true, beq_iff_eq, or_assoc, ← Char.toNat_inj]
  rfl

end Chars

theorem isWordStart_of_mem_keywords {kind : TokenKind} (h : kind ∈ TokenKind.keywords) :
    ∃ c cs, kind.name.toList = c :: cs ∧ isWordStart c ∧ ∀ d ∈ cs, isWordChar d := by
  have hall : ∀ k ∈ TokenKind.keywords, (k.name.toList.head?.any isWordStart) &&
      k.name.toList.tail.all isWordChar := by decide
  have hk := hall kind h
  cases hn : kind.name.toList with
  | nil => simp [hn] at hk
  | cons c cs => exact ⟨c, cs, rfl, by simpa [hn] using hk⟩

theorem keyword?_eq_some {cs : List Char} {kind : TokenKind} :
    TokenKind.keyword? (String.ofList cs) = some kind ↔
      kind ∈ TokenKind.keywords ∧ kind.name.toList = cs := by
  have hinj : ∀ j ∈ TokenKind.keywords, ∀ k ∈ TokenKind.keywords, j.name = k.name → j = k := by
    decide
  constructor
  · intro h
    have hn : kind.name = String.ofList cs := by simpa using List.find?_some h
    exact ⟨List.mem_of_find?_eq_some h, by simp [hn]⟩
  · rintro ⟨hk, rfl⟩
    cases hf : TokenKind.keyword? (String.ofList kind.name.toList) with
    | none =>
      have := List.find?_eq_none.1 hf kind hk
      simp at this
    | some j =>
      have hn : j.name = kind.name := by simpa using List.find?_some hf
      rw [hinj j (List.mem_of_find?_eq_some hf) kind hk hn]

theorem keyword?_eq_none {cs : List Char} :
    TokenKind.keyword? (String.ofList cs) = none ↔
      ∀ kind ∈ TokenKind.keywords, kind.name.toList ≠ cs := by
  rw [Option.eq_none_iff_forall_ne_some]
  simp only [ne_eq, keyword?_eq_some, not_and]

theorem symbol?_eq_some {c : Char} {kind : TokenKind} :
    symbol? c = some kind ↔ (kind, [c]) ∈ TokenKind.symbols := by
  constructor
  · intro h
    unfold symbol? at h
    split at h <;> simp_all [TokenKind.symbols]
  · simp only [TokenKind.symbols, List.mem_cons, Prod.mk.injEq, List.not_mem_nil, or_false]
    rintro h
    rcases h with h | h | h | h | h | h | h | h | h | h | h | h | h | h | h | h <;>
      first | (obtain ⟨rfl, rfl, -⟩ := h; rfl) | simp at h

theorem symbol₂?_eq_some {c d : Char} {kind : TokenKind} :
    symbol₂? c d = some kind ↔ (kind, [c, d]) ∈ TokenKind.symbols := by
  constructor
  · intro h
    unfold symbol₂? at h
    split at h <;> simp_all [TokenKind.symbols]
  · simp [TokenKind.symbols]
    rintro (⟨rfl, rfl, rfl⟩ | ⟨rfl, rfl, rfl⟩) <;> rfl

section Runs

theorem run_eq_iff {p : Char → Bool} {c : Char} {cs t rest : List Char} :
    run p c cs = (c :: t, rest) ↔
      t ++ rest = cs ∧ (∀ d ∈ t, p d) ∧ ∀ d ∈ rest.head?, ¬ p d := by
  simp only [run, Prod.mk.injEq, List.cons.injEq, true_and]
  constructor
  · rintro ⟨rfl, rfl⟩
    refine ⟨List.takeWhile_append_dropWhile, fun d hd => List.mem_takeWhile_imp hd, ?_⟩
    intro d hd
    have hn := List.head?_dropWhile_not p cs
    rw [Option.mem_def.1 hd] at hn
    simpa using hn
  · rintro ⟨rfl, ht, hr⟩
    have hnil : rest.takeWhile p = [] ∧ rest.dropWhile p = rest := by
      cases rest with
      | nil => simp
      | cons d rest => simp [hr d rfl]
    rw [List.takeWhile_append_of_pos ht, List.dropWhile_append_of_pos ht, hnil.1, hnil.2]
    simp

theorem closing_infix_cons {c : Char} {body : List Char} :
    ['*', '/'] <:+: c :: body ↔ (c = '*' ∧ body.head? = some '/') ∨ ['*', '/'] <:+: body := by
  rw [List.infix_cons_iff]
  cases body with
  | nil => simp
  | cons d body => simp [List.cons_prefix_cons, @eq_comm _ '*' c, @eq_comm _ '/' d]

theorem splitClose?_eq_none {cs : List Char} :
    splitClose? cs = none ↔ ¬ ['*', '/'] <:+: cs := by
  fun_induction splitClose? cs with
  | case1 rest => simp [closing_infix_cons]
  | case2 c cs hne ih =>
    simp only [Option.map_eq_none_iff, ih, closing_infix_cons]
    cases cs <;> simp_all
  | case3 => simp

theorem splitClose?_eq_some {cs body rest : List Char} :
    splitClose? cs = some (body, rest) ↔
      body ++ '*' :: '/' :: rest = cs ∧ ¬ ['*', '/'] <:+: body ++ ['*'] := by
  constructor
  · intro h
    refine ⟨splitClose?_eq h, ?_⟩
    fun_induction splitClose? cs generalizing body with
    | case1 rest =>
      obtain ⟨rfl, -⟩ : [] = body ∧ _ := by simpa using h
      simp [closing_infix_cons]
    | case2 c cs hne ih =>
      obtain ⟨⟨b, r⟩, hb, hr⟩ := Option.map_eq_some_iff.1 h
      simp only [Prod.mk.injEq] at hr
      obtain ⟨rfl, rfl⟩ := hr
      rw [List.cons_append, closing_infix_cons]
      rintro (⟨rfl, hd⟩ | hd)
      · have hcs := splitClose?_eq hb
        cases b with
        | nil => simp at hd
        | cons d b =>
          obtain rfl : d = '/' := by simpa using hd
          exact hne _ rfl hcs.symm
      · exact ih hb hd
    | case3 => simp at h
  · rintro ⟨rfl, hn⟩
    induction body with
    | nil => simp [splitClose?]
    | cons c body ih =>
      rw [List.cons_append, closing_infix_cons, not_or] at hn
      rw [List.cons_append, splitClose?.eq_2, ih hn.2]
      · rfl
      · rintro rest' rfl hb
        apply hn.1
        refine ⟨rfl, ?_⟩
        cases body <;> simp_all

theorem ofQuote_closed {body : List Char} (h : '"' ∉ body) (rest : List Char) :
    ofQuote (body ++ '"' :: rest) =
      (⟨.token .stringLit (some (String.ofList body)), '"' :: (body ++ ['"'])⟩, rest) := by
  have hb : ∀ d ∈ body, d ≠ '"' := fun d hd hq => h (hq ▸ hd)
  have ht : (body ++ '"' :: rest).takeWhile (· ≠ '"') = body := by
    rw [List.takeWhile_append_of_pos (by simpa using hb)]
    simp
  have hd : (body ++ '"' :: rest).dropWhile (· ≠ '"') = '"' :: rest := by
    rw [List.dropWhile_append_of_pos (by simpa using hb)]
    simp
  simp only [ofQuote, hd, ht]
  rfl

theorem ofQuote_unclosed {cs : List Char} (h : '"' ∉ cs) :
    ofQuote cs = (⟨.stray, '"' :: cs⟩, []) := by
  have hd : cs.dropWhile (· ≠ '"') = [] := by
    rw [List.dropWhile_eq_nil_iff]
    intro d hd
    simpa using fun hq : d = '"' => h (hq ▸ hd)
  simp only [ofQuote, hd]

end Runs

/-- The characters that begin no word, number, quotation or run of blanks. -/
def Plain (c : Char) : Prop :=
  isBlank c = false ∧ isDigit c = false ∧ isWordStart c = false ∧ c ≠ '"'

section Classes

variable {c d : Char} {kind : TokenKind} {cs t rest : List Char}

theorem isBlank_of_isDigit (h : isDigit c) : isBlank c = false := by
  rw [isDigit_iff] at h
  rw [← Bool.not_eq_true, isBlank_iff]
  omega

theorem isBlank_of_isWordStart (h : isWordStart c) : isBlank c = false := by
  rw [isWordStart_iff] at h
  rw [← Bool.not_eq_true, isBlank_iff]
  omega

theorem isDigit_of_isWordStart (h : isWordStart c) : isDigit c = false := by
  rw [isWordStart_iff] at h
  rw [← Bool.not_eq_true, isDigit_iff]
  omega

theorem plain_of_symbol (h : (kind, c :: cs) ∈ TokenKind.symbols) : Plain c := by
  have hall : TokenKind.symbols.all (fun e => e.2.all fun c =>
      !isBlank c && !isDigit c && !isWordStart c && c != '"') = true := by decide
  have hc := List.all_eq_true.1 (List.all_eq_true.1 hall _ h) c List.mem_cons_self
  simpa [Plain, and_assoc] using hc

theorem plain_slash : Plain '/' := ⟨rfl, rfl, rfl, by decide⟩

/-- What begins with `c` can match in one way only, by the class of `c`. -/
theorem Matches.cons (h : Matches (c :: t)) :
    (isBlank c ∧ ∀ d ∈ t, isBlank d) ∨ (isDigit c ∧ ∀ d ∈ t, isDigit d) ∨
    (isWordStart c ∧ ∀ d ∈ t, isWordChar d) ∨
    (c = '"' ∧ ∃ body, '"' ∉ body ∧ t = body ++ ['"']) ∨
    (Plain c ∧ ((∃ kind, (kind, c :: t) ∈ TokenKind.symbols) ∨
      (c = '/' ∧ ∃ d ∈ t.head?, d = '/' ∨ d = '*'))) := by
  generalize hs : c :: t = s at h
  cases h with
  | token h =>
    cases h with
    | keyword hk =>
      obtain ⟨d, ds, hn, hd, hds⟩ := isWordStart_of_mem_keywords hk
      rw [hn] at hs
      obtain ⟨rfl, rfl⟩ := List.cons.inj hs
      exact .inr (.inr (.inl ⟨hd, hds⟩))
    | name hd hds _ =>
      obtain ⟨rfl, rfl⟩ := List.cons.inj hs
      exact .inr (.inr (.inl ⟨hd, hds⟩))
    | int _ hds =>
      subst hs
      exact .inr (.inl (by simpa using hds))
    | quoted hb =>
      obtain ⟨rfl, rfl⟩ := List.cons.inj hs
      exact .inr (.inr (.inr (.inl ⟨rfl, _, hb, rfl⟩)))
    | symbol hk =>
      subst hs
      exact .inr (.inr (.inr (.inr ⟨plain_of_symbol hk, .inl ⟨_, hk⟩⟩)))
  | blank _ hds =>
    subst hs
    exact .inl (by simpa using hds)
  | lineComment _ =>
    obtain ⟨rfl, rfl⟩ := List.cons.inj hs
    exact .inr (.inr (.inr (.inr ⟨plain_slash, .inr ⟨rfl, by simp⟩⟩)))
  | openComment =>
    obtain ⟨rfl, rfl⟩ := List.cons.inj hs
    exact .inr (.inr (.inr (.inr ⟨plain_slash, .inr ⟨rfl, by simp⟩⟩)))

theorem Matches.isDigit_of (h : Matches (c :: t)) (hc : isDigit c) : ∀ d ∈ t, isDigit d := by
  have hb := isBlank_of_isDigit hc
  have hw : isWordStart c = false := by
    by_contra hw
    simp [isDigit_of_isWordStart (by simpa using hw)] at hc
  rcases h.cons with h | h | h | h | h
  · simp [hb] at h
  · exact h.2
  · simp [hw] at h
  · rw [h.1] at hc; contradiction
  · simp [h.1.2.1] at hc

theorem Matches.isWordChar_of (h : Matches (c :: t)) (hc : isWordStart c) :
    ∀ d ∈ t, isWordChar d := by
  rcases h.cons with h | h | h | h | h
  · simp [isBlank_of_isWordStart hc] at h
  · simp [isDigit_of_isWordStart hc] at h
  · exact h.2
  · rw [h.1] at hc; contradiction
  · simp [h.1.2.2.1] at hc

theorem Matches.quoted_of (h : Matches ('"' :: t)) : ∃ body, '"' ∉ body ∧ t = body ++ ['"'] := by
  rcases h.cons with h | h | h | h | h
  · cases h.1
  · cases h.1
  · cases h.1
  · exact h.2
  · exact absurd rfl h.1.2.2.2

theorem Matches.symbol_of (h : Matches (c :: t)) (hc : Plain c) :
    (∃ kind, (kind, c :: t) ∈ TokenKind.symbols) ∨
      (c = '/' ∧ ∃ d ∈ t.head?, d = '/' ∨ d = '*') := by
  obtain ⟨hb, hd, hw, hq⟩ := hc
  rcases h.cons with h | h | h | h | h
  · simp [hb] at h
  · simp [hd] at h
  · simp [hw] at h
  · exact absurd h.1 hq
  · exact h.2

end Classes

section First

variable {c d : Char} {kind : TokenKind} {cs t rest : List Char}

theorem first?_of_isBlank (h : isBlank c) :
    first? c cs = some (⟨.blank, (run isBlank c cs).1⟩, (run isBlank c cs).2) := by
  simp [first?, h]

theorem first?_of_isDigit (h : isDigit c) :
    first? c cs = some (⟨.token .intLit (some (String.ofList (run isDigit c cs).1)),
      (run isDigit c cs).1⟩, (run isDigit c cs).2) := by
  simp [first?, h, isBlank_of_isDigit h]

theorem first?_of_isWordStart (h : isWordStart c) :
    first? c cs = some (⟨wordShape (run isWordChar c cs).1 (run isWordChar c cs).2,
      (run isWordChar c cs).1⟩, (run isWordChar c cs).2) := by
  simp [first?, h, isBlank_of_isWordStart h, isDigit_of_isWordStart h]

theorem first?_quote : first? '"' cs = some (ofQuote cs) := rfl

theorem first?_lineComment : first? '/' ('/' :: cs) =
    some (⟨.lineComment, '/' :: (run (· ≠ '\n') '/' cs).1⟩, (run (· ≠ '\n') '/' cs).2) := rfl

theorem first?_openComment : first? '/' ('*' :: cs) =
    (splitClose? cs).map fun r => (⟨.blockComment, '/' :: '*' :: (r.1 ++ ['*', '/'])⟩, r.2) := rfl

theorem first?_of_plain (hc : Plain c) (hs : c = '/' → ∀ d ∈ cs.head?, d ≠ '/' ∧ d ≠ '*') :
    first? c cs = some (ofSymbol c cs) := by
  obtain ⟨hb, hd, hw, hq⟩ := hc
  simp only [first?, hb, hd, hw, hq, Bool.false_eq_true, ↓reduceIte]
  split
  · exact absurd rfl (hs rfl _ rfl).1
  · exact absurd rfl (hs rfl _ rfl).2
  · rfl

/-- No symbol is the beginning of another. -/
theorem symbols_prefix_free {more : List Char} {kind' : TokenKind}
    (h : (kind, cs) ∈ TokenKind.symbols) (h' : (kind', cs ++ more) ∈ TokenKind.symbols) :
    kind' = kind ∧ more = [] := by
  have hall : ∀ e ∈ TokenKind.symbols, ∀ f ∈ TokenKind.symbols, e.2 <+: f.2 → f = e := by decide
  have he := hall _ h _ h' (List.prefix_append cs more)
  simpa using he

theorem slash_mem_symbols : (.slash, ['/']) ∈ TokenKind.symbols := by
  decide

theorem eq_nil_of_slash_symbol (h : (kind, '/' :: t) ∈ TokenKind.symbols) : t = [] :=
  (symbols_prefix_free slash_mem_symbols h).2

theorem longest_symbol (h : (kind, c :: t) ∈ TokenKind.symbols) :
    Longest (c :: t) rest ↔ (c = '/' → ∀ d ∈ rest.head?, d ≠ '/' ∧ d ≠ '*') := by
  constructor
  · rintro hl rfl d hd
    obtain rfl := eq_nil_of_slash_symbol h
    obtain ⟨rest, rfl⟩ : ∃ r, rest = d :: r := by cases rest <;> simp_all
    have hm := hl [d] (by simp) (by simp)
    refine ⟨?_, ?_⟩ <;> rintro rfl
    · exact hm (.lineComment List.not_mem_nil)
    · exact hm .openComment
  · rintro hs more hne hpre hm
    rcases hm.symbol_of (plain_of_symbol h) with ⟨kind', hk⟩ | ⟨rfl, d, hd, hc⟩
    · exact hne (symbols_prefix_free h hk).2
    · obtain rfl := eq_nil_of_slash_symbol h
      obtain ⟨e, more, rfl⟩ := List.exists_cons_of_ne_nil hne
      obtain ⟨rest, rfl⟩ := hpre
      have := hs rfl e rfl
      simp_all

theorem ofSymbol_of_mem (h : (kind, c :: t) ∈ TokenKind.symbols) :
    ofSymbol c (t ++ rest) = (⟨.token kind none, c :: t⟩, rest) := by
  have hlen : ∀ e ∈ TokenKind.symbols, e.2.length ≤ 2 := by decide
  match t, h, hlen _ h with
  | [], h, _ =>
    have hn : rest.head?.bind (symbol₂? c) = none := by
      rw [Option.bind_eq_none_iff]
      intro d _
      rw [Option.eq_none_iff_forall_ne_some]
      intro kind' hk
      have := (symbols_prefix_free h (symbol₂?_eq_some.1 hk)).2
      contradiction
    simp only [ofSymbol, List.nil_append, hn, symbol?_eq_some.2 h]
  | [d], h, _ => simp [ofSymbol, symbol₂?_eq_some.2 h]

theorem ofSymbol_stray (h : ∀ t, t <+: cs → ∀ kind, (kind, c :: t) ∉ TokenKind.symbols) :
    ofSymbol c cs = (⟨.stray, [c]⟩, cs) := by
  have h₂ : cs.head?.bind (symbol₂? c) = none := by
    rw [Option.bind_eq_none_iff]
    intro d hd
    rw [Option.eq_none_iff_forall_ne_some]
    intro kind hk
    refine h [d] ?_ kind (symbol₂?_eq_some.1 hk)
    cases cs <;> simp_all
  have h₁ : symbol? c = none := by
    rw [Option.eq_none_iff_forall_ne_some]
    exact fun kind hk => h [] (List.nil_prefix) kind (symbol?_eq_some.1 hk)
  simp only [ofSymbol, h₂, h₁]

/-- A run of one class is a longest match if no match goes on with another class. -/
theorem longest_of_run {q : Char → Bool} (hr : ∀ d ∈ rest.head?, ¬ q d)
    (hm : ∀ more, Matches (cs ++ more) → ∀ d ∈ more, q d) : Longest cs rest := by
  rintro more hne ⟨after, rfl⟩ h
  obtain ⟨d, more, rfl⟩ := List.exists_cons_of_ne_nil hne
  exact hr d rfl (hm _ h d (by simp))

theorem shape_of_bare (h : kind ≠ .intLit ∧ kind ≠ .ident ∧ kind ≠ .stringLit)
    (cs rest : List Char) :
    Shape.token (kindBefore kind rest) (literalOf kind cs) = .token kind none := by
  simp only [kindBefore, h.2.1, false_and, if_false]
  cases kind <;> simp_all [literalOf]

theorem keyword_bare (h : kind ∈ TokenKind.keywords) :
    kind ≠ .intLit ∧ kind ≠ .ident ∧ kind ≠ .stringLit := by
  have hall : ∀ k ∈ TokenKind.keywords, k ≠ .intLit ∧ k ≠ .ident ∧ k ≠ .stringLit := by decide
  exact hall _ h

theorem symbol_bare (h : (kind, cs) ∈ TokenKind.symbols) :
    kind ≠ .intLit ∧ kind ≠ .ident ∧ kind ≠ .stringLit := by
  have hall : ∀ e ∈ TokenKind.symbols, e.1 ≠ .intLit ∧ e.1 ≠ .ident ∧ e.1 ≠ .stringLit := by
    decide
  exact hall _ h

theorem wordShape_of_keyword (h : kind ∈ TokenKind.keywords) :
    wordShape kind.name.toList rest =
      .token (kindBefore kind rest) (literalOf kind kind.name.toList) := by
  rw [shape_of_bare (keyword_bare h)]
  simp only [wordShape, keyword?_eq_some.2 ⟨h, rfl⟩]

theorem wordShape_of_name (h : ∀ kind ∈ TokenKind.keywords, kind.name.toList ≠ cs) :
    wordShape cs rest = .token (kindBefore .ident rest) (literalOf .ident cs) := by
  simp only [wordShape, keyword?_eq_none.2 h, kindBefore, literalOf, true_and]

/-- A word is the lexeme of a keyword or of a name, and its shape says which. -/
theorem exists_lexeme (hc : isWordStart c) (ht : ∀ d ∈ t, isWordChar d) :
    ∃ kind, Lexeme kind (c :: t) ∧ ∀ rest,
      wordShape (c :: t) rest = .token (kindBefore kind rest) (literalOf kind (c :: t)) := by
  by_cases hk : ∃ kind ∈ TokenKind.keywords, kind.name.toList = c :: t
  · obtain ⟨kind, hk, hn⟩ := hk
    rw [← hn]
    exact ⟨kind, .keyword hk, fun rest => wordShape_of_keyword hk⟩
  · have hn : ∀ kind ∈ TokenKind.keywords, kind.name.toList ≠ c :: t := by simpa using hk
    exact ⟨.ident, .name hc ht hn, fun rest => wordShape_of_name hn⟩

theorem longest_digits (hd : isDigit c) (hds : ∀ d ∈ t, isDigit d) :
    Longest (c :: t) rest ↔ ∀ d ∈ rest.head?, ¬ isDigit d := by
  constructor
  · rintro hl d hd' hdig
    obtain ⟨rest, rfl⟩ : ∃ r, rest = d :: r := by cases rest <;> simp_all
    refine hl [d] (by simp) (by simp) (.token (.int (by simp) ?_))
    simp only [List.cons_append, List.forall_mem_cons, List.forall_mem_append, hd, hdig, true_and]
    exact ⟨hds, by simp⟩
  · intro hr
    refine longest_of_run hr fun more hm d hd' => ?_
    exact hm.isDigit_of hd d (by simp [hd'])

theorem longest_word (hc : isWordStart c) (hcs : ∀ d ∈ t, isWordChar d) :
    Longest (c :: t) rest ↔ ∀ d ∈ rest.head?, ¬ isWordChar d := by
  constructor
  · rintro hl d hd hw
    obtain ⟨rest, rfl⟩ : ∃ r, rest = d :: r := by cases rest <;> simp_all
    obtain ⟨kind, hk, -⟩ := exists_lexeme (c := c) (t := t ++ [d]) hc
      (by simpa [or_imp, forall_and, hw] using hcs)
    exact hl [d] (by simp) (by simp) (.token hk)
  · intro hr
    refine longest_of_run hr fun more hm d hd => ?_
    exact hm.isWordChar_of hc d (by simp [hd])

theorem longest_quoted {body : List Char} : Longest ('"' :: (body ++ ['"'])) rest := by
  rintro more hne - hm
  obtain ⟨body', hb, he⟩ := Matches.quoted_of (t := body ++ ['"'] ++ more) hm
  have hd := congrArg List.dropLast he
  rw [List.dropLast_append_of_ne_nil hne, List.dropLast_concat] at hd
  exact hb (by simp [← hd])

theorem not_matches_nil : ¬ Matches [] := by
  intro h
  generalize hs : [] = s at h
  cases h with
  | token h =>
    cases h with
    | keyword hk =>
      obtain ⟨_, _, hn, -⟩ := isWordStart_of_mem_keywords hk
      simp [hn] at hs
    | int hne _ => exact hne hs.symm
    | symbol hk =>
      have hall : ∀ e ∈ TokenKind.symbols, e.2 ≠ [] := by decide
      exact hall _ hk hs.symm
    | name => cases hs
    | quoted => cases hs
  | blank hne _ => exact hne hs.symm
  | lineComment => cases hs
  | openComment => cases hs

theorem ofSymbol_cut (hc : Plain c) (hs : c = '/' → ∀ d ∈ cs.head?, d ≠ '/' ∧ d ≠ '*') :
    (ofSymbol c cs).1.Cut (ofSymbol c cs).2 := by
  by_cases hk : ∃ kind t, (kind, c :: t) ∈ TokenKind.symbols ∧ t <+: cs
  · obtain ⟨kind, t, hk, rest, rfl⟩ := hk
    rw [ofSymbol_of_mem hk]
    have hl : Longest (c :: t) rest := by
      refine (longest_symbol hk).2 ?_
      rintro rfl
      obtain rfl := eq_nil_of_slash_symbol hk
      exact hs rfl
    have hcut := Cut.token (.symbol hk) hl
    rwa [shape_of_bare (symbol_bare hk)] at hcut
  · have hno : ∀ t, t <+: cs → ∀ kind, (kind, c :: t) ∉ TokenKind.symbols :=
      fun t ht kind hm => hk ⟨kind, t, hm, ht⟩
    rw [ofSymbol_stray hno]
    refine .stray hc.2.2.2 fun cs' hpre hm => ?_
    cases cs' with
    | nil => exact not_matches_nil hm
    | cons d t =>
      obtain ⟨rfl, ht⟩ := List.cons_prefix_cons.1 hpre
      rcases hm.symbol_of hc with ⟨kind, hk⟩ | ⟨rfl, e, he, hcase⟩
      · exact hno t ht kind hk
      · obtain ⟨t, rfl⟩ : ∃ r, t = e :: r := by cases t <;> simp_all
        obtain ⟨rest, rfl⟩ := ht
        have := hs rfl e rfl
        simp_all

theorem comment_cut {p : Piece} (hd : d = '/' ∨ d = '*')
    (h : first? '/' (d :: cs) = some (p, rest)) : p.Cut rest := by
  rcases hd with rfl | rfl
  · rw [first?_lineComment] at h
    obtain ⟨rfl, rfl⟩ := Prod.mk.inj (Option.some.inj h)
    obtain ⟨-, ht, hr⟩ := run_eq_iff.1 (Eq.refl (run (· ≠ '\n') '/' cs))
    exact .lineComment (fun hn => by simpa using ht _ hn) fun d hd => by simpa using hr d hd
  · rw [first?_openComment] at h
    obtain ⟨⟨body, after⟩, hb, he⟩ := Option.map_eq_some_iff.1 h
    obtain ⟨rfl, rfl⟩ := Prod.mk.inj he
    exact .blockComment (splitClose?_eq_some.1 hb).2

/-- What is taken off the front of a text is a piece as described. -/
theorem first?_cut {p : Piece} (h : first? c cs = some (p, rest)) : p.Cut rest := by
  by_cases hb : isBlank c
  · rw [first?_of_isBlank hb] at h
    obtain ⟨rfl, rfl⟩ := Prod.mk.inj (Option.some.inj h)
    obtain ⟨-, ht, hr⟩ := run_eq_iff.1 (Eq.refl (run isBlank c cs))
    exact .blank (by simp [run]) (List.forall_mem_cons.2 ⟨hb, ht⟩) hr
  by_cases hd : isDigit c
  · rw [first?_of_isDigit hd] at h
    obtain ⟨rfl, rfl⟩ := Prod.mk.inj (Option.some.inj h)
    obtain ⟨-, ht, hr⟩ := run_eq_iff.1 (Eq.refl (run isDigit c cs))
    exact .token (.int (by simp) (List.forall_mem_cons.2 ⟨hd, ht⟩))
      ((longest_digits hd ht).2 hr)
  by_cases hw : isWordStart c
  · rw [first?_of_isWordStart hw] at h
    obtain ⟨rfl, rfl⟩ := Prod.mk.inj (Option.some.inj h)
    obtain ⟨-, ht, hr⟩ := run_eq_iff.1 (Eq.refl (run isWordChar c cs))
    obtain ⟨kind, hk, hs⟩ := exists_lexeme hw ht
    have hcut := Cut.token hk ((longest_word hw ht).2 hr)
    rw [← hs] at hcut
    exact hcut
  by_cases hq : c = '"'
  · subst hq
    rw [first?_quote] at h
    by_cases hm : '"' ∈ cs
    · obtain ⟨body, after, rfl, hb⟩ := List.eq_append_cons_of_mem hm
      rw [ofQuote_closed hb] at h
      obtain ⟨rfl, rfl⟩ := Prod.mk.inj (Option.some.inj h)
      have hl : Longest ('"' :: (body ++ ['"'])) after := longest_quoted
      simpa [kindBefore, literalOf] using Cut.token (.quoted hb) hl
    · rw [ofQuote_unclosed hm] at h
      obtain ⟨rfl, rfl⟩ := Prod.mk.inj (Option.some.inj h)
      exact .unclosed hm rfl
  have hplain : Plain c := ⟨by simpa using hb, by simpa using hd, by simpa using hw, hq⟩
  by_cases hs : c = '/' → ∀ d ∈ cs.head?, d ≠ '/' ∧ d ≠ '*'
  · rw [first?_of_plain hplain hs] at h
    have hcut := ofSymbol_cut hplain hs
    rwa [Option.some.inj h] at hcut
  · push Not at hs
    obtain ⟨rfl, d, hd, hcase⟩ := hs
    obtain ⟨cs, rfl⟩ : ∃ r, cs = d :: r := by cases cs <;> simp_all
    exact comment_cut (by tauto) h

theorem Lexeme.first?_eq (h : Lexeme kind (c :: t)) (hl : Longest (c :: t) rest) :
    first? c (t ++ rest) =
      some (⟨.token (kindBefore kind rest) (literalOf kind (c :: t)), c :: t⟩, rest) := by
  generalize hs : c :: t = s at h hl
  cases h with
  | keyword hk =>
    obtain ⟨d, ds, hn, hd, hds⟩ := isWordStart_of_mem_keywords hk
    obtain ⟨rfl, rfl⟩ := List.cons.inj (hs.trans hn)
    rw [← hs, longest_word hd hds] at hl
    rw [first?_of_isWordStart hd, run_eq_iff.2 ⟨rfl, hds, hl⟩, hs, wordShape_of_keyword hk]
  | name hd hds hn =>
    obtain ⟨rfl, rfl⟩ := List.cons.inj hs
    rw [longest_word hd hds] at hl
    rw [first?_of_isWordStart hd, run_eq_iff.2 ⟨rfl, hds, hl⟩, wordShape_of_name hn]
  | int _ hds =>
    subst hs
    rw [List.forall_mem_cons] at hds
    rw [longest_digits hds.1 hds.2] at hl
    rw [first?_of_isDigit hds.1, run_eq_iff.2 ⟨rfl, hds.2, hl⟩]
    rfl
  | @quoted body hb =>
    obtain ⟨rfl, rfl⟩ := List.cons.inj hs
    rw [first?_quote, List.append_assoc, List.singleton_append, ofQuote_closed hb]
    simp [kindBefore, literalOf]
  | symbol hk =>
    subst hs
    have hslash := (longest_symbol hk).1 hl
    rw [first?_of_plain (plain_of_symbol hk), ofSymbol_of_mem hk, shape_of_bare (symbol_bare hk)]
    rintro rfl
    obtain rfl := eq_nil_of_slash_symbol hk
    exact hslash rfl

theorem first?_stray (hq : c ≠ '"') (hno : ∀ cs, cs <+: c :: rest → ¬ Matches cs) :
    first? c rest = some (⟨.stray, [c]⟩, rest) := by
  have hone : ¬ Matches [c] := hno [c] (by simp)
  have hb : isBlank c = false := by
    by_contra hb
    exact hone (.blank (by simp) (by simpa using hb))
  have hd : isDigit c = false := by
    by_contra hd
    exact hone (.token (.int (by simp) (by simpa using hd)))
  have hw : isWordStart c = false := by
    by_contra hw
    obtain ⟨kind, hk, -⟩ := exists_lexeme (t := []) (by simpa using hw) (by simp)
    exact hone (.token hk)
  have hslash : c ≠ '/' := by
    rintro rfl
    exact hone (.token (.symbol slash_mem_symbols))
  rw [first?_of_plain ⟨hb, hd, hw, hq⟩ fun h => absurd h hslash, ofSymbol_stray]
  exact fun t ht kind hk => hno (c :: t) (List.cons_prefix_cons.2 ⟨rfl, ht⟩) (.token (.symbol hk))

/-- A piece as described is what is taken off. -/
theorem Cut.first?_eq {p : Piece} (h : p.Cut rest) (ht : p.text = c :: t) :
    first? c (t ++ rest) = some (p, rest) := by
  cases h with
  | blank hne hb hr =>
    obtain rfl : _ = c :: t := ht
    rw [List.forall_mem_cons] at hb
    rw [first?_of_isBlank hb.1, run_eq_iff.2 ⟨rfl, hb.2, hr⟩]
  | @lineComment body hb hr =>
    obtain ⟨rfl, rfl⟩ := List.cons.inj ht
    rw [List.cons_append, first?_lineComment, run_eq_iff.2 ⟨rfl, ?_, ?_⟩]
    · intro d hd
      simpa using fun hn : d = '\n' => hb (hn ▸ hd)
    · simpa using hr
  | @blockComment body hb =>
    obtain ⟨rfl, rfl⟩ := List.cons.inj ht
    rw [List.cons_append, List.append_assoc, first?_openComment, List.cons_append,
      List.singleton_append, splitClose?_eq_some.2 ⟨rfl, hb⟩]
    rfl
  | token hk hl =>
    obtain rfl : _ = c :: t := ht
    exact hk.first?_eq hl
  | stray hq hno =>
    obtain ⟨rfl, rfl⟩ := List.cons.inj ht
    exact first?_stray hq hno
  | unclosed hq hr =>
    obtain ⟨rfl, rfl⟩ := List.cons.inj ht
    rw [hr, List.append_nil, first?_quote, ofQuote_unclosed hq]

theorem Cut.text_ne_nil {p : Piece} (h : p.Cut rest) : p.text ≠ [] := by
  cases h with
  | token hk _ =>
    rintro rfl
    exact not_matches_nil (.token hk)
  | blank hne _ _ => exact hne
  | lineComment => simp
  | blockComment => simp
  | stray => simp
  | unclosed => simp

/-- Nothing can be taken off exactly where a block comment begins that is never closed. -/
theorem first?_eq_none : first? c cs = none ↔
    ∃ inner, c :: cs = '/' :: '*' :: inner ∧ ¬ ['*', '/'] <:+: inner := by
  constructor
  · intro h
    unfold first? at h
    split at h
    · cases h
    split at h
    · cases h
    split at h
    · cases h
    split at h
    · cases h
    split at h
    · cases h
    · exact ⟨_, rfl, splitClose?_eq_none.1 (Option.map_eq_none_iff.1 h)⟩
    · cases h
  · rintro ⟨inner, he, hn⟩
    obtain ⟨rfl, rfl⟩ := List.cons.inj he
    rw [first?_openComment, splitClose?_eq_none.2 hn, Option.map_none]

end First

end Piece

end Stackwise
