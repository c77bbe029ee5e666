import Stackwise.Proofs.Lexing
import Stackwise.Proofs.LayoutIndependence

/-! Tokens written out.  A token has one spelling, and between two spellings stand blanks and closed
comments, a blank first.  Scanning such a text finds the tokens that were written. -/
namespace Stackwise

open Piece

def TokenKind.spelling (kind : TokenKind) : List Char :=
  (symbols.lookup kind).getD kind.name.toList

namespace Token

def spelling (t : Token) : List Char :=
  let text := (t.literal.getD "").toList
  match t.kind with
  | .intLit | .ident | .fnName => text
  | .stringLit => '"' :: (text ++ ['"'])
  | kind => kind.spelling

structure IsName (text : String) : Prop where
  first : ∃ c ∈ text.toList.head?, isWordStart c
  chars : ∀ c ∈ text.toList, isWordChar c
  free : ∀ kind ∈ TokenKind.keywords, kind.name ≠ text

/-- The tokens that some text is cut into. -/
def Writable (t : Token) : Prop :=
  match t.kind with
  | .intLit => ∃ text, t.literal = some text ∧ text ≠ "" ∧ ∀ c ∈ text.toList, isDigit c
  | .stringLit => ∃ text, t.literal = some text ∧ '"' ∉ text.toList
  | .ident | .fnName => ∃ text, t.literal = some text ∧ IsName text
  | .blockComment | .unknown => False
  | _ => t.literal = none

def CallsOpen : List Token → Prop
  | [] => True
  | t :: ts => (t.kind = .fnName → ts.head?.map kind = some .openParen) ∧ CallsOpen ts

/-- Tokens written in turn.  The `i`th of the gaps stands behind the `i`th token, but there is none
behind the name of a function and none at the end. -/
def write (gap : Nat → List Char) : List Token → List Char
  | [] => []
  | t :: ts =>
    t.spelling ++ (if ts = [] ∨ t.kind = .fnName then [] else gap 0) ++
      write (fun i => gap (i + 1)) ts

end Token

/-- Blanks, comments up to the end of their line, and block comments up to their first `*/`. -/
inductive Filler : List Char → Prop
  | nil : Filler []
  | blank {c : Char} {rest : List Char} : isBlank c → Filler rest → Filler (c :: rest)
  | lineComment {body rest : List Char} : '\n' ∉ body → Filler rest →
    Filler ('/' :: '/' :: (body ++ '\n' :: rest))
  | blockComment {body rest : List Char} : ¬ ['*', '/'] <:+: body → Filler rest →
    Filler ('/' :: '*' :: (body ++ '*' :: '/' :: rest))

/-- What may stand between two lexemes. -/
structure Separates (gap : List Char) : Prop where
  filler : Filler gap
  front : ∃ c ∈ gap.head?, isBlank c

def Piece.content? (p : Piece) : Option (TokenKind × Option String) :=
  match p.shape with
  | .token kind literal => some (kind, literal)
  | _ => none

/-- A text with nothing stray and no comment left open, and what its tokens say. -/
structure Lexes (text : List Char) (contents : List (TokenKind × Option String)) : Prop where
  closed : (pieces text).2 = []
  clean : ∀ p ∈ (pieces text).1, p.shape ≠ .stray
  contents : (pieces text).1.filterMap Piece.content? = contents

namespace Lexes

variable {c : Char} {cs rest body : List Char} {p : Piece}
  {contents : List (TokenKind × Option String)}

theorem nil : Lexes [] [] := by
  have h : pieces [] = ([], []) := by rw [pieces]
  constructor <;> simp [h]

theorem skip_iff (h : first? c cs = some (p, rest)) (hn : p.content? = none)
    (hs : p.shape ≠ .stray) : Lexes (c :: cs) contents ↔ Lexes rest contents := by
  have he := pieces_of_first?_eq_some h
  constructor
  · rintro ⟨h₁, h₂, h₃⟩
    rw [he] at h₁ h₂ h₃
    rw [List.filterMap_cons_none hn] at h₃
    exact ⟨h₁, (List.forall_mem_cons.1 h₂).2, h₃⟩
  · rintro ⟨h₁, h₂, h₃⟩
    constructor
    · rwa [he]
    · rw [he]
      exact List.forall_mem_cons.2 ⟨hs, h₂⟩
    · rwa [he, List.filterMap_cons_none hn]

theorem token {kind : TokenKind} (hk : Lexeme kind cs) (hl : Longest cs rest)
    (h : Lexes rest contents) :
    Lexes (cs ++ rest) ((kindBefore kind rest, literalOf kind cs) :: contents) := by
  cases cs with
  | nil => exact absurd (.token hk) not_matches_nil
  | cons c t =>
    have he := pieces_of_first?_eq_some (hk.first?_eq hl)
    rw [List.cons_append]
    constructor
    · rw [he]
      exact h.closed
    · rw [he]
      exact List.forall_mem_cons.2 ⟨by simp, h.clean⟩
    · rw [he, ← h.contents]
      rfl

theorem dropWhile_iff :
    Lexes (cs.dropWhile isBlank) contents ↔ Lexes cs contents := by
  cases cs with
  | nil => rfl
  | cons c cs =>
    by_cases hc : isBlank c
    · rw [List.dropWhile_cons_of_pos hc]
      exact (skip_iff (first?_of_isBlank hc) rfl (by simp)).symm
    · rw [List.dropWhile_cons_of_neg hc]

theorem blank (hc : isBlank c) (h : Lexes rest contents) : Lexes (c :: rest) contents := by
  rw [← dropWhile_iff, List.dropWhile_cons_of_pos hc, dropWhile_iff]
  exact h

theorem lineComment (hb : '\n' ∉ body) (h : Lexes rest contents) :
    Lexes ('/' :: '/' :: (body ++ '\n' :: rest)) contents := by
  have hcut : Cut ('\n' :: rest) ⟨.lineComment, '/' :: '/' :: body⟩ := .lineComment hb (by simp)
  have hf : first? '/' ('/' :: body ++ '\n' :: rest) = some (_, '\n' :: rest) := hcut.first?_eq rfl
  exact (skip_iff hf rfl (by simp)).2 (blank rfl h)

theorem blockComment (hb : ¬ ['*', '/'] <:+: body) (h : Lexes rest contents) :
    Lexes ('/' :: '*' :: (body ++ '*' :: '/' :: rest)) contents := by
  have hb' : ¬ ['*', '/'] <:+: body ++ ['*'] := by
    rw [List.infix_concat_iff, not_or]
    refine ⟨?_, hb⟩
    rintro ⟨front, he⟩
    simpa using congrArg List.getLast? he
  have hs : splitClose? (body ++ '*' :: '/' :: rest) = some (body, rest) :=
    splitClose?_eq_some.2 ⟨rfl, hb'⟩
  have hf : first? '/' ('*' :: (body ++ '*' :: '/' :: rest)) = _ := first?_openComment
  rw [hs] at hf
  exact (skip_iff hf rfl (by simp)).2 h

theorem filler {gap : List Char} (hg : Filler gap) (h : Lexes rest contents) :
    Lexes (gap ++ rest) contents := by
  induction hg with
  | nil => exact h
  | blank hc _ ih => exact blank hc ih
  | lineComment hb _ ih => simpa using lineComment hb ih
  | blockComment hb _ ih => simpa using blockComment hb ih

theorem result {source : String} (h : Lexes source.toList contents) :
    (Scan.ofText source).result = .ok (Scan.ofText source).tokens ∧
      (Scan.ofText source).tokens.map Token.content = contents ∧
      (Scan.ofText source).warnings = [] := by
  have hres := Scan.result_ofPieces (pieces source.toList).1 (pieces source.toList).2
  rw [if_pos h.closed] at hres
  refine ⟨hres, ?_, ?_⟩
  · have hc : ∀ e : Piece × Nat, (Token.ofPiece? e).map Token.content = e.1.content? := by
      intro e
      cases he : e.1.shape <;> simp [Token.ofPiece?, Piece.content?, Token.content, he]
    calc (Scan.ofText source).tokens.map Token.content
        = (Piece.place 1 (pieces source.toList).1).filterMap (Piece.content? ∘ Prod.fst) := by
          simp only [Scan.ofText, Scan.ofPieces, List.map_filterMap, hc, Function.comp_def]
      _ = (pieces source.toList).1.filterMap Piece.content? := by
          rw [← List.filterMap_map, Piece.map_fst_place]
      _ = contents := h.contents
  · change List.filterMap Diagnostic.ofPiece? (Piece.place 1 (pieces source.toList).1) = []
    rw [List.filterMap_eq_nil_iff]
    intro e he
    have hp : e.1 ∈ (pieces source.toList).1 := by
      have hm := List.mem_map_of_mem (f := Prod.fst) he
      rwa [Piece.map_fst_place] at hm
    have hs := h.clean e.1 hp
    cases hc : e.1.shape <;> simp_all [Diagnostic.ofPiece?]

end Lexes

namespace Piece

/-- No lexeme goes on with a blank or an opening parenthesis. -/
theorem Lexeme.longest {kind : TokenKind} {cs rest : List Char} (h : Lexeme kind cs)
    (hr : ∀ c ∈ rest.head?, isBlank c ∨ c = '(') : Longest cs rest := by
  have hclass : ∀ c ∈ rest.head?, ¬ isDigit c ∧ ¬ isWordChar c ∧ c ≠ '/' ∧ c ≠ '*' := by
    intro c hc
    rcases hr c hc with hb | rfl
    · rw [isBlank_iff] at hb
      simp only [isWordChar, Bool.or_eq_true, isDigit_iff, isWordStart_iff, ← Char.toNat_inj, ne_eq]
      have h₁ : '/'.toNat = 47 := rfl
      have h₂ : '*'.toNat = 42 := rfl
      omega
    · decide
  cases h with
  | keyword hk =>
    obtain ⟨c, t, hn, hc, ht⟩ := isWordStart_of_mem_keywords hk
    rw [hn]
    exact (longest_word hc ht).2 fun d hd => (hclass d hd).2.1
  | name hc ht _ => exact (longest_word hc ht).2 fun d hd => (hclass d hd).2.1
  | int hne hd =>
    obtain ⟨c, t, rfl⟩ := List.exists_cons_of_ne_nil hne
    rw [List.forall_mem_cons] at hd
    exact (longest_digits hd.1 hd.2).2 fun d hd => (hclass d hd).1
  | quoted _ => exact longest_quoted
  | @symbol _ cs hk =>
    cases cs with
    | nil => exact absurd (.token (.symbol hk)) not_matches_nil
    | cons c t => exact (longest_symbol hk).2 fun _ d hd => (hclass d hd).2.2

end Piece

theorem TokenKind.lexeme_spelling {kind : TokenKind}
    (h : kind ∈ keywords ∨ (kind, kind.spelling) ∈ symbols) : Lexeme kind kind.spelling := by
  rcases h with h | h
  · have hall : ∀ k ∈ keywords, k.spelling = k.name.toList := by decide
    rw [hall kind h]
    exact .keyword h
  · exact .symbol h

namespace Token

theorem Writable.cases {t : Token} (h : t.Writable) :
    (t.kind = .intLit ∧ ∃ text, t.literal = some text ∧ text ≠ "" ∧ ∀ c ∈ text.toList, isDigit c) ∨
    (t.kind = .stringLit ∧ ∃ text, t.literal = some text ∧ '"' ∉ text.toList) ∨
    ((t.kind = .ident ∨ t.kind = .fnName) ∧ ∃ text, t.literal = some text ∧ IsName text) ∨
    ((t.kind ∈ TokenKind.keywords ∨ (t.kind, t.kind.spelling) ∈ TokenKind.symbols) ∧
      t.spelling = t.kind.spelling ∧ t.literal = none) := by
  obtain ⟨kind, literal, line⟩ := t
  cases kind with
  | intLit => exact .inl ⟨rfl, h⟩
  | stringLit => exact .inr (.inl ⟨rfl, h⟩)
  | ident => exact .inr (.inr (.inl ⟨.inl rfl, h⟩))
  | fnName => exact .inr (.inr (.inl ⟨.inr rfl, h⟩))
  | blockComment => exact h.elim
  | unknown => exact h.elim
  | _ =>
    refine .inr (.inr (.inr ⟨?_, rfl, h⟩))
    dsimp only
    decide

/-- What is written of a token is a lexeme that says what the token says, if `(` comes next exactly
for the name of a function. -/
theorem Writable.exists_lexeme {t : Token} (h : t.Writable) :
    ∃ kind, Lexeme kind t.spelling ∧ ∀ rest : List Char,
      (rest.head? = some '(' ↔ t.kind = .fnName) →
        (kindBefore kind rest, literalOf kind t.spelling) = t.content := by
  rcases h.cases with ⟨hk, text, hl, hne, hd⟩ | ⟨hk, text, hl, hq⟩ | ⟨hk, text, hl, hn⟩ |
    ⟨hk, hs, hl⟩
  · have hs : t.spelling = text.toList := by simp [spelling, hk, hl]
    refine ⟨.intLit, hs ▸ .int (by simpa using hne) hd, fun rest _ => ?_⟩
    simp [hs, kindBefore, literalOf, content, hk, hl]
  · have hs : t.spelling = '"' :: (text.toList ++ ['"']) := by simp [spelling, hk, hl]
    refine ⟨.stringLit, hs ▸ .quoted hq, fun rest _ => ?_⟩
    simp [hs, kindBefore, literalOf, content, hk, hl]
  · have hs : t.spelling = text.toList := by rcases hk with hk | hk <;> simp [spelling, hk, hl]
    obtain ⟨c, hc, hw⟩ := hn.first
    obtain ⟨cs, ht⟩ : ∃ cs, text.toList = c :: cs := by cases h : text.toList <;> simp_all
    have hfree : ∀ kind ∈ TokenKind.keywords, kind.name.toList ≠ c :: cs := by
      intro kind hm he
      rw [← ht] at he
      exact hn.free kind hm (String.toList_injective he)
    have hchars := hn.chars
    rw [ht, List.forall_mem_cons] at hchars
    refine ⟨.ident, ?_, fun rest hr => ?_⟩
    · rw [hs, ht]
      exact .name hw hchars.2 hfree
    · rcases hk with hk | hk <;>
        simp [hs, kindBefore, literalOf, content, hr, hk, hl]
  · refine ⟨t.kind, hs ▸ TokenKind.lexeme_spelling hk, fun rest _ => ?_⟩
    have hb : t.kind ≠ .intLit ∧ t.kind ≠ .ident ∧ t.kind ≠ .stringLit :=
      hk.elim keyword_bare symbol_bare
    obtain ⟨h₁, h₂⟩ := Shape.token.inj (shape_of_bare hb t.spelling rest)
    rw [h₁, h₂, content, hl]

theorem Writable.lexes {t : Token} {rest : List Char}
    {contents : List (TokenKind × Option String)} (h : t.Writable)
    (hr : ∀ c ∈ rest.head?, isBlank c ∨ c = '(') (hf : rest.head? = some '(' ↔ t.kind = .fnName)
    (hrest : Lexes rest contents) : Lexes (t.spelling ++ rest) (t.content :: contents) := by
  obtain ⟨kind, hk, hc⟩ := h.exists_lexeme
  rw [← hc rest hf]
  exact .token hk (hk.longest hr) hrest

theorem head?_write {gap : Nat → List Char} {ts : List Token}
    (h : ts.head?.map kind = some .openParen) : (write gap ts).head? = some '(' := by
  cases ts with
  | nil => cases h
  | cons t ts =>
    have hk : t.kind = .openParen := Option.some.inj h
    have hs : t.spelling = ['('] := by
      simp only [spelling, hk]
      decide
    simp [write, hs]

theorem lexes_write {ts : List Token} : ∀ {gap : Nat → List Char}, (∀ t ∈ ts, t.Writable) →
    CallsOpen ts → (∀ i, Separates (gap i)) → Lexes (write gap ts) (ts.map content) := by
  induction ts with
  | nil => exact fun _ _ _ => .nil
  | cons t ts ih =>
    intro gap hw hc hg
    rw [List.forall_mem_cons] at hw
    have hrest := ih hw.2 hc.2 fun i => hg (i + 1)
    rw [write, List.append_assoc, List.map_cons]
    by_cases hf : t.kind = .fnName
    · have hopen : (write (fun i => gap (i + 1)) ts).head? = some '(' := head?_write (hc.1 hf)
      rw [if_pos (.inr hf), List.nil_append]
      exact hw.1.lexes (by simp [hopen]) (by simp [hopen, hf]) hrest
    · cases ts with
      | nil =>
        rw [if_pos (.inl rfl)]
        exact hw.1.lexes (by simp [write]) (by simp [write, hf]) hrest
      | cons u ts =>
        obtain ⟨c, hb, hblank⟩ := (hg 0).front
        have hne : ¬ (u :: ts = [] ∨ t.kind = .fnName) := by simp [hf]
        have hhead : (gap 0 ++ write (fun i => gap (i + 1)) (u :: ts)).head? = some c := by
          rw [List.head?_append, Option.mem_def.1 hb]
          rfl
        rw [if_neg hne]
        refine hw.1.lexes ?_ ?_ (.filler (hg 0).filler hrest)
        · simp [hhead, hblank]
        · have hp : c ≠ '(' := by
            rintro rfl
            cases hblank
          simp [hhead, hf, hp]

end Token

/-- Scanning undoes writing tokens out, whatever blanks and comments stand between them. -/
theorem Scan.ofText_write (ts : List Token) (gap : Nat → List Char) (hw : ∀ t ∈ ts, t.Writable)
    (hc : Token.CallsOpen ts) (hg : ∀ i, Separates (gap i)) :
    ∃ us, (Scan.ofText (String.ofList (Token.write gap ts))).result = .ok us ∧ Relaid us ts ∧
      (Scan.ofText (String.ofList (Token.write gap ts))).warnings = [] := by
  have h := Token.lexes_write hw hc hg
  rw [← String.toList_ofList (l := Token.write gap ts)] at h
  obtain ⟨hres, htokens, hwarn⟩ := h.result
  exact ⟨_, hres, htokens, hwarn⟩

/-- A call with a name that begins as a keyword does, a quoted text that looks like a comment, and
slashes and stars next to comments. -/
def crowdedTokens : List Token :=
  [⟨.kwExit, none, 1⟩, ⟨.openParen, none, 1⟩, ⟨.fnName, some "f", 1⟩, ⟨.openParen, none, 1⟩,
    ⟨.ident, some "exit_code", 1⟩, ⟨.slash, none, 1⟩, ⟨.star, none, 1⟩, ⟨.intLit, some "007", 1⟩,
    ⟨.stringLit, some "/* // ", 1⟩, ⟨.or, none, 1⟩, ⟨.ident, some "f", 1⟩, ⟨.openParen, none, 1⟩]

/-- A blank, two block comments, and a comment up to the end of its line. -/
def crowdedGap : List Char :=
  ' ' :: '/' :: '*' :: (['/', '/', '"', '*'] ++ '*' :: '/' :: '/' :: '*' :: ([] ++ '*' :: '/' ::
    '/' :: '/' :: (['/', '*', '"'] ++ '\n' :: [])))

theorem Scan.ofText_write_crowdedTokens :
    (∀ t ∈ crowdedTokens, t.Writable) ∧ Token.CallsOpen crowdedTokens ∧ Separates crowdedGap ∧
      ∃ us, (Scan.ofText (String.ofList (Token.write (fun _ => crowdedGap) crowdedTokens))).result =
          .ok us ∧ Relaid us crowdedTokens ∧
        (Scan.ofText (String.ofList (Token.write (fun _ => crowdedGap) crowdedTokens))).warnings =
          [] := by
  have hf : Token.IsName "f" :=
    ⟨⟨'f', rfl, rfl⟩, List.all_eq_true.1 (by decide), by decide⟩
  have he : Token.IsName "exit_code" :=
    ⟨⟨'e', rfl, rfl⟩, List.all_eq_true.1 (by decide), by decide⟩
  have hw : ∀ t ∈ crowdedTokens, t.Writable := by
    simp only [crowdedTokens, List.forall_mem_cons]
    exact ⟨rfl, rfl, ⟨"f", rfl, hf⟩, rfl, ⟨"exit_code", rfl, he⟩, rfl, rfl,
      ⟨"007", rfl, by decide, List.all_eq_true.1 (by decide)⟩, ⟨"/* // ", rfl, by decide⟩, rfl,
      ⟨"f", rfl, hf⟩, rfl, List.forall_mem_nil _⟩
  have hc : Token.CallsOpen crowdedTokens := by
    simp [crowdedTokens, Token.CallsOpen]
  have hg : Separates crowdedGap := by
    refine ⟨.blank rfl (.blockComment ?_ (.blockComment ?_ (.lineComment ?_ .nil))), ' ', rfl, rfl⟩
    · decide
    · decide
    · decide
  exact ⟨hw, hc, hg, Scan.ofText_write crowdedTokens (fun _ => crowdedGap) hw hc fun _ => hg⟩

end Stackwise
