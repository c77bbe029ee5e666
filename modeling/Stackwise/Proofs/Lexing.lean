import Stackwise.Proofs.Cutting

/-! A text cut into pieces from end to end, and what scanning makes of them.  There is one
partition of each text; the tokens and the warnings are those of its pieces, and the line of each is
counted in the text before it. -/
namespace Stackwise

namespace Piece

section Lines

variable {kind : TokenKind} {before cs rest : List Char} {p : Piece} {ps : List Piece}

/-- Pieces, each with the text that stands before it. -/
def located (before : List Char) : List Piece → List (List Char × Piece)
  | [] => []
  | p :: ps => (before, p) :: located (before ++ p.text) ps

/-- What stands before the character on whose line a piece is reported.  That is the closing quote
of a quoted text and the first character of any other piece. -/
def mark (before : List Char) (p : Piece) : List Char :=
  match p.shape with
  | .token .stringLit _ => before ++ p.text.dropLast
  | _ => before

def tokenAt? (found : List Char × Piece) : Option Token :=
  match found.2.shape with
  | .token kind literal => some ⟨kind, literal, 1 + (mark found.1 found.2).count '\n'⟩
  | _ => none

def warningAt? (found : List Char × Piece) : Option Diagnostic :=
  match found.2.shape with
  | .stray => some ⟨.warning, "Unknown character `" ++ String.ofList found.2.text ++ "`",
      1 + found.1.count '\n'⟩
  | _ => none

/-- The places of a piece whose lines are asked for, each as the text before it. -/
def asked (found : List Char × Piece) : List (List Char) :=
  match found.2.shape with
  | .blank | .lineComment => []
  | _ => [found.1, mark found.1 found.2]

theorem Lexeme.newline_not_mem (h : Lexeme kind cs) (hk : kind ≠ .stringLit) : '\n' ∉ cs := by
  cases h with
  | keyword hk =>
    have hall : ∀ k ∈ TokenKind.keywords, '\n' ∉ k.name.toList := by decide
    exact hall _ hk
  | name hc hds _ =>
    intro hm
    rcases List.mem_cons.1 hm with rfl | hm
    · cases hc
    · cases hds _ hm
  | int _ hds =>
    intro hm
    cases hds _ hm
  | quoted => exact absurd rfl hk
  | symbol hk =>
    have hall : ∀ e ∈ TokenKind.symbols, '\n' ∉ e.2 := by decide
    exact hall _ hk

theorem kindBefore_eq_iff {kind' : TokenKind} (hi : kind' ≠ .ident) (hf : kind' ≠ .fnName) :
    kindBefore kind rest = kind' ↔ kind = kind' := by
  unfold kindBefore
  split
  · next h => simp [h.1, hi.symm, hf.symm]
  · rfl

theorem Lexeme.exists_body (h : Lexeme .stringLit cs) : ∃ body, cs = '"' :: (body ++ ['"']) := by
  cases h with
  | quoted => exact ⟨_, rfl⟩
  | keyword hk => exact absurd rfl (keyword_bare hk).2.2
  | symbol hk => exact absurd rfl (symbol_bare hk).2.2

/-- The text that a quoted text carries is what stands between its two quotes. -/
theorem Cut.exists_body {literal : Option String} (h : p.Cut rest)
    (hs : p.shape = .token .stringLit literal) :
    ∃ body, p.text = '"' :: (body ++ ['"']) ∧ literal = some (String.ofList body) := by
  cases h with
  | @token kind cs hk _ =>
    obtain ⟨hkind, rfl⟩ := Shape.token.inj hs
    obtain rfl := (kindBefore_eq_iff (by simp) (by simp)).1 hkind
    obtain ⟨body, rfl⟩ := hk.exists_body
    exact ⟨body, rfl, by simp [literalOf]⟩
  | blank => cases hs
  | lineComment => cases hs
  | blockComment => cases hs
  | stray => cases hs
  | unclosed => cases hs

/-- A quoted text ends on the line of its closing quote, and any other lexeme is on one line. -/
theorem Cut.ofPiece?_eq (h : p.Cut rest) :
    Token.ofPiece? (p, 1 + before.count '\n') = tokenAt? (before, p) := by
  cases h with
  | @token kind cs hk _ =>
    simp only [Token.ofPiece?, tokenAt?, newlines, Option.some.injEq, Token.mk.injEq, true_and]
    by_cases hs : kind = .stringLit
    · subst hs
      obtain ⟨body, rfl⟩ := hk.exists_body
      have hd : ('"' :: (body ++ ['"'])).dropLast = '"' :: body := by
        rw [← List.cons_append, List.dropLast_concat]
      simp [mark, kindBefore, hd, List.count_append, Nat.add_assoc]
    · have hm : mark before ⟨.token (kindBefore kind rest) (literalOf kind cs), cs⟩ = before := by
        unfold mark
        split
        · next h =>
          exact absurd ((kindBefore_eq_iff (by simp) (by simp)).1 (Shape.token.inj h).1) hs
        · rfl
      rw [hm, List.count_eq_zero_of_not_mem (hk.newline_not_mem hs), Nat.add_zero]
  | blank => rfl
  | lineComment => rfl
  | blockComment => rfl
  | stray => rfl
  | unclosed => rfl

theorem mark_isPrefix : before <+: mark before p ∧ mark before p <+: before ++ p.text := by
  unfold mark
  split
  · exact ⟨List.prefix_append _ _, (List.prefix_append_right_inj before).2 (List.dropLast_prefix _)⟩
  · exact ⟨List.prefix_rfl, List.prefix_append _ _⟩

theorem asked_isPrefix {place : List Char} (h : place ∈ asked (before, p)) :
    before <+: place ∧ place <+: before ++ p.text := by
  have hm : place = before ∨ place = mark before p := by
    unfold asked at h
    split at h <;> simp_all
  rcases hm with rfl | rfl
  · exact ⟨List.prefix_rfl, List.prefix_append _ _⟩
  · exact mark_isPrefix

theorem isPrefix_of_mem_asked {place : List Char} (h : place ∈ (located before ps).flatMap asked) :
    before <+: place ∧ place <+: before ++ ps.flatMap Piece.text := by
  induction ps generalizing before with
  | nil => simp [located] at h
  | cons p ps ih =>
    simp only [located, List.flatMap_cons, List.mem_append] at h
    rw [List.flatMap_cons, ← List.append_assoc]
    rcases h with h | h
    · obtain ⟨h₁, h₂⟩ := asked_isPrefix h
      exact ⟨h₁, h₂.trans (List.prefix_append _ _)⟩
    · obtain ⟨h₁, h₂⟩ := ih h
      exact ⟨(List.prefix_append _ _).trans h₁, h₂⟩

theorem pairwise_asked (before : List Char) (ps : List Piece) :
    ((located before ps).flatMap asked).Pairwise (· <+: ·) := by
  induction ps generalizing before with
  | nil => exact .nil
  | cons p ps ih =>
    rw [located, List.flatMap_cons, List.pairwise_append]
    refine ⟨?_, ih _, fun a ha b hb => (asked_isPrefix ha).2.trans (isPrefix_of_mem_asked hb).1⟩
    unfold asked
    split <;> simp [mark_isPrefix.1]

end Lines

end Piece

open Piece

/-- A text as pieces end to end, and what stands from a `/*` on that is never closed. -/
structure Partition (text : List Char) (ps : List Piece) (left : List Char) : Prop where
  whole : ps.flatMap Piece.text ++ left = text
  ne_nil : ∀ p ∈ ps, p.text ≠ []
  cut : ∀ before p after, ps = before ++ p :: after → p.Cut (after.flatMap Piece.text ++ left)
  left : left = [] ∨ ∃ inner, left = '/' :: '*' :: inner ∧ ¬ ['*', '/'] <:+: inner

section Partition

variable {c : Char} {cs rest text left : List Char} {p : Piece} {ps : List Piece}

theorem pieces_of_first?_eq_some (h : first? c cs = some (p, rest)) :
    pieces (c :: cs) = (p :: (pieces rest).1, (pieces rest).2) := by
  rw [pieces]
  split
  · simp_all
  · next p' rest' h' =>
    obtain ⟨rfl, rfl⟩ : p' = p ∧ rest' = rest := by simpa [h] using h'.symm
    rfl

theorem pieces_of_first?_eq_none (h : first? c cs = none) : pieces (c :: cs) = ([], c :: cs) := by
  rw [pieces]
  split <;> simp_all

theorem Partition.tail (h : Partition text (p :: ps) left) :
    Partition (ps.flatMap Piece.text ++ left) ps left where
  whole := rfl
  ne_nil q hq := h.ne_nil q (List.mem_cons_of_mem p hq)
  cut before q after hq := h.cut (p :: before) q after (by rw [hq, List.cons_append])
  left := h.left

theorem Partition.pieces_eq (h : Partition text ps left) : pieces text = (ps, left) := by
  induction ps generalizing text with
  | nil =>
    obtain rfl := h.whole
    rcases h.left with rfl | ⟨inner, rfl, hn⟩
    · rw [List.flatMap_nil, List.nil_append, pieces]
    · exact pieces_of_first?_eq_none (first?_eq_none.2 ⟨inner, rfl, hn⟩)
  | cons p ps ih =>
    obtain ⟨c, t, ht⟩ := List.exists_cons_of_ne_nil (h.ne_nil p (by simp))
    have hf := (h.cut [] p ps rfl).first?_eq ht
    obtain rfl := h.whole
    rw [List.flatMap_cons, List.append_assoc, ht, List.cons_append, pieces_of_first?_eq_some hf,
      ih h.tail]

theorem pieces_partition (text : List Char) : Partition text (pieces text).1 (pieces text).2 := by
  fun_induction pieces text with
  | case1 => exact ⟨rfl, by simp, by simp, .inl rfl⟩
  | case2 c cs h => exact ⟨rfl, by simp, by simp, .inr (first?_eq_none.1 h)⟩
  | case3 c cs p rest h ps left hp ih =>
    rw [hp] at ih
    have hcut := first?_cut h
    refine ⟨?_, ?_, ?_, ih.left⟩
    · rw [List.flatMap_cons, List.append_assoc, ih.whole, first?_text h]
    · exact List.forall_mem_cons.2 ⟨hcut.text_ne_nil, ih.ne_nil⟩
    · intro before q after hq
      cases before with
      | nil =>
        obtain ⟨rfl, rfl⟩ := List.cons.inj hq
        rwa [ih.whole]
      | cons _ before => exact ih.cut before q after (List.cons.inj hq).2

theorem Partition.exists_cut (h : Partition text ps left) (hp : p ∈ ps) : ∃ rest, p.Cut rest := by
  obtain ⟨before, after, rfl⟩ := List.append_of_mem hp
  exact ⟨_, h.cut before p after rfl⟩

theorem tokens_eq_located (h : ∀ p ∈ ps, ∃ rest, p.Cut rest) (before : List Char) :
    (Piece.place (1 + before.count '\n') ps).filterMap Token.ofPiece? =
      (located before ps).filterMap tokenAt? := by
  induction ps generalizing before with
  | nil => rfl
  | cons p ps ih =>
    obtain ⟨⟨rest, hcut⟩, h⟩ := List.forall_mem_cons.1 h
    have hline : 1 + before.count '\n' + p.newlines = 1 + (before ++ p.text).count '\n' := by
      rw [newlines, List.count_append, Nat.add_assoc]
    simp only [Piece.place, located, List.filterMap_cons, hcut.ofPiece?_eq, hline, ih h]

theorem warnings_eq_located (before : List Char) (ps : List Piece) :
    (Piece.place (1 + before.count '\n') ps).filterMap Diagnostic.ofPiece? =
      (located before ps).filterMap warningAt? := by
  induction ps generalizing before with
  | nil => rfl
  | cons p ps ih =>
    have hline : 1 + before.count '\n' + p.newlines = 1 + (before ++ p.text).count '\n' := by
      rw [newlines, List.count_append, Nat.add_assoc]
    have hp : Diagnostic.ofPiece? (p, 1 + before.count '\n') = warningAt? (before, p) := rfl
    simp only [Piece.place, located, List.filterMap_cons, hp, hline, ih]

theorem Scan.eq_tokens_of_result {s : Scan} {ts : List Token} (h : s.result = .ok ts) :
    ts = s.tokens := by
  unfold Scan.result at h
  split at h
  · cases h
  · exact (Except.ok.inj h).symm

theorem Scan.result_ofPieces (ps : List Piece) (left : List Char) :
    (ofPieces ps left).result = if left = [] then .ok (ofPieces ps left).tokens
      else .error ⟨.unclosedComment, 1 + (ps.flatMap Piece.text).count '\n'⟩ := by
  cases left <;> rfl

end Partition

/-- Scanning cuts a text in the one way there is and loses nothing.  Tokens and warnings are the
pieces of their shapes in order, each on its line; the lines are asked for from left to right; and
scanning fails exactly at a block comment that is never closed. -/
theorem Scan.ofText_longest_match (source : String) :
    ∃ ps left, Partition source.toList ps left ∧
      (∀ ps' left', Partition source.toList ps' left' → ps' = ps ∧ left' = left) ∧
      (Scan.ofText source).tokens = (located [] ps).filterMap tokenAt? ∧
      (Scan.ofText source).warnings = (located [] ps).filterMap warningAt? ∧
      ((located [] ps).flatMap asked ++ [ps.flatMap Piece.text]).Pairwise (· <+: ·) ∧
      (Scan.ofText source).result =
        if left = [] then .ok (Scan.ofText source).tokens
        else .error ⟨.unclosedComment, 1 + (ps.flatMap Piece.text).count '\n'⟩ := by
  have hpart := pieces_partition source.toList
  refine ⟨_, _, hpart, ?_, ?_, ?_, ?_, ?_⟩
  · intro ps' left' h
    have he := h.pieces_eq
    exact ⟨by rw [he], by rw [he]⟩
  · exact tokens_eq_located (fun p hp => hpart.exists_cut hp) []
  · exact warnings_eq_located [] _
  · rw [List.pairwise_append]
    refine ⟨pairwise_asked [] _, List.pairwise_singleton _ _, fun a ha b hb => ?_⟩
    obtain rfl := List.mem_singleton.1 hb
    exact (isPrefix_of_mem_asked ha).2
  · exact Scan.result_ofPieces _ _

end Stackwise
