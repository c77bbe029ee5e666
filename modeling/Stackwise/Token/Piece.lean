import Stackwise.Token.Basic

/-! Cutting a text into pieces: runs of blanks, comments, lexemes of tokens, and characters that
belong to none of these.  The pieces lie end to end, so a text is the pieces put together and, if
some block comment is never closed, what stands from its opening on. -/
namespace Stackwise

inductive Shape where
  | blank
  | lineComment
  | blockComment
  | token (kind : TokenKind) (literal : Option String)
  | stray
deriving DecidableEq, Repr

structure Piece where
  shape : Shape
  text : List Char
deriving DecidableEq, Repr

namespace Piece

def isBlank (c : Char) : Bool :=
  c == ' ' || c == '\t' || c == '\n' || c == '\r' || c == '\x0c'

def isDigit (c : Char) : Bool := '0' ≤ c && c ≤ '9'

def isWordStart (c : Char) : Bool :=
  ('a' ≤ c && c ≤ 'z') || ('A' ≤ c && c ≤ 'Z') || c == '_'

def isWordChar (c : Char) : Bool := isWordStart c || isDigit c

def symbol? : Char → Option TokenKind
  | ';' => some .semi
  | ',' => some .comma
  | '.' => some .dot
  | '(' => some .openParen
  | ')' => some .closeParen
  | '\x7b' => some .openCurly
  | '\x7d' => some .closeCurly
  | '=' => some .eq
  | '>' => some .gt
  | '<' => some .lt
  | '+' => some .plus
  | '-' => some .minus
  | '*' => some .star
  | '/' => some .slash
  | _ => none

def symbol₂? : Char → Char → Option TokenKind
  | '&', '&' => some .and
  | '|', '|' => some .or
  | _, _ => none

/-- What stands before the first `*/`, and what stands after it. -/
def splitClose? : List Char → Option (List Char × List Char)
  | '*' :: '/' :: rest => some ([], rest)
  | c :: cs => (splitClose? cs).map fun (body, rest) => (c :: body, rest)
  | [] => none

/-- The shape of a whole word: a keyword, or a name, which is a function's name if `(` follows. -/
def wordShape (word rest : List Char) : Shape :=
  let text := String.ofList word
  match TokenKind.keyword? text with
  | some kind => .token kind none
  | none => .token (if rest.head? = some '(' then .fnName else .ident) (some text)

/-- The run of characters of a class at the front of a text, `c` before it, and the rest. -/
def run (p : Char → Bool) (c : Char) (cs : List Char) : List Char × List Char :=
  (c :: cs.takeWhile p, cs.dropWhile p)

/-- The symbol at the front of `c :: cs`, of two characters if there is such a one. -/
def ofSymbol (c : Char) (cs : List Char) : Piece × List Char :=
  match cs.head?.bind (symbol₂? c) with
  | some kind => (⟨.token kind none, c :: cs.take 1⟩, cs.drop 1)
  | none =>
    match symbol? c with
    | some kind => (⟨.token kind none, [c]⟩, cs)
    | none => (⟨.stray, [c]⟩, cs)

/-- The quoted text that a quote opens, or, if it is never closed, all that is left. -/
def ofQuote (cs : List Char) : Piece × List Char :=
  match cs.dropWhile (· ≠ '"') with
  | close :: rest =>
    let body := cs.takeWhile (· ≠ '"')
    (⟨.token .stringLit (some (String.ofList body)), '"' :: body ++ [close]⟩, rest)
  | [] => (⟨.stray, '"' :: cs⟩, [])

/-- The first piece of `c :: cs` and the text after it; none where a block comment begins that is
never closed. -/
def first? (c : Char) (cs : List Char) : Option (Piece × List Char) :=
  if isBlank c then
    let (text, rest) := run isBlank c cs
    some (⟨.blank, text⟩, rest)
  else if isDigit c then
    let (text, rest) := run isDigit c cs
    some (⟨.token .intLit (some (String.ofList text)), text⟩, rest)
  else if isWordStart c then
    let (text, rest) := run isWordChar c cs
    some (⟨wordShape text rest, text⟩, rest)
  else if c = '"' then
    some (ofQuote cs)
  else
    match c, cs with
    | '/', '/' :: _ =>
      let (text, rest) := run (· ≠ '\n') c cs
      some (⟨.lineComment, text⟩, rest)
    | '/', '*' :: inner =>
      (splitClose? inner).map fun (body, rest) =>
        (⟨.blockComment, '/' :: '*' :: body ++ ['*', '/']⟩, rest)
    | _, _ => some (ofSymbol c cs)

theorem splitClose?_eq {cs body rest : List Char} (h : splitClose? cs = some (body, rest)) :
    body ++ '*' :: '/' :: rest = cs := by
  fun_induction splitClose? cs generalizing body with
  | case1 => simp_all
  | case2 c cs _ ih =>
    obtain ⟨⟨b, r⟩, hb, hr⟩ := Option.map_eq_some_iff.1 h
    simp only [Prod.mk.injEq] at hr
    obtain ⟨rfl, rfl⟩ := hr
    simp [ih hb]
  | case3 => simp at h

theorem ofQuote_eq (cs : List Char) :
    ∃ t, (ofQuote cs).1.text = '"' :: t ∧ t ++ (ofQuote cs).2 = cs := by
  have hs := List.takeWhile_append_dropWhile (p := (· ≠ '"')) (l := cs)
  unfold ofQuote
  split
  · next h => rw [h] at hs; exact ⟨_, rfl, by simpa using hs⟩
  · exact ⟨_, rfl, by simp⟩

theorem ofSymbol_eq (c : Char) (cs : List Char) :
    ∃ t, (ofSymbol c cs).1.text = c :: t ∧ t ++ (ofSymbol c cs).2 = cs := by
  unfold ofSymbol
  split
  · exact ⟨_, rfl, List.take_append_drop 1 cs⟩
  · split <;> exact ⟨[], rfl, rfl⟩

/-- A piece begins where the text begins, and the rest takes up where it ends. -/
theorem first?_eq {c : Char} {cs rest : List Char} {p : Piece}
    (h : first? c cs = some (p, rest)) : ∃ t, p.text = c :: t ∧ t ++ rest = cs := by
  unfold first? run at h
  split at h
  · cases h; exact ⟨_, rfl, by simp⟩
  split at h
  · cases h; exact ⟨_, rfl, by simp⟩
  split at h
  · cases h; exact ⟨_, rfl, by simp⟩
  split at h
  · next hq =>
    have ht := ofQuote_eq cs
    rw [Option.some.inj h, ← hq] at ht
    exact ht
  split at h
  · cases h; exact ⟨_, rfl, by simp⟩
  · obtain ⟨⟨b, r⟩, hb, hr⟩ := Option.map_eq_some_iff.1 h
    cases hr
    exact ⟨_, rfl, by simp [← splitClose?_eq hb]⟩
  · have ht := ofSymbol_eq c cs
    rw [Option.some.inj h] at ht
    exact ht

theorem first?_text {c : Char} {cs rest : List Char} {p : Piece}
    (h : first? c cs = some (p, rest)) : p.text ++ rest = c :: cs := by
  obtain ⟨t, ht, hr⟩ := first?_eq h
  simp [ht, hr]

theorem length_rest_le {c : Char} {cs rest : List Char} {p : Piece}
    (h : first? c cs = some (p, rest)) : rest.length ≤ cs.length := by
  obtain ⟨t, _, hr⟩ := first?_eq h
  simp [← hr]

/-- The newlines inside a piece. -/
def newlines (p : Piece) : Nat := p.text.count '\n'

end Piece

/-- The pieces of a text, and what is left where a block comment begins that is never closed. -/
def pieces : List Char → List Piece × List Char
  | [] => ([], [])
  | c :: cs =>
    match _h : Piece.first? c cs with
    | none => ([], c :: cs)
    | some (p, rest) =>
      let (ps, left) := pieces rest
      (p :: ps, left)
termination_by cs => cs.length
decreasing_by exact Nat.lt_succ_of_le (Piece.length_rest_le _h)

/-- No character of a text is lost. -/
theorem pieces_text (cs : List Char) : (pieces cs).1.flatMap Piece.text ++ (pieces cs).2 = cs := by
  fun_induction pieces cs with
  | case1 => rfl
  | case2 => rfl
  | case3 c cs p rest h ps left hp ih =>
    rw [hp] at ih
    simp only [List.flatMap_cons, List.append_assoc]
    rw [ih, Piece.first?_text h]

end Stackwise
