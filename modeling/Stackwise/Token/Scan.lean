import Stackwise.Error
import Stackwise.Token.Piece

/-! Scanning a text: its pieces placed on lines, and from them the tokens and the warnings. -/
namespace Stackwise

/-- Pieces with the lines on which they begin, the first on `line`. -/
def Piece.place (line : Nat) : List Piece → List (Piece × Nat)
  | [] => []
  | p :: ps => (p, line) :: place (line + p.newlines) ps

@[simp] theorem Piece.map_fst_place (line : Nat) (ps : List Piece) :
    (Piece.place line ps).map Prod.fst = ps := by
  induction ps generalizing line <;> simp_all [Piece.place]

/-- The token of a piece.  Only quoted texts hold newlines, and they count for the line on which
the closing quote stands. -/
def Token.ofPiece? : Piece × Nat → Option Token
  | (p, line) =>
    match p.shape with
    | .token kind literal => some ⟨kind, literal, line + p.newlines⟩
    | _ => none

/-- The warning about a piece that belongs to no token. -/
def Diagnostic.ofPiece? : Piece × Nat → Option Diagnostic
  | (p, line) =>
    match p.shape with
    | .stray => some ⟨.warning, "Unknown character `" ++ String.ofList p.text ++ "`", line⟩
    | _ => none

/-- What scanning finds: the tokens, the warnings, and the line of a block comment that is never
closed. -/
structure Scan where
  tokens : List Token
  warnings : Log
  unclosed : Option Nat

namespace Scan

def ofPieces (ps : List Piece) (left : List Char) : Scan where
  tokens := (Piece.place 1 ps).filterMap Token.ofPiece?
  warnings := (Piece.place 1 ps).filterMap Diagnostic.ofPiece?
  unclosed := if left.isEmpty then none else some (1 + (ps.flatMap Piece.text).count '\n')

def ofText (text : String) : Scan :=
  let (ps, left) := pieces text.toList
  ofPieces ps left

def result (s : Scan) : Except Error (List Token) :=
  match s.unclosed with
  | some line => .error ⟨.unclosedComment, line⟩
  | none => .ok s.tokens

end Scan

end Stackwise
