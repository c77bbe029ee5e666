import Stackwise.Text.Lines
import Stackwise.Numeral
import Stackwise.Text.Style

/-! Listings: assembly text with numbered lines and aligned operands. -/
namespace Stackwise.Listing

open Text (Style)

def splitSpace? : List Char → Option (List Char × List Char)
  | [] => none
  | ' ' :: rest => some ([], rest)
  | c :: cs => (splitSpace? cs).map fun (word, rest) => (c :: word, rest)

/-- An indented line.  The mnemonic takes eight columns if operands follow it. -/
def instruction (color : Bool) (text : List Char) : String :=
  "    " ++
    match splitSpace? text with
    | some (mnemonic, operands) =>
      Style.cyan.apply color (String.ofList (mnemonic.rightpad 8 ' ')) ++ String.ofList operands
    | none => Style.cyan.apply color (String.ofList text)

def line (color : Bool) (text : List Char) : String :=
  if (text.head?.map Text.isSpace).getD false then
    instruction color (text.dropWhile Text.isSpace)
  else if text.getLast? = some ':' then
    Style.bold.apply color (String.ofList text)
  else
    Style.teal.apply color (String.ofList text)

/-- Lines with their numbers, the first one's being `n`. -/
def numbered (color : Bool) : Nat → List (List Char) → String
  | _, [] => ""
  | n, l :: ls =>
    Style.faint.apply color (Numeral.decimalPadded 4 n) ++ " " ++ line color l ++ "\n" ++
      numbered color (n + 1) ls

def render (color : Bool) (name text : String) : String :=
  "== " ++ name ++ " ==\n" ++ numbered color 1 (Text.lines text.toList)

end Stackwise.Listing
