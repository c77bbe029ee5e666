import Stackwise.Numeral
import Stackwise.Text.Printable

/-! Quoted text: a text between quotes in which no character is lost or ambiguous. -/
namespace Stackwise.Text

/-- A character written by its number, in lower case and without leading zeros. -/
def byNumber (c : Char) : List Char :=
  ['\\', 'u', '\x7b'] ++ (Numeral.digits 16 c.toNat).map Char.toLower ++ ['\x7d']

def escape : Char → List Char
  | '\x00' => ['\\', '0']
  | '\t' => ['\\', 't']
  | '\r' => ['\\', 'r']
  | '\n' => ['\\', 'n']
  | '"' => ['\\', '"']
  | '\\' => ['\\', '\\']
  | c => if isPrintable c then [c] else byNumber c

def quoted (text : String) : String :=
  String.ofList ('"' :: text.toList.flatMap escape ++ ['"'])

end Stackwise.Text
