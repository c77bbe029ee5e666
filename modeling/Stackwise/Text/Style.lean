/-! Coloured text for terminals. -/
namespace Stackwise.Text

inductive Style where
  | faint | bold | teal | cyan | yellowBold | redBold
deriving DecidableEq, Repr

/-- The escape sequences that switch a style on. -/
def Style.codes : Style → String
  | faint => "\x1b[38;5;8m"
  | bold => "\x1b[1m"
  | teal => "\x1b[38;5;29m"
  | cyan => "\x1b[36m"
  | yellowBold => "\x1b[33m\x1b[1m"
  | redBold => "\x1b[31m\x1b[1m"

def Style.apply (style : Style) (color : Bool) (text : String) : String :=
  if color then style.codes ++ text ++ "\x1b[0m" else text

end Stackwise.Text
