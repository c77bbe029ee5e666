/-! Lines of a text, and the blanks at the front of a line. -/
namespace Stackwise.Text

/-- The characters of the property White_Space. -/
def isSpace (c : Char) : Bool :=
  let n := c.toNat
  (0x9 ≤ n && n ≤ 0xd) || n == 0x20 || n == 0x85 || n == 0xa0 || n == 0x1680 ||
    (0x2000 ≤ n && n ≤ 0x200a) || n == 0x2028 || n == 0x2029 || n == 0x202f || n == 0x205f ||
    n == 0x3000

/-- The line up to the first newline and the text after it, if there is a newline. -/
def cutLine : List Char → List Char × Option (List Char)
  | [] => ([], none)
  | '\n' :: rest => ([], some rest)
  | c :: cs =>
    let (l, rest) := cutLine cs
    (c :: l, rest)

theorem length_cutLine {cs l rest : List Char} (h : cutLine cs = (l, some rest)) :
    rest.length < cs.length := by
  fun_induction cutLine cs generalizing l with
  | case1 => simp at h
  | case2 => simp_all
  | case3 c cs _ l' rest' hl ih =>
    simp only [Prod.mk.injEq] at h
    have := ih (h.2 ▸ hl)
    simp only [List.length_cons]
    omega

def chomp (l : List Char) : List Char :=
  if l.getLast? = some '\r' then l.dropLast else l

/-- The lines of a text.  Each ends before its newline, or before the carriage return directly
before it; what follows the last newline is a line unless it is empty. -/
def lines (cs : List Char) : List (List Char) :=
  match _h : cutLine cs with
  | (l, some rest) => chomp l :: lines rest
  | (l, none) => if l.isEmpty then [] else [l]
termination_by cs.length
decreasing_by exact length_cutLine _h

end Stackwise.Text
