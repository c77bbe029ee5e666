/-! Places in a tree of directories, and the way to them that a path describes. -/
namespace Stackwise.CommandLine

/-- The directory from which names count: the working directory, one some levels above it, or the
root of the whole tree. -/
inductive Origin where
  | above (levels : Nat)
  | root
deriving DecidableEq, Repr

def Origin.parent : Origin → Origin
  | above levels => above (levels + 1)
  | root => root

/-- A place, by the names of the directories that lead to it and its own name. -/
structure Place where
  origin : Origin
  names : List String
deriving DecidableEq, Repr

namespace Place

def here : Place := ⟨.above 0, []⟩

def parent (p : Place) : Place :=
  if p.names.isEmpty then ⟨p.origin.parent, []⟩ else ⟨p.origin, p.names.dropLast⟩

/-- Where a name leads from a directory.  No name and `.` stay there, `..` goes back. -/
def child (p : Place) (name : String) : Place :=
  if name = "" ∨ name = "." then p
  else if name = ".." then p.parent
  else ⟨p.origin, p.names ++ [name]⟩

@[simp] theorem child_empty (p : Place) : p.child "" = p := rfl

@[simp] theorem child_dot (p : Place) : p.child "." = p := rfl

@[simp] theorem child_dots (p : Place) : p.child ".." = p.parent := rfl

end Place

namespace Path

def names (path : String) : List String := (path.toList.splitOn '/').map String.ofList

/-- Where the way begins: at the root if a slash stands in front. -/
def start (path : String) : Place :=
  if path.toList.head? = some '/' then ⟨.root, []⟩ else .here

def place (path : String) : Place := (names path).foldl Place.child (start path)

end Path

end Stackwise.CommandLine
