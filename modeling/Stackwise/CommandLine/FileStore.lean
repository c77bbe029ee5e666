import Stackwise.CommandLine.Place
import Stackwise.CommandLine.Run

/-! Files kept in memory: a tree of directories as a list of places. -/
namespace Stackwise.CommandLine

inductive FileError where
  | notFound
  | notDirectory
  | isDirectory
  | nameTooLong
  | notText
deriving DecidableEq, Repr

def FileError.message : FileError → String
  | notFound => "No such file or directory (os error 2)"
  | notDirectory => "Not a directory (os error 20)"
  | isDirectory => "Is a directory (os error 21)"
  | nameTooLong => "File name too long (os error 36)"
  | notText => "stream did not contain valid UTF-8"

inductive Entry where
  | file (bytes : List UInt8)
  | directory
deriving DecidableEq, Repr

/-- Places with what stands there, the newest first. -/
abbrev FileStore := List (Place × Entry)

namespace FileStore

/-- What stands at a place.  The working directory and those above it always exist, and so do the
directories around a file. -/
def lookup? (s : FileStore) (p : Place) : Option Entry :=
  match s.find? fun e => e.1 == p with
  | some e => some e.2
  | none =>
    if p.names.isEmpty || s.any (fun e => e.1.origin == p.origin && p.names.isPrefixOf e.1.names)
    then some .directory
    else none

def requireDirectory (s : FileStore) (p : Place) : Except FileError Unit :=
  match s.lookup? p with
  | some .directory => .ok ()
  | some (.file _) => .error .notDirectory
  | none => .error .notFound

/-- One step of a way, by a name of at most 255 bytes. -/
def step (s : FileStore) (p : Place) (name : String) : Except FileError Place := do
  s.requireDirectory p
  if 255 < name.utf8ByteSize then .error .nameTooLong else .ok (p.child name)

def walk (s : FileStore) : Place → List String → Except FileError Place
  | p, [] => .ok p
  | p, name :: rest => do
    s.walk (← s.step p name) rest

/-- Where names lead to write a file.  Slashes at the end ask for a directory, which cannot be
written, whether there is one or not. -/
def walkToWrite (s : FileStore) : Place → List String → Except FileError Place
  | p, [] => .ok p
  | p, name :: rest => do
    if rest ≠ [] ∧ ∀ n ∈ rest, n = "" then
      s.requireDirectory p
      .error .isDirectory
    else
      s.walkToWrite (← s.step p name) rest

def checkPath (path : String) : Except FileError Unit :=
  if path.isEmpty then .error .notFound
  else if 4096 ≤ path.utf8ByteSize then .error .nameTooLong
  else .ok ()

def bytes (s : FileStore) (path : String) : Except FileError (List UInt8) := do
  checkPath path
  match s.lookup? (← s.walk (Path.start path) (Path.names path)) with
  | some (.file bytes) => .ok bytes
  | some .directory => .error .isDirectory
  | none => .error .notFound

def read (s : FileStore) (path : String) : Except FileError String := do
  match String.fromUTF8? ⟨(← s.bytes path).toArray⟩ with
  | some text => .ok text
  | none => .error .notText

/-- Puts a text in place of a file, in a directory that exists. -/
def write (s : FileStore) (path text : String) : Except FileError FileStore := do
  checkPath path
  let p ← s.walkToWrite (Path.start path) (Path.names path)
  match s.lookup? p with
  | some .directory => .error .isDirectory
  | _ => .ok ((p, .file text.toUTF8.data.toList) :: s)

def files : Files (StateM FileStore) where
  read path := do
    return ((← get).read path).mapError FileError.message
  write path text := do
    match (← get).write path text with
    | .ok s =>
      set s
      return .ok ()
    | .error e => return .error e.message

end FileStore

end Stackwise.CommandLine
