import Stackwise.CommandLine.FileStore
import Stackwise.Proofs.Emission
import Mathlib

/-! File systems, by what reading and writing a file do to them: a failure leaves everything as it
is, and a text that is written stands at one place, with nothing changed anywhere else.  The files
kept in memory are one. -/
namespace Stackwise.CommandLine

/-- States `σ` of files, with what stands at each place `ι`. -/
structure FileSystem (σ ι ν : Type) where
  files : Files (StateM σ)
  /-- The bytes of the file that a path leads to, or why there is none. -/
  bytes : σ → String → Except String (List UInt8)
  look : σ → ι → ν
  file : List UInt8 → ν
  /-- Where a path leads that a file is written to. -/
  target : σ → String → ι
  read_eq_ok (s : σ) (path text : String) : ((files.read path).run s).1 = .ok text ↔
    ∃ b, bytes s path = .ok b ∧ String.fromUTF8? ⟨b.toArray⟩ = some text
  read_state (s : σ) (path : String) : ((files.read path).run s).2 = s
  write_of_error (s : σ) (path text reason : String) :
    ((files.write path text).run s).1 = .error reason → ((files.write path text).run s).2 = s
  write_of_ok (s : σ) (path text : String) : ((files.write path text).run s).1 = .ok () →
    bytes ((files.write path text).run s).2 path = .ok text.toUTF8.data.toList ∧
      look ((files.write path text).run s).2 (target s path) = file text.toUTF8.data.toList ∧
      ∀ q, q ≠ target s path → look ((files.write path text).run s).2 q = look s q

namespace FileStore

variable {s : FileStore} {p q : Place}

/-- The directories that lead to a place are there. -/
def Reached (s : FileStore) (p : Place) : Prop :=
  ∀ names, names <+: p.names → names ≠ p.names → s.lookup? ⟨p.origin, names⟩ = some .directory

/-- Names are followed from directories that are there. -/
theorem Reached.child (hp : s.Reached p) (hd : s.lookup? p = some .directory) (name : String) :
    s.Reached (p.child name) := by
  unfold Place.child
  split
  · exact hp
  split
  · unfold Place.parent
    split
    · intro names hpre hne
      exact absurd (List.prefix_nil.1 hpre) hne
    next he =>
      intro names hpre _
      refine hp names (hpre.trans (List.dropLast_prefix _)) ?_
      rintro rfl
      have hle := hpre.length_le
      have hpos := List.length_pos_iff.2 (List.isEmpty_eq_false_iff.1 (Bool.eq_false_iff.2 he))
      rw [List.length_dropLast] at hle
      omega
  · intro names hpre hne
    have hpre := (List.prefix_concat_iff.1 hpre).resolve_left hne
    by_cases hn : names = p.names
    · rw [hn]
      exact hd
    · exact hp names hpre hn

/-- Where a path leads that a file is written to.  A path that leads nowhere counts as leading
here. -/
def target (s : FileStore) (path : String) : Place :=
  match s.walkToWrite (Path.start path) (Path.names path) with
  | .ok q => q
  | .error _ => .here

theorem read_eq_ok {path text : String} : s.read path = .ok text ↔
    ∃ b, s.bytes path = .ok b ∧ String.fromUTF8? ⟨b.toArray⟩ = some text := by
  change (s.bytes path).bind _ = .ok text ↔ _
  rw [Except.bind_eq_ok]
  refine exists_congr fun b => and_congr_right fun _ => ?_
  cases String.fromUTF8? ⟨b.toArray⟩ <;> simp

end FileStore

end Stackwise.CommandLine
