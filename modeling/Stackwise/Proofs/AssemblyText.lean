import Stackwise.Proofs.FunctionNames
import Stackwise.Proofs.Labelling
import Stackwise.Proofs.Numerals
import Mathlib.Data.List.DropRight

/-! Assembly as text.  A text that is put together from lines has these lines, so code is read back
line by line; and the labels in the assembly of an accepted text are words. -/
namespace Stackwise

namespace Text

def trim (l : List Char) : List Char := (l.dropWhile isSpace).rdropWhile isSpace

/-- A carriage return at the end goes with the other blanks. -/
theorem trim_chomp (l : List Char) : trim (chomp l) = trim l := by
  unfold chomp
  split
  next h =>
    obtain ⟨l, rfl⟩ := List.getLast?_eq_some_iff.1 h
    rw [List.dropLast_concat, trim, trim, List.dropWhile_append]
    split
    next he => simp [List.isEmpty_iff.1 he, show isSpace '\r' from rfl]
    next => rw [List.rdropWhile_concat_pos _ _ _ rfl]
  next => rfl

section

variable {s l : List Char} (hs : ∀ c ∈ s, isSpace c) (hh : ∀ c ∈ l.head?, isSpace c = false)

include hs hh

theorem dropWhile_append : (s ++ l).dropWhile isSpace = l := by
  rw [List.dropWhile_append_of_pos hs]
  cases l with
  | nil => rfl
  | cons c cs => exact List.dropWhile_cons_of_neg (by simp [hh c rfl])

theorem trim_isPrefix : trim (s ++ l) <+: l := by
  rw [trim, dropWhile_append hs hh]
  exact List.rdropWhile_prefix _ _

/-- Blanks before a line that neither begins nor ends with one. -/
theorem trim_append (hl : ∀ c ∈ l.getLast?, isSpace c = false) : trim (s ++ l) = l := by
  rw [trim, dropWhile_append hs hh, List.rdropWhile_eq_self_iff]
  intro hne
  simp [hl _ (List.getLast?_eq_getLast_of_ne_nil hne)]

end

theorem cutLine_append {l : List Char} (h : '\n' ∉ l) (rest : List Char) :
    cutLine (l ++ '\n' :: rest) = (l, some rest) := by
  induction l with
  | nil => rfl
  | cons c cs ih =>
    rw [List.mem_cons, not_or] at h
    rw [List.cons_append, cutLine, ih h.2]
    exact fun hc => h.1 hc.symm

theorem lines_nil : lines [] = [] := by
  rw [lines]
  rfl

theorem lines_append {l : List Char} (h : '\n' ∉ l) (rest : List Char) :
    lines (l ++ '\n' :: rest) = chomp l :: lines rest := by
  rw [lines]
  split
  next l' rest' hc =>
    rw [cutLine_append h] at hc
    cases hc
    rfl
  next l' hc =>
    rw [cutLine_append h] at hc
    cases hc

/-- A text that is put together from lines has these lines. -/
theorem lines_flatMap {ls : List (List Char)} (h : ∀ l ∈ ls, '\n' ∉ l) :
    lines (ls.flatMap fun l => l ++ ['\n']) = ls.map chomp := by
  induction ls with
  | nil => exact lines_nil
  | cons l ls ih =>
    obtain ⟨hl, hls⟩ := List.forall_mem_cons.1 h
    rw [List.flatMap_cons, List.append_assoc, List.singleton_append, lines_append hl, ih hls,
      List.map_cons]

end Text

section Lines

def Line.text : Line → List Char
  | .directive text => text.toList
  | .label l => l.render.toList ++ [':']
  | .instr i => [' ', ' ', ' ', ' '] ++ i.render.toList
  | .verbatim text => text.toList

theorem Line.toList_render {l : Line} (h : l.isSpelled = false) :
    l.render.toList = l.text ++ ['\n'] := by
  cases l with
  | verbatim => cases h
  | _ => simp [Line.render, Line.text]

theorem Code.toList_render {code : Code} (h : ∀ l ∈ code, l.isSpelled = false) :
    (Code.render code).toList = (code.map Line.text).flatMap fun l => l ++ ['\n'] := by
  rw [Code.render, String.toList_join, List.flatMap_map, List.flatMap_map]
  exact List.flatMap_congr fun l hl => Line.toList_render (h l hl)

/-- Code whose lines hold no newline is read line by line. -/
theorem Code.lines_render {code : Code} (h : ∀ l ∈ code, l.isSpelled = false)
    (hn : ∀ l ∈ code, '\n' ∉ l.text) :
    Text.lines (Code.render code).toList = code.map fun l => Text.chomp l.text := by
  rw [Code.toList_render h, Text.lines_flatMap (List.forall_mem_map.2 hn), List.map_map]
  rfl

end Lines

section Labels

/-- The labels of programs whose functions are called by names. -/
def Label.Tidy : Label → Prop
  | .named text => text ∈ Label.names
  | .function name => Token.IsName name
  | .fresh _ => True

theorem Token.IsName.newline_notMem {name : String} (h : Token.IsName name) :
    '\n' ∉ name.toList := by
  intro hm
  cases h.chars _ hm

theorem Label.Tidy.newline_notMem {l : Label} (h : l.Tidy) : '\n' ∉ l.render.toList := by
  cases l with
  | named text =>
    have hall : ∀ text ∈ Label.names, '\n' ∉ text.toList := by decide
    exact hall text h
  | function name =>
    have hn : '\n' ∉ name.toList := Token.IsName.newline_notMem h
    simpa [Label.render] using hn
  | fresh index =>
    have hn := Numeral.notMem_signed index (c := '\n') (by decide) (by decide)
    simpa [Label.render, Numeral.signed_natCast] using hn

variable {source : String} {p : Program} {table : Signatures} {code : Code}

theorem Program.tidy_of_mem_labels (hp : Program.ofScan (Scan.ofText source) = .ok p)
    (hc : p.code table = .ok code) : ∀ l ∈ code.labels, l.Tidy := by
  intro l hl
  rw [Code.mem_labels] at hl
  cases l with
  | named text => exact Program.mem_names hc hl
  | fresh index => trivial
  | function name =>
    obtain ⟨r, routine, hr, rfl, hroutine⟩ := Program.code_eq_append hc
    rcases List.mem_append.1 hl with hl | hl
    · rcases (Program.mem_labels_emit hr).1 hl with hl | ⟨f, hf, hl⟩ | ⟨_, _, hl⟩
      · cases hl
      · cases hl
        exact Program.isName_of_ofScan hp f hf
      · cases hl
    · rcases hroutine with ⟨-, rfl⟩ | ⟨-, rfl⟩
      · simp [PrintInt.code, PrintInt.entry, PrintInt.digits, PrintInt.write] at hl
      · cases hl

end Labels

end Stackwise
