import Stackwise.Proofs.AssemblyText
import Stackwise.Proofs.Memory
import Mathlib

/-! Texts read back off assembly.  Where a program writes a text, its assembly moves the words of
the text to `rax`, the last one first, and their number of bytes to `rdx`.  Reading these lines of
an accepted text's assembly yields the texts that the program writes, byte for byte and in the
order of its code, and what is pushed for a text is released after it. -/
namespace Stackwise

/-- What a line says about texts. -/
inductive Row where
  /-- A word moved to `rax`. -/
  | word (w : UInt64)
  /-- A number of bytes moved to `rdx`. -/
  | count (n : Nat)
  | push
  | call
  /-- A number of bytes released. -/
  | release (n : Nat)
  | other
deriving DecidableEq

namespace Row

def wordMark : List Char := "mov rax, 0x".toList

def countMark : List Char := "mov rdx, ".toList

def pushMark : List Char := "push rax".toList

def callMark : List Char := "syscall".toList

def releaseMark : List Char := "add rsp, ".toList

/-- How the lines begin that say something. -/
def marks : List (List Char) := [wordMark, countMark, pushMark, callMark, releaseMark]

/-- Reads a line without blanks at its ends.  What is moved to `rax` as a word must be a hexadecimal
numeral of 64 bits, and what is moved to `rdx` a decimal one. -/
def read? (l : List Char) : Option Row :=
  match wordMark.isPrefixOf? l with
  | some digits =>
    (Numeral.unsigned? 16 digits).bind fun n => if n < 2 ^ 64 then some (.word (.ofNat n)) else none
  | none =>
    match countMark.isPrefixOf? l with
    | some digits => (Numeral.unsigned? 10 digits).map .count
    | none =>
      if l = pushMark then some .push
      else if l = callMark then some .call
      else
        match (releaseMark.isPrefixOf? l).bind (Numeral.unsigned? 10) with
        | some n => some (.release n)
        | none => some .other

def ofText? (text : String) : Option (List Row) :=
  (Text.lines text.toList).mapM fun l => read? (Text.trim l)

/-- Rows that are no part of a text. -/
def isQuiet : Row → Bool
  | .word _ | .count _ => false
  | _ => true

section Marks

theorem wordMark_eq :
    wordMark = ['m', 'o', 'v', ' ', 'r', 'a', 'x', ',', ' ', '0', 'x'] := by decide

theorem countMark_eq : countMark = ['m', 'o', 'v', ' ', 'r', 'd', 'x', ',', ' '] := by decide

theorem pushMark_eq : pushMark = ['p', 'u', 's', 'h', ' ', 'r', 'a', 'x'] := by decide

theorem callMark_eq : callMark = ['s', 'y', 's', 'c', 'a', 'l', 'l'] := by decide

theorem releaseMark_eq : releaseMark = ['a', 'd', 'd', ' ', 'r', 's', 'p', ',', ' '] := by decide

theorem marks_eq : marks = [['m', 'o', 'v', ' ', 'r', 'a', 'x', ',', ' ', '0', 'x'],
    ['m', 'o', 'v', ' ', 'r', 'd', 'x', ',', ' '], ['p', 'u', 's', 'h', ' ', 'r', 'a', 'x'],
    ['s', 'y', 's', 'c', 'a', 'l', 'l'], ['a', 'd', 'd', ' ', 'r', 's', 'p', ',', ' ']] := by
  rw [marks, wordMark_eq, countMark_eq, pushMark_eq, callMark_eq, releaseMark_eq]

end Marks

section Read

theorem isPrefixOf?_append (m l : List Char) : m.isPrefixOf? (m ++ l) = some l :=
  List.isPrefixOf?_eq_some_iff_append_eq.2 rfl

theorem isPrefixOf?_eq_none {m l : List Char} (h : ¬ m <+: l) : m.isPrefixOf? l = none := by
  cases hr : m.isPrefixOf? l with
  | none => rfl
  | some rest => exact absurd ⟨rest, List.isPrefixOf?_eq_some_iff_append_eq.1 hr⟩ h

theorem read?_word (w : UInt64) :
    read? (wordMark ++ Numeral.digits 16 w.toNat) = some (.word w) := by
  simp [read?, isPrefixOf?_append, Numeral.unsigned?_digits, w.toNat_lt]

theorem read?_count (n : Nat) : read? (countMark ++ Numeral.digits 10 n) = some (.count n) := by
  have h : wordMark.isPrefixOf? (countMark ++ Numeral.digits 10 n) = none :=
    isPrefixOf?_eq_none (by simp [wordMark_eq, countMark_eq])
  simp [read?, h, isPrefixOf?_append, Numeral.unsigned?_digits]

theorem read?_release (n : Nat) :
    read? (releaseMark ++ Numeral.digits 10 n) = some (.release n) := by
  have h : wordMark.isPrefixOf? (releaseMark ++ Numeral.digits 10 n) = none :=
    isPrefixOf?_eq_none (by simp [wordMark_eq, releaseMark_eq])
  have h' : countMark.isPrefixOf? (releaseMark ++ Numeral.digits 10 n) = none :=
    isPrefixOf?_eq_none (by simp [countMark_eq, releaseMark_eq])
  have hp : releaseMark ++ Numeral.digits 10 n ≠ pushMark := by simp [pushMark_eq, releaseMark_eq]
  have hc : releaseMark ++ Numeral.digits 10 n ≠ callMark := by simp [callMark_eq, releaseMark_eq]
  simp [read?, h, h', hp, hc, isPrefixOf?_append, Numeral.unsigned?_digits]

theorem read?_other {l : List Char} (h : ∀ m ∈ marks, ¬ m <+: l) : read? l = some .other := by
  have hne : ∀ m ∈ marks, l ≠ m := fun m hm he => h m hm (by rw [he])
  simp only [marks, List.mem_cons, List.not_mem_nil, or_false, forall_eq_or_imp, forall_eq] at h hne
  obtain ⟨h₁, h₂, -, -, h₅⟩ := h
  obtain ⟨-, -, h₃, h₄, -⟩ := hne
  simp [read?, isPrefixOf?_eq_none h₁, isPrefixOf?_eq_none h₂, h₃, h₄, isPrefixOf?_eq_none h₅]

end Read

end Row

open Row

/-- A line of its own that is read as a row. -/
structure Line.Reads (l : Line) (row : Row) : Prop where
  plain : l.isSpelled = false
  newline : '\n' ∉ l.text
  row : read? (Text.trim l.text) = some row

theorem Code.ofText?_render {code : Code} {rows : List Row}
    (h : List.Forall₂ Line.Reads code rows) :
    ofText? (Code.render code) = some rows := by
  have hp : ∀ l ∈ code, l.isSpelled = false ∧ '\n' ∉ l.text := by
    induction h with
    | nil => exact List.forall_mem_nil _
    | cons hl _ ih => exact List.forall_mem_cons.2 ⟨⟨hl.plain, hl.newline⟩, ih⟩
  rw [ofText?, Code.lines_render (fun l hl => (hp l hl).1) fun l hl => (hp l hl).2]
  clear hp
  induction h with
  | nil => rfl
  | cons hl _ ih =>
    rw [List.map_cons, List.mapM_cons, Text.trim_chomp, hl.row, ih]
    rfl

namespace Line.Reads

theorem indent : ∀ c ∈ [' ', ' ', ' ', ' '], Text.isSpace c := by
  have h : Text.isSpace ' ' = true := rfl
  simp [h]

variable {i : Instr} {row : Row}

theorem instr (hi : Line.isSpelled (.instr i) = false) (hn : '\n' ∉ i.render.toList)
    (hh : ∀ c ∈ i.render.toList.head?, Text.isSpace c = false)
    (hl : ∀ c ∈ i.render.toList.getLast?, Text.isSpace c = false)
    (hr : read? i.render.toList = some row) : Reads (.instr i) row := by
  refine ⟨hi, ?_, ?_⟩
  · simpa [Line.text] using hn
  · rw [Line.text, Text.trim_append indent hh hl, hr]

theorem other (hi : Line.isSpelled (.instr i) = false) (hn : '\n' ∉ i.render.toList)
    (hh : ∀ c ∈ i.render.toList.head?, Text.isSpace c = false)
    (hm : ∀ m ∈ marks, ¬ m <+: i.render.toList) : Reads (.instr i) .other := by
  refine ⟨hi, ?_, read?_other fun m hmem hp => hm m hmem (hp.trans ?_)⟩
  · simpa [Line.text] using hn
  · exact Text.trim_isPrefix indent hh

theorem getLast_digits {base n : Nat} (hb : 1 < base) (hb' : base ≤ 16) (front : List Char) :
    ∀ c ∈ (front ++ Numeral.digits base n).getLast?, Text.isSpace c = false := by
  intro c hc
  rw [List.getLast?_append_of_ne_nil _ (Numeral.digits_ne_nil n)] at hc
  obtain ⟨d, hd, rfl⟩ := Numeral.mem_digits hb n c (List.mem_of_getLast? hc)
  exact Numeral.isSpace_digit d (by omega)

theorem newline_notMem_digits {base n : Nat} (hb : 1 < base) (hb' : base ≤ 16) :
    '\n' ∉ Numeral.digits base n := by
  intro hc
  obtain ⟨d, hd, he⟩ := Numeral.mem_digits hb n _ hc
  exact Numeral.digit_ne (by decide) (by omega) he

theorem numeral {mark : List Char} {base n : Nat} (hb : 1 < base) (hb' : base ≤ 16)
    (hi : Line.isSpelled (.instr i) = false)
    (hs : i.render.toList = mark ++ Numeral.digits base n) (hn : '\n' ∉ mark)
    (hh : ∃ c ∈ mark.head?, Text.isSpace c = false)
    (hr : read? (mark ++ Numeral.digits base n) = some row) : Reads (.instr i) row := by
  obtain ⟨c, hc, hsp⟩ := hh
  obtain ⟨cs, rfl⟩ := List.head?_eq_some_iff.1 hc
  refine instr hi ?_ ?_ ?_ ?_ <;> rw [hs]
  · exact List.not_mem_append hn (newline_notMem_digits hb hb')
  · simpa using hsp
  · exact getLast_digits hb hb' _
  · exact hr

theorem word (w : UInt64) : Reads (.instr (.mov (.reg .rax) (.word w))) (.word w) := by
  have hs : (Instr.mov (.reg .rax) (.word w)).render.toList =
      wordMark ++ Numeral.digits 16 w.toNat := by
    simp [Instr.render, Operand.render, Reg.render, Word.immediate, Numeral.hexadecimal,
      wordMark_eq]
  exact numeral (by decide) (by decide) rfl hs (by decide) ⟨'m', by decide, rfl⟩ (read?_word w)

theorem count (n : Nat) : Reads (.instr (.mov (.reg .rdx) (.int n))) (.count n) := by
  have hs : (Instr.mov (.reg .rdx) (.int n)).render.toList = countMark ++ Numeral.digits 10 n := by
    simp [Instr.render, Operand.render, Reg.render, Numeral.signed_natCast, Numeral.decimal,
      countMark_eq]
  exact numeral (by decide) (by decide) rfl hs (by decide) ⟨'m', by decide, rfl⟩ (read?_count n)

theorem toList_render_release (n : Nat) :
    (Instr.alu .add (.reg .rsp) (.int (8 * n))).render.toList =
      releaseMark ++ Numeral.digits 10 (8 * n) := by
  have hn : Numeral.signed (8 * n) = Numeral.decimal (8 * n) := by
    rw [← Numeral.signed_natCast]
    push_cast
    rfl
  simp [Instr.render, Operand.render, Reg.render, Alu.render, hn, Numeral.decimal, releaseMark_eq]

theorem release (n : Nat) :
    Reads (.instr (.alu .add (.reg .rsp) (.int (8 * n)))) (.release (8 * n)) :=
  numeral (by decide) (by decide) rfl (toList_render_release n) (by decide) ⟨'a', by decide, rfl⟩
    (read?_release (8 * n))

theorem push : Reads (.instr (.push (.reg .rax))) .push := ⟨rfl, by decide, rfl⟩

theorem syscall : Reads (.instr .syscall) .call := ⟨rfl, by decide, rfl⟩

/-- An instruction that begins as none does that says something about texts. -/
theorem other_of_head {c : Char} (hi : Line.isSpelled (.instr i) = false)
    (hn : '\n' ∉ i.render.toList) (hh : i.render.toList.head? = some c)
    (hc : Text.isSpace c = false ∧ c ∉ ['m', 'p', 's', 'a']) : Reads (.instr i) .other := by
  refine other hi hn (by simp [hh, hc.1]) ?_
  obtain ⟨cs, hs⟩ := List.head?_eq_some_iff.1 hh
  obtain ⟨-, hc⟩ := hc
  simp only [List.mem_cons, List.not_mem_nil, or_false, not_or] at hc
  simp [hs, marks_eq, Ne.symm hc.1, Ne.symm hc.2.1, Ne.symm hc.2.2.1, Ne.symm hc.2.2.2]

theorem number {r : Reg} (hr : r ≠ .rdx) (value : Int) :
    Reads (.instr (.mov (.reg r) (.int value))) .other := by
  have hn : '\n' ∉ (Numeral.signed value).toList :=
    Numeral.notMem_signed value (by decide) (by decide)
  have hx : ¬ ['0', 'x'] <+: (Numeral.signed value).toList := fun h =>
    Numeral.notMem_signed value (by decide) (by decide) (h.mem (List.mem_cons_of_mem _ (.head _)))
  have hr' : '\n' ∉ r.render.toList := by cases r <;> decide
  refine other rfl ?_ ?_ ?_
  · simp [Instr.render, Operand.render, hn, hr']
  · simp [Instr.render, show Text.isSpace 'm' = false from rfl]
  · cases r with
    | rdx => exact absurd rfl hr
    | rax => simpa [Instr.render, Operand.render, Reg.render, marks_eq] using hx
    | _ => simp [Instr.render, Operand.render, Reg.render, marks_eq]

end Line.Reads

section Basic

open Line

variable {table : Signatures} {l : Line}

theorem Label.Tidy.reads {l : Label} (h : l.Tidy) : Line.Reads (.label l) .other := by
  have hn : '\n' ∉ Line.text (.label l) := by simpa [Line.text] using h.newline_notMem
  refine ⟨rfl, hn, ?_⟩
  cases l with
  | named text =>
    have hall : ∀ text ∈ Label.names, read? (Text.trim (text.toList ++ [':'])) = some .other := by
      decide
    exact hall text h
  | function name | fresh index =>
    refine read?_other fun m hm hp => ?_
    have hp := hp.trans (Text.trim_isPrefix (s := []) (List.forall_mem_nil _) (by
      simp [Label.render, show Text.isSpace 'f' = false from rfl,
        show Text.isSpace 'l' = false from rfl]))
    revert m
    simp [Label.render, marks_eq]

theorem Line.Basic.reads (h : l.Basic table) (ht : ∀ x, x ∈ l.label? ∨ x ∈ l.target? → x.Tidy) :
    ∃ row, l.Reads row ∧ row.isQuiet := by
  have hsigned (value : Int) : '\n' ∉ (Numeral.signed value).toList :=
    Numeral.notMem_signed value (by decide) (by decide)
  cases h with
  | start => exact ⟨.other, ⟨rfl, by decide, rfl⟩, rfl⟩
  | code => exact ⟨.other, ⟨rfl, by decide, rfl⟩, rfl⟩
  | @label x => exact ⟨.other, (ht x (.inl rfl)).reads, rfl⟩
  | @jump j x =>
    have hn := (ht x (.inr rfl)).newline_notMem
    have hj : '\n' ∉ j.render.toList := by
      cases j with
      | always => decide
      | on cc => cases cc <;> decide
    refine ⟨.other, .other_of_head (c := 'j') rfl ?_ ?_ (by decide), rfl⟩
    · simpa [Instr.render] using ⟨hj, hn⟩
    · cases j <;> simp [Instr.render, Jump.render]
  | @call x _ =>
    have hn := (ht x (.inr rfl)).newline_notMem
    refine ⟨.other, .other_of_head (c := 'c') rfl ?_ ?_ (by decide), rfl⟩
    · simpa [Instr.render] using hn
    · simp [Instr.render]
  | push => exact ⟨.push, .push, rfl⟩
  | @pop r => exact ⟨.other, by cases r <;> exact ⟨rfl, by decide, rfl⟩, rfl⟩
  | @number value => exact ⟨.other, .number (by decide) value, rfl⟩
  | @fetch offset | @store offset =>
    refine ⟨.other, .other rfl ?_ ?_ ?_, rfl⟩
    · simpa [Instr.render, Operand.render, Reg.render] using hsigned offset
    · simp [Instr.render, show Text.isSpace 'm' = false from rfl]
    · simp [Instr.render, Operand.render, Reg.render, marks_eq]
  | status => exact ⟨.other, .number (by decide) 0, rfl⟩
  | @alu op r =>
    have hr : '\n' ∉ r.render.toList := by cases r <;> decide
    refine ⟨.other, .other rfl ?_ ?_ ?_, rfl⟩
    · cases op <;> simpa [Instr.render, Operand.render, Reg.render, Alu.render] using hr
    · cases op <;> simp [Instr.render, Alu.render] <;> rfl
    · cases op <;> simp [Instr.render, Operand.render, Reg.render, Alu.render, marks_eq]
  | @drop words => exact ⟨_, .release words, rfl⟩
  | extend => exact ⟨.other, ⟨rfl, by decide, rfl⟩, rfl⟩
  | divide => exact ⟨.other, ⟨rfl, by decide, rfl⟩, rfl⟩
  | ret => exact ⟨.other, ⟨rfl, by decide, rfl⟩, rfl⟩
  | syscall => exact ⟨.call, .syscall, rfl⟩

end Basic

theorem PrintInt.reads : ∀ l ∈ PrintInt.code, ∃ row, l.Reads row ∧ row.isQuiet := by
  have hall : ∀ l ∈ PrintInt.code, l.isSpelled = false ∧ '\n' ∉ l.text ∧
      (read? (Text.trim l.text)).any isQuiet := by
    decide +kernel
  intro l hl
  obtain ⟨hs, hn, hr⟩ := hall l hl
  cases hrow : read? (Text.trim l.text) with
  | none => simp [hrow] at hr
  | some row => exact ⟨row, ⟨hs, hn, hrow⟩, by simpa [hrow] using hr⟩

/-- A text as assembly writes it: its bytes, the number of words pushed for it, and the number of
bytes released directly after it is written. -/
structure Block where
  bytes : List UInt8
  pushed : Nat
  released : Option Nat
deriving DecidableEq

namespace Block

/-- What is released directly after a system call. -/
def released? : List Row → Option Nat
  | .call :: .release n :: _ => some n
  | _ => none

/-- The texts that rows write.  The words so far, newest first, are laid out lowest byte first and
cut to the length of the text; what is pushed since the first of them is counted. -/
def ofRows (words : List UInt64) (pushed : Nat) : List Row → List Block
  | [] => []
  | .word w :: rows => ofRows (w :: words) pushed rows
  | .count n :: rows =>
    ⟨(words.flatMap fun w => Word.bytes 8 w.toNat).take n, pushed, released? rows⟩ ::
      ofRows [] 0 rows
  | .push :: rows => ofRows words (if words.isEmpty then pushed else pushed + 1) rows
  | .call :: rows => ofRows words pushed rows
  | .release _ :: rows => ofRows words pushed rows
  | .other :: rows => ofRows words pushed rows

/-- The texts that assembly writes. -/
def ofText? (assembly : String) : Option (List Block) := (Row.ofText? assembly).map (ofRows [] 0)

/-- A text that is written as a whole, all that is pushed for it being released. -/
def ofString (text : String) : Block :=
  let bytes := text.toUTF8.data.toList
  ⟨bytes, (Word.pack bytes).length, some (8 * (Word.pack bytes).length)⟩

end Block

namespace Row

def pushing (words : List UInt64) : List Row := words.reverse.flatMap fun w => [.word w, .push]

def writing (text : String) : List Row :=
  let bytes := text.toUTF8.data.toList
  let words := Word.pack bytes
  pushing words ++ [.other, .other, .other, .count bytes.length, .call, .release (8 * words.length)]

theorem pushing_cons (w : UInt64) (ws : List UInt64) :
    pushing (w :: ws) = pushing ws ++ [.word w, .push] := by
  simp [pushing]

end Row

theorem Code.pushing_cons (w : UInt64) (ws : List UInt64) : Code.pushing (w :: ws) =
    Code.pushing ws ++ [.instr (.mov (.reg .rax) (.word w)), .instr (.push (.reg .rax))] := by
  simp [Code.pushing]

namespace Block

theorem ofRows_quiet {row : Row} (h : row.isQuiet) (rows : List Row) :
    ofRows [] 0 (row :: rows) = ofRows [] 0 rows := by
  cases row with
  | word | count => cases h
  | _ => rfl

theorem ofRows_pushing (ws : List UInt64) :
    ∀ (words : List UInt64) (pushed : Nat) (rows : List Row),
    ofRows words pushed (Row.pushing ws ++ rows) =
      ofRows (ws ++ words) (pushed + ws.length) rows := by
  induction ws with
  | nil => exact fun _ _ _ => rfl
  | cons w ws ih =>
    intro words pushed rows
    rw [Row.pushing_cons, List.append_assoc, ih]
    rfl

theorem ofRows_writing (text : String) (rows : List Row) :
    ofRows [] 0 (Row.writing text ++ rows) = ofString text :: ofRows [] 0 rows := by
  obtain ⟨k, hk⟩ := Word.flatMap_bytes_pack text.toUTF8.data.toList
  rw [Row.writing, List.append_assoc, ofRows_pushing, List.append_nil, Nat.zero_add]
  simp only [List.cons_append, List.nil_append, ofRows, released?, hk, List.take_left]
  rfl

end Block

section Code

variable {table : Signatures} {texts : List String} {code : Code}

theorem Code.reads_pushing (ws : List UInt64) :
    List.Forall₂ Line.Reads (Code.pushing ws) (Row.pushing ws) := by
  induction ws with
  | nil => exact .nil
  | cons w ws ih =>
    rw [Code.pushing_cons, Row.pushing_cons]
    exact List.rel_append ih (.cons (.word w) (.cons .push .nil))

theorem Code.reads_writing (text : String) :
    List.Forall₂ Line.Reads (Code.writing text) (Row.writing text) := by
  have hmove : Line.Reads (.instr (.mov (.reg .rsi) (.reg .rsp))) .other := ⟨rfl, by decide, rfl⟩
  exact List.rel_append (Code.reads_pushing _) (.cons (.number (by decide) 1)
    (.cons (.number (by decide) 1) (.cons hmove (.cons (.count _) (.cons .syscall
      (.cons (.release _) .nil))))))

/-- Code is read line by line, and its rows write the texts. -/
def Code.Shows (texts : List String) (code : Code) : Prop :=
  ∃ rows, List.Forall₂ Line.Reads code rows ∧
    ∀ more, Block.ofRows [] 0 (rows ++ more) = texts.map Block.ofString ++ Block.ofRows [] 0 more

namespace Code.Shows

theorem append {texts' : List String} {code' : Code} (h : Shows texts code)
    (h' : Shows texts' code') : Shows (texts ++ texts') (code ++ code') := by
  obtain ⟨rows, hr, hb⟩ := h
  obtain ⟨rows', hr', hb'⟩ := h'
  refine ⟨rows ++ rows', List.rel_append hr hr', fun more => ?_⟩
  rw [List.append_assoc, hb, hb', List.map_append, List.append_assoc]

theorem nil : Shows [] [] := ⟨[], .nil, fun _ => rfl⟩

theorem quiet {l : Line} {row : Row} (h : l.Reads row) (hq : row.isQuiet) : Shows [] [l] :=
  ⟨[row], .cons h .nil, Block.ofRows_quiet hq⟩

theorem writing (text : String) : Shows [text] (Code.writing text) :=
  ⟨Row.writing text, Code.reads_writing text, Block.ofRows_writing text⟩

theorem of_quiet (h : ∀ l ∈ code, ∃ row, l.Reads row ∧ row.isQuiet) : Shows [] code := by
  induction code with
  | nil => exact nil
  | cons l code ih =>
    obtain ⟨⟨row, hr, hq⟩, hc⟩ := List.forall_mem_cons.1 h
    exact (quiet hr hq).append (ih hc)

theorem of_spells (h : code.Spells table texts)
    (ht : ∀ l ∈ code, ∀ x, x ∈ l.label? ∨ x ∈ l.target? → x.Tidy) : Shows texts code := by
  induction h with
  | nil => exact nil
  | line hl _ ih =>
    obtain ⟨hx, hc⟩ := List.forall_mem_cons.1 ht
    obtain ⟨row, hr, hq⟩ := hl.reads hx
    exact (quiet hr hq).append (ih hc)
  | @text text texts code _ _ ih =>
    exact (writing text).append (ih (List.forall_mem_append.1 ht).2)

theorem ofText?_eq (h : Shows texts code) :
    Block.ofText? (Code.render code) = some (texts.map Block.ofString) := by
  obtain ⟨rows, hr, hb⟩ := h
  have hnil := hb []
  rw [List.append_nil] at hnil
  rw [Block.ofText?, Code.ofText?_render hr, Option.map_some, hnil]
  exact congrArg some (List.append_nil _)

end Code.Shows

end Code

/-- Reading the assembly of an accepted text yields the texts that its program writes, one for each
that is not empty, in the order of the code and byte for byte; and after each text, all words that
were pushed for it are released. -/
theorem compile_texts_read_back {source assembly : String}
    (h : (compile source).result = .ok assembly) :
    ∃ p blocks, Program.ofScan (Scan.ofText source) = .ok p ∧
      Block.ofText? assembly = some blocks ∧
      blocks.map Block.bytes = p.texts.map (fun text => text.toUTF8.data.toList) ∧
      ∀ b ∈ blocks, b.released = some (8 * b.pushed) := by
  obtain ⟨p, hp, ha⟩ := compile_eq_ok.1 h
  obtain ⟨table, code, ht, hc, rfl⟩ := Program.assemble_eq_ok.1 ha
  have hres := Program.code_resolved ht hc
  have htidy := Program.tidy_of_mem_labels hp hc
  have hlabels : ∀ l ∈ code, ∀ x, x ∈ l.label? ∨ x ∈ l.target? → x.Tidy := by
    rintro l hl x (hx | hx)
    · exact htidy x (List.mem_filterMap.2 ⟨l, hl, hx⟩)
    · exact htidy x (hres.found (List.mem_filterMap.2 ⟨l, hl, hx⟩))
  have hshows : Code.Shows p.texts code := by
    obtain ⟨r, routine, hr, rfl, hroutine⟩ := Program.code_eq_append hc
    have hmain := Code.Shows.of_spells (Emit.Writes.program p _ r hr)
      (List.forall_mem_append.1 hlabels).1
    have hrest : Code.Shows [] routine := by
      rcases hroutine with ⟨-, rfl⟩ | ⟨-, rfl⟩
      · exact .of_quiet PrintInt.reads
      · exact .nil
    simpa using hmain.append hrest
  refine ⟨p, p.texts.map Block.ofString, hp, hshows.ofText?_eq, ?_, ?_⟩
  · rw [List.map_map]
    rfl
  · intro b hb
    obtain ⟨text, -, rfl⟩ := List.mem_map.1 hb
    rfl

/-- A text with prints in a function and in a branch, of more than one word, of two bytes to a
character and of nothing. -/
def spokenText : String :=
  "fn f() print(\"naïve\"); if (1 < 2) print(\"a longer text: \" + 1); print(\"\" + 2); f();"

set_option maxRecDepth 4000 in
theorem compile_texts_read_back_spokenText :
    ∃ p blocks assembly, (compile spokenText).result = .ok assembly ∧
      Program.ofScan (Scan.ofText spokenText) = .ok p ∧
      p.texts = ["a longer text: ", "\n", "\n", "naïve\n"] ∧
      Block.ofText? assembly = some blocks ∧
      blocks.map Block.bytes =
        ["a longer text: ", "\n", "\n", "naïve\n"].map (fun text => text.toUTF8.data.toList) ∧
      ∀ b ∈ blocks, b.released = some (8 * b.pushed) := by
  have hrun : ((Program.ofScan (Scan.ofText spokenText)).bind fun p =>
      (Signatures.ofProgram p).bind fun table => (p.code table).bind fun _ =>
        .ok p.texts) = .ok ["a longer text: ", "\n", "\n", "naïve\n"] := by
    decide +kernel
  obtain ⟨p, assembly, hp, hc, htexts⟩ := exists_assembly hrun
  obtain ⟨p', blocks, hp', hb, hbytes, hreleased⟩ := compile_texts_read_back hc
  obtain rfl : p = p' := Except.ok.inj (hp.symm.trans hp')
  exact ⟨p, blocks, assembly, hc, hp, htexts, hb, by rw [hbytes, htexts], hreleased⟩

end Stackwise
