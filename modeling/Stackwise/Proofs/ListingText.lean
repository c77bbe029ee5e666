import Stackwise.Assembly.Listing
import Stackwise.Proofs.AssemblyText

/-! What listings show.  The lines of a listing are a header and a numbered line for each line of
the text; a text whose instructions are laid out in the usual way is restored from them; and a
listing in colours is the plain one with escape sequences in it. -/
namespace Stackwise

namespace Text

/-- The characters of ASCII that have a shape, and the space. -/
def isVisible (c : Char) : Bool := 0x20 ≤ c.toNat && c.toNat ≤ 0x7e

def Visible (cs : List Char) : Prop := ∀ c ∈ cs, isVisible c

instance (cs : List Char) : Decidable (Visible cs) :=
  decidable_of_iff (cs.all isVisible = true) List.all_eq_true

@[simp] theorem visible_append {cs ds : List Char} : Visible (cs ++ ds) ↔ Visible cs ∧ Visible ds :=
  List.forall_mem_append

@[simp] theorem visible_cons {c : Char} {cs : List Char} :
    Visible (c :: cs) ↔ isVisible c ∧ Visible cs :=
  List.forall_mem_cons

@[simp] theorem visible_nil : Visible [] := List.forall_mem_nil _

theorem Visible.notMem {cs : List Char} (h : Visible cs) {c : Char} (hc : isVisible c = false) :
    c ∉ cs := by
  intro hm
  rw [h c hm] at hc
  cases hc

theorem lines_visible {ls : List (List Char)} (h : ∀ l ∈ ls, Visible l) :
    lines (ls.flatMap fun l => l ++ ['\n']) = ls := by
  have hchomp : ∀ l ∈ ls, chomp l = l := fun l hl =>
    if_neg fun hr => (h l hl).notMem rfl (List.mem_of_getLast? hr)
  rw [lines_flatMap fun l hl => (h l hl).notMem rfl, List.map_congr_left hchomp, List.map_id']

theorem isVisible_digit : ∀ d < 16, isVisible (Numeral.digit d) := by decide

theorem visible_digits {base : Nat} (hb : 1 < base) (hb' : base ≤ 16) (n : Nat) :
    Visible (Numeral.digits base n) := by
  intro c hc
  obtain ⟨d, hd, rfl⟩ := Numeral.mem_digits hb n c hc
  exact isVisible_digit d (by omega)

theorem visible_signed (value : Int) : Visible (Numeral.signed value).toList := by
  intro c hc
  rcases Numeral.mem_signed value c hc with rfl | ⟨d, hd, rfl⟩
  · rfl
  · exact isVisible_digit d (by omega)

section Escapes

/-- The escape sequences of listings: those that switch a style on, and the one that switches it
off. -/
def escapeCodes : List (List Char) :=
  ["\x1b[38;5;8m", "\x1b[1m", "\x1b[38;5;29m", "\x1b[36m", "\x1b[0m"].map String.toList

/-- Deletes the escape sequences of listings, after some characters that belong to one. -/
def plainFrom : Nat → List Char → List Char
  | _, [] => []
  | skip + 1, _ :: cs => plainFrom skip cs
  | 0, c :: cs =>
    match escapeCodes.find? fun s => s.isPrefixOf (c :: cs) with
    | some s => plainFrom (s.length - 1) cs
    | none => c :: plainFrom 0 cs

/-- The text without the escape sequences of listings. -/
def plain (text : String) : String := String.ofList (plainFrom 0 text.toList)

theorem escapeCodes_eq : escapeCodes =
    [['\x1b', '[', '3', '8', ';', '5', ';', '8', 'm'], ['\x1b', '[', '1', 'm'],
      ['\x1b', '[', '3', '8', ';', '5', ';', '2', '9', 'm'], ['\x1b', '[', '3', '6', 'm'],
      ['\x1b', '[', '0', 'm']] := by
  decide

/-- Deleting the escape sequences of one text leaves the other, whatever follows. -/
def Plain (s t : List Char) : Prop := ∀ rest, plainFrom 0 (s ++ rest) = t ++ plainFrom 0 rest

namespace Plain

variable {s s' t t' : List Char}

theorem append (h : Plain s t) (h' : Plain s' t') : Plain (s ++ s') (t ++ t') := by
  intro rest
  rw [List.append_assoc, h, h', List.append_assoc]

theorem cons {c : Char} (hc : c ≠ '\x1b') (h : Plain s t) : Plain (c :: s) (c :: t) := by
  intro rest
  have hnone : escapeCodes.find? (fun x => x.isPrefixOf (c :: (s ++ rest))) = none := by
    simp [escapeCodes_eq, List.isPrefixOf, hc.symm]
  rw [List.cons_append, plainFrom, hnone]
  exact congrArg (c :: ·) (h rest)

theorem nil : Plain [] [] := fun _ => rfl

/-- A text without escape characters stays as it is. -/
theorem of_notMem (h : '\x1b' ∉ s) : Plain s s := by
  induction s with
  | nil => exact nil
  | cons c cs ih =>
    rw [List.mem_cons, not_or] at h
    exact cons (Ne.symm h.1) (ih h.2)

theorem code (h : s ∈ escapeCodes) : Plain s [] := by
  intro rest
  rw [escapeCodes_eq] at h
  simp only [List.mem_cons, List.not_mem_nil, or_false] at h
  rcases h with rfl | rfl | rfl | rfl | rfl <;>
    simp [plainFrom, escapeCodes_eq, List.isPrefixOf]

theorem apply {style : Style} (hs : style.codes.toList ∈ escapeCodes) {text : String}
    (ht : '\x1b' ∉ text.toList) :
    Plain (style.apply true text).toList (style.apply false text).toList := by
  have hreset : "\x1b[0m".toList ∈ escapeCodes := by simp [escapeCodes]
  have h := ((code hs).append (of_notMem ht)).append (code hreset)
  simpa [Style.apply] using h

end Plain

end Escapes

end Text

namespace Listing

open Text (Plain Visible)

theorem splitSpace?_eq_some {cs m ops : List Char} (h : splitSpace? cs = some (m, ops)) :
    cs = m ++ ' ' :: ops := by
  fun_induction splitSpace? cs generalizing m with
  | case1 => cases h
  | case2 rest =>
    cases h
    rfl
  | case3 c cs hc ih =>
    obtain ⟨⟨w, r⟩, hw, he⟩ := Option.map_eq_some_iff.1 h
    cases he
    rw [ih hw, List.cons_append]

theorem splitSpace?_append {m : List Char} (h : ' ' ∉ m) (ops : List Char) :
    splitSpace? (m ++ ' ' :: ops) = some (m, ops) := by
  induction m with
  | nil => rfl
  | cons c cs ih =>
    rw [List.mem_cons, not_or] at h
    rw [List.cons_append, splitSpace?, ih h.2]
    · rfl
    · exact fun hc => h.1 hc.symm

theorem splitSpace?_eq_none {m : List Char} (h : ' ' ∉ m) : splitSpace? m = none := by
  cases hs : splitSpace? m with
  | none => rfl
  | some p =>
    refine absurd ?_ h
    rw [splitSpace?_eq_some hs]
    exact List.mem_append_right _ List.mem_cons_self

section Colours

theorem plain_instruction {l : List Char} (h : '\x1b' ∉ l) :
    Plain (instruction true l).toList (instruction false l).toList := by
  have hc : Text.Style.cyan.codes.toList ∈ Text.escapeCodes := by
    simp [Text.escapeCodes, Text.Style.codes]
  have hi : Plain "    ".toList "    ".toList := .of_notMem (by decide)
  unfold instruction
  split
  next m ops hs =>
    rw [splitSpace?_eq_some hs, List.mem_append, List.mem_cons, not_or, not_or] at h
    obtain ⟨hm, -, ho⟩ := h
    have hp : '\x1b' ∉ (String.ofList (m.rightpad 8 ' ')).toList := by
      simp [List.rightpad, hm]
    have ho' : Plain (String.ofList ops).toList (String.ofList ops).toList :=
      .of_notMem (by simpa using ho)
    simpa only [String.toList_append] using hi.append ((Plain.apply hc hp).append ho')
  next =>
    have hl : '\x1b' ∉ (String.ofList l).toList := by simpa using h
    simpa only [String.toList_append] using hi.append (Plain.apply hc hl)

theorem plain_line {l : List Char} (h : '\x1b' ∉ l) :
    Plain (line true l).toList (line false l).toList := by
  have hl : '\x1b' ∉ (String.ofList l).toList := by simpa using h
  unfold line
  split
  · exact plain_instruction fun hm => h ((List.dropWhile_sublist _).mem hm)
  · split
    · exact .apply (by simp [Text.escapeCodes, Text.Style.codes]) hl
    · exact .apply (by simp [Text.escapeCodes, Text.Style.codes]) hl

theorem mem_decimalPadded (width n : Nat) :
    ∀ c ∈ (Numeral.decimalPadded width n).toList, ∃ d < 10, Numeral.digit d = c := by
  intro c hc
  rw [Numeral.decimalPadded, String.toList_ofList, List.leftpad, List.mem_append] at hc
  rcases hc with hc | hc
  · exact ⟨0, by decide, (List.eq_of_mem_replicate hc).symm⟩
  · exact Numeral.mem_digits (by decide) n c hc

theorem notMem_decimalPadded {c : Char} (hc : c.toNat < 48) (width n : Nat) :
    c ∉ (Numeral.decimalPadded width n).toList := by
  intro hm
  obtain ⟨d, hd, he⟩ := mem_decimalPadded width n c hm
  exact Numeral.digit_ne (.inl hc) (by omega) he

theorem plain_numbered {ls : List (List Char)} (h : ∀ l ∈ ls, '\x1b' ∉ l) : ∀ n,
    Plain (numbered true n ls).toList (numbered false n ls).toList := by
  induction ls with
  | nil => exact fun n => .nil
  | cons l ls ih =>
    intro n
    obtain ⟨hl, hls⟩ := List.forall_mem_cons.1 h
    have hf : Text.Style.faint.codes.toList ∈ Text.escapeCodes := by
      simp [Text.escapeCodes, Text.Style.codes]
    have hnum := Plain.apply hf (notMem_decimalPadded (c := '\x1b') (by decide) 4 n)
    have hsp : Plain " ".toList " ".toList := .of_notMem (by decide)
    have hnl : Plain "\n".toList "\n".toList := .of_notMem (by decide)
    simpa only [numbered, String.toList_append] using
      (((hnum.append hsp).append (plain_line hl)).append hnl).append (ih hls (n + 1))

/-- The colours of a listing are all that its escape sequences stand for. -/
theorem plain_render {name text : String} (hn : '\x1b' ∉ name.toList)
    (ht : ∀ l ∈ Text.lines text.toList, '\x1b' ∉ l) :
    Text.plain (render true name text) = render false name text := by
  have hh : Plain ("== " ++ name ++ " ==\n").toList ("== " ++ name ++ " ==\n").toList :=
    .of_notMem (by simpa using hn)
  have h := (hh.append (plain_numbered ht 1)) []
  rw [List.append_nil, Text.plainFrom, List.append_nil] at h
  rw [Text.plain, render, render, String.toList_append, h, ← String.toList_append,
    String.ofList_toList]

end Colours

section Restoring

def indent : List Char := [' ', ' ', ' ', ' ']

/-- The line of assembly that a listing shows.  Behind an indentation, a mnemonic with operands
takes eight columns, and in assembly one space divides them. -/
def restore (shown : List Char) : List Char :=
  match indent.isPrefixOf? shown with
  | some body =>
    if body.length < 8 then shown
    else indent ++ ((body.take 8).rdropWhile (· == ' ') ++ ' ' :: body.drop 8)
  | none => shown

def dropNumber (row : List Char) : List Char := (row.dropWhile (· ≠ ' ')).tail

def decode (listing : String) : String :=
  String.ofList ((Text.lines listing.toList).tail.flatMap fun row =>
    restore (dropNumber row) ++ ['\n'])

theorem restore_flush {l : List Char} (h : (l.head?.map Text.isSpace).getD false = false) :
    restore (line false l).toList = l := by
  have hs : (line false l).toList = l := by
    cases l with
    | nil => rfl
    | cons c cs =>
      have hc : Text.isSpace c = false := h
      simp [line, hc, Text.Style.apply]
  rw [hs]
  cases l with
  | nil => rfl
  | cons c cs =>
    have hc : c ≠ ' ' := by
      rintro rfl
      cases h
    simp [restore, indent, List.isPrefixOf?, hc.symm]

section Instruction

variable {m : List Char} (hne : m ≠ []) (hlen : m.length < 8) (hm : ∀ c ∈ m, Text.isSpace c = false)

include hm

theorem space_notMem : ' ' ∉ m := fun h => absurd (hm ' ' h) (by decide)

theorem rdropWhile_replicate (k : Nat) : (m ++ List.replicate k ' ').rdropWhile (· == ' ') = m := by
  induction k with
  | zero =>
    rw [List.replicate_zero, List.append_nil, List.rdropWhile_eq_self_iff]
    intro hne
    simp only [beq_iff_eq]
    exact fun hl => space_notMem hm (hl ▸ List.getLast_mem hne)
  | succ k ih =>
    rw [List.replicate_succ', ← List.append_assoc, List.rdropWhile_concat_pos _ _ _ rfl, ih]

include hne

theorem line_indent (rest : List Char) :
    line false (indent ++ (m ++ rest)) = instruction false (m ++ rest) := by
  have hsp : ∀ c ∈ indent, Text.isSpace c := by
    have h : Text.isSpace ' ' := rfl
    simp [indent, h]
  have hhead : ∀ c ∈ (m ++ rest).head?, Text.isSpace c = false := by
    intro c hc
    rw [List.head?_append_of_ne_nil _ hne] at hc
    exact hm c (List.mem_of_mem_head? hc)
  have hfirst : (((indent ++ (m ++ rest)).head?.map Text.isSpace).getD false) = true := rfl
  rw [line, if_pos hfirst, Text.dropWhile_append hsp hhead]

include hlen

theorem restore_bare : restore (line false (indent ++ m)).toList = indent ++ m := by
  have hl := line_indent hne hm []
  rw [List.append_nil] at hl
  have hs : (instruction false m).toList = indent ++ m := by
    simp [instruction, splitSpace?_eq_none (space_notMem hm), Text.Style.apply, indent]
  rw [hl, hs, restore, List.isPrefixOf?_eq_some_iff_append_eq.2 rfl]
  exact if_pos hlen

theorem restore_operands (ops : List Char) :
    restore (line false (indent ++ (m ++ ' ' :: ops))).toList = indent ++ (m ++ ' ' :: ops) := by
  have hs : (instruction false (m ++ ' ' :: ops)).toList = indent ++ (m.rightpad 8 ' ' ++ ops) := by
    simp [instruction, splitSpace?_append (space_notMem hm), Text.Style.apply, indent]
  have hp : (m.rightpad 8 ' ').length = 8 := by
    simp only [List.rightpad, List.length_append, List.length_replicate]
    omega
  rw [line_indent hne hm, hs, restore, List.isPrefixOf?_eq_some_iff_append_eq.2 rfl]
  have hb : ¬ (m.rightpad 8 ' ' ++ ops).length < 8 := by
    rw [List.length_append, hp]
    omega
  dsimp only
  rw [if_neg hb, List.take_left' hp, List.drop_left' hp, List.rightpad, rdropWhile_replicate hm]

end Instruction

end Restoring

section Rows

/-- A line of a listing: a number of at least four digits, the first of more than four not being a
zero, a space, and what is shown of a line of assembly. -/
def Shows (n : Nat) (l row : List Char) : Prop :=
  ∃ number shown, row = number ++ ' ' :: shown ∧ Numeral.readIn? 10 number = some n ∧
    4 ≤ number.length ∧ (4 < number.length → number.head? ≠ some '0') ∧ restore shown = l

def row (n : Nat) (l : List Char) : List Char :=
  (Numeral.decimalPadded 4 n).toList ++ ' ' :: (line false l).toList

theorem dropNumber_row (n : Nat) (l : List Char) :
    dropNumber (row n l) = (line false l).toList := by
  have hn : ∀ c ∈ (Numeral.decimalPadded 4 n).toList, decide (c ≠ ' ') = true := by
    intro c hc
    rw [decide_eq_true_eq]
    rintro rfl
    exact notMem_decimalPadded (by decide) 4 n hc
  rw [dropNumber, row, List.dropWhile_append_of_pos hn]
  rfl

theorem foldlM_replicate (k : Nat) : (List.replicate k '0').foldlM
    (fun v c => (Numeral.digitValue? 10 c).map (v * 10 + ·)) 0 = some 0 := by
  have hz : Numeral.digitValue? 10 '0' = some 0 := by decide
  induction k with
  | zero => rfl
  | succ k ih =>
    rw [List.replicate_succ, List.foldlM_cons, hz]
    exact ih

/-- Zeros before a numeral do not change its value. -/
theorem readIn?_decimalPadded (width n : Nat) :
    Numeral.readIn? 10 (Numeral.decimalPadded width n).toList = some n := by
  have hf : (Numeral.decimalPadded width n).toList.foldlM
      (fun v c => (Numeral.digitValue? 10 c).map (v * 10 + ·)) 0 = some n := by
    rw [Numeral.decimalPadded, String.toList_ofList, List.leftpad, List.foldlM_append,
      foldlM_replicate]
    exact Numeral.foldlM_digitValue? (by decide) (by decide) n
  have hne : (Numeral.decimalPadded width n).toList ≠ [] := by
    simp [Numeral.decimalPadded, List.leftpad, Numeral.digits_ne_nil]
  obtain ⟨c, cs, hcs⟩ := List.exists_cons_of_ne_nil hne
  rw [hcs] at hf ⊢
  exact hf

theorem length_decimalPadded (width n : Nat) :
    (Numeral.decimalPadded width n).toList.length = max width (Numeral.digits 10 n).length := by
  rw [Numeral.decimalPadded, String.toList_ofList, List.length_leftpad]

theorem head?_decimalPadded {width n : Nat} (hn : n ≠ 0)
    (hw : width < (Numeral.decimalPadded width n).toList.length) :
    (Numeral.decimalPadded width n).toList.head? ≠ some '0' := by
  rw [length_decimalPadded] at hw
  have hk : width - (Numeral.digits 10 n).length = 0 := by omega
  rw [Numeral.decimalPadded, String.toList_ofList, List.leftpad, hk]
  exact fun h => hn (Numeral.eq_zero_of_head_digits (by decide) (by decide) h)

theorem shows_row {n : Nat} (hn : n ≠ 0) {l : List Char} (h : restore (line false l).toList = l) :
    Shows n l (row n l) := by
  refine ⟨_, _, rfl, readIn?_decimalPadded 4 n, ?_, head?_decimalPadded hn, h⟩
  rw [length_decimalPadded]
  exact le_max_left _ _

theorem toList_numbered (ls : List (List Char)) : ∀ n, (numbered false n ls).toList =
    ((ls.zipIdx n).map fun p => row p.2 p.1).flatMap fun r => r ++ ['\n'] := by
  induction ls with
  | nil => exact fun n => rfl
  | cons l ls ih =>
    intro n
    simp [numbered, ih, row, Text.Style.apply]

theorem visible_instruction {l : List Char} (h : Visible l) :
    Visible (instruction false l).toList := by
  have hi : Visible "    ".toList := by decide
  rw [instruction, String.toList_append, Text.visible_append]
  refine ⟨hi, ?_⟩
  split
  next m ops hs =>
    rw [splitSpace?_eq_some hs, Text.visible_append, Text.visible_cons] at h
    have hp : Visible (List.replicate (8 - m.length) ' ') := by
      intro c hc
      rw [List.eq_of_mem_replicate hc]
      rfl
    simpa [Text.Style.apply, List.rightpad] using ⟨h.1, hp, h.2.2⟩
  next => simpa [Text.Style.apply] using h

theorem visible_line {l : List Char} (h : Visible l) : Visible (line false l).toList := by
  unfold line
  split
  · exact visible_instruction fun c hc => h c ((List.dropWhile_sublist _).mem hc)
  · split <;> simpa [Text.Style.apply] using h

theorem visible_row {l : List Char} (h : Visible l) (n : Nat) : Visible (row n l) := by
  rw [row, Text.visible_append, Text.visible_cons]
  refine ⟨?_, rfl, visible_line h⟩
  intro c hc
  obtain ⟨d, hd, rfl⟩ := mem_decimalPadded 4 n c hc
  exact Text.isVisible_digit d (by omega)

section Lines

variable {name text : String} (hn : '\n' ∉ name.toList)
  (hv : ∀ l ∈ Text.lines text.toList, Visible l)

include hn hv

/-- A listing has a header and a line for each line of the text. -/
theorem lines_render : Text.lines (render false name text).toList =
    ("== " ++ name ++ " ==").toList ::
      ((Text.lines text.toList).zipIdx 1).map fun p => row p.2 p.1 := by
  have hheader : '\n' ∉ ("== " ++ name ++ " ==").toList := by simpa using hn
  have hchomp : Text.chomp ("== " ++ name ++ " ==").toList = ("== " ++ name ++ " ==").toList := by
    refine if_neg fun hr => ?_
    rw [String.toList_append, List.getLast?_append_of_ne_nil _ (by decide)] at hr
    exact absurd hr (by decide)
  have hrows : ∀ r ∈ ((Text.lines text.toList).zipIdx 1).map fun p => row p.2 p.1, Visible r :=
    List.forall_mem_map.2 fun p hp => visible_row (hv p.1 (List.fst_mem_of_mem_zipIdx hp)) p.2
  have hr : (render false name text).toList = ("== " ++ name ++ " ==").toList ++ '\n' ::
      (numbered false 1 (Text.lines text.toList)).toList := by
    simp [render]
  rw [hr, Text.lines_append hheader, hchomp, toList_numbered, Text.lines_visible hrows]

variable (hr : ∀ l ∈ Text.lines text.toList, restore (line false l).toList = l)

include hr

theorem decode_render : decode (render false name text) =
    String.ofList ((Text.lines text.toList).flatMap fun l => l ++ ['\n']) := by
  rw [decode, lines_render hn hv, List.tail_cons, List.flatMap_map]
  congr 1
  have hback : ∀ p ∈ (Text.lines text.toList).zipIdx 1,
      restore (dropNumber (row p.2 p.1)) ++ ['\n'] = p.1 ++ ['\n'] := by
    intro p hp
    rw [dropNumber_row, hr p.1 (List.fst_mem_of_mem_zipIdx hp)]
  rw [List.flatMap_congr hback, ← List.flatMap_map Prod.fst fun l => l ++ ['\n'],
    List.zipIdx_map_fst]

end Lines

end Rows

end Listing

end Stackwise
