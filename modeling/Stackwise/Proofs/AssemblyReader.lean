import Stackwise.Proofs.AssemblyText
import Stackwise.Proofs.Packing

/-! Reading assembly.  A text is read line by line into labels, directives and instructions, by the
names that the assembler knows.  Code whose lines can be told from their texts is read as what was
written. -/
namespace Stackwise

section Reader

def Reg.ofName? : String → Option Reg
  | "rax" => some .rax
  | "rbx" => some .rbx
  | "rcx" => some .rcx
  | "rdx" => some .rdx
  | "rsi" => some .rsi
  | "rdi" => some .rdi
  | "rsp" => some .rsp
  | "r8" => some .r8
  | _ => none

def Alu.ofName? : String → Option Alu
  | "add" => some .add
  | "sub" => some .sub
  | "imul" => some .imul
  | "xor" => some .xor
  | "cmp" => some .cmp
  | "test" => some .test
  | _ => none

def Unary.ofName? : String → Option Unary
  | "neg" => some .neg
  | "dec" => some .dec
  | "div" => some .div
  | "idiv" => some .idiv
  | _ => none

def Jump.ofName? : String → Option Jump
  | "jmp" => some .always
  | "je" => some (.on .e)
  | "jne" => some (.on .ne)
  | "jl" => some (.on .l)
  | "jle" => some (.on .le)
  | "jg" => some (.on .g)
  | "jge" => some (.on .ge)
  | "jz" => some (.on .z)
  | "jnz" => some (.on .nz)
  | "js" => some (.on .s)
  | "jns" => some (.on .ns)
  | _ => none

/-- The number of a label that was handed out, by its text without zeros in front. -/
def Label.index? (l : List Char) : Option Nat :=
  (['l', 'a', 'b', 'e', 'l'].isPrefixOf? l).bind fun digits =>
    (Numeral.readIn? 10 digits).filter fun n => Numeral.digits 10 n = digits

def Label.ofText (l : List Char) : Label :=
  match ['f', 'n', '_'].isPrefixOf? l, Label.index? l with
  | some name, _ => .function (String.ofList name)
  | none, some n => .fresh n
  | none, none => .named (String.ofList l)

/-- What stands between a mark in front and a mark behind. -/
def Text.between? (front back l : List Char) : Option (List Char) :=
  (front.isPrefixOf? l).bind back.isSuffixOf?

namespace Operand

def register? (l : List Char) : Option Reg := Reg.ofName? (String.ofList l)

/-- A form of operands: what stands around the part that varies, and how that is read. -/
structure Form where
  front : List Char
  back : List Char
  inner : List Char → Option Operand

/-- An operand with no mark: a register, a byte of one, or a number. -/
def bare? (l : List Char) : Option Operand :=
  (register? l).map .reg <|> (if l = ['d', 'l'] then some .dl else none) <|>
    (Word.ofImmediate? (String.ofList l)).map .word <|> (Numeral.readSigned? l).map .int

def Form.slot : Form :=
  ⟨['Q', 'W', 'O', 'R', 'D', ' ', '[', 'r', 's', 'p', ' ', '+', ' '], [']'],
    fun l => (Numeral.readSigned? l).map .slot⟩

def Form.stack : Form :=
  ⟨['[', 'r', 's', 'p', ' ', '+', ' '], [']'], fun l => (Numeral.readSigned? l).map .stack⟩

def Form.byte : Form :=
  ⟨['b', 'y', 't', 'e', ' ', '['], [']'], fun l => (register? l).map .byte⟩

def Form.mem : Form := ⟨['['], [']'], fun l => (register? l).map .mem⟩

def Form.char : Form :=
  ⟨['\''], ['\''], fun l => if l.length = 1 then l.head?.map .char else none⟩

def forms : List Form := [.slot, .stack, .byte, .mem, .char]

def parse? (l : List Char) : Option Operand :=
  (forms.findSome? fun form => (Text.between? form.front form.back l).bind form.inner) <|> bare? l

def pair? (l : List Char) : Option (Operand × Operand) :=
  match l.dropWhile (· ≠ ',') with
  | ',' :: ' ' :: src => do return (← parse? (l.takeWhile (· ≠ ',')), ← parse? src)
  | _ => none

end Operand

namespace Instr

def ofName? : String → Option Instr
  | "cqo" => some .cqo
  | "ret" => some .ret
  | "syscall" => some .syscall
  | _ => none

/-- An instruction by its name and what stands behind it. -/
def ofParts? (name : String) (rest : List Char) : Option Instr :=
  match name with
  | "push" => (Operand.parse? rest).map .push
  | "pop" => (Operand.register? rest).map .pop
  | "call" => some (.call (Label.ofText rest))
  | "mov" => (Operand.pair? rest).map fun p => .mov p.1 p.2
  | "lea" => (Operand.pair? rest).bind fun p =>
    match p.1 with
    | .reg r => some (.lea r p.2)
    | _ => none
  | name =>
    match Alu.ofName? name, Unary.ofName? name with
    | some op, _ => (Operand.pair? rest).map fun p => .alu op p.1 p.2
    | none, some op => (Operand.register? rest).map (.unary op)
    | none, none => (Jump.ofName? name).map fun kind => .jump kind (Label.ofText rest)

def parse? (l : List Char) : Option Instr :=
  let name := String.ofList (l.takeWhile (· ≠ ' '))
  match l.dropWhile (· ≠ ' ') with
  | [] => ofName? name
  | _ :: rest => ofParts? name rest

end Instr

/-- Reads a line: a label has a colon behind it, and a directive is known by its first word. -/
def Line.parse? (row : List Char) : Option Line :=
  let l := row.dropWhile Text.isSpace
  match [':'].isSuffixOf? l with
  | some name => some (.label (Label.ofText name))
  | none =>
    if String.ofList (l.takeWhile (· ≠ ' ')) ∈ ["global", "section"] then
      some (.directive (String.ofList l))
    else (Instr.parse? l).map .instr

def Code.parse? (text : String) : Option Code := (Text.lines text.toList).mapM Line.parse?

end Reader

section Names

theorem Reg.ofName?_render (r : Reg) : Reg.ofName? r.render = some r := by cases r <;> rfl

theorem Reg.render_of_ofName? {name : String} {r : Reg} (h : Reg.ofName? name = some r) :
    r.render = name := by
  unfold Reg.ofName? at h
  split at h <;> cases h <;> rfl

theorem Operand.register?_render (r : Reg) : Operand.register? r.render.toList = some r := by
  rw [Operand.register?, String.ofList_toList, Reg.ofName?_render]

namespace Label

theorem index?_fresh (n : Nat) : index? (fresh n).render.toList = some n := by
  have hs : (fresh n).render.toList = ['l', 'a', 'b', 'e', 'l'] ++ Numeral.digits 10 n := by
    simp [render, Numeral.decimal]
  rw [index?, hs, List.isPrefixOf?_eq_some_iff_append_eq.2 rfl]
  simp [Numeral.readIn?_digits]

theorem ofText_render {l : Label} (h : l.Tidy) : ofText l.render.toList = l := by
  cases l with
  | named text =>
    have hall : ∀ text ∈ names, ofText text.toList = named text := by decide
    exact hall text h
  | function name =>
    have hp : ['f', 'n', '_'].isPrefixOf? (function name).render.toList = some name.toList :=
      List.isPrefixOf?_eq_some_iff_append_eq.2 (by simp [render])
    simp [ofText, hp]
  | fresh n =>
    have hp : ['f', 'n', '_'].isPrefixOf? (fresh n).render.toList = none := by
      simp [render, List.isPrefixOf?]
    rw [ofText, hp, index?_fresh]

end Label

end Names

section Operands

namespace Text

/-- A character of an instruction: no colon, and no blank but the space. -/
def isOrdinary (c : Char) : Bool := c != ':' && (c == ' ' || !isSpace c)

theorem isOrdinary_of_isWordChar {c : Char} (h : Piece.isWordChar c) : isOrdinary c := by
  have hc : c.toNat ≠ ':'.toNat ∧ isSpace c = false := by
    have hn : 48 ≤ c.toNat ∧ c.toNat ≤ 57 ∨ 65 ≤ c.toNat ∧ c.toNat ≤ 122 := by
      rw [Piece.isWordChar, Bool.or_eq_true, Piece.isWordStart_iff, Piece.isDigit_iff] at h
      omega
    have hcolon : ':'.toNat = 58 := rfl
    refine ⟨by omega, ?_⟩
    simp only [isSpace, Bool.or_eq_false_iff, Bool.and_eq_false_iff, decide_eq_false_iff_not,
      beq_eq_false_iff_ne]
    omega
  have hne : c ≠ ':' := fun he => hc.1 (by rw [he])
  simp [isOrdinary, hne, hc.2]

theorem between?_append (front back l : List Char) :
    between? front back (front ++ (l ++ back)) = some l := by
  rw [between?, List.isPrefixOf?_eq_some_iff_append_eq.2 rfl, Option.bind_some,
    List.isSuffixOf?_eq_some_iff_append_eq.2 rfl]

theorem between?_eq_none {front back l : List Char} (h : ¬ front <+: l) :
    between? front back l = none := by
  cases hp : front.isPrefixOf? l with
  | none => rw [between?, hp, Option.bind_none]
  | some rest => exact absurd ⟨rest, List.isPrefixOf?_eq_some_iff_append_eq.1 hp⟩ h

section

variable {l : List Char} {mark : Char} (h : mark ∉ l) (rest : List Char)

include h

theorem all_ne : ∀ c ∈ l, decide (c ≠ mark) = true :=
  fun _ hc => decide_eq_true (ne_of_mem_of_not_mem hc h)

theorem takeWhile_mark : (l ++ mark :: rest).takeWhile (· ≠ mark) = l := by
  rw [List.takeWhile_append_of_pos (all_ne h), List.takeWhile_cons]
  simp

theorem dropWhile_mark : (l ++ mark :: rest).dropWhile (· ≠ mark) = mark :: rest := by
  rw [List.dropWhile_append_of_pos (all_ne h), List.dropWhile_cons]
  simp

end

end Text

namespace Operand

def isChar (c : Char) : Bool := Text.isOrdinary c && c != ','

/-- The operand is not one that a caller writes. -/
def isPlain : Operand → Bool
  | text _ => false
  | char c => isChar c
  | _ => true

theorem all_signed (value : Int) : (Numeral.signed value).toList.all isChar := by
  have hall : ∀ d < 10, isChar (Numeral.digit d) := by decide
  rw [List.all_eq_true]
  intro c hc
  rcases Numeral.mem_signed value c hc with rfl | ⟨d, hd, rfl⟩
  · rfl
  · exact hall d hd

theorem all_immediate (w : UInt64) : (Word.immediate w).toList.all isChar := by
  have hall : ∀ d < 16, isChar (Numeral.digit d) := by decide
  have hd : (Numeral.digits 16 w.toNat).all isChar := by
    rw [List.all_eq_true]
    intro c hc
    obtain ⟨d, hd, rfl⟩ := Numeral.mem_digits (by decide) _ c hc
    exact hall d hd
  rw [Word.toList_immediate, List.all_cons, List.all_cons, hd]
  rfl

theorem toList_slot (offset : Int) : (slot offset).render.toList =
    Form.slot.front ++ ((Numeral.signed offset).toList ++ Form.slot.back) := by
  have hr : (slot offset).render = "QWORD [rsp + " ++ Numeral.signed offset ++ "]" := rfl
  simp [hr, Form.slot]

theorem toList_stack (offset : Int) : (stack offset).render.toList =
    Form.stack.front ++ ((Numeral.signed offset).toList ++ Form.stack.back) := by
  have hr : (stack offset).render = "[rsp + " ++ Numeral.signed offset ++ "]" := rfl
  simp [hr, Form.stack]

theorem toList_char (c : Char) :
    (char c).render.toList = Form.char.front ++ ([c] ++ Form.char.back) := String.toList_ofList

theorem all_render {o : Operand} (h : o.isPlain) : o.render.toList.all isChar := by
  cases o with
  | text => cases h
  | char c =>
    have hc : isChar c = true := h
    have hc : [c].all isChar := by simpa using hc
    rw [toList_char, List.all_append, List.all_append, hc]
    rfl
  | int value => exact all_signed value
  | word w => exact all_immediate w
  | slot offset =>
    rw [toList_slot, List.all_append, List.all_append, all_signed]
    rfl
  | stack offset =>
    rw [toList_stack, List.all_append, List.all_append, all_signed]
    rfl
  | dl => decide
  | reg r | mem r | byte r => cases r <;> decide

theorem parse?_form {before after : List Form} {form : Form} {l : List Char} {o : Operand}
    (hf : forms = before ++ form :: after)
    (hb : ∀ other ∈ before, ¬ other.front <+: form.front ++ (l ++ form.back))
    (ho : form.inner l = some o) : parse? (form.front ++ (l ++ form.back)) = some o := by
  have hnone : (before.findSome? fun other =>
      (Text.between? other.front other.back (form.front ++ (l ++ form.back))).bind other.inner) =
        none := by
    rw [List.findSome?_eq_none_iff]
    intro other hm
    rw [Text.between?_eq_none (hb other hm), Option.bind_none]
  rw [parse?, hf, List.findSome?_append, hnone, Option.none_or, List.findSome?_cons,
    Text.between?_append, Option.bind_some, ho]
  rfl

theorem parse?_bare {l : List Char} (h : ∀ form ∈ forms, ¬ form.front <+: l) :
    parse? l = bare? l := by
  have hnone : (forms.findSome? fun form =>
      (Text.between? form.front form.back l).bind form.inner) = none := by
    rw [List.findSome?_eq_none_iff]
    intro form hm
    rw [Text.between?_eq_none (h form hm), Option.bind_none]
  rw [parse?, hnone]
  rfl

theorem register?_eq_none {l : List Char} (h : l.head? ≠ some 'r') : register? l = none := by
  cases hr : register? l with
  | none => rfl
  | some r =>
    refine absurd ?_ h
    rw [← String.toList_ofList (l := l), ← Reg.render_of_ofName? hr]
    cases r <;> rfl

theorem parse?_word (w : UInt64) : parse? (Word.immediate w).toList = some (.word w) := by
  have hr : register? (Word.immediate w).toList = none := by
    apply register?_eq_none
    rw [Word.toList_immediate]
    simp
  have hd : (Word.immediate w).toList ≠ ['d', 'l'] := by
    rw [Word.toList_immediate]
    simp
  rw [parse?_bare, bare?, hr, if_neg hd, String.ofList_toList, Word.ofImmediate?_immediate]
  · rfl
  · rw [Word.toList_immediate]
    simp [forms, Form.slot, Form.stack, Form.byte, Form.mem, Form.char]

theorem parse?_int (value : Int) : parse? (Numeral.signed value).toList = some (.int value) := by
  have hno {c : Char} (hc : c.toNat < 48 ∨ 70 < c.toNat) (hm : c ≠ '-') :
      c ∉ (Numeral.signed value).toList := Numeral.notMem_signed value hc hm
  have hform : ∀ form ∈ forms, ¬ form.front <+: (Numeral.signed value).toList := by
    intro form hm hp
    simp only [forms, List.mem_cons, List.not_mem_nil, or_false] at hm
    rcases hm with rfl | rfl | rfl | rfl | rfl
    · exact hno (c := 'Q') (by decide) (by decide) (hp.subset (by decide))
    · exact hno (c := '[') (by decide) (by decide) (hp.subset (by decide))
    · exact hno (c := 'b') (by decide) (by decide) (hp.subset (by decide))
    · exact hno (c := '[') (by decide) (by decide) (hp.subset (by decide))
    · exact hno (c := '\'') (by decide) (by decide) (hp.subset (by decide))
  have hr : register? (Numeral.signed value).toList = none :=
    register?_eq_none fun hh => hno (by decide) (by decide) (List.mem_of_head? hh)
  have hd : (Numeral.signed value).toList ≠ ['d', 'l'] := by
    intro he
    refine hno (c := 'd') (by decide) (by decide) ?_
    rw [he]
    decide
  have hw : Word.ofImmediate? (Numeral.signed value) = none := by
    cases hp : ['0', 'x'].isPrefixOf? (Numeral.signed value).toList with
    | none => rw [Word.ofImmediate?, hp, Option.bind_none]
    | some digits =>
      refine absurd ?_ (hno (c := 'x') (by decide) (by decide))
      rw [← List.isPrefixOf?_eq_some_iff_append_eq.1 hp]
      simp
  rw [parse?_bare hform, bare?, hr, if_neg hd, String.ofList_toList, hw,
    Numeral.readSigned?_signed]
  rfl

theorem parse?_render {o : Operand} (h : o.isPlain) : parse? o.render.toList = some o := by
  cases o with
  | text => cases h
  | reg r | mem r | byte r => cases r <;> decide
  | dl => decide
  | int value => exact parse?_int value
  | word w => exact parse?_word w
  | slot offset =>
    have hf : forms = [] ++ Form.slot :: [.stack, .byte, .mem, .char] := rfl
    have ho : Form.slot.inner (Numeral.signed offset).toList = some (slot offset) := by
      simp [Form.slot, Numeral.readSigned?_signed]
    rw [toList_slot]
    exact parse?_form hf (List.forall_mem_nil _) ho
  | stack offset =>
    have hf : forms = [.slot] ++ Form.stack :: [.byte, .mem, .char] := rfl
    have ho : Form.stack.inner (Numeral.signed offset).toList = some (stack offset) := by
      simp [Form.stack, Numeral.readSigned?_signed]
    rw [toList_stack]
    exact parse?_form hf (by simp [Form.slot, Form.stack]) ho
  | char c =>
    have hf : forms = [.slot, .stack, .byte, .mem] ++ Form.char :: [] := rfl
    have ho : Form.char.inner [c] = some (char c) := rfl
    rw [toList_char]
    exact parse?_form hf (by simp [Form.slot, Form.stack, Form.byte, Form.mem, Form.char]) ho

theorem pair?_append {dst src : Operand} (hd : dst.isPlain) (hs : src.isPlain) :
    pair? (dst.render.toList ++ ',' :: ' ' :: src.render.toList) = some (dst, src) := by
  have hcomma : ',' ∉ dst.render.toList := by
    intro hm
    cases List.all_eq_true.1 (all_render hd) ',' hm
  rw [pair?, Text.dropWhile_mark hcomma, Text.takeWhile_mark hcomma]
  simp only [parse?_render hd, parse?_render hs]
  rfl

end Operand

end Operands

section Instructions

theorem Label.Tidy.all_render {l : Label} (h : l.Tidy) : l.render.toList.all Text.isOrdinary := by
  cases l with
  | named text =>
    have hall : Label.names.all fun text => text.toList.all Text.isOrdinary := by decide
    exact List.all_eq_true.1 hall text h
  | function name =>
    have hname : Token.IsName name := h
    have hn : name.toList.all Text.isOrdinary :=
      List.all_eq_true.2 fun c hc => Text.isOrdinary_of_isWordChar (hname.chars c hc)
    have hf : "fn_".toList.all Text.isOrdinary := by decide
    rw [Label.render, String.toList_append, List.all_append, hn, hf]
    rfl
  | fresh index =>
    have hl : "label".toList.all Text.isOrdinary := by decide
    have hd : (Numeral.decimal index).toList.all Text.isOrdinary := by
      have hi := Operand.all_signed index
      rw [Numeral.signed_natCast, List.all_eq_true] at hi
      rw [List.all_eq_true]
      exact fun c hc => (Bool.and_eq_true_iff.1 (hi c hc)).1
    rw [Label.render, String.toList_append, List.all_append, hl, hd]
    rfl

theorem Label.Tidy.head_render {l : Label} (h : l.Tidy) :
    ∃ c, l.render.toList.head? = some c ∧ Text.isSpace c = false := by
  cases l with
  | named text =>
    have hall : ∀ text ∈ Label.names, ∃ c, text.toList.head? = some c ∧ Text.isSpace c = false := by
      simp only [Label.names, List.forall_mem_cons]
      exact ⟨⟨_, rfl, rfl⟩, ⟨_, rfl, rfl⟩, ⟨_, rfl, rfl⟩, ⟨_, rfl, rfl⟩, List.forall_mem_nil _⟩
    exact hall text h
  | function name => exact ⟨_, Label.head?_render_function name, rfl⟩
  | fresh index => exact ⟨_, Label.head?_render_fresh index, rfl⟩

namespace Instr

/-- The instruction can be told from its text. -/
def Plain : Instr → Prop
  | push src => src.isPlain
  | mov dst src | alu _ dst src => dst.isPlain ∧ src.isPlain
  | lea _ src => src.isPlain
  | jump _ target | call target => target.Tidy
  | text _ => False
  | pop _ | unary .. | cqo | ret | syscall => True

/-- The name of an instruction is a word, and not that of a directive. -/
def isName (name : String) : Bool :=
  name ≠ "" && name.toList.all Piece.isWordChar && name ∉ ["global", "section"]

theorem isName_alu (op : Alu) : isName op.render := by cases op <;> decide

theorem isName_unary (op : Unary) : isName op.render := by cases op <;> decide

theorem isName_jump (kind : Jump) : isName kind.render := by
  cases kind with
  | always => decide
  | on cond => cases cond <;> decide

theorem ofParts?_alu (op : Alu) (rest : List Char) :
    ofParts? op.render rest = (Operand.pair? rest).map fun p => .alu op p.1 p.2 := by
  cases op <;> rfl

theorem ofParts?_unary (op : Unary) (rest : List Char) :
    ofParts? op.render rest = (Operand.register? rest).map (.unary op) := by
  cases op <;> rfl

theorem ofParts?_jump (kind : Jump) (rest : List Char) :
    ofParts? kind.render rest = some (.jump kind (Label.ofText rest)) := by
  cases kind with
  | always => rfl
  | on cond => cases cond <;> rfl

theorem all_operand {o : Operand} (h : o.isPlain) : o.render.toList.all Text.isOrdinary := by
  have hall := List.all_eq_true.1 (Operand.all_render h)
  exact List.all_eq_true.2 fun c hc => (Bool.and_eq_true_iff.1 (hall c hc)).1

theorem all_pair {dst src : Operand} (hd : dst.isPlain) (hs : src.isPlain) :
    (dst.render.toList ++ ',' :: ' ' :: src.render.toList).all Text.isOrdinary := by
  rw [List.all_append, List.all_cons, List.all_cons, all_operand hd, all_operand hs]
  rfl

/-- The text of an instruction is its name, alone or with a space and operands behind it. -/
theorem render_eq_parts {i : Instr} (h : i.Plain) :
    (isName i.render ∧ ofName? i.render = some i) ∨
      ∃ name rest, isName name ∧ rest.all Text.isOrdinary ∧
        i.render.toList = name.toList ++ ' ' :: rest ∧ ofParts? name rest = some i := by
  have hreg (r : Reg) : r.render.toList.all Text.isOrdinary := all_operand (o := .reg r) rfl
  cases i with
  | text => cases h
  | cqo | ret | syscall => exact .inl ⟨by decide, rfl⟩
  | push src =>
    refine .inr ⟨"push", _, by decide, all_operand h, by simp [render], ?_⟩
    rw [ofParts?, Operand.parse?_render h, Option.map_some]
  | pop dst =>
    refine .inr ⟨"pop", _, by decide, hreg dst, by simp [render], ?_⟩
    rw [ofParts?, Operand.register?_render, Option.map_some]
  | mov dst src =>
    refine .inr ⟨"mov", _, by decide, all_pair h.1 h.2, by simp [render], ?_⟩
    rw [ofParts?, Operand.pair?_append h.1 h.2, Option.map_some]
  | lea dst src =>
    have hd : (Operand.reg dst).isPlain := rfl
    have hr : (Operand.reg dst).render = dst.render := rfl
    refine .inr ⟨"lea", _, by decide, all_pair hd h, by simp [render, hr], ?_⟩
    rw [ofParts?, Operand.pair?_append hd h, Option.bind_some]
  | alu op dst src =>
    refine .inr ⟨op.render, _, isName_alu op, all_pair h.1 h.2, by simp [render], ?_⟩
    rw [ofParts?_alu, Operand.pair?_append h.1 h.2, Option.map_some]
  | unary op r =>
    refine .inr ⟨op.render, _, isName_unary op, hreg r, by simp [render], ?_⟩
    rw [ofParts?_unary, Operand.register?_render, Option.map_some]
  | jump kind target =>
    refine .inr ⟨kind.render, _, isName_jump kind, Label.Tidy.all_render h, by simp [render], ?_⟩
    rw [ofParts?_jump, Label.ofText_render h]
  | call target =>
    refine .inr ⟨"call", _, by decide, Label.Tidy.all_render h, by simp [render], ?_⟩
    rw [ofParts?, Label.ofText_render h]

section

variable {name : String} (h : isName name)

include h

theorem isName.chars : ∀ c ∈ name.toList, Text.isOrdinary c ∧ c ≠ ' ' := by
  intro c hc
  rw [isName, Bool.and_eq_true, Bool.and_eq_true, List.all_eq_true] at h
  refine ⟨Text.isOrdinary_of_isWordChar (h.1.2 c hc), ?_⟩
  rintro rfl
  cases h.1.2 _ hc

theorem isName.blank_notMem : ' ' ∉ name.toList := fun hm => (isName.chars h _ hm).2 rfl

theorem isName.ne_nil : name.toList ≠ [] := by
  rw [isName, Bool.and_eq_true, Bool.and_eq_true, decide_eq_true_eq] at h
  simpa using h.1.1

theorem isName.notMem : name ∉ ["global", "section"] := by
  rw [isName, Bool.and_eq_true, decide_eq_true_eq] at h
  exact h.2

end

theorem parse?_render {i : Instr} (h : i.Plain) : parse? i.render.toList = some i := by
  rcases render_eq_parts h with ⟨hn, hi⟩ | ⟨name, rest, hn, -, hr, hi⟩
  · have hall := Text.all_ne (isName.blank_notMem hn)
    rw [parse?, List.takeWhile_eq_self_iff.2 hall, List.dropWhile_eq_nil_iff.2 hall,
      String.ofList_toList]
    exact hi
  · rw [parse?, hr, Text.takeWhile_mark (isName.blank_notMem hn),
      Text.dropWhile_mark (isName.blank_notMem hn),
      String.ofList_toList]
    exact hi

theorem exists_name {i : Instr} (h : i.Plain) :
    ∃ name rest, isName name ∧ rest.all Text.isOrdinary ∧ i.render.toList = name.toList ++ rest ∧
      i.render.toList.takeWhile (· ≠ ' ') = name.toList := by
  rcases render_eq_parts h with ⟨hn, -⟩ | ⟨name, rest, hn, ho, hr, -⟩
  · exact ⟨_, [], hn, rfl, (List.append_nil _).symm,
      List.takeWhile_eq_self_iff.2 (Text.all_ne (isName.blank_notMem hn))⟩
  · refine ⟨name, ' ' :: rest, hn, ho, hr, ?_⟩
    rw [hr, Text.takeWhile_mark (isName.blank_notMem hn)]

theorem all_render {i : Instr} (h : i.Plain) : ∀ c ∈ i.render.toList, Text.isOrdinary c := by
  obtain ⟨name, rest, hn, ho, hr, -⟩ := exists_name h
  intro c hc
  rw [hr, List.mem_append] at hc
  rcases hc with hc | hc
  · exact (isName.chars hn c hc).1
  · exact List.all_eq_true.1 ho c hc

theorem head_render {i : Instr} (h : i.Plain) :
    ∀ c ∈ i.render.toList.head?, Text.isSpace c = false := by
  obtain ⟨name, rest, hn, -, hr, -⟩ := exists_name h
  intro c hc
  rw [hr, List.head?_append_of_ne_nil _ (isName.ne_nil hn)] at hc
  have hchar := isName.chars hn c (List.mem_of_head? hc)
  simpa [Text.isOrdinary, hchar.2] using (Bool.and_eq_true_iff.1 hchar.1).2

end Instr

end Instructions

section Lines

/-- The line can be told from its text. -/
def Line.Plain : Line → Prop
  | .directive text => text ∈ ["global _start", "section .text"]
  | .label l => l.Tidy
  | .instr i => i.Plain
  | .verbatim _ => False

namespace Line

theorem parse?_instr {i : Instr} (h : i.Plain) : parse? (Line.instr i).text = some (.instr i) := by
  have hblank : ∀ c ∈ [' ', ' ', ' ', ' '], Text.isSpace c := by
    intro c hc
    obtain rfl : c = ' ' := by simpa using hc
    rfl
  have hcolon : [':'].isSuffixOf? i.render.toList = none := by
    cases hs : [':'].isSuffixOf? i.render.toList with
    | none => rfl
    | some name =>
      have hm : ':' ∈ i.render.toList := by
        rw [← List.isSuffixOf?_eq_some_iff_append_eq.1 hs]
        simp
      cases Instr.all_render h _ hm
  obtain ⟨name, rest, hn, -, -, hw⟩ := Instr.exists_name h
  rw [parse?, text, Text.dropWhile_append hblank (Instr.head_render h)]
  simp only [hcolon]
  rw [hw, String.ofList_toList, if_neg (Instr.isName.notMem hn), Instr.parse?_render h,
    Option.map_some]

theorem parse?_label {l : Label} (h : l.Tidy) : parse? (Line.label l).text = some (.label l) := by
  have hdrop : (Line.label l).text.dropWhile Text.isSpace = (Line.label l).text := by
    obtain ⟨c, hc, hs⟩ := h.head_render
    refine Text.dropWhile_append (s := []) (List.forall_mem_nil _) ?_
    change ∀ c ∈ (l.render.toList ++ [':']).head?, Text.isSpace c = false
    rw [List.head?_append, hc, Option.some_or]
    intro c' hc'
    rwa [← Option.some.inj hc']
  have hcolon : [':'].isSuffixOf? (Line.label l).text = some l.render.toList :=
    List.isSuffixOf?_eq_some_iff_append_eq.2 rfl
  rw [parse?, hdrop]
  simp only [hcolon]
  rw [Label.ofText_render h]

theorem parse?_text {l : Line} (h : l.Plain) : parse? l.text = some l := by
  cases l with
  | verbatim => cases h
  | directive text =>
    have hall : ["global _start", "section .text"].all fun text =>
        parse? text.toList = some (.directive text) := by decide
    exact of_decide_eq_true (List.all_eq_true.1 hall text h)
  | label l => exact parse?_label h
  | instr i => exact parse?_instr h

theorem notMem_text {l : Line} (h : l.Plain) : '\n' ∉ l.text ∧ '\r' ∉ l.text := by
  have hno {cs : List Char} (ho : ∀ c ∈ cs, Text.isOrdinary c) : '\n' ∉ cs ∧ '\r' ∉ cs := by
    constructor <;> (intro hm; cases ho _ hm)
  cases l with
  | verbatim => cases h
  | directive text =>
    have hall : ["global _start", "section .text"].all fun text =>
        decide ('\n' ∉ text.toList ∧ '\r' ∉ text.toList) := by decide
    exact of_decide_eq_true (List.all_eq_true.1 hall text h)
  | label l =>
    have hl := hno (List.all_eq_true.1 (Label.Tidy.all_render h))
    simpa [text] using hl
  | instr i =>
    have hi := hno (Instr.all_render h)
    simpa [text] using hi

end Line

theorem Code.mapM_parse?_text {code : Code} (h : ∀ l ∈ code, l.Plain) :
    (code.map Line.text).mapM Line.parse? = some code := by
  induction code with
  | nil => rfl
  | cons l code ih =>
    obtain ⟨hl, hc⟩ := List.forall_mem_cons.1 h
    rw [List.map_cons, List.mapM_cons, Line.parse?_text hl, ih hc]
    rfl

/-- Code is read as what was written. -/
theorem Code.parse?_render {code : Code} (h : ∀ l ∈ code, l.Plain) :
    Code.parse? (Code.render code) = some code := by
  have hspelled : ∀ l ∈ code, l.isSpelled = false := by
    intro l hl
    have hp := h l hl
    unfold Line.isSpelled
    split
    · cases hp
    · cases hp
    · rfl
  have hlines : Text.lines (Code.render code).toList = code.map Line.text := by
    rw [Code.lines_render hspelled fun l hl => (Line.notMem_text (h l hl)).1]
    refine List.map_congr_left fun l hl => ?_
    refine if_neg fun he => (Line.notMem_text (h l hl)).2 (List.mem_of_getLast? he)
  rw [Code.parse?, hlines, Code.mapM_parse?_text h]

end Lines

end Stackwise
