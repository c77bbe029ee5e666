import Stackwise.Proofs.ListingText
import Mathlib.Data.List.Forall2

/-! Listings of programs.  Every line of an accepted text's assembly is a directive, a label or an
instruction whose mnemonic is short and followed by one space or by nothing, so its listing shows it
without loss. -/
namespace Stackwise

section Lines

open Text (isVisible Visible)

theorem Piece.isVisible_of_isWordChar {c : Char} (h : Piece.isWordChar c) : isVisible c := by
  have hle {a b : Char} : a ≤ b ↔ a.toNat ≤ b.toNat := Iff.rfl
  simp only [Piece.isWordChar, Piece.isWordStart, Piece.isDigit, Bool.or_eq_true, Bool.and_eq_true,
    decide_eq_true_eq, beq_iff_eq, hle] at h
  simp only [isVisible, Bool.and_eq_true, decide_eq_true_eq]
  rcases h with ((h | h) | rfl) | h
  · have h₁ : 'a'.toNat = 97 := rfl
    have h₂ : 'z'.toNat = 122 := rfl
    omega
  · have h₁ : 'A'.toNat = 65 := rfl
    have h₂ : 'Z'.toNat = 90 := rfl
    omega
  · decide
  · have h₁ : '0'.toNat = 48 := rfl
    have h₂ : '9'.toNat = 57 := rfl
    omega

theorem Token.IsName.visible {name : String} (h : Token.IsName name) : Visible name.toList :=
  fun c hc => Piece.isVisible_of_isWordChar (h.chars c hc)

theorem Label.Tidy.visible {l : Label} (h : l.Tidy) : Visible l.render.toList := by
  cases l with
  | named text =>
    have hall : ∀ text ∈ Label.names, Visible text.toList := by decide
    exact hall text h
  | function name =>
    rw [Label.render, String.toList_append, Text.visible_append]
    exact ⟨by decide, Token.IsName.visible h⟩
  | fresh index =>
    rw [Label.render, String.toList_append, Text.visible_append]
    exact ⟨by decide, Text.visible_signed index⟩

theorem Label.Tidy.flush {l : Label} (h : l.Tidy) :
    (((l.render.toList ++ [':']).head?.map Text.isSpace).getD false) = false := by
  cases l with
  | named text =>
    have hall : ∀ text ∈ Label.names,
        (((text.toList ++ [':']).head?.map Text.isSpace).getD false) = false := by
      decide
    exact hall text h
  | function name =>
    have hf : Text.isSpace 'f' = false := rfl
    simpa [Label.render] using hf
  | fresh index =>
    have hl : Text.isSpace 'l' = false := rfl
    simpa [Label.render] using hl

theorem Reg.visible_render (r : Reg) : Visible r.render.toList := by
  cases r <;> decide

/-- An operand of which all characters are visible, since the caller does not spell it. -/
def Operand.isFixed : Operand → Bool
  | .text _ => false
  | .char value => isVisible value
  | _ => true

theorem Operand.visible_render {o : Operand} (h : o.isFixed) : Visible o.render.toList := by
  cases o with
  | reg r => exact r.visible_render
  | dl => decide
  | int value => exact Text.visible_signed value
  | word value =>
    simp only [Operand.render, Word.immediate, Numeral.hexadecimal, String.toList_append,
      String.toList_ofList, Text.visible_append]
    exact ⟨by decide, Text.visible_digits (by decide) (by decide) _⟩
  | char value =>
    simp only [Operand.render, String.toList_ofList, Text.visible_cons]
    exact ⟨rfl, h, rfl, Text.visible_nil⟩
  | slot offset | stack offset =>
    simp only [Operand.render, String.toList_append, Text.visible_append]
    exact ⟨⟨by decide, Text.visible_signed offset⟩, by decide⟩
  | mem r | byte r =>
    simp only [Operand.render, String.toList_append, Text.visible_append]
    exact ⟨⟨by decide, r.visible_render⟩, by decide⟩
  | text => cases h

/-- A mnemonic takes fewer than eight columns. -/
structure IsMnemonic (m : List Char) : Prop where
  nonempty : m ≠ []
  short : m.length < 8
  visible : Visible m
  solid : ∀ c ∈ m, Text.isSpace c = false

instance (m : List Char) : Decidable (IsMnemonic m) :=
  decidable_of_iff (m ≠ [] ∧ m.length < 8 ∧ Visible m ∧ (m.all fun c => !Text.isSpace c) = true)
    ⟨fun h => ⟨h.1, h.2.1, h.2.2.1, by simpa using h.2.2.2⟩,
      fun h => ⟨h.1, h.2, h.3, by simpa using h.4⟩⟩

theorem Alu.isMnemonic (op : Alu) : IsMnemonic op.render.toList := by cases op <;> decide

theorem Unary.isMnemonic (op : Unary) : IsMnemonic op.render.toList := by cases op <;> decide

theorem Jump.isMnemonic (kind : Jump) : IsMnemonic kind.render.toList := by
  cases kind with
  | always => decide
  | on cond => cases cond <;> decide

/-- A mnemonic, or a mnemonic and operands with one space between them. -/
inductive Instr.Laid : List Char → Prop
  | bare {m : List Char} : IsMnemonic m → Laid m
  | operands {m ops : List Char} : IsMnemonic m → Visible ops → Laid (m ++ ' ' :: ops)

namespace Instr

theorem laid_two {m : List Char} (hm : IsMnemonic m) {dst src : Operand} (hd : dst.isFixed)
    (hs : src.isFixed) :
    Laid (m ++ ' ' :: (dst.render.toList ++ ',' :: ' ' :: src.render.toList)) := by
  refine .operands hm ?_
  rw [Text.visible_append, Text.visible_cons, Text.visible_cons]
  exact ⟨Operand.visible_render hd, rfl, rfl, Operand.visible_render hs⟩

theorem laid_render {i : Instr} (hs : Line.isSpelled (.instr i) = false)
    (ho : ∀ o ∈ i.operands, o.isFixed) (ht : ∀ x ∈ Line.target? (.instr i), x.Tidy) :
    Laid i.render.toList := by
  cases i with
  | text => cases hs
  | cqo => exact .bare (by decide)
  | ret => exact .bare (by decide)
  | syscall => exact .bare (by decide)
  | push src =>
    have h := Laid.operands (m := ['p', 'u', 's', 'h']) (by decide)
      (Operand.visible_render (ho src (by simp [operands])))
    simpa [render] using h
  | pop dst =>
    have h := Laid.operands (m := ['p', 'o', 'p']) (by decide) dst.visible_render
    simpa [render] using h
  | mov dst src =>
    have h := laid_two (m := ['m', 'o', 'v']) (by decide) (ho dst (by simp [operands]))
      (ho src (by simp [operands]))
    simpa [render] using h
  | lea dst src =>
    have hd : (Operand.reg dst).isFixed := rfl
    have h := laid_two (m := ['l', 'e', 'a']) (by decide) hd (ho src (by simp [operands]))
    simpa [render, Operand.render] using h
  | alu op dst src =>
    have h := laid_two op.isMnemonic (ho dst (by simp [operands])) (ho src (by simp [operands]))
    simpa [render] using h
  | unary op r =>
    have h := Laid.operands op.isMnemonic r.visible_render
    simpa [render] using h
  | jump kind target =>
    have h := Laid.operands kind.isMnemonic (ht target rfl).visible
    simpa [render] using h
  | call target =>
    have h := Laid.operands (m := ['c', 'a', 'l', 'l']) (by decide) (ht target rfl).visible
    simpa [render] using h

theorem Laid.visible {s : List Char} (h : Laid s) : Visible s := by
  cases h with
  | bare hm => exact hm.visible
  | operands hm hv => exact Text.visible_append.2 ⟨hm.visible, Text.visible_cons.2 ⟨rfl, hv⟩⟩

theorem Laid.restore {s : List Char} (h : Laid s) :
    Listing.restore (Listing.line false (Listing.indent ++ s)).toList = Listing.indent ++ s := by
  cases h with
  | bare hm => exact Listing.restore_bare hm.nonempty hm.short hm.solid
  | operands hm _ => exact Listing.restore_operands hm.nonempty hm.short hm.solid _

end Instr

namespace Line

/-- The lines that programs consist of, but for the names of labels. -/
def isOrdinary : Line → Bool
  | .directive text => ["global _start", "section .text"].contains text
  | .label _ => true
  | .instr (.text _) => false
  | .instr i => i.operands.all Operand.isFixed
  | .verbatim _ => false

/-- A line that listings show as it is. -/
structure Shown (l : Line) : Prop where
  plain : l.isSpelled = false
  visible : Visible l.text
  restore : Listing.restore (Listing.line false l.text).toList = l.text

theorem shown {l : Line} (h : l.isOrdinary) (ht : ∀ x, x ∈ l.label? ∨ x ∈ l.target? → x.Tidy) :
    l.Shown := by
  cases l with
  | directive text =>
    have hall : ∀ text ∈ ["global _start", "section .text"], Visible text.toList ∧
        (text.toList.head?.map Text.isSpace).getD false = false := by
      decide
    obtain ⟨hv, hf⟩ := hall text (by simpa [isOrdinary] using h)
    exact ⟨rfl, hv, Listing.restore_flush hf⟩
  | label x =>
    have hx := ht x (.inl rfl)
    refine ⟨rfl, ?_, Listing.restore_flush hx.flush⟩
    rw [Line.text, Text.visible_append]
    exact ⟨hx.visible, by decide⟩
  | instr i =>
    have hs : Line.isSpelled (.instr i) = false := by
      cases i with
      | text => cases h
      | _ => rfl
    have ho : ∀ o ∈ i.operands, o.isFixed := by
      cases i with
      | text => cases h
      | _ => exact List.all_eq_true.1 h
    have hl := Instr.laid_render hs ho fun x hx => ht x (.inr hx)
    refine ⟨hs, ?_, hl.restore⟩
    rw [Line.text, Text.visible_append]
    exact ⟨by decide, hl.visible⟩
  | verbatim => cases h

theorem Basic.isOrdinary {table : Signatures} {l : Line} (h : l.Basic table) : l.isOrdinary := by
  cases h <;> rfl

end Line

theorem Code.isOrdinary_writing (text : String) : ∀ l ∈ Code.writing text, l.isOrdinary := by
  refine List.forall_mem_append.2 ⟨?_, by simp [Line.isOrdinary, Instr.operands, Operand.isFixed]⟩
  intro l hl
  obtain ⟨w, -, hl⟩ := List.mem_flatMap.1 hl
  simp only [List.mem_cons, List.not_mem_nil, or_false] at hl
  rcases hl with rfl | rfl <;> rfl

theorem Code.Spells.isOrdinary {table : Signatures} {texts : List String} {code : Code}
    (h : code.Spells table texts) : ∀ l ∈ code, l.isOrdinary := by
  induction h with
  | nil => exact List.forall_mem_nil _
  | line hl _ ih => exact List.forall_mem_cons.2 ⟨hl.isOrdinary, ih⟩
  | @text text _ _ _ _ ih => exact List.forall_mem_append.2 ⟨Code.isOrdinary_writing text, ih⟩

theorem Program.shown_code {source : String} {p : Program} {table : Signatures} {code : Code}
    (hp : Program.ofScan (Scan.ofText source) = .ok p) (ht : Signatures.ofProgram p = .ok table)
    (hc : p.code table = .ok code) : ∀ l ∈ code, l.Shown := by
  have hres := Program.code_resolved ht hc
  have htidy := Program.tidy_of_mem_labels hp hc
  have hord : ∀ l ∈ code, l.isOrdinary := by
    obtain ⟨r, routine, hr, rfl, hroutine⟩ := Program.code_eq_append hc
    refine List.forall_mem_append.2 ⟨(Emit.Writes.program p _ r hr).isOrdinary, ?_⟩
    rcases hroutine with ⟨-, rfl⟩ | ⟨-, rfl⟩
    · decide
    · exact List.forall_mem_nil _
  intro l hl
  refine Line.shown (hord l hl) ?_
  rintro x (hx | hx)
  · exact htidy x (List.mem_filterMap.2 ⟨l, hl, hx⟩)
  · exact htidy x (hres.found (List.mem_filterMap.2 ⟨l, hl, hx⟩))

end Lines

/-- The plain listing of an accepted text's assembly has a header and then one line for each line of
the assembly, in order and numbered from one, each of which shows its line of assembly; the assembly
is decoded from the listing as it was; and deleting the escape sequences from the listing in colours
leaves the plain one. -/
theorem compile_listing_faithful {source assembly name : String}
    (h : (compile source).result = .ok assembly) (hn : '\n' ∉ name.toList)
    (he : '\x1b' ∉ name.toList) :
    (∃ rows, Text.lines (Listing.render false name assembly).toList =
        ("== " ++ name ++ " ==").toList :: rows ∧
      List.Forall₂ (fun l row => Listing.Shows l.2 l.1 row)
        ((Text.lines assembly.toList).zipIdx 1) rows) ∧
    Listing.decode (Listing.render false name assembly) = assembly ∧
    Text.plain (Listing.render true name assembly) = Listing.render false name assembly := by
  obtain ⟨p, hp, ha⟩ := compile_eq_ok.1 h
  obtain ⟨table, code, ht, hc, rfl⟩ := Program.assemble_eq_ok.1 ha
  have hshown := Program.shown_code hp ht hc
  have htext := Code.toList_render fun l hl => (hshown l hl).plain
  have hlines : Text.lines (Code.render code).toList = code.map Line.text := by
    rw [htext, Text.lines_visible]
    exact List.forall_mem_map.2 fun l hl => (hshown l hl).visible
  have hv : ∀ l ∈ Text.lines (Code.render code).toList, Text.Visible l := by
    rw [hlines]
    exact List.forall_mem_map.2 fun l hl => (hshown l hl).visible
  have hr : ∀ l ∈ Text.lines (Code.render code).toList,
      Listing.restore (Listing.line false l).toList = l := by
    rw [hlines]
    exact List.forall_mem_map.2 fun l hl => (hshown l hl).restore
  refine ⟨⟨_, Listing.lines_render hn hv, ?_⟩, ?_, Listing.plain_render he ?_⟩
  · rw [List.forall₂_map_right_iff, List.forall₂_same]
    intro p hp
    have hpos := List.le_snd_of_mem_zipIdx hp
    exact Listing.shows_row (by omega) (hr p.1 (List.fst_mem_of_mem_zipIdx hp))
  · rw [Listing.decode_render hn hv hr, hlines, ← htext, String.ofList_toList]
  · exact fun l hl => (hv l hl).notMem rfl

def listedText : String :=
  "fn f(a) return a * 8; let n = 3; " ++
    "while (n > 0) \x7b print(\"n \" + n); n = n - 1; \x7d exit(f(n));"

theorem compile_listing_faithful_listedText :
    ∃ assembly, (compile listedText).result = .ok assembly ∧
    (∃ rows, Text.lines (Listing.render false "out.asm" assembly).toList =
        ("== " ++ "out.asm" ++ " ==").toList :: rows ∧
      List.Forall₂ (fun l row => Listing.Shows l.2 l.1 row)
        ((Text.lines assembly.toList).zipIdx 1) rows) ∧
    Listing.decode (Listing.render false "out.asm" assembly) = assembly ∧
    Text.plain (Listing.render true "out.asm" assembly) =
      Listing.render false "out.asm" assembly := by
  have hrun : ((Program.ofScan (Scan.ofText listedText)).bind fun p =>
      (Signatures.ofProgram p).bind fun table => (p.code table).bind fun _ =>
        .ok ()) = .ok () := by
    decide +kernel
  obtain ⟨p, assembly, hp, hc, -⟩ := exists_assembly hrun
  exact ⟨assembly, hc, compile_listing_faithful hc (by decide) (by decide)⟩

end Stackwise
