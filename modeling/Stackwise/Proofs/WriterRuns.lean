import Stackwise.Proofs.WrittenTexts

/-! Runs of the writer of assembly.  Operations come in any order, and some of them fail.  What
each one does is said once, and from it follows what runs do: the text only grows, the height that
is kept changes as the lines of the text say, and no label is handed out twice. -/
namespace Stackwise

/-- The operations of a writer of assembly. -/
inductive Operation where
  | push (src : Operand)
  | pop (dst : Reg)
  | release (words : Nat)
  | unwind (words : Nat)
  | beginFrame
  | endFrame (height : Nat)
  | instr (i : Instr)
  | directive (text : String)
  | raw (text : String)
  | newLabel
  | label (l : Label)
  | jump (kind : Jump) (target : Label)
deriving DecidableEq, Repr

inductive Answer where
  | done
  | height (words : Nat)
  | label (l : Label)
deriving DecidableEq, Repr

def Writer.done (m : Writer Unit) : Writer Answer := do
  m
  return .done

theorem Writer.done_of_ok {m : Writer Unit} {a b : Assembly} (h : m a = .ok () b) :
    m.done a = .ok .done b := by
  change EStateM.bind m _ a = _
  rw [EStateM.bind, h]
  rfl

theorem Writer.done_of_error {m : Writer Unit} {a b : Assembly} {e : Error} (h : m a = .error e b) :
    m.done a = .error e b := by
  change EStateM.bind m _ a = _
  rw [EStateM.bind, h]

namespace Operation

def perform : Operation → Writer Answer
  | push src => (Writer.push src).done
  | pop dst => (Writer.pop dst).done
  | release words => (Writer.release words).done
  | unwind words => (Writer.unwind words).done
  | beginFrame => return .height (← Writer.beginFrame)
  | endFrame height => (Writer.endFrame height).done
  | instr i => (Writer.instr i).done
  | directive text => (Writer.directive text).done
  | raw text => (Writer.verbatim text).done
  | newLabel => return .label (← Writer.freshLabel)
  | label l => (Writer.label l).done
  | jump kind target => (Writer.jump kind target).done

section Effect

/-- How many words an operation takes off the stack. -/
def removes : Operation → Nat
  | pop _ => 1
  | release words => words
  | _ => 0

/-- By how many words an operation that succeeds changes the height, but for those on frames. -/
def change : Operation → Int
  | push _ => 1
  | op => -op.removes

/-- The lines that an operation emits if it succeeds. -/
def lines : Operation → Code
  | push src => [.instr (.push src)]
  | pop dst => [.instr (.pop dst)]
  | release words | unwind words => Emit.dropping words
  | instr i => [.instr i]
  | directive text => [.directive text]
  | raw text => [.verbatim text]
  | label l => [.label l]
  | jump kind target => [.instr (.jump kind target)]
  | beginFrame | endFrame _ | newLabel => []

/-- Where the counts stand after an operation that succeeds. -/
def cursor (c : Cursor) : Operation → Cursor
  | push _ => ⟨c.height + 1, c.labels⟩
  | beginFrame => ⟨0, c.labels⟩
  | endFrame height => ⟨height, c.labels⟩
  | newLabel => ⟨c.height, c.labels + 1⟩
  | op => ⟨c.height - op.removes, c.labels⟩

def answer (c : Cursor) : Operation → Answer
  | beginFrame => .height c.height
  | newLabel => .label (.fresh c.labels)
  | _ => .done

/-- All that an operation does: it has done nothing yet when it fails. -/
theorem perform_apply (op : Operation) (a : Assembly) :
    op.perform a =
      if a.cursor.height < op.removes then
        .error ⟨.stackUnderflow op.removes a.cursor.height, 0⟩ a
      else .ok (op.answer a.cursor) ⟨op.cursor a.cursor, a.code ++ op.lines⟩ := by
  cases op with
  | pop dst =>
    have hpop := Writer.shrink_bind_apply 1 (Writer.instr (.pop dst)) a
    split
    next h => exact Writer.done_of_error (hpop.trans (if_neg (Nat.not_le.2 h)))
    next h => exact Writer.done_of_ok (hpop.trans (if_pos (Nat.not_lt.1 h)))
  | release words =>
    have hrelease := Writer.shrink_bind_apply words (Writer.unwind words) a
    split
    next h => exact Writer.done_of_error (hrelease.trans (if_neg (Nat.not_le.2 h)))
    next h =>
      refine Writer.done_of_ok (hrelease.trans ((if_pos (Nat.not_lt.1 h)).trans ?_))
      exact Writer.unwind_apply words _
  | unwind words => exact Writer.done_of_ok (Writer.unwind_apply words a)
  | beginFrame | endFrame | newLabel =>
    have hlines : a.code ++ [] = a.code := List.append_nil _
    simp only [lines, hlines]
    rfl
  | _ => rfl

end Effect

end Operation

namespace Assembly

/-- What a writer answers to an operation, be it an error. -/
def reply (a : Assembly) (op : Operation) : Except Error Answer :=
  match op.perform a with
  | .ok answer _ => .ok answer
  | .error e _ => .error e

/-- The assembly that an operation leaves, also one that fails. -/
def apply (a : Assembly) (op : Operation) : Assembly :=
  match op.perform a with
  | .ok _ b => b
  | .error _ b => b

def run (a : Assembly) (ops : List Operation) : Assembly := ops.foldl apply a

def text (a : Assembly) : List Char := (Code.render a.code).toList

/-- What a later text has after an earlier one. -/
def since (a b : Assembly) : List Char := b.text.drop a.text.length

def written (a : Assembly) : List Operation → List (List Char)
  | [] => []
  | op :: ops => a.since (a.apply op) :: (a.apply op).written ops

def performed (a : Assembly) : List Operation → List Operation
  | [] => []
  | op :: ops =>
    match a.reply op with
    | .ok _ => op :: (a.apply op).performed ops
    | .error _ => (a.apply op).performed ops

def labels (a : Assembly) : List Operation → List Label
  | [] => []
  | op :: ops =>
    match a.reply op with
    | .ok (.label l) => l :: (a.apply op).labels ops
    | _ => (a.apply op).labels ops

variable {a : Assembly} {op : Operation}

theorem apply_of_lt (h : a.cursor.height < op.removes) : a.apply op = a := by
  rw [apply, Operation.perform_apply, if_pos h]

theorem apply_of_le (h : op.removes ≤ a.cursor.height) :
    a.apply op = ⟨op.cursor a.cursor, a.code ++ op.lines⟩ := by
  rw [apply, Operation.perform_apply, if_neg (Nat.not_lt.2 h)]

theorem reply_of_lt (h : a.cursor.height < op.removes) :
    a.reply op = .error ⟨.stackUnderflow op.removes a.cursor.height, 0⟩ := by
  rw [reply, Operation.perform_apply, if_pos h]

theorem reply_of_le (h : op.removes ≤ a.cursor.height) : a.reply op = .ok (op.answer a.cursor) := by
  rw [reply, Operation.perform_apply, if_neg (Nat.not_lt.2 h)]

theorem reply_eq_error : (∃ e, a.reply op = .error e) ↔ a.cursor.height < op.removes := by
  constructor
  · rintro ⟨e, he⟩
    by_contra h
    rw [reply_of_le (Nat.not_lt.1 h)] at he
    cases he
  · exact fun h => ⟨_, reply_of_lt h⟩

theorem text_append (c : Cursor) (code : Code) :
    text ⟨c, a.code ++ code⟩ = a.text ++ (Code.render code).toList := by
  rw [text, text, Code.render, List.map_append, String.join_append, String.toList_append]
  rfl

theorem since_apply : a.since (a.apply op) =
    if a.cursor.height < op.removes then [] else (Code.render op.lines).toList := by
  split
  next h => rw [apply_of_lt h, since, List.drop_length]
  next h => rw [apply_of_le (Nat.not_lt.1 h), since, text_append, List.drop_left]

theorem text_apply : (a.apply op).text = a.text ++ a.since (a.apply op) := by
  rw [since_apply]
  split
  next h => rw [apply_of_lt h, List.append_nil]
  next h => rw [apply_of_le (Nat.not_lt.1 h), text_append]

theorem text_run (ops : List Operation) : ∀ a : Assembly,
    (a.run ops).text = a.text ++ (a.written ops).flatten := by
  induction ops with
  | nil => simp [run, written]
  | cons op ops ih =>
    intro a
    rw [run, List.foldl_cons, ← run, ih, text_apply, written, List.flatten_cons, List.append_assoc]

theorem since_run (a : Assembly) (ops : List Operation) :
    a.since (a.run ops) = (a.written ops).flatten := by
  rw [since, text_run, List.drop_left]

/-- The labels that are handed out are numbered on from those before. -/
theorem exists_labels (ops : List Operation) : ∀ a : Assembly,
    ∃ k, a.labels ops = (List.range' a.cursor.labels k).map .fresh := by
  induction ops with
  | nil => exact fun a => ⟨0, rfl⟩
  | cons op ops ih =>
    intro a
    obtain ⟨k, hk⟩ := ih (a.apply op)
    rcases lt_or_ge a.cursor.height op.removes with h | h
    · refine ⟨k, ?_⟩
      rw [apply_of_lt h] at hk
      simp only [labels, reply_of_lt h, apply_of_lt h, hk]
    · rw [apply_of_le h] at hk
      cases op with
      | newLabel =>
        refine ⟨k + 1, ?_⟩
        simp only [labels, reply_of_le h, apply_of_le h, Operation.answer, hk]
        rfl
      | _ =>
        refine ⟨k, ?_⟩
        simp only [labels, reply_of_le h, apply_of_le h, Operation.answer, hk]
        rfl

end Assembly

namespace Text

/-- By how many words an instruction changes the height of the stack, if it is read as a push, as a
pop or as a release of some bytes. -/
def instrChange (body : List Char) : Int :=
  if ['p', 'u', 's', 'h', ' '].isPrefixOf body then 1
  else if ['p', 'o', 'p', ' '].isPrefixOf body then -1
  else match ['a', 'd', 'd', ' ', 'r', 's', 'p', ',', ' '].isPrefixOf? body with
    | some digits => -((Numeral.readIn? 10 digits).getD 0 / 8 : Nat)
    | none => 0

def lineChange (row : List Char) : Int := instrChange (row.dropWhile isSpace)

def stackChange (text : List Char) : Int := ((lines text).map lineChange).sum

theorem chomp_append {s : List Char} (h : s.getLast? ≠ some '\r') (l : List Char) :
    chomp (s ++ l) = s ++ chomp l := by
  cases l using List.reverseRecOn with
  | nil =>
    have hn : chomp [] = [] := rfl
    rw [hn, List.append_nil, chomp, if_neg h]
  | append_singleton l c =>
    unfold chomp
    rw [← List.append_assoc, List.getLast?_concat, List.getLast?_concat, List.dropLast_concat,
      List.dropLast_concat]
    split <;> simp

/-- A text of whole lines is read before what follows it. -/
theorem lines_whole {s : List Char} (h : s = [] ∨ s.getLast? = some '\n') (t : List Char) :
    lines (s ++ t) = lines s ++ lines t := by
  induction hn : s.length using Nat.strongRecOn generalizing s with
  | ind n ih =>
    rcases h with rfl | h
    · rw [lines_nil]
      rfl
    · obtain ⟨l, rest, rfl, hl⟩ := List.eq_append_cons_of_mem (List.mem_of_getLast? h)
      have hrest : rest = [] ∨ rest.getLast? = some '\n' := by
        cases rest with
        | nil => exact .inl rfl
        | cons c cs =>
          rw [List.getLast?_append_of_ne_nil _ (List.cons_ne_nil _ _)] at h
          exact .inr h
      rw [List.append_assoc, List.cons_append, lines_append hl, lines_append hl,
        ih rest.length (by simp at hn; omega) hrest rfl, List.cons_append]

theorem stackChange_append {s : List Char} (h : s = [] ∨ s.getLast? = some '\n') (t : List Char) :
    stackChange (s ++ t) = stackChange s + stackChange t := by
  rw [stackChange, lines_whole h, List.map_append, List.sum_append]
  rfl

theorem stackChange_nil : stackChange [] = 0 := by
  rw [stackChange, lines_nil]
  rfl

theorem stackChange_flatten {ts : List (List Char)}
    (h : ∀ t ∈ ts, t = [] ∨ t.getLast? = some '\n') :
    stackChange ts.flatten = (ts.map stackChange).sum := by
  induction ts with
  | nil => exact stackChange_nil
  | cons t ts ih =>
    obtain ⟨ht, hts⟩ := List.forall_mem_cons.1 h
    rw [List.flatten_cons, stackChange_append ht, ih hts, List.map_cons, List.sum_cons]

theorem stackChange_line {l : List Char} (h : '\n' ∉ l) :
    stackChange (l ++ ['\n']) = lineChange (chomp l) := by
  rw [stackChange, lines_append h, lines_nil]
  simp

/-- A line is read by what stands after its blanks. -/
theorem lineChange_chomp {s m : List Char} (hs : ∀ c ∈ s, isSpace c)
    (hm : ∃ c ∈ m.head?, isSpace c = false) (hr : m.getLast? ≠ some '\r') (l : List Char) :
    lineChange (chomp (s ++ (m ++ l))) = instrChange (m ++ chomp l) := by
  obtain ⟨c, hc, hsp⟩ := hm
  obtain ⟨cs, rfl⟩ := List.head?_eq_some_iff.1 hc
  have hlast : (s ++ c :: cs).getLast? ≠ some '\r' := by
    rwa [List.getLast?_append_of_ne_nil _ (List.cons_ne_nil _ _)]
  rw [← List.append_assoc, chomp_append hlast, List.append_assoc, lineChange,
    dropWhile_append hs (by simpa using hsp)]

theorem instrChange_push (l : List Char) : instrChange (['p', 'u', 's', 'h', ' '] ++ l) = 1 := by
  simp [instrChange]

theorem instrChange_pop (l : List Char) : instrChange (['p', 'o', 'p', ' '] ++ l) = -1 := by
  simp [instrChange]

theorem instrChange_release (n : Nat) : instrChange
    (['a', 'd', 'd', ' ', 'r', 's', 'p', ',', ' '] ++ Numeral.digits 10 (8 * n)) = -n := by
  simp [instrChange, List.isPrefixOf?, Numeral.readIn?_digits]

theorem instrChange_other {c : Char} (hc : c ≠ 'p' ∧ c ≠ 'a') (cs : List Char) :
    instrChange (c :: cs) = 0 := by
  simp [instrChange, List.isPrefixOf?, Ne.symm hc.1, Ne.symm hc.2]

end Text

namespace Operation

/-- The operation leaves the frame as it is, and if it takes words off the stack, it counts them. -/
def isSteady : Operation → Bool
  | unwind _ | beginFrame | endFrame _ => false
  | _ => true

/-- The operand or the label of the operation has no newline. -/
def isOneLine : Operation → Bool
  | push src => '\n' ∉ src.render.toList
  | label l | jump _ l => '\n' ∉ l.render.toList
  | _ => true

/-- The line of which the caller chooses how it begins. -/
def callerLine? : Operation → Option Line
  | instr i => some (.instr i)
  | directive text => some (.directive text)
  | raw text => some (.verbatim text)
  | label (.named text) => some (.label (.named text))
  | _ => none

/-- The caller writes no stack instruction. -/
def isQuiet (op : Operation) : Bool :=
  op.callerLine?.all fun l => (Text.lines l.render.toList).all fun row => Text.lineChange row = 0

/-- A text that the caller writes consists of whole lines. -/
def endsLine : Operation → Bool
  | raw text => text = "" ∨ text.toList.getLast? = some '\n'
  | _ => true

variable {op : Operation}

theorem stackChange_of_isQuiet (h : op.isQuiet) {l : Line} (hl : op.callerLine? = some l) :
    Text.stackChange l.render.toList = 0 := by
  have hrows : ∀ row ∈ Text.lines l.render.toList, Text.lineChange row = 0 := by
    simpa [isQuiet, hl] using h
  rw [Text.stackChange, List.map_eq_replicate_iff.2 hrows]
  simp

theorem stackChange_instr {i : Instr} {m l : List Char} (h : i.render.toList = m ++ l)
    (hm : ∃ c ∈ m.head?, Text.isSpace c = false) (hr : m.getLast? ≠ some '\r')
    (hn : '\n' ∉ m ++ l) :
    Text.stackChange (Line.render (.instr i)).toList = Text.instrChange (m ++ Text.chomp l) := by
  have hline : (Line.render (.instr i)).toList = [' ', ' ', ' ', ' '] ++ (m ++ l) ++ ['\n'] := by
    simp [Line.render, h]
  have hn' : '\n' ∉ [' ', ' ', ' ', ' '] ++ (m ++ l) := by
    simpa using hn
  rw [hline, Text.stackChange_line hn', Text.lineChange_chomp Line.Reads.indent hm hr]

theorem stackChange_push {src : Operand} (h : '\n' ∉ src.render.toList) :
    Text.stackChange (Line.render (.instr (.push src))).toList = 1 := by
  have hs : (Instr.push src).render.toList = ['p', 'u', 's', 'h', ' '] ++ src.render.toList := by
    simp [Instr.render]
  rw [stackChange_instr hs ⟨'p', rfl, rfl⟩ (by decide) (by simpa using h), Text.instrChange_push]

theorem stackChange_pop (dst : Reg) :
    Text.stackChange (Line.render (.instr (.pop dst))).toList = -1 := by
  have hs : (Instr.pop dst).render.toList = ['p', 'o', 'p', ' '] ++ dst.render.toList := by
    simp [Instr.render]
  have hn : '\n' ∉ dst.render.toList := by cases dst <;> decide
  rw [stackChange_instr hs ⟨'p', rfl, rfl⟩ (by decide) (by simpa using hn), Text.instrChange_pop]

theorem stackChange_release (words : Nat) :
    Text.stackChange (Line.render (.instr (.alu .add (.reg .rsp) (.int (8 * words))))).toList =
      -words := by
  have hs := Line.Reads.toList_render_release words
  rw [Row.releaseMark_eq] at hs
  have hn : '\n' ∉ ['a', 'd', 'd', ' ', 'r', 's', 'p', ',', ' '] ++ Numeral.digits 10 (8 * words) :=
    List.not_mem_append (by decide) (Line.Reads.newline_notMem_digits (by decide) (by decide))
  have hchomp : Text.chomp (Numeral.digits 10 (8 * words)) = Numeral.digits 10 (8 * words) := by
    refine if_neg fun hr => ?_
    obtain ⟨d, hd, he⟩ := Numeral.mem_digits (by decide) _ _ (List.mem_of_getLast? hr)
    exact Numeral.digit_ne (by decide) (by omega) he
  rw [stackChange_instr hs ⟨'a', rfl, rfl⟩ (by decide) hn, hchomp, Text.instrChange_release]

theorem stackChange_jump (kind : Jump) {target : Label} (h : '\n' ∉ target.render.toList) :
    Text.stackChange (Line.render (.instr (.jump kind target))).toList = 0 := by
  obtain ⟨m, hk, hm⟩ : ∃ m, kind.render.toList = 'j' :: m ∧ '\n' ∉ m := by
    cases kind with
    | always => exact ⟨['m', 'p'], by decide, by decide⟩
    | on cond => exact ⟨cond.render.toList, by simp [Jump.render], by cases cond <;> decide⟩
  have hs : (Instr.jump kind target).render.toList =
      ['j'] ++ (m ++ ' ' :: target.render.toList) := by
    simp [Instr.render, hk]
  have hn : '\n' ∉ ['j'] ++ (m ++ ' ' :: target.render.toList) := by
    simpa [hm] using h
  rw [stackChange_instr hs ⟨'j', rfl, rfl⟩ (by decide) hn]
  exact Text.instrChange_other (by decide) _

theorem stackChange_label {l : Label} {c : Char} {cs : List Char} (h : l.render.toList = c :: cs)
    (hc : Text.isSpace c = false ∧ c ≠ 'p' ∧ c ≠ 'a') (hn : '\n' ∉ l.render.toList) :
    Text.stackChange (Line.render (.label l)).toList = 0 := by
  have hline : (Line.render (.label l)).toList = ([] ++ ([c] ++ (cs ++ [':']))) ++ ['\n'] := by
    simp [Line.render, h]
  have hn' : '\n' ∉ ([] : List Char) ++ ([c] ++ (cs ++ [':'])) := by
    simpa [h] using hn
  have hr : [c].getLast? ≠ some '\r' := by
    intro hr
    cases hr
    exact absurd hc.1 (by decide)
  rw [hline, Text.stackChange_line hn',
    Text.lineChange_chomp (List.forall_mem_nil _) ⟨c, rfl, hc.1⟩ hr]
  exact Text.instrChange_other hc.2 _

theorem stackChange_function {name : String} (h : '\n' ∉ (Label.function name).render.toList) :
    Text.stackChange (Line.render (.label (.function name))).toList = 0 := by
  have hs : (Label.function name).render.toList = 'f' :: 'n' :: '_' :: name.toList := by
    simp [Label.render]
  exact stackChange_label hs (by decide) h

theorem stackChange_fresh {index : Nat} (h : '\n' ∉ (Label.fresh index).render.toList) :
    Text.stackChange (Line.render (.label (.fresh index))).toList = 0 := by
  have hs : (Label.fresh index).render.toList =
      'l' :: 'a' :: 'b' :: 'e' :: 'l' :: (Numeral.decimal index).toList := by
    simp [Label.render]
  exact stackChange_label hs (by decide) h

theorem toList_render_singleton (l : Line) : (Code.render [l]).toList = l.render.toList := by
  simp [Code.render]

/-- Every line but one that is taken over as it is ends with a newline. -/
theorem getLast?_render {l : Line} (h : ∀ text, l ≠ .verbatim text) :
    (Code.render [l]).toList.getLast? = some '\n' := by
  have hn : "\n".toList = ['\n'] := rfl
  rw [toList_render_singleton]
  cases l with
  | verbatim text => exact absurd rfl (h text)
  | label l =>
    rw [Line.render, String.toList_append, List.getLast?_append_of_ne_nil _ (by decide)]
    rfl
  | _ => rw [Line.render, String.toList_append, hn, List.getLast?_concat]

theorem whole_of_endsLine (h : op.endsLine) :
    (Code.render op.lines).toList = [] ∨ (Code.render op.lines).toList.getLast? = some '\n' := by
  cases op with
  | raw text =>
    rw [Operation.lines, toList_render_singleton]
    rcases of_decide_eq_true h with rfl | h
    · exact .inl rfl
    · exact .inr h
  | beginFrame | endFrame | newLabel => exact .inl rfl
  | release words | unwind words =>
    rw [Operation.lines, Emit.dropping]
    split
    · exact .inl rfl
    · exact .inr (getLast?_render (by simp))
  | _ => exact .inr (getLast?_render (by simp))

/-- The text of a steady operation shows by how much it changes the height. -/
theorem stackChange_lines (hs : op.isSteady) (ho : op.isOneLine) (hq : op.isQuiet) :
    Text.stackChange (Code.render op.lines).toList = op.change := by
  have hnil : Text.stackChange (Code.render []).toList = 0 := Text.stackChange_nil
  cases op with
  | unwind | beginFrame | endFrame => cases hs
  | push src =>
    rw [lines, toList_render_singleton, stackChange_push (of_decide_eq_true ho)]
    rfl
  | pop dst =>
    rw [lines, toList_render_singleton, stackChange_pop]
    rfl
  | release words =>
    rw [lines, Emit.dropping]
    split
    next hw =>
      rw [hnil, hw]
      rfl
    next =>
      rw [toList_render_singleton, stackChange_release]
      rfl
  | instr | directive | raw =>
    rw [lines, toList_render_singleton]
    exact stackChange_of_isQuiet hq rfl
  | newLabel => exact hnil
  | label l =>
    rw [lines, toList_render_singleton]
    cases l with
    | named text => exact stackChange_of_isQuiet hq rfl
    | function name => exact stackChange_function (of_decide_eq_true ho)
    | fresh index => exact stackChange_fresh (of_decide_eq_true ho)
  | jump kind target =>
    rw [lines, toList_render_singleton]
    exact stackChange_jump kind (of_decide_eq_true ho)

end Operation

namespace Assembly

variable {a : Assembly} {op : Operation}

theorem height_apply (hs : op.isSteady) : ((a.apply op).cursor.height : Int) - a.cursor.height =
    if a.cursor.height < op.removes then 0 else op.change := by
  split
  next h =>
    rw [apply_of_lt h]
    omega
  next h =>
    have hle := Nat.not_lt.1 h
    rw [apply_of_le hle]
    cases op with
    | unwind | beginFrame | endFrame => cases hs
    | push | newLabel => simp [Operation.cursor, Operation.change, Operation.removes]
    | _ =>
      simp only [Operation.cursor, Operation.change, Operation.removes] at hle ⊢
      omega

theorem performed_cons (ops : List Operation) : a.performed (op :: ops) =
    if a.cursor.height < op.removes then (a.apply op).performed ops
    else op :: (a.apply op).performed ops := by
  split
  next h => simp only [performed, reply_of_lt h]
  next h => simp only [performed, reply_of_le (Nat.not_lt.1 h)]

section Stretch

variable {ops : List Operation}

theorem height_run (hs : ∀ op ∈ ops, op.isSteady) : ∀ a : Assembly,
    ((a.run ops).cursor.height : Int) - a.cursor.height =
      ((a.performed ops).map Operation.change).sum := by
  induction ops with
  | nil => exact fun a => by simp [run, performed]
  | cons op ops ih =>
    intro a
    obtain ⟨hop, hops⟩ := List.forall_mem_cons.1 hs
    have hstep := height_apply (a := a) hop
    have hrest := ih hops (a.apply op)
    rw [run, List.foldl_cons, ← run, performed_cons]
    split
    next h =>
      rw [if_pos h] at hstep
      omega
    next h =>
      rw [if_neg h] at hstep
      rw [List.map_cons, List.sum_cons]
      omega

theorem sum_written (hs : ∀ op ∈ ops, op.isSteady ∧ op.isOneLine ∧ op.isQuiet) : ∀ a : Assembly,
    ((a.written ops).map Text.stackChange).sum = ((a.performed ops).map Operation.change).sum := by
  induction ops with
  | nil => exact fun a => rfl
  | cons op ops ih =>
    intro a
    obtain ⟨⟨hop, ho, hq⟩, hops⟩ := List.forall_mem_cons.1 hs
    rw [written, List.map_cons, List.sum_cons, ih hops, since_apply, performed_cons]
    split
    next => rw [Text.stackChange_nil, zero_add]
    next => rw [Operation.stackChange_lines hop ho hq, List.map_cons, List.sum_cons]

theorem written_whole (hw : ∀ op ∈ ops, op.endsLine) : ∀ a : Assembly,
    ∀ t ∈ a.written ops, t = [] ∨ t.getLast? = some '\n' := by
  induction ops with
  | nil => exact fun a => List.forall_mem_nil _
  | cons op ops ih =>
    intro a
    obtain ⟨hop, hops⟩ := List.forall_mem_cons.1 hw
    refine List.forall_mem_cons.2 ⟨?_, ih hops _⟩
    rw [since_apply]
    split
    next => exact .inl rfl
    next => exact Operation.whole_of_endsLine hop

end Stretch

section Labels

theorem render_fresh_injective : Function.Injective fun index => (Label.fresh index).render := by
  intro index index' h
  have ht := congrArg String.toList h
  simp only [Label.render, String.toList_append, List.append_cancel_left_eq,
    String.toList_inj] at ht
  exact Numeral.decimal_injective ht

theorem labels_nodup (a : Assembly) (ops : List Operation) :
    ((a.labels ops).map Label.render).Nodup := by
  obtain ⟨k, hk⟩ := exists_labels ops a
  rw [hk, List.map_map]
  exact (List.nodup_range').map render_fresh_injective

theorem render_ne_function {a : Assembly} {ops : List Operation} {l : Label} (hl : l ∈ a.labels ops)
    (name : String) : l.render ≠ (Label.function name).render := by
  obtain ⟨k, hk⟩ := exists_labels ops a
  rw [hk] at hl
  obtain ⟨index, -, rfl⟩ := List.mem_map.1 hl
  intro h
  have hh := congrArg (·.toList.head?) h
  rw [Label.head?_render_fresh, Label.head?_render_function] at hh
  cases hh

end Labels

/-- Whatever operations came before, the next one only adds to the text.  It fails exactly if it
takes more words off the stack than there are, and then leaves everything as it was.  During steady
operations, failing ones among them, the height changes by what the others say and as the texts
show, each read for itself or, if the caller writes whole lines, all in one.  The labels handed out
are all different as they are written, also from those of functions. -/
theorem run_height_shown (before : List Operation) :
    let a := empty.run before
    (∀ op, a.text <+: (a.apply op).text ∧
      ((∃ e, a.reply op = .error e) ↔ a.cursor.height < op.removes) ∧
      ((∃ e, a.reply op = .error e) → a.apply op = a)) ∧
    (∀ stretch : List Operation, (∀ op ∈ stretch, op.isSteady ∧ op.isOneLine ∧ op.isQuiet) →
      ((a.run stretch).cursor.height : Int) - a.cursor.height =
        ((a.performed stretch).map Operation.change).sum ∧
      ((a.run stretch).cursor.height : Int) - a.cursor.height =
        ((a.written stretch).map Text.stackChange).sum ∧
      ((∀ op ∈ stretch, op.endsLine) →
        ((a.run stretch).cursor.height : Int) - a.cursor.height =
          Text.stackChange (a.since (a.run stretch)))) ∧
    ((empty.labels before).map Label.render).Nodup ∧
    ∀ l ∈ empty.labels before, ∀ name, l.render ≠ (Label.function name).render := by
  intro a
  refine ⟨fun op => ⟨?_, reply_eq_error, ?_⟩, fun stretch hs => ?_, labels_nodup _ _,
    fun l hl => render_ne_function hl⟩
  · rw [text_apply]
    exact List.prefix_append _ _
  · exact fun h => apply_of_lt (reply_eq_error.1 h)
  · have hheight := height_run (fun op hop => (hs op hop).1) a
    have hsum := sum_written hs a
    refine ⟨hheight, hheight.trans hsum.symm, fun hw => ?_⟩
    rw [since_run, Text.stackChange_flatten (written_whole hw _), hheight, hsum]

/-- Operations of which one fails; they leave one word in a new frame. -/
def openingOperations : List Operation :=
  [.push (.reg .rax), .push (.int 7), .newLabel, .pop .rbx, .release 9, .beginFrame,
    .push (.reg .rcx), .newLabel]

/-- A stretch in which a pop and a release fail. -/
def stretchOperations : List Operation :=
  [.pop .rax, .pop .rax, .release 0, .directive "section .data", .raw "a: db 1\nb: db 2\n",
    .push (.text "QWORD [rsp + 8]"), .push (.reg .rdx), .push (.reg .rdx), .release 4, .release 1,
    .instr (.text "nop"), .newLabel, .label (.function "push"), .label (.named "add"),
    .jump (.on .ne) (.fresh 0)]

theorem run_height_shown_openingOperations :
    let a := empty.run openingOperations
    (∀ op ∈ stretchOperations, op.isSteady ∧ op.isOneLine ∧ op.isQuiet) ∧
    (∀ op ∈ stretchOperations, op.endsLine) ∧
    a.cursor.height = 1 ∧ (a.run stretchOperations).cursor.height = 2 ∧
    ((a.written stretchOperations).map Text.stackChange).sum = 1 ∧
    Text.stackChange (a.since (a.run stretchOperations)) = 1 ∧
    (∃ e, a.reply (.release 2) = .error e) ∧ a.apply (.release 2) = a ∧
    empty.labels openingOperations = [.fresh 0, .fresh 1] ∧
    ((empty.labels openingOperations).map Label.render).Nodup := by
  intro a
  have hs : ∀ op ∈ stretchOperations, op.isSteady ∧ op.isOneLine ∧ op.isQuiet := by decide +kernel
  have hw : ∀ op ∈ stretchOperations, op.endsLine := by decide
  have ha : a.cursor.height = 1 := by decide
  have hb : (a.run stretchOperations).cursor.height = 2 := by decide
  obtain ⟨hstep, hstretch, hlabels, -⟩ := run_height_shown openingOperations
  obtain ⟨-, herror, hkeep⟩ := hstep (.release 2)
  obtain ⟨-, hwritten, hsince⟩ := hstretch stretchOperations hs
  have hfail : ∃ e, a.reply (.release 2) = .error e := herror.2 (by decide)
  refine ⟨hs, hw, ha, hb, ?_, ?_, hfail, hkeep hfail, by decide, hlabels⟩
  · rw [← hwritten, ha, hb]
    rfl
  · rw [← hsince hw, ha, hb]
    rfl

end Assembly

end Stackwise
