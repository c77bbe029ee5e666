import Stackwise.Proofs.Numerals
import Stackwise.Text.Quoted

/-! Nested lists as text.  The text of a nested list, of quoted texts and of words without
delimiters is read in one way only: it shows where it ends, whatever follows it, and no other
nested list has it. -/
namespace Stackwise

namespace Numeral

theorem digitValue?_toLower : ∀ d < 16, digitValue? 16 (digit d).toLower = some d := by decide

theorem readIn?_toLower_digits (n : Nat) :
    readIn? 16 ((digits 16 n).map Char.toLower) = some n := by
  have hfold : ((digits 16 n).map Char.toLower).foldlM
      (fun v c => (digitValue? 16 c).map (v * 16 + ·)) 0 = some n := by
    fun_induction digits 16 n with
    | case1 n h ih =>
      rw [List.map_append, List.foldlM_append, ih]
      simp [digitValue?_toLower (n % 16) (Nat.mod_lt n (by decide)), Nat.div_add_mod']
    | case2 n h => simp [digitValue?_toLower n (by omega)]
  rw [← hfold]
  cases h : (digits 16 n).map Char.toLower with
  | nil => exact absurd (List.map_eq_nil_iff.1 h) (digits_ne_nil n)
  | cons c cs => rfl

end Numeral

namespace Text

/-- Reads one character of a quoted text, for the character and what follows it. -/
def unescape? : List Char → Option (Char × List Char)
  | '\\' :: '0' :: rest => some ('\x00', rest)
  | '\\' :: 't' :: rest => some ('\t', rest)
  | '\\' :: 'r' :: rest => some ('\r', rest)
  | '\\' :: 'n' :: rest => some ('\n', rest)
  | '\\' :: '"' :: rest => some ('"', rest)
  | '\\' :: '\\' :: rest => some ('\\', rest)
  | '\\' :: 'u' :: '\x7b' :: rest =>
    (Numeral.readIn? 16 (rest.takeWhile (· ≠ '\x7d'))).map fun n =>
      (.ofNat n, (rest.dropWhile (· ≠ '\x7d')).tail)
  | c :: rest => some (c, rest)
  | [] => none

theorem unescape?_byNumber (c : Char) (rest : List Char) :
    unescape? (byNumber c ++ rest) = some (c, rest) := by
  have hd : ∀ d ∈ (Numeral.digits 16 c.toNat).map Char.toLower, decide (d ≠ '\x7d') = true := by
    have hall : ∀ d < 16, decide ((Numeral.digit d).toLower ≠ '\x7d') = true := by decide
    rw [List.forall_mem_map]
    intro x hx
    obtain ⟨d, hd, rfl⟩ := Numeral.mem_digits (by decide) _ x hx
    exact hall d hd
  simp only [byNumber, List.cons_append, List.nil_append, List.append_assoc, unescape?]
  rw [List.takeWhile_append_of_pos hd, List.dropWhile_append_of_pos hd]
  simp [Numeral.readIn?_toLower_digits]

theorem unescape?_escape (c : Char) (rest : List Char) :
    unescape? (escape c ++ rest) = some (c, rest) := by
  unfold escape
  split
  case h_7 h₀ ht hr hn hq hs =>
    split
    · simp_all [unescape?]
    · exact unescape?_byNumber c rest
  all_goals rfl

/-- No character is written so that it looks like the end of the text. -/
theorem exists_escape (c : Char) : ∃ d ds, escape c = d :: ds ∧ d ≠ '"' := by
  unfold escape
  split
  case h_7 h₀ ht hr hn hq hs =>
    split
    · exact ⟨c, [], rfl, hq⟩
    · exact ⟨'\\', _, rfl, by decide⟩
  all_goals exact ⟨'\\', _, rfl, by decide⟩

theorem flatMap_escape_inj {cs ds r r' : List Char}
    (h : cs.flatMap escape ++ '"' :: r = ds.flatMap escape ++ '"' :: r') : cs = ds ∧ r = r' := by
  induction cs generalizing ds with
  | nil =>
    cases ds with
    | nil => exact ⟨rfl, (List.cons.inj h).2⟩
    | cons d ds =>
      obtain ⟨x, xs, he, hx⟩ := exists_escape d
      rw [List.flatMap_cons, he] at h
      exact absurd (List.cons.inj h).1.symm hx
  | cons c cs ih =>
    cases ds with
    | nil =>
      obtain ⟨x, xs, he, hx⟩ := exists_escape c
      rw [List.flatMap_cons, he] at h
      exact absurd (List.cons.inj h).1 hx
    | cons d ds =>
      rw [List.flatMap_cons, List.flatMap_cons, List.append_assoc, List.append_assoc] at h
      have hu := congrArg unescape? h
      rw [unescape?_escape, unescape?_escape, Option.some.injEq, Prod.mk.injEq] at hu
      obtain ⟨rfl, ht⟩ := hu
      obtain ⟨rfl, rfl⟩ := ih ht
      exact ⟨rfl, rfl⟩

theorem quoted_append_inj {s t : String} {r r' : List Char}
    (h : (quoted s).toList ++ r = (quoted t).toList ++ r') : s = t ∧ r = r' := by
  simp only [quoted, String.toList_ofList, List.cons_append, List.append_assoc, List.nil_append,
    List.cons.injEq, true_and] at h
  obtain ⟨hs, hr⟩ := flatMap_escape_inj h
  exact ⟨String.toList_inj.1 hs, hr⟩

end Text

inductive Bracket where
  | round | square
deriving DecidableEq

namespace Bracket

@[simp] def opening : Bracket → Char
  | round => '('
  | square => '['

@[simp] def closing : Bracket → Char
  | round => ')'
  | square => ']'

end Bracket

/-- Words, quoted texts and lists of these in brackets, to any depth. -/
inductive Nested where
  | word (text : String)
  | quote (text : String)
  | list (bracket : Bracket) (items : List Nested)

namespace Nested

mutual

def text : Nested → List Char
  | .word w => w.toList
  | .quote t => (Text.quoted t).toList
  | .list b items => b.opening :: ((textEach items).tail ++ [b.closing])

def textEach : List Nested → List Char
  | [] => []
  | x :: xs => ' ' :: (x.text ++ textEach xs)

end

attribute [simp] text textEach

def closers : List Char := [' ', '\n', ')', ']']

def openers : List Char := ['(', '[', '"']

def IsPlain (w : String) : Prop := w ≠ "" ∧ ∀ c ∈ w.toList, c ∉ openers ∧ c ∉ closers

instance (w : String) : Decidable (IsPlain w) :=
  decidable_of_iff (w ≠ "" ∧ w.toList.all (fun c => !openers.contains c && !closers.contains c) =
    true) (by simp [IsPlain])

mutual

def Tidy : Nested → Prop
  | .word w => IsPlain w
  | .quote _ => True
  | .list _ items => TidyEach items

def TidyEach : List Nested → Prop
  | [] => True
  | x :: xs => x.Tidy ∧ TidyEach xs

end

theorem tidyEach_iff {xs : List Nested} : TidyEach xs ↔ ∀ x ∈ xs, x.Tidy := by
  induction xs with
  | nil => simp [TidyEach]
  | cons x xs ih => simp [TidyEach, ih]

/-- What may follow an item. -/
def Stops (r : List Char) : Prop := ∀ c ∈ r.head?, c ∈ closers

def opener : Nested → Option Char
  | .word _ => none
  | .quote _ => some '"'
  | .list b _ => some b.opening

/-- The first character of an item tells words, quoted texts and lists apart. -/
theorem exists_text {x : Nested} (h : x.Tidy) :
    ∃ c cs, x.text = c :: cs ∧ c ∉ closers ∧ x.opener = if c ∈ openers then some c else none := by
  cases x with
  | word w =>
    obtain ⟨hne, hc⟩ := h
    obtain ⟨c, cs, hw⟩ := List.exists_cons_of_ne_nil (mt String.toList_eq_nil_iff.1 hne)
    obtain ⟨ho, hc⟩ := hc c (by simp [hw])
    exact ⟨c, cs, hw, hc, (if_neg ho).symm⟩
  | quote t =>
    exact ⟨'"', _, by rw [text, Text.quoted, String.toList_ofList]; rfl, by decide, rfl⟩
  | list b items => exact ⟨b.opening, _, by rw [text], by cases b <;> decide, by cases b <;> rfl⟩

theorem opener_eq {x y : Nested} (hx : x.Tidy) (hy : y.Tidy) {r r' : List Char}
    (h : x.text ++ r = y.text ++ r') : x.opener = y.opener := by
  obtain ⟨c, cs, hc, -, ho⟩ := exists_text hx
  obtain ⟨d, ds, hd, -, ho'⟩ := exists_text hy
  rw [hc, hd] at h
  rw [ho, ho', (List.cons.inj h).1]

/-- An item whose text is that of no other, whatever follows. -/
def Unique (x : Nested) : Prop := ∀ y : Nested, y.Tidy → ∀ r r', Stops r → Stops r' →
  x.text ++ r = y.text ++ r' → x = y ∧ r = r'

/-- Items with a character between them. -/
def joined (sep : Char) (xs : List Nested) : List Char := (xs.flatMap fun x => sep :: x.text).tail

theorem textEach_eq (xs : List Nested) : textEach xs = xs.flatMap fun x => ' ' :: x.text := by
  induction xs with
  | nil => rw [textEach, List.flatMap_nil]
  | cons x xs ih => rw [textEach, ih, List.flatMap_cons, List.cons_append]

theorem intercalate_text (sep : Char) (xs : List Nested) :
    [sep].intercalate (xs.map text) = joined sep xs := by
  cases xs with
  | nil => rfl
  | cons x xs =>
    induction xs generalizing x with
    | nil => simp [joined]
    | cons y ys ih =>
      have hy := ih y
      simp only [joined, List.map_cons, List.flatMap_cons, List.cons_append, List.tail_cons] at hy ⊢
      rw [List.intercalate_cons_cons, hy, List.append_assoc, List.singleton_append]

section Lists

variable {sep : Char} (hsep : sep ∈ closers) {xs ys : List Nested} {r r' : List Char}

include hsep

theorem stops_flatMap (hr : Stops r) : Stops ((xs.flatMap fun x => sep :: x.text) ++ r) := by
  cases xs with
  | nil => exact hr
  | cons x xs => simpa [Stops] using hsep

theorem flatMap_inj (hx : ∀ x ∈ xs, x.Unique) (hy : ∀ y ∈ ys, y.Tidy) (hr : Stops r)
    (hr' : Stops r') (hs : r.head? ≠ some sep) (hs' : r'.head? ≠ some sep)
    (h : (xs.flatMap fun x => sep :: x.text) ++ r = (ys.flatMap fun y => sep :: y.text) ++ r') :
    xs = ys ∧ r = r' := by
  induction xs generalizing ys with
  | nil =>
    cases ys with
    | nil => exact ⟨rfl, h⟩
    | cons y ys => exact absurd (congrArg List.head? h) hs
  | cons x xs ih =>
    cases ys with
    | nil => exact absurd (congrArg List.head? h).symm hs'
    | cons y ys =>
      rw [List.forall_mem_cons] at hx hy
      simp only [List.flatMap_cons, List.cons_append, List.append_assoc, List.cons.injEq,
        true_and] at h
      obtain ⟨rfl, ht⟩ := hx.1 y hy.1 _ _ (stops_flatMap hsep hr) (stops_flatMap hsep hr') h
      obtain ⟨rfl, rfl⟩ := ih hx.2 hy.2 ht
      exact ⟨rfl, rfl⟩

theorem joined_inj (hx : ∀ x ∈ xs, x.Tidy ∧ x.Unique) (hy : ∀ y ∈ ys, y.Tidy) (hr : Stops r)
    (hr' : Stops r') (hs : r.head? ≠ some sep) (hs' : r'.head? ≠ some sep)
    (h : joined sep xs ++ r = joined sep ys ++ r') : xs = ys ∧ r = r' := by
  have hne {x : Nested} {zs : List Nested} {r r' : List Char} (hx : x.Tidy) (hr : Stops r)
      (h : r = joined sep (x :: zs) ++ r') : False := by
    obtain ⟨c, cs, ht, hc, -⟩ := exists_text hx
    refine hc (hr c ?_)
    rw [h, joined, List.flatMap_cons, List.cons_append, List.tail_cons, ht]
    rfl
  cases xs with
  | nil =>
    cases ys with
    | nil => exact ⟨rfl, h⟩
    | cons y ys => exact (hne (List.forall_mem_cons.1 hy).1 hr h).elim
  | cons x xs =>
    cases ys with
    | nil => exact (hne (List.forall_mem_cons.1 hx).1.1 hr' h.symm).elim
    | cons y ys =>
      refine flatMap_inj hsep (fun z hz => (hx z hz).2) hy hr hr' hs hs' ?_
      simpa [joined] using h

end Lists

/-- A word ends where the first delimiter stands. -/
theorem word_append_inj {w v : String} {r r' : List Char} (hw : IsPlain w) (hv : IsPlain v)
    (hr : Stops r) (hr' : Stops r') (h : w.toList ++ r = v.toList ++ r') : w = v ∧ r = r' := by
  have hspan {u : String} {s : List Char} (hu : IsPlain u) (hs : Stops s) :
      (u.toList ++ s).takeWhile (· ∉ closers) = u.toList := by
    rw [List.takeWhile_append_of_pos fun c hc => by simpa using (hu.2 c hc).2]
    cases s with
    | nil => simp
    | cons c cs => simp [hs c rfl]
  have ht : w.toList = v.toList := by rw [← hspan hw hr, h, hspan hv hr']
  rw [ht] at h
  exact ⟨String.toList_inj.1 ht, List.append_cancel_left h⟩

mutual

/-- An item has its text alone, and shows where it ends. -/
theorem unique : (x : Nested) → x.Tidy → x.Unique
  | .word w, hx => by
    intro y hy r r' hr hr' h
    have ho := opener_eq hx hy h
    cases y with
    | word v =>
      obtain ⟨rfl, hrest⟩ := word_append_inj hx hy hr hr' h
      exact ⟨rfl, hrest⟩
    | quote t => cases ho
    | list b items => cases ho
  | .quote t, hx => by
    intro y hy r r' hr hr' h
    have ho := opener_eq hx hy h
    cases y with
    | word v => cases ho
    | quote t' =>
      obtain ⟨rfl, hrest⟩ := Text.quoted_append_inj h
      exact ⟨rfl, hrest⟩
    | list b items => cases b <;> cases ho
  | .list b items, hx => by
    intro y hy r r' hr hr' h
    have ho := opener_eq hx hy h
    cases y with
    | word v => cases ho
    | quote t => cases b <;> cases ho
    | list b' items' =>
      obtain rfl : b = b' := by cases b <;> cases b' <;> first | rfl | cases ho
      have hend (r : List Char) : Stops (b.closing :: r) ∧ (b.closing :: r).head? ≠ some ' ' := by
        cases b <;> simp [Stops, Bracket.closing, closers]
      simp only [text, List.cons_append, List.append_assoc, List.nil_append, List.cons.injEq,
        true_and, textEach_eq] at h
      have hitems := tidyEach_iff.1 hx
      have hsep : ' ' ∈ closers := by decide
      obtain ⟨rfl, hrest⟩ := joined_inj hsep (fun x hm => ⟨hitems x hm, uniqueEach items hx x hm⟩)
        (tidyEach_iff.1 hy) (hend r).1 (hend r').1 (hend r).2 (hend r').2 h
      exact ⟨rfl, (List.cons.inj hrest).2⟩

theorem uniqueEach : (xs : List Nested) → TidyEach xs → ∀ x ∈ xs, x.Unique
  | [], _ => List.forall_mem_nil _
  | x :: xs, h => List.forall_mem_cons.2 ⟨unique x h.1, uniqueEach xs h.2⟩

end

end Nested

end Stackwise
