import Mathlib.Data.List.DropRight
import Mathlib.Data.List.TakeWhile
import Wifimodem.Core.StrView

/-!
# The text of a view

What an operation does to a view is decided by the characters in it, and is what
the operation of the same name does to a list of characters.
-/

namespace Wifimodem

namespace Str

def textFrom (mem : Nat → UInt8) : Nat → Nat → List UInt8
  | _, 0 => []
  | ptr, len + 1 => mem ptr :: textFrom mem (ptr + 1) len

/-- The characters of a view. -/
def text (mem : Nat → UInt8) (s : Str) : List UInt8 := textFrom mem s.ptr s.len

/-- The end of a view, as long as `rest`. -/
def after (s : Str) (rest : List UInt8) : Str := ⟨s.ptr + (s.len - rest.length), rest.length⟩

end Str

def Pattern.text (mem : Nat → UInt8) : Pattern → List UInt8
  | .view _ p => p.text mem
  | .literal p => p

namespace Str

open Traced

variable {mem mem' : Nat → UInt8} {s t : Str} {ptr len n i : Nat} {w rest rest' : List UInt8}

@[simp] theorem length_textFrom (mem : Nat → UInt8) (ptr len : Nat) :
    (textFrom mem ptr len).length = len := by
  induction len generalizing ptr with
  | zero => rfl
  | succ len ih => exact congrArg (· + 1) (ih (ptr + 1))

@[simp] theorem length_text (mem : Nat → UInt8) (s : Str) : (s.text mem).length = s.len :=
  length_textFrom mem s.ptr s.len

theorem textFrom_add (mem : Nat → UInt8) (ptr m n : Nat) :
    textFrom mem ptr (m + n) = textFrom mem ptr m ++ textFrom mem (ptr + m) n := by
  induction m generalizing ptr with
  | zero =>
    rw [Nat.zero_add]
    rfl
  | succ m ih =>
    have hptr : ptr + 1 + m = ptr + (m + 1) := by omega
    rw [Nat.add_right_comm, textFrom, ih, textFrom, hptr]
    rfl

theorem textFrom_congr (h : ∀ i, ptr ≤ i → i < ptr + len → mem' i = mem i) :
    textFrom mem' ptr len = textFrom mem ptr len := by
  induction len generalizing ptr with
  | zero => rfl
  | succ len ih =>
    rw [textFrom, textFrom, h ptr (Nat.le_refl _) (by omega)]
    rw [ih fun i hlo hhi => h i (by omega) (by omega)]

theorem textFrom_split (mem : Nat → UInt8) (ptr : Nat) {pos len : Nat} (h : pos ≤ len) :
    textFrom mem ptr pos = (textFrom mem ptr len).take pos ∧
      textFrom mem (ptr + pos) (len - pos) = (textFrom mem ptr len).drop pos := by
  have hsum : len = pos + (len - pos) := by omega
  have hjoin : textFrom mem ptr len =
      textFrom mem ptr pos ++ textFrom mem (ptr + pos) (len - pos) := by
    rw [← textFrom_add, ← hsum]
  rw [hjoin]
  constructor
  · rw [List.take_append_of_le_length (by simp), List.take_of_length_le (by simp)]
  · rw [List.drop_append, List.drop_of_length_le (by simp), length_textFrom, Nat.sub_self]
    rfl

theorem text_after (h : rest <:+ s.text mem) : (s.after rest).text mem = rest := by
  obtain ⟨front, hfront⟩ := h
  have hlen : front.length + rest.length = s.len := by
    rw [← List.length_append, hfront, length_text]
  have hdrop : (s.text mem).drop (s.len - rest.length) = rest := by
    have hpos : s.len - rest.length = front.length := by omega
    rw [hpos, ← hfront, List.drop_left]
  rw [← hdrop]
  have hpart := (textFrom_split mem s.ptr (Nat.sub_le s.len rest.length)).2
  have hback : s.len - (s.len - rest.length) = rest.length := by omega
  rw [hback] at hpart
  rw [text, text, ← hpart, after]
  simp

theorem after_text (mem : Nat → UInt8) (s : Str) : s.after (s.text mem) = s := by
  simp [after]

theorem after_after (h : rest'.length ≤ rest.length) (hs : rest.length ≤ s.len) :
    (s.after rest).after rest' = s.after rest' := by
  simp only [after, Str.mk.injEq, and_true]
  omega

theorem after_succ (ptr : Nat) (h : rest.length ≤ len) :
    after ⟨ptr + 1, len⟩ rest = after ⟨ptr, len + 1⟩ rest := by
  simp only [after, Str.mk.injEq, and_true]
  omega

theorem after_cons (ptr : Nat) (c : UInt8) :
    after ⟨ptr, len + 1⟩ (c :: textFrom mem (ptr + 1) len) = ⟨ptr, len + 1⟩ := by
  simp [after]

theorem skip_eq (mem : Nat → UInt8) (s : Str) (num : Nat) :
    s.skip num = s.after (strSkip (s.text mem) num) := by
  simp only [skip, after, strSkip, clip_gt, List.length_drop, length_text, Str.mk.injEq]
  omega

theorem split_eq (mem : Nat → UInt8) (s : Str) {pos : Nat} (h : pos ≤ s.len) :
    (s.split pos).1 = s.after ((s.text mem).drop pos) ∧
      (s.split pos).2.text mem = (s.text mem).take pos := by
  simp only [split, clip_gt, Nat.min_eq_left h]
  constructor
  · have hback : s.len - (s.len - pos) = pos := Nat.sub_sub_self h
    rw [after, List.length_drop, length_text, hback]
  · exact (textFrom_split mem s.ptr h).1

theorem ltrimLoop_eq (mem : Nat → UInt8) (pred : UInt8 → Bool) (ptr len : Nat) :
    (ltrimLoop mem pred ptr len).value =
      after ⟨ptr, len⟩ ((textFrom mem ptr len).dropWhile pred) := by
  induction len generalizing ptr with
  | zero => rfl
  | succ len ih =>
    rw [ltrimLoop, value_bind, textFrom, List.dropWhile_cons]
    have hread : (read mem ptr).value = mem ptr := rfl
    rw [hread]
    split
    · have hle := List.length_dropWhile_le pred (textFrom mem (ptr + 1) len)
      rw [length_textFrom] at hle
      rw [ih, after_succ ptr hle]
    · exact (after_cons ptr _).symm

theorem ltrim_eq (mem : Nat → UInt8) (s : Str) :
    (s.ltrim mem).value = s.after (strLtrim (s.text mem)) := ltrimLoop_eq mem isspace s.ptr s.len

theorem rtrimLoop_eq (mem : Nat → UInt8) (pred : UInt8 → Bool) (ptr len : Nat) :
    (rtrimLoop mem pred ptr len).value =
      ⟨ptr, ((textFrom mem ptr len).rdropWhile pred).length⟩ := by
  induction len with
  | zero => rfl
  | succ len ih =>
    rw [rtrimLoop, value_bind, textFrom_add]
    have hread : (read mem (ptr + (len + 1 - 1))).value = mem (ptr + len) := rfl
    have hlast : textFrom mem (ptr + len) 1 = [mem (ptr + len)] := rfl
    rw [hread, hlast]
    split
    · rename_i hpred
      rw [List.rdropWhile_concat_pos pred _ _ hpred, ih]
    · rename_i hpred
      rw [List.rdropWhile_concat_neg pred _ _ hpred, List.length_append, length_textFrom]
      rfl

theorem trim_text (mem : Nat → UInt8) (s : Str) :
    (s.trim mem).value.text mem = (strLtrim (s.text mem)).rdropWhile isspace := by
  have hsuffix : strLtrim (s.text mem) <:+ s.text mem := List.dropWhile_suffix isspace
  have hleft := text_after hsuffix
  rw [trim, value_bind, ltrim_eq, rtrim, rtrimLoop_eq, ← text, hleft]
  generalize strLtrim (s.text mem) = w at hleft
  have hprefix : w.rdropWhile isspace <+: w := List.rdropWhile_prefix isspace w
  have hle : (w.rdropWhile isspace).length ≤ (s.after w).len := hprefix.length_le
  have hpart := (textFrom_split mem (s.after w).ptr hle).1
  rw [text, hpart, ← text, hleft]
  exact (List.prefix_iff_eq_take.mp hprefix).symm

theorem spanLoop_eq (mem : Nat → UInt8) (test : UInt8 → Bool) (ptr n pos : Nat) :
    (spanLoop mem test ptr n pos).value =
      pos + ((textFrom mem (ptr + pos) n).takeWhile test).length := by
  induction n generalizing pos with
  | zero => rfl
  | succ n ih =>
    rw [spanLoop, value_bind, textFrom, List.takeWhile_cons]
    have hread : (read mem (ptr + pos)).value = mem (ptr + pos) := rfl
    rw [hread]
    split
    · rw [ih, List.length_cons, Nat.add_assoc ptr pos 1]
      omega
    · rfl

theorem spanBy_eq (mem : Nat → UInt8) (s : Str) (test : UInt8 → Bool) :
    (spanBy mem s test).value.1 = s.after ((s.text mem).dropWhile test) ∧
      (spanBy mem s test).value.2.text mem = (s.text mem).takeWhile test := by
  have hpos := spanLoop_eq mem test s.ptr s.len 0
  rw [Nat.zero_add] at hpos
  have hle : ((s.text mem).takeWhile test).length ≤ s.len := by
    have hsub := (List.takeWhile_prefix (l := s.text mem) test).length_le
    rwa [length_text] at hsub
  rw [spanBy, value_bind, hpos, value_pure]
  obtain ⟨hrest, hpart⟩ := split_eq mem s hle
  constructor
  · refine hrest.trans (congrArg s.after ?_)
    nth_rewrite 2 [← List.takeWhile_append_dropWhile (p := test) (l := s.text mem)]
    rw [List.drop_left]
  · exact hpart.trans (List.prefix_iff_eq_take.mp (List.takeWhile_prefix test)).symm

/-! ## Comparing -/

theorem length_pattern (mem : Nat → UInt8) (p : Pattern) : (p.text mem).length = p.len := by
  cases p with
  | view operand p => exact length_text mem p
  | literal p => rfl

theorem drop_pattern (mem : Nat → UInt8) (p : Pattern) (hi : i < p.len) :
    (p.text mem).drop i = (p.get mem i).value :: (p.text mem).drop (i + 1) := by
  cases p with
  | view operand p =>
    have hpart := fun j (hj : j ≤ p.len) => (textFrom_split mem p.ptr hj).2
    have hlen : p.len - i = p.len - (i + 1) + 1 := by
      rw [Pattern.len] at hi
      omega
    rw [Pattern.text, text, ← hpart i (Nat.le_of_lt hi), ← hpart (i + 1) hi, hlen]
    rfl
  | literal p =>
    rw [Pattern.len] at hi
    rw [Pattern.text, List.drop_eq_getElem_cons hi, Pattern.get, value_pure,
      List.getD_eq_getElem?_getD, List.getElem?_eq_getElem hi]
    rfl

theorem strncmp_eq (mem : Nat → UInt8) (fold : UInt8 → UInt8) (p : Pattern)
    (hn : i + n = p.len) (hlen : n ≤ len) :
    decide ((strncmp mem fold ptr p n i).value = 0) =
      strnEq fold (textFrom mem (ptr + i) len) ((p.text mem).drop i) := by
  induction n generalizing i len with
  | zero =>
    have hnil : (p.text mem).drop i = [] := by
      apply List.drop_of_length_le
      rw [length_pattern]
      omega
    rw [hnil]
    cases len <;> rfl
  | succ n ih =>
    obtain ⟨len, rfl⟩ := Nat.exists_eq_succ_of_ne_zero (Nat.ne_zero_of_lt (Nat.lt_of_succ_le hlen))
    rw [drop_pattern mem p (by omega), textFrom, strnEq, strncmp, value_bind, value_bind]
    have hread : (read mem (ptr + i)).value = mem (ptr + i) := rfl
    rw [hread]
    split
    · rename_i hne
      rw [decide_eq_false hne, Bool.false_and]
      apply decide_eq_false
      rw [value_pure]
      intro hzero
      apply hne
      apply UInt8.toNat_inj.mp
      omega
    split
    · rename_i heq hzero
      rw [not_not.mp heq, decide_eq_true rfl, decide_eq_true hzero]
      rfl
    · rename_i heq hzero
      rw [not_not.mp heq, decide_eq_true rfl, decide_eq_false hzero, Nat.add_assoc]
      exact ih (by omega) (by omega)

theorem matchBy_eq (mem : Nat → UInt8) (fold : UInt8 → UInt8) (s : Str) (p : Pattern) :
    (matchBy mem fold s p).value =
      if (p.text mem).length > (s.text mem).length then false
      else strnEq fold (s.text mem) (p.text mem) := by
  rw [matchBy, length_pattern, length_text]
  split
  · rfl
  · rename_i hle
    exact strncmp_eq mem fold p (Nat.zero_add _) (Nat.not_lt.mp hle)

theorem strMatch_eq (mem : Nat → UInt8) (s : Str) (p : Pattern) :
    (s.strMatch mem p).value = Wifimodem.strMatch (s.text mem) (p.text mem) :=
  matchBy_eq mem id s p

theorem strMatchi_eq (mem : Nat → UInt8) (s : Str) (p : Pattern) :
    (s.strMatchi mem p).value = Wifimodem.strMatchi (s.text mem) (p.text mem) :=
  matchBy_eq mem tolower s p

theorem strAccept_suffix (w p : List UInt8) : (strAccept w p).1 <:+ w := by
  rw [strAccept]
  split
  · exact List.drop_suffix _ _
  · exact List.suffix_rfl

theorem accept_eq (mem : Nat → UInt8) (s : Str) (p : Pattern) :
    (s.accept mem p).value =
      (s.after (strAccept (s.text mem) (p.text mem)).1, (strAccept (s.text mem) (p.text mem)).2) := by
  have hmatch := strMatch_eq mem s p
  rw [accept, acceptBy, value_bind, ← strMatch, hmatch, strAccept]
  split
  · rw [value_pure, skip_eq mem, length_pattern]
  · rw [value_pure, after_text]

/-! ## Cutting at delimiters -/

def outside (stop : List UInt8) (c : UInt8) : Bool := !strchr stop c

theorem outside_eq (stop : List UInt8) {c : UInt8} (hc : c ≠ 0) :
    outside stop c = !stop.contains c := by
  rw [outside, strchr, decide_eq_false hc, Bool.false_or]

/-- In a text without a zero, a part ends at one of its delimiters. -/
theorem dropWhile_outside (stop : List UInt8) (h : 0 ∉ w) :
    ∀ c ∈ (w.dropWhile (outside stop)).head?, c ∈ stop := by
  induction w with
  | nil =>
    intro c hc
    cases hc
  | cons d w ih =>
    have hd : d ≠ 0 := fun hd => h (hd ▸ List.mem_cons_self)
    rw [List.dropWhile_cons]
    split
    · exact ih fun hw => h (List.mem_cons_of_mem d hw)
    · rename_i hout
      intro c hc
      obtain rfl := Option.some.inj hc
      rw [outside_eq stop hd] at hout
      simpa using hout

theorem cspan_texts (mem : Nat → UInt8) (s : Str) (stop : List UInt8) :
    ∃ rest part, (s.cspan mem stop).value = (rest, part) ∧
      rest.text mem = (s.text mem).dropWhile (outside stop) ∧
      part.text mem = (s.text mem).takeWhile (outside stop) := by
  obtain ⟨hrest, hpart⟩ := spanBy_eq mem s (outside stop)
  exact ⟨_, _, rfl,
    (congrArg (Str.text mem) hrest).trans (text_after (List.dropWhile_suffix _)), hpart⟩

theorem accept_texts (mem : Nat → UInt8) (s : Str) (lead : List UInt8) :
    (∃ rest, (s.accept mem (.literal lead)).value = (rest, true) ∧
        strAccept (s.text mem) lead = (rest.text mem, true)) ∨
      (∃ rest, (s.accept mem (.literal lead)).value = (rest, false) ∧ rest.text mem = s.text mem ∧
        strAccept (s.text mem) lead = (s.text mem, false)) := by
  rw [accept_eq, Pattern.text]
  have hsuffix := strAccept_suffix (s.text mem) lead
  have hfalse : (strAccept (s.text mem) lead).2 = false →
      strAccept (s.text mem) lead = (s.text mem, false) := by
    rw [strAccept]
    split
    · intro h
      cases h
    · exact fun _ => rfl
  generalize strAccept (s.text mem) lead = t at hsuffix hfalse ⊢
  obtain ⟨rest, found⟩ := t
  have htext : (s.after rest).text mem = rest := text_after hsuffix
  cases found with
  | true => exact .inl ⟨s.after rest, rfl, by rw [htext]⟩
  | false =>
    have hrest := hfalse rfl
    exact .inr ⟨s.after rest, rfl, htext.trans (congrArg Prod.fst hrest), hrest⟩

/-! ## Reading numbers -/

theorem readDigits_length (radix value : Nat) (valid : Bool) (w : List UInt8) :
    (readDigits radix value valid w).1.length ≤ w.length := by
  induction w generalizing value valid with
  | nil => exact Nat.le_refl _
  | cons c w ih =>
    rw [readDigits]
    split
    · exact Nat.le_refl _
    split
    · exact Nat.le_refl _
    · exact Nat.le_succ_of_le (ih _ _)

theorem digitsLoop_eq (mem : Nat → UInt8) (radix ptr len value : Nat) (valid : Bool) :
    (digitsLoop mem radix ptr len value valid).value =
      (after ⟨ptr, len⟩ (readDigits radix value valid (textFrom mem ptr len)).1,
        (readDigits radix value valid (textFrom mem ptr len)).2) := by
  induction len generalizing ptr value valid with
  | zero => rfl
  | succ len ih =>
    rw [digitsLoop, value_bind, textFrom, readDigits]
    have hread : (read mem ptr).value = mem ptr := rfl
    rw [hread]
    cases digitValue (mem ptr) with
    | none => simp only [value_pure, after_cons]
    | some v =>
      simp only
      split
      · simp only [value_pure, after_cons]
      · have hle := readDigits_length radix ((value * radix + v) % 2 ^ 64) true
          (textFrom mem (ptr + 1) len)
        rw [length_textFrom] at hle
        rw [ih, after_succ ptr hle]

theorem readu64_eq (mem : Nat → UInt8) (s : Str) (r : Nat) :
    (s.readu64 mem r).value =
      (s.after (strReadu64 (s.text mem) r).1, (strReadu64 (s.text mem) r).2) := by
  rw [readu64, strReadu64]
  split
  · rw [value_pure, after_text]
  · exact digitsLoop_eq mem _ s.ptr s.len 0 false

theorem readu32_eq (mem : Nat → UInt8) (s : Str) (r : Nat) :
    (s.readu32 mem r).value =
      (s.after (strReadu32 (s.text mem) r).1, (strReadu32 (s.text mem) r).2) := by
  have hread := readu64_eq mem s r
  rw [readu32, readuMax, value_bind, hread, strReadu32]
  rfl

/-! ## Reading into a buffer -/

/-- What is left of a text after a word has been read, and the word. -/
def readstrChars (delm : List UInt8) : Bool → List UInt8 → List UInt8 × List UInt8
  | _, [] => ([], [])
  | true, c :: w =>
    let (rest, word) := readstrChars delm false w
    (rest, unescape c :: word)
  | false, c :: w =>
    if c = '\\' then readstrChars delm true w
    else if strchr delm c then (c :: w, [])
    else
      let (rest, word) := readstrChars delm false w
      (rest, c :: word)

theorem readstrChars_suffix (delm : List UInt8) (esc : Bool) (w : List UInt8) :
    (readstrChars delm esc w).1 <:+ w := by
  induction w generalizing esc with
  | nil => cases esc <;> exact List.suffix_rfl
  | cons c w ih =>
    have htail : w <:+ c :: w := List.suffix_cons c w
    cases esc with
    | true => exact (ih false).trans htail
    | false =>
      rw [readstrChars]
      split
      · exact (ih true).trans htail
      split
      · exact List.suffix_rfl
      · exact (ih false).trans htail

/-- A word is never longer than what it was read from. -/
theorem readstrChars_length (delm : List UInt8) (esc : Bool) (w : List UInt8) :
    (readstrChars delm esc w).1.length + (readstrChars delm esc w).2.length ≤ w.length := by
  induction w generalizing esc with
  | nil => cases esc <;> exact Nat.le_refl _
  | cons c w ih =>
    cases esc with
    | true =>
      have hlen := ih false
      simp only [readstrChars, List.length_cons]
      omega
    | false =>
      rw [readstrChars]
      split
      · exact Nat.le_succ_of_le (ih true)
      split
      · exact Nat.le_refl _
      · have hlen := ih false
        simp only [List.length_cons]
        omega

/-- The characters are stored from `addr` on, and nothing else changes. -/
structure Stores (mem mem' : Nat → UInt8) (addr : Nat) (word : List UInt8) : Prop where
  stored : textFrom mem' addr word.length = word
  frame : ∀ a, a < addr ∨ addr + word.length ≤ a → mem' a = mem a

theorem stores_nil (mem : Nat → UInt8) (addr : Nat) : Stores mem mem addr [] where
  stored := rfl
  frame := fun _ _ => rfl

theorem stores_cons {addr : Nat} {c : UInt8} {word : List UInt8}
    (h : Stores (Function.update mem addr c) mem' (addr + 1) word) :
    Stores mem mem' addr (c :: word) where
  stored := by
    rw [List.length_cons, textFrom, h.stored, h.frame addr (.inl (Nat.lt_succ_self _)),
      Function.update_self]
  frame := by
    intro a ha
    rw [List.length_cons] at ha
    have hne : a ≠ addr := by omega
    rw [h.frame a (by omega), Function.update_of_ne hne]

/-- Stores from `buf` on never reach a character of `s` before it is read. -/
def Behind (buf : Nat) (s : Str) : Prop := ∀ j i, j < i → i < s.len → buf + j ≠ s.ptr + i

/-- The same for the first `room` stores only. -/
def BehindWithin (room buf : Nat) (s : Str) : Prop :=
  ∀ j i, j < room → j < i → i < s.len → buf + j ≠ s.ptr + i

theorem Behind.within {buf : Nat} (h : Behind buf s) (room : Nat) : BehindWithin room buf s :=
  fun j i _ hji hi => h j i hji hi

theorem BehindWithin.mono {room room' buf : Nat} (h : BehindWithin room buf s)
    (hle : room' ≤ room) : BehindWithin room' buf s :=
  fun j i hj hji hi => h j i (Nat.lt_of_lt_of_le hj hle) hji hi

theorem BehindWithin.after {room buf : Nat} (h : BehindWithin room buf s)
    (hle : rest.length ≤ s.len) : BehindWithin room buf (s.after rest) := by
  intro j i hj hji hi
  simp only [Str.after] at hi ⊢
  have hne := h j (s.len - rest.length + i) hj (by omega) (by omega)
  omega

theorem BehindWithin.succ {room addr : Nat} (h : BehindWithin room addr ⟨ptr, len + 1⟩) :
    BehindWithin room addr ⟨ptr + 1, len⟩ := by
  intro j i hj hji hi
  have hne : addr + j ≠ ptr + (i + 1) :=
    h j (i + 1) hj (Nat.lt_succ_of_lt hji) (Nat.succ_lt_succ hi)
  simp only
  omega

theorem BehindWithin.store {room addr : Nat} (h : BehindWithin (room + 1) addr ⟨ptr, len + 1⟩) :
    BehindWithin room (addr + 1) ⟨ptr + 1, len⟩ := by
  intro j i hj hji hi
  have hne : addr + (j + 1) ≠ ptr + (i + 1) :=
    h (j + 1) (i + 1) (Nat.succ_lt_succ hj) (Nat.succ_lt_succ hji) (Nat.succ_lt_succ hi)
  simp only
  omega

theorem stores_after {buf : Nat} {word : List UInt8} (h : Stores mem mem' buf word)
    (hbehind : BehindWithin word.length buf s) (hlen : rest.length + word.length ≤ s.len)
    (hrest : rest <:+ s.text mem) : (s.after rest).text mem' = rest := by
  refine Eq.trans ?_ (text_after hrest)
  apply textFrom_congr
  intro a hlo hhi
  simp only [Str.after] at hlo hhi
  apply h.frame
  have hne := hbehind (a - buf) (a - s.ptr)
  omega

/-- There is room for the word; for the whole text, where it ends within the word. -/
def HasRoom (room : Nat) (w : List UInt8) (read : List UInt8 × List UInt8) : Prop :=
  w.length ≤ room ∨ read.1 ≠ [] ∧ read.2.length ≤ room

/-- Without any room the word is empty, and a delimiter is in front. -/
theorem readstrChars_full {delm : List UInt8} {esc : Bool}
    (h : HasRoom 0 w (readstrChars delm esc w)) : readstrChars delm esc w = (w, []) ∨ w = [] := by
  have hescaped : ∀ v, ¬((readstrChars delm true v).1 ≠ [] ∧
      (readstrChars delm true v).2.length ≤ 0) := by
    rintro v ⟨hrest, hword⟩
    cases v with
    | nil => exact hrest rfl
    | cons c v => exact absurd hword (Nat.not_succ_le_zero _)
  cases w with
  | nil => exact .inr rfl
  | cons c w =>
    have hfits := h.resolve_left (Nat.not_succ_le_zero _)
    cases esc with
    | true => exact absurd hfits (hescaped (c :: w))
    | false =>
      rw [readstrChars] at hfits ⊢
      split at hfits
      · exact absurd hfits (hescaped w)
      split at hfits
      · rename_i hesc hdelm
        rw [if_neg hesc, if_pos hdelm]
        exact .inl rfl
      · exact absurd hfits.2 (Nat.not_succ_le_zero _)

/-- A store that is not ahead leaves what is still to be read. -/
theorem textFrom_store {room addr : Nat} (c : UInt8)
    (h : BehindWithin (room + 1) addr ⟨ptr, len + 1⟩) :
    textFrom (Function.update mem addr c) (ptr + 1) len = textFrom mem (ptr + 1) len := by
  apply textFrom_congr
  intro i hlo hhi
  apply Function.update_of_ne
  have hne : addr + 0 ≠ ptr + (i - ptr) :=
    h 0 (i - ptr) (Nat.succ_pos _) (by omega) (by simp only; omega)
  omega

/-- From `num` characters on the loop ends with the rest and the word in `read`. -/
def LoopReads (buf : Nat) (mem : Nat → UInt8) (s : Str) (num : Nat)
    (read : List UInt8 × List UInt8) (value : (Nat → UInt8) × Str × Nat) : Prop :=
  ∃ mem', value = (mem', s.after read.1, num + read.2.length) ∧
    Stores mem mem' (buf + num) read.2

section
variable {buf num : Nat} {read : List UInt8 × List UInt8} {value : (Nat → UInt8) × Str × Nat}

theorem loopReads_stop (buf : Nat) (mem : Nat → UInt8) (ptr len num : Nat) :
    LoopReads buf mem ⟨ptr, len + 1⟩ num (mem ptr :: textFrom mem (ptr + 1) len, [])
      (mem, ⟨ptr, len + 1⟩, num) :=
  ⟨mem, by rw [after_cons]; rfl, stores_nil mem _⟩

theorem loopReads_skip (h : LoopReads buf mem ⟨ptr + 1, len⟩ num read value)
    (hle : read.1.length ≤ len) : LoopReads buf mem ⟨ptr, len + 1⟩ num read value := by
  obtain ⟨mem', hvalue, hstores⟩ := h
  exact ⟨mem', by rw [hvalue, after_succ ptr hle], hstores⟩

theorem loopReads_store {c : UInt8}
    (h : LoopReads buf (Function.update mem (buf + num) c) ⟨ptr + 1, len⟩ (num + 1) read value)
    (hle : read.1.length ≤ len) :
    LoopReads buf mem ⟨ptr, len + 1⟩ num (read.1, c :: read.2) value := by
  obtain ⟨mem', hvalue, hstores⟩ := h
  refine ⟨mem', ?_, stores_cons hstores⟩
  rw [hvalue, after_succ ptr hle, List.length_cons]
  congr 2
  omega

end

theorem length_readstrChars_le (delm : List UInt8) (esc : Bool) (mem : Nat → UInt8)
    (ptr len : Nat) : (readstrChars delm esc (textFrom mem ptr len)).1.length ≤ len :=
  (readstrChars_suffix delm esc _).length_le.trans_eq (length_textFrom mem ptr len)

/-- A character is stored, and the rest is read as it was before the store. -/
theorem loopReads_stored {buf cap num : Nat} {delm : List UInt8} {ptr len : Nat} {first c : UInt8}
    {value : (Nat → UInt8) × Str × Nat} (hnum : num < cap)
    (hroom : HasRoom (cap - num) (first :: textFrom mem (ptr + 1) len)
      ((readstrChars delm false (textFrom mem (ptr + 1) len)).1,
        c :: (readstrChars delm false (textFrom mem (ptr + 1) len)).2))
    (hahead : BehindWithin (cap - num) (buf + num) ⟨ptr, len + 1⟩)
    (hrest : HasRoom (cap - (num + 1))
        (textFrom (Function.update mem (buf + num) c) (ptr + 1) len)
        (readstrChars delm false (textFrom (Function.update mem (buf + num) c) (ptr + 1) len)) →
      BehindWithin (cap - (num + 1)) (buf + (num + 1)) ⟨ptr + 1, len⟩ →
      LoopReads buf (Function.update mem (buf + num) c) ⟨ptr + 1, len⟩ (num + 1)
        (readstrChars delm false (textFrom (Function.update mem (buf + num) c) (ptr + 1) len))
        value) :
    LoopReads buf mem ⟨ptr, len + 1⟩ num
      ((readstrChars delm false (textFrom mem (ptr + 1) len)).1,
        c :: (readstrChars delm false (textFrom mem (ptr + 1) len)).2) value := by
  have hspace : cap - num = cap - (num + 1) + 1 := by omega
  rw [hspace] at hroom hahead
  rw [textFrom_store c hahead] at hrest
  have hroom' := hroom.imp Nat.le_of_succ_le_succ (And.imp_right Nat.le_of_succ_le_succ)
  exact loopReads_store (hrest hroom' hahead.store) (length_readstrChars_le delm false mem _ len)

/-- The loop reads the word although it stores it over what it has read, as long
as no store is ahead of the next character to read. -/
theorem readstrLoop_eq {buf cap : Nat} (delm : List UInt8) (mem : Nat → UInt8) (ptr len : Nat)
    (esc : Bool) (num : Nat)
    (hroom : HasRoom (cap - num) (textFrom mem ptr len)
      (readstrChars delm esc (textFrom mem ptr len)))
    (hahead : BehindWithin (cap - num) (buf + num) ⟨ptr, len⟩) :
    LoopReads buf mem ⟨ptr, len⟩ num (readstrChars delm esc (textFrom mem ptr len))
      (readstrLoop buf cap delm mem ptr len esc num).value := by
  induction len generalizing mem ptr esc num with
  | zero =>
    refine ⟨mem, ?_, ?_⟩
    · cases esc <;> rfl
    · cases esc <;> exact stores_nil mem _
  | succ len ih =>
    have hread : (read mem ptr).value = mem ptr := rfl
    rw [readstrLoop]
    cases Decidable.em (num < cap) with
    | inr hnum =>
      rw [Nat.sub_eq_zero_of_le (Nat.not_lt.mp hnum)] at hroom
      rw [if_neg hnum, (readstrChars_full hroom).resolve_right (List.cons_ne_nil _ _)]
      exact loopReads_stop buf mem ptr len num
    | inl hnum =>
      rw [textFrom] at hroom ⊢
      rw [if_pos hnum, value_bind, hread]
      cases esc with
      | true => exact loopReads_stored hnum hroom hahead (ih _ (ptr + 1) false (num + 1))
      | false =>
        rw [readstrChars] at hroom ⊢
        simp only [Bool.false_eq_true, if_false]
        cases Decidable.em (mem ptr = '\\') with
        | inl hesc =>
          rw [if_pos hesc] at hroom ⊢
          rw [if_pos hesc]
          exact loopReads_skip (ih mem (ptr + 1) true num (hroom.imp_left Nat.le_of_succ_le)
            hahead.succ) (length_readstrChars_le delm true mem _ len)
        | inr hesc =>
          rw [if_neg hesc] at hroom ⊢
          rw [if_neg hesc]
          cases hdelm : strchr delm (mem ptr) with
          | true =>
            simp only [if_true]
            exact loopReads_stop buf mem ptr len num
          | false =>
            simp only [hdelm, Bool.false_eq_true, if_false] at hroom ⊢
            exact loopReads_stored hnum hroom hahead (ih _ (ptr + 1) false (num + 1))

/-- The delimiters of `str_readstr` are given by the caller here. -/
theorem readstr_room {buf cap : Nat} (delm : List UInt8) (mem : Nat → UInt8) (s : Str)
    (hroom : HasRoom cap (s.text mem) (readstrChars delm false (s.text mem)))
    (hbehind : BehindWithin cap buf s) :
    ∃ mem', (s.readstr mem buf cap (some delm)).value =
        (mem', s.after (readstrChars delm false (s.text mem)).1,
          ⟨buf, (readstrChars delm false (s.text mem)).2.length⟩) ∧
      Stores mem mem' buf (readstrChars delm false (s.text mem)).2 := by
  obtain ⟨mem', hvalue, hstores⟩ := readstrLoop_eq delm mem s.ptr s.len false 0 hroom hbehind
  refine ⟨mem', ?_, hstores⟩
  rw [readstr, value_bind, Option.getD_some, hvalue, Nat.zero_add]
  rfl

theorem readstr_eq {buf cap : Nat} (delm : List UInt8) (mem : Nat → UInt8) (s : Str)
    (hcap : s.len ≤ cap) (hbehind : Behind buf s) :
    ∃ mem', (s.readstr mem buf cap (some delm)).value =
        (mem', s.after (readstrChars delm false (s.text mem)).1,
          ⟨buf, (readstrChars delm false (s.text mem)).2.length⟩) ∧
      Stores mem mem' buf (readstrChars delm false (s.text mem)).2 :=
  readstr_room delm mem s (.inl ((length_text mem s).symm ▸ hcap)) (hbehind.within cap)

def readQuotedChars (quote : UInt8) (w : List UInt8) : List UInt8 × Option (List UInt8) × Bool :=
  let (rest, word) := readstrChars [quote] false w
  let (rest, closed) := strAccept rest [quote]
  (rest, some word, closed)

/-- The characters of `str_readqstr`: the rest, the word and whether it is closed. -/
def readqstrChars (w : List UInt8) : List UInt8 × Option (List UInt8) × Bool :=
  let (w, double) := strAccept w ['"']
  if double then readQuotedChars '"' w
  else
    let (w, single) := strAccept w ['\'']
    if single then readQuotedChars '\'' w else (w, none, false)

theorem readQuotedChars_suffix (quote : UInt8) (w : List UInt8) :
    (readQuotedChars quote w).1 <:+ w :=
  (strAccept_suffix _ _).trans (readstrChars_suffix [quote] false w)

theorem readQuotedChars_length (quote : UInt8) (w : List UInt8) :
    (readQuotedChars quote w).1.length + ((readQuotedChars quote w).2.1.getD []).length ≤
      w.length := by
  have hword := readstrChars_length [quote] false w
  have hrest : (readQuotedChars quote w).1.length ≤ (readstrChars [quote] false w).1.length :=
    (strAccept_suffix _ _).length_le
  have hsame : (readQuotedChars quote w).2.1.getD [] = (readstrChars [quote] false w).2 := rfl
  rw [hsame]
  omega

theorem HasRoom.word_length {room : Nat} {delm : List UInt8} {esc : Bool}
    (h : HasRoom room w (readstrChars delm esc w)) : (readstrChars delm esc w).2.length ≤ room := by
  have hlen := readstrChars_length delm esc w
  obtain hall | ⟨_, hword⟩ := h
  · omega
  · exact hword

theorem readQuoted_eq {buf cap : Nat} (quote : UInt8) (mem : Nat → UInt8) (s : Str)
    (hroom : HasRoom cap (s.text mem) (readstrChars [quote] false (s.text mem)))
    (hbehind : BehindWithin cap buf s) :
    ∃ mem', (readQuoted quote mem s buf cap).value =
        (mem', s.after (readQuotedChars quote (s.text mem)).1,
          (readQuotedChars quote (s.text mem)).2.1.map fun word => ⟨buf, word.length⟩,
          (readQuotedChars quote (s.text mem)).2.2) ∧
      Stores mem mem' buf ((readQuotedChars quote (s.text mem)).2.1.getD []) := by
  obtain ⟨mem', hvalue, hstores⟩ := readstr_room [quote] mem s hroom hbehind
  refine ⟨mem', ?_, hstores⟩
  have hlen := readstrChars_length [quote] false (s.text mem)
  rw [length_text] at hlen
  have hsuffix := readstrChars_suffix [quote] false (s.text mem)
  have hrest := stores_after hstores (hbehind.mono hroom.word_length) hlen hsuffix
  have hle := (strAccept_suffix (readstrChars [quote] false (s.text mem)).1 [quote]).length_le
  rw [readQuoted, value_bind, hvalue]
  simp only [value_bind, accept_eq, hrest, Pattern.text, value_pure]
  rw [after_after hle (by omega)]
  rfl

theorem readQuoted_after {buf cap : Nat} (quote : UInt8) (hrest : rest <:+ s.text mem)
    (hroom : HasRoom cap rest (readstrChars [quote] false rest))
    (hbehind : BehindWithin cap buf s) :
    ∃ mem', (readQuoted quote mem (s.after rest) buf cap).value =
        (mem', s.after (readQuotedChars quote rest).1,
          (readQuotedChars quote rest).2.1.map fun word => ⟨buf, word.length⟩,
          (readQuotedChars quote rest).2.2) ∧
      Stores mem mem' buf ((readQuotedChars quote rest).2.1.getD []) := by
  have hle : rest.length ≤ s.len := by
    rw [← length_text mem s]
    exact hrest.length_le
  rw [← text_after hrest] at hroom
  obtain ⟨mem', hvalue, hstores⟩ :=
    readQuoted_eq quote mem (s.after rest) hroom (hbehind.after hle)
  rw [text_after hrest, after_after (readQuotedChars_suffix quote rest).length_le hle] at hvalue
  rw [text_after hrest] at hstores
  exact ⟨mem', hvalue, hstores⟩

theorem readqstrChars_spec (w : List UInt8) :
    (readqstrChars w).1 <:+ w ∧
      (readqstrChars w).1.length + ((readqstrChars w).2.1.getD []).length ≤ w.length := by
  have hdouble := strAccept_suffix w ['"']
  rw [readqstrChars]
  generalize strAccept w ['"'] = r at hdouble ⊢
  obtain ⟨w', double⟩ := r
  have hle := hdouble.length_le
  cases double with
  | true =>
    have hlen := readQuotedChars_length '"' w'
    exact ⟨(readQuotedChars_suffix _ _).trans hdouble, Nat.le_trans hlen hle⟩
  | false =>
    have hsingle := strAccept_suffix w' ['\'']
    simp only [Bool.false_eq_true, if_false]
    generalize strAccept w' ['\''] = r at hsingle ⊢
    obtain ⟨w'', single⟩ := r
    have hle' := hsingle.length_le
    cases single with
    | true =>
      have hlen := readQuotedChars_length '\'' w''
      exact ⟨(readQuotedChars_suffix _ _).trans (hsingle.trans hdouble),
        Nat.le_trans hlen (Nat.le_trans hle' hle)⟩
    | false => exact ⟨hsingle.trans hdouble, Nat.le_trans hle' hle⟩

theorem readqstr_room {buf cap : Nat} (mem : Nat → UInt8) (s : Str)
    (hroom : ∀ quote w, s.text mem = quote :: w → HasRoom cap w (readstrChars [quote] false w))
    (hbehind : BehindWithin cap buf s) :
    ∃ mem', (s.readqstr mem buf cap).value =
        (mem', s.after (readqstrChars (s.text mem)).1,
          (readqstrChars (s.text mem)).2.1.map fun word => ⟨buf, word.length⟩,
          (readqstrChars (s.text mem)).2.2) ∧
      Stores mem mem' buf ((readqstrChars (s.text mem)).2.1.getD []) := by
  have hdouble := strAccept_suffix (s.text mem) ['"']
  have hopen : (strAccept (s.text mem) ['"']).2 = true →
      HasRoom cap (strAccept (s.text mem) ['"']).1
        (readstrChars ['"'] false (strAccept (s.text mem) ['"']).1) :=
    fun h => hroom _ _ (strAccept_true (by decide) h)
  have hsame : (strAccept (s.text mem) ['"']).2 = false →
      (strAccept (s.text mem) ['"']).1 = s.text mem := strAccept_same
  rw [readqstr, value_bind, accept_eq, readqstrChars, Pattern.text]
  generalize strAccept (s.text mem) ['"'] = r at hdouble hopen hsame ⊢
  obtain ⟨w, double⟩ := r
  cases double with
  | true => exact readQuoted_after '"' hdouble (hopen rfl) hbehind
  | false =>
    obtain rfl : w = s.text mem := hsame rfl
    have hsingle := strAccept_suffix (s.text mem) ['\'']
    have hopen : (strAccept (s.text mem) ['\'']).2 = true →
        HasRoom cap (strAccept (s.text mem) ['\'']).1
          (readstrChars ['\''] false (strAccept (s.text mem) ['\'']).1) :=
      fun h => hroom _ _ (strAccept_true (by decide) h)
    simp only [Bool.false_eq_true, if_false, value_bind, accept_eq, Pattern.text, after_text]
    generalize strAccept (s.text mem) ['\''] = r at hsingle hopen ⊢
    obtain ⟨w', single⟩ := r
    cases single with
    | true => exact readQuoted_after '\'' hsingle (hopen rfl) hbehind
    | false => exact ⟨mem, rfl, stores_nil mem buf⟩

theorem readqstr_eq {buf cap : Nat} (mem : Nat → UInt8) (s : Str) (hcap : s.len ≤ cap)
    (hbehind : Behind buf s) :
    ∃ mem', (s.readqstr mem buf cap).value =
        (mem', s.after (readqstrChars (s.text mem)).1,
          (readqstrChars (s.text mem)).2.1.map fun word => ⟨buf, word.length⟩,
          (readqstrChars (s.text mem)).2.2) ∧
      Stores mem mem' buf ((readqstrChars (s.text mem)).2.1.getD []) := by
  apply readqstr_room mem s _ (hbehind.within cap)
  intro quote w htext
  have hlen := length_text mem s
  rw [htext, List.length_cons] at hlen
  exact .inl (by omega)

end Str

end Wifimodem
