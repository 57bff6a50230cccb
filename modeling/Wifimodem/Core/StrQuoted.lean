import Wifimodem.Core.StrNumber

/-!
# Quoted words

A text is put between quotes with a backslash before each quote and each
backslash in it. Read back it is the same text, whatever else it holds.
-/

namespace Wifimodem

inductive QuoteKind where
  | double | single
deriving DecidableEq, Repr

namespace QuoteKind

def char : QuoteKind → UInt8
  | .double => '"'
  | .single => '\''

def escapeChar (q : QuoteKind) (c : UInt8) : List UInt8 :=
  if c = q.char ∨ c = '\\' then ['\\', c] else [c]

def escape (q : QuoteKind) (v : List UInt8) : List UInt8 := v.flatMap q.escapeChar

def quoted (q : QuoteKind) (v : List UInt8) : List UInt8 := q.char :: q.escape v ++ [q.char]

theorem quoted_append (q : QuoteKind) (v rest : List UInt8) :
    q.quoted v ++ rest = q.char :: (q.escape v ++ q.char :: rest) := by
  rw [quoted, List.append_assoc, List.cons_append, List.singleton_append]

theorem char_ne_backslash (q : QuoteKind) : q.char ≠ '\\' := by
  cases q <;> decide

theorem char_ne_zero (q : QuoteKind) : q.char ≠ 0 := by
  cases q <;> decide

/-- What is put behind a backslash stands for itself. -/
theorem unescape_escaped {q : QuoteKind} {c : UInt8} (h : c = q.char ∨ c = '\\') :
    Str.unescape c = c := by
  obtain rfl | rfl := h
  · cases q <;> rfl
  · rfl

theorem strchr_char (q : QuoteKind) {c : UInt8} (hc : c ≠ 0) :
    strchr [q.char] c = decide (c = q.char) := by
  rw [strchr, decide_eq_false hc, Bool.false_or, List.contains_cons, List.contains_nil,
    Bool.or_false]
  rfl

end QuoteKind

namespace Str

open Traced

variable {q : QuoteKind} {v rest w : List UInt8}

theorem readstrChars_stop (q : QuoteKind) (rest : List UInt8) :
    readstrChars [q.char] false (q.char :: rest) = (q.char :: rest, []) := by
  rw [readstrChars, if_neg q.char_ne_backslash, q.strchr_char q.char_ne_zero,
    decide_eq_true (Eq.refl q.char)]
  rfl

theorem readstrChars_escapeChar (q : QuoteKind) {c : UInt8} (hc : c ≠ 0) (w : List UInt8) :
    readstrChars [q.char] false (q.escapeChar c ++ w) =
      ((readstrChars [q.char] false w).1, c :: (readstrChars [q.char] false w).2) := by
  rw [QuoteKind.escapeChar]
  by_cases hescaped : c = q.char ∨ c = '\\'
  · rw [if_pos hescaped, List.cons_append, List.singleton_append, readstrChars, if_pos rfl,
      readstrChars, QuoteKind.unescape_escaped hescaped]
  · obtain ⟨hquote, hbackslash⟩ := not_or.mp hescaped
    rw [if_neg hescaped, List.singleton_append, readstrChars, if_neg hbackslash,
      q.strchr_char hc, decide_eq_false hquote]
    rfl

theorem readstrChars_escape (hv : 0 ∉ v) :
    readstrChars [q.char] false (q.escape v ++ q.char :: rest) = (q.char :: rest, v) := by
  induction v with
  | nil => exact readstrChars_stop q rest
  | cons c v ih =>
    obtain ⟨hc, hv⟩ := not_or.mp (mt List.mem_cons.mpr hv)
    rw [QuoteKind.escape, List.flatMap_cons, List.append_assoc,
      readstrChars_escapeChar q (Ne.symm hc)]
    exact congrArg (fun r => (r.1, c :: r.2)) (ih hv)

theorem readQuotedChars_escape (hv : 0 ∉ v) :
    readQuotedChars q.char (q.escape v ++ q.char :: rest) = (rest, some v, true) := by
  have hclose : strAccept (q.char :: rest) [q.char] = (rest, true) := by
    rw [strAccept_char q.char_ne_zero, if_pos rfl]
  rw [readQuotedChars, readstrChars_escape hv]
  simp only [hclose]

theorem readqstrChars_quoted (hv : 0 ∉ v) :
    readqstrChars (q.quoted v ++ rest) = (rest, some v, true) := by
  have hread := @readQuotedChars_escape q v rest hv
  have hopen : ∀ c : UInt8, c ≠ 0 → ∀ w, strAccept (q.char :: w) [c] =
      if q.char = c then (w, true) else (q.char :: w, false) :=
    fun c hc w => strAccept_char hc q.char w
  rw [QuoteKind.quoted_append, readqstrChars, hopen '"' (by decide)]
  cases q with
  | double => exact hread
  | single =>
    rw [if_neg (by decide)]
    simp only [Bool.false_eq_true, if_false]
    rw [hopen '\'' (by decide)]
    exact hread

theorem BehindWithin.of_apart {cap buf : Nat} {s : Str}
    (h : buf + cap ≤ s.ptr ∨ s.ptr + s.len ≤ buf) : BehindWithin cap buf s := by
  intro j i hj _ hi
  omega

/-- The text is read back, into a buffer that is as long as the text, and what follows
the closing quote is left. -/
theorem readqstr_quoted (q : QuoteKind) (hv : 0 ∉ v) {mem : Nat → UInt8} {s : Str} {buf cap : Nat}
    (hcap : v.length ≤ cap) (hbehind : BehindWithin cap buf s)
    (htext : s.text mem = q.quoted v ++ rest) :
    ∃ mem', (s.readqstr mem buf cap).value = (mem', s.after rest, some ⟨buf, v.length⟩, true) ∧
      text mem' ⟨buf, v.length⟩ = v ∧ (s.after rest).text mem' = rest := by
  have hchars : readqstrChars (s.text mem) = (rest, some v, true) := by
    rw [htext, readqstrChars_quoted hv]
  -- only the word has to fit, as the closing quote is behind it
  have hroom : ∀ quote w, s.text mem = quote :: w →
      HasRoom cap w (readstrChars [quote] false w) := by
    intro quote w hw
    rw [htext, QuoteKind.quoted_append] at hw
    obtain ⟨rfl, rfl⟩ := List.cons.inj hw
    rw [readstrChars_escape hv]
    exact .inr ⟨List.cons_ne_nil _ _, hcap⟩
  obtain ⟨mem', hvalue, hstores⟩ := readqstr_room mem s hroom hbehind
  obtain ⟨hsuffix, hlen⟩ := readqstrChars_spec (s.text mem)
  rw [hchars] at hvalue hstores hsuffix hlen
  rw [length_text] at hlen
  exact ⟨mem', hvalue, hstores.stored, stores_after hstores (hbehind.mono hcap) hlen hsuffix⟩

/-- Both of the escaped characters, in a buffer that they fill. -/
theorem readqstr_quoted_filled :
    ∃ mem', (Str.readqstr (IntReader.textAt ['"', '\\', '"', '\\', '\\', '"', 'x']) ⟨0, 7⟩ 7 2).value =
        (mem', ⟨6, 1⟩, some ⟨7, 2⟩, true) ∧
      text mem' ⟨7, 2⟩ = ['"', '\\'] ∧ text mem' ⟨6, 1⟩ = ['x'] := by
  apply @readqstr_quoted ['"', '\\'] ['x'] .double
  · decide
  · exact Nat.le_refl 2
  · exact .of_apart (.inr (Nat.le_refl 7))
  · decide

end Str

end Wifimodem
