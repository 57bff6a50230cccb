import Wifimodem.Core.StrQuoted
import Wifimodem.Util.ReplBlanks

/-!
# Typing a command

Any words without zeros can be typed as one line: each in quotes of either kind, or as it
is with a backslash in front of white space, quotes and backslashes. The words come back
from the line buffer as they were meant.
-/

namespace Wifimodem

open Str

def bareChar (c : UInt8) : List UInt8 :=
  if isspace c = true ∨ c = '\\' ∨ Quote c then ['\\', c] else [c]

def bareWord (v : List UInt8) : List UInt8 := v.flatMap bareChar

/-- A line for these words. White space may follow each word, and has to follow one that
is not in quotes, with a blank first, unless the line ends there. -/
inductive Typed : List (List UInt8) → List UInt8 → Prop where
  | nil : Typed [] []
  | quoted (q : QuoteKind) {v : List UInt8} (sp : Space) {words : List (List UInt8)}
      {line : List UInt8} : 0 ∉ v → Typed words line →
      Typed (v :: words) (q.quoted v ++ (sp.val ++ line))
  | bare {v : List UInt8} (sp : Space) {words : List (List UInt8)} {line : List UInt8} :
      0 ∉ v → v ≠ [] → (∀ x ∈ (sp.val ++ line).head?, isblank x = true) → Typed words line →
      Typed (v :: words) (bareWord v ++ (sp.val ++ line))

section
variable {v w rest line : List UInt8} {words : List (List UInt8)} {c : UInt8}

theorem quoteKind_quote (q : QuoteKind) : Quote q.char := by
  cases q with
  | double => exact .inl rfl
  | single => exact .inr rfl

theorem unescape_marked (hc : isspace c = true ∨ c = '\\' ∨ Quote c) : unescape c = c := by
  rcases hc with hspace | rfl | rfl | rfl
  · exact unescape_space hspace
  · rfl
  · rfl
  · rfl

theorem readstrChars_bareChar (hc : c ≠ 0) (w : List UInt8) :
    readstrChars [' ', '\t'] false (bareChar c ++ w) =
      ((readstrChars [' ', '\t'] false w).1, c :: (readstrChars [' ', '\t'] false w).2) := by
  rw [bareChar]
  split
  · rename_i hmarked
    rw [List.cons_append, List.singleton_append, readstrChars, if_pos rfl, readstrChars,
      unescape_marked hmarked]
  · rename_i hplain
    obtain ⟨hspace, hesc, _⟩ := not_or.mp hplain |>.imp_right not_or.mp
    have hblank : isblank c = false :=
      Bool.eq_false_iff.mpr fun hblank => hspace (isspace_of_isblank hblank)
    rw [List.singleton_append, readstrChars, if_neg hesc, strchr_blank hc, hblank]
    rfl

theorem readstrChars_bareWord (hv : 0 ∉ v) (hrest : ∀ x ∈ rest.head?, isblank x = true) :
    readstrChars [' ', '\t'] false (bareWord v ++ rest) = (rest, v) := by
  induction v with
  | nil =>
    have hstop : readstrChars [' ', '\t'] false ([] ++ rest) = (rest, []) := by
      apply readstrChars_to (List.forall_mem_nil _)
      intro x hx
      obtain ⟨hesc, hstop, _⟩ := stops_word (.inl (hrest x hx))
      exact ⟨hesc, hstop⟩
    exact hstop
  | cons c v ih =>
    obtain ⟨hc, hv⟩ := not_or.mp (mt List.mem_cons.mpr hv)
    rw [bareWord, List.flatMap_cons, List.append_assoc, readstrChars_bareChar (Ne.symm hc)]
    exact congrArg (fun r => (r.1, c :: r.2)) (ih hv)

theorem head_bareWord (hv : v ≠ []) (w : List UInt8) :
    ∀ x ∈ (bareWord v ++ w).head?, ¬Quote x ∧ isspace x = false := by
  cases v with
  | nil => exact absurd rfl hv
  | cons c v =>
    rw [bareWord, List.flatMap_cons, bareChar]
    split
    · exact head_cons ⟨by decide, rfl⟩
    · rename_i hplain
      obtain ⟨hspace, _, hquote⟩ := not_or.mp hplain |>.imp_right not_or.mp
      exact head_cons ⟨hquote, Bool.eq_false_iff.mpr hspace⟩

theorem replWordChars_bareWord (hv : 0 ∉ v) (hne : v ≠ [])
    (hrest : ∀ x ∈ rest.head?, isblank x = true) :
    replWordChars (bareWord v ++ rest) = (rest, some v) := by
  rw [replWordChars_unquoted fun x hx => (head_bareWord hne rest x hx).1,
    readstrChars_bareWord hv hrest]
  simp only
  rw [if_neg (mt List.eq_nil_of_length_eq_zero hne)]

theorem replWordChars_typed (q : QuoteKind) (hv : 0 ∉ v) (rest : List UInt8) :
    replWordChars (q.quoted v ++ rest) = (rest, some v) := by
  rw [QuoteKind.quoted_append]
  exact replWordChars_closed (quoteKind_quote q) (readstrChars_escape hv)

theorem Typed.head (h : Typed words line) : ∀ x ∈ line.head?, isspace x = false := by
  cases h with
  | nil => exact head_nil
  | quoted q sp hv hrest =>
    rw [QuoteKind.quoted_append]
    cases q with
    | double => exact head_cons rfl
    | single => exact head_cons rfl
  | bare sp hv hne hgap hrest => exact fun x hx => (head_bareWord hne _ x hx).2

theorem Typed.ltrim (h : Typed words line) (sp : Space) : strLtrim (sp.val ++ line) = line := by
  have hhead := h.head
  rw [strLtrim_space sp.property]
  cases line with
  | nil => rfl
  | cons c line => exact List.dropWhile_cons_of_neg (by simp [hhead c rfl])

/-- The loop reads the words of the line in their order, and leaves the line of the rest. -/
theorem Typed.loop (h : Typed words line) (n : Nat) (args : List (List UInt8)) :
    ∃ left, replWordsChars n line args = (left, args ++ words.take n) ∧
      Typed (words.drop n) left := by
  induction n generalizing words line args with
  | zero => exact ⟨line, by rw [List.take_zero, List.append_nil]; rfl, h⟩
  | succ n ih =>
    have hread : ∀ {v words} {line : List UInt8} {written : List UInt8} (sp : Space),
        replWordChars (written ++ (sp.val ++ line)) = (sp.val ++ line, some v) →
        Typed words line →
        ∃ left, replWordsChars (n + 1) (written ++ (sp.val ++ line)) args =
          (left, args ++ (v :: words).take (n + 1)) ∧ Typed ((v :: words).drop (n + 1)) left := by
      intro v words line written sp hword hrest
      obtain ⟨left, hloop, hleft⟩ := ih hrest (args ++ [v])
      refine ⟨left, ?_, hleft⟩
      rw [replWordsChars, hword]
      simp only
      rw [hrest.ltrim sp, hloop, List.take_succ_cons, List.append_assoc, List.singleton_append]
    cases h with
    | nil =>
      have hstop : replWordChars [] = ([], none) := replWordChars_stop head_nil
      refine ⟨[], ?_, .nil⟩
      rw [replWordsChars, hstop, List.take_nil, List.append_nil]
    | quoted q sp hv hrest => exact hread sp (replWordChars_typed q hv _) hrest
    | bare sp hv hne hgap hrest => exact hread sp (replWordChars_bareWord hv hne hgap) hrest

theorem Typed.args (h : Typed words line) :
    ∃ left, bodyArgs line = words.take (replArgvNum - 1) ++ leftover left ∧
      Typed (words.drop (replArgvNum - 1)) left := by
  obtain ⟨left, hloop, hleft⟩ := h.loop (replArgvNum - 1) []
  refine ⟨left, ?_, hleft⟩
  rw [bodyArgs, hloop, leftover]
  simp only [List.nil_append]
  split
  · rfl
  · rw [List.append_nil]

theorem Typed.ne_nil (h : Typed words line) (hwords : words ≠ []) : line ≠ [] := by
  cases h with
  | nil => exact absurd rfl hwords
  | quoted q sp hv hrest => exact List.append_ne_nil_of_left_ne_nil (List.cons_ne_nil _ _) _
  | @bare v sp words line hv hne hgap hrest =>
    apply List.append_ne_nil_of_left_ne_nil
    cases v with
    | nil => exact absurd rfl hne
    | cons c v =>
      rw [bareWord, List.flatMap_cons, bareChar]
      split <;> exact List.cons_ne_nil _ _

theorem replLine_typed {lead : List UInt8} (hlead : ∀ c ∈ lead.head?, isspace c = false)
    (h : Typed words line) (hsome : lead = [] → words ≠ []) (ws : Space)
    (keywords : Option (List (List UInt8))) (igncase : Bool) :
    replLine lead keywords igncase (ws.val ++ (lead ++ line)) =
      some (bodyArgs line, (bodyArgs line).map (replCode keywords igncase)) := by
  cases lead with
  | cons c lead =>
    have hspace : strLtrim (ws.val ++ (c :: lead ++ line)) = strLtrim (c :: lead ++ line) :=
      strLtrim_space ws.property _
    rw [replLine_congr hspace]
    exact replLine_carried (hlead c rfl) lead line keywords igncase
  | nil =>
    have hline : line.length ≠ 0 := mt List.eq_nil_of_length_eq_zero (h.ne_nil (hsome rfl))
    have haccept : replAcceptChars [] line = (line, true) := rfl
    rw [List.nil_append, replLine, replArgs, h.ltrim ws, if_neg hline, haccept]
    rfl

end

def goWords : List (List UInt8) := [['g', 'o'], ['a', ' ', 'b']]

def goLine : List UInt8 := ['g', 'o', ' ', '"', 'a', ' ', 'b', '"']

theorem typed_go : Typed goWords goLine :=
  @Typed.bare ['g', 'o'] ⟨[' '], by decide +kernel⟩ [['a', ' ', 'b']]
    ['"', 'a', ' ', 'b', '"'] (by decide +kernel) (by decide +kernel) (by decide +kernel)
    (@Typed.quoted .double ['a', ' ', 'b'] ⟨[], by decide +kernel⟩ [] [] (by decide +kernel) .nil)

end Wifimodem
