import Wifimodem.Util.ReplWords

/-!
# Blanks behind the prefix

The first word is read where the prefix ends. A blank there ends the words before
the first one, and the whole rest is left over as one argument, as it stands.
-/

namespace Wifimodem

open Str

/-- The words that are passed for what is behind the prefix. -/
def bodyArgs (w : List UInt8) : List (List UInt8) :=
  match replWordsChars (replArgvNum - 1) w [] with
  | (w, args) =>
    let last := (strLtrim w).rdropWhile isspace
    if last.length > 0 then args ++ [last] else args

/-- The text without white space around it, if there is any. -/
def leftover (w : List UInt8) : List (List UInt8) :=
  if ((strLtrim w).rdropWhile isspace).length > 0 then [(strLtrim w).rdropWhile isspace] else []

/-- A word that is read as it stands, with nothing but white space behind it. -/
inductive LoneWord : List UInt8 → Prop where
  | intro {c : UInt8} {t sp : List UInt8} : ¬Quote c → isspace c = false →
      (∀ x ∈ c :: t, x ≠ 0 ∧ x ≠ '\\' ∧ isblank x = false) →
      (∀ x ∈ (c :: t).getLast?, isspace x = false) → (∀ x ∈ sp, isspace x = true) →
      (∀ x ∈ sp.head?, isblank x = true) → LoneWord (c :: (t ++ sp))

def SplitsAlike (w : List UInt8) : Prop :=
  (∀ c ∈ w.head?, isblank c = true ∨ c = 0) ∨ LoneWord w

/-- The blanks make no difference. -/
def BlanksIgnored (lead ws rest : List UInt8) : Prop :=
  ws = [] ∨ (∀ c ∈ lead, isspace c = true) ∨
    ((∀ c ∈ lead.head?, isspace c = false) ∧ SplitsAlike rest)

/-! ## What a word is read from -/

/-- The characters a word was read from. -/
structure RawRead (delm : List UInt8) (esc : Bool) (raw rest word : List UInt8) : Prop where
  length_le : word.length ≤ raw.length
  last : ∀ x, isspace x = true → raw.getLast? = some x → word.getLast? = some x
  same : esc = false → word.length = raw.length →
    word = raw ∧ ∀ x ∈ raw, x ≠ '\\' ∧ strchr delm x = false
  stops : ∀ x ∈ rest.head?, strchr delm x = true

section
variable {w t rest delm : List UInt8} {c : UInt8}

theorem unescape_space (hc : isspace c = true) : unescape c = c := by
  have hne : ∀ x y : UInt8, isspace x = false → isspace y = false → ¬(c = x ∨ c = y) := by
    rintro x y hx hy (rfl | rfl)
    · rw [hc] at hx
      cases hx
    · rw [hc] at hy
      cases hy
  rw [unescape, if_neg (hne _ _ rfl rfl), if_neg (hne _ _ rfl rfl), if_neg (hne _ _ rfl rfl),
    if_neg (hne _ _ rfl rfl), if_neg (hne _ _ rfl rfl), if_neg (hne _ _ rfl rfl),
    if_neg (hne _ _ rfl rfl)]

theorem getLast?_cons_of_tail {a b x : UInt8} {raw word : List UInt8}
    (hlen : word.length ≤ raw.length) (hhead : raw = [] → a = x → b = x)
    (htail : raw.getLast? = some x → word.getLast? = some x)
    (hlast : (a :: raw).getLast? = some x) : (b :: word).getLast? = some x := by
  rw [List.getLast?_cons] at hlast ⊢
  cases hraw : raw.getLast? with
  | none =>
    have hnil := List.getLast?_eq_none_iff.mp hraw
    rw [hraw] at hlast
    rw [hnil] at hlen
    rw [List.eq_nil_of_length_eq_zero (Nat.le_zero.mp hlen)]
    exact congrArg some (hhead hnil (Option.some.inj hlast))
  | some y =>
    rw [hraw] at hlast
    rw [htail (hraw.trans hlast)]
    rfl

namespace RawRead

variable {raw word : List UInt8} {esc : Bool}

theorem nil (esc : Bool) (h : ∀ x ∈ rest.head?, strchr delm x = true) :
    RawRead delm esc [] rest [] :=
  ⟨Nat.le_refl _, fun _ _ h => h, fun _ _ => ⟨rfl, List.forall_mem_nil _⟩, h⟩

/-- The character behind a backslash. -/
theorem escaped (h : RawRead delm false raw rest word) (c : UInt8) :
    RawRead delm true (c :: raw) rest (unescape c :: word) := by
  refine ⟨Nat.succ_le_succ h.length_le, ?_, ?_, h.stops⟩
  · intro x hx
    apply getLast?_cons_of_tail h.length_le _ (h.last x hx)
    rintro _ rfl
    exact unescape_space hx
  · intro hfalse
    cases hfalse

theorem backslash (h : RawRead delm true raw rest word) :
    RawRead delm false ('\\' :: raw) rest word := by
  refine ⟨Nat.le_succ_of_le h.length_le, ?_, ?_, h.stops⟩
  · intro x hx hlast
    rw [List.getLast?_cons] at hlast
    cases hlast' : raw.getLast? with
    | none =>
      rw [hlast'] at hlast
      rw [← Option.some.inj hlast] at hx
      cases hx
    | some y =>
      rw [hlast'] at hlast
      exact h.last x hx (hlast'.trans hlast)
  · intro _ hlen
    have hle := h.length_le
    rw [List.length_cons] at hlen
    omega

theorem plain (h : RawRead delm false raw rest word) (hesc : c ≠ '\\')
    (hdelm : strchr delm c = false) : RawRead delm false (c :: raw) rest (c :: word) := by
  refine ⟨Nat.succ_le_succ h.length_le, ?_, ?_, h.stops⟩
  · intro x hx
    exact getLast?_cons_of_tail h.length_le (fun _ h => h) (h.last x hx)
  · intro _ hlen
    obtain ⟨hsame, hplain⟩ := h.same rfl (Nat.succ.inj hlen)
    exact ⟨congrArg (c :: ·) hsame, List.forall_mem_cons.mpr ⟨⟨hesc, hdelm⟩, hplain⟩⟩

end RawRead

theorem readstrChars_raw (delm : List UInt8) (esc : Bool) (w : List UInt8) :
    ∃ raw, w = raw ++ (readstrChars delm esc w).1 ∧
      RawRead delm esc raw (readstrChars delm esc w).1 (readstrChars delm esc w).2 := by
  induction w generalizing esc with
  | nil =>
    refine ⟨[], ?_, ?_⟩
    · cases esc <;> rfl
    · cases esc <;> exact .nil _ head_nil
  | cons c w ih =>
    cases esc with
    | true =>
      obtain ⟨raw, hw, hraw⟩ := ih false
      exact ⟨c :: raw, congrArg (c :: ·) hw, hraw.escaped c⟩
    | false =>
      rw [readstrChars]
      split
      · rename_i hesc
        obtain ⟨raw, hw, hraw⟩ := ih true
        exact ⟨c :: raw, congrArg (c :: ·) hw, hesc ▸ hraw.backslash⟩
      split
      · rename_i hdelm
        exact ⟨[], rfl, .nil _ (head_cons hdelm)⟩
      · rename_i hesc hdelm
        obtain ⟨raw, hw, hraw⟩ := ih false
        exact ⟨c :: raw, congrArg (c :: ·) hw,
          hraw.plain hesc (Bool.eq_false_of_not_eq_true hdelm)⟩

/-! ## The words behind the prefix -/

theorem replWordsChars_args (n : Nat) (w : List UInt8) (args : List (List UInt8)) :
    args <+: (replWordsChars n w args).2 := by
  induction n generalizing w args with
  | zero => exact List.prefix_rfl
  | succ n ih =>
    rw [replWordsChars]
    split
    · exact List.prefix_rfl
    · exact (List.prefix_append _ _).trans (ih _ _)

theorem bodyArgs_none (h : replWordChars w = (rest, none)) : bodyArgs w = leftover rest := by
  rw [bodyArgs, replArgvNum, replWordsChars, h]
  rfl

theorem bodyArgs_some {v : List UInt8} (h : replWordChars w = (rest, some v)) :
    ∃ more, bodyArgs w = v :: more := by
  have hfirst : [v] <+: (replWordsChars 14 (strLtrim rest) [v]).2 := replWordsChars_args _ _ _
  obtain ⟨more, hmore⟩ := hfirst
  rw [bodyArgs, replArgvNum, replWordsChars, h]
  simp only
  rw [List.nil_append, ← hmore]
  split
  · exact ⟨more ++ _, rfl⟩
  · exact ⟨more, rfl⟩

theorem bodyArgs_stop (hw : ∀ c ∈ w.head?, isblank c = true ∨ c = 0) :
    bodyArgs w = leftover w := bodyArgs_none (replWordChars_stop hw)

theorem rtrim_cons (hc : isspace c = false) (t : List UInt8) :
    leftover (c :: t) = [(c :: t).rdropWhile isspace] := by
  have hltrim : strLtrim (c :: t) = c :: t := List.dropWhile_cons_of_neg (by simp [hc])
  rw [leftover, hltrim, if_pos]
  apply List.length_pos_iff.mpr
  intro hnil
  have hall := List.rdropWhile_eq_nil_iff.mp hnil c List.mem_cons_self
  rw [hc] at hall
  cases hall

/-- Nothing that ends in a visible character is trimmed from the right. -/
theorem rtrim_visible (hc : isspace c = false) (t rest : List UInt8) :
    t ++ [c] <+: (t ++ c :: rest).rdropWhile isspace := by
  induction rest using List.reverseRecOn with
  | nil =>
    rewrite [List.rdropWhile_concat_neg _ _ _ (by simp [hc])]
    exact List.prefix_rfl
  | append_singleton rest x ih =>
    rw [← List.cons_append, ← List.append_assoc, List.rdropWhile_concat]
    split
    · exact ih
    · rw [List.append_assoc, List.cons_append]
      exact ⟨rest ++ [x], by simp⟩

theorem rtrim_space {sp : List UInt8} (hsp : ∀ x ∈ sp, isspace x = true)
    (ht : ∀ x ∈ t.getLast?, isspace x = false) : (t ++ sp).rdropWhile isspace = t := by
  have hdrop : (t ++ sp).rdropWhile isspace = t.rdropWhile isspace := by
    rw [List.rdropWhile, List.reverse_append, List.dropWhile_append_of_pos, ← List.rdropWhile]
    exact fun x hx => hsp x (List.mem_reverse.mp hx)
  rw [hdrop, List.rdropWhile_eq_self_iff]
  intro hne
  simp [ht _ (List.getLast?_eq_some_getLast hne)]

theorem bodyArgs_lone (h : LoneWord w) : bodyArgs w = leftover w := by
  cases h with
  | @intro c t sp hc hspace ht hlast hsp hblank =>
    have hltrim : strLtrim sp = [] := List.dropWhile_eq_nil_iff.mpr hsp
    have hleft : leftover (c :: (t ++ sp)) = [c :: t] := by
      rw [rtrim_cons hspace, ← List.cons_append, rtrim_space hsp hlast]
    rw [hleft, bodyArgs, replArgvNum, replWordsChars, replWordChars_plain hc ht hblank]
    simp only
    rw [hltrim]
    rfl

/-- Read from a quote on, what is passed is not what stands there. -/
theorem bodyArgs_quote {q : UInt8} (hq : Quote q) (t : List UInt8) :
    bodyArgs (q :: t) ≠ leftover (q :: t) := by
  have hspace : isspace q = false := by
    rcases hq with rfl | rfl <;> rfl
  obtain ⟨raw, ht, hlen, _, _, hstops⟩ := readstrChars_raw [q] false t
  cases hread : readstrChars [q] false t with
  | mk rest word =>
  rw [hread] at ht hlen hstops
  simp only at ht hlen hstops
  rw [rtrim_cons hspace]
  cases rest with
  | nil =>
    rw [bodyArgs_none (replWordChars_unclosed hq hread head_nil)]
    exact (List.cons_ne_nil _ _).symm
  | cons x rest =>
    cases Decidable.em (x = q) with
    | inl hx =>
      subst hx ht
      obtain ⟨more, hmore⟩ := bodyArgs_some (replWordChars_closed hq hread)
      have hlong := (rtrim_visible hspace (x :: raw) rest).length_le
      intro h
      rw [hmore] at h
      have hsame : word = (x :: raw ++ x :: rest).rdropWhile isspace := (List.cons.inj h).1
      rw [← hsame, List.length_append, List.length_cons, List.length_singleton] at hlong
      omega
    | inr hx =>
      have hzero : x = 0 := by
        have hstop := hstops x rfl
        simpa [strchr, hx] using hstop
      subst hzero ht
      have hempty : readstrChars [' ', '\t'] false (0 :: rest) = (0 :: rest, []) := by
        rw [readstrChars, if_neg (by decide), if_pos (by decide)]
      have hword := replWordChars_unclosed hq hread (head_cons hx)
      simp only [hempty, List.length_nil, if_true] at hword
      have hspace0 : isspace 0 = false := rfl
      obtain ⟨_, hstart⟩ := rtrim_visible hspace0 [] rest
      obtain ⟨_, hstart'⟩ := rtrim_visible hspace [] (raw ++ 0 :: rest)
      rw [bodyArgs_none hword, rtrim_cons hspace0]
      intro h
      rw [List.nil_append] at hstart hstart'
      have hsame := hstart.trans ((List.cons.inj h).1.trans hstart'.symm)
      exact hx (List.cons.inj hsame).1

/-- White space other than a blank stays at the front of the first word. -/
theorem bodyArgs_space (hc : isspace c = true) (hblank : isblank c = false) (t : List UInt8) :
    bodyArgs (c :: t) ≠ leftover (c :: t) := by
  have hchar : ∀ x : UInt8, isspace x = false → c ≠ x := by
    rintro x hx rfl
    rw [hc] at hx
    cases hx
  have hquote : ¬Quote c := not_or.mpr ⟨hchar _ rfl, hchar _ rfl⟩
  obtain ⟨rest, word, hread⟩ : ∃ rest word,
      readstrChars [' ', '\t'] false (c :: t) = (rest, c :: word) := by
    rw [readstrChars, if_neg (hchar _ rfl), if_neg]
    · exact ⟨_, _, rfl⟩
    · rw [strchr_blank (hchar 0 rfl), hblank]
      exact Bool.false_ne_true
  have hword := replWordChars_unquoted (head_cons (w := t) hquote)
  rw [hread, if_neg (by simp)] at hword
  obtain ⟨more, hmore⟩ := bodyArgs_some hword
  rw [hmore, leftover]
  split
  · intro h
    have hstart : c :: word <+: strLtrim (c :: t) := by
      have hlead := List.rdropWhile_prefix isspace (strLtrim (c :: t))
      rwa [← (List.cons.inj h).1] at hlead
    have hhead := List.head?_dropWhile_not isspace (c :: t)
    obtain ⟨_, hw⟩ := hstart
    rw [strLtrim] at hw
    rw [← hw, List.cons_append, List.head?_cons] at hhead
    exact absurd (hc.symm.trans hhead) Bool.true_eq_false.mp
  · exact List.cons_ne_nil _ _

/-- An escape that ends the text is the only start of an empty word. -/
theorem readstrChars_nonempty (hstop : strchr delm c = false)
    (hword : (readstrChars delm false (c :: t)).2 = []) :
    (readstrChars delm false (c :: t)).1 = [] := by
  rw [readstrChars, hstop] at hword ⊢
  split at hword
  · rename_i hesc
    rw [if_pos hesc]
    cases t with
    | nil => rfl
    | cons d t => cases hword
  · cases hword

theorem rtrim_last (w : List UInt8) :
    ∀ x ∈ (w.rdropWhile isspace).getLast?, isspace x = false := by
  intro x hx
  have hne : w.rdropWhile isspace ≠ [] := by
    rintro hnil
    rw [hnil] at hx
    cases hx
  have hnot := List.rdropWhile_last_not isspace w hne
  rw [List.getLast?_eq_some_getLast hne] at hx
  rw [← Option.some.inj hx]
  exact Bool.eq_false_of_not_eq_true hnot

theorem loneWord_of_plain {word sp : List UInt8} (hquote : ¬Quote c) (hspace : isspace c = false)
    (hw : c :: t = word ++ sp) (hplain : ∀ x ∈ word, x ≠ '\\' ∧ strchr [' ', '\t'] x = false)
    (hlast : ∀ x ∈ word.getLast?, isspace x = false) (hsp : ∀ x ∈ sp, isspace x = true)
    (hstops : ∀ x ∈ sp.head?, strchr [' ', '\t'] x = true) : LoneWord (c :: t) := by
  cases word with
  | nil =>
    rw [List.nil_append] at hw
    have hhead := hsp c (hw ▸ List.mem_cons_self)
    rw [hspace] at hhead
    cases hhead
  | cons d u =>
    obtain ⟨rfl, rfl⟩ := List.cons.inj hw
    refine .intro hquote hspace ?_ hlast hsp ?_
    · intro x hx
      obtain ⟨hesc, hgo⟩ := hplain x hx
      have hzero : x ≠ 0 := by
        rintro rfl
        cases hgo
      exact ⟨hzero, hesc, (strchr_blank hzero).symm.trans hgo⟩
    · intro x hx
      have hzero : x ≠ 0 := by
        rintro rfl
        cases hsp 0 (List.mem_of_mem_head? hx)
      exact (strchr_blank hzero).symm.trans (hstops x hx)

theorem bodyArgs_word (hquote : ¬Quote c) (hspace : isspace c = false)
    (hstop : strchr [' ', '\t'] c = false) (h : bodyArgs (c :: t) = leftover (c :: t)) :
    LoneWord (c :: t) := by
  have hword := replWordChars_unquoted (head_cons (w := t) hquote)
  obtain ⟨raw, hraw, hread⟩ := readstrChars_raw [' ', '\t'] false (c :: t)
  have hempty := @readstrChars_nonempty t [' ', '\t'] c hstop
  generalize readstrChars [' ', '\t'] false (c :: t) = r at hword hraw hread hempty
  obtain ⟨rest, word⟩ := r
  simp only at hword hraw hread hempty
  rw [rtrim_cons hspace] at h
  split at hword
  · rename_i hnil
    rw [bodyArgs_none hword, hempty (List.eq_nil_of_length_eq_zero hnil)] at h
    cases h
  · obtain ⟨more, hmore⟩ := bodyArgs_some hword
    rw [hmore] at h
    have hsame : word = (c :: t).rdropWhile isspace := (List.cons.inj h).1
    have hsplit : (c :: t).rdropWhile isspace ++ (c :: t).rtakeWhile isspace = c :: t :=
      List.rdropWhile_append_rtakeWhile
    have hsp : ∀ x ∈ (c :: t).rtakeWhile isspace, isspace x = true :=
      fun x hx => List.mem_rtakeWhile_imp hx
    have hlast : ∀ x ∈ word.getLast?, isspace x = false := by
      rw [hsame]
      exact rtrim_last (c :: t)
    rw [← hsame] at hsplit
    generalize (c :: t).rtakeWhile isspace = sp at hsplit hsp
    -- what was read reaches beyond the word only by white space, and then the word ends in it
    obtain ⟨x, rfl⟩ : word <+: raw :=
      List.prefix_of_prefix_length_le ⟨sp, hsplit⟩ ⟨rest, hraw.symm⟩ hread.length_le
    rw [hraw, List.append_assoc, List.append_cancel_left_eq] at hsplit
    rcases List.eq_nil_or_concat' x with rfl | ⟨x, y, rfl⟩
    · rw [List.append_nil] at hraw hread
      rw [List.nil_append] at hsplit
      obtain ⟨_, hplain⟩ := hread.same rfl rfl
      exact loneWord_of_plain hquote hspace hraw hplain hlast (hsplit ▸ hsp) hread.stops
    · have hy : isspace y = true := by
        apply hsp
        rw [hsplit]
        simp
      have hend := hread.last y hy (by rw [← List.append_assoc, List.getLast?_concat])
      rw [hlast y hend] at hy
      cases hy

theorem bodyArgs_leftover_iff : bodyArgs w = leftover w ↔ SplitsAlike w := by
  constructor
  · intro h
    cases w with
    | nil => exact .inl head_nil
    | cons c t =>
      rcases Decidable.em (isblank c = true ∨ c = 0) with hstop | hstop
      · exact .inl (head_cons hstop)
      · obtain ⟨hblank, hzero⟩ := not_or.mp hstop
        rcases Decidable.em (Quote c) with hquote | hquote
        · exact absurd h (bodyArgs_quote hquote t)
        cases hspace : isspace c with
        | true =>
          exact absurd h (bodyArgs_space hspace (Bool.eq_false_of_not_eq_true hblank) t)
        | false =>
          have hgo : strchr [' ', '\t'] c = false :=
            (strchr_blank hzero).trans (Bool.eq_false_of_not_eq_true hblank)
          exact .inr (bodyArgs_word hquote hspace hgo h)
  · rintro (hstop | hlone)
    · exact bodyArgs_stop hstop
    · exact bodyArgs_lone hlone

end

/-! ## The whole line -/

section
variable {lead ws rest cmd cmd' : List UInt8}

theorem strMatch_append (p s : List UInt8) : strMatch (p ++ s) p = true := by
  have heq : strnEq id (p ++ s) p = true := by
    induction p with
    | nil => rw [strnEq]
    | cons a p ih =>
      rw [List.cons_append, strnEq, ih, decide_eq_true rfl, Bool.or_true, Bool.and_true]
  rw [strMatch, heq]
  simp

theorem strMatch_space {c d : UInt8} (hc : isspace c = true) (hd : isspace d = false)
    (s p : List UInt8) : strMatch (d :: s) (c :: p) = false := by
  have hne : d ≠ c := by
    rintro rfl
    rw [hd] at hc
    cases hc
  rw [strMatch, strnEq, id, id, decide_eq_false hne, Bool.false_and, ite_self]

theorem isspace_of_isblank {c : UInt8} (hc : isblank c = true) : isspace c = true := by
  rcases isblank_cases hc with rfl | rfl <;> rfl

theorem leftover_blanks (hws : ∀ c ∈ ws, isblank c = true) (rest : List UInt8) :
    leftover (ws ++ rest) = leftover rest := by
  rw [leftover, leftover, strLtrim_space fun c hc => isspace_of_isblank (hws c hc)]

theorem replLine_congr (h : strLtrim cmd = strLtrim cmd')
    (keywords : Option (List (List UInt8))) (igncase : Bool) :
    replLine lead keywords igncase cmd = replLine lead keywords igncase cmd' := by
  rw [replLine, replLine, replArgs, replArgs, h]

/-- A line that begins with the prefix stands for the words behind it. -/
theorem replLine_carried {c : UInt8} (hc : isspace c = false) (lead w : List UInt8)
    (keywords : Option (List (List UInt8))) (igncase : Bool) :
    replLine (c :: lead) keywords igncase (c :: lead ++ w) =
      some (bodyArgs w, (bodyArgs w).map (replCode keywords igncase)) := by
  have hltrim : strLtrim (c :: lead ++ w) = c :: lead ++ w :=
    List.dropWhile_cons_of_neg (by simp [hc])
  have haccept : replAcceptChars (c :: lead) (c :: lead ++ w) = (w, true) := by
    rw [replAcceptChars, if_neg (by simp), strAccept, if_pos (strMatch_append _ _), strSkip,
      List.drop_left]
  rw [replLine, replArgs, hltrim, haccept, if_neg (by simp)]
  rfl

/-- No line carries a prefix that begins with white space and goes on. -/
theorem replLine_plain {c d : UInt8} {w : List UInt8} (hc : isspace c = true)
    (hd : isspace d = false) (hcmd : strLtrim cmd = d :: w)
    (keywords : Option (List (List UInt8))) (igncase : Bool) :
    replLine (c :: lead) keywords igncase cmd = some ([d :: w], [replText]) := by
  have haccept : replAcceptChars (c :: lead) (d :: w) = (d :: w, false) := by
    rw [replAcceptChars, if_neg (by simp), strAccept, strMatch_space hc hd]
    rfl
  rw [replLine, replArgs, hcmd, haccept, if_neg (by simp)]
  rfl

/-- What is trimmed in front of such a prefix does not reach behind it. -/
theorem strLtrim_lead (hlead : ¬∀ c ∈ lead, isspace c = true) :
    ∃ d w, isspace d = false ∧ ∀ x, strLtrim (lead ++ x) = d :: (w ++ x) := by
  obtain ⟨d, w, hltrim⟩ : ∃ d w, strLtrim lead = d :: w := by
    apply List.exists_cons_of_ne_nil
    exact fun hnil => hlead (List.dropWhile_eq_nil_iff.mp hnil)
  refine ⟨d, w, ?_, fun x => ?_⟩
  · have hhead := List.head?_dropWhile_not isspace lead
    rw [← strLtrim, hltrim] at hhead
    exact hhead
  · rw [strLtrim, List.dropWhile_append, ← strLtrim, hltrim]
    rfl

theorem replLine_carried_iff {b c : UInt8} (hc : isspace c = false)
    (hws : ∀ c ∈ b :: ws, isblank c = true) (lead rest : List UInt8)
    (keywords : Option (List (List UInt8))) (igncase : Bool) :
    replLine (c :: lead) keywords igncase (c :: lead ++ (b :: ws ++ rest)) =
        replLine (c :: lead) keywords igncase (c :: lead ++ rest) ↔ SplitsAlike rest := by
  have hblank : ∀ x ∈ (b :: ws ++ rest).head?, isblank x = true ∨ x = 0 :=
    head_cons (.inl (hws b List.mem_cons_self))
  have hbody : bodyArgs (b :: ws ++ rest) = leftover rest :=
    (bodyArgs_stop hblank).trans (leftover_blanks hws rest)
  rw [replLine_carried hc, replLine_carried hc, hbody, ← bodyArgs_leftover_iff]
  constructor
  · intro h
    exact (Prod.mk.inj (Option.some.inj h)).1.symm
  · intro h
    rw [h]

theorem replLine_plain_ne {b c : UInt8} (hc : isspace c = true)
    (hlead : ¬∀ x ∈ c :: lead, isspace x = true) (ws rest : List UInt8)
    (keywords : Option (List (List UInt8))) (igncase : Bool) :
    replLine (c :: lead) keywords igncase (c :: lead ++ (b :: ws ++ rest)) ≠
      replLine (c :: lead) keywords igncase (c :: lead ++ rest) := by
  obtain ⟨d, w, hd, hline⟩ := strLtrim_lead hlead
  rw [replLine_plain hc hd (hline _), replLine_plain hc hd (hline _)]
  intro h
  have hlen := congrArg (fun r => r.map fun x => x.1.flatten.length) h
  simp at hlen
  omega

theorem replLine_blanks_iff (hlead : lead ≠ []) (hws : ∀ c ∈ ws, isblank c = true)
    (rest : List UInt8) (keywords : Option (List (List UInt8))) (igncase : Bool) :
    replLine lead keywords igncase (lead ++ (ws ++ rest)) =
        replLine lead keywords igncase (lead ++ rest) ↔ BlanksIgnored lead ws rest := by
  cases ws with
  | nil => exact iff_of_true rfl (.inl rfl)
  | cons b ws =>
  rcases Decidable.em (∀ c ∈ lead, isspace c = true) with hall | hall
  · refine iff_of_true (replLine_congr ?_ keywords igncase) (.inr (.inl hall))
    rw [strLtrim_space hall, strLtrim_space hall,
      strLtrim_space fun c hc => isspace_of_isblank (hws c hc)]
  obtain ⟨c, lead, rfl⟩ := List.exists_cons_of_ne_nil hlead
  have hignored : BlanksIgnored (c :: lead) (b :: ws) rest ↔
      isspace c = false ∧ SplitsAlike rest := by
    constructor
    · rintro (hnil | hspace | ⟨hc, hsplit⟩)
      · cases hnil
      · exact absurd hspace hall
      · exact ⟨hc c rfl, hsplit⟩
    · exact fun ⟨hc, hsplit⟩ => .inr (.inr ⟨head_cons hc, hsplit⟩)
  rw [hignored]
  cases hc : isspace c with
  | false => rw [replLine_carried_iff hc hws, eq_self, true_and]
  | true =>
    refine iff_of_false (replLine_plain_ne hc hall ws rest keywords igncase) fun h => ?_
    exact Bool.true_eq_false.mp h.1

end

/-- White space between the prefix and the first word makes no difference in
these cases, and in no other. -/
theorem repl_blanks_iff {r : Repl} (hclear : r.Clear) {mem₁ mem₂ : Nat → UInt8} {cmd₁ cmd₂ : Str}
    (h₁ : r.Line cmd₁) (h₂ : r.Line cmd₂)
    (hsame : ∀ a, a < r.buf ∨ r.buf + r.len ≤ a → mem₂ a = mem₁ a) {lead ws rest : List UInt8}
    (hlead : lead ≠ []) (hws : ∀ c ∈ ws, isblank c = true) (hpattern : r.cmdPrefix.text mem₁ = lead)
    (htext₁ : cmd₁.text mem₁ = lead ++ (ws ++ rest)) (htext₂ : cmd₂.text mem₂ = lead ++ rest) :
    (replEval inPlace r mem₁ cmd₁).value.map (fun c => (c.args, c.argk)) =
        (replEval inPlace r mem₂ cmd₂).value.map (fun c => (c.args, c.argk)) ↔
      BlanksIgnored lead ws rest := by
  rw [replEval_line hclear h₁, replEval_line hclear h₂, text_clear hclear.cmdPrefix hsame,
    table_clear hclear hsame, hpattern, htext₁, htext₂]
  exact replLine_blanks_iff hlead hws rest (r.table mem₁) r.igncase

theorem lineBuffer_outside {c : UInt8} {w : List UInt8} (hw : w.length < 16) {a : Nat}
    (ha : a < 100 ∨ 100 + 16 ≤ a) : lineBuffer (c :: w) a = if a < 100 then c else 0 := by
  rw [lineBuffer]
  rcases ha with ha | ha
  · rw [if_pos ha, Nat.sub_eq_zero_of_le (Nat.le_of_lt ha)]
    rfl
  · have hend : (c :: w).length ≤ a - 100 := by
      rw [List.length_cons]
      omega
    rw [if_neg (by omega), List.getD_eq_getElem?_getD, List.getElem?_eq_none hend]
    rfl

theorem repl_blanks_iff_go :
    (replEval inPlace twoCommands (lineBuffer ['/', ' ', 'g', 'o']) ⟨100, 4⟩).value.map
        (fun c => (c.args, c.argk)) =
      (replEval inPlace twoCommands (lineBuffer ['/', 'g', 'o']) ⟨100, 3⟩).value.map
        (fun c => (c.args, c.argk)) := by
  have hlone : LoneWord ['g', 'o'] := by
    refine @LoneWord.intro 'g' ['o'] [] ?_ ?_ ?_ ?_ ?_ head_nil
    · simp [Quote]
    · rfl
    · simp [isblank]
    · simp [isspace]
    · simp
  have hsame : ∀ a, a < 100 ∨ 100 + 16 ≤ a →
      lineBuffer ['/', 'g', 'o'] a = lineBuffer ['/', ' ', 'g', 'o'] a := fun a ha =>
    (lineBuffer_outside (by decide) ha).trans (lineBuffer_outside (by decide) ha).symm
  refine (@repl_blanks_iff twoCommands twoCommands_clear _ _ _ _ (twoCommands_line (by decide))
    (twoCommands_line (by decide)) hsame ['/'] [' '] ['g', 'o'] (List.cons_ne_nil _ _)
    (List.forall_mem_singleton.mpr rfl) rfl rfl rfl).mpr (.inr (.inr ⟨?_, .inr hlone⟩))
  exact head_cons rfl

/-- The two words behind the blank are one argument. -/
theorem repl_blank_joins :
    let call := fun w len => (replEval inPlace twoCommands (lineBuffer w) ⟨100, len⟩).value.map
      fun c => (c.args, c.argk)
    call ['/', ' ', 'g', 'o', ' ', 'x'] 6 =
        some (([['g', 'o', ' ', 'x']] : List (List UInt8)), [2]) ∧
      call ['/', 'g', 'o', ' ', 'x'] 5 =
        some (([['g', 'o'], ['x']] : List (List UInt8)), [2, -1]) ∧
      call ['/', ' ', 'g', 'o', ' ', 'x'] 6 ≠ call ['/', 'g', 'o', ' ', 'x'] 5 := by
  decide

end Wifimodem
