import Wifimodem.Util.ReplLine

/-!
# The words of a line

A word is read in one of four shapes. Text is lost in one of them, where a quote
is never closed: what was read behind it goes into no word.
-/

namespace Wifimodem

open Str

def isblank (c : UInt8) : Bool := c = ' ' || c = '\t'

def Quote (c : UInt8) : Prop := c = '"' ∨ c = '\''

instance (c : UInt8) : Decidable (Quote c) := inferInstanceAs (Decidable (_ ∨ _))

/-- Neither a zero nor an escape. -/
def Unescaped (w : List UInt8) : Prop := ∀ c ∈ w, c ≠ 0 ∧ c ≠ '\\'

/-- How such a text begins: the rest and the word, if there is one. -/
inductive WordShape : List UInt8 → List UInt8 × Option (List UInt8) → Prop where
  | stop {w : List UInt8} : (∀ c ∈ w.head?, isblank c = true) → WordShape w (w, none)
  | opened {q : UInt8} {t : List UInt8} : Quote q → q ∉ t → WordShape (q :: t) ([], none)
  | quoted {q : UInt8} {t rest : List UInt8} : Quote q → q ∉ t →
      WordShape (q :: (t ++ q :: rest)) (rest, some t)
  | plain {c : UInt8} {t rest : List UInt8} : ¬Quote c → (∀ x ∈ c :: t, isblank x = false) →
      (∀ x ∈ rest.head?, isblank x = true) → WordShape (c :: (t ++ rest)) (rest, some (c :: t))

/-! ## Reading each shape -/

section
variable {w t rest delm : List UInt8} {c q : UInt8}

theorem strchr_blank (hc : c ≠ 0) : strchr [' ', '\t'] c = isblank c := by
  simp [strchr, isblank, hc]

theorem readstrChars_to (ht : ∀ x ∈ t, x ≠ '\\' ∧ strchr delm x = false)
    (hrest : ∀ x ∈ rest.head?, x ≠ '\\' ∧ strchr delm x = true) :
    readstrChars delm false (t ++ rest) = (rest, t) := by
  induction t with
  | nil =>
    cases rest with
    | nil => rfl
    | cons x rest =>
      obtain ⟨hesc, hstop⟩ := hrest x rfl
      rw [List.nil_append, readstrChars, if_neg hesc, if_pos hstop]
  | cons x t ih =>
    obtain ⟨hesc, hgo⟩ := ht x List.mem_cons_self
    rw [List.cons_append, readstrChars, if_neg hesc, if_neg (by rw [hgo]; exact Bool.false_ne_true),
      ih fun y hy => ht y (List.mem_cons_of_mem x hy)]

theorem head_nil {p : UInt8 → Prop} : ∀ x ∈ ([] : List UInt8).head?, p x := by
  intro x hx
  cases hx

theorem head_cons {p : UInt8 → Prop} (hc : p c) : ∀ x ∈ (c :: w).head?, p x := by
  intro x hx
  obtain rfl := Option.some.inj hx
  exact hc

theorem accepts_quote (hq : Quote q) (t : List UInt8) :
    readqstrChars (q :: t) = readQuotedChars q t := by
  rcases hq with rfl | rfl
  · rw [readqstrChars, strAccept_char (by decide), if_pos rfl]
    rfl
  · rw [readqstrChars, strAccept_char (by decide), if_neg (by decide)]
    simp only [Bool.false_eq_true, if_false]
    rw [strAccept_char (by decide), if_pos rfl]
    rfl

theorem readqstrChars_plain (hw : ∀ c ∈ w.head?, ¬Quote c) :
    readqstrChars w = (w, none, false) := by
  cases w with
  | nil => rfl
  | cons c w =>
    obtain ⟨hdouble, hsingle⟩ := not_or.mp (hw c rfl)
    rw [readqstrChars, strAccept_char (by decide), if_neg hdouble]
    simp only [Bool.false_eq_true, if_false]
    rw [strAccept_char (by decide), if_neg hsingle]
    rfl

theorem quote_zero (hq : Quote q) : q ≠ 0 ∧ q ≠ '\\' := by
  rcases hq with rfl | rfl <;> decide

theorem quote_passes (ht : q ∉ t) (hplain : Unescaped t) :
    ∀ x ∈ t, x ≠ '\\' ∧ strchr [q] x = false := by
  intro x hx
  obtain ⟨hzero, hesc⟩ := hplain x hx
  exact ⟨hesc, by simp [strchr, hzero, ne_of_mem_of_not_mem hx ht]⟩

/-- The word that begins at a quote is read up to the same quote. -/
theorem replWordChars_closed {word : List UInt8} (hq : Quote q)
    (hread : readstrChars [q] false t = (q :: rest, word)) :
    replWordChars (q :: t) = (rest, some word) := by
  rw [replWordChars, accepts_quote hq, readQuotedChars, hread]
  simp only
  rw [strAccept_char (quote_zero hq).1, if_pos rfl]

/-- A word that is not closed is dropped, and what is left is read without quotes. -/
theorem replWordChars_unclosed {word : List UInt8} (hq : Quote q)
    (hread : readstrChars [q] false t = (rest, word)) (hrest : ∀ c ∈ rest.head?, c ≠ q) :
    replWordChars (q :: t) = ((readstrChars [' ', '\t'] false rest).1,
      if (readstrChars [' ', '\t'] false rest).2.length = 0 then none
      else some (readstrChars [' ', '\t'] false rest).2) := by
  have haccept : strAccept rest [q] = (rest, false) := by
    cases rest with
    | nil => rfl
    | cons c rest => rw [strAccept_char (quote_zero hq).1, if_neg (hrest c rfl)]
  rw [replWordChars, accepts_quote hq, readQuotedChars, hread]
  simp only
  rw [haccept]

theorem replWordChars_opened (hq : Quote q) (ht : q ∉ t) (hplain : Unescaped t) :
    replWordChars (q :: t) = ([], none) := by
  have hread : readstrChars [q] false (t ++ []) = ([], t) :=
    readstrChars_to (quote_passes ht hplain) head_nil
  rw [List.append_nil] at hread
  exact replWordChars_unclosed hq hread head_nil

theorem replWordChars_quoted (hq : Quote q) (ht : q ∉ t) (hplain : Unescaped t)
    (rest : List UInt8) : replWordChars (q :: (t ++ q :: rest)) = (rest, some t) := by
  obtain ⟨_, hqesc⟩ := quote_zero hq
  apply replWordChars_closed hq
  exact readstrChars_to (quote_passes ht hplain) (head_cons ⟨hqesc, by simp [strchr]⟩)

theorem replWordChars_unquoted (hw : ∀ c ∈ w.head?, ¬Quote c) :
    replWordChars w = ((readstrChars [' ', '\t'] false w).1,
      if (readstrChars [' ', '\t'] false w).2.length = 0 then none
      else some (readstrChars [' ', '\t'] false w).2) := by
  rw [replWordChars, readqstrChars_plain hw]

theorem isblank_cases {c : UInt8} (hc : isblank c = true) : c = ' ' ∨ c = '\t' := by
  rwa [isblank, Bool.or_eq_true, decide_eq_true_eq, decide_eq_true_eq] at hc

/-- A blank or a zero ends a word. -/
theorem stops_word {c : UInt8} (hc : isblank c = true ∨ c = 0) :
    c ≠ '\\' ∧ strchr [' ', '\t'] c = true ∧ ¬Quote c := by
  rcases hc with hblank | rfl
  · rcases isblank_cases hblank with rfl | rfl <;> decide
  · decide

/-- Neither a blank nor a zero begins a word. -/
theorem replWordChars_stop (hw : ∀ c ∈ w.head?, isblank c = true ∨ c = 0) :
    replWordChars w = (w, none) := by
  have hread : readstrChars [' ', '\t'] false ([] ++ w) = (w, []) := by
    apply readstrChars_to (List.forall_mem_nil _)
    intro c hc
    obtain ⟨hesc, hstop, _⟩ := stops_word (hw c hc)
    exact ⟨hesc, hstop⟩
  rw [List.nil_append] at hread
  rw [replWordChars_unquoted fun c hc => (stops_word (hw c hc)).2.2, hread]
  rfl

theorem replWordChars_plain (hc : ¬Quote c)
    (ht : ∀ x ∈ c :: t, x ≠ 0 ∧ x ≠ '\\' ∧ isblank x = false)
    (hrest : ∀ x ∈ rest.head?, isblank x = true) :
    replWordChars (c :: (t ++ rest)) = (rest, some (c :: t)) := by
  have hread : readstrChars [' ', '\t'] false ((c :: t) ++ rest) = (rest, c :: t) := by
    apply readstrChars_to
    · intro x hx
      obtain ⟨hzero, hesc, hblank⟩ := ht x hx
      exact ⟨hesc, (strchr_blank hzero).trans hblank⟩
    · intro x hx
      obtain ⟨hesc, hstop, _⟩ := stops_word (.inl (hrest x hx))
      exact ⟨hesc, hstop⟩
  rw [List.cons_append] at hread
  rw [replWordChars_unquoted, hread]
  · rfl
  · exact head_cons hc

theorem wordShape (hplain : Unescaped w) : WordShape w (replWordChars w) := by
  cases w with
  | nil => exact .stop head_nil
  | cons c w =>
    have htail : Unescaped w := fun x hx => hplain x (List.mem_cons_of_mem c hx)
    rcases Decidable.em (Quote c) with hq | hq
    · rcases Decidable.em (c ∈ w) with hmem | hmem
      · obtain ⟨t, rest, rfl, ht⟩ := List.eq_append_cons_of_mem hmem
        rw [replWordChars_quoted hq ht fun x hx => htail x (List.mem_append_left _ hx)]
        exact .quoted hq ht
      · rw [replWordChars_opened hq hmem htail]
        exact .opened hq hmem
    cases hblank : isblank c with
    | true =>
      rw [replWordChars_stop (head_cons (.inl hblank))]
      exact .stop (head_cons hblank)
    | false =>
      have hw : w = w.takeWhile (fun x => !isblank x) ++ w.dropWhile (fun x => !isblank x) :=
        List.takeWhile_append_dropWhile.symm
      have ht : ∀ x ∈ c :: w.takeWhile (fun x => !isblank x), isblank x = false := by
        intro x hx
        rcases List.mem_cons.mp hx with rfl | hx
        · exact hblank
        · simpa using List.mem_takeWhile_imp hx
      have hrest : ∀ x ∈ (w.dropWhile fun x => !isblank x).head?, isblank x = true := by
        intro x hx
        have hhead := List.head?_dropWhile_not (fun x => !isblank x) w
        rw [Option.mem_def.mp hx] at hhead
        simpa using hhead
      generalize w.takeWhile (fun x => !isblank x) = t at hw ht
      generalize w.dropWhile (fun x => !isblank x) = rest at hw hrest
      subst hw
      rw [replWordChars_plain hq _ hrest]
      · exact .plain hq ht hrest
      · intro x hx
        obtain ⟨hzero, hesc⟩ := hplain x (List.mem_append_left rest hx)
        exact ⟨hzero, hesc, ht x hx⟩

/-! ## The text of the words -/

/-- Neither white space nor a quote. -/
def visible (c : UInt8) : Bool := !isspace c && !decide (Quote c)

/-- The text begins with less than `n` words, and then a quote that is not closed
with visible text behind it. -/
inductive OpenQuote : Nat → List UInt8 → Prop where
  | here {n : Nat} {q : UInt8} {t : List UInt8} : Quote q → q ∉ t →
      (∃ c ∈ t, visible c = true) → OpenQuote (n + 1) (q :: t)
  | quoted {n : Nat} {q : UInt8} {t rest : List UInt8} : Quote q → q ∉ t →
      OpenQuote n (rest.dropWhile isspace) → OpenQuote (n + 1) (q :: (t ++ q :: rest))
  | plain {n : Nat} {c : UInt8} {t rest : List UInt8} : ¬Quote c →
      (∀ x ∈ c :: t, isblank x = false) → (∀ x ∈ rest.head?, isblank x = true) →
      OpenQuote n (rest.dropWhile isspace) → OpenQuote (n + 1) (c :: (t ++ rest))

theorem openQuote_stop {n : Nat} (hw : ∀ c ∈ w.head?, isblank c = true) : ¬OpenQuote n w := by
  have hquote : ∀ q, Quote q → isblank q ≠ true := by
    rintro q (rfl | rfl) <;> decide
  intro h
  cases h with
  | here hq | quoted hq => exact hquote _ hq (hw _ rfl)
  | plain _ ht =>
    have hblank := hw _ rfl
    rw [ht _ List.mem_cons_self] at hblank
    cases hblank

theorem openQuote_opened {n : Nat} (hq : Quote q) (ht : q ∉ t) :
    OpenQuote (n + 1) (q :: t) ↔ ∃ c ∈ t, visible c = true := by
  constructor
  · intro h
    cases h with
    | here _ _ hvisible => exact hvisible
    | quoted => exact absurd (List.mem_append_right _ List.mem_cons_self) ht
    | plain hc => exact absurd hq hc
  · exact .here hq ht

/-- What comes before the first character with `p`, and the rest. -/
theorem split_unique {p : UInt8 → Bool} {t' rest' : List UInt8} (h : t ++ rest = t' ++ rest')
    (ht : ∀ x ∈ t, p x = false) (ht' : ∀ x ∈ t', p x = false)
    (hrest : ∀ x ∈ rest.head?, p x = true) (hrest' : ∀ x ∈ rest'.head?, p x = true) :
    t = t' ∧ rest = rest' := by
  induction t generalizing t' with
  | nil =>
    cases t' with
    | nil => exact ⟨rfl, h⟩
    | cons x t' =>
      rw [List.nil_append] at h
      subst h
      have hpx := hrest x rfl
      rw [ht' x List.mem_cons_self] at hpx
      cases hpx
  | cons x t ih =>
    cases t' with
    | nil =>
      rw [List.nil_append] at h
      subst h
      have hpx := hrest' x rfl
      rw [ht x List.mem_cons_self] at hpx
      cases hpx
    | cons y t' =>
      obtain ⟨rfl, htail⟩ := List.cons.inj h
      obtain ⟨rfl, hsame⟩ := ih htail (fun z hz => ht z (List.mem_cons_of_mem x hz))
        fun z hz => ht' z (List.mem_cons_of_mem x hz)
      exact ⟨rfl, hsame⟩

theorem openQuote_quoted {n : Nat} (hq : Quote q) (ht : q ∉ t) :
    OpenQuote (n + 1) (q :: (t ++ q :: rest)) ↔ OpenQuote n (rest.dropWhile isspace) := by
  constructor
  · intro h
    generalize hw : q :: (t ++ q :: rest) = w at h
    cases h with
    | here _ ht' =>
      obtain ⟨rfl, rfl⟩ := List.cons.inj hw
      exact absurd (List.mem_append_right t List.mem_cons_self) ht'
    | quoted _ ht' hrest =>
      obtain ⟨rfl, htail⟩ := List.cons.inj hw
      have hother : ∀ {t : List UInt8}, q ∉ t → ∀ x ∈ t, (x == q) = false :=
        fun hq x hx => beq_false_of_ne (ne_of_mem_of_not_mem hx hq)
      obtain ⟨_, hsame⟩ := split_unique htail (hother ht) (hother ht')
        (head_cons (beq_self_eq_true q)) (head_cons (beq_self_eq_true q))
      obtain ⟨_, rfl⟩ := List.cons.inj hsame
      exact hrest
    | plain hc =>
      obtain ⟨rfl, _⟩ := List.cons.inj hw
      exact absurd hq hc
  · exact .quoted hq ht

theorem openQuote_plain {n : Nat} (hc : ¬Quote c) (ht : ∀ x ∈ c :: t, isblank x = false)
    (hrest : ∀ x ∈ rest.head?, isblank x = true) :
    OpenQuote (n + 1) (c :: (t ++ rest)) ↔ OpenQuote n (rest.dropWhile isspace) := by
  constructor
  · intro h
    generalize hw : c :: (t ++ rest) = w at h
    cases h with
    | here hq | quoted hq =>
      obtain ⟨rfl, _⟩ := List.cons.inj hw
      exact absurd hq hc
    | plain _ ht' hrest' hopen =>
      obtain ⟨rfl, htail⟩ := List.cons.inj hw
      obtain ⟨_, rfl⟩ := split_unique htail (List.forall_mem_cons.mp ht).2
        (List.forall_mem_cons.mp ht').2 hrest hrest'
      exact hopen
  · exact .plain hc ht hrest

theorem filter_ltrim (w : List UInt8) : (strLtrim w).filter visible = w.filter visible := by
  induction w with
  | nil => rfl
  | cons c w ih =>
    rw [strLtrim, List.dropWhile_cons]
    split
    · rename_i hc
      rw [List.filter_cons_of_neg (by simp [visible, hc])]
      exact ih
    · rfl

theorem filter_rtrim (w : List UInt8) :
    (w.rdropWhile isspace).filter visible = w.filter visible := by
  have hltrim := filter_ltrim w.reverse
  rw [List.filter_reverse] at hltrim
  rw [List.rdropWhile, List.filter_reverse, ← strLtrim, hltrim, List.reverse_reverse]

theorem filter_quote (hq : Quote q) (w : List UInt8) :
    (q :: w).filter visible = w.filter visible :=
  List.filter_cons_of_neg (by simp [visible, hq])

/-- Words and rest together hold the visible text, unless a quote stays open. -/
theorem replWordsChars_keeps_iff (n : Nat) (args : List (List UInt8)) (hplain : Unescaped w) :
    ((replWordsChars n w args).2.flatten ++ (replWordsChars n w args).1).filter visible =
        (args.flatten ++ w).filter visible ↔ ¬OpenQuote n w := by
  induction n generalizing w args with
  | zero => exact iff_of_true rfl fun h => nomatch h
  | succ n ih =>
    have hshape := wordShape hplain
    rw [replWordsChars]
    generalize replWordChars w = r at hshape
    cases hshape with
    | stop hw => exact iff_of_true rfl (openQuote_stop hw)
    | @opened q t hq ht =>
      simp only
      rw [openQuote_opened hq ht, List.append_nil, List.filter_append, filter_quote hq,
        List.self_eq_append_right, List.filter_eq_nil_iff]
      simp
    | @quoted q t rest hq ht =>
      have hrest : Unescaped (strLtrim rest) := fun x hx =>
        hplain x (List.mem_cons_of_mem q (List.mem_append_right t
          (List.mem_cons_of_mem q ((List.dropWhile_suffix isspace).subset hx))))
      have hkeep : ((args ++ [t]).flatten ++ strLtrim rest).filter visible =
          (args.flatten ++ q :: (t ++ q :: rest)).filter visible := by
        simp only [List.flatten_append, List.flatten_singleton, List.filter_append, filter_ltrim,
          filter_quote hq, List.append_assoc]
      rw [openQuote_quoted hq ht, ← hkeep]
      exact ih (args ++ [t]) hrest
    | @plain c t rest hc ht hblank =>
      have hrest : Unescaped (strLtrim rest) := fun x hx =>
        hplain x (List.mem_cons_of_mem c (List.mem_append_right t
          ((List.dropWhile_suffix isspace).subset hx)))
      have hkeep : ((args ++ [c :: t]).flatten ++ strLtrim rest).filter visible =
          (args.flatten ++ c :: (t ++ rest)).filter visible := by
        rw [List.flatten_append, List.flatten_singleton, List.append_assoc, List.filter_append,
          List.filter_append, filter_ltrim, ← List.filter_append, ← List.filter_append,
          List.cons_append]
      rw [openQuote_plain hc ht hblank, ← hkeep]
      exact ih (args ++ [c :: t]) hrest

/-- What is left of a line when the prefix it carries is removed. -/
def lineBody (lead cmd : List UInt8) : List UInt8 :=
  let w := cmd.dropWhile isspace
  if lead <+: w then w.drop lead.length else w

/-- The words show the visible text of the line, in order. -/
def KeepsText (lead cmd : List UInt8) (args : List (List UInt8)) : Prop :=
  args.flatten.filter visible = (lineBody lead cmd).filter visible

theorem replAcceptChars_body {lead cmd : List UInt8} (hplain : Unescaped cmd) :
    replAcceptChars lead (strLtrim cmd) =
      (lineBody lead cmd, decide (lead <+: strLtrim cmd)) := by
  have hzero : 0 ∉ strLtrim cmd := fun h =>
    (hplain 0 ((List.dropWhile_suffix isspace).subset h)).1 rfl
  have hmatch := @strMatch_iff_text (strLtrim cmd) lead hzero
  rw [replAcceptChars, lineBody, ← strLtrim]
  split
  · rename_i hnil
    rw [List.length_eq_zero_iff.mp hnil]
    simp
  · rw [strAccept]
    cases Decidable.em (lead <+: strLtrim cmd) with
    | inl hcarries =>
      rw [if_pos (hmatch.mpr hcarries), if_pos hcarries, decide_eq_true hcarries, strSkip]
    | inr hcarries =>
      rw [if_neg (mt hmatch.mp hcarries), if_neg hcarries, decide_eq_false hcarries]

theorem unescaped_body {lead cmd : List UInt8} (hplain : Unescaped cmd) :
    Unescaped (lineBody lead cmd) := by
  intro x hx
  apply hplain
  apply (List.dropWhile_suffix isspace).subset
  rw [lineBody] at hx
  split at hx
  · exact List.mem_of_mem_drop hx
  · exact hx

/-- What is left behind the words is one more argument, if it is not blank. -/
theorem flatten_leftover (args : List (List UInt8)) (w : List UInt8) :
    (if ((strLtrim w).rdropWhile isspace).length > 0
      then args ++ [(strLtrim w).rdropWhile isspace] else args).flatten.filter visible =
      (args.flatten ++ w).filter visible := by
  have hlast : ((strLtrim w).rdropWhile isspace).filter visible = w.filter visible := by
    rw [filter_rtrim, filter_ltrim]
  split
  · rw [List.flatten_append, List.flatten_singleton, List.filter_append, hlast, List.filter_append]
  · rename_i hblank
    rw [List.eq_nil_of_length_eq_zero (Nat.eq_zero_of_not_pos hblank)] at hlast
    rw [List.filter_append, ← hlast, List.filter_nil, List.append_nil]

theorem replArgs_keeps_iff {lead cmd : List UInt8} (hplain : Unescaped cmd) :
    KeepsText lead cmd ((replArgs lead cmd).getD []) ↔
      (lead <+: cmd.dropWhile isspace → ¬OpenQuote (replArgvNum - 1) (lineBody lead cmd)) := by
  rw [KeepsText, replArgs, replAcceptChars_body hplain, ← strLtrim]
  split
  · rename_i hblank
    have hnil := List.length_eq_zero_iff.mp hblank
    have hbody : lineBody lead cmd = [] := by
      rw [lineBody, ← strLtrim, hnil]
      simp
    rw [hbody]
    exact iff_of_true rfl fun _ => openQuote_stop head_nil
  · cases Decidable.em (lead <+: strLtrim cmd) with
    | inl hcarries =>
      have hbody : Unescaped (lineBody lead cmd) := unescaped_body hplain
      have hkeeps := replWordsChars_keeps_iff (replArgvNum - 1) [] hbody
      rw [decide_eq_true hcarries, forall_prop_of_true hcarries, ← hkeeps]
      simp only [Option.getD_some, flatten_leftover]
      rfl
    | inr hcarries =>
      have hbody : lineBody lead cmd = strLtrim cmd := if_neg hcarries
      rw [decide_eq_false hcarries]
      exact iff_of_true (by simp) fun h => absurd h hcarries

end

theorem repl_keeps_text_iff {r : Repl} {cmd : Str} {mem : Nat → UInt8} (h : r.Line cmd)
    (hplain : Unescaped (cmd.text mem)) :
    KeepsText (r.cmdPrefix.text mem) (cmd.text mem)
        (((replEval inPlace r mem cmd).value.map ReplCall.args).getD []) ↔
      (r.cmdPrefix.text mem <+: (cmd.text mem).dropWhile isspace →
        ¬OpenQuote (replArgvNum - 1) (lineBody (r.cmdPrefix.text mem) (cmd.text mem))) := by
  rw [replEval_args (keeps_inPlace _ _) fun p => h.capacity]
  exact replArgs_keeps_iff hplain

theorem repl_keeps_text_iff_quoted :
    let mem := lineBuffer ['/', '\'', 'a', ' ', 'b', '\'']
    KeepsText ['/'] ['/', '\'', 'a', ' ', 'b', '\'']
      (((replEval inPlace twoCommands mem ⟨100, 6⟩).value.map ReplCall.args).getD []) := by
  intro mem
  have hline : twoCommands.Line ⟨100, 6⟩ := twoCommands_line (by decide)
  have hplain : Unescaped (text mem ⟨100, 6⟩) := by
    have htext : text mem ⟨100, 6⟩ = ['/', '\'', 'a', ' ', 'b', '\''] := rfl
    rw [htext]
    simp [Unescaped]
  refine (repl_keeps_text_iff hline hplain).mpr fun _ => ?_
  have hclosed := @openQuote_quoted ['a', ' ', 'b'] [] '\'' 14 (.inr rfl) (by decide)
  exact mt hclosed.mp (openQuote_stop head_nil)

/-- The quote is not closed, and what is behind it goes into no word. -/
theorem repl_drops_open_quote :
    let mem := lineBuffer ['/', 'g', 'o', ' ', '"', 'a', 'b']
    (replEval inPlace twoCommands mem ⟨100, 7⟩).value.map ReplCall.args =
        some ([['g', 'o']] : List (List UInt8)) ∧
      ¬KeepsText ['/'] ['/', 'g', 'o', ' ', '"', 'a', 'b'] [['g', 'o']] := by
  refine ⟨by decide, ?_⟩
  intro h
  have hlen := congrArg List.length h
  exact absurd hlen (by decide)

end Wifimodem
