import Wifimodem.Core.StrText

/-!
# Splitting a command into words

Each word is decoded into the bytes it is read from. The destination of a word is
a parameter here, so that the same code also decodes into separate storage.
-/

namespace Wifimodem

open Str Traced

def replArgvNum : Nat := 16
def replUnknown : Int := 0
def replText : Int := 1

structure Repl where
  buf : Nat
  len : Nat
  cmdPrefix : Pattern
  keywords : Option (List Pattern)
  igncase : Bool

/-- The memory and the arguments that are handed to `eval`. -/
structure ReplCall where
  mem : Nat → UInt8
  argv : List Str
  argk : List Int

def replInit : Repl := ⟨0, 0, .literal [], none, false⟩

def replSetbuf (r : Repl) (buf len : Nat) : Repl := { r with buf := buf, len := len }

section
variable (place : Nat → Nat → Nat) (r : Repl)

/-- Word `k`, in quotes or up to a blank. `place k` is where the word goes when it
is read from the given address. -/
def replWord (k : Nat) (mem : Nat → UInt8) (tok : Str) :
    Traced Access ((Nat → UInt8) × Str × Option Str) := do
  let l := usub (r.buf + r.len) tok.ptr
  let (mem, tok, quoted, closed) ← tok.readqstr mem (place k tok.ptr) l
  if closed then pure (mem, tok, quoted)
  else
    let (mem, tok, v) ← tok.readstr mem (place k tok.ptr) l (some [' ', '\t'])
    pure (mem, tok, if v.len = 0 then none else some v)

def replWords : Nat → (Nat → UInt8) → Str → List Str →
    Traced Access ((Nat → UInt8) × Str × List Str)
  | 0, mem, tok, argv => pure (mem, tok, argv)
  | n + 1, mem, tok, argv => do
    let (mem, tok, v) ← replWord place r argv.length mem tok
    match v with
    | none => pure (mem, tok, argv)
    | some v =>
      let tok ← tok.ltrim mem
      replWords n mem tok (argv ++ [v])

def replKey (mem : Nat → UInt8) (v : Str) : Traced Access Int :=
  match r.keywords with
  | none => pure replUnknown
  | some keywords => if r.igncase then v.matchiv mem keywords else v.matchv mem keywords

def replKeys (mem : Nat → UInt8) : List Str → Traced Access (List Int)
  | [] => pure []
  | v :: argv => do
    let k ← replKey r mem v
    let ks ← replKeys mem argv
    pure (k :: ks)

def replAccept (mem : Nat → UInt8) (tok : Str) : Traced Access (Str × Bool) :=
  if r.cmdPrefix.len = 0 then pure (tok, true) else tok.accept mem r.cmdPrefix

/-- The call of `eval`, or nothing when the command is blank. -/
def replEval (mem : Nat → UInt8) (cmd : Str) : Traced Access (Option ReplCall) := do
  let tok ← cmd.ltrim mem
  if tok.len = 0 then pure none
  else
    let (tok, accepted) ← replAccept r mem tok
    if accepted then
      let (mem, tok, argv) ← replWords place r (replArgvNum - 1) mem tok []
      let tok ← tok.trim mem
      let argv := if tok.len > 0 then argv ++ [tok] else argv
      let argk ← replKeys r mem argv
      pure (some ⟨mem, argv, argk⟩)
    else pure (some ⟨mem, [tok], [replText]⟩)

end

/-! ## The words of a text -/

def replWordChars (w : List UInt8) : List UInt8 × Option (List UInt8) :=
  match readqstrChars w with
  | (w, quoted, true) => (w, quoted)
  | (w, _, false) =>
    match readstrChars [' ', '\t'] false w with
    | (w, v) => (w, if v.length = 0 then none else some v)

def replWordsChars : Nat → List UInt8 → List (List UInt8) → List UInt8 × List (List UInt8)
  | 0, w, args => (w, args)
  | n + 1, w, args =>
    match replWordChars w with
    | (w, none) => (w, args)
    | (w, some v) => replWordsChars n (strLtrim w) (args ++ [v])

def replAcceptChars (lead w : List UInt8) : List UInt8 × Bool :=
  if lead.length = 0 then (w, true) else strAccept w lead

def replArgs (lead cmd : List UInt8) : Option (List (List UInt8)) :=
  let w := strLtrim cmd
  if w.length = 0 then none
  else
    match replAcceptChars lead w with
    | (w, false) => some [w]
    | (w, true) =>
      match replWordsChars (replArgvNum - 1) w [] with
      | (w, args) =>
        let last := (strLtrim w).rdropWhile isspace
        some (if last.length > 0 then args ++ [last] else args)

/-! ## Destinations that keep what is read -/

/-- Between `lo` and `hi`, a word is stored behind the place it is read from, and
clear of the words before it. -/
structure Keeps (place : Nat → Nat → Nat) (lo hi : Nat) : Prop where
  behind : ∀ k p, lo ≤ p → p ≤ hi → Behind (place k p) ⟨p, hi - p⟩
  apart : ∀ k k' p p' i j, k < k' → lo ≤ p → p + i < p' → p' + j < hi →
    place k p + i ≠ place k' p' + j

/-- In place, a word goes where it is read from. -/
def inPlace (_ p : Nat) : Nat := p

/-- Word `k` goes to a buffer of its own. -/
def separate (base : Nat → Nat) (k _ : Nat) : Nat := base k

/-- The buffers are as large as the one that is read, and apart from it and from
each other. -/
structure Separate (r : Repl) (base : Nat → Nat) : Prop where
  fromBuf : ∀ k i j, i < r.len → j < r.len → base k + i ≠ r.buf + j
  fromOther : ∀ k k' i j, k ≠ k' → i < r.len → j < r.len → base k + i ≠ base k' + j

theorem keeps_inPlace (lo hi : Nat) : Keeps inPlace lo hi where
  behind := by
    intro k p _ _ j i hji _
    simp only [inPlace]
    omega
  apart := by
    intro k k' p p' i j _ _ hpi _
    simp only [inPlace]
    omega

theorem keeps_separate {r : Repl} {base : Nat → Nat} {lo hi : Nat} (h : Separate r base)
    (hlo : r.buf ≤ lo) (hhi : hi ≤ r.buf + r.len) : Keeps (separate base) lo hi where
  behind := by
    intro k p hp hphi j i hji hi
    simp only at hi
    have hne := h.fromBuf k j (p - r.buf + i) (by omega) (by omega)
    simp only [separate]
    omega
  apart := by
    intro k k' p p' i j hk hp hpi hj
    exact h.fromOther k k' i j (Nat.ne_of_lt hk) (by omega) (by omega)

/-! ## Reading the words -/

variable {place : Nat → Nat → Nat} {lo hi k : Nat} {r : Repl} {mem mem' : Nat → UInt8} {tok : Str}

/-- Reading word `k` has left `rest`, and has stored nothing that is still to be
read or that lies outside the destinations for what was read. -/
structure WordRead (place : Nat → Nat → Nat) (k : Nat) (mem : Nat → UInt8) (tok : Str)
    (mem' : Nat → UInt8) (rest : List UInt8) (v : Option Str) : Prop where
  shorter : rest.length ≤ tok.len
  unread : (tok.after rest).text mem' = rest
  placed : ∀ u ∈ v, ∃ p, tok.ptr ≤ p ∧ p + u.len ≤ (tok.after rest).ptr ∧ u.ptr = place k p
  frame : ∀ a, (∀ p j, tok.ptr ≤ p → p + j < (tok.after rest).ptr → a ≠ place k p + j) →
    mem' a = mem a

theorem Keeps.behind_at (h : Keeps place lo hi) (hlo : lo ≤ tok.ptr)
    (hend : tok.ptr + tok.len = hi) : Behind (place k tok.ptr) tok := by
  have hbehind := h.behind k tok.ptr hlo (by omega)
  have hlen : hi - tok.ptr = tok.len := by omega
  rwa [hlen] at hbehind

theorem wordRead_of_stores {word rest : List UInt8} {v : Option Str}
    (hstores : Str.Stores mem mem' (place k tok.ptr) word) (hbehind : Behind (place k tok.ptr) tok)
    (hlen : rest.length + word.length ≤ tok.len) (hsuffix : rest <:+ tok.text mem)
    (hv : ∀ u ∈ v, u = ⟨place k tok.ptr, word.length⟩) :
    WordRead place k mem tok mem' rest v := by
  have hptr : (tok.after rest).ptr = tok.ptr + (tok.len - rest.length) := rfl
  refine ⟨by omega, stores_after hstores (hbehind.within _) hlen hsuffix, ?_, ?_⟩
  · intro u hu
    have hlenu := congrArg Str.len (hv u hu)
    simp only at hlenu
    exact ⟨tok.ptr, Nat.le_refl _, by omega, congrArg Str.ptr (hv u hu)⟩
  · intro a ha
    apply hstores.frame
    have hne := ha tok.ptr (a - place k tok.ptr) (Nat.le_refl _)
    omega

theorem WordRead.trans {mem₁ mem₂ : Nat → UInt8} {rest₁ rest₂ : List UInt8} {v₁ v₂ : Option Str}
    (h₁ : WordRead place k mem tok mem₁ rest₁ v₁)
    (h₂ : WordRead place k mem₁ (tok.after rest₁) mem₂ rest₂ v₂) :
    WordRead place k mem tok mem₂ rest₂ v₂ := by
  have hafter : (tok.after rest₁).after rest₂ = tok.after rest₂ :=
    after_after h₂.shorter h₁.shorter
  have hptr₁ : (tok.after rest₁).ptr = tok.ptr + (tok.len - rest₁.length) := rfl
  have hptr₂ : (tok.after rest₂).ptr = tok.ptr + (tok.len - rest₂.length) := rfl
  have hle₂ : rest₂.length ≤ rest₁.length := h₂.shorter
  have hunread := h₂.unread
  have hplaced := h₂.placed
  have hframe := h₂.frame
  rw [hafter] at hunread hplaced hframe
  refine ⟨Nat.le_trans hle₂ h₁.shorter, hunread, ?_, ?_⟩
  · intro u hu
    obtain ⟨p, hp, hfit, hplace⟩ := hplaced u hu
    exact ⟨p, by omega, hfit, hplace⟩
  · intro a ha
    rw [hframe a fun p j hp hj => ha p j (by omega) hj]
    exact h₁.frame a fun p j hp hj => ha p j hp (by omega)

theorem plainWord_eq (tok : Str) (k cap : Nat) (mem : Nat → UInt8) (h : Keeps place lo hi)
    (hlo : lo ≤ tok.ptr) (hend : tok.ptr + tok.len = hi) (hcap : tok.len ≤ cap) :
    ∃ mem', (tok.readstr mem (place k tok.ptr) cap (some [' ', '\t'])).value =
        (mem', tok.after (readstrChars [' ', '\t'] false (tok.text mem)).1,
          ⟨place k tok.ptr, (readstrChars [' ', '\t'] false (tok.text mem)).2.length⟩) ∧
      Str.Stores mem mem' (place k tok.ptr) (readstrChars [' ', '\t'] false (tok.text mem)).2 ∧
      WordRead place k mem tok mem' (readstrChars [' ', '\t'] false (tok.text mem)).1
        (if (readstrChars [' ', '\t'] false (tok.text mem)).2.length = 0 then none
          else some ⟨place k tok.ptr,
            (readstrChars [' ', '\t'] false (tok.text mem)).2.length⟩) := by
  have hbehind : Behind (place k tok.ptr) tok := h.behind_at hlo hend
  obtain ⟨mem', hvalue, hstores⟩ := readstr_eq [' ', '\t'] mem tok hcap hbehind
  have hlen := readstrChars_length [' ', '\t'] false (tok.text mem)
  have hsuffix := readstrChars_suffix [' ', '\t'] false (tok.text mem)
  rw [Str.length_text] at hlen
  refine ⟨mem', hvalue, hstores, wordRead_of_stores hstores hbehind hlen hsuffix ?_⟩
  intro u hu
  split at hu
  · cases hu
  · exact (Option.mem_some.mp hu).symm

theorem replWord_eq (r : Repl) (k : Nat) (mem : Nat → UInt8) (h : Keeps place lo hi)
    (hlo : lo ≤ tok.ptr) (hend : tok.ptr + tok.len = hi)
    (hcap : tok.len ≤ usub (r.buf + r.len) tok.ptr) :
    ∃ mem' v, (replWord place r k mem tok).value =
        (mem', tok.after (replWordChars (tok.text mem)).1, v) ∧
      v.map (Str.text mem') = (replWordChars (tok.text mem)).2 ∧
      WordRead place k mem tok mem' (replWordChars (tok.text mem)).1 v := by
  have hbehind : Behind (place k tok.ptr) tok := h.behind_at hlo hend
  obtain ⟨mem₁, hquoted, hstores⟩ := readqstr_eq mem tok hcap hbehind
  obtain ⟨hsuffix, hlen⟩ := readqstrChars_spec (tok.text mem)
  rw [Str.length_text] at hlen
  rw [replWord, value_bind, hquoted, replWordChars]
  generalize readqstrChars (tok.text mem) = q at hstores hlen hsuffix ⊢
  obtain ⟨rest, quoted, closed⟩ := q
  cases closed with
  | true =>
    refine ⟨mem₁, _, rfl, ?_, wordRead_of_stores hstores hbehind hlen hsuffix ?_⟩
    · cases quoted with
      | none => rfl
      | some word => exact congrArg some hstores.stored
    · intro u hu
      obtain ⟨word, rfl, rfl⟩ := Option.mem_map.mp hu
      rfl
  | false =>
    -- the quotes are not closed, and the word is read again from where that ended
    have hfirst : WordRead place k mem tok mem₁ rest none :=
      wordRead_of_stores hstores hbehind hlen hsuffix (by simp)
    have hptr : (tok.after rest).ptr = tok.ptr + (tok.len - rest.length) := rfl
    have htok : (tok.after rest).len = rest.length := rfl
    have hshort := hfirst.shorter
    obtain ⟨mem₂, hplain, hstores₂, hsecond⟩ := plainWord_eq (tok.after rest) k
      (usub (r.buf + r.len) tok.ptr) mem₁ h (by omega) (by omega) (by omega)
    simp only [Bool.false_eq_true, if_false, value_bind]
    rw [hplain]
    rw [hfirst.unread] at hstores₂ hsecond ⊢
    refine ⟨mem₂, _, ?_, ?_, hfirst.trans hsecond⟩
    · rw [after_after hsecond.shorter hshort]
      rfl
    · split
      · rfl
      · exact congrArg some hstores₂.stored

/-- A word before word `k`, stored for characters between `lo` and `bound`. -/
def Placed (place : Nat → Nat → Nat) (lo bound k : Nat) (u : Str) : Prop :=
  ∃ k' p, k' < k ∧ lo ≤ p ∧ p + u.len ≤ bound ∧ u.ptr = place k' p

theorem Placed.mono {bound bound' k' : Nat} {u : Str} (h : Placed place lo bound k u)
    (hbound : bound ≤ bound') (hk : k ≤ k') : Placed place lo bound' k' u := by
  obtain ⟨i, p, hi, hp, hfit, hplace⟩ := h
  exact ⟨i, p, by omega, hp, by omega, hplace⟩

theorem WordRead.earlier {rest : List UInt8} {v : Option Str} {u : Str}
    (hread : WordRead place k mem tok mem' rest v) (h : Keeps place lo hi)
    (hend : tok.ptr + tok.len = hi) (hu : Placed place lo tok.ptr k u) :
    u.text mem' = u.text mem := by
  obtain ⟨k', p, hk, hp, hfit, hplace⟩ := hu
  have hptr : (tok.after rest).ptr = tok.ptr + (tok.len - rest.length) := rfl
  apply textFrom_congr
  intro a hlo hhi
  apply hread.frame
  intro p' j hp' hj
  have hne := h.apart k' k p p' (a - u.ptr) j hk hp (by omega) (by omega)
  omega

theorem WordRead.ltrim {rest : List UInt8} {v : Option Str}
    (hread : WordRead place k mem tok mem' rest v) :
    ((tok.after rest).ltrim mem').value = tok.after (strLtrim rest) ∧
      (tok.after (strLtrim rest)).text mem' = strLtrim rest := by
  have hsuffix : strLtrim rest <:+ rest := List.dropWhile_suffix isspace
  have hafter : (tok.after rest).after (strLtrim rest) = tok.after (strLtrim rest) :=
    after_after hsuffix.length_le hread.shorter
  rw [ltrim_eq, hread.unread, hafter]
  refine ⟨rfl, ?_⟩
  rw [← hafter]
  apply text_after
  rwa [hread.unread]

theorem WordRead.placed_append {argv : List Str} {rest : List UInt8} {u : Str} {bound : Nat}
    (hread : WordRead place argv.length mem tok mem' rest (some u)) (hlo : lo ≤ tok.ptr)
    (hbound : (tok.after rest).ptr ≤ bound)
    (hargv : ∀ w ∈ argv, Placed place lo tok.ptr argv.length w) :
    ∀ w ∈ argv ++ [u], Placed place lo bound (argv ++ [u]).length w := by
  have hptr : (tok.after rest).ptr = tok.ptr + (tok.len - rest.length) := rfl
  intro w hw
  rw [List.length_append, List.length_singleton]
  rcases List.mem_append.mp hw with hw | hw
  · exact (hargv w hw).mono (by omega) (Nat.le_succ _)
  · obtain ⟨p, hp, hfit, hplace⟩ :=
      hread.placed w (Option.mem_some.mpr (List.mem_singleton.mp hw).symm)
    exact ⟨argv.length, p, Nat.lt_succ_self _, by omega, by omega, hplace⟩

/-- Nothing is stored outside the destinations for what is between `lo` and `hi`. -/
def Untouched (place : Nat → Nat → Nat) (lo hi : Nat) (mem mem' : Nat → UInt8) : Prop :=
  ∀ a, (∀ k p j, lo ≤ p → p + j < hi → a ≠ place k p + j) → mem' a = mem a

theorem Untouched.trans {mem'' : Nat → UInt8} (h : Untouched place lo hi mem mem')
    (h' : Untouched place lo hi mem' mem'') : Untouched place lo hi mem mem'' :=
  fun a ha => (h' a ha).trans (h a ha)

theorem WordRead.untouched {rest : List UInt8} {v : Option Str}
    (hread : WordRead place k mem tok mem' rest v) (hlo : lo ≤ tok.ptr)
    (hend : tok.ptr + tok.len = hi) : Untouched place lo hi mem mem' := by
  intro a ha
  have hptr : (tok.after rest).ptr = tok.ptr + (tok.len - rest.length) := rfl
  apply hread.frame
  intro p j hp hj
  exact ha k p j (by omega) (by omega)

theorem replWords_eq (h : Keeps place lo hi)
    (hcap : ∀ p, lo ≤ p → p ≤ hi → hi - p ≤ usub (r.buf + r.len) p) (n : Nat)
    (mem : Nat → UInt8) (tok : Str) (argv : List Str) (hlo : lo ≤ tok.ptr)
    (hend : tok.ptr + tok.len = hi)
    (hargv : ∀ u ∈ argv, Placed place lo tok.ptr argv.length u) :
    ∃ mem' argv', (replWords place r n mem tok argv).value = (mem',
        tok.after (replWordsChars n (tok.text mem) (argv.map (Str.text mem))).1, argv') ∧
      argv'.map (Str.text mem') =
        (replWordsChars n (tok.text mem) (argv.map (Str.text mem))).2 ∧
      (replWordsChars n (tok.text mem) (argv.map (Str.text mem))).1.length ≤ tok.len ∧
      (tok.after (replWordsChars n (tok.text mem) (argv.map (Str.text mem))).1).text mem' =
        (replWordsChars n (tok.text mem) (argv.map (Str.text mem))).1 ∧
      Untouched place lo hi mem mem' := by
  induction n generalizing mem tok argv with
  | zero =>
    refine ⟨mem, argv, ?_, rfl, (Str.length_text mem tok).le, ?_, fun _ _ => rfl⟩
    · rw [replWordsChars, after_text]
      rfl
    · rw [replWordsChars, after_text]
  | succ n ih =>
    have hlen := hcap tok.ptr hlo (by omega)
    obtain ⟨mem₁, v, hvalue, htext, hread⟩ :=
      replWord_eq r argv.length mem h hlo hend (by omega)
    have hsame : argv.map (Str.text mem₁) = argv.map (Str.text mem) :=
      List.map_congr_left fun u hu => hread.earlier h hend (hargv u hu)
    rw [replWords, value_bind, hvalue, replWordsChars]
    generalize replWordChars (tok.text mem) = q at htext hread ⊢
    obtain ⟨rest, word⟩ := q
    simp only at htext hread ⊢
    subst htext
    have hkept : Untouched place lo hi mem mem₁ := hread.untouched hlo hend
    cases v with
    | none => exact ⟨mem₁, argv, rfl, hsame, hread.shorter, hread.unread, hkept⟩
    | some u =>
      obtain ⟨hltrim, htok⟩ := hread.ltrim
      have hshort := hread.shorter
      have hle : (strLtrim rest).length ≤ rest.length := List.length_dropWhile_le isspace rest
      have hptr : (tok.after rest).ptr = tok.ptr + (tok.len - rest.length) := rfl
      have hptr' : (tok.after (strLtrim rest)).ptr =
        tok.ptr + (tok.len - (strLtrim rest).length) := rfl
      have hlen' : (tok.after (strLtrim rest)).len = (strLtrim rest).length := rfl
      have hbound : (tok.after rest).ptr ≤ (tok.after (strLtrim rest)).ptr := by omega
      have hplaced := hread.placed_append hlo hbound hargv
      obtain ⟨mem₂, argv', hwords, htexts, hrest, hunread, hkept₂⟩ :=
        ih mem₁ (tok.after (strLtrim rest)) (argv ++ [u]) (by omega) (by omega) hplaced
      rw [htok, List.map_append, hsame, List.map_singleton] at hwords htexts hrest hunread
      rw [after_after hrest (by omega)] at hwords hunread
      simp only [Option.map_some, value_bind, hltrim]
      exact ⟨mem₂, argv', hwords, htexts, by omega, hunread, hkept.trans hkept₂⟩

theorem replAccept_eq (r : Repl) (mem : Nat → UInt8) (tok : Str) :
    (replAccept r mem tok).value =
      (tok.after (replAcceptChars (r.cmdPrefix.text mem) (tok.text mem)).1,
        (replAcceptChars (r.cmdPrefix.text mem) (tok.text mem)).2) := by
  rw [replAccept, replAcceptChars, length_pattern]
  split
  · rw [value_pure, after_text]
  · exact accept_eq mem tok r.cmdPrefix

theorem replAcceptChars_suffix (lead w : List UInt8) : (replAcceptChars lead w).1 <:+ w := by
  rw [replAcceptChars]
  split
  · exact List.suffix_rfl
  · exact strAccept_suffix w lead

/-- The texts of the arguments when they are handed over. -/
def ReplCall.args (c : ReplCall) : List (List UInt8) := c.argv.map (Str.text c.mem)

/-- The code of a word with these keywords. -/
def replCode (keywords : Option (List (List UInt8))) (igncase : Bool) (w : List UInt8) : Int :=
  match keywords with
  | none => replUnknown
  | some keywords => if igncase then strMatchiv w keywords else strMatchv w keywords

def Repl.table (r : Repl) (mem : Nat → UInt8) : Option (List (List UInt8)) :=
  r.keywords.map fun keywords => keywords.map (Pattern.text mem)

theorem matchTable_eq (mem : Nat → UInt8) (fold : UInt8 → UInt8) (s : Str) (i : Nat)
    (ps : List Pattern) :
    (matchTable mem fold s i ps).value =
      strMatchTable (fun s p => if p.length > s.length then false else strnEq fold s p)
        (s.text mem) i (ps.map (Pattern.text mem)) := by
  induction ps generalizing i with
  | nil => rfl
  | cons p ps ih =>
    rw [matchTable, List.map_cons, strMatchTable, length_pattern]
    split
    · rfl
    · rw [value_bind, matchBy_eq, length_pattern]
      generalize (if p.len > (s.text mem).length then false
        else strnEq fold (s.text mem) (p.text mem)) = found
      cases found with
      | true => rfl
      | false => exact ih (i + 1)

theorem replKey_eq (r : Repl) (mem : Nat → UInt8) (v : Str) :
    (replKey r mem v).value = replCode (r.table mem) r.igncase (v.text mem) := by
  rw [replKey, Repl.table]
  cases r.keywords with
  | none => rfl
  | some keywords =>
    simp only [Option.map_some, replCode]
    split
    · exact matchTable_eq mem tolower v 0 keywords
    · exact matchTable_eq mem id v 0 keywords

theorem replKeys_eq (r : Repl) (mem : Nat → UInt8) (argv : List Str) :
    (replKeys r mem argv).value =
      (argv.map (Str.text mem)).map (replCode (r.table mem) r.igncase) := by
  induction argv with
  | nil => rfl
  | cons v argv ih =>
    rw [replKeys, value_bind, value_bind, ih, replKey_eq]
    rfl

/-- The codes that go with these words. -/
def replCodes (keywords : Option (List (List UInt8))) (igncase accepted : Bool)
    (args : List (List UInt8)) : List Int :=
  if accepted then args.map (replCode keywords igncase) else [replText]

/-- What a command is handed over as. -/
structure Handed (place : Nat → Nat → Nat) (r : Repl) (mem : Nat → UInt8) (cmd : Str)
    (c : ReplCall) : Prop where
  args : replArgs (r.cmdPrefix.text mem) (cmd.text mem) = some c.args
  argk : c.argk = replCodes (r.table c.mem) r.igncase
    (replAcceptChars (r.cmdPrefix.text mem) (strLtrim (cmd.text mem))).2 c.args
  untouched : Untouched place cmd.ptr (cmd.ptr + cmd.len) mem c.mem

/-- After the words comes what is left, if it is not blank. -/
theorem replWords_last {cmd : Str} (h : Keeps place cmd.ptr (cmd.ptr + cmd.len))
    (hcap : ∀ p, cmd.ptr ≤ p → p ≤ cmd.ptr + cmd.len →
      cmd.ptr + cmd.len - p ≤ usub (r.buf + r.len) p) {w rest : List UInt8}
    {args : List (List UInt8)} (hw : w <:+ cmd.text mem)
    (hread : replWordsChars (replArgvNum - 1) w [] = (rest, args)) :
    ∃ mem' argv last, (replWords place r (replArgvNum - 1) mem (cmd.after w) []).value =
        (mem', (cmd.after w).after rest, argv) ∧
      (trim mem' ((cmd.after w).after rest)).value = last ∧
      (if last.len > 0 then argv ++ [last] else argv).map (Str.text mem') =
        (if ((strLtrim rest).rdropWhile isspace).length > 0 then
          args ++ [(strLtrim rest).rdropWhile isspace] else args) ∧
      Untouched place cmd.ptr (cmd.ptr + cmd.len) mem mem' := by
  have hle : w.length ≤ cmd.len := hw.length_le.trans_eq (Str.length_text mem cmd)
  have hptr : (cmd.after w).ptr = cmd.ptr + (cmd.len - w.length) := rfl
  have hlen : (cmd.after w).len = w.length := rfl
  obtain ⟨mem', argv, hwords, htexts, -, hunread, huntouched⟩ :=
    replWords_eq h hcap (replArgvNum - 1) mem (cmd.after w) [] (by omega) (by omega) (by simp)
  rw [text_after hw, List.map_nil, hread] at hwords htexts hunread
  simp only at htexts
  refine ⟨mem', argv, _, hwords, rfl, ?_, huntouched⟩
  have hlast := trim_text mem' ((cmd.after w).after rest)
  rw [hunread] at hlast
  rw [← hlast, ← htexts, Str.length_text]
  split
  · rw [List.map_append, List.map_singleton]
  · rfl

theorem replEval_handed {cmd : Str} (h : Keeps place cmd.ptr (cmd.ptr + cmd.len))
    (hcap : ∀ p, cmd.ptr ≤ p → p ≤ cmd.ptr + cmd.len →
      cmd.ptr + cmd.len - p ≤ usub (r.buf + r.len) p) :
    ((replEval place r mem cmd).value = none ∧
        replArgs (r.cmdPrefix.text mem) (cmd.text mem) = none) ∨
      ∃ c, (replEval place r mem cmd).value = some c ∧ Handed place r mem cmd c := by
  have htrim : strLtrim (cmd.text mem) <:+ cmd.text mem := List.dropWhile_suffix isspace
  have hle := htrim.length_le
  rw [Str.length_text] at hle
  have hargs : replArgs (r.cmdPrefix.text mem) (cmd.text mem) = _ := replArgs.eq_1 _ _
  rw [replEval, value_bind, ltrim_eq]
  simp only at hargs
  have hcmd : (cmd.after (strLtrim (cmd.text mem))).len = (strLtrim (cmd.text mem)).length := rfl
  simp only [hcmd]
  split
  · rename_i hblank
    rw [if_pos hblank] at hargs
    exact .inl ⟨rfl, hargs⟩
  rename_i hblank
  rw [if_neg hblank] at hargs
  have hsuffix := replAcceptChars_suffix (r.cmdPrefix.text mem) (strLtrim (cmd.text mem))
  rw [value_bind, replAccept_eq, text_after htrim]
  have hhanded : ∀ c : ReplCall, replArgs (r.cmdPrefix.text mem) (cmd.text mem) = some c.args →
      c.argk = replCodes (r.table c.mem) r.igncase
        (replAcceptChars (r.cmdPrefix.text mem) (strLtrim (cmd.text mem))).2 c.args →
      Untouched place cmd.ptr (cmd.ptr + cmd.len) mem c.mem → Handed place r mem cmd c :=
    fun _ hargs hargk huntouched => ⟨hargs, hargk, huntouched⟩
  generalize replAcceptChars (r.cmdPrefix.text mem) (strLtrim (cmd.text mem)) = q
    at hsuffix hargs hhanded ⊢
  obtain ⟨w', accepted⟩ := q
  simp only at hargs hhanded ⊢
  rw [after_after hsuffix.length_le hle]
  have hw : w' <:+ cmd.text mem := hsuffix.trans htrim
  cases accepted with
  | false =>
    refine .inr ⟨⟨mem, [cmd.after w'], [replText]⟩, rfl, hhanded _ ?_ rfl fun _ _ => rfl⟩
    rw [hargs, ReplCall.args, List.map_singleton, text_after hw]
  | true =>
    obtain ⟨mem', argv, last, hwords, hlast, htexts, huntouched⟩ := replWords_last h hcap hw Prod.mk.eta.symm
    simp only [if_true, value_bind, hwords, hlast, value_pure, replKeys_eq] at hargs ⊢
    have hargk : ∀ args, replCodes (r.table mem') r.igncase true args =
        args.map (replCode (r.table mem') r.igncase) := fun _ => if_pos rfl
    refine .inr ⟨_, rfl, hhanded _ ?_ (hargk _).symm huntouched⟩
    rw [hargs, ← htexts, ReplCall.args]

theorem replEval_args {cmd : Str} (h : Keeps place cmd.ptr (cmd.ptr + cmd.len))
    (hcap : ∀ p, cmd.ptr ≤ p → p ≤ cmd.ptr + cmd.len →
      cmd.ptr + cmd.len - p ≤ usub (r.buf + r.len) p) :
    (replEval place r mem cmd).value.map ReplCall.args =
      replArgs (r.cmdPrefix.text mem) (cmd.text mem) := by
  rcases @replEval_handed place r mem cmd h hcap with ⟨hnone, hargs⟩ | ⟨c, hsome, hc⟩
  · rw [hnone, hargs]
    rfl
  · rw [hsome, hc.args]
    rfl

/-- In place, a word is stored between where its reading begins and where it ends. -/
theorem replWord_inPlace {cmd tok : Str} {a : Nat}
    (hcap : tok.len ≤ usub (r.buf + r.len) tok.ptr) (hlo : cmd.ptr ≤ tok.ptr)
    (hend : tok.ptr + tok.len = cmd.ptr + cmd.len)
    (ha : (replWord inPlace r k mem tok).value.1 a ≠ mem a) :
    tok.ptr ≤ a ∧ a < (replWord inPlace r k mem tok).value.2.1.ptr := by
  obtain ⟨mem', v, hvalue, -, hread⟩ :=
    replWord_eq r k mem (keeps_inPlace cmd.ptr _) hlo hend hcap
  rw [hvalue] at ha ⊢
  by_contra hout
  apply ha
  apply hread.frame
  intro p j hp hj heq
  apply hout
  rw [heq]
  exact ⟨Nat.le_trans hp (Nat.le_add_right p j), hj⟩

/-- A word that is decoded over the characters it was read from is the same word,
and the words before it stay what they were. -/
theorem repl_in_place {r : Repl} {cmd : Str} {base : Nat → Nat} (mem : Nat → UInt8)
    (hsize : r.len < 2 ^ 32) (hlo : r.buf ≤ cmd.ptr) (hhi : cmd.ptr + cmd.len ≤ r.buf + r.len)
    (hsep : Separate r base) :
    (replEval inPlace r mem cmd).value.map ReplCall.args =
        (replEval (separate base) r mem cmd).value.map ReplCall.args ∧
      ∀ k mem tok a, cmd.ptr ≤ tok.ptr → tok.ptr + tok.len = cmd.ptr + cmd.len →
        (replWord inPlace r k mem tok).value.1 a ≠ mem a →
        tok.ptr ≤ a ∧ a < (replWord inPlace r k mem tok).value.2.1.ptr := by
  have hcap : ∀ p, cmd.ptr ≤ p → p ≤ cmd.ptr + cmd.len →
      cmd.ptr + cmd.len - p ≤ usub (r.buf + r.len) p := by
    intro p hp hpend
    rw [usub]
    omega
  constructor
  · rw [replEval_args (keeps_inPlace _ _) hcap, replEval_args (keeps_separate hsep hlo hhi) hcap]
  · intro k mem tok a htok hend ha
    have hlen := hcap tok.ptr htok (by omega)
    exact replWord_inPlace (by omega) htok hend ha

/-- The command is `"a\n" b\ c`, with a word in quotes and an escaped blank. -/
theorem repl_in_place_quoted :
    let r : Repl := replSetbuf replInit 100 12
    let text : List UInt8 := ['"', 'a', '\\', 'n', '"', ' ', 'b', '\\', ' ', 'c']
    let mem : Nat → UInt8 := fun a => text.getD (a - 100) 0
    let base : Nat → Nat := fun k => 1000 + 100 * k
    (replEval inPlace r mem ⟨100, 10⟩).value.map ReplCall.args =
        (replEval (separate base) r mem ⟨100, 10⟩).value.map ReplCall.args ∧
      (replEval inPlace r mem ⟨100, 10⟩).value.map ReplCall.args =
        some ([['a', '\n'], ['b', ' ', 'c']] : List (List UInt8)) := by
  intro r text mem base
  have hsep : Separate r base := by
    constructor
    · intro k i j hi hj
      simp only [base, r, replSetbuf] at hi hj ⊢
      omega
    · intro k k' i j hk hi hj
      simp only [base, r, replSetbuf] at hi hj ⊢
      omega
  constructor
  · exact (@repl_in_place r ⟨100, 10⟩ base mem (by decide) (by decide) (by decide) hsep).1
  · decide

end Wifimodem
