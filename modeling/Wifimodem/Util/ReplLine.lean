import Wifimodem.Util.Repl

/-!
# What a line is handed over as

The words of a line and their codes depend on the texts alone, as long as neither
the prefix nor the keywords are in the buffer that the words are decoded in.
-/

namespace Wifimodem

open Str Traced

/-- The text of the pattern is outside the line buffer. -/
def Pattern.Clear (r : Repl) : Pattern → Prop
  | .literal _ => True
  | .view _ p => p.ptr + p.len ≤ r.buf ∨ r.buf + r.len ≤ p.ptr

structure Repl.Clear (r : Repl) : Prop where
  cmdPrefix : r.cmdPrefix.Clear r
  keywords : ∀ table ∈ r.keywords, ∀ p ∈ table, p.Clear r

/-- A command in the line buffer of a repl. -/
structure Repl.Line (r : Repl) (cmd : Str) : Prop where
  size : r.len < 2 ^ 32
  begins : r.buf ≤ cmd.ptr
  ends : cmd.ptr + cmd.len ≤ r.buf + r.len

/-- The words and the codes that a text stands for. -/
def replLine (lead : List UInt8) (keywords : Option (List (List UInt8))) (igncase : Bool)
    (cmd : List UInt8) : Option (List (List UInt8) × List Int) :=
  (replArgs lead cmd).map fun args =>
    (args, replCodes keywords igncase (replAcceptChars lead (strLtrim cmd)).2 args)

section
variable {r : Repl} {mem mem' : Nat → UInt8} {cmd : Str}

theorem text_clear {p : Pattern} (h : p.Clear r)
    (hmem : ∀ a, a < r.buf ∨ r.buf + r.len ≤ a → mem' a = mem a) : p.text mem' = p.text mem := by
  cases p with
  | literal w => rfl
  | view operand p =>
    apply textFrom_congr
    intro a hlo hhi
    apply hmem
    rcases h with h | h
    · exact .inl (by omega)
    · exact .inr (by omega)

theorem table_clear (h : r.Clear)
    (hmem : ∀ a, a < r.buf ∨ r.buf + r.len ≤ a → mem' a = mem a) :
    r.table mem' = r.table mem := by
  rw [Repl.table, Repl.table]
  cases hkeywords : r.keywords with
  | none => rfl
  | some table =>
    exact congrArg some
      (List.map_congr_left fun p hp => text_clear (h.keywords table hkeywords p hp) hmem)

theorem Repl.Line.capacity (h : r.Line cmd) {p : Nat} (hp : cmd.ptr ≤ p)
    (hend : p ≤ cmd.ptr + cmd.len) : cmd.ptr + cmd.len - p ≤ usub (r.buf + r.len) p := by
  obtain ⟨hsize, hlo, hhi⟩ := h
  rw [usub]
  omega

theorem replEval_line (hclear : r.Clear) (h : r.Line cmd) (mem : Nat → UInt8) :
    (replEval inPlace r mem cmd).value.map (fun c => (c.args, c.argk)) =
      replLine (r.cmdPrefix.text mem) (r.table mem) r.igncase (cmd.text mem) := by
  have hlo := h.begins
  have hhi := h.ends
  rcases @replEval_handed inPlace r mem cmd (keeps_inPlace _ _) (fun p => h.capacity) with
    ⟨hnone, hargs⟩ | ⟨c, hsome, hargs, hargk, huntouched⟩
  · rw [hnone, replLine, hargs]
    rfl
  · have htable : r.table c.mem = r.table mem := by
      apply table_clear hclear
      intro a ha
      apply huntouched
      intro k p j hp hj
      rw [inPlace]
      omega
    rw [hsome, replLine, hargs, ← htable]
    exact congrArg (fun ks => some (c.args, ks)) hargk

end

/-! ## The keywords of a table -/

/-- The entries before the empty one that ends the table. -/
def tableKeywords (table : List (List UInt8)) : List (List UInt8) :=
  table.takeWhile fun p => p.length ≠ 0

def replMatches (igncase : Bool) (w p : List UInt8) : Bool :=
  if igncase then strMatchi w p else strMatch w p

theorem strMatchTable_eq (matcher : List UInt8 → List UInt8 → Bool) (w : List UInt8) (i : Nat)
    (table : List (List UInt8)) :
    strMatchTable matcher w i table =
      if (tableKeywords table).any (matcher w) then
        ((i + (tableKeywords table).findIdx (matcher w) : Nat) : Int)
      else -1 := by
  induction table generalizing i with
  | nil => rfl
  | cons p table ih =>
    rw [strMatchTable, tableKeywords]
    split
    · rename_i hend
      rw [List.takeWhile_cons_of_neg (by simp [hend])]
      rfl
    · rename_i hentry
      rw [List.takeWhile_cons_of_pos (by simp [hentry]), List.any_cons, List.findIdx_cons]
      cases matcher w p with
      | true => simp
      | false =>
        simp only [Bool.false_eq_true, if_false, Bool.false_or, cond_false, ih]
        rw [← tableKeywords, Nat.add_assoc, Nat.add_comm 1]

theorem replCode_some (table : List (List UInt8)) (igncase : Bool) (w : List UInt8) :
    replCode (some table) igncase w =
      if (tableKeywords table).any (replMatches igncase w) then
        (((tableKeywords table).findIdx (replMatches igncase w) : Nat) : Int)
      else -1 := by
  have hcode : replCode (some table) igncase w =
      strMatchTable (replMatches igncase) w 0 table := by
    cases igncase <;> rfl
  rw [hcode, strMatchTable_eq, Nat.zero_add]

/-! ## What the codes tell -/

def lineCarries (lead cmd : List UInt8) : Bool := strMatch (strLtrim cmd) lead

def IsKeyword (keywords : Option (List (List UInt8))) (igncase : Bool) (w : List UInt8) : Prop :=
  ∃ table ∈ keywords, ∃ p ∈ tableKeywords table, replMatches igncase w p = true

/-- A line without the prefix, an unknown word and a keyword are told apart. -/
structure CodesTell (lead : List UInt8) (keywords : Option (List (List UInt8))) (igncase : Bool)
    (cmd : List UInt8) (args : List (List UInt8)) (argk : List Int) : Prop where
  plain : argk.head? = some replText ↔ lineCarries lead cmd = false
  unknown : lineCarries lead cmd = true → ∀ w k, (w, k) ∈ args.zip argk →
    ¬IsKeyword keywords igncase w → k = replUnknown
  known : lineCarries lead cmd = true → ∀ w k, (w, k) ∈ args.zip argk →
    IsKeyword keywords igncase w → k ≠ replUnknown ∧ k ≠ replText

/-- A keyword of the table, but neither the first nor the second. -/
def LateKeyword (table : List (List UInt8)) (igncase : Bool) (w : List UInt8) : Prop :=
  (∃ p ∈ tableKeywords table, replMatches igncase w p = true) ∧
    ∀ p ∈ (tableKeywords table).take 2, replMatches igncase w p = false

theorem replAcceptChars_carries (lead w : List UInt8) :
    (replAcceptChars lead w).2 = strMatch w lead := by
  rw [replAcceptChars]
  split
  · rename_i hnil
    rw [List.length_eq_zero_iff.mp hnil]
    simp [strMatch, strnEq]
  · rw [strAccept]
    cases strMatch w lead <;> rfl

theorem findIdx_early {p : List UInt8 → Bool} {l : List (List UInt8)} (h : l.any p = true) :
    (l.findIdx p ≠ 0 ∧ l.findIdx p ≠ 1) ↔ ∀ x ∈ l.take 2, p x = false := by
  match l with
  | [] => cases h
  | [a] =>
    rw [List.any_cons, List.any_nil, Bool.or_false] at h
    simp [List.findIdx_cons, h]
  | a :: b :: l =>
    rw [List.findIdx_cons, List.findIdx_cons]
    cases ha : p a with
    | true => simp [ha]
    | false =>
      cases hb : p b with
      | true => simp [ha, hb]
      | false => simp [ha, hb]

theorem lateKeyword_iff (table : List (List UInt8)) (igncase : Bool) (w : List UInt8) :
    LateKeyword table igncase w ↔
      replCode (some table) igncase w ≠ -1 ∧ replCode (some table) igncase w ≠ replUnknown ∧
        replCode (some table) igncase w ≠ replText := by
  rw [LateKeyword, ← List.any_eq_true, replCode_some, replUnknown, replText]
  split
  · rename_i hany
    rw [← findIdx_early hany]
    constructor
    · rintro ⟨_, hzero, hone⟩
      exact ⟨by omega, by omega, by omega⟩
    · rintro ⟨_, hzero, hone⟩
      exact ⟨hany, by omega, by omega⟩
  · rename_i hnone
    exact iff_of_false (fun h => hnone h.1) fun h => h.1 rfl

theorem isKeyword_some (table : List (List UInt8)) (igncase : Bool) (w : List UInt8) :
    IsKeyword (some table) igncase w ↔ replCode (some table) igncase w ≠ -1 := by
  have hkeyword : IsKeyword (some table) igncase w ↔
      ∃ p ∈ tableKeywords table, replMatches igncase w p = true := by
    simp [IsKeyword]
  rw [hkeyword, ← List.any_eq_true, replCode_some]
  split
  · rename_i hany
    exact iff_of_true hany (by omega)
  · rename_i hnone
    exact iff_of_false hnone fun h => h rfl

theorem mem_zip_codes {keywords : Option (List (List UInt8))} {igncase : Bool}
    {args : List (List UInt8)} {w : List UInt8} {k : Int} :
    (w, k) ∈ args.zip (args.map (replCode keywords igncase)) ↔
      w ∈ args ∧ replCode keywords igncase w = k := by
  rw [← List.map_prod_left_eq_zip]
  simp

section
variable {lead cmd : List UInt8} {igncase : Bool} {args : List (List UInt8)}

theorem codesTell_of_words {keywords : Option (List (List UInt8))}
    (hcarries : lineCarries lead cmd = true)
    (htext : ∀ w ∈ args, replCode keywords igncase w ≠ replText)
    (hunknown : ∀ w ∈ args, ¬IsKeyword keywords igncase w →
      replCode keywords igncase w = replUnknown)
    (hknown : ∀ w ∈ args, IsKeyword keywords igncase w →
      replCode keywords igncase w ≠ replUnknown) :
    CodesTell lead keywords igncase cmd args (args.map (replCode keywords igncase)) where
  plain := by
    refine iff_of_false ?_ (by simp [hcarries])
    cases args with
    | nil => exact fun h => Option.some_ne_none _ h.symm
    | cons w args => exact fun h => htext w List.mem_cons_self (Option.some.inj h)
  unknown := by
    rintro _ w k hmem hw
    obtain ⟨hin, rfl⟩ := mem_zip_codes.mp hmem
    exact hunknown w hin hw
  known := by
    rintro _ w k hmem hw
    obtain ⟨hin, rfl⟩ := mem_zip_codes.mp hmem
    exact ⟨hknown w hin hw, htext w hin⟩

/-- Without a table, no word is a keyword and every word is unknown. -/
theorem codesTell_none (hcarries : lineCarries lead cmd = true) :
    CodesTell lead none igncase cmd args (args.map (replCode none igncase)) := by
  apply codesTell_of_words hcarries
  · exact fun _ _ => (by decide : replUnknown ≠ replText)
  · exact fun _ _ _ => rfl
  · rintro w _ ⟨table, hnone, _⟩
    cases hnone

theorem codesTell_some (hcarries : lineCarries lead cmd = true) (table : List (List UInt8)) :
    CodesTell lead (some table) igncase cmd args (args.map (replCode (some table) igncase)) ↔
      ∀ w ∈ args, LateKeyword table igncase w := by
  constructor
  · rintro ⟨_, hunknown, hknown⟩ w hw
    have hmem : (w, replCode (some table) igncase w) ∈
        args.zip (args.map (replCode (some table) igncase)) := mem_zip_codes.mpr ⟨hw, rfl⟩
    rw [lateKeyword_iff]
    have hfound : replCode (some table) igncase w ≠ -1 := by
      intro hcode
      have hzero := hunknown hcarries w _ hmem fun h => (isKeyword_some table igncase w).mp h hcode
      rw [hcode] at hzero
      cases hzero
    exact ⟨hfound, hknown hcarries w _ hmem ((isKeyword_some table igncase w).mpr hfound)⟩
  · intro hlate
    have hcode := fun w hw => (lateKeyword_iff table igncase w).mp (hlate w hw)
    apply codesTell_of_words hcarries
    · exact fun w hw => (hcode w hw).2.2
    · exact fun w hw hnot => absurd ((isKeyword_some table igncase w).mpr (hcode w hw).1) hnot
    · exact fun w hw _ => (hcode w hw).2.1

theorem codesTell_iff {keywords : Option (List (List UInt8))} {argk : List Int}
    (hline : replLine lead keywords igncase cmd = some (args, argk)) :
    CodesTell lead keywords igncase cmd args argk ↔
      (lineCarries lead cmd = true →
        ∀ table ∈ keywords, ∀ w ∈ args, LateKeyword table igncase w) := by
  obtain ⟨words, hargs, hpair⟩ := Option.map_eq_some_iff.mp hline
  obtain ⟨rfl, rfl⟩ := Prod.mk.inj hpair
  rw [replAcceptChars_carries, ← lineCarries]
  cases hcarries : lineCarries lead cmd with
  | false =>
    have hnot : lineCarries lead cmd ≠ true := by simp [hcarries]
    exact iff_of_true ⟨iff_of_true rfl hcarries, fun h => absurd h hnot, fun h => absurd h hnot⟩
      fun h => absurd h Bool.false_ne_true
  | true =>
    rw [replCodes, if_pos rfl, forall_prop_of_true rfl]
    cases keywords with
    | none =>
      refine iff_of_true (codesTell_none hcarries) ?_
      rintro table hnone
      cases hnone
    | some table =>
      rw [codesTell_some hcarries]
      constructor
      · intro hlate t ht
        obtain rfl := Option.mem_some.mp ht
        exact hlate
      · exact fun h => h table rfl

end

/-- The codes of a line are told apart when each of its words is a keyword behind
the first two. -/
theorem repl_codes_tell_iff {r : Repl} {cmd : Str} (hclear : r.Clear) (h : r.Line cmd)
    (mem : Nat → UInt8) {args : List (List UInt8)} {argk : List Int}
    (hcall : (replEval inPlace r mem cmd).value.map (fun c => (c.args, c.argk)) =
      some (args, argk)) :
    CodesTell (r.cmdPrefix.text mem) (r.table mem) r.igncase (cmd.text mem) args argk ↔
      (lineCarries (r.cmdPrefix.text mem) (cmd.text mem) = true →
        ∀ table ∈ r.table mem, ∀ w ∈ args, LateKeyword table r.igncase w) := by
  rw [replEval_line hclear h] at hcall
  exact codesTell_iff hcall

def twoCommands : Repl where
  buf := 100
  len := 16
  cmdPrefix := .literal ['/']
  keywords := some [.literal ['u', 'p'], .literal ['d', 'o'], .literal ['g', 'o'], .literal []]
  igncase := false

def lineBuffer (w : List UInt8) : Nat → UInt8 := fun a => w.getD (a - 100) 0

theorem twoCommands_clear : twoCommands.Clear where
  cmdPrefix := trivial
  keywords := by
    intro table htable p hp
    obtain rfl := Option.mem_some.mp htable
    simp only [List.mem_cons, List.not_mem_nil, or_false] at hp
    rcases hp with rfl | rfl | rfl | rfl <;> trivial

theorem twoCommands_line {len : Nat} (hlen : len ≤ 16) : twoCommands.Line ⟨100, len⟩ where
  size := by decide
  begins := Nat.le_refl _
  ends := Nat.add_le_add_left hlen 100

theorem repl_codes_tell_iff_go :
    CodesTell ['/'] (some [['u', 'p'], ['d', 'o'], ['g', 'o'], []]) false ['/', 'g', 'o']
      [['g', 'o']] [2] := by
  have hcall : (replEval inPlace twoCommands (lineBuffer ['/', 'g', 'o']) ⟨100, 3⟩).value.map
      (fun c => (c.args, c.argk)) = some (([['g', 'o']] : List (List UInt8)), [2]) := by
    decide
  have hline : twoCommands.Line ⟨100, 3⟩ := twoCommands_line (by decide)
  refine (repl_codes_tell_iff twoCommands_clear hline _ hcall).mpr fun _ table htable => ?_
  obtain rfl := Option.mem_some.mp htable
  refine List.forall_mem_singleton.mpr ⟨⟨['g', 'o'], ?_, rfl⟩, ?_⟩
  · exact List.mem_cons_of_mem _ (List.mem_cons_of_mem _ List.mem_cons_self)
  · exact List.forall_mem_cons.mpr ⟨rfl, List.forall_mem_singleton.mpr rfl⟩

/-- The first keyword, a word that is none, and the second keyword. -/
theorem repl_codes_collide :
    (replEval inPlace twoCommands
        (lineBuffer ['/', 'u', 'p', ' ', 'x', ' ', 'd', 'o']) ⟨100, 8⟩).value.map
        (fun c => (c.args, c.argk)) =
      some (([['u', 'p'], ['x'], ['d', 'o']] : List (List UInt8)),
        [replUnknown, -1, replText]) ∧
      ¬CodesTell ['/'] (some [['u', 'p'], ['d', 'o'], ['g', 'o'], []]) false
        ['/', 'u', 'p', ' ', 'x', ' ', 'd', 'o'] [['u', 'p'], ['x'], ['d', 'o']]
        [replUnknown, -1, replText] := by
  refine ⟨by decide, ?_⟩
  rintro ⟨_, _, hknown⟩
  refine (hknown rfl ['u', 'p'] replUnknown List.mem_cons_self ?_).1 rfl
  exact ⟨_, rfl, ['u', 'p'], List.mem_cons_self, rfl⟩

end Wifimodem
