import Wifimodem.Lib.ByteBlock
import Wifimodem.Phy.Terminal

/-!
# Two loops that edit a line

`terminal_gets` and `terminal_input` store a line in the caller's buffer. Either of
them asks for characters until it returns; one that runs out of fuel still waits.
-/

namespace Wifimodem

open Transducer

/-- A buffer, and how many characters are stored in it. -/
structure Line where
  buf : Block UInt8
  num : Nat

def Line.erase (s : Line) : Line :=
  if s.num > 0 then ⟨s.buf.store (s.num - 1) [0], s.num - 1⟩ else s

def Line.put (s : Line) (ch : UInt8) : Line := ⟨s.buf.store s.num [ch], s.num + 1⟩

def Line.text (s : Line) : List UInt8 := s.buf.cells.take s.num

/-- What a call leaves: its line, what it has written, and what is left of the io. -/
structure Reply where
  line : Line
  written : List UInt8
  rest : List (Option UInt8)

/-- The character as an `int`, which is negative when there is none. -/
def charCode (ch : Option UInt8) : Int := ch.elim (-1) fun ch => ch.toNat

def getsLoop (t : Terminal) (len : Nat) :
    Nat → Line → List UInt8 → List (Option UInt8) → Option Reply
  | 0, _, _, _ => none
  | fuel + 1, line, written, io =>
    if line.num < len then
      let got := terminalGetc t io
      let ch := charCode got.1
      let written := written ++ got.2.1
      if ch = t.chrBs.toNat then getsLoop t len fuel line.erase written got.2.2
      else if ch = newline.toNat then some ⟨line, written, got.2.2⟩
      else if ch ≥ 0 then getsLoop t len fuel (line.put (UInt8.ofInt ch)) written got.2.2
      else getsLoop t len fuel line written got.2.2
    else some ⟨line, written, io⟩

def terminalGets (fuel : Nat) (t : Terminal) (buf : Block UInt8) (len : Nat)
    (io : List (Option UInt8)) : Option Reply :=
  getsLoop t len fuel ⟨buf, 0⟩ [] io

/-- What hides a character. -/
def hideChar (t : Terminal) (hide : Int) (ch : UInt8) : List UInt8 :=
  if hide > 0 then terminalPutc t (maskChar hide ch) else []

def inputLoop (t : Terminal) (len : Nat) (hide : Int) :
    Nat → Line → List UInt8 → List (Option UInt8) → Option Reply
  | 0, _, _, _ => none
  | fuel + 1, line, written, io =>
    if line.num < len then
      let got := terminalGetc t io
      let ch := charCode got.1
      if ch < 0 then inputLoop t len hide fuel line (written ++ got.2.1) got.2.2
      else
        let written := written ++ got.2.1 ++ hideChar t hide (UInt8.ofInt ch)
        if ch = t.chrBs.toNat then inputLoop t len hide fuel line.erase written got.2.2
        else if ch = newline.toNat then some ⟨line, written, got.2.2⟩
        else if ch ≥ 0 then inputLoop t len hide fuel (line.put (UInt8.ofInt ch)) written got.2.2
        else inputLoop t len hide fuel line written got.2.2
    else some ⟨line, written, io⟩

/-- The echo is off while the input is hidden. -/
def Terminal.hiding (t : Terminal) (hide : Int) : Terminal := { t with echo := decide (hide < 0) }

/-- `terminal_input` with its buffer, and the terminal that it leaves. -/
def terminalInputInto (fuel : Nat) (t : Terminal) (buf : Block UInt8) (len : Nat)
    (prompt : Option (List UInt8)) (hide : Int) (io : List (Option UInt8)) :
    Option (Terminal × Reply) := do
  let echo := t.echo
  let t := t.hiding hide
  let written := (prompt.map (terminalWrite t)).getD []
  let reply ← inputLoop t len hide fuel ⟨buf, 0⟩ written io
  some ({ t with echo := echo }, reply)

/-! ## The text of a line -/

/-- The characters that `terminal_getc` returns. -/
def received (t : Terminal) (io : List (Option UInt8)) : List UInt8 :=
  io.filterMap fun x => x.bind (terminalReceive t)

/-- Backspace removes the last character that is kept. -/
def editChar (bs : UInt8) (len : Nat) (s : Input) (ch : UInt8) : Input :=
  if s.Reading len then
    if ch = bs then { s with buf := s.buf.dropLast }
    else if ch = newline then { s with ended := true }
    else { s with buf := s.buf ++ [ch] }
  else s

/-- How far a line has come with these results. -/
def lineAt (t : Terminal) (len : Nat) (io : List (Option UInt8)) : Input :=
  (received t io).foldl (editChar t.chrBs len) ⟨[], false⟩

/-- A line of the buffer, with what lies behind the first `len` cells. -/
structure Line.Holds (len : Nat) (beyond : List UInt8) (line : Line) (text : List UInt8) :
    Prop where
  fault : line.buf.fault = false
  room : len ≤ line.buf.size
  num : line.num = text.length
  text : line.text = text
  beyond : line.buf.cells.drop len = beyond

/-- The two loops take the same steps; they differ in what they show. -/
structure Edits (t : Terminal) (hide : Int) (len : Nat)
    (loop : Nat → Line → List UInt8 → List (Option UInt8) → Option Reply) : Prop where
  full : ∀ {fuel line w io}, ¬line.num < len → loop (fuel + 1) line w io = some ⟨line, w, io⟩
  gap : ∀ {fuel line w io e rest}, line.num < len → terminalGetc t io = (none, e, rest) →
    loop (fuel + 1) line w io = loop fuel line (w ++ e) rest
  char : ∀ {fuel line w io ch e rest}, line.num < len → terminalGetc t io = (some ch, e, rest) →
    loop (fuel + 1) line w io =
      if ch = t.chrBs then loop fuel line.erase (w ++ e ++ hideChar t hide ch) rest
      else if ch = newline then some ⟨line, w ++ e ++ hideChar t hide ch, rest⟩
      else loop fuel (line.put ch) (w ++ e ++ hideChar t hide ch) rest

variable {t : Terminal} {hide : Int} {len : Nat} {io : List (Option UInt8)}

theorem charCode_eq (ch c : UInt8) : charCode (some ch) = c.toNat ↔ ch = c := by
  rw [charCode, Option.elim_some, Int.ofNat_inj, UInt8.toNat_inj]

theorem charCode_nonneg (ch : UInt8) : charCode (some ch) ≥ 0 := Int.natCast_nonneg _

theorem ofInt_charCode (ch : UInt8) : UInt8.ofInt (charCode (some ch)) = ch := ofInt_toNat ch

theorem gets_edits (t : Terminal) (len : Nat) : Edits t 0 len (getsLoop t len) where
  full := by
    intro fuel line w io hfull
    rw [getsLoop, if_neg hfull]
  gap := by
    intro fuel line w io e rest hlt hgot
    have hne (c : UInt8) : ¬charCode none = c.toNat := by
      rw [charCode, Option.elim_none]
      omega
    have hneg : ¬charCode none ≥ 0 := by decide
    rw [getsLoop, if_pos hlt, hgot]
    simp only [if_neg (hne _), if_neg hneg]
  char := by
    intro fuel line w io ch e rest hlt hgot
    have hshow : hideChar t 0 ch = [] := rfl
    rw [getsLoop, if_pos hlt, hgot, hshow, List.append_nil]
    simp only [charCode_eq, if_pos (charCode_nonneg ch), ofInt_charCode]

theorem input_edits (t : Terminal) (hide : Int) (len : Nat) :
    Edits t hide len (inputLoop t len hide) where
  full := by
    intro fuel line w io hfull
    rw [inputLoop, if_neg hfull]
  gap := by
    intro fuel line w io e rest hlt hgot
    have hneg : charCode none < 0 := by decide
    rw [inputLoop, if_pos hlt, hgot]
    simp only [if_pos hneg]
  char := by
    intro fuel line w io ch e rest hlt hgot
    have hpos : ¬charCode (some ch) < 0 := Int.not_lt.mpr (charCode_nonneg ch)
    rw [inputLoop, if_pos hlt, hgot]
    simp only [if_neg hpos, charCode_eq, if_pos (charCode_nonneg ch), ofInt_charCode]

/-! ## The buffer -/

namespace Line

variable {line : Line} {beyond text : List UInt8}

theorem Holds.store (h : line.Holds len beyond text) {num : Nat} (hnum : num ≤ line.num)
    (hlt : num < len) (ch : UInt8) :
    (line.buf.store num [ch]).fault = false ∧ len ≤ (line.buf.store num [ch]).size ∧
      (line.buf.store num [ch]).cells.take (num + 1) = text.take num ++ [ch] ∧
      (line.buf.store num [ch]).cells.drop len = beyond := by
  have hroom := h.room
  rw [Block.size] at hroom
  have hfit : num + [ch].length ≤ line.buf.size := by
    rw [Block.size, List.length_singleton]
    omega
  have htext : line.buf.cells.take num = text.take num := by
    rw [← h.text, Line.text, List.take_take, Nat.min_eq_left hnum]
  have hnumle : num ≤ line.buf.cells.length := by omega
  have hbehind : num + [ch].length ≤ len := hlt
  rw [Block.store_of_le hfit, Block.size]
  refine ⟨h.fault, ?_, ?_, ?_⟩
  · rwa [List.length_overlay hfit]
  · rw [← htext]
    exact @List.take_overlay _ _ [ch] _ hnumle
  · rw [← h.beyond]
    exact List.drop_overlay_of_le hbehind hnumle

theorem Holds.put (h : line.Holds len beyond text) (hlt : text.length < len) (ch : UInt8) :
    (line.put ch).Holds len beyond (text ++ [ch]) := by
  have hnum := h.num
  obtain ⟨hfault, hroom, htext, hbeyond⟩ := h.store (Nat.le_refl _) (by omega) ch
  refine ⟨hfault, hroom, ?_, ?_, hbeyond⟩
  · rw [List.length_append, ← hnum]
    rfl
  · rw [hnum, List.take_length] at htext
    rw [Line.text, Line.put, hnum]
    exact htext

theorem Holds.erase (h : line.Holds len beyond text) (hle : text.length ≤ len) :
    line.erase.Holds len beyond text.dropLast := by
  have hnum := h.num
  rw [Line.erase]
  split
  · rename_i hpos
    obtain ⟨hfault, hroom, htext, hbeyond⟩ := h.store (Nat.sub_le line.num 1) (by omega) 0
    refine ⟨hfault, hroom, ?_, ?_, hbeyond⟩
    · rw [List.length_dropLast, ← hnum]
    · have hshort := congrArg (List.take (line.num - 1)) htext
      rw [List.take_take, Nat.min_eq_left (Nat.le_succ _), List.take_append_of_le_length] at hshort
      · rw [Line.text, hshort, List.take_take, Nat.min_self, hnum, List.dropLast_eq_take]
      · rw [List.length_take, ← hnum]
        omega
  · rename_i hzero
    have hnil : text = [] := List.eq_nil_of_length_eq_zero (by omega)
    subst hnil
    exact h

end Line

/-! ## The steps of a line -/

def lineStep (t : Terminal) (len : Nat) (s : Input) (x : Option UInt8) : Input :=
  (x.bind (terminalReceive t)).elim s (editChar t.chrBs len s)

/-- What is not asked for any more. -/
def unasked (t : Terminal) (len : Nat) : Input → List (Option UInt8) → List (Option UInt8)
  | _, [] => []
  | s, x :: io => if s.Reading len then unasked t len (lineStep t len s x) io else x :: io

variable {s : Input} {x : Option UInt8}

theorem inputStep_line (t : Terminal) (hide : Int) (len : Nat) (s : Input) (x : Option UInt8) :
    (terminalInputStep t hide len s x).1 = lineStep t len s x := by
  cases hx : x.bind (terminalReceive t) with
  | none => rw [inputStep_unseen hx, lineStep, hx, Option.elim_none]
  | some ch =>
    rw [lineStep, hx, Option.elim_some, editChar]
    split
    · rename_i hread
      rw [inputStep_seen hread hx, terminalInputChar]
      split
      · rfl
      split <;> rfl
    · rename_i hstop
      rw [inputStep_returned hstop]

theorem inputChar_eq (t : Terminal) (hide : Int) (s : Input) (ch : UInt8) :
    terminalInputChar t hide s ch =
      (if ch = t.chrBs then { s with buf := s.buf.dropLast }
        else if ch = newline then { s with ended := true }
        else { s with buf := s.buf ++ [ch] }, hideChar t hide ch) := by
  rw [terminalInputChar]
  split
  · rfl
  split <;> rfl

/-- Whatever is shown, the line is the fold over the characters. -/
theorem run_line (t : Terminal) (hide : Int) (len : Nat) (s : Input) (io : List (Option UInt8)) :
    run (terminalInputStep t hide len) s io = (received t io).foldl (editChar t.chrBs len) s := by
  induction io generalizing s with
  | nil => rfl
  | cons x io ih =>
    rw [run_cons, inputStep_line, ih, received, received, List.filterMap_cons, lineStep]
    cases x.bind (terminalReceive t) <;> rfl

theorem run_stopped (hide : Int) (h : ¬s.Reading len) (io : List (Option UInt8)) :
    run (terminalInputStep t hide len) s io = s ∧
      (outputs (terminalInputStep t hide len) s io).flatten = [] ∧ unasked t len s io = io := by
  induction io with
  | nil => exact ⟨rfl, rfl, rfl⟩
  | cons x io ih =>
    obtain ⟨hrun, hout, -⟩ := ih
    rw [run_cons, outputs_cons, inputStep_returned h, List.flatten_cons, hrun, hout, unasked,
      if_neg h]
    exact ⟨rfl, rfl, rfl⟩

section
variable {loop : Nat → Line → List UInt8 → List (Option UInt8) → Option Reply} {line : Line}
  {beyond text : List UInt8}

theorem Edits.skip (h : Edits t hide len loop) {fuel : Nat} {w : List UInt8} {b : UInt8}
    (hlt : line.num < len) (hb : terminalReceive t b = none) (io : List (Option UInt8)) :
    loop (fuel + 1) line w (some b :: io) = loop (fuel + 1) line w io := by
  have hskip := terminalGetc_skip hb io
  cases hgot : terminalGetc t io with
  | mk got more =>
    rw [hgot] at hskip
    cases got with
    | none => rw [h.gap hlt hskip, h.gap hlt hgot]
    | some ch => rw [h.char hlt hskip, h.char hlt hgot]

theorem Edits.step_unseen (h : Edits t hide len loop) (hlt : line.num < len)
    (hx : x.bind (terminalReceive t) = none) :
    ∃ slack, ∀ fuel w io, loop (fuel + 1) line w (x :: io) = loop (fuel + slack) line w io := by
  cases x with
  | none =>
    refine ⟨0, fun fuel w io => ?_⟩
    have hgot : terminalGetc t (none :: io) = (none, [], io) := rfl
    rw [h.gap hlt hgot, List.append_nil, Nat.add_zero]
  | some b => exact ⟨1, fun fuel w io => h.skip hlt hx io⟩

theorem Edits.step_seen (h : Edits t hide len loop) (hlt : line.num < len) {ch : UInt8}
    (hx : x.bind (terminalReceive t) = some ch) :
    ∃ e, (∀ s : Input, s.Reading len → (terminalInputStep t hide len s x).2 = e) ∧
      ∀ fuel w io, loop (fuel + 1) line w (x :: io) =
        if ch = t.chrBs then loop fuel line.erase (w ++ e) io
        else if ch = newline then some ⟨line, w ++ e, io⟩
        else loop fuel (line.put ch) (w ++ e) io := by
  obtain ⟨b, rfl, hb⟩ := Option.bind_eq_some_iff.mp hx
  refine ⟨(if t.echo then terminalPutc t ch.toNat else []) ++ hideChar t hide ch, ?_, ?_⟩
  · intro s hread
    rw [inputStep_seen hread hx, inputChar_eq]
  · intro fuel w io
    have hgot : terminalGetc t (some b :: io) =
        (some ch, if t.echo then terminalPutc t ch.toNat else [], io) := by
      rw [terminalGetc, hb]
    rw [h.char hlt hgot, List.append_assoc]

/-- A step that does not end the line leaves the loop with the line after it. -/
theorem Edits.step (h : Edits t hide len loop) (hline : line.Holds len beyond text)
    (hlt : text.length < len) (hgoes : (lineStep t len ⟨text, false⟩ x).ended = false) :
    ∃ (line' : Line) (text' : List UInt8) (slack : Nat),
      lineStep t len ⟨text, false⟩ x = ⟨text', false⟩ ∧ text'.length ≤ len ∧
      line'.Holds len beyond text' ∧
      ∀ fuel w io, loop (fuel + 1) line w (x :: io) =
        loop (fuel + slack) line' (w ++ (terminalInputStep t hide len ⟨text, false⟩ x).2) io := by
  have hread : (⟨text, false⟩ : Input).Reading len := ⟨hlt, rfl⟩
  have hnum : line.num < len := hline.num.symm ▸ hlt
  cases hx : x.bind (terminalReceive t) with
  | none =>
    obtain ⟨slack, hloop⟩ := h.step_unseen hnum hx
    refine ⟨line, text, slack, ?_, Nat.le_of_lt hlt, hline, fun fuel w io => ?_⟩
    · rw [lineStep, hx, Option.elim_none]
    · rw [hloop, inputStep_unseen hx, List.append_nil]
  | some ch =>
    obtain ⟨e, hshow, hloop⟩ := h.step_seen hnum hx
    rw [lineStep, hx, Option.elim_some, editChar, if_pos hread] at hgoes ⊢
    rw [hshow _ hread]
    simp only [hloop]
    split at hgoes
    · rename_i hbs
      have hshort : text.dropLast.length ≤ len := by
        rw [List.length_dropLast]
        omega
      refine ⟨line.erase, text.dropLast, 0, ?_, hshort, hline.erase (Nat.le_of_lt hlt), ?_⟩
      · rw [if_pos hbs]
      · intro fuel w io
        rw [if_pos hbs, Nat.add_zero]
    · rename_i hbs
      split at hgoes
      · cases hgoes
      · rename_i hnl
        have hlong : (text ++ [ch]).length ≤ len := by
          rw [List.length_append, List.length_singleton]
          omega
        refine ⟨line.put ch, text ++ [ch], 0, ?_, hlong, hline.put hlt ch, ?_⟩
        · rw [if_neg hbs, if_neg hnl]
        · intro fuel w io
          rw [if_neg hbs, if_neg hnl, Nat.add_zero]

/-- A newline ends the line, and the loop with it. -/
theorem Edits.step_ends (h : Edits t hide len loop) (hline : line.Holds len beyond text)
    (hlt : text.length < len) (hends : (lineStep t len ⟨text, false⟩ x).ended = true) :
    lineStep t len ⟨text, false⟩ x = ⟨text, true⟩ ∧
      ∀ fuel w io, loop (fuel + 1) line w (x :: io) =
        some ⟨line, w ++ (terminalInputStep t hide len ⟨text, false⟩ x).2, io⟩ := by
  have hread : (⟨text, false⟩ : Input).Reading len := ⟨hlt, rfl⟩
  have hnum : line.num < len := hline.num.symm ▸ hlt
  cases hx : x.bind (terminalReceive t) with
  | none =>
    rw [lineStep, hx, Option.elim_none] at hends
    cases hends
  | some ch =>
    obtain ⟨e, hshow, hloop⟩ := h.step_seen hnum hx
    rw [lineStep, hx, Option.elim_some, editChar, if_pos hread] at hends ⊢
    rw [hshow _ hread]
    simp only [hloop]
    split at hends
    · cases hends
    · rename_i hbs
      split at hends
      · rename_i hnl
        refine ⟨?_, fun fuel w io => ?_⟩
        · rw [if_neg hbs, if_pos hnl]
        · rw [if_neg hbs, if_pos hnl]
      · cases hends

/-- Once the line has stopped, the loop returns it with what has been written on the way. -/
theorem Edits.runs (h : Edits t hide len loop) (io : List (Option UInt8)) (w : List UInt8)
    (hline : line.Holds len beyond text) (hle : text.length ≤ len)
    (hstop : ¬(run (terminalInputStep t hide len) ⟨text, false⟩ io).Reading len) :
    ∃ reply, (∀ k, loop (k + io.length + 1) line w io = some reply) ∧
      reply.line.Holds len beyond (run (terminalInputStep t hide len) ⟨text, false⟩ io).buf ∧
      reply.written = w ++ (outputs (terminalInputStep t hide len) ⟨text, false⟩ io).flatten ∧
      reply.rest = unasked t len ⟨text, false⟩ io := by
  induction io generalizing line text w with
  | nil =>
    have hfull : ¬line.num < len := fun hlt => hstop ⟨hline.num ▸ hlt, rfl⟩
    refine ⟨⟨line, w, []⟩, fun k => ?_, hline, (List.append_nil w).symm, rfl⟩
    exact h.full hfull
  | cons x io ih =>
    cases Decidable.em (text.length < len) with
    | inr hfull =>
      have hstopped : ¬(⟨text, false⟩ : Input).Reading len := fun hread => hfull hread.1
      obtain ⟨hrun, hout, hrest⟩ := run_stopped hide hstopped (x :: io)
      rw [hrun, hout, hrest, List.append_nil]
      refine ⟨⟨line, w, x :: io⟩, fun k => ?_, hline, rfl, rfl⟩
      exact h.full (hline.num ▸ hfull)
    | inl hlt =>
      have hread : (⟨text, false⟩ : Input).Reading len := ⟨hlt, rfl⟩
      rw [run_cons, inputStep_line] at hstop ⊢
      rw [outputs_cons, inputStep_line, List.flatten_cons, unasked, if_pos hread]
      cases hends : (lineStep t len ⟨text, false⟩ x).ended with
      | true =>
        obtain ⟨hnext, hloop⟩ := h.step_ends hline hlt hends
        have hstopped : ¬(⟨text, true⟩ : Input).Reading len := fun hread => by cases hread.2
        obtain ⟨hrun, hout, hrest⟩ := run_stopped hide hstopped io
        rw [hnext, hrun, hout, hrest, List.append_nil]
        exact ⟨_, fun k => hloop _ w io, hline, rfl, rfl⟩
      | false =>
        obtain ⟨line', text', slack, hnext, hle', hline', hloop⟩ := h.step hline hlt hends
        rw [hnext] at hstop ⊢
        rw [← List.append_assoc]
        obtain ⟨reply, hrun, hholds, hwritten, hrest⟩ :=
          ih (w ++ (terminalInputStep t hide len ⟨text, false⟩ x).2) hline' hle' hstop
        refine ⟨reply, fun k => ?_, hholds, hwritten, hrest⟩
        -- the fuel that a skipped byte has left over
        rw [hloop, List.length_cons, ← hrun (k + slack)]
        congr 1
        omega

end

/-! ## Where a line stops -/

/-- The line has stopped with the last of these results, and not before. -/
def StopsWith (t : Terminal) (len : Nat) (s : Input) (used : List (Option UInt8)) : Prop :=
  ¬((received t used).foldl (editChar t.chrBs len) s).Reading len ∧
    ∀ p, p <+: used → p ≠ used → ((received t p).foldl (editChar t.chrBs len) s).Reading len

theorem received_fold_cons (t : Terminal) (len : Nat) (s : Input) (x : Option UInt8)
    (io : List (Option UInt8)) : (received t (x :: io)).foldl (editChar t.chrBs len) s =
      (received t io).foldl (editChar t.chrBs len) (lineStep t len s x) := by
  rw [← run_line t 0, ← run_line t 0, run_cons, inputStep_line]

theorem unasked_used (io : List (Option UInt8)) {s : Input}
    (hstop : ¬((received t io).foldl (editChar t.chrBs len) s).Reading len) :
    ∃ used, io = used ++ unasked t len s io ∧ StopsWith t len s used := by
  have hnone {s : Input} (hs : ¬s.Reading len) : StopsWith t len s [] :=
    ⟨hs, fun p hp hne => absurd (List.prefix_nil.mp hp) hne⟩
  induction io generalizing s with
  | nil => exact ⟨[], rfl, hnone hstop⟩
  | cons x io ih =>
    rw [unasked]
    split
    · rename_i hread
      rw [received_fold_cons] at hstop
      obtain ⟨used, hio, hend, hbefore⟩ := ih hstop
      refine ⟨x :: used, congrArg (x :: ·) hio, ?_, fun p hp hne => ?_⟩
      · rw [received_fold_cons]
        exact hend
      · cases p with
        | nil => exact hread
        | cons y p =>
          obtain ⟨rfl, htail⟩ := List.cons_prefix_cons.mp hp
          rw [received_fold_cons]
          exact hbefore p htail fun heq => hne (congrArg (y :: ·) heq)
    · rename_i hs
      exact ⟨[], rfl, hnone hs⟩

/-! ## The two calls -/

/-- The block has room for a line, and no access has left it. -/
def RoomFor (len : Nat) (buf : Block UInt8) : Prop := buf.fault = false ∧ len ≤ buf.size

theorem RoomFor.holds {buf : Block UInt8} (h : RoomFor len buf) :
    Line.Holds len (buf.cells.drop len) ⟨buf, 0⟩ [] :=
  ⟨h.1, h.2, rfl, rfl, rfl⟩

theorem terminalGets_eq {buf : Block UInt8} (h : RoomFor len buf)
    (hstop : ¬(lineAt t len io).Reading len) :
    ∃ reply : Reply,
      (∀ fuel > io.length, terminalGets fuel t buf len io = some reply) ∧
      reply.line.Holds len (buf.cells.drop len) (lineAt t len io).buf ∧
      reply.rest = unasked t len ⟨[], false⟩ io := by
  have hrun : run (terminalInputStep t 0 len) ⟨[], false⟩ io = lineAt t len io :=
    run_line t 0 len _ io
  rw [← hrun] at hstop ⊢
  obtain ⟨reply, hloop, hholds, -, hrest⟩ :=
    (gets_edits t len).runs io [] h.holds (Nat.zero_le _) hstop
  refine ⟨reply, fun fuel hfuel => ?_, hholds, hrest⟩
  obtain ⟨k, rfl⟩ := Nat.exists_eq_add_of_lt hfuel
  rw [terminalGets, Nat.add_comm io.length k]
  exact hloop k

theorem unasked_hiding (t : Terminal) (hide : Int) (len : Nat) (s : Input)
    (io : List (Option UInt8)) : unasked (t.hiding hide) len s io = unasked t len s io := by
  induction io generalizing s with
  | nil => rfl
  | cons x io ih =>
    rw [unasked, unasked, ih]
    rfl

/-- The call with a buffer stores and writes what the call without one says. -/
theorem terminalInputInto_eq {buf : Block UInt8} (h : RoomFor len buf)
    (prompt : Option (List UInt8)) (hide : Int) (hstop : ¬(lineAt t len io).Reading len) :
    ∃ reply : Reply,
      (∀ fuel > io.length,
        terminalInputInto fuel t buf len prompt hide io = some (t, reply)) ∧
      reply.line.Holds len (buf.cells.drop len) (lineAt t len io).buf ∧
      (terminalInput t len prompt hide io).1 = lineAt t len io ∧
      reply.written = (terminalInput t len prompt hide io).2 ∧
      reply.rest = unasked t len ⟨[], false⟩ io := by
  have hrun : run (terminalInputStep (t.hiding hide) hide len) ⟨[], false⟩ io = lineAt t len io :=
    run_line (t.hiding hide) hide len _ io
  rw [← hrun] at hstop ⊢
  obtain ⟨reply, hloop, hholds, hwritten, hrest⟩ :=
    (input_edits (t.hiding hide) hide len).runs io
      ((prompt.map (terminalWrite (t.hiding hide))).getD []) h.holds (Nat.zero_le _) hstop
  rw [unasked_hiding] at hrest
  refine ⟨reply, fun fuel hfuel => ?_, hholds, rfl, hwritten, hrest⟩
  obtain ⟨k, rfl⟩ := Nat.exists_eq_add_of_lt hfuel
  rw [terminalInputInto, Nat.add_comm io.length k]
  simp only [hloop]
  rfl

/-- On results that end a line or fill the buffer, both calls take what the line
needs and no more, and both store its text, within the first `len` cells. -/
theorem terminal_lines_agree {buf buf' : Block UInt8} (hbuf : RoomFor len buf)
    (hbuf' : RoomFor len buf') (prompt : Option (List UInt8)) (hide : Int)
    (hstop : ¬(lineAt t len io).Reading len) :
    ∃ reply reply' : Reply,
      (∀ fuel > io.length, terminalGets fuel t buf len io = some reply ∧
        terminalInputInto fuel t buf' len prompt hide io = some (t, reply')) ∧
      (∃ used, io = used ++ reply.rest ∧ io = used ++ reply'.rest ∧
        StopsWith t len ⟨[], false⟩ used) ∧
      reply.line.Holds len (buf.cells.drop len) (lineAt t len io).buf ∧
      reply'.line.Holds len (buf'.cells.drop len) (lineAt t len io).buf := by
  obtain ⟨reply, hgets, hholds, hrest⟩ := terminalGets_eq hbuf hstop
  obtain ⟨reply', hinput, hholds', -, -, hrest'⟩ := terminalInputInto_eq hbuf' prompt hide hstop
  obtain ⟨used, hio, hused⟩ := unasked_used io hstop
  refine ⟨reply, reply', fun fuel hfuel => ⟨hgets fuel hfuel, hinput fuel hfuel⟩,
    ⟨used, ?_, ?_, hused⟩, hholds, hholds'⟩
  · rwa [hrest]
  · rwa [hrest']

/-- `ab`, a backspace in between, a gap, and a byte behind the line. -/
theorem terminal_lines_agree_edited :
    let io : List (Option UInt8) :=
      [some 'a', some 8, some 8, none, some 'b', some '\r', some '\n', some 'c']
    lineAt terminalInit 4 io = ⟨['b'], true⟩ ∧
      ∃ reply reply' : Reply,
        terminalGets 9 terminalInit (.ofCells [1, 1, 1, 1, 1]) 4 io = some reply ∧
        terminalInputInto 9 terminalInit (.ofCells [2, 2, 2, 2]) 4 none 42 io =
          some (terminalInit, reply') ∧
        reply.line.Holds 4 [1] ['b'] ∧ reply'.line.Holds 4 [] ['b'] := by
  intro io
  have hline : lineAt terminalInit 4 io = ⟨['b'], true⟩ := by decide
  have hstop : ¬(lineAt terminalInit 4 io).Reading 4 := by
    rw [hline]
    decide
  obtain ⟨reply, reply', hrun, -, hholds, hholds'⟩ :=
    @terminal_lines_agree terminalInit 4 io (.ofCells [1, 1, 1, 1, 1]) (.ofCells [2, 2, 2, 2])
      ⟨rfl, by decide⟩ ⟨rfl, by decide⟩ none 42 hstop
  rw [hline] at hholds hholds'
  obtain ⟨hgets, hinput⟩ := hrun 9 (by decide)
  exact ⟨hline, reply, reply', hgets, hinput, hholds, hholds'⟩

end Wifimodem
