import Wifimodem.Phy.TerminalLines
import Wifimodem.Util.ReplLine

/-!
# Commands from a terminal

`repl_run` asks for a line and evaluates it until a command quits. With
`terminal_gets` as the source of its lines, what it evaluates is what was typed.
-/

namespace Wifimodem

open Str Traced

/-- What the callbacks share with the loop. -/
structure ReplState (σ : Type) where
  mem : Nat → UInt8
  done : Bool
  data : σ

section
variable {σ : Type}

def replQuit (s : ReplState σ) : ReplState σ := { s with done := true }

/-- A callback that is `NULL` is `none`. One that waits for ever has no result. -/
structure ReplProcs (σ : Type) where
  eval : Option (ReplState σ → List Str → List Int → ReplState σ)
  gets : Option (ReplState σ → Option (ReplState σ × Int))

def replEvalWith (r : Repl) (procs : ReplProcs σ) (s : ReplState σ) (cmd : Str) : ReplState σ :=
  match (replEval inPlace r s.mem cmd).value with
  | none => s
  | some c =>
    let s := { s with mem := c.mem }
    match procs.eval with
    | none => s
    | some eval => eval s c.argv c.argk

def replLoop (r : Repl) (procs : ReplProcs σ) : Nat → ReplState σ → Option (ReplState σ)
  | 0, _ => none
  | fuel + 1, s =>
    if s.done then some { s with done := false }
    else
      match procs.gets with
      | none => some { s with done := false }
      | some gets => do
        let (s, num) ← gets s
        if num < 0 then some { s with done := false }
        else replLoop r procs fuel (replEvalWith r procs s ⟨r.buf, num.toNat⟩)

def replRun (r : Repl) (procs : ReplProcs σ) (fuel : Nat) (s : ReplState σ) :
    Option (ReplState σ) :=
  replLoop r procs fuel { s with done := false }

end

/-! ## A console -/

/-- The io of the terminal, and what the commands work on. -/
structure Console (α : Type) where
  io : List (Option UInt8)
  app : α

section
variable {α : Type}

/-- The bytes of a block at an address. -/
def storeBlock (mem : Nat → UInt8) (addr : Nat) (b : Block UInt8) : Nat → UInt8 :=
  fun a => if addr ≤ a ∧ a < addr + b.size then b.cells.getD (a - addr) 0 else mem a

/-- `terminal_gets` for the line buffer. -/
def consoleGets (t : Terminal) (r : Repl) (s : ReplState (Console α)) :
    Option (ReplState (Console α) × Int) := do
  let buf := Block.ofCells (textFrom s.mem r.buf r.len)
  let reply ← terminalGets (s.data.io.length + 1) t buf r.len s.data.io
  some
    ({ s with
      mem := storeBlock s.mem r.buf reply.line.buf
      data := { s.data with io := reply.rest } }, reply.line.num)

/-- What a command does, with its words and their codes, and whether it quits. -/
abbrev Act (α : Type) := α → List (List UInt8) → List Int → α × Bool

def consoleEval (act : Act α) (s : ReplState (Console α)) (argv : List Str) (argk : List Int) :
    ReplState (Console α) :=
  let (app, quits) := act s.data.app (argv.map (Str.text s.mem)) argk
  let s := { s with data := { s.data with app := app } }
  if quits then replQuit s else s

def consoleProcs (t : Terminal) (r : Repl) (act : Act α) : ReplProcs (Console α) where
  eval := some (consoleEval act)
  gets := some (consoleGets t r)

/-! ## A session -/

/-- What a line does, and whether it quits. -/
def lineDoes (lead : List UInt8) (keywords : Option (List (List UInt8))) (igncase : Bool)
    (act : Act α) (app : α) (line : List UInt8) : α × Bool :=
  match replLine lead keywords igncase line with
  | none => (app, false)
  | some (args, argk) => act app args argk

/-- The state after these lines, the last of which is the first one that quits. -/
def session (does : α → List UInt8 → α × Bool) : α → List (List UInt8) → Option α
  | _, [] => none
  | app, line :: lines =>
    match does app line with
    | (app, true) => if lines = [] then some app else none
    | (app, false) => session does app lines

variable {t : Terminal} {r : Repl} {len : Nat}

/-- What comes behind a line is not asked for. -/
theorem unasked_append {s : Input} {used : List (Option UInt8)} (h : StopsWith t len s used)
    (rest : List (Option UInt8)) :
    unasked t len s (used ++ rest) = rest ∧
      (received t (used ++ rest)).foldl (editChar t.chrBs len) s =
        (received t used).foldl (editChar t.chrBs len) s := by
  induction used generalizing s with
  | nil =>
    obtain ⟨hstop, _⟩ := h
    have hstop : ¬s.Reading len := hstop
    obtain ⟨hrun, _, hrest⟩ := run_stopped (t := t) 0 hstop rest
    rw [run_line] at hrun
    exact ⟨hrest, hrun⟩
  | cons x used ih =>
    obtain ⟨hstop, hbefore⟩ := h
    have hread : s.Reading len := hbefore [] List.nil_prefix (List.cons_ne_nil x used).symm
    have htail : StopsWith t len (lineStep t len s x) used := by
      refine ⟨by rwa [received_fold_cons] at hstop, fun p hp hne => ?_⟩
      rw [← received_fold_cons]
      exact hbefore (x :: p) (List.cons_prefix_cons.mpr ⟨rfl, hp⟩)
        fun heq => hne (List.cons.inj heq).2
    obtain ⟨hrest, hfold⟩ := ih htail
    rw [List.cons_append, unasked, if_pos hread, received_fold_cons, received_fold_cons]
    exact ⟨hrest, hfold⟩

theorem textFrom_storeBlock (mem : Nat → UInt8) (addr : Nat) (b : Block UInt8) {n : Nat}
    (hn : n ≤ b.size) : textFrom (storeBlock mem addr b) addr n = b.cells.take n := by
  have hfrom : ∀ off n, off + n ≤ b.size →
      textFrom (storeBlock mem addr b) (addr + off) n = (b.cells.drop off).take n := by
    intro off n
    induction n generalizing off with
    | zero => exact fun _ => rfl
    | succ n ih =>
      intro hle
      have hlt : off < b.cells.length := by
        rw [Block.size] at hle
        omega
      have hhead : storeBlock mem addr b (addr + off) = b.cells[off] := by
        rw [storeBlock, if_pos (by rw [Block.size]; omega), Nat.add_sub_cancel_left, List.getD,
          List.getElem?_eq_getElem hlt, Option.getD_some]
      rw [textFrom, hhead, Nat.add_assoc, ih (off + 1) (by omega),
        List.drop_eq_getElem_cons hlt, List.take_succ_cons]
  exact hfrom 0 n (by omega)

theorem storeBlock_outside {mem : Nat → UInt8} {addr a : Nat} {b : Block UInt8} {size : Nat}
    (hsize : b.size = size) (ha : a < addr ∨ addr + size ≤ a) : storeBlock mem addr b a = mem a := by
  rw [storeBlock, if_neg]
  omega

/-! ## One line -/

/-- The line buffer alone has changed. -/
def SameAround (r : Repl) (mem mem' : Nat → UInt8) : Prop :=
  ∀ a, a < r.buf ∨ r.buf + r.len ≤ a → mem' a = mem a

theorem consoleGets_line {s : ReplState (Console α)} {used rest : List (Option UInt8)}
    (h : StopsWith t r.len ⟨[], false⟩ used) (hio : s.data.io = used ++ rest) :
    ∃ mem', consoleGets t r s =
        some ((⟨mem', s.done, ⟨rest, s.data.app⟩⟩ : ReplState (Console α)),
          ((lineAt t r.len used).buf.length : Int)) ∧
      Str.text mem' ⟨r.buf, (lineAt t r.len used).buf.length⟩ = (lineAt t r.len used).buf ∧
      (lineAt t r.len used).buf.length ≤ r.len ∧ SameAround r s.mem mem' := by
  obtain ⟨hunasked, hfold⟩ := unasked_append h rest
  have hline : lineAt t r.len s.data.io = lineAt t r.len used := by
    rw [hio]
    exact hfold
  have hroom : RoomFor r.len (Block.ofCells (textFrom s.mem r.buf r.len)) :=
    ⟨rfl, (length_textFrom s.mem r.buf r.len).ge⟩
  have hstop : ¬(lineAt t r.len s.data.io).Reading r.len := by
    rw [hline]
    exact h.1
  obtain ⟨reply, hgets, hholds, hrest⟩ := terminalGets_eq hroom hstop
  rw [hline] at hholds
  rw [hio, hunasked] at hrest
  have hnothing : (Block.ofCells (textFrom s.mem r.buf r.len)).cells.drop r.len = [] :=
    List.drop_eq_nil_of_le (length_textFrom s.mem r.buf r.len).le
  have hbeyond := hholds.beyond
  have hsize := hholds.room
  rw [hnothing, List.drop_eq_nil_iff] at hbeyond
  have hsize : reply.line.buf.size = r.len := Nat.le_antisymm hbeyond hsize
  have htext : reply.line.buf.cells.take reply.line.num = (lineAt t r.len used).buf := hholds.text
  have hnum : (lineAt t r.len used).buf.length ≤ r.len := by
    rw [← htext, ← hsize]
    exact List.length_take_le' _ _
  refine ⟨storeBlock s.mem r.buf reply.line.buf, ?_, ?_, hnum, ?_⟩
  · rw [consoleGets]
    simp only [hgets _ (Nat.lt_succ_self _), Option.bind_eq_bind, Option.bind_some, hrest,
      hholds.num]
  · rw [Str.text]
    simp only
    rw [textFrom_storeBlock s.mem r.buf reply.line.buf (by omega), ← hholds.num, htext]
  · exact fun a ha => storeBlock_outside hsize ha

/-- The words are handed over, and the command works on what it has. -/
theorem replEvalWith_line (hclear : r.Clear) {cmd : Str} (h : r.Line cmd) (act : Act α)
    (s : ReplState (Console α)) {app : α} {quits : Bool}
    (hdoes : lineDoes (r.cmdPrefix.text s.mem) (r.table s.mem) r.igncase act s.data.app
      (cmd.text s.mem) = (app, quits)) :
    ∃ mem', replEvalWith r (consoleProcs t r act) s cmd =
        ⟨mem', s.done || quits, ⟨s.data.io, app⟩⟩ ∧ SameAround r s.mem mem' := by
  have hlo := h.begins
  have hhi := h.ends
  have hline := replEval_line hclear h s.mem
  rw [lineDoes, ← hline] at hdoes
  rw [replEvalWith]
  rcases @replEval_handed inPlace r s.mem cmd (keeps_inPlace _ _) (fun p => h.capacity) with
    ⟨hnone, _⟩ | ⟨c, hsome, _, _, huntouched⟩
  · rw [hnone, Option.map_none] at hdoes
    obtain ⟨rfl, rfl⟩ := Prod.mk.inj hdoes
    rw [hnone]
    refine ⟨s.mem, ?_, fun a _ => rfl⟩
    rw [Bool.or_false]
  · rw [hsome, Option.map_some] at hdoes
    simp only at hdoes
    rw [hsome]
    refine ⟨c.mem, ?_, fun a ha => ?_⟩
    · simp only [consoleProcs, consoleEval]
      rw [ReplCall.args] at hdoes
      rw [hdoes]
      cases quits with
      | true => rw [Bool.or_true]; rfl
      | false => rw [Bool.or_false]; rfl
    · apply huntouched
      intro k p j hp hj
      rw [inPlace]
      omega

/-! ## The session of a console -/

theorem replLoop_session (hclear : r.Clear) (hsize : r.len < 2 ^ 32) (act : Act α)
    {typed : List (List (Option UInt8))} (s : ReplState (Console α)) (hdone : s.done = false)
    {rest : List (Option UInt8)} {app : α} (hio : s.data.io = typed.flatten ++ rest)
    (htyped : ∀ used ∈ typed, StopsWith t r.len ⟨[], false⟩ used)
    (hsession : session (lineDoes (r.cmdPrefix.text s.mem) (r.table s.mem) r.igncase act)
      s.data.app (typed.map fun used => (lineAt t r.len used).buf) = some app) :
    ∃ mem', ∀ fuel, replLoop r (consoleProcs t r act) (fuel + typed.length + 1) s =
      some ⟨mem', false, ⟨rest, app⟩⟩ := by
  induction typed generalizing s with
  | nil => cases hsession
  | cons used typed ih =>
    obtain ⟨hused, htyped⟩ := List.forall_mem_cons.mp htyped
    rw [List.flatten_cons, List.append_assoc] at hio
    obtain ⟨mem₁, hgets, htext, hlen, hsame₁⟩ := consoleGets_line hused hio
    have hlead : r.cmdPrefix.text mem₁ = r.cmdPrefix.text s.mem := text_clear hclear.cmdPrefix hsame₁
    have htable : r.table mem₁ = r.table s.mem := table_clear hclear hsame₁
    have hstep : ∀ fuel, replLoop r (consoleProcs t r act) (fuel + 1) s =
        replLoop r (consoleProcs t r act) fuel
          (replEvalWith r (consoleProcs t r act) ⟨mem₁, s.done, ⟨typed.flatten ++ rest, s.data.app⟩⟩
            ⟨r.buf, (lineAt t r.len used).buf.length⟩) := by
      intro fuel
      have hpos : ¬(((lineAt t r.len used).buf.length : Nat) : Int) < 0 := by omega
      rw [replLoop, if_neg (by rw [hdone]; decide)]
      simp only [consoleProcs] at hgets ⊢
      rw [hgets]
      simp only [Option.bind_eq_bind, Option.bind_some]
      rw [if_neg hpos, Int.toNat_natCast]
    have hcmd : r.Line ⟨r.buf, (lineAt t r.len used).buf.length⟩ :=
      ⟨hsize, Nat.le_refl _, Nat.add_le_add_left hlen _⟩
    rw [List.map_cons, session] at hsession
    cases hdoes : lineDoes (r.cmdPrefix.text s.mem) (r.table s.mem) r.igncase act s.data.app
        (lineAt t r.len used).buf with
    | mk app₁ quits =>
      have heval : lineDoes (r.cmdPrefix.text mem₁) (r.table mem₁) r.igncase act s.data.app
          (Str.text mem₁ ⟨r.buf, (lineAt t r.len used).buf.length⟩) = (app₁, quits) := by
        rw [hlead, htable, htext, hdoes]
      obtain ⟨mem₂, hafter, hsame₂⟩ := @replEvalWith_line α t r hclear _ hcmd act
        ⟨mem₁, s.done, ⟨typed.flatten ++ rest, s.data.app⟩⟩ app₁ quits heval
      rw [hdone, Bool.false_or] at hafter
      rw [hdoes] at hsession
      rw [hdone] at hstep
      cases quits with
      | true =>
        simp only [List.map_eq_nil_iff] at hsession
        split at hsession
        · rename_i hlast
          obtain rfl := Option.some.inj hsession
          subst hlast
          refine ⟨mem₂, fun fuel => ?_⟩
          rw [List.length_singleton, hstep, hafter, replLoop]
          rfl
        · cases hsession
      | false =>
        simp only at hsession
        have hlead₂ : r.cmdPrefix.text mem₂ = r.cmdPrefix.text s.mem :=
          (text_clear hclear.cmdPrefix hsame₂).trans hlead
        have htable₂ : r.table mem₂ = r.table s.mem := (table_clear hclear hsame₂).trans htable
        obtain ⟨mem₃, hloop⟩ := ih ⟨mem₂, false, ⟨typed.flatten ++ rest, app₁⟩⟩ rfl rfl htyped
          (by rw [hlead₂, htable₂]; exact hsession)
        refine ⟨mem₃, fun fuel => ?_⟩
        rw [List.length_cons, ← Nat.add_assoc, hstep, hafter]
        exact hloop fuel

end

/-- What is typed at the terminal, a line after the other, is edited and evaluated in
order, each line once, up to the first command that quits. What was typed behind that
line is still there when `repl_run` returns. -/
theorem repl_run_session {α : Type} {t : Terminal} {r : Repl} (hclear : r.Clear)
    (hsize : r.len < 2 ^ 32) (act : Act α) (s : ReplState (Console α))
    {typed : List (List (Option UInt8))} {rest : List (Option UInt8)} {app : α}
    (hio : s.data.io = typed.flatten ++ rest)
    (htyped : ∀ used ∈ typed, StopsWith t r.len ⟨[], false⟩ used)
    (hsession : session (lineDoes (r.cmdPrefix.text s.mem) (r.table s.mem) r.igncase act)
      s.data.app (typed.map fun used => (lineAt t r.len used).buf) = some app) :
    ∃ mem', ∀ fuel > typed.length, replRun r (consoleProcs t r act) fuel s =
      some ⟨mem', false, ⟨rest, app⟩⟩ := by
  obtain ⟨mem', hloop⟩ := replLoop_session hclear hsize act { s with done := false } rfl hio htyped
    hsession
  refine ⟨mem', fun fuel hfuel => ?_⟩
  obtain ⟨k, rfl⟩ := Nat.exists_eq_add_of_lt hfuel
  rw [replRun, Nat.add_comm typed.length k]
  exact hloop k

/-- Counts the commands, and quits at `go`. -/
def countToGo : Act Nat := fun n args _ =>
  (n + 1, args = ([['g', 'o']] : List (List UInt8)))

def typedUpGo : List (List (Option UInt8)) :=
  [[some '/', some 'u', some 'p', some '\n'],
    [some '/', some 'g', some 'x', some 8, some 'o', some '\n']]

theorem typedUpGo_stops :
    ∀ used ∈ typedUpGo, StopsWith terminalInit twoCommands.len ⟨[], false⟩ used := by
  have hlines : ∀ used ∈ typedUpGo,
      ¬(lineAt terminalInit twoCommands.len used).Reading twoCommands.len ∧
      ∀ n < used.length,
        (lineAt terminalInit twoCommands.len (used.take n)).Reading twoCommands.len := by decide
  intro used hused
  obtain ⟨hstop, hbefore⟩ := hlines used hused
  refine ⟨hstop, fun p hp hne => ?_⟩
  have hlt : p.length < used.length :=
    Nat.lt_of_le_of_ne hp.length_le fun heq => hne (hp.eq_of_length heq)
  rw [List.prefix_iff_eq_take.mp hp]
  exact hbefore p.length hlt

theorem repl_run_up_go :
    ∃ mem', ∀ fuel > 2,
      replRun twoCommands (consoleProcs terminalInit twoCommands countToGo) fuel
        ⟨fun _ => 0, true, ⟨typedUpGo.flatten ++ [some 120], 0⟩⟩ =
          some ⟨mem', false, ⟨[some 120], 2⟩⟩ :=
  @repl_run_session Nat terminalInit twoCommands twoCommands_clear (by decide) countToGo
    ⟨fun _ => 0, true, ⟨typedUpGo.flatten ++ [some 120], 0⟩⟩ typedUpGo [some 120] 2 rfl
    typedUpGo_stops (by decide)

end Wifimodem
