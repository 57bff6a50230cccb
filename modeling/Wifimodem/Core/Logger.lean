import Mathlib.Data.List.Rotate
import Wifimodem.Core.Mempool
import Wifimodem.Lib.ByteBlock
import Wifimodem.Lib.Transducer
import Wifimodem.Lib.Window

/-!
# The log ring

The text of the log is a ring of `logSize` bytes. `length` is the fill level
until the text wraps around and the write position afterwards; reading the log
turns the ring back into a straight text, a scratch block at a time.
-/

namespace Wifimodem

def logSize : Nat := 7872

structure Log where
  enabled : List Bool
  direct : Bool
  wrap : Bool
  length : Nat
  text : Block UInt8
deriving DecidableEq, Repr

structure Memblock where
  data : Block UInt8
  size_data : data.size = mempoolBlockSize
  no_fault : data.fault = false

def logClear (log : Log) : Log := { log with length := 0, wrap := false }

def logInit (log : Log) : Log :=
  logClear { log with direct := false, enabled := [true, true, true, true] }

def Log.put (log : Log) (ofs : Nat) (src : List UInt8) : Log :=
  { log with text := log.text.store ofs src, length := (log.length + src.length) % 2 ^ 16 }

/-- The second result is what goes to the standard output. -/
def logWrite (log : Log) (msg : List UInt8) : Log × List UInt8 :=
  let out := if log.direct then msg else []
  let msg := if msg.length > logSize then msg.drop (msg.length - logSize) else msg
  let num := min (usub logSize log.length) msg.length
  let log := if num > 0 then log.put log.length (msg.take num) else log
  let msg := msg.drop num
  let log := if msg.length > 0 then log.put 0 msg else log
  (if log.length ≥ logSize then { log with length := log.length - logSize, wrap := true } else log,
    out)

/-- The rotation of `log_str`, with a bound on the number of its steps. -/
def logRotate : Nat → Log → Block UInt8 → Log × Block UInt8
  | 0, log, tmp => (log, tmp)
  | fuel + 1, log, tmp =>
    if log.length > 0 then
      let num := min log.length mempoolBlockSize
      let rem := usub logSize num
      let (text, head) := log.text.load 0 num
      let tmp := tmp.store 0 head
      let text := text.copyUp 0 num rem
      let (tmp, head) := tmp.load 0 num
      let text := text.store rem head
      logRotate fuel { log with text := text, length := log.length - num } tmp
    else (log, tmp)

structure LogStr where
  log : Log
  tmp : Block UInt8
  str : List UInt8

/-- Every step of the rotation shortens `length`, so `length` many are enough. -/
def logStr (log : Log) (tmp : Memblock) : LogStr :=
  let (log, tmp) :=
    if log.wrap then
      let (log, tmp) := logRotate log.length log tmp.data
      ({ log with wrap := false, length := logSize }, tmp)
    else (log, tmp.data)
  let (text, str) := log.text.load 0 log.length
  ⟨{ log with text := text }, tmp, str⟩

/-! ## What a log holds -/

structure Log.WellFormed (log : Log) : Prop where
  size_text : log.text.size = logSize
  no_fault : log.text.fault = false
  length_le : log.length ≤ logSize

def Log.contents (log : Log) : List UInt8 :=
  if log.wrap then log.text.cells.rotate log.length else log.text.cells.take log.length

theorem logClear_contents (log : Log) : (logClear log).contents = [] := rfl

theorem logClear_wellFormed {log : Log} (hsize : log.text.size = logSize)
    (hfault : log.text.fault = false) : (logClear log).WellFormed :=
  ⟨hsize, hfault, Nat.zero_le _⟩

theorem logWrite_clip (msg : List UInt8) :
    (if msg.length > logSize then msg.drop (msg.length - logSize) else msg) =
      msg.rtake logSize := by
  split
  · rfl
  · exact (List.rtake_of_length_le (by omega)).symm

section
variable {log : Log} (hwf : log.WellFormed)

include hwf

theorem length_text : log.text.cells.length = logSize := hwf.size_text

/-- A copy that is left out because it is empty would change nothing. -/
theorem copy_eq (ofs : Nat) (src : List UInt8) (hofs : ofs + src.length ≤ logSize) :
    (if src.length > 0 then log.put ofs src else log) =
      { log with
        text := ⟨log.text.cells.overlay ofs src, log.text.fault⟩
        length := log.length + src.length } := by
  have hle := hwf.length_le
  have hsize : logSize = 7872 := rfl
  split
  · have hlen : (log.length + src.length) % 2 ^ 16 = log.length + src.length :=
      Nat.mod_eq_of_lt (by omega)
    rw [Log.put, hlen, Block.store_of_le (by rw [hwf.size_text]; exact hofs)]
  · have hnil : src = [] := List.eq_nil_of_length_eq_zero (by omega)
    rw [hnil, List.overlay_nil]
    rfl

theorem copy_wellFormed (ofs : Nat) (src : List UInt8) (hofs : ofs + src.length ≤ logSize)
    (length : Nat) (hlength : length ≤ logSize) (wrap : Bool) :
    Log.WellFormed { log with
      text := ⟨log.text.cells.overlay ofs src, log.text.fault⟩
      length := length
      wrap := wrap } := by
  have hcells := length_text hwf
  refine ⟨?_, hwf.no_fault, hlength⟩
  exact (List.length_overlay (by omega)).trans hcells

/-- The message fills the text up to its end, and goes on at the start. -/
theorem logWrite_eq {msg m : List UInt8} (hmsg : msg.rtake logSize = m) :
    (logWrite log msg).1 =
      if log.length + m.length < logSize then
        { log with
          text := ⟨log.text.cells.overlay log.length m, log.text.fault⟩
          length := log.length + m.length }
      else
        { log with
          text := ⟨(log.text.cells.overlay log.length (m.take (logSize - log.length))).overlay 0
            (m.drop (logSize - log.length)), log.text.fault⟩
          length := log.length + m.length - logSize
          wrap := true } := by
  have hle := hwf.length_le
  have hsize : logSize = 7872 := rfl
  have hm : m.length ≤ logSize := by
    rw [← hmsg, List.length_rtake]
    omega
  have hclip := (logWrite_clip msg).trans hmsg
  have hroom : usub logSize log.length = logSize - log.length := usub_of_le hle (by omega)
  simp only [logWrite, hclip, hroom]
  generalize hnum : min (logSize - log.length) m.length = num
  have htake : (m.take num).length = num := by
    rw [List.length_take]
    omega
  have hdrop : (m.drop num).length = m.length - num := List.length_drop
  have hfirst := copy_eq hwf log.length (m.take num) (by omega)
  have hwf' := copy_wellFormed hwf log.length (m.take num) (by omega) (log.length + num) (by omega)
    log.wrap
  have hsecond := copy_eq hwf' 0 (m.drop num) (by omega)
  rw [htake] at hfirst
  rw [hfirst, hsecond]
  simp only
  have htotal : log.length + num + (m.drop num).length = log.length + m.length := by omega
  rw [htotal]
  cases Nat.lt_or_ge (log.length + m.length) logSize with
  | inl hfit =>
    have hall : num = m.length := by omega
    rw [if_neg (Nat.not_le.mpr hfit), if_pos hfit, hall, List.take_length, List.drop_length,
      List.overlay_nil]
  | inr hover =>
    have hpart : num = logSize - log.length := by omega
    rw [if_pos (show log.length + m.length ≥ logSize from hover), if_neg (Nat.not_lt.mpr hover),
      hpart]

theorem logWrite_wellFormed (msg : List UInt8) : (logWrite log msg).1.WellFormed := by
  have hle := hwf.length_le
  have hm := List.length_rtake msg logSize
  rw [logWrite_eq hwf rfl]
  split
  · rename_i hfit
    exact copy_wellFormed hwf _ _ (by omega) _ (by omega) _
  · have hfirst := copy_wellFormed hwf log.length ((msg.rtake logSize).take (logSize - log.length))
      (by rw [List.length_take]; omega) logSize (Nat.le_refl _) log.wrap
    exact copy_wellFormed hfirst 0 _ (by rw [List.length_drop]; omega) _ (by omega) true

theorem contents_rtake {n : Nat} (hn : n ≤ log.length) :
    log.contents.rtake n = (log.text.cells.take log.length).rtake n := by
  have hcells := length_text hwf
  have hle := hwf.length_le
  rw [Log.contents]
  split
  · rw [List.rotate_eq_drop_append_take (by omega),
      List.rtake_append_of_ge (by rw [List.length_take]; omega)]
  · rfl

theorem contents_of_fit {m : List UInt8} (hfit : log.length + m.length < logSize) :
    Log.contents { log with
      text := ⟨log.text.cells.overlay log.length m, log.text.fault⟩
      length := log.length + m.length } = (log.contents ++ m).rtake logSize := by
  have hcells := length_text hwf
  have htake : (log.text.cells.overlay log.length m).take (log.length + m.length) =
      log.text.cells.take log.length ++ m := List.take_overlay (by omega)
  simp only [Log.contents]
  cases hwrap : log.wrap with
  | false =>
    simp only [Bool.false_eq_true, if_false]
    rw [htake, List.rtake_of_length_le (by rw [List.length_append, List.length_take]; omega)]
  | true =>
    have hlen : (log.text.cells.overlay log.length m).length = logSize := by
      rw [List.length_overlay (by omega), hcells]
    simp only [if_true]
    rw [List.rotate_eq_drop_append_take (by omega), List.rotate_eq_drop_append_take (by omega),
      htake, List.drop_overlay (by omega), List.rtake_append_of_le (by omega),
      List.rtake_append_of_le (by rw [List.length_take]; omega), List.rtake, List.drop_drop,
      List.length_drop, List.length_take, ← List.append_assoc]
    congr 4
    omega

/-- After the wrap the start of the text is what was written last. -/
theorem contents_of_wrap {m : List UInt8} (hm : m.length ≤ logSize)
    (hover : logSize ≤ log.length + m.length) :
    Log.contents { log with
      text := ⟨(log.text.cells.overlay log.length (m.take (logSize - log.length))).overlay 0
        (m.drop (logSize - log.length)), log.text.fault⟩
      length := log.length + m.length - logSize
      wrap := true } = (log.contents ++ m).rtake logSize := by
  have hle := hwf.length_le
  have hcells := length_text hwf
  have hfirst : log.text.cells.overlay log.length (m.take (logSize - log.length)) =
      log.text.cells.take log.length ++ m.take (logSize - log.length) := by
    rw [List.overlay, List.drop_of_length_le (by rw [List.length_take]; omega), List.append_nil]
  have hsecond : (m.drop (logSize - log.length)).length = log.length + m.length - logSize := by
    rw [List.length_drop]
    omega
  have hold : (log.text.cells.take log.length).length = log.length := by
    rw [List.length_take]
    omega
  have hlen : (log.text.cells.take log.length ++ m.take (logSize - log.length)).length =
      logSize := by
    rw [List.length_append, hold, List.length_take]
    omega
  rw [List.rtake_append_of_le (by omega), contents_rtake hwf (by omega), hfirst]
  rw [Log.contents]
  simp only [if_true]
  generalize hrest : m.drop (logSize - log.length) = rest at *
  have hoverlay : ((log.text.cells.take log.length ++
      m.take (logSize - log.length)).overlay 0 rest).length = logSize := by
    rw [List.length_overlay (by omega), hlen]
  rw [← hsecond, List.rotate_eq_drop_append_take (by omega), List.drop_overlay_zero,
    List.take_overlay_zero, List.drop_append_of_le_length (by omega), List.append_assoc, ← hrest,
    List.take_append_drop, List.rtake, hold]
  congr 2
  rw [hrest, hsecond]
  omega

theorem logWrite_contents (msg : List UInt8) :
    (logWrite log msg).1.contents = (log.contents ++ msg).rtake logSize := by
  have hm : (msg.rtake logSize).length ≤ logSize := by
    rw [List.length_rtake]
    omega
  rw [← List.rtake_append_right log.contents msg, logWrite_eq hwf rfl]
  split
  · rename_i hfit
    exact contents_of_fit hwf hfit
  · rename_i hover
    exact contents_of_wrap hwf hm (Nat.not_lt.mp hover)

end

/-! ## Reading the log -/

theorem rotate_step {cells : List UInt8} {num : Nat} (hcells : cells.length = logSize)
    (hnum : num ≤ logSize) :
    ((Block.ofCells cells).copyUp 0 num (logSize - num)).store (logSize - num) (cells.take num) =
      Block.ofCells (cells.rotate num) := by
  have hsize : (Block.ofCells cells).size = logSize := hcells
  have hhead : (cells.take num).length = num := by
    rw [List.length_take]
    omega
  have hslice : (Block.ofCells cells).slice num (logSize - num) = cells.drop num :=
    List.take_of_length_le (by simp only [Block.ofCells, List.length_drop]; omega)
  have htail : (cells.drop num).length = logSize - num := by
    rw [List.length_drop, hcells]
  rw [Block.copyUp_of_le (Nat.zero_le num) (by omega), Block.move_of_le (by omega) (by omega),
    hslice, List.rotate_eq_drop_append_take (by omega)]
  have hmoved : (cells.overlay 0 (cells.drop num)).length = logSize := by
    rw [List.length_overlay (by omega), hcells]
  have htake := List.take_overlay_zero cells (cells.drop num)
  rw [htail] at htake
  have hblock : (⟨cells.overlay 0 (cells.drop num), false⟩ : Block UInt8).size = logSize := hmoved
  rw [Block.store_of_le (by rw [Block.ofCells, hblock]; omega)]
  simp only [Block.ofCells, Block.mk.injEq, and_true]
  have hend : (cells.overlay 0 (cells.drop num)).drop (logSize - num + (cells.take num).length) =
      [] := List.drop_of_length_le (by omega)
  rw [List.overlay, htake, hend, List.append_nil]

/-- A turn of the loop moves a block of the text behind the rest. -/
theorem logRotate_succ {log : Log} {tmp : Block UInt8} (hwf : log.WellFormed)
    (hsize : tmp.size = mempoolBlockSize) (hfault : tmp.fault = false) (hpos : 0 < log.length) :
    ∃ num tmp', 0 < num ∧ num ≤ log.length ∧ tmp'.size = mempoolBlockSize ∧ tmp'.fault = false ∧
      ∀ fuel, logRotate (fuel + 1) log tmp = logRotate fuel
        { log with text := Block.ofCells (log.text.cells.rotate num), length := log.length - num }
        tmp' := by
  have hcells : log.text.cells.length = logSize := hwf.size_text
  have hle := hwf.length_le
  have hblock : mempoolBlockSize = 2048 := rfl
  have hlog : logSize = 7872 := rfl
  generalize hnum : min log.length mempoolBlockSize = num
  have hrem : usub logSize num = logSize - num := usub_of_le (by omega) (by omega)
  have hhead : (log.text.cells.take num).length = num := by
    rw [List.length_take]
    omega
  have hload : log.text.load 0 num = (log.text, log.text.cells.take num) :=
    Block.load_of_le (by rw [Block.size, hcells]; omega)
  have hfits : 0 + (log.text.cells.take num).length ≤ tmp.size := by
    rw [hsize, hhead]
    omega
  have hscratch := Block.load_store hfits
  rw [hhead] at hscratch
  have htext : log.text = Block.ofCells log.text.cells := by
    rw [Block.ofCells, ← hwf.no_fault]
  have hstep := rotate_step hcells (show num ≤ logSize by omega)
  rw [← htext] at hstep
  refine ⟨num, tmp.store 0 (log.text.cells.take num), by omega, by omega,
    (Block.size_store tmp 0 _).trans hsize, (Block.fault_store hfits).trans hfault, fun fuel => ?_⟩
  rw [logRotate, if_pos hpos]
  simp only [hnum, hload, hscratch, hrem, hstep]

/-- The rotation stops with `length` at zero and the oldest byte in front. -/
theorem logRotate_eq {fuel : Nat} {log : Log} {tmp : Block UInt8} (hwf : log.WellFormed)
    (hsize : tmp.size = mempoolBlockSize) (hfault : tmp.fault = false)
    (hfuel : log.length ≤ fuel) :
    (logRotate fuel log tmp).1 =
        { log with text := Block.ofCells (log.text.cells.rotate log.length), length := 0 } ∧
      (logRotate fuel log tmp).2.size = mempoolBlockSize ∧
      (logRotate fuel log tmp).2.fault = false := by
  have hstopped {log : Log} (hwf : log.WellFormed) (hzero : log.length = 0) :
      log = { log with text := Block.ofCells (log.text.cells.rotate log.length), length := 0 } := by
    obtain ⟨enabled, direct, wrap, length, ⟨cells, fault⟩⟩ := log
    obtain rfl : fault = false := hwf.no_fault
    obtain rfl : length = 0 := hzero
    simp [Block.ofCells]
  induction fuel generalizing log tmp with
  | zero => exact ⟨hstopped hwf (Nat.le_zero.mp hfuel), hsize, hfault⟩
  | succ fuel ih =>
    cases Nat.eq_zero_or_pos log.length with
    | inl hzero =>
      rw [logRotate, if_neg (Nat.not_lt.mpr (Nat.le_zero.mpr hzero))]
      exact ⟨hstopped hwf hzero, hsize, hfault⟩
    | inr hpos =>
      obtain ⟨num, tmp', hnum, hle, hsize', hfault', hstep⟩ := logRotate_succ hwf hsize hfault hpos
      have hcells : log.text.cells.length = logSize := hwf.size_text
      have hshort := hwf.length_le
      have hrotated : Log.WellFormed
          { log with text := Block.ofCells (log.text.cells.rotate num),
                     length := log.length - num } :=
        ⟨(List.length_rotate log.text.cells num).trans hcells, rfl, by simp only; omega⟩
      obtain ⟨hrun, hsizes⟩ := ih hrotated hsize' hfault' (by simp only; omega)
      rw [hstep, hrun]
      refine ⟨?_, hsizes⟩
      simp only [Block.ofCells, List.rotate_rotate]
      rw [Nat.add_sub_cancel' hle]

theorem logStr_eq {log : Log} (hwf : log.WellFormed) (tmp : Memblock) :
    (logStr log tmp).str = log.contents ∧ (logStr log tmp).log.contents = log.contents ∧
      (logStr log tmp).log.WellFormed ∧ (logStr log tmp).tmp.fault = false := by
  have hcells := length_text hwf
  have hle := hwf.length_le
  simp only [logStr, Log.contents]
  cases hwrap : log.wrap with
  | false =>
    have hload : log.text.load 0 log.length = (log.text, log.text.cells.take log.length) :=
      Block.load_of_le (by rw [Nat.zero_add, hwf.size_text]; exact hle)
    simp only [Bool.false_eq_true, if_false, hload, hwrap]
    exact ⟨trivial, trivial, ⟨hwf.size_text, hwf.no_fault, hwf.length_le⟩, tmp.no_fault⟩
  | true =>
    obtain ⟨hrun, hsize, hfault⟩ :=
      logRotate_eq hwf tmp.size_data tmp.no_fault (Nat.le_refl log.length)
    have hrotated : (log.text.cells.rotate log.length).length = logSize := by
      rw [List.length_rotate, hcells]
    have hload : (Block.ofCells (log.text.cells.rotate log.length)).load 0 logSize =
        (Block.ofCells (log.text.cells.rotate log.length), log.text.cells.rotate log.length) := by
      rw [Block.load_of_le (by rw [Nat.zero_add]; exact Nat.le_of_eq hrotated.symm), Block.slice]
      simp only [Block.ofCells, List.drop_zero]
      rw [← hrotated, List.take_length]
    simp only [if_true, hrun, hload, Bool.false_eq_true, if_false]
    refine ⟨trivial, ?_, ⟨hrotated, rfl, Nat.le_refl _⟩, hfault⟩
    simp only [Block.ofCells]
    rw [← hrotated, List.take_length]

/-! ## Runs -/

inductive LogOp where
  | write (msg : List UInt8)
  | str (tmp : Memblock)
  | clear

def logStep (log : Log) : LogOp → Log × Option (List UInt8)
  | .write msg => ((logWrite log msg).1, none)
  | .str tmp => ((logStr log tmp).log, some (logStr log tmp).str)
  | .clear => (logClear log, none)

/-- A log as it is meant: all that was written since the last clear. -/
def historyStep (history : List UInt8) : LogOp → List UInt8 × Option (List UInt8)
  | .write msg => (history ++ msg, none)
  | .str _ => (history, some (history.rtake logSize))
  | .clear => ([], none)

def LogOp.isStr : LogOp → Bool
  | str _ => true
  | _ => false

structure Holds (log : Log) (history : List UInt8) : Prop where
  wellFormed : log.WellFormed
  contents : log.contents = history.rtake logSize

theorem holds_step {log : Log} {history : List UInt8} (h : Holds log history) (op : LogOp) :
    Holds (logStep log op).1 (historyStep history op).1 ∧
      (logStep log op).2 = (historyStep history op).2 := by
  cases op with
  | write msg =>
    refine ⟨⟨logWrite_wellFormed h.wellFormed msg, ?_⟩, rfl⟩
    simp only [logStep, historyStep]
    rw [logWrite_contents h.wellFormed, h.contents, List.rtake_append_left]
  | str tmp =>
    obtain ⟨hstr, hcontents, hwf, _⟩ := logStr_eq h.wellFormed tmp
    exact ⟨⟨hwf, hcontents.trans h.contents⟩, congrArg some (hstr.trans h.contents)⟩
  | clear =>
    have hclear : (logClear log).contents = List.rtake [] logSize := by
      rw [List.rtake_nil, logClear_contents]
    exact ⟨⟨logClear_wellFormed h.wellFormed.size_text h.wellFormed.no_fault, hclear⟩, rfl⟩

theorem holds_init {log : Log} (hsize : log.text.size = logSize)
    (hfault : log.text.fault = false) : Holds (logInit log) [] :=
  ⟨logClear_wellFormed hsize hfault, by rw [List.rtake_nil]; exact logClear_contents _⟩

/-- The history of a run: the bytes written since the last clear. -/
def written (ops : List LogOp) : List UInt8 := Transducer.run historyStep [] ops

theorem run_history_filter (history : List UInt8) (ops : List LogOp) :
    Transducer.run historyStep history (ops.filter fun op => !op.isStr) =
      Transducer.run historyStep history ops := by
  induction ops generalizing history with
  | nil => rfl
  | cons op ops ih =>
    cases op with
    | write msg => exact ih (history ++ msg)
    | str tmp => exact ih history
    | clear => exact ih []

/-- Whatever was done since `log_init`, `log_str` returns the last `logSize` bytes
written since the last clear, and what it returns does not depend on the calls
of `log_str` before. -/
theorem log_str_returns_last {log : Log} (hsize : log.text.size = logSize)
    (hfault : log.text.fault = false) (ops : List LogOp) (tmp : Memblock) :
    let logAfter := Transducer.run logStep (logInit log)
    (logStr (logAfter ops) tmp).str = (written ops).rtake 7872 ∧
      ((written ops).rtake 7872).length = min (written ops).length 7872 ∧
      (logStr (logAfter ops) tmp).str =
        (logStr (logAfter (ops.filter fun op => !op.isStr)) tmp).str := by
  intro logAfter
  have hreturns : ∀ ops, (logStr (logAfter ops) tmp).str = (written ops).rtake logSize := by
    intro ops
    have hholds := (Transducer.simulation (R := Holds) (fun _ _ op h => holds_step h op)
      (holds_init hsize hfault) ops).1
    exact (logStr_eq hholds.wellFormed tmp).1.trans hholds.contents
  refine ⟨hreturns ops, ?_, ?_⟩
  · rw [List.length_rtake, Nat.min_comm]
  · rw [hreturns, hreturns, written, written, run_history_filter]

def Memblock.zeros : Memblock :=
  ⟨Block.ofCells (List.replicate mempoolBlockSize 0), List.length_replicate, rfl⟩

theorem log_str_returns_last_small :
    let log : Log := ⟨[], true, true, 5, Block.ofCells (List.replicate 7872 0)⟩
    (logStr (Transducer.run logStep (logInit log) [.write [1, 2], .clear, .write [3]])
      .zeros).str = [3] := by
  intro log
  have hsize : log.text.size = logSize := List.length_replicate
  exact (log_str_returns_last hsize rfl [.write [1, 2], .clear, .write [3]] .zeros).1

end Wifimodem
