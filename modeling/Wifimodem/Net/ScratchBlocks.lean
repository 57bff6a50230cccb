import Wifimodem.Core.LoggerFormat
import Wifimodem.Net.Netaddr
import Wifimodem.Phy.Terminal

/-!
# The users of a scratch block

A block is locked with whatever it was left with. The block behind it belongs to someone
else, so each user has to stay inside the 2048 bytes of its own.
-/

namespace Wifimodem

def terminalPuts (t : Terminal) (buf : Block UInt8) : Block UInt8 × List UInt8 :=
  let (buf, text) := buf.loadUntil (· = 0)
  (buf, terminalWrite t text)

/-- Formatting may change the bytes that it is given the size of, and no others. -/
def printBlock (buf : Block UInt8) (size : Nat) (msg : Formatted) : Block UInt8 :=
  buf.store 0 ((List.range size).map (vsnprintf size (fun i => buf.cells.getD i 0) msg).2)

def terminalPrintfv (t : Terminal) (buf : Block UInt8) (msg : Formatted) :
    Block UInt8 × List UInt8 :=
  terminalPuts t (printBlock buf (mempoolBlockSize - 1) msg)

inductive ScratchUser where
  | netaddrResolve (getaddrinfo : List UInt8 → Resolution) (host : List UInt8) (port : Nat)
  | logStr (log : Log)
  | terminalPrintfv (t : Terminal) (msg : Formatted)

namespace ScratchUser

/-- The block when its user is done with it. -/
def block (tmp : Memblock) : ScratchUser → Block UInt8
  | .netaddrResolve getaddrinfo host port =>
    (Wifimodem.netaddrResolve tmp.data getaddrinfo host port).2.2
  | .logStr log => (Wifimodem.logStr log tmp).tmp
  | .terminalPrintfv t msg => (Wifimodem.terminalPrintfv t tmp.data msg).1

def StaysInside (tmp : Memblock) (user : ScratchUser) : Prop := (user.block tmp).fault = false

/-- The name leaves room for its zero. If formatting fails, a zero is left for the
terminal to stop at. -/
def Fits (tmp : Memblock) : ScratchUser → Prop
  | .netaddrResolve _ host _ => host.length < mempoolBlockSize
  | .logStr _ => True
  | .terminalPrintfv _ (.text _ _) => True
  | .terminalPrintfv _ (.failed _ _ left) =>
    (∃ i < mempoolBlockSize - 1, left i = 0) ∨ tmp.data.cells.getD (mempoolBlockSize - 1) 0 = 0

end ScratchUser

variable {log : Log} {tmp : Block UInt8}

/-! ## The rotation of the log -/

/-- A step copies the head of the text, which is no longer than the block, into the block
and back. -/
theorem rotate_block (htmp : tmp.size = mempoolBlockSize) (hfault : tmp.fault = false)
    (text : Block UInt8) (n : Nat) :
    ((tmp.store 0 (text.load 0 (min n mempoolBlockSize)).2).load 0
        (min n mempoolBlockSize)).1.size = mempoolBlockSize ∧
      ((tmp.store 0 (text.load 0 (min n mempoolBlockSize)).2).load 0
        (min n mempoolBlockSize)).1.fault = false := by
  have hnum : min n mempoolBlockSize ≤ mempoolBlockSize := Nat.min_le_right _ _
  generalize min n mempoolBlockSize = num at hnum ⊢
  have hhead : 0 + (text.load 0 num).2.length ≤ tmp.size := by
    have htake : (text.slice 0 num).length ≤ num := List.length_take_le _ _
    rw [Nat.zero_add, htmp]
    exact Nat.le_trans htake hnum
  have hsize : (tmp.store 0 (text.load 0 num).2).size = mempoolBlockSize :=
    (Block.size_store _ _ _).trans htmp
  rw [Block.load_of_le (by rw [hsize, Nat.zero_add]; exact hnum)]
  exact ⟨hsize, (Block.fault_store hhead).trans hfault⟩

/-- Whatever the log is, the rotation leaves the block whole. -/
theorem logRotate_block {fuel : Nat} : ∀ {log : Log} {tmp : Block UInt8},
    tmp.size = mempoolBlockSize → tmp.fault = false →
      (logRotate fuel log tmp).2.fault = false := by
  induction fuel with
  | zero =>
    intro log tmp _ hfault
    exact hfault
  | succ fuel ih =>
    intro log tmp htmp hfault
    obtain ⟨hsize, hinside⟩ := rotate_block htmp hfault log.text log.length
    rw [logRotate]
    split
    · exact ih hsize hinside
    · exact hfault

theorem logStr_block (log : Log) (tmp : Memblock) : (logStr log tmp).tmp.fault = false := by
  simp only [logStr]
  cases log.wrap with
  | false => exact tmp.no_fault
  | true => exact logRotate_block tmp.size_data tmp.no_fault

/-! ## Printing to the terminal -/

section
variable (htmp : tmp.size = mempoolBlockSize)

include htmp

/-- The last byte of the block is never written. -/
theorem printBlock_eq (msg : Formatted) :
    printBlock tmp (mempoolBlockSize - 1) msg =
      ⟨(List.range (mempoolBlockSize - 1)).map
          (vsnprintf (mempoolBlockSize - 1) (fun i => tmp.cells.getD i 0) msg).2 ++
        [tmp.cells.getD (mempoolBlockSize - 1) 0], tmp.fault⟩ := by
  have hblock : mempoolBlockSize = 2048 := rfl
  have hcells : tmp.cells.length = mempoolBlockSize := htmp
  have hlast : tmp.cells.drop (mempoolBlockSize - 1) =
      [tmp.cells.getD (mempoolBlockSize - 1) 0] := by
    have hlt : mempoolBlockSize - 1 < tmp.cells.length := by omega
    rw [List.drop_eq_getElem_cons hlt, List.drop_of_length_le (by omega),
      List.getD_eq_getElem?_getD, List.getElem?_eq_getElem hlt, Option.getD_some]
  rw [printBlock]
  generalize (vsnprintf (mempoolBlockSize - 1) (fun i => tmp.cells.getD i 0) msg).2 = temp
  have hlength : ((List.range (mempoolBlockSize - 1)).map temp).length = mempoolBlockSize - 1 := by
    rw [List.length_map, List.length_range]
  rw [Block.store_of_le (by rw [hlength, htmp]; omega), List.overlay, hlength, List.take_zero,
    List.nil_append, Nat.zero_add, hlast]

theorem terminalPrintfv_block (t : Terminal) (hfault : tmp.fault = false) (msg : Formatted) :
    (terminalPrintfv t tmp msg).1.fault = false ↔
      (∃ i < mempoolBlockSize - 1,
        (vsnprintf (mempoolBlockSize - 1) (fun i => tmp.cells.getD i 0) msg).2 i = 0) ∨
      tmp.cells.getD (mempoolBlockSize - 1) 0 = 0 := by
  have hputs : (terminalPrintfv t tmp msg).1 =
      ((printBlock tmp (mempoolBlockSize - 1) msg).loadUntil (· = 0)).1 := rfl
  rw [hputs, Block.fault_loadUntil, printBlock_eq htmp, and_iff_right hfault]
  simp only [decide_eq_true_eq, List.mem_append, List.mem_map, List.mem_range, List.mem_singleton]
  constructor
  · rintro ⟨c, ⟨i, hi, rfl⟩ | rfl, hc⟩
    · exact .inl ⟨i, hi, hc⟩
    · exact .inr hc
  · rintro (⟨i, hi, hc⟩ | hc)
    · exact ⟨_, .inl ⟨i, hi, rfl⟩, hc⟩
    · exact ⟨_, .inr rfl, hc⟩

end

/-- A text of any length is cut, and ends with a zero. -/
theorem vsnprintf_zero {size : Nat} (hsize : 0 < size) (temp : Nat → UInt8)
    {chars : List UInt8} (fits : chars.length < 2 ^ 31) :
    ∃ i < size, (vsnprintf size temp (.text chars fits)).2 i = 0 := by
  have hlength : (chars.take (size - 1)).length ≤ size - 1 := List.length_take_le _ _
  refine ⟨(chars.take (size - 1)).length, by omega, ?_⟩
  simp only [vsnprintf]
  rw [List.getD_eq_getElem?_getD, List.getElem?_append_right (Nat.le_refl _), Nat.sub_self]
  rfl

/-- Of the three users only one can leave its block: the resolver copies a name of any
length. -/
theorem staysInside_iff (tmp : Memblock) (user : ScratchUser) :
    user.StaysInside tmp ↔ user.Fits tmp := by
  rw [ScratchUser.StaysInside]
  cases user with
  | netaddrResolve getaddrinfo host port =>
    rw [ScratchUser.block, (netaddrResolve_eq tmp.data getaddrinfo host port).2.2,
      fault_resolveName tmp.no_fault host, tmp.size_data, ScratchUser.Fits]
  | logStr log => exact iff_of_true (logStr_block log tmp) trivial
  | terminalPrintfv t msg =>
    rw [ScratchUser.block, terminalPrintfv_block tmp.size_data t tmp.no_fault]
    cases msg with
    | text chars fits => exact iff_of_true (.inl (vsnprintf_zero (by decide) _ fits)) trivial
    | failed rc negative left =>
      rw [ScratchUser.Fits]
      refine or_congr_left (exists_congr fun i => and_congr_right fun hi => ?_)
      rw [vsnprintf]
      simp only [if_pos hi]

def longHost : ScratchUser :=
  .netaddrResolve (fun _ => .eaiFail) (List.replicate mempoolBlockSize 'a') 80

/-- The zero behind a name of 2048 characters is the first byte of the next block. -/
theorem long_host_leaves_block : ¬longHost.StaysInside Memblock.zeros := by
  rw [longHost, ScratchUser.StaysInside, ScratchUser.block, (netaddrResolve_eq _ _ _ _).2.2,
    fault_resolveName Memblock.zeros.no_fault, Memblock.zeros.size_data, List.length_replicate]
  exact Nat.lt_irrefl _

end Wifimodem
