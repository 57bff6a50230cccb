import Wifimodem.Util.Buffer
import Wifimodem.Lib.Transducer

/-!
# The buffer as a stream with a re-readable front

What the buffer is for: it holds the bytes accepted since the last clear, less
a prefix that was given up, and a read position among them. Every sequence of
buffer operations refines this model.
-/

namespace Wifimodem

inductive BufferOp where
  | write (src : List UInt8)
  | putc (c : UInt8)
  | puts (s : List UInt8)
  | putsz (s : List UInt8)
  | read (len : Nat)
  | getc
  | unread (len : Nat)
  | rewind
  | clear
  | retract (count : Nat)
  | prepare (len : Nat)

inductive BufferResult where
  | void
  | count (n : Nat)
  | bytes (data : List UInt8)
  | char (c : Int)
deriving DecidableEq

def bufferStep (buf : Buffer) : BufferOp → Buffer × BufferResult
  | .write src => let (buf, n) := bufferWrite buf src; (buf, .count n)
  | .putc c => let (buf, n) := bufferPutc buf c; (buf, .count n)
  | .puts s => let (buf, n) := bufferPuts buf s; (buf, .count n)
  | .putsz s => let (buf, n) := bufferPutsz buf s; (buf, .count n)
  | .read len => let (buf, data) := bufferRead buf len; (buf, .bytes data)
  | .getc => let (buf, c) := bufferGetc buf; (buf, .char c)
  | .unread len => (bufferUnread buf len, .void)
  | .rewind => (bufferRewind buf, .void)
  | .clear => (bufferClear buf, .void)
  | .retract count => let (buf, n) := bufferRetract buf count; (buf, .count n)
  | .prepare len => (bufferPrepare buf len, .void)

/-- The bytes `accepted` since the last clear, of which the first `removed` are
gone, and the position of the next read among those left. -/
structure Stream where
  cap : Nat
  accepted : List UInt8
  removed : Nat
  pos : Nat

namespace Stream

def init (cap : Nat) : Stream := ⟨cap, [], 0, 0⟩

def live (s : Stream) : List UInt8 := s.accepted.drop s.removed

def room (s : Stream) : Nat := s.cap - s.live.length

def write (s : Stream) (src : List UInt8) : Stream × BufferResult :=
  ({ s with accepted := s.accepted ++ src.take s.room }, .count (min src.length s.room))

def read (s : Stream) (len : Nat) : Stream × List UInt8 :=
  let data := (s.live.drop s.pos).take len
  ({ s with pos := s.pos + data.length }, data)

def retract (s : Stream) (count : Nat) : Stream :=
  let k := min count s.live.length
  { s with removed := s.removed + k, pos := s.pos - k }

-- what a prepare gives up, as the `int` difference computes it
def shortfall (s : Stream) (len : Nat) : Nat := (asInt (usub len s.room)).toNat

def step (s : Stream) : BufferOp → Stream × BufferResult
  | .write src => s.write src
  | .putc c => s.write [c]
  | .puts t => s.write (cstr t)
  | .putsz t => s.write (cstr t ++ [0])
  | .read len => let (s, data) := s.read len; (s, .bytes data)
  | .getc => let (s, data) := s.read 1; (s, .char (data.head?.elim (-1) (fun c => (c.toNat : Int))))
  | .unread len => ({ s with pos := s.pos - len }, .void)
  | .rewind => ({ s with pos := 0 }, .void)
  | .clear => ({ s with accepted := [], removed := 0, pos := 0 }, .void)
  | .retract count => (s.retract count, .count (min count s.live.length))
  | .prepare len => (s.retract (s.shortfall len), .void)

theorem cap_step (s : Stream) (op : BufferOp) : (s.step op).1.cap = s.cap := by
  cases op <;> rfl

end Stream

structure Represents (buf : Buffer) (s : Stream) : Prop where
  wellFormed : buf.WellFormed
  cap_eq : buf.cap = s.cap
  removed_le : s.removed ≤ s.accepted.length
  contents_eq : buf.contents = s.live
  pos_eq : buf.pos = s.pos

namespace Represents

variable {buf : Buffer} {s : Stream}

theorem init {storage : List UInt8} (hcap : storage.length < 2 ^ 32) :
    Represents (bufferInit (Block.ofCells storage) storage.length) (Stream.init storage.length) where
  wellFormed := @bufferInit_wellFormed (Block.ofCells storage) hcap rfl
  cap_eq := rfl
  removed_le := Nat.le_refl 0
  contents_eq := rfl
  pos_eq := rfl

theorem len_eq (h : Represents buf s) : buf.len = s.live.length := by
  rw [← h.contents_eq, h.wellFormed.length_contents]

theorem room_eq (h : Represents buf s) : buf.cap - buf.len = s.room := by
  rw [Stream.room, h.cap_eq, h.len_eq]

theorem write (h : Represents buf s) (src : List UInt8) :
    Represents (bufferWrite buf src).1 (s.write src).1 ∧
      BufferResult.count (bufferWrite buf src).2 = (s.write src).2 := by
  have hcount : buf.accepts src = min src.length s.room := by
    rw [Buffer.accepts, h.room_eq]
  have hlive : (s.write src).1.live = s.live ++ src.take s.room :=
    List.drop_append_of_le_length h.removed_le
  constructor
  · refine ⟨bufferWrite_wellFormed h.wellFormed src, ?_, ?_, ?_, ?_⟩
    · rw [bufferWrite_eq h.wellFormed]
      exact h.cap_eq
    · apply Nat.le_trans h.removed_le
      simp [Stream.write]
    · rw [bufferWrite_contents h.wellFormed, hlive, h.contents_eq, hcount, Nat.min_comm,
        ← List.take_eq_take_min]
    · rw [bufferWrite_eq h.wellFormed]
      exact h.pos_eq
  · rw [bufferWrite_eq h.wellFormed, hcount]
    rfl

theorem read (h : Represents buf s) (len : Nat) :
    Represents (bufferRead buf len).1 (s.read len).1 ∧ (bufferRead buf len).2 = (s.read len).2 := by
  have hunread : buf.unread = s.live.drop s.pos := by
    rw [Buffer.unread, h.contents_eq, h.pos_eq]
  have hcount : min len (buf.len - buf.pos) = ((s.live.drop s.pos).take len).length := by
    rw [List.length_take, List.length_drop, h.len_eq, h.pos_eq]
  constructor
  · refine ⟨bufferRead_wellFormed h.wellFormed len, ?_, h.removed_le, ?_, ?_⟩
    · rw [bufferRead_eq h.wellFormed]
      exact h.cap_eq
    · rw [bufferRead_eq h.wellFormed]
      exact h.contents_eq
    · rw [bufferRead_eq h.wellFormed]
      simp only [hcount, Stream.read]
      rw [h.pos_eq]
  · rw [bufferRead_eq h.wellFormed, hunread]
    rfl

theorem getc (h : Represents buf s) :
    Represents (bufferGetc buf).1 (s.read 1).1 ∧
      (bufferGetc buf).2 = (s.read 1).2.head?.elim (-1) (fun c => (c.toNat : Int)) := by
  obtain ⟨hrep, hdata⟩ := h.read 1
  rw [← hdata]
  rw [bufferGetc]
  split
  · rename_i buf' c cs heq
    rw [heq] at hrep ⊢
    exact ⟨hrep, rfl⟩
  · rename_i buf' heq
    rw [heq] at hrep ⊢
    exact ⟨hrep, rfl⟩

theorem unread (h : Represents buf s) (len : Nat) :
    Represents (bufferUnread buf len) { s with pos := s.pos - len } := by
  have hpos := h.wellFormed.pos_le
  have hlen := h.wellFormed.len_le
  have hcap := h.wellFormed.cap_lt
  have hnew : usub buf.pos (min len buf.rtell) = buf.pos - len := by
    rw [Buffer.rtell, usub_of_le (by omega) (by omega)]
    omega
  refine ⟨{ h.wellFormed with pos_le := ?_ }, h.cap_eq, h.removed_le, h.contents_eq, ?_⟩
  · simp only [bufferUnread, hnew]
    omega
  · simp only [bufferUnread, hnew]
    rw [h.pos_eq]

theorem rewind (h : Represents buf s) :
    Represents (bufferRewind buf) { s with pos := 0 } :=
  ⟨{ h.wellFormed with pos_le := Nat.zero_le _ }, h.cap_eq, h.removed_le, h.contents_eq, rfl⟩

theorem clear (h : Represents buf s) :
    Represents (bufferClear buf) { s with accepted := [], removed := 0, pos := 0 } :=
  ⟨{ h.wellFormed with pos_le := Nat.le_refl _, len_le := Nat.zero_le _ }, h.cap_eq,
    Nat.le_refl _, rfl, rfl⟩

theorem retract (h : Represents buf s) (count : Nat) :
    Represents (bufferRetract buf count).1 (s.retract count) ∧
      (bufferRetract buf count).2 = min count s.live.length := by
  have hk : min count buf.len = min count s.live.length := by rw [h.len_eq]
  have hlive : s.live.length = s.accepted.length - s.removed := List.length_drop
  constructor
  · refine ⟨bufferRetract_wellFormed h.wellFormed count, ?_, ?_, ?_, ?_⟩
    · rw [bufferRetract_eq h.wellFormed]
      exact h.cap_eq
    · have := h.removed_le
      simp only [Stream.retract]
      omega
    · -- dropping more than there is drops all there is
      rw [bufferRetract_contents h.wellFormed, h.contents_eq]
      simp only [Stream.live, Stream.retract, List.drop_drop]
      rw [← List.drop_drop, ← List.drop_drop (i := min _ _)]
      exact List.drop_eq_drop_min
    · rw [bufferRetract_eq h.wellFormed]
      simp only [Stream.retract, hk, h.pos_eq]
  · rw [bufferRetract_eq h.wellFormed]
    exact hk

theorem prepare (h : Represents buf s) (len : Nat) :
    Represents (bufferPrepare buf len) (s.retract (s.shortfall len)) := by
  have hfree : buf.free = s.room := h.wellFormed.free_eq.trans h.room_eq
  simp only [bufferPrepare, hfree]
  split
  · exact (h.retract _).1
  · -- a difference that is not positive retracts nothing
    have hzero : s.shortfall len = 0 := Int.toNat_of_nonpos (by omega)
    rw [hzero]
    simpa [Stream.retract] using h

theorem step (h : Represents buf s) (op : BufferOp) :
    Represents (bufferStep buf op).1 (s.step op).1 ∧ (bufferStep buf op).2 = (s.step op).2 := by
  cases op with
  | write src => exact h.write src
  | putc c => exact h.write [c]
  | puts t => exact h.write (cstr t)
  | putsz t => exact h.write (cstr t ++ [0])
  | read len => exact ⟨(h.read len).1, congrArg BufferResult.bytes (h.read len).2⟩
  | getc => exact ⟨h.getc.1, congrArg BufferResult.char h.getc.2⟩
  | unread len => exact ⟨h.unread len, rfl⟩
  | rewind => exact ⟨h.rewind, rfl⟩
  | clear => exact ⟨h.clear, rfl⟩
  | retract count => exact ⟨(h.retract count).1, congrArg BufferResult.count (h.retract count).2⟩
  | prepare len => exact ⟨h.prepare len, rfl⟩

theorem run (h : Represents buf s) (ops : List BufferOp) :
    Represents (Transducer.run bufferStep buf ops) (Transducer.run Stream.step s ops) ∧
      Transducer.outputs bufferStep buf ops = Transducer.outputs Stream.step s ops :=
  Transducer.simulation (fun _ _ op h => h.step op) h ops

end Represents

theorem buffer_refines_stream (storage : List UInt8) (hcap : storage.length < 2 ^ 32)
    (ops : List BufferOp) :
    let buf := Transducer.run bufferStep (bufferInit (Block.ofCells storage) storage.length) ops
    let s := Transducer.run Stream.step (Stream.init storage.length) ops
    (buf.pos ≤ buf.len ∧ buf.len ≤ buf.cap ∧ buf.cap = storage.length) ∧
    buf.ptr.fault = false ∧
    buf.contents = s.accepted.drop s.removed ∧
    Transducer.outputs bufferStep (bufferInit (Block.ofCells storage) storage.length) ops =
      Transducer.outputs Stream.step (Stream.init storage.length) ops ∧
    (∀ len, (bufferRead buf len).2 = (buf.contents.drop buf.pos).take len) ∧
    (∀ count, (bufferRetract buf count).2 ≤ buf.pos →
      (bufferRetract buf count).1.unread = buf.unread) ∧
    (∀ len, buf.len - (bufferPrepare buf len).len ≤ buf.pos →
      (bufferPrepare buf len).unread = buf.unread) ∧
    ∀ len, len ≤ buf.cap → buf.cap < 2 ^ 31 → len ≤ (bufferPrepare buf len).free := by
  intro buf s
  obtain ⟨hrep, houts⟩ := (Represents.init hcap).run ops
  have hwf := hrep.wellFormed
  have hscap : s.cap = storage.length :=
    Transducer.run_invariant (fun s => s.cap = storage.length)
      (fun s op h => (Stream.cap_step s op).trans h) rfl ops
  refine ⟨⟨hwf.pos_le, hwf.len_le, hrep.cap_eq.trans hscap⟩, hwf.no_fault, hrep.contents_eq, houts,
    ?_, ?_, ?_, ?_⟩
  · intro len
    rw [bufferRead_eq hwf]
    rfl
  · intro count hread
    exact bufferRetract_unread hwf hread
  · intro len hread
    exact bufferPrepare_unread hwf hread
  · intro len hlen hsmall
    exact bufferPrepare_free hwf hlen hsmall

theorem buffer_refines_stream_small :
    [(0 : UInt8), 0].length < 2 ^ 32 ∧
      (Transducer.run bufferStep (bufferInit (Block.ofCells [0, 0]) 2)
        [.write [7, 8, 9], .read 1, .prepare 1]).contents = [8] := by
  constructor
  · decide
  · have h := buffer_refines_stream [0, 0] (by decide) [.write [7, 8, 9], .read 1, .prepare 1]
    exact h.2.2.1

end Wifimodem
