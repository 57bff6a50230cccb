import Wifimodem.Core.Types
import Wifimodem.Lib.ByteBlock

/-!
# The byte buffer

A buffer is a block of storage with a read cursor and a write cursor, both
`uint`. The functions below are those of the buffer header and source; a
transfer returns the bytes it moved, whose number is the result in the source.
-/

namespace Wifimodem

structure Buffer where
  ptr : Block UInt8
  cap : Nat
  pos : Nat
  len : Nat
deriving DecidableEq, Repr

namespace Buffer

def rtell (buf : Buffer) : Nat := buf.pos
def wtell (buf : Buffer) : Nat := buf.len
def size (buf : Buffer) : Nat := usub buf.len buf.pos
def free (buf : Buffer) : Nat := usub buf.cap buf.len

end Buffer

open Buffer

def bufferInit (ptr : Block UInt8) (cap : Nat) : Buffer := ⟨ptr, cap, 0, 0⟩

def bufferClear (buf : Buffer) : Buffer := { buf with pos := 0, len := 0 }

def bufferRewind (buf : Buffer) : Buffer := { buf with pos := 0 }

def bufferUnread (buf : Buffer) (len : Nat) : Buffer :=
  { buf with pos := usub buf.pos (min len buf.rtell) }

def bufferRead (buf : Buffer) (len : Nat) : Buffer × List UInt8 :=
  if buf.size = 0 then (buf, [])
  else
    let len := if len > buf.size then buf.size else len
    let (ptr, data) := buf.ptr.load buf.pos len
    ({ buf with ptr := ptr, pos := (buf.pos + len) % 2 ^ 32 }, data)

/-- `src` holds the `len` bytes at the source pointer. -/
def bufferWrite (buf : Buffer) (src : List UInt8) : Buffer × Nat :=
  let len := if src.length ≥ buf.free then buf.free else src.length
  ({ buf with ptr := buf.ptr.store buf.len (src.take len), len := (buf.len + len) % 2 ^ 32 }, len)

def bufferGetc (buf : Buffer) : Buffer × Int :=
  match bufferRead buf 1 with
  | (buf, c :: _) => (buf, c.toNat)
  | (buf, []) => (buf, -1)

def bufferPutc (buf : Buffer) (c : UInt8) : Buffer × Nat := bufferWrite buf [c]

/-- The bytes of a C string before its terminator. -/
def cstr (s : List UInt8) : List UInt8 := s.takeWhile (· ≠ 0)

def bufferPuts (buf : Buffer) (s : List UInt8) : Buffer × Nat := bufferWrite buf (cstr s)

def bufferPutsz (buf : Buffer) (s : List UInt8) : Buffer × Nat := bufferWrite buf (cstr s ++ [0])

def bufferRetract (buf : Buffer) (count : Nat) : Buffer × Nat :=
  let count := if count > buf.len then buf.len else count
  ({ buf with
      ptr := buf.ptr.move 0 count (usub buf.cap count)
      len := usub buf.len count
      pos := if count < buf.pos then usub buf.pos count else 0 }, count)

def bufferPrepare (buf : Buffer) (len : Nat) : Buffer :=
  let num := asInt (usub len buf.free)
  if num > 0 then (bufferRetract buf num.toNat).1 else buf

/-! ## What the operations do to a well-formed buffer -/

/-- The cursors are in order and the storage is exactly the capacity. -/
structure Buffer.WellFormed (buf : Buffer) : Prop where
  pos_le : buf.pos ≤ buf.len
  len_le : buf.len ≤ buf.cap
  cap_lt : buf.cap < 2 ^ 32
  size_ptr : buf.ptr.size = buf.cap
  no_fault : buf.ptr.fault = false

def Buffer.contents (buf : Buffer) : List UInt8 := buf.ptr.cells.take buf.len

def Buffer.unread (buf : Buffer) : List UInt8 := buf.contents.drop buf.pos

namespace Buffer.WellFormed

variable {buf : Buffer} (hwf : buf.WellFormed)

include hwf

theorem length_cells : buf.ptr.cells.length = buf.cap := hwf.size_ptr

theorem size_eq : buf.size = buf.len - buf.pos :=
  usub_of_le hwf.pos_le (Nat.lt_of_le_of_lt hwf.len_le hwf.cap_lt)

theorem free_eq : buf.free = buf.cap - buf.len := usub_of_le hwf.len_le hwf.cap_lt

theorem length_contents : buf.contents.length = buf.len := by
  rw [contents, List.length_take, hwf.length_cells, Nat.min_eq_left hwf.len_le]

theorem length_tail {k : Nat} (hk : k ≤ buf.cap) :
    (buf.ptr.slice k (buf.cap - k)).length = buf.cap - k :=
  Block.length_slice (by rw [hwf.size_ptr]; omega)

omit hwf in
theorem slice_eq_unread_take {n : Nat} (hn : n ≤ buf.len - buf.pos) :
    buf.ptr.slice buf.pos n = buf.unread.take n := by
  rw [Block.slice, unread, contents, List.drop_take, List.take_take, Nat.min_eq_left hn]

end Buffer.WellFormed

theorem bufferInit_wellFormed {ptr : Block UInt8} (hcap : ptr.size < 2 ^ 32)
    (hfault : ptr.fault = false) : (bufferInit ptr ptr.size).WellFormed :=
  ⟨Nat.zero_le _, Nat.zero_le _, hcap, rfl, hfault⟩

theorem length_unread {buf : Buffer} (hwf : buf.WellFormed) :
    buf.unread.length = buf.len - buf.pos := by
  rw [Buffer.unread, List.length_drop, hwf.length_contents]

theorem bufferRead_eq {buf : Buffer} (hwf : buf.WellFormed) (n : Nat) :
    bufferRead buf n =
      ({ buf with pos := buf.pos + min n (buf.len - buf.pos) }, buf.unread.take n) := by
  have hpos := hwf.pos_le
  have hlen := hwf.len_le
  have hcap := hwf.cap_lt
  have hunread := length_unread hwf
  by_cases hempty : buf.size = 0
  · have hzero : buf.len - buf.pos = 0 := hwf.size_eq ▸ hempty
    have hnil : buf.unread = [] := List.eq_nil_of_length_eq_zero (hunread.trans hzero)
    rw [bufferRead, if_pos hempty, hzero, hnil, Nat.min_zero, List.take_nil, Nat.add_zero]
  · have hslice : buf.ptr.slice buf.pos (min n (buf.len - buf.pos)) = buf.unread.take n := by
      rw [Buffer.WellFormed.slice_eq_unread_take (Nat.min_le_right _ _), ← hunread,
        ← List.take_eq_take_min]
    have hwrap : (buf.pos + min n (buf.len - buf.pos)) % 2 ^ 32 =
        buf.pos + min n (buf.len - buf.pos) := Nat.mod_eq_of_lt (by omega)
    rw [bufferRead, if_neg hempty]
    simp only [hwf.size_eq, clip_gt, Block.load_of_le
      (show buf.pos + min n (buf.len - buf.pos) ≤ buf.ptr.size by rw [hwf.size_ptr]; omega),
      hslice, hwrap]

theorem bufferRead_wellFormed {buf : Buffer} (hwf : buf.WellFormed) (n : Nat) :
    (bufferRead buf n).1.WellFormed := by
  have hpos := hwf.pos_le
  rw [bufferRead_eq hwf]
  exact { hwf with pos_le := by simp only; omega }

def Buffer.accepts (buf : Buffer) (src : List UInt8) : Nat := min src.length (buf.cap - buf.len)

theorem bufferWrite_eq {buf : Buffer} (hwf : buf.WellFormed) (src : List UInt8) :
    bufferWrite buf src =
      ({ buf with
          ptr := { buf.ptr with
            cells := buf.ptr.cells.overlay buf.len (src.take (buf.accepts src)) }
          len := buf.len + buf.accepts src }, buf.accepts src) := by
  have hlen := hwf.len_le
  have hcap := hwf.cap_lt
  have hclip : (if src.length ≥ buf.cap - buf.len then buf.cap - buf.len else src.length) =
      buf.accepts src := clip_ge _ _
  have hfits : buf.len + buf.accepts src ≤ buf.cap := by
    rw [Buffer.accepts]
    omega
  have htake : (src.take (buf.accepts src)).length = buf.accepts src := by
    rw [List.length_take, Buffer.accepts]
    omega
  have hstore : buf.ptr.store buf.len (src.take (buf.accepts src)) =
      { buf.ptr with cells := buf.ptr.cells.overlay buf.len (src.take (buf.accepts src)) } :=
    Block.store_of_le (by rw [htake, hwf.size_ptr]; exact hfits)
  have hwrap : (buf.len + buf.accepts src) % 2 ^ 32 = buf.len + buf.accepts src :=
    Nat.mod_eq_of_lt (by omega)
  simp only [bufferWrite, hwf.free_eq, hclip, hstore, hwrap]

theorem bufferWrite_wellFormed {buf : Buffer} (hwf : buf.WellFormed) (src : List UInt8) :
    (bufferWrite buf src).1.WellFormed := by
  have hpos := hwf.pos_le
  have hlen := hwf.len_le
  have hsize := hwf.length_cells
  rw [bufferWrite_eq hwf]
  refine { hwf with pos_le := ?_, len_le := ?_, size_ptr := ?_ }
  · simp only
    omega
  · simp only [Buffer.accepts]
    omega
  · refine (List.length_overlay ?_).trans hwf.size_ptr
    rw [List.length_take, Buffer.accepts, hsize]
    omega

theorem bufferWrite_contents {buf : Buffer} (hwf : buf.WellFormed) (src : List UInt8) :
    (bufferWrite buf src).1.contents = buf.contents ++ src.take (buf.accepts src) := by
  have hlen := hwf.len_le
  have hsize := hwf.length_cells
  have htake : (src.take (buf.accepts src)).length = buf.accepts src := by
    rw [List.length_take, Buffer.accepts]
    omega
  rw [bufferWrite_eq hwf, Buffer.contents, Buffer.contents]
  have h : (buf.ptr.cells.overlay buf.len (src.take (buf.accepts src))).take
      (buf.len + (src.take (buf.accepts src)).length) = _ := List.take_overlay (by omega)
  rw [htake] at h
  exact h

/-- A retract drops bytes from the front; the read cursor stays at its byte, or
moves to the first byte left. -/
theorem bufferRetract_eq {buf : Buffer} (hwf : buf.WellFormed) (count : Nat) :
    let k := min count buf.len
    bufferRetract buf count =
      ({ buf with
          ptr := { buf.ptr with
            cells := buf.ptr.cells.overlay 0 (buf.ptr.slice k (buf.cap - k)) }
          len := buf.len - k
          pos := buf.pos - k }, k) := by
  intro k
  have hpos := hwf.pos_le
  have hlen := hwf.len_le
  have hcap := hwf.cap_lt
  have hclip : (if count > buf.len then buf.len else count) = k := clip_gt _ _
  have hcapk : usub buf.cap k = buf.cap - k := usub_of_le (by omega) hcap
  have hlenk : usub buf.len k = buf.len - k := usub_of_le (by omega) (by omega)
  have hposk : (if k < buf.pos then usub buf.pos k else 0) = buf.pos - k := by
    split
    · exact usub_of_le (by omega) (by omega)
    · omega
  simp only [bufferRetract, hclip, hcapk, hlenk, hposk]
  rw [Block.move_of_le (by rw [hwf.size_ptr]; omega) (by rw [hwf.size_ptr]; omega)]

theorem bufferRetract_wellFormed {buf : Buffer} (hwf : buf.WellFormed) (count : Nat) :
    (bufferRetract buf count).1.WellFormed := by
  have hpos := hwf.pos_le
  have hlen := hwf.len_le
  have hsize := hwf.length_cells
  have hslice := hwf.length_tail (show min count buf.len ≤ buf.cap by omega)
  rw [bufferRetract_eq hwf]
  refine { hwf with pos_le := ?_, len_le := ?_, size_ptr := ?_ }
  · simp only
    omega
  · simp only
    omega
  · refine (List.length_overlay ?_).trans hwf.size_ptr
    rw [hslice, hsize]
    omega

theorem bufferRetract_contents {buf : Buffer} (hwf : buf.WellFormed) (count : Nat) :
    (bufferRetract buf count).1.contents = buf.contents.drop count := by
  have hlen := hwf.len_le
  have hslice := hwf.length_tail (show min count buf.len ≤ buf.cap by omega)
  rw [bufferRetract_eq hwf, Buffer.contents, Buffer.contents]
  simp only [List.overlay, List.take_zero, List.nil_append]
  rw [List.take_append_of_le_length (by rw [hslice]; omega), Block.slice, List.take_take,
    Nat.min_eq_left (by omega), ← List.drop_take]
  cases Nat.le_total count buf.len with
  | inl hle =>
    rw [Nat.min_eq_left hle]
  | inr hle =>
    rw [Nat.min_eq_right hle, List.drop_take, Nat.sub_self, List.take_zero,
      List.drop_eq_nil_of_le (by rw [List.length_take]; omega)]

theorem bufferRetract_unread {buf : Buffer} (hwf : buf.WellFormed) {count : Nat}
    (hread : (bufferRetract buf count).2 ≤ buf.pos) :
    (bufferRetract buf count).1.unread = buf.unread := by
  have hk : min count buf.len ≤ buf.pos := by
    rw [bufferRetract_eq hwf] at hread
    exact hread
  have hpos : (bufferRetract buf count).1.pos = buf.pos - min count buf.len := by
    rw [bufferRetract_eq hwf]
  have hcount : buf.contents.drop count = buf.contents.drop (min count buf.len) := by
    rw [← hwf.length_contents]
    exact List.drop_eq_drop_min
  rw [Buffer.unread, bufferRetract_contents hwf, hpos, hcount, List.drop_drop,
    Nat.add_sub_cancel' hk, Buffer.unread]

theorem bufferPrepare_unread {buf : Buffer} (hwf : buf.WellFormed) {len : Nat}
    (hread : buf.len - (bufferPrepare buf len).len ≤ buf.pos) :
    (bufferPrepare buf len).unread = buf.unread := by
  simp only [bufferPrepare] at hread ⊢
  split at hread
  · rename_i hnum
    rw [if_pos hnum]
    apply bufferRetract_unread hwf
    rw [bufferRetract_eq hwf] at hread ⊢
    simp only at hread ⊢
    omega
  · rename_i hnum
    rw [if_neg hnum]

theorem bufferPrepare_free {buf : Buffer} (hwf : buf.WellFormed) {len : Nat}
    (hlen : len ≤ buf.cap) (hcap : buf.cap < 2 ^ 31) : len ≤ (bufferPrepare buf len).free := by
  have hle := hwf.len_le
  have hfree := hwf.free_eq
  rw [bufferPrepare]
  cases Nat.lt_or_ge buf.free len with
  | inl hshort =>
    have hnum : asInt (usub len buf.free) = (len - buf.free : Nat) := by
      rw [usub_of_le (Nat.le_of_lt hshort) (by omega), asInt, if_pos (by omega)]
    simp only [hnum, Int.toNat_natCast]
    rw [if_pos (by omega), (bufferRetract_wellFormed hwf _).free_eq, bufferRetract_eq hwf]
    simp only
    omega
  | inr hroom =>
    have hnum : ¬ asInt (usub len buf.free) > 0 := by
      cases Nat.eq_or_lt_of_le hroom with
      | inl heq =>
        rw [heq, usub_of_le (Nat.le_refl _) (by omega), Nat.sub_self]
        decide
      | inr hlt =>
        rw [usub_of_lt hlt, asInt, if_neg (by omega)]
        omega
    simp only [if_neg hnum]
    exact hroom

end Wifimodem
