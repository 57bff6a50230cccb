import Wifimodem.Lib.ShiftRegister
import Wifimodem.Core.Types

/-!
# The checksum of a message

The CRC of `util/crc16.c`, a byte at a time, and the shift register with the
feedback `0x1021` that it runs over the bits of the message.
-/

namespace Wifimodem

open ShiftRegister

def crc16Shift (crc : UInt16) : UInt16 :=
  if crc &&& 0x8000 != 0 then crc <<< 1 ^^^ 0x1021 else crc <<< 1

def crc16Next (crc : UInt16) (ch : UInt8) : UInt16 :=
  crc16Shift^[8] (crc ^^^ ch.toUInt16 <<< 8)

def crc16Buf (crc : UInt16) (buf : List UInt8) : UInt16 := buf.foldl crc16Next crc

/-- The bits of a byte, the most significant one first. -/
def byteBits (ch : UInt8) : List Bool := (List.range 8).map ch.toBitVec.getMsbD

def messageBits (buf : List UInt8) : List Bool := buf.flatMap byteBits

def crc16Poly : BitVec 16 := 0x1021

theorem and_topBit (crc : UInt16) : (crc &&& 0x8000 != 0) = crc.toBitVec.msb := by
  have hbits : (crc &&& 0x8000).toBitVec =
      if crc.toBitVec.msb then BitVec.twoPow 16 15 else 0#16 := by
    rw [BitVec.msb_eq_getLsbD_last]
    exact BitVec.and_twoPow crc.toBitVec 15
  cases hm : crc.toBitVec.msb with
  | false =>
    rw [hm] at hbits
    rw [show crc &&& 0x8000 = 0 from UInt16.toBitVec_inj.mp hbits]
    rfl
  | true =>
    rw [hm] at hbits
    rw [show crc &&& 0x8000 = 0x8000 from UInt16.toBitVec_inj.mp hbits]
    rfl

theorem crc16Shift_toBitVec (crc : UInt16) :
    (crc16Shift crc).toBitVec = shift crc16Poly crc.toBitVec := by
  rw [crc16Shift, shift, and_topBit]
  cases crc.toBitVec.msb
  · rfl
  · rfl

theorem crc16Shifts_toBitVec (n : Nat) (crc : UInt16) :
    (crc16Shift^[n] crc).toBitVec = (shift crc16Poly)^[n] crc.toBitVec := by
  induction n generalizing crc with
  | zero => rfl
  | succ n ih =>
    rw [Function.iterate_succ_apply, Function.iterate_succ_apply, ih, crc16Shift_toBitVec]

@[simp] theorem length_byteBits (ch : UInt8) : (byteBits ch).length = 8 := rfl

theorem getD_byteBits (ch : UInt8) (i : Nat) :
    (byteBits ch).getD i false = ch.toBitVec.getMsbD i := by
  rw [byteBits]
  cases Nat.lt_or_ge i 8 with
  | inl hlt => simp [List.getD, hlt]
  | inr hge => simp [List.getD, hge]

theorem top_byteBits (ch : UInt8) :
    top 16 (byteBits ch) = ch.toBitVec.setWidth 16 <<< 8 := by
  apply BitVec.eq_of_getMsbD_eq
  intro i hi
  rw [getMsbD_top _ i hi, BitVec.getMsbD_shiftLeft, BitVec.getMsbD_setWidth, getD_byteBits]
  simp

theorem crc16Next_toBitVec (crc : UInt16) (ch : UInt8) :
    (crc16Next crc ch).toBitVec = register crc16Poly crc.toBitVec (byteBits ch) := by
  rw [crc16Next, crc16Shifts_toBitVec, register_eq_shifts _ _ (byteBits ch) (by simp),
    top_byteBits]
  rfl

theorem crc16Buf_toBitVec (crc : UInt16) (buf : List UInt8) :
    (crc16Buf crc buf).toBitVec = register crc16Poly crc.toBitVec (messageBits buf) := by
  induction buf generalizing crc with
  | nil => rfl
  | cons ch buf ih =>
    rw [crc16Buf, List.foldl_cons, messageBits, List.flatMap_cons, register_append,
      ← crc16Next_toBitVec]
    exact ih (crc16Next crc ch)

@[simp] theorem length_messageBits (buf : List UInt8) :
    (messageBits buf).length = 8 * buf.length := by
  induction buf with
  | nil => rfl
  | cons ch buf ih =>
    rw [messageBits, List.flatMap_cons, List.length_append, length_byteBits, List.length_cons]
    rw [messageBits] at ih
    omega

theorem byteBits_injective : Function.Injective byteBits := by
  intro a b h
  apply UInt8.toBitVec_inj.mp
  apply BitVec.eq_of_getMsbD_eq
  intro i hi
  exact List.map_inj_left.mp h i (List.mem_range.mpr hi)

theorem messageBits_injective {a b : List UInt8} (hlen : a.length = b.length)
    (h : messageBits a = messageBits b) : a = b := by
  induction a generalizing b with
  | nil => exact (List.eq_nil_of_length_eq_zero hlen.symm).symm
  | cons x a ih =>
    cases b with
    | nil => exact absurd hlen (Nat.succ_ne_zero _)
    | cons y b =>
      rw [messageBits, messageBits, List.flatMap_cons, List.flatMap_cons] at h
      obtain ⟨hxy, hab⟩ := List.append_inj h rfl
      rw [byteBits_injective hxy, ih (Nat.succ.inj hlen) hab]

/-- A burst of at most 16 bits, wherever it lies, changes the checksum. -/
theorem crc16Buf_ne_of_burst (crc : UInt16) {a b : List UInt8} (hlen : a.length = b.length)
    (hne : a ≠ b) (start : Nat)
    (hwin : ∀ i, (messageBits a)[i]? ≠ (messageBits b)[i]? → start ≤ i ∧ i < start + 16) :
    crc16Buf crc a ≠ crc16Buf crc b := by
  intro h
  have hbits : (messageBits a).length = (messageBits b).length := by
    rw [length_messageBits, length_messageBits, hlen]
  have hdiffer : messageBits a ≠ messageBits b := fun hab => hne (messageBits_injective hlen hab)
  apply @register_ne_of_window 16 crc16Poly rfl crc.toBitVec _ _ hbits hdiffer start hwin
  rw [← crc16Buf_toBitVec, ← crc16Buf_toBitVec, h]

theorem crc16Buf_ne_straddling : crc16Buf 0 [0x01, 0x80] ≠ crc16Buf 0 [0x00, 0x00] := by
  apply @crc16Buf_ne_of_burst 0 [0x01, 0x80] [0x00, 0x00] rfl (by decide) 7
  intro i hi
  have hbits : ∀ i < 16, (messageBits [0x01, 0x80])[i]? ≠ (messageBits [0x00, 0x00])[i]? →
      7 ≤ i ∧ i < 7 + 16 := by decide
  rcases Nat.lt_or_ge i 16 with hlt | hge
  · exact hbits i hlt hi
  · rw [List.getElem?_eq_none hge, List.getElem?_eq_none hge] at hi
    exact absurd rfl hi

end Wifimodem
