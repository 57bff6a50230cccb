import Wifimodem.Lib.RegisterPolynomial
import Wifimodem.Util.Crc16

/-!
# The checksum as a remainder

`util/crc16.c` divides the message by `X ^ 16 + X ^ 12 + X ^ 5 + 1`, after sixteen
zero bits have been put behind it. With the checksum in their place nothing is left.
-/

namespace Wifimodem

open Polynomial ShiftRegister

def crc16Init : UInt16 := 0

/-- The checksum as it is appended to a message, its high byte first. -/
def crc16Bytes (crc : UInt16) : List UInt8 := [(crc >>> 8).toUInt8, crc.toUInt8]

theorem generator_crc16 : generator crc16Poly = X ^ 16 + (X ^ 12 + X ^ 5 + 1) := by
  have hbits : crc16Poly = BitVec.twoPow 16 12 ^^^ BitVec.twoPow 16 5 ^^^ BitVec.twoPow 16 0 := by
    decide
  rw [generator, hbits, toPoly_xor, toPoly_xor, toPoly_twoPow (by decide),
    toPoly_twoPow (by decide), toPoly_twoPow (by decide), pow_zero]

theorem getMsbD_high (crc : UInt16) {i : Nat} (hi : i < 8) :
    (crc >>> 8).toUInt8.toBitVec.getMsbD i = crc.toBitVec.getMsbD i := by
  have hbits : (crc >>> 8).toUInt8.toBitVec = (crc.toBitVec >>> 8).setWidth 8 := rfl
  have hin : i < 16 := by omega
  have hpos : 8 + (7 - i) = 15 - i := by omega
  rw [hbits, BitVec.getMsbD_eq_getLsbD, BitVec.getMsbD_eq_getLsbD, BitVec.getLsbD_setWidth,
    BitVec.getLsbD_ushiftRight]
  simp [hi, hin, hpos]
  omega

theorem getMsbD_low (crc : UInt16) (i : Nat) :
    crc.toUInt8.toBitVec.getMsbD i = crc.toBitVec.getMsbD (i + 8) := by
  have hbits : crc.toUInt8.toBitVec = crc.toBitVec.setWidth 8 := rfl
  rw [hbits, BitVec.getMsbD_setWidth]
  simp

theorem top_crc16Bytes (crc : UInt16) : top 16 (messageBits (crc16Bytes crc)) = crc.toBitVec := by
  apply BitVec.eq_of_getMsbD_eq
  intro i hi
  have hbits : messageBits (crc16Bytes crc) =
      byteBits (crc >>> 8).toUInt8 ++ byteBits crc.toUInt8 :=
    congrArg (byteBits (crc >>> 8).toUInt8 ++ ·) (List.append_nil _)
  rw [getMsbD_top _ i hi, hbits]
  cases Nat.lt_or_ge i 8 with
  | inl hlt => rw [List.getD_append _ _ _ _ hlt, getD_byteBits, getMsbD_high crc hlt]
  | inr hge =>
    have hback : i - 8 + 8 = i := by omega
    rw [List.getD_append_right _ _ _ _ hge, getD_byteBits, length_byteBits, getMsbD_low, hback]

theorem crc16Buf_append (crc : UInt16) (a b : List UInt8) :
    crc16Buf crc (a ++ b) = crc16Buf (crc16Buf crc a) b := List.foldl_append

/-- The checksum is the remainder of the message behind the initial value, and the
message with its checksum appended leaves none. -/
theorem crc16Buf_remainder (crc : UInt16) (buf : List UInt8) :
    toPoly (crc16Buf crc buf).toBitVec =
      (toPoly crc.toBitVec * X ^ (8 * buf.length) + bitsPoly (messageBits buf) * X ^ 16) %ₘ
        (X ^ 16 + (X ^ 12 + X ^ 5 + 1)) ∧
    crc16Buf crc16Init (buf ++ crc16Bytes (crc16Buf crc16Init buf)) = 0 := by
  constructor
  · rw [crc16Buf_toBitVec, toPoly_register (by decide), length_messageBits, generator_crc16]
  · apply UInt16.toBitVec_inj.mp
    rw [crc16Buf_append, crc16Buf_toBitVec]
    exact register_self crc16Poly _ _ (Nat.le_of_eq (length_messageBits _)) (top_crc16Bytes _)

end Wifimodem
