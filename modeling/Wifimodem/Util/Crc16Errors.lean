import Mathlib.Data.Nat.Prime.Basic
import Wifimodem.Lib.RegisterErrors
import Wifimodem.Util.Crc16Remainder

/-!
# Errors the checksum shows

The generator of `util/crc16.c` is a multiple of `X + 1`, and the top bit of its
register comes round after 32767 steps: no three wrong bits in a message of up to
4095 bytes go unnoticed.
-/

namespace Wifimodem

open Polynomial ShiftRegister Function

/-- The number of bits in which two messages differ. -/
def bitErrors (a b : List UInt8) : Nat := (errors (messageBits a) (messageBits b)).count true

theorem messageBits_length_eq {a b : List UInt8} (hlen : a.length = b.length) :
    (messageBits a).length = (messageBits b).length := by
  rw [length_messageBits, length_messageBits, hlen]

theorem crc16Buf_eq_iff_errors (crc : UInt16) {a b : List UInt8} (hlen : a.length = b.length) :
    crc16Buf crc a = crc16Buf crc b ↔
      register crc16Poly 0#16 (errors (messageBits a) (messageBits b)) = 0#16 := by
  rw [← register_eq_iff_errors crc16Poly crc.toBitVec (messageBits_length_eq hlen),
    ← crc16Buf_toBitVec, ← crc16Buf_toBitVec, UInt16.toBitVec_inj]

theorem generator_crc16_eval_one : (generator crc16Poly).eval 1 = 0 := by
  rw [generator_crc16]
  simp only [eval_add, eval_pow, eval_X, eval_one, one_pow]
  decide

theorem even_bitErrors (crc : UInt16) {a b : List UInt8} (hlen : a.length = b.length)
    (h : crc16Buf crc a = crc16Buf crc b) : Even (bitErrors a b) :=
  even_of_register_zero (by decide) generator_crc16_eval_one
    ((crc16Buf_eq_iff_errors crc hlen).mp h)

/-- The power `X ^ n` as the register holds it. -/
def crc16Power (n : Nat) : BitVec 16 := (shift crc16Poly)^[n] 1#16

def powerBits (c : BitVec 16) : List Bool := (List.range 16).map c.getMsbD

theorem crc16Power_add {m n k : Nat} {u v r : BitVec 16} (hm : crc16Power m = u)
    (hn : crc16Power n = v) (hk : m + n = k)
    (hr : times crc16Poly 1#16 (powerBits v) = v ∧ times crc16Poly u (powerBits v) = r) :
    crc16Power k = r := by
  rw [← hk, crc16Power, iterate_add_apply, ← crc16Power, hn, ← hr.1, iterate_times,
    ← crc16Power, hm, hr.2]

/-- The powers that the period is read off: each is the product of two before it. -/
theorem crc16Power_values :
    crc16Power (7 * 31) = 18659#16 ∧ crc16Power (7 * 151) = 62127#16 ∧
      crc16Power (31 * 151) = 11330#16 ∧ crc16Power 32768 = 2#16 := by
  have h33 : crc16Power 33 = 28256#16 := by decide +kernel
  have h64 : crc16Power 64 = 47201#16 := by decide +kernel
  have h73 : crc16Power 73 = 36774#16 := by decide +kernel
  have h217 : crc16Power (7 * 31) = 18659#16 := by decide +kernel
  have h128 : crc16Power 128 = 44796#16 := crc16Power_add h64 h64 rfl (by decide +kernel)
  have h256 : crc16Power 256 = 36393#16 := crc16Power_add h128 h128 rfl (by decide +kernel)
  have h512 : crc16Power 512 = 5116#16 := crc16Power_add h256 h256 rfl (by decide +kernel)
  have h585 : crc16Power 585 = 17664#16 := crc16Power_add h512 h73 rfl (by decide +kernel)
  have h1024 : crc16Power 1024 = 14020#16 := crc16Power_add h512 h512 rfl (by decide +kernel)
  have h1057 : crc16Power (7 * 151) = 62127#16 := crc16Power_add h1024 h33 rfl (by decide +kernel)
  have h2048 : crc16Power 2048 = 64848#16 := crc16Power_add h1024 h1024 rfl (by decide +kernel)
  have h4096 : crc16Power 4096 = 43678#16 := crc16Power_add h2048 h2048 rfl (by decide +kernel)
  have h4681 : crc16Power (31 * 151) = 11330#16 := crc16Power_add h4096 h585 rfl (by decide +kernel)
  have h8192 : crc16Power 8192 = 34844#16 := crc16Power_add h4096 h4096 rfl (by decide +kernel)
  have h16384 : crc16Power 16384 = 17496#16 := crc16Power_add h8192 h8192 rfl (by decide +kernel)
  exact ⟨h217, h1057, h4681, crc16Power_add h16384 h16384 rfl (by decide +kernel)⟩

theorem crc16_isPeriodicPt : IsPeriodicPt (shift crc16Poly) 32767 1#16 := by
  have hround : shift crc16Poly (crc16Power 32767) = shift crc16Poly 1#16 := by
    rw [crc16Power, ← iterate_succ_apply' (shift crc16Poly)]
    exact crc16Power_values.2.2.2.trans (by decide)
  exact @shift_injective 16 crc16Poly rfl _ _ hround

/-- `32767 = 7 * 31 * 151`, and no power of `X` with one of the three left out is `1`. -/
theorem crc16_minimalPeriod_one : minimalPeriod (shift crc16Poly) 1#16 = 32767 := by
  obtain ⟨h217, h1057, h4681, -⟩ := crc16Power_values
  have hno : ∀ {n : Nat} {v : BitVec 16}, crc16Power n = v → v ≠ 1#16 →
      ¬minimalPeriod (shift crc16Poly) 1#16 ∣ n := by
    rintro n v hn hv hdvd
    exact hv (hn.symm.trans (isPeriodicPt_iff_minimalPeriod_dvd.mpr hdvd))
  obtain ⟨e, he⟩ := crc16_isPeriodicPt.minimalPeriod_dvd
  by_cases hone : e = 1
  · rw [hone, Nat.mul_one] at he
    exact he.symm
  · obtain ⟨p, hp, f, hf⟩ := Nat.exists_prime_and_dvd hone
    have hsplit : p * (minimalPeriod (shift crc16Poly) 1#16 * f) = 7 * 31 * 151 := by
      rw [← Nat.mul_left_comm, ← hf, ← he]
    have hdvd : p ∣ 7 * 31 * 151 := ⟨_, hsplit.symm⟩
    rw [hp.dvd_mul, hp.dvd_mul] at hdvd
    rcases hdvd with (h | h) | h
    · have hp7 := (Nat.prime_dvd_prime_iff_eq hp (by decide)).mp h
      subst hp7
      exact absurd ⟨f, by omega⟩ (hno h4681 (by decide))
    · have hp31 := (Nat.prime_dvd_prime_iff_eq hp (by decide)).mp h
      subst hp31
      exact absurd ⟨f, by omega⟩ (hno h1057 (by decide))
    · have hp151 := (Nat.prime_dvd_prime_iff_eq hp (by decide)).mp h
      subst hp151
      exact absurd ⟨f, by omega⟩ (hno h217 (by decide))

theorem crc16_minimalPeriod : minimalPeriod (shift crc16Poly) (BitVec.intMin 16) = 32767 := by
  have htop : BitVec.intMin 16 = (shift crc16Poly)^[15] 1#16 := by decide +kernel
  have hpos : 0 < 32767 := Nat.succ_pos _
  have hmem : 1#16 ∈ periodicPts (shift crc16Poly) := ⟨32767, hpos, crc16_isPeriodicPt⟩
  rw [htop, minimalPeriod_apply_iterate hmem, crc16_minimalPeriod_one]

/-- Two wrong bits are noticed unless a multiple of 32767 bits apart. -/
theorem crc16Buf_eq_iff_two (crc : UInt16) {a b : List UInt8} (hlen : a.length = b.length)
    {i j : Nat} (hij : i < j)
    (hdiff : ∀ k, (messageBits a)[k]? ≠ (messageBits b)[k]? ↔ k = i ∨ k = j) :
    crc16Buf crc a = crc16Buf crc b ↔ 32767 ∣ j - i := by
  have hgap : j - i - 1 + 1 = j - i := by omega
  rw [crc16Buf_eq_iff_errors crc hlen,
    errors_eq_two (messageBits_length_eq hlen) hij hdiff,
    register_two_eq_zero_iff rfl, crc16_minimalPeriod, hgap]

theorem crc16Buf_two_adjacent :
    crc16Buf 0 [0x01, 0x80] = crc16Buf 0 [0x00, 0x00] ↔ 32767 ∣ 8 - 7 := by
  apply @crc16Buf_eq_iff_two 0 [0x01, 0x80] [0x00, 0x00] rfl 7 8 (by decide)
  intro k
  have hbits : ∀ k < 16, (messageBits [0x01, 0x80])[k]? ≠ (messageBits [0x00, 0x00])[k]? ↔
      k = 7 ∨ k = 8 := by decide
  rcases Nat.lt_or_ge k 16 with hlt | hge
  · exact hbits k hlt
  · rw [List.getElem?_eq_none hge, List.getElem?_eq_none hge]
    exact ⟨fun h => absurd rfl h, fun h => by omega⟩

theorem two_errors_noticed (crc : UInt16) {a b : List UInt8} (hlen : a.length = b.length)
    (htwo : bitErrors a b = 2) (hshort : a.length ≤ 4095) : crc16Buf crc a ≠ crc16Buf crc b := by
  intro h
  obtain ⟨p, k, q, herrors⟩ := exists_two_errors htwo
  have hlength := length_errors (messageBits_length_eq hlen)
  rw [crc16Buf_eq_iff_errors crc hlen, herrors, register_two_eq_zero_iff rfl,
    crc16_minimalPeriod] at h
  rw [herrors, length_messageBits] at hlength
  simp only [List.length_append, List.length_cons, List.length_replicate] at hlength
  have hround := Nat.le_of_dvd (Nat.succ_pos k) h
  omega

/-- An odd number of wrong bits is noticed in a message of any length, and up to three
wrong bits in a message of up to 4095 bytes. -/
theorem crc16Buf_ne_of_few (crc : UInt16) {a b : List UInt8} (hlen : a.length = b.length)
    (h : Odd (bitErrors a b) ∨ a ≠ b ∧ bitErrors a b ≤ 3 ∧ a.length ≤ 4095) :
    crc16Buf crc a ≠ crc16Buf crc b := by
  have hodd : Odd (bitErrors a b) → crc16Buf crc a ≠ crc16Buf crc b := fun hodd heq =>
    Nat.not_even_iff_odd.mpr hodd (even_bitErrors crc hlen heq)
  rcases h with hbits | ⟨hne, hfew, hshort⟩
  · exact hodd hbits
  · rcases Nat.lt_or_ge (bitErrors a b) 1 with hnone | hsome
    · have hzero : (errors (messageBits a) (messageBits b)).count true = 0 := by
        rw [← bitErrors]
        omega
      have hbits := eq_of_errors_zero (messageBits_length_eq hlen) hzero
      exact absurd (messageBits_injective hlen hbits) hne
    · by_cases htwo : bitErrors a b = 2
      · exact two_errors_noticed crc hlen htwo hshort
      · have hcases : bitErrors a b = 1 ∨ bitErrors a b = 3 := by omega
        apply hodd
        rcases hcases with h | h
        · rw [h]
          decide
        · rw [h]
          decide

theorem crc16Buf_ne_of_three_bits : crc16Buf 0 [0x10, 0x03] ≠ crc16Buf 0 [0x00, 0x00] :=
  @crc16Buf_ne_of_few 0 [0x10, 0x03] [0x00, 0x00] rfl
    (.inr ⟨by decide, by decide, by decide⟩)

end Wifimodem
