import Mathlib.Algebra.CharP.Two
import Mathlib.Algebra.Polynomial.Div
import Mathlib.Algebra.Polynomial.OfFn
import Mathlib.Algebra.Field.ZMod
import Wifimodem.Lib.ShiftRegister

/-!
# Registers as polynomials

The bits of a register are the coefficients of a polynomial over the two-element
field, so that a shift with feedback is a multiplication by `X` and a reduction.
-/

namespace ShiftRegister

open Polynomial

variable {w : Nat}

def coeffBit (b : Bool) : ZMod 2 := if b then 1 else 0

noncomputable def toPoly (c : BitVec w) : (ZMod 2)[X] := ofFn w fun i => coeffBit (c.getLsbD i)

/-- What the feedback is the remainder of: `X ^ w` and the feedback itself. -/
noncomputable def generator (poly : BitVec w) : (ZMod 2)[X] := X ^ w + toPoly poly

/-- The polynomial of a message, its first bit the most significant one. -/
noncomputable def bitsPoly : List Bool → (ZMod 2)[X]
  | [] => 0
  | b :: bits => C (coeffBit b) * X ^ bits.length + bitsPoly bits

theorem coeffBit_xor (a b : Bool) : coeffBit (a ^^ b) = coeffBit a + coeffBit b := by
  cases a <;> cases b <;> decide

theorem coeff_toPoly (c : BitVec w) (i : Nat) : (toPoly c).coeff i = coeffBit (c.getLsbD i) := by
  cases Nat.lt_or_ge i w with
  | inl hlt => rw [toPoly, ofFn_coeff_eq_val_of_lt _ hlt]
  | inr hge => rw [toPoly, ofFn_coeff_eq_zero_of_ge _ hge, BitVec.getLsbD_of_ge c i hge]; rfl

theorem degree_toPoly (c : BitVec w) : (toPoly c).degree < w := ofFn_degree_lt _

theorem toPoly_xor (c d : BitVec w) : toPoly (c ^^^ d) = toPoly c + toPoly d := by
  ext i
  rw [coeff_add, coeff_toPoly, coeff_toPoly, coeff_toPoly, BitVec.getLsbD_xor, coeffBit_xor]

theorem toPoly_zero : toPoly 0#w = 0 := by
  ext i
  rw [coeff_toPoly, BitVec.getLsbD_zero]
  rfl

theorem toPoly_twoPow {i : Nat} (hi : i < w) : toPoly (BitVec.twoPow w i) = X ^ i := by
  ext j
  rw [coeff_toPoly, BitVec.getLsbD_twoPow, coeff_X_pow, decide_eq_true hi, Bool.true_and, coeffBit]
  simp [eq_comm]

theorem generator_monic (poly : BitVec w) : (generator poly).Monic :=
  monic_X_pow_add (degree_toPoly poly)

theorem degree_generator (poly : BitVec w) : (generator poly).degree = w := by
  have hless : (toPoly poly).degree < (X ^ w : (ZMod 2)[X]).degree := by
    rw [degree_X_pow]
    exact degree_toPoly poly
  rw [generator, degree_add_eq_left_of_degree_lt hless, degree_X_pow]

/-- Multiplication by `X`, where the bit shifted out stays. -/
theorem X_mul_toPoly (c : BitVec w) :
    X * toPoly c = toPoly (c <<< 1) + C (coeffBit c.msb) * X ^ w := by
  ext i
  rw [coeff_add, coeff_toPoly, coeff_C_mul_X_pow, BitVec.getLsbD_shiftLeft]
  cases i with
  | zero =>
    rw [coeff_X_mul_zero]
    cases w with
    | zero => simp [coeffBit, BitVec.of_length_zero (x := c)]
    | succ w => simp [coeffBit]
  | succ i =>
    rw [coeff_X_mul, coeff_toPoly]
    rcases Nat.lt_trichotomy (i + 1) w with hlt | heq | hgt
    · have hne : i + 1 ≠ w := Nat.ne_of_lt hlt
      simp [hlt, hne]
    · subst heq
      rw [BitVec.msb_eq_getLsbD_last]
      simp [coeffBit]
    · have hne : i + 1 ≠ w := Nat.ne_of_gt hgt
      have hout := BitVec.getLsbD_of_ge c i (Nat.le_of_lt_succ hgt)
      simp [hne, hout, coeffBit]

theorem shift_dvd (poly c : BitVec w) : generator poly ∣ X * toPoly c - toPoly (shift poly c) := by
  rw [X_mul_toPoly, shift]
  cases hm : c.msb with
  | false =>
    rw [if_neg Bool.false_ne_true]
    simp [coeffBit]
  | true =>
    have hgen : toPoly (c <<< 1) + C (coeffBit true) * X ^ w - toPoly (c <<< 1 ^^^ poly) =
        generator poly := by
      rw [toPoly_xor, generator, ← CharTwo.sub_eq_add (X ^ w), coeffBit, if_pos rfl, C_1]
      ring
    rw [if_pos rfl, hgen]

theorem feed_dvd (hw : 0 < w) (poly c : BitVec w) (b : Bool) :
    generator poly ∣ X * toPoly c + C (coeffBit b) * X ^ w - toPoly (feed poly c b) := by
  have hbit : X * toPoly (if b then BitVec.intMin w else 0#w) = C (coeffBit b) * X ^ w := by
    cases b with
    | false => simp [toPoly_zero, coeffBit]
    | true =>
      rw [if_pos rfl, BitVec.intMin, toPoly_twoPow (Nat.sub_lt hw Nat.one_pos), coeffBit,
        if_pos rfl, C_1, one_mul, ← pow_succ', Nat.sub_add_cancel hw]
  rw [← hbit, ← mul_add, ← toPoly_xor]
  exact shift_dvd poly _

theorem register_dvd (hw : 0 < w) (poly c : BitVec w) (bits : List Bool) :
    generator poly ∣ toPoly c * X ^ bits.length + bitsPoly bits * X ^ w -
      toPoly (register poly c bits) := by
  induction bits generalizing c with
  | nil => simp [bitsPoly, register]
  | cons b bits ih =>
    have hfirst := (feed_dvd hw poly c b).mul_left (X ^ bits.length)
    have hsum := dvd_add hfirst (ih (feed poly c b))
    have hstep : register poly c (b :: bits) = register poly (feed poly c b) bits := rfl
    rw [hstep, List.length_cons, bitsPoly]
    convert hsum using 1
    ring

/-- The register holds the remainder of what has been fed into it. -/
theorem toPoly_register (hw : 0 < w) (poly c : BitVec w) (bits : List Bool) :
    toPoly (register poly c bits) =
      (toPoly c * X ^ bits.length + bitsPoly bits * X ^ w) %ₘ generator poly := by
  have hmonic := generator_monic poly
  have hsmall : (toPoly (register poly c bits)).degree < (generator poly).degree := by
    rw [degree_generator]
    exact degree_toPoly _
  rw [modByMonic_eq_of_dvd_sub hmonic (register_dvd hw poly c bits)]
  exact ((modByMonic_eq_self_iff hmonic).mpr hsmall).symm

end ShiftRegister
