import Mathlib.Data.List.Basic
import Mathlib.Tactic.Ring

/-!
# Fixed-width byte encodings of natural numbers

`toBytes n x` is the low `n` bytes of `x`, least significant first, and
`ofBytes` the number such bytes stand for.
-/

namespace LittleEndian

/-- The low `n` bytes of `x`, least significant first. -/
def toBytes : Nat → Nat → List UInt8
  | 0, _ => []
  | n + 1, x => UInt8.ofNat x :: toBytes n (x / 256)

/-- The number with these bytes, least significant first. -/
def ofBytes : List UInt8 → Nat
  | [] => 0
  | b :: bs => b.toNat + 256 * ofBytes bs

/-- The number with the same `n` bytes in the opposite order. -/
def swap (n x : Nat) : Nat := ofBytes (toBytes n x).reverse

@[simp] theorem length_toBytes (n x : Nat) : (toBytes n x).length = n := by
  induction n generalizing x with
  | zero => rfl
  | succ n ih => rw [toBytes, List.length_cons, ih]

theorem ofBytes_toBytes (n x : Nat) : ofBytes (toBytes n x) = x % 256 ^ n := by
  induction n generalizing x with
  | zero => rw [toBytes, ofBytes, pow_zero, Nat.mod_one]
  | succ n ih =>
    rw [toBytes, ofBytes, ih, UInt8.toNat_ofNat', show (2 : Nat) ^ 8 = 256 from rfl, pow_succ',
      Nat.mod_mul]

theorem toBytes_ofBytes (bs : List UInt8) : toBytes bs.length (ofBytes bs) = bs := by
  induction bs with
  | nil => rfl
  | cons b bs ih =>
    have hb : b.toNat < 256 := b.toNat_lt
    have hdiv : (b.toNat + 256 * ofBytes bs) / 256 = ofBytes bs := by omega
    have hmod : UInt8.ofNat (b.toNat + 256 * ofBytes bs) = b := by
      apply UInt8.toNat_inj.mp
      rw [UInt8.toNat_ofNat']
      omega
    rw [List.length_cons, ofBytes, toBytes, hdiv, ih, hmod]

theorem ofBytes_lt (bs : List UInt8) : ofBytes bs < 256 ^ bs.length := by
  induction bs with
  | nil => exact Nat.one_pos
  | cons b bs ih =>
    have hb : b.toNat < 256 := b.toNat_lt
    rw [ofBytes, List.length_cons, pow_succ']
    omega

theorem swap_lt (n x : Nat) : swap n x < 256 ^ n := by
  have h := ofBytes_lt (toBytes n x).reverse
  rwa [List.length_reverse, length_toBytes] at h

theorem swap_swap (n x : Nat) : swap n (swap n x) = x % 256 ^ n := by
  have h := toBytes_ofBytes (toBytes n x).reverse
  rw [List.length_reverse, length_toBytes] at h
  rw [swap, swap, h, List.reverse_reverse, ofBytes_toBytes]

theorem toBytes_swap (n x : Nat) : toBytes n (swap n x) = (toBytes n x).reverse := by
  have h := toBytes_ofBytes (toBytes n x).reverse
  rwa [List.length_reverse, length_toBytes] at h

theorem ofBytes_concat (bs : List UInt8) (b : UInt8) :
    ofBytes (bs ++ [b]) = ofBytes bs + 256 ^ bs.length * b.toNat := by
  induction bs with
  | nil => simp [ofBytes]
  | cons c bs ih =>
    rw [List.cons_append, ofBytes, ih, ofBytes, List.length_cons, pow_succ']
    ring

/-- With the most significant byte in front, the numbers are in the order of the bytes. -/
theorem ofBytes_reverse_lt {bs cs : List UInt8} (h : bs.length = cs.length) :
    ofBytes bs.reverse < ofBytes cs.reverse ↔ bs < cs := by
  induction bs generalizing cs with
  | nil =>
    obtain rfl := List.length_eq_zero_iff.mp h.symm
    simp
  | cons b bs ih =>
    cases cs with
    | nil => cases h
    | cons c cs =>
      have hlen : bs.length = cs.length := Nat.succ.inj h
      have hb := ofBytes_lt bs.reverse
      have hc := ofBytes_lt cs.reverse
      rw [List.length_reverse, hlen] at hb
      rw [List.length_reverse] at hc
      rw [List.reverse_cons, List.reverse_cons, ofBytes_concat, ofBytes_concat,
        List.length_reverse, List.length_reverse, hlen, List.cons_lt_cons_iff, ← ih hlen]
      generalize 256 ^ cs.length = scale at hb hc
      rcases Nat.lt_trichotomy b.toNat c.toNat with hlt | heq | hgt
      · have hstep : scale * (b.toNat + 1) ≤ scale * c.toNat := Nat.mul_le_mul_left scale hlt
        rw [Nat.mul_succ] at hstep
        exact iff_of_true (by omega) (.inl (UInt8.lt_iff_toNat_lt.mpr hlt))
      · have hbc : b = c := UInt8.toNat_inj.mp heq
        subst hbc
        have hirrefl : ¬b < b := UInt8.lt_irrefl b
        simp only [hirrefl, true_and, false_or]
        omega
      · have hstep : scale * (c.toNat + 1) ≤ scale * b.toNat := Nat.mul_le_mul_left scale hgt
        rw [Nat.mul_succ] at hstep
        refine iff_of_false (by omega) ?_
        rintro (hlt | ⟨rfl, -⟩)
        · exact Nat.lt_asymm hgt (UInt8.lt_iff_toNat_lt.mp hlt)
        · exact Nat.lt_irrefl _ hgt

/-! ## Two's complement -/

/-- The low `n` bytes of the two's complement of `x`, least significant first. -/
def intBytes (n : Nat) (x : Int) : List UInt8 :=
  (List.range n).map fun i => UInt8.ofInt (x / 256 ^ i)

theorem intBytes_succ (n : Nat) (x : Int) :
    intBytes (n + 1) x = UInt8.ofInt x :: intBytes n (x / 256) := by
  rw [intBytes, List.range_succ_eq_map, List.map_cons, List.map_map, pow_zero, Int.ediv_one,
    intBytes]
  congr 1
  apply List.map_congr_left
  intro i _
  rw [Function.comp_apply, Nat.succ_eq_add_one, pow_succ', Int.ediv_ediv_of_nonneg (by decide)]

/-- The bytes depend on the number only modulo `256 ^ n`. -/
theorem intBytes_sub_mul (n : Nat) (x k : Int) : intBytes n (x - 256 ^ n * k) = intBytes n x := by
  induction n generalizing x with
  | zero => rfl
  | succ n ih =>
    have hpow : (256 : Int) ^ (n + 1) * k = 256 * (256 ^ n * k) := by ring
    generalize (256 : Int) ^ n * k = m at hpow ih
    have hmod : (x - 256 * m) % 2 ^ 8 = x % 2 ^ 8 := by omega
    have hdiv : (x - 256 * m) / 256 = x / 256 - m := by omega
    rw [hpow, intBytes_succ, intBytes_succ, UInt8.ofInt, UInt8.ofInt, hmod, hdiv, ih]

theorem toBytes_eq_intBytes (n x : Nat) : toBytes n x = intBytes n x := by
  induction n generalizing x with
  | zero => rfl
  | succ n ih =>
    have hhead : UInt8.ofInt x = UInt8.ofNat x := by
      rw [UInt8.ofInt]
      apply UInt8.toNat_inj.mp
      rw [UInt8.toNat_ofNat', UInt8.toNat_ofNat']
      omega
    rw [toBytes, intBytes_succ, ih, hhead, Int.natCast_ediv]
    rfl

end LittleEndian
