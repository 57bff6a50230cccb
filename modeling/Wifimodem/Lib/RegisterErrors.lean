import Mathlib.Dynamics.PeriodicPts.Defs
import Wifimodem.Lib.RegisterPolynomial

/-!
# The errors a register shows

Two messages leave a register in states whose difference depends only on the
bits in which they differ. A feedback of even weight shows every odd number of
errors, and two errors are hidden only where the register comes round between them.
-/

namespace ShiftRegister

open Polynomial Function

variable {w : Nat}

/-- The bits in which two messages differ. -/
def errors (a b : List Bool) : List Bool := a.zipWith xor b

theorem feed_xor (poly c d : BitVec w) (x y : Bool) :
    feed poly c x ^^^ feed poly d y = feed poly (c ^^^ d) (x ^^ y) := by
  rw [feed, feed, feed, ← shift_xor]
  cases x <;> cases y
  · simp
  · simp [BitVec.xor_assoc]
  · simp [BitVec.xor_assoc, BitVec.xor_comm d]
  · have hcancel : c ^^^ BitVec.intMin w ^^^ (d ^^^ BitVec.intMin w) = c ^^^ d := by
      rw [BitVec.xor_comm d, ← BitVec.xor_assoc, BitVec.xor_assoc c, BitVec.xor_self,
        BitVec.xor_zero]
    simp [hcancel]

theorem register_xor (poly c d : BitVec w) {a b : List Bool} (hlen : a.length = b.length) :
    register poly c a ^^^ register poly d b = register poly (c ^^^ d) (errors a b) := by
  induction a generalizing c d b with
  | nil =>
    rw [List.eq_nil_of_length_eq_zero hlen.symm]
    rfl
  | cons x a ih =>
    cases b with
    | nil => exact absurd hlen (Nat.succ_ne_zero _)
    | cons y b =>
      have hrest := ih (feed poly c x) (feed poly d y) (Nat.succ.inj hlen)
      rw [feed_xor] at hrest
      exact hrest

/-- Whether two messages are told apart is a question about their errors alone. -/
theorem register_eq_iff_errors (poly c : BitVec w) {a b : List Bool}
    (hlen : a.length = b.length) :
    register poly c a = register poly c b ↔ register poly 0#w (errors a b) = 0#w := by
  rw [← BitVec.xor_eq_zero_iff, register_xor poly c c hlen, BitVec.xor_self]

theorem eval_bitsPoly (bits : List Bool) : (bitsPoly bits).eval 1 = (bits.count true : ZMod 2) := by
  induction bits with
  | nil => simp [bitsPoly]
  | cons b bits ih =>
    rw [bitsPoly, eval_add, ih]
    cases b with
    | false => simp [coeffBit]
    | true => simp [coeffBit, add_comm]

/-- Where `X + 1` divides the generator, the register keeps the parity of the message. -/
theorem even_of_register_zero (hw : 0 < w) {poly : BitVec w} (hgen : (generator poly).eval 1 = 0)
    {bits : List Bool} (hzero : register poly 0#w bits = 0#w) : Even (bits.count true) := by
  obtain ⟨q, hq⟩ := register_dvd hw poly 0#w bits
  have heval := congrArg (Polynomial.eval 1) hq
  rw [hzero, toPoly_zero, eval_mul, hgen, zero_mul] at heval
  simp only [zero_mul, zero_add, sub_zero, eval_mul, eval_pow, eval_X, one_pow, mul_one,
    eval_bitsPoly] at heval
  exact (ZMod.natCast_eq_zero_iff_even).mp heval

theorem register_zeros (poly c : BitVec w) (n : Nat) :
    register poly c (List.replicate n false) = (shift poly)^[n] c := by
  induction n generalizing c with
  | zero => rfl
  | succ n ih =>
    have hfeed : feed poly c false = shift poly c := by simp [feed]
    rw [List.replicate_succ, iterate_succ_apply, ← ih, ← hfeed]
    rfl

/-- Two errors, `k` bits between them: the first has been shifted up to the second. -/
theorem register_two (poly : BitVec w) (p k q : Nat) :
    register poly 0#w (List.replicate p false ++ true :: (List.replicate k false ++
      true :: List.replicate q false)) =
        (shift poly)^[q + 1] ((shift poly)^[k + 1] (BitVec.intMin w) ^^^ BitVec.intMin w) := by
  have hquiet : (shift poly)^[p] 0#w = 0#w := iterate_fixed (shift_zero poly) p
  have hbit : ∀ c, feed poly c true = shift poly (c ^^^ BitVec.intMin w) := fun _ => rfl
  have hcons : ∀ (c : BitVec w) bs, register poly c (true :: bs) =
      register poly (feed poly c true) bs := fun _ _ => rfl
  rw [register_append, register_zeros, hquiet, hcons, register_append, register_zeros, hcons,
    register_zeros, hbit, hbit, BitVec.zero_xor, iterate_succ_apply, iterate_succ_apply]

/-- The product with a polynomial given by its bits, the highest one first. -/
def times (poly c : BitVec w) (bits : List Bool) : BitVec w :=
  bits.foldl (fun d b => shift poly d ^^^ if b then c else 0#w) 0#w

theorem iterate_xor (poly : BitVec w) (n : Nat) (c d : BitVec w) :
    (shift poly)^[n] (c ^^^ d) = (shift poly)^[n] c ^^^ (shift poly)^[n] d := by
  induction n generalizing c d with
  | zero => rfl
  | succ n ih => rw [iterate_succ_apply, shift_xor, ih, ← iterate_succ_apply, ← iterate_succ_apply]

theorem iterate_times (poly : BitVec w) (n : Nat) (c : BitVec w) (bits : List Bool) :
    (shift poly)^[n] (times poly c bits) = times poly ((shift poly)^[n] c) bits := by
  have hrun : ∀ d : BitVec w,
      (shift poly)^[n] (bits.foldl (fun d b => shift poly d ^^^ if b then c else 0#w) d) =
        bits.foldl (fun d b => shift poly d ^^^ if b then (shift poly)^[n] c else 0#w)
          ((shift poly)^[n] d) := by
    induction bits with
    | nil => exact fun _ => rfl
    | cons b bits ih =>
      intro d
      have hfixed : (shift poly)^[n] 0#w = 0#w := iterate_fixed (shift_zero poly) n
      rw [List.foldl_cons, List.foldl_cons, ih, iterate_xor, ← iterate_succ_apply,
        iterate_succ_apply']
      cases b with
      | false => rw [if_neg Bool.false_ne_true, if_neg Bool.false_ne_true, hfixed]
      | true => rw [if_pos rfl, if_pos rfl]
  rw [times, hrun, iterate_fixed (shift_zero poly)]
  rfl

section Odd

variable {poly : BitVec w} (hodd : poly.getLsbD 0 = true)

include hodd

/-- Two errors are hidden exactly where the top bit comes round from one to the other. -/
theorem register_two_eq_zero_iff (p k q : Nat) :
    register poly 0#w (List.replicate p false ++ true :: (List.replicate k false ++
      true :: List.replicate q false)) = 0#w ↔
        minimalPeriod (shift poly) (BitVec.intMin w) ∣ k + 1 := by
  have hquiet : (shift poly)^[q + 1] 0#w = 0#w := iterate_fixed (shift_zero poly) (q + 1)
  rw [register_two, ← isPeriodicPt_iff_minimalPeriod_dvd]
  constructor
  · intro h
    exact BitVec.xor_eq_zero_iff.mp ((shift_injective hodd).iterate (q + 1) (h.trans hquiet.symm))
  · intro h
    rw [IsPeriodicPt, IsFixedPt] at h
    rw [h, BitVec.xor_self, hquiet]

end Odd

theorem eq_replicate_of_count_zero {bits : List Bool} (h : bits.count true = 0) :
    bits = List.replicate bits.length false := by
  apply List.eq_replicate_iff.mpr
  refine ⟨rfl, ?_⟩
  intro b hb
  cases b with
  | false => rfl
  | true => exact absurd hb (List.count_eq_zero.mp h)

theorem exists_first_error {bits : List Bool} {n : Nat} (h : bits.count true = n + 1) :
    ∃ p rest, bits = List.replicate p false ++ true :: rest ∧ rest.count true = n := by
  induction bits with
  | nil => exact absurd h (by simp)
  | cons b bits ih =>
    cases b with
    | true => exact ⟨0, bits, rfl, by simpa using h⟩
    | false =>
      obtain ⟨p, rest, hbits, hrest⟩ := ih (by simpa using h)
      exact ⟨p + 1, rest, by rw [hbits]; rfl, hrest⟩

theorem exists_two_errors {bits : List Bool} (h : bits.count true = 2) :
    ∃ p k q, bits = List.replicate p false ++ true :: (List.replicate k false ++
      true :: List.replicate q false) := by
  obtain ⟨p, rest, hbits, hrest⟩ := exists_first_error h
  obtain ⟨k, last, hlast, hnone⟩ := exists_first_error hrest
  exact ⟨p, k, last.length, by rw [hbits, hlast, ← eq_replicate_of_count_zero hnone]⟩

theorem length_errors {a b : List Bool} (hlen : a.length = b.length) :
    (errors a b).length = b.length := by
  rw [errors, List.length_zipWith, hlen, Nat.min_self]

theorem getElem_errors {a b : List Bool} (hlen : a.length = b.length) {k : Nat}
    (hk : k < (errors a b).length) : (errors a b)[k] = true ↔ a[k]? ≠ b[k]? := by
  rw [length_errors hlen] at hk
  have ha : k < a.length := by omega
  simp [errors, List.getElem?_eq_getElem ha, List.getElem?_eq_getElem hk]

theorem eq_of_errors_zero {a b : List Bool} (hlen : a.length = b.length)
    (h : (errors a b).count true = 0) : a = b := by
  apply List.ext_getElem?
  intro k
  cases Nat.lt_or_ge k (errors a b).length with
  | inl hk =>
    by_contra hne
    have htrue := (getElem_errors hlen hk).mpr hne
    exact List.count_eq_zero.mp h (htrue ▸ List.getElem_mem hk)
  | inr hk =>
    rw [length_errors hlen] at hk
    rw [List.getElem?_eq_none hk, List.getElem?_eq_none (hlen ▸ hk)]

/-- Two messages that differ in bits `i` and `j` only. -/
theorem errors_eq_two {a b : List Bool} (hlen : a.length = b.length) {i j : Nat} (hij : i < j)
    (hdiff : ∀ k, a[k]? ≠ b[k]? ↔ k = i ∨ k = j) :
    errors a b = List.replicate i false ++ true :: (List.replicate (j - i - 1) false ++
      true :: List.replicate (b.length - j - 1) false) := by
  have hj : j < b.length := by
    by_contra hge
    have hge := Nat.ge_of_not_lt hge
    have hne := (hdiff j).mpr (.inr rfl)
    rw [List.getElem?_eq_none hge, List.getElem?_eq_none (hlen ▸ hge)] at hne
    exact hne rfl
  apply List.ext_getElem
  · rw [length_errors hlen]
    simp only [List.length_append, List.length_cons, List.length_replicate]
    omega
  · intro k hk hk'
    rw [Bool.eq_iff_iff, getElem_errors hlen hk, hdiff]
    simp only [List.getElem_append, List.length_replicate, List.getElem_cons,
      List.getElem_replicate]
    split
    · simp
      omega
    · split
      · simp
        omega
      · split
        · simp
          omega
        · split
          · simp
            omega
          · simp
            omega

end ShiftRegister
