import Mathlib.Data.List.GetD
import Mathlib.Logic.Function.Iterate

/-!
# Linear feedback shift registers

A register of `w` bits takes one bit of a message at a time, at its most
significant end, and is shifted left with the feedback `poly`. The register is
linear in exclusive or, and with an odd `poly` it loses no information.
-/

namespace ShiftRegister

variable {w : Nat}

def shift (poly c : BitVec w) : BitVec w := if c.msb then c <<< 1 ^^^ poly else c <<< 1

/-- The bits of a message at the upper end of a register, the first one on top. -/
def top (w : Nat) : List Bool → BitVec w
  | [] => 0#w
  | b :: bs => (if b then BitVec.intMin w else 0#w) ^^^ top w bs >>> 1

def feed (poly c : BitVec w) (b : Bool) : BitVec w :=
  shift poly (c ^^^ if b then BitVec.intMin w else 0#w)

def register (poly : BitVec w) (c : BitVec w) (bits : List Bool) : BitVec w :=
  bits.foldl (feed poly) c

theorem shift_xor (poly c d : BitVec w) :
    shift poly (c ^^^ d) = shift poly c ^^^ shift poly d := by
  rw [shift, shift, shift, BitVec.msb_xor, BitVec.shiftLeft_xor_distrib]
  cases c.msb <;> cases d.msb
  · rfl
  · exact BitVec.xor_assoc _ _ _
  · rw [Bool.true_xor, Bool.not_false, if_pos rfl, if_pos rfl, if_neg Bool.false_ne_true]
    ac_rfl
  · rw [Bool.true_xor, Bool.not_true, if_pos rfl, if_pos rfl, if_neg Bool.false_ne_true,
      BitVec.xor_assoc, BitVec.xor_comm poly, BitVec.xor_assoc, BitVec.xor_self, BitVec.xor_zero]

theorem msb_ushiftRight_one (x : BitVec w) : (x >>> 1).msb = false := by
  cases w with
  | zero => rw [BitVec.of_length_zero (x := x)]; rfl
  | succ w =>
    rw [BitVec.msb_eq_getLsbD_last, BitVec.getLsbD_ushiftRight]
    exact BitVec.getLsbD_of_ge x _ (by omega)

/-- Bit `i` from the top is bit `i` of the message. -/
theorem getMsbD_top (bits : List Bool) (i : Nat) (hi : i < w) :
    (top w bits).getMsbD i = bits.getD i false := by
  induction bits generalizing i with
  | nil => exact BitVec.getMsbD_zero
  | cons b bits ih =>
    have hfirst : (if b then BitVec.intMin w else 0#w).getMsbD i = (b && decide (i = 0)) := by
      cases b with
      | false => exact BitVec.getMsbD_zero
      | true => rw [if_pos rfl, BitVec.getMsbD_intMin, decide_eq_true (by omega)]
    rw [top, BitVec.getMsbD_xor, hfirst, BitVec.getMsbD_ushiftRight]
    cases i with
    | zero => simp
    | succ i =>
      have hrest := ih i (by omega)
      simpa [hi] using hrest

theorem getLsbD_top (bits : List Bool) (h : bits.length < w) :
    (top w bits).getLsbD 0 = false := by
  rw [BitVec.getLsbD_eq_getMsbD, getMsbD_top bits _ (by omega), List.getD_eq_default _ _ (by omega),
    Bool.and_false]

/-- Room at the lower end: nothing is fed back when the register was just
shifted the other way. -/
theorem shift_ushiftRight (poly x : BitVec w) (hx : x.getLsbD 0 = false) :
    shift poly (x >>> 1) = x := by
  rw [shift, msb_ushiftRight_one, if_neg Bool.false_ne_true]
  apply BitVec.eq_of_getLsbD_eq
  intro i hi
  rw [BitVec.getLsbD_shiftLeft, BitVec.getLsbD_ushiftRight]
  cases i with
  | zero => simp [hx]
  | succ i =>
    rw [show 1 + (i + 1 - 1) = i + 1 by omega]
    simp [hi]

theorem top_injective {a b : List Bool} (hlen : a.length = b.length) (hw : a.length ≤ w)
    (h : top w a = top w b) : a = b := by
  apply List.ext_getElem hlen
  intro i ha hb
  rw [← List.getD_eq_getElem a false ha, ← List.getD_eq_getElem b false hb,
    ← @getMsbD_top w a i (by omega), ← @getMsbD_top w b i (by omega), h]

/-- Feeding at most `w` bits one by one is one exclusive or and as many shifts. -/
theorem register_eq_shifts (poly c : BitVec w) (bits : List Bool) (hw : bits.length ≤ w) :
    register poly c bits = (shift poly)^[bits.length] (c ^^^ top w bits) := by
  induction bits generalizing c with
  | nil => rw [register, List.foldl_nil, top, BitVec.xor_zero]; rfl
  | cons b bits ih =>
    rw [List.length_cons] at hw
    have hlow : (top w bits).getLsbD 0 = false := getLsbD_top bits (by omega)
    have htop : feed poly c b ^^^ top w bits = shift poly (c ^^^ top w (b :: bits)) := by
      rw [top, ← BitVec.xor_assoc, shift_xor, shift_ushiftRight poly _ hlow, feed]
    have hrun := ih (feed poly c b) (by omega)
    rw [register, List.foldl_cons, List.length_cons, Function.iterate_succ_apply, ← htop, ← hrun]
    rfl

theorem register_append (poly c : BitVec w) (p q : List Bool) :
    register poly c (p ++ q) = register poly (register poly c p) q :=
  List.foldl_append

theorem shift_zero (poly : BitVec w) : shift poly 0#w = 0#w := by
  have hself := shift_xor poly 0#w 0#w
  rwa [BitVec.xor_self, BitVec.xor_self] at hself

/-- A register that is fed its own contents is left empty. -/
theorem register_self (poly c : BitVec w) (bits : List Bool) (hw : bits.length ≤ w)
    (hbits : top w bits = c) : register poly c bits = 0#w := by
  rw [register_eq_shifts poly c bits hw, hbits, BitVec.xor_self]
  exact Function.iterate_fixed (shift_zero poly) _

section Odd

variable {poly : BitVec w} (hodd : poly.getLsbD 0 = true)

include hodd

theorem eq_zero_of_shift {x : BitVec w} (hx : shift poly x = 0#w) : x = 0#w := by
  have hbits : ∀ i, (shift poly x).getLsbD i = false := by
    intro i
    rw [hx]
    exact BitVec.getLsbD_zero
  rw [shift] at hbits
  cases hm : x.msb with
  | true =>
    rw [hm, if_pos rfl] at hbits
    have hlow := hbits 0
    rw [BitVec.getLsbD_xor, hodd, BitVec.getLsbD_shiftLeft] at hlow
    simp at hlow
  | false =>
    rw [hm, if_neg Bool.false_ne_true] at hbits
    apply BitVec.eq_of_getLsbD_eq
    intro i hi
    rw [BitVec.getLsbD_zero]
    rcases Nat.lt_or_ge (i + 1) w with hlt | hge
    · have hi := hbits (i + 1)
      rw [BitVec.getLsbD_shiftLeft] at hi
      simpa [hlt] using hi
    · rw [BitVec.msb_eq_getLsbD_last] at hm
      rwa [show i = w - 1 by omega]

theorem shift_injective : Function.Injective (shift poly) := by
  intro c d h
  apply BitVec.xor_eq_zero_iff.mp
  apply eq_zero_of_shift hodd
  rw [shift_xor, h, BitVec.xor_self]

theorem feed_injective (b : Bool) : Function.Injective fun c => feed poly c b := by
  intro c d h
  exact (BitVec.xor_left_inj _).mp (shift_injective hodd h)

/-- The bits that follow never bring two different registers together. -/
theorem register_injective (bits : List Bool) :
    Function.Injective fun c => register poly c bits := by
  induction bits with
  | nil => exact fun _ _ h => h
  | cons b bits ih => exact fun _ _ h => feed_injective hodd b (ih h)

theorem register_ne_of_burst (c : BitVec w) (p s : List Bool) {u v : List Bool}
    (hlen : u.length = v.length) (hw : u.length ≤ w) (hne : u ≠ v) :
    register poly c (p ++ u ++ s) ≠ register poly c (p ++ v ++ s) := by
  intro h
  rw [register_append, register_append, register_append, register_append] at h
  have hburst := register_injective hodd s h
  rw [register_eq_shifts poly _ u hw, register_eq_shifts poly _ v (hlen ▸ hw), hlen] at hburst
  have htop := (shift_injective hodd).iterate _ hburst
  exact hne (top_injective hlen hw ((BitVec.xor_right_inj _).mp htop))

/-- Two messages that differ only inside a window of `w` bits leave the register
in different states. -/
theorem register_ne_of_window (c : BitVec w) {a b : List Bool} (hlen : a.length = b.length)
    (hne : a ≠ b) (start : Nat)
    (hwin : ∀ i, a[i]? ≠ b[i]? → start ≤ i ∧ i < start + w) :
    register poly c a ≠ register poly c b := by
  have hsplit : ∀ l : List Bool,
      l = l.take start ++ (l.drop start).take w ++ (l.drop start).drop w := by
    intro l
    rw [List.append_assoc, List.take_append_drop, List.take_append_drop]
  have hbefore : a.take start = b.take start := by
    apply List.ext_getElem?
    intro i
    rw [List.getElem?_take, List.getElem?_take]
    by_cases hi : i < start
    · rw [if_pos hi, if_pos hi]
      by_contra hab
      have := (hwin i hab).1
      omega
    · rw [if_neg hi, if_neg hi]
  have hafter : (a.drop start).drop w = (b.drop start).drop w := by
    apply List.ext_getElem?
    intro i
    rw [List.drop_drop, List.drop_drop, List.getElem?_drop, List.getElem?_drop]
    by_contra hab
    have := (hwin _ hab).2
    omega
  have hmid : (a.drop start).take w ≠ (b.drop start).take w := by
    intro hmid
    apply hne
    rw [hsplit a, hsplit b, hbefore, hafter, hmid]
  rw [hsplit a, hsplit b, hbefore, hafter]
  apply register_ne_of_burst hodd
  · rw [List.length_take, List.length_take, List.length_drop, List.length_drop, hlen]
  · exact List.length_take_le _ _
  · exact hmid

end Odd

end ShiftRegister
