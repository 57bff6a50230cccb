import Mathlib.Data.Nat.Digits.Defs
import Mathlib.Tactic.Ring
import Wifimodem.Core.StrText

/-!
# The number a reader stores and the number that is written

The eight integer readers accumulate modulo `2 ^ 64` and check the range of
their type afterwards. A numeral is compared here with its mathematical value.
-/

namespace Wifimodem

inductive IntReader where
  | u8 | u16 | u32 | u64
  | i8 | i16 | i32 | i64
deriving DecidableEq, Repr

namespace IntReader

def signed : IntReader → Bool
  | .u8 | .u16 | .u32 | .u64 => false
  | .i8 | .i16 | .i32 | .i64 => true

def bits : IntReader → Nat
  | .u8 | .i8 => 8
  | .u16 | .i16 => 16
  | .u32 | .i32 => 32
  | .u64 | .i64 => 64

def min (k : IntReader) : Int := if k.signed then -2 ^ (k.bits - 1) else 0

def max (k : IntReader) : Int := if k.signed then 2 ^ (k.bits - 1) - 1 else 2 ^ k.bits - 1

/-- The string that is left, and the number stored when the call returns true. -/
def read (k : IntReader) (mem : Nat → UInt8) (s : Str) (r : Nat) : Str × Option Int :=
  match k with
  | .u8 => (s.readu8 mem r).value.map id (Option.map Int.ofNat)
  | .u16 => (s.readu16 mem r).value.map id (Option.map Int.ofNat)
  | .u32 => (s.readu32 mem r).value.map id (Option.map Int.ofNat)
  | .u64 => (s.readu64 mem r).value.map id fun (value, valid) => if valid then some ↑value else none
  | .i8 => (s.readi8 mem r).value
  | .i16 => (s.readi16 mem r).value
  | .i32 => (s.readi32 mem r).value
  | .i64 => (s.readi64 mem r).value

end IntReader

def radixOf (r : Nat) : Nat := if r > 0 then r else 10

/-- Whether there is a minus, and what is behind the sign. -/
def splitSign : List UInt8 → Bool × List UInt8
  | [] => (false, [])
  | c :: w => if c = '-' then (true, w) else if c = '+' then (false, w) else (false, c :: w)

namespace IntReader

/-- The sign that the reader takes, and the text after it. -/
def unsign (k : IntReader) (w : List UInt8) : Bool × List UInt8 :=
  if k.signed then splitSign w else (false, w)

def numeral (k : IntReader) (r : Nat) (w : List UInt8) : List UInt8 :=
  (k.unsign w).2.takeWhile (digitIn (radixOf r))

/-- The number that is written at the front of `w`, if there is one. -/
def written (k : IntReader) (r : Nat) (w : List UInt8) : Option Int :=
  if k.numeral r w = [] then none
  else if (k.unsign w).1 then some (-(digitsValue (radixOf r) (k.numeral r w)))
  else some (digitsValue (radixOf r) (k.numeral r w))

/-- The number that is left of `z` in 64 bits, with or without sign. -/
def wrap (k : IntReader) (z : Int) : Int := if k.signed then z.bmod (2 ^ 64) else z % 2 ^ 64

def InRange (k : IntReader) (z : Int) : Prop := k.min ≤ z ∧ z ≤ k.max

instance (k : IntReader) (z : Int) : Decidable (k.InRange z) := inferInstanceAs (Decidable (_ ∧ _))

end IntReader

theorem splitSign_suffix (w : List UInt8) : (splitSign w).2 <:+ w := by
  cases w with
  | nil => exact List.suffix_rfl
  | cons c w =>
    rw [splitSign]
    split
    · exact List.suffix_cons c w
    split
    · exact List.suffix_cons c w
    · exact List.suffix_rfl

theorem splitSign_eq (w : List UInt8) :
    splitSign w = if (strAccept w ['-']).2 then (true, (strAccept w ['-']).1)
      else (false, (strAccept w ['+']).1) := by
  cases w with
  | nil => rfl
  | cons c w =>
    rw [splitSign, strAccept_char (by decide), strAccept_char (by decide)]
    by_cases hminus : c = '-'
    · rw [if_pos hminus, if_pos hminus]
      rfl
    · rw [if_neg hminus, if_neg hminus]
      by_cases hplus : c = '+'
      · rw [if_pos hplus, if_pos hplus]
        rfl
      · rw [if_neg hplus, if_neg hplus]
        rfl

theorem asInt64_mod (v : Nat) : asInt64 (v % 2 ^ 64) = (v : Int).bmod (2 ^ 64) := by
  rw [asInt64, Int.bmod_def]
  split <;> split <;> omega

theorem asInt64_neg_mod (v : Nat) :
    asInt64 ((2 ^ 64 - v % 2 ^ 64) % 2 ^ 64) = (-(v : Int)).bmod (2 ^ 64) := by
  rw [asInt64, Int.bmod_def]
  split <;> split <;> omega

namespace Str

open Traced

variable (mem : Nat → UInt8) (s : Str)

theorem readSign_eq :
    (s.readSign mem).value = (s.after (splitSign (s.text mem)).2, (splitSign (s.text mem)).1) := by
  have hrest : (strAccept (s.text mem) ['-']).1 <:+ s.text mem := strAccept_suffix _ _
  have hsame : (strAccept (s.text mem) ['-']).2 = false →
      (strAccept (s.text mem) ['-']).1 = s.text mem := strAccept_same
  rw [readSign, value_bind, accept_eq, splitSign_eq, Pattern.text]
  cases hminus : (strAccept (s.text mem) ['-']).2 with
  | true => rfl
  | false =>
    rw [hsame hminus, after_text]
    simp only [Bool.false_eq_true, if_false, value_bind, accept_eq, Pattern.text]
    rfl

theorem readu64_after {rest : List UInt8} (hrest : rest <:+ s.text mem) {r : Nat} (hr : r ≤ 36) :
    ((s.after rest).readu64 mem r).value = (s.after (rest.dropWhile (digitIn (radixOf r))),
      digitsValue (radixOf r) (rest.takeWhile (digitIn (radixOf r))) % 2 ^ 64,
      !(rest.takeWhile (digitIn (radixOf r))).isEmpty) := by
  have hle : rest.length ≤ s.len := by
    rw [← length_text mem s]
    exact hrest.length_le
  rw [readu64_eq, text_after hrest, strReadu64_eq rest hr, ← radixOf,
    after_after (List.dropWhile_suffix _).length_le hle]

theorem readuMax_eq {r : Nat} (hr : r ≤ 36) (max : Nat) :
    (s.readuMax mem max r).value =
      (s.after ((s.text mem).dropWhile (digitIn (radixOf r))),
        if (s.text mem).takeWhile (digitIn (radixOf r)) = [] then none
        else if digitsValue (radixOf r) ((s.text mem).takeWhile (digitIn (radixOf r))) % 2 ^ 64 > max
          then none
        else some (digitsValue (radixOf r) ((s.text mem).takeWhile (digitIn (radixOf r))) % 2 ^ 64)) := by
  have hread := readu64_after mem s List.suffix_rfl hr
  rw [after_text] at hread
  rw [readuMax, value_bind, hread]
  cases (s.text mem).takeWhile (digitIn (radixOf r)) <;> rfl

theorem readi64_eq {r : Nat} (hr : r ≤ 36) :
    (s.readi64 mem r).value =
      (s.after ((splitSign (s.text mem)).2.dropWhile (digitIn (radixOf r))),
        (IntReader.i64.written r (s.text mem)).map fun z => z.bmod (2 ^ 64)) := by
  have hread := readu64_after mem s (splitSign_suffix (s.text mem)) hr
  have hsign : IntReader.i64.unsign (s.text mem) = splitSign (s.text mem) := rfl
  rw [readi64, value_bind, readSign_eq, IntReader.written, IntReader.numeral, hsign]
  simp only [value_bind, hread]
  generalize (splitSign (s.text mem)).2.takeWhile (digitIn (radixOf r)) = ds
  cases ds with
  | nil => rfl
  | cons c ds =>
    simp only [List.isEmpty_cons, Bool.not_false, if_true, reduceCtorEq, if_false, value_pure]
    cases (splitSign (s.text mem)).1 with
    | true => rw [if_pos rfl, if_pos rfl, asInt64_neg_mod, Option.map_some]
    | false =>
      rw [if_neg Bool.false_ne_true, if_neg Bool.false_ne_true, asInt64_mod, Option.map_some]

end Str

namespace IntReader

/-- What follows the numeral. -/
def rest (k : IntReader) (r : Nat) (w : List UInt8) : List UInt8 :=
  (k.unsign w).2.dropWhile (digitIn (radixOf r))

theorem inRange_emod {k : IntReader} (hk : k.signed = false) {max : Nat} (hmax : k.max = max)
    (v : Nat) : k.InRange ((v : Int) % 2 ^ 64) ↔ v % 2 ^ 64 ≤ max := by
  rw [InRange, hmax, IntReader.min, hk, if_neg Bool.false_ne_true]
  omega

theorem inRange_bmod (z : Int) : i64.InRange (z.bmod (2 ^ 64)) := by
  have hlo := @Int.le_bmod z (2 ^ 64) (by decide)
  have hhi := @Int.bmod_lt z (2 ^ 64) (by decide)
  have hmin : i64.min = -2 ^ 63 := rfl
  have hmax : i64.max = 2 ^ 63 - 1 := rfl
  rw [InRange, hmin, hmax]
  omega

variable (mem : Nat → UInt8) (s : Str) {r : Nat} (hr : r ≤ 36) {k : IntReader}

include hr

theorem read_unsigned (hk : k.signed = false) :
    k.read mem s r = (s.after (k.rest r (s.text mem)), (k.written r (s.text mem)).bind fun z =>
      if k.InRange (z % 2 ^ 64) then some (z % 2 ^ 64) else none) := by
  have hsign : k.unsign (s.text mem) = (false, s.text mem) := by
    rw [unsign, hk, if_neg Bool.false_ne_true]
  have hrange : ∀ max : Nat, k.max = max →
      ((s.readuMax mem max r).value.map id (Option.map Int.ofNat) : Str × Option Int) =
        (s.after (k.rest r (s.text mem)), (k.written r (s.text mem)).bind fun z =>
          if k.InRange (z % 2 ^ 64) then some (z % 2 ^ 64) else none) := by
    intro max hmax
    rw [Str.readuMax_eq mem s hr, rest, written, numeral, hsign]
    simp only [Bool.false_eq_true, if_false]
    generalize (s.text mem).takeWhile (digitIn (radixOf r)) = ds
    cases ds with
    | nil => rfl
    | cons c ds =>
      have hiff := inRange_emod hk hmax (digitsValue (radixOf r) (c :: ds))
      simp only [reduceCtorEq, if_false, Option.bind_some]
      by_cases hle : digitsValue (radixOf r) (c :: ds) % 2 ^ 64 ≤ max
      · rw [if_neg (Nat.not_lt.mpr hle), if_pos (hiff.mpr hle)]
        rfl
      · rw [if_pos (Nat.not_le.mp hle), if_neg (mt hiff.mp hle)]
        rfl
  cases k with
  | u8 => exact hrange _ rfl
  | u16 => exact hrange _ rfl
  | u32 => exact hrange _ rfl
  | u64 =>
    have hread := Str.readu64_after mem s List.suffix_rfl hr
    rw [Str.after_text] at hread
    rw [read, hread, rest, written, numeral, hsign]
    simp only [Bool.false_eq_true, if_false]
    generalize (s.text mem).takeWhile (digitIn (radixOf r)) = ds
    cases ds with
    | nil => rfl
    | cons c ds =>
      have hiff := inRange_emod hk (show u64.max = (2 ^ 64 - 1 : Nat) from rfl)
        (digitsValue (radixOf r) (c :: ds))
      simp only [reduceCtorEq, if_false, Option.bind_some]
      rw [if_pos (hiff.mpr (by omega))]
      rfl
  | i8 | i16 | i32 | i64 => cases hk

theorem read_signed (hk : k.signed = true) :
    k.read mem s r = (s.after (k.rest r (s.text mem)), (k.written r (s.text mem)).bind fun z =>
      if k.InRange (z.bmod (2 ^ 64)) then some (z.bmod (2 ^ 64)) else none) := by
  have hsign : k.unsign (s.text mem) = IntReader.i64.unsign (s.text mem) := by
    rw [unsign, hk]
    rfl
  have hread : (s.readi64 mem r).value = (s.after (k.rest r (s.text mem)),
      (k.written r (s.text mem)).map fun z => z.bmod (2 ^ 64)) := by
    rw [Str.readi64_eq mem s hr, rest, written, written, numeral, numeral, hsign]
    rfl
  generalize k.written r (s.text mem) = written at hread ⊢
  have hrange : ∀ lo hi : Int, (s.readiRange mem lo hi r).value =
      (s.after (k.rest r (s.text mem)), written.bind fun z =>
        if lo ≤ z.bmod (2 ^ 64) ∧ z.bmod (2 ^ 64) ≤ hi then some (z.bmod (2 ^ 64)) else none) := by
    intro lo hi
    rw [Str.readiRange, Traced.value_bind, hread]
    cases written with
    | none => rfl
    | some z =>
      simp only [Option.map_some, Traced.value_pure, Option.filter_some, Option.bind_some]
      by_cases hin : lo ≤ z.bmod (2 ^ 64) ∧ z.bmod (2 ^ 64) ≤ hi
      · rw [if_pos hin, if_pos (by simpa using hin)]
      · rw [if_neg hin, if_neg (by simpa using hin)]
  cases k with
  | u8 | u16 | u32 | u64 => cases hk
  | i8 => exact hrange _ _
  | i16 => exact hrange _ _
  | i32 => exact hrange _ _
  | i64 =>
    rw [read, hread]
    cases written with
    | none => rfl
    | some z => rw [Option.map_some, Option.bind_some, if_pos (inRange_bmod z)]

/-- The call returns true exactly when the written number, cut to 64 bits, is in
the range of the type, and then stores that. -/
theorem read_eq :
    k.read mem s r = (s.after (k.rest r (s.text mem)), (k.written r (s.text mem)).bind fun z =>
      if k.InRange (k.wrap z) then some (k.wrap z) else none) := by
  cases hk : k.signed with
  | false =>
    have hwrap : ∀ z, k.wrap z = z % 2 ^ 64 := by
      intro z
      rw [wrap, hk, if_neg Bool.false_ne_true]
    simp only [hwrap]
    exact read_unsigned mem s hr hk
  | true =>
    have hwrap : ∀ z, k.wrap z = z.bmod (2 ^ 64) := by
      intro z
      rw [wrap, hk, if_pos rfl]
    simp only [hwrap]
    exact read_signed mem s hr hk

end IntReader

namespace IntReader

variable {k : IntReader} {y z : Int}

theorem dvd_wrap_sub (k : IntReader) (z : Int) : 2 ^ 64 ∣ k.wrap z - z := by
  rw [wrap]
  split
  · exact Int.dvd_bmod_sub_self
  · exact Int.dvd_sub_self_of_emod_eq rfl

theorem bounds_of_inRange (h : k.InRange y) :
    (k.signed = true → -2 ^ 63 ≤ y ∧ y < 2 ^ 63) ∧ (k.signed = false → 0 ≤ y ∧ y < 2 ^ 64) := by
  rw [InRange] at h
  cases k <;> simp [IntReader.min, IntReader.max, signed, bits] at h ⊢ <;> omega

/-- A number of the type is what is left of every number congruent to it. -/
theorem wrap_eq (h : k.InRange y) (hdvd : 2 ^ 64 ∣ y - z) : k.wrap z = y := by
  obtain ⟨hsigned, hunsigned⟩ := bounds_of_inRange h
  have hwrap := dvd_wrap_sub k z
  rw [wrap] at hwrap ⊢
  cases hk : k.signed with
  | true =>
    have hlo := @Int.le_bmod z (2 ^ 64) (by decide)
    have hhi := @Int.bmod_lt z (2 ^ 64) (by decide)
    rw [hk, if_pos rfl] at hwrap
    rw [if_pos rfl]
    have hy := hsigned hk
    omega
  | false =>
    rw [if_neg Bool.false_ne_true]
    have hy := hunsigned hk
    omega

/-- Some other number of the type agrees with `z` in its lower 64 bits. -/
def Aliased (k : IntReader) (z : Int) : Prop := ∃ y, k.InRange y ∧ y ≠ z ∧ 2 ^ 64 ∣ y - z

/-- A number outside the range of the type is refused, and no number is stored but
the written one. -/
structure ReadsRight (k : IntReader) (mem : Nat → UInt8) (s : Str) (r : Nat) : Prop where
  outside : ∀ z, k.written r (s.text mem) = some z → ¬k.InRange z → (k.read mem s r).2 = none
  stored : ∀ v, (k.read mem s r).2 = some v → k.written r (s.text mem) = some v

theorem readsRight_iff (k : IntReader) (mem : Nat → UInt8) (s : Str) {r : Nat} (hr : r ≤ 36) :
    k.ReadsRight mem s r ↔ ∀ z, k.written r (s.text mem) = some z → ¬k.Aliased z := by
  have hread : (k.read mem s r).2 = (k.written r (s.text mem)).bind fun z =>
      if k.InRange (k.wrap z) then some (k.wrap z) else none := by rw [read_eq mem s hr]
  constructor
  · rintro ⟨_, hstored⟩ z hz ⟨y, hy, hne, hdvd⟩
    have hwrap := wrap_eq hy hdvd
    rw [hread, hz, Option.bind_some, hwrap, if_pos hy] at hstored
    exact hne (Option.some.inj (hstored y rfl)).symm
  · intro hall
    have hwrap : ∀ z, k.written r (s.text mem) = some z → k.InRange (k.wrap z) → k.wrap z = z := by
      intro z hz hin
      by_contra hne
      exact hall z hz ⟨k.wrap z, hin, hne, dvd_wrap_sub k z⟩
    constructor
    · intro z hz hout
      rw [hread, hz, Option.bind_some]
      apply if_neg
      intro hin
      rw [hwrap z hz hin] at hin
      exact hout hin
    · intro v hv
      rw [hread, Option.bind_eq_some_iff] at hv
      obtain ⟨z, hz, hzv⟩ := hv
      by_cases hin : k.InRange (k.wrap z)
      · rw [if_pos hin, hwrap z hz hin] at hzv
        rw [hz, hzv]
      · rw [if_neg hin] at hzv
        cases hzv

/-- A text on its own in memory. -/
def textAt (w : List UInt8) : Nat → UInt8 := fun a => w.getD a 0

theorem readsRight_255 : u8.ReadsRight (textAt ['2', '5', '5']) ⟨0, 3⟩ 0 := by
  apply (readsRight_iff u8 (textAt ['2', '5', '5']) ⟨0, 3⟩ (by decide)).mpr
  have hwritten : u8.written 0 (Str.text (textAt ['2', '5', '5']) ⟨0, 3⟩) = some 255 := by decide
  rintro z hz ⟨y, hy, hne, hdvd⟩
  rw [hwritten] at hz
  obtain rfl := Option.some.inj hz
  have hbounds : 0 ≤ y ∧ y ≤ 255 := hy
  omega

/-- The number `2 ^ 64` is read as zero. -/
theorem two_pow_64_read_as_zero :
    ¬u8.ReadsRight (textAt ['1', '8', '4', '4', '6', '7', '4', '4', '0', '7', '3', '7', '0', '9', '5',
      '5', '1', '6', '1', '6']) ⟨0, 20⟩ 0 := by
  rintro ⟨_, hstored⟩
  have hwritten := hstored 0 (by decide)
  revert hwritten
  decide

end IntReader

/-! ## Round trip -/

/-- Digits of the radix, in any mix of cases and with any leading zeros, that
stand for `n`. -/
structure IsNumeral (radix n : Nat) (ds : List UInt8) : Prop where
  ne_nil : ds ≠ []
  digits : ∀ c ∈ ds, digitIn radix c = true
  value : digitsValue radix ds = n

/-- The digits of `n`, the most significant one first. -/
def numeralDigits (radix n : Nat) : List Nat :=
  if n = 0 then [0] else (Nat.digits radix n).reverse

theorem numeralDigits_lt {radix : Nat} (hradix : 1 < radix) (n : Nat) :
    ∀ d ∈ numeralDigits radix n, d < radix := by
  intro d hd
  rw [numeralDigits] at hd
  split at hd
  · rw [List.mem_singleton] at hd
    omega
  · exact Nat.digits_lt_base hradix (List.mem_reverse.mp hd)

theorem foldl_numeralDigits (radix n : Nat) :
    (numeralDigits radix n).foldl (fun v d => v * radix + d) 0 = n := by
  rw [numeralDigits]
  split
  · rename_i hn
    rw [hn, List.foldl_cons, Nat.zero_mul]
    rfl
  · have hfold : ∀ ds : List Nat,
        ds.reverse.foldl (fun v d => v * radix + d) 0 = Nat.ofDigits radix ds := by
      intro ds
      induction ds with
      | nil => rfl
      | cons d ds ih =>
        rw [List.reverse_cons, List.foldl_append, ih, Nat.ofDigits_cons]
        simp only [List.foldl_cons, List.foldl_nil]
        ring
    rw [hfold, Nat.ofDigits_digits]

/-- However its digits are spelled. -/
theorem isNumeral_of_spells {radix : Nat} (hradix : 1 < radix) {n : Nat} {ds : List UInt8}
    (h : ds.map digitValue = (numeralDigits radix n).map some) : IsNumeral radix n ds := by
  have hvalue : ∀ v, ds.foldl (fun v c => v * radix + (digitValue c).getD 0) v =
      (numeralDigits radix n).foldl (fun v d => v * radix + d) v := by
    intro v
    have hmap : (ds.map digitValue).foldl (fun v d => v * radix + d.getD 0) v =
        ((numeralDigits radix n).map some).foldl (fun v d => v * radix + d.getD 0) v := by rw [h]
    rwa [List.foldl_map, List.foldl_map] at hmap
  constructor
  · rintro rfl
    rw [List.map_nil, eq_comm, List.map_eq_nil_iff, numeralDigits] at h
    split at h
    · cases h
    · rename_i hn
      exact hn (Nat.digits_eq_nil_iff_eq_zero.mp (List.reverse_eq_nil_iff.mp h))
  · intro c hc
    have hmem : digitValue c ∈ (numeralDigits radix n).map some := h ▸ List.mem_map_of_mem hc
    obtain ⟨d, hd, hdc⟩ := List.mem_map.mp hmem
    rw [digitIn, ← hdc, Option.any_some]
    exact decide_eq_true (numeralDigits_lt hradix n d hd)
  · rw [digitsValue, hvalue, foldl_numeralDigits]

theorem decimalValue_decimal (n : Nat) : decimalValue (decimal n) = n := by
  have hvalue : ∀ (cs : List Char) (v : Nat), (∀ c ∈ cs, c.toNat < 256) →
      (cs.map Char.toUInt8).foldl (fun v c => v * 10 + (c.toNat - 48)) v =
        Nat.ofDigitChars 10 cs v := by
    intro cs
    induction cs with
    | nil => exact fun v _ => Nat.ofDigitChars_nil.symm
    | cons c cs ih =>
      intro v hcs
      have hc : c.toUInt8.toNat = c.toNat := by
        rw [toUInt8_eq_ofNat, UInt8.toNat_ofNat']
        exact Nat.mod_eq_of_lt (hcs c List.mem_cons_self)
      rw [List.map_cons, List.foldl_cons, hc, Nat.ofDigitChars_cons, Nat.mul_comm v]
      exact ih _ fun c hc => hcs c (List.mem_cons_of_mem _ hc)
  have hsmall : ∀ c ∈ Nat.toDigits 10 n, c.toNat < 256 := by
    intro c hc
    have hdigit := Nat.isDigit_of_mem_toDigits (by decide) (by decide) hc
    simp only [Char.isDigit, Bool.and_eq_true, decide_eq_true_eq] at hdigit
    exact Nat.lt_of_le_of_lt hdigit.2 (by decide)
  rw [decimalValue, decimal, hvalue _ 0 hsmall, Nat.ofDigitChars_ten_toDigits]

theorem notMem_decimal {c : UInt8} (hc : isdigit c = false) (n : Nat) : c ∉ decimal n := by
  intro hmem
  rw [decimal_digits n c hmem] at hc
  cases hc

theorem isNumeral_decimal (n : Nat) : IsNumeral 10 n (decimal n) where
  ne_nil := decimal_ne_nil n
  digits := digitIn_ten ▸ decimal_digits n
  value := (digitsValue_ten (decimal_digits n)).trans (decimalValue_decimal n)

inductive NumSign where
  | none | plus | minus
deriving DecidableEq, Repr

namespace NumSign

def chars : NumSign → List UInt8
  | .none => []
  | .plus => ['+']
  | .minus => ['-']

def apply (n : Nat) : NumSign → Int
  | .none | .plus => n
  | .minus => -n

end NumSign

namespace IntReader

variable {k : IntReader} {sg : NumSign} {n : Nat} {x : Int} {ds sign tail : List UInt8} {r : Nat}

theorem splitSign_append {radix : Nat} (hds : IsNumeral radix n ds) :
    splitSign (sg.chars ++ ds ++ tail) = (decide (sg = .minus), ds ++ tail) := by
  obtain ⟨c, ds, rfl⟩ := List.exists_cons_of_ne_nil hds.ne_nil
  have hdigit := hds.digits c List.mem_cons_self
  cases sg with
  | none =>
    have hminus : c ≠ '-' := by
      rintro rfl
      cases hdigit
    have hplus : c ≠ '+' := by
      rintro rfl
      cases hdigit
    exact (if_neg hminus).trans (if_neg hplus)
  | plus => rfl
  | minus => rfl

theorem unsign_append {radix : Nat} (hsg : k.signed = true ∨ sg = .none)
    (hds : IsNumeral radix n ds) :
    k.unsign (sg.chars ++ ds ++ tail) = (decide (sg = .minus), ds ++ tail) := by
  rw [unsign]
  split
  · exact splitSign_append hds
  · rename_i hk
    obtain rfl := hsg.resolve_left hk
    rfl

theorem digits_append {radix : Nat} (hds : ∀ c ∈ ds, digitIn radix c = true)
    (htail : ∀ c ∈ tail.head?, digitIn radix c = false) :
    (ds ++ tail).takeWhile (digitIn radix) = ds ∧ (ds ++ tail).dropWhile (digitIn radix) = tail := by
  rw [List.takeWhile_append_of_pos hds, List.dropWhile_append_of_pos hds]
  cases tail with
  | nil => exact ⟨List.append_nil ds, rfl⟩
  | cons c tail =>
    have hc : ¬digitIn radix c = true := by rw [htail c rfl]; exact Bool.false_ne_true
    rw [List.takeWhile_cons_of_neg hc, List.dropWhile_cons_of_neg hc, List.append_nil]
    exact ⟨rfl, rfl⟩

theorem read_append (mem : Nat → UInt8) (s : Str) (hr : r ≤ 36) (hx : k.InRange (sg.apply n))
    (hsg : k.signed = true ∨ sg = .none) (hds : IsNumeral (radixOf r) n ds)
    (htail : ∀ c ∈ tail.head?, digitIn (radixOf r) c = false)
    (htext : s.text mem = sg.chars ++ ds ++ tail) :
    k.read mem s r = (s.after tail, some (sg.apply n)) := by
  have hunsign : k.unsign (s.text mem) = (decide (sg = .minus), ds ++ tail) := by
    rw [htext]
    exact unsign_append hsg hds
  obtain ⟨htake, hdrop⟩ := digits_append hds.digits htail
  have hrest : k.rest r (s.text mem) = tail := by rw [rest, hunsign, hdrop]
  have hwritten : k.written r (s.text mem) = some (sg.apply n) := by
    rw [written, numeral, hunsign, htake, if_neg hds.ne_nil, hds.value]
    cases sg <;> rfl
  have hwrap : k.wrap (sg.apply n) = sg.apply n := wrap_eq hx (by rw [Int.sub_self]; exact Int.dvd_zero _)
  rw [read_eq mem s hr, hwritten, hrest, Option.bind_some, hwrap, if_pos hx]

/-- The signs that may stand in front of the digits of `x`. -/
def SignOf (k : IntReader) (x : Int) (sign : List UInt8) : Prop :=
  if x < 0 then sign = [('-' : UInt8)] else sign = [] ∨ k.signed = true ∧ sign = [('+' : UInt8)]

theorem exists_numSign (hx : k.InRange x) (hsign : k.SignOf x sign) :
    ∃ sg : NumSign, sign = sg.chars ∧ sg.apply x.natAbs = x ∧ (k.signed = true ∨ sg = .none) := by
  rw [SignOf] at hsign
  split at hsign
  · rename_i hneg
    have habs : -(x.natAbs : Int) = x := by omega
    have hk : k.signed = true := by
      cases hk : k.signed with
      | true => rfl
      | false => exact absurd ((bounds_of_inRange hx).2 hk).1 (Int.not_le.mpr hneg)
    exact ⟨.minus, hsign, habs, .inl hk⟩
  · rename_i hnonneg
    have habs : (x.natAbs : Int) = x := by omega
    obtain hsign | ⟨hk, hsign⟩ := hsign
    · exact ⟨.none, hsign, habs, .inr rfl⟩
    · exact ⟨.plus, hsign, habs, .inl hk⟩

/-- Reading back a number of the type: true, the number, and exactly the tail. -/
theorem read_numeral (mem : Nat → UInt8) (s : Str) (hr : r ≤ 36) (hx : k.InRange x)
    (hsign : k.SignOf x sign) (hds : IsNumeral (radixOf r) x.natAbs ds)
    (htail : ∀ c ∈ tail.head?, digitIn (radixOf r) c = false)
    (htext : s.text mem = sign ++ ds ++ tail) :
    (k.read mem s r).2 = some x ∧ (k.read mem s r).1.text mem = tail := by
  obtain ⟨sg, rfl, hsg, hk⟩ := exists_numSign hx hsign
  have hread := read_append mem s hr (hsg.symm ▸ hx) hk hds htail htext
  rw [hsg] at hread
  rw [hread]
  constructor
  · exact rfl
  · apply Str.text_after
    rw [htext]
    exact List.suffix_append _ _

/-- The most negative number, in front of a letter that is no digit. -/
theorem read_most_negative :
    (i8.read (textAt ['-', '8', '0', 'g']) ⟨0, 4⟩ 16).2 = some (-128) ∧
      Str.text (textAt ['-', '8', '0', 'g'])
        (i8.read (textAt ['-', '8', '0', 'g']) ⟨0, 4⟩ 16).1 = [('g' : UInt8)] := by
  apply @read_numeral i8 (-128) ['8', '0'] ['-'] ['g'] 16
  · decide
  · decide
  · rw [SignOf, if_pos (by decide)]
  · exact ⟨by decide, List.forall_mem_cons.mpr ⟨rfl, List.forall_mem_singleton.mpr rfl⟩, by decide⟩
  · intro c hc
    cases hc
    rfl
  · decide

end IntReader

end Wifimodem
