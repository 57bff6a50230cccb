import Mathlib.Algebra.Field.Rat
import Mathlib.Tactic.Linarith
import Mathlib.Tactic.NormNum
import Wifimodem.Core.StrNumber

/-!
# Decimal fractions

`str_readf64` over exact rationals. It assembles the number from three integers
that are read one after the other.
-/

namespace Wifimodem

namespace Str

section
variable (mem : Nat → UInt8)

/-- The fraction as an integer, and the number of its digits. -/
def readFraction (s : Str) : Traced Access (Str × Nat × Int) := do
  let (s, point) ← accept mem s (.literal ['.'])
  if point then
    let (rest, f, valid) ← readu64 mem s 0
    pure (rest, f, if valid then (s.len : Int) - rest.len else 0)
  else pure (s, 0, 0)

def acceptExponent (s : Str) : Traced Access (Str × Bool) := do
  let (s, lower) ← accept mem s (.literal ['e'])
  if lower then pure (s, true) else accept mem s (.literal ['E'])

/-- No exponent counts as zero. -/
def readExponent (s : Str) : Traced Access (Str × Option Int) := do
  let (s, found) ← acceptExponent mem s
  if found then readi64 mem s 0 else pure (s, some 0)

def readScaled (i : Int) (s : Str) : Traced Access (Str × Option ℚ) := do
  let (s, f, c) ← readFraction mem s
  let (s, e) ← readExponent mem s
  pure (s, e.map fun e => (i + f * 10 ^ (-c)) * 10 ^ e)

def readf64 (s : Str) : Traced Access (Str × Option ℚ) := do
  let (s, i) ← readi64 mem s 0
  match i with
  | none => pure (s, none)
  | some i => readScaled mem i s

end

end Str

/-! ## Decimal texts -/

structure DigitGroup where
  chars : List UInt8
  ne_nil : chars ≠ []
  digits : ∀ c ∈ chars, isdigit c = true
  fits : decimalValue chars < 2 ^ 63

structure ExponentText where
  upper : Bool
  sign : NumSign
  group : DigitGroup

structure DecimalText where
  sign : NumSign
  int : DigitGroup
  frac : Option DigitGroup
  exp : Option ExponentText

def DigitGroup.num (g : DigitGroup) : Nat := decimalValue g.chars

namespace ExponentText

def chars (e : ExponentText) : List UInt8 :=
  (if e.upper then 'E' else 'e') :: (e.sign.chars ++ e.group.chars)

def num (e : ExponentText) : Int := e.sign.apply e.group.num

end ExponentText

namespace DecimalText

def expChars (d : DecimalText) : List UInt8 := d.exp.elim [] ExponentText.chars

def fracChars (d : DecimalText) : List UInt8 := d.frac.elim [] fun g => '.' :: g.chars

def chars (d : DecimalText) : List UInt8 :=
  d.sign.chars ++ d.int.chars ++ (d.fracChars ++ d.expChars)

def fraction (d : DecimalText) : ℚ := d.frac.elim 0 fun g => g.num / 10 ^ g.chars.length

def fracNum (d : DecimalText) : Nat := d.frac.elim 0 DigitGroup.num

def fracLen (d : DecimalText) : Int := d.frac.elim 0 fun g => (g.chars.length : Int)

def exponent (d : DecimalText) : Int := d.exp.elim 0 ExponentText.num

/-- The number a text denotes; the sign is that of the whole mantissa. -/
def value (d : DecimalText) : ℚ :=
  (d.sign.apply 1 : ℚ) * (d.int.num + d.fraction) * 10 ^ d.exponent

end DecimalText

theorem expChars_head (d : DecimalText) : ∀ c ∈ d.expChars.head?, c = 'e' ∨ c = 'E' := by
  intro c hc
  rw [DecimalText.expChars] at hc
  cases hexp : d.exp with
  | none =>
    rw [hexp] at hc
    cases hc
  | some e =>
    rw [hexp] at hc
    obtain rfl := Option.some.inj hc
    cases e.upper
    · exact .inl rfl
    · exact .inr rfl

theorem behind_head (d : DecimalText) : ∀ c ∈ (d.fracChars ++ d.expChars).head?, isdigit c = false := by
  intro c hc
  rw [DecimalText.fracChars] at hc
  cases hfrac : d.frac with
  | none =>
    rw [hfrac] at hc
    obtain rfl | rfl := expChars_head d c hc
    · decide
    · decide
  | some g =>
    rw [hfrac] at hc
    obtain rfl := Option.some.inj hc
    decide

theorem DigitGroup.isNumeral (g : DigitGroup) : IsNumeral (radixOf 0) g.num g.chars := by
  constructor
  · exact g.ne_nil
  · rw [radixOf, if_neg (Nat.lt_irrefl 0), digitIn_ten]
    exact g.digits
  · exact digitsValue_ten g.digits

theorem NumSign.inRange (sg : NumSign) (g : DigitGroup) : IntReader.i64.InRange (sg.apply g.num) := by
  have hfits : g.num < 2 ^ 63 := g.fits
  have hmin : IntReader.i64.min = -2 ^ 63 := rfl
  have hmax : IntReader.i64.max = 2 ^ 63 - 1 := rfl
  rw [IntReader.InRange, hmin, hmax]
  cases sg <;> simp only [NumSign.apply] <;> omega

namespace Str

open Traced

variable {mem : Nat → UInt8} {s : Str} {rest tail : List UInt8}

theorem length_le_of_suffix (h : rest <:+ s.text mem) : rest.length ≤ s.len := by
  rw [← length_text mem s]
  exact h.length_le

theorem readi64_group (sg : NumSign) (g : DigitGroup) (hrest : sg.chars ++ g.chars ++ tail <:+ s.text mem)
    (htail : ∀ c ∈ tail.head?, isdigit c = false) :
    ((s.after (sg.chars ++ g.chars ++ tail)).readi64 mem 0).value =
      (s.after tail, some (sg.apply g.num)) := by
  have hread := @IntReader.read_append .i64 sg g.num g.chars tail 0 mem
    (s.after (sg.chars ++ g.chars ++ tail)) (Nat.zero_le 36) (sg.inRange g) (.inl rfl) g.isNumeral
    (by rwa [radixOf, if_neg (Nat.lt_irrefl 0), digitIn_ten]) (text_after hrest)
  have hle : tail.length ≤ (sg.chars ++ g.chars ++ tail).length := (List.suffix_append _ _).length_le
  rw [after_after hle (length_le_of_suffix hrest)] at hread
  exact hread

theorem readu64_group (g : DigitGroup) (hrest : g.chars ++ tail <:+ s.text mem)
    (htail : ∀ c ∈ tail.head?, isdigit c = false) :
    ((s.after (g.chars ++ tail)).readu64 mem 0).value = (s.after tail, g.num, true) := by
  have hfits : g.num < 2 ^ 63 := g.fits
  obtain ⟨htake, hdrop⟩ := IntReader.digits_append g.isNumeral.digits
    (by rwa [radixOf, if_neg (Nat.lt_irrefl 0), digitIn_ten])
  rw [readu64_after mem s hrest (Nat.zero_le 36), htake, hdrop, g.isNumeral.value,
    Nat.mod_eq_of_lt (by omega)]
  cases hds : g.chars with
  | nil => exact absurd hds g.ne_nil
  | cons c ds => rfl

theorem accept_char {a : UInt8} (ha : a ≠ 0) {c : UInt8} (hrest : c :: rest <:+ s.text mem) :
    ((s.after (c :: rest)).accept mem (.literal [a])).value =
      if c = a then (s.after rest, true) else (s.after (c :: rest), false) := by
  have hle := length_le_of_suffix hrest
  rw [accept_eq, text_after hrest, Pattern.text, strAccept_char ha]
  split
  · rw [after_after (Nat.le_succ _) hle]
  · rw [after_after (Nat.le_refl _) hle]

theorem accept_other {a : UInt8} (ha : a ≠ 0) (hrest : rest <:+ s.text mem)
    (hhead : ∀ c ∈ rest.head?, c ≠ a) :
    ((s.after rest).accept mem (.literal [a])).value = (s.after rest, false) := by
  cases rest with
  | nil =>
    rw [accept_eq]
    rfl
  | cons c rest => rw [accept_char ha hrest, if_neg (hhead c rfl)]

theorem acceptExponent_cons {m : UInt8} (hm : m = 'e' ∨ m = 'E') (hrest : m :: rest <:+ s.text mem) :
    ((s.after (m :: rest)).acceptExponent mem).value = (s.after rest, true) := by
  rw [acceptExponent, value_bind, accept_char (by decide) hrest]
  obtain rfl | rfl := hm
  · rw [if_pos rfl]
    rfl
  · rw [if_neg (by decide)]
    simp only [Bool.false_eq_true, if_false]
    rw [accept_char (by decide) hrest, if_pos rfl]

theorem readExponent_eq (d : DecimalText) (hrest : d.expChars <:+ s.text mem) :
    ((s.after d.expChars).readExponent mem).value = (s.after [], some d.exponent) := by
  rw [readExponent]
  cases hexp : d.exp with
  | none =>
    have hchars : d.expChars = [] := by rw [DecimalText.expChars, hexp]; rfl
    rw [hchars] at hrest ⊢
    have hlower := @accept_other mem s [] 'e' (by decide) hrest (by simp)
    have hupper := @accept_other mem s [] 'E' (by decide) hrest (by simp)
    rw [value_bind, acceptExponent, value_bind, hlower]
    simp only [Bool.false_eq_true, if_false, hupper, value_pure]
    rw [DecimalText.exponent, hexp]
    rfl
  | some e =>
    have hchars : d.expChars =
        (if e.upper then ('E' : UInt8) else 'e') :: (e.sign.chars ++ e.group.chars ++ []) := by
      rw [DecimalText.expChars, hexp, List.append_nil]
      rfl
    have hnum : d.exponent = e.sign.apply e.group.num := by
      rw [DecimalText.exponent, hexp]
      rfl
    rw [hchars] at hrest ⊢
    have hgroup := readi64_group e.sign e.group ((List.suffix_cons _ _).trans hrest) (by simp)
    have hmarker : (if e.upper then ('E' : UInt8) else 'e') = 'e' ∨
        (if e.upper then ('E' : UInt8) else 'e') = 'E' := by
      cases e.upper
      · exact .inl rfl
      · exact .inr rfl
    rw [value_bind, acceptExponent_cons hmarker hrest]
    simp only [if_true, hgroup, hnum]

theorem readFraction_eq (d : DecimalText) (hrest : d.fracChars ++ d.expChars <:+ s.text mem) :
    ((s.after (d.fracChars ++ d.expChars)).readFraction mem).value =
      (s.after d.expChars, d.fracNum, d.fracLen) := by
  rw [readFraction, DecimalText.fracNum, DecimalText.fracLen]
  cases hfrac : d.frac with
  | none =>
    have hchars : d.fracChars ++ d.expChars = d.expChars := by
      rw [DecimalText.fracChars, hfrac]
      rfl
    rw [hchars] at hrest ⊢
    rw [value_bind, accept_other (by decide) hrest]
    · rfl
    · intro c hc
      obtain rfl | rfl := expChars_head d c hc
      · decide
      · decide
  | some g =>
    have hchars : d.fracChars ++ d.expChars = ('.' : UInt8) :: (g.chars ++ d.expChars) := by
      rw [DecimalText.fracChars, hfrac]
      rfl
    rw [hchars] at hrest ⊢
    have hgroup := readu64_group g ((List.suffix_cons _ _).trans hrest) (by
      intro c hc
      obtain rfl | rfl := expChars_head d c hc
      · decide
      · decide)
    rw [value_bind, accept_char (by decide) hrest]
    simp only [if_true, value_bind, hgroup, value_pure]
    have hlen : ((s.after (g.chars ++ d.expChars)).len : Int) - (s.after d.expChars).len =
        g.chars.length := by
      simp only [after, List.length_append]
      omega
    rw [hlen]
    rfl

theorem readf64_eq (d : DecimalText) (htext : s.text mem = d.chars) :
    (s.readf64 mem).value = (s.after [],
      some (((d.sign.apply d.int.num : Int) + (d.fracNum : ℚ) * 10 ^ (-d.fracLen)) *
        10 ^ d.exponent)) := by
  have hwhole : d.sign.chars ++ d.int.chars ++ (d.fracChars ++ d.expChars) <:+ s.text mem := by
    rw [htext]
    exact List.suffix_rfl
  have hint := readi64_group d.sign d.int hwhole (behind_head d)
  rw [← DecimalText.chars, ← htext, after_text] at hint
  have hbehind : d.fracChars ++ d.expChars <:+ s.text mem := (List.suffix_append _ _).trans hwhole
  have hexp : d.expChars <:+ s.text mem := (List.suffix_append _ _).trans hbehind
  rw [readf64, value_bind, hint]
  simp only [readScaled, value_bind, readFraction_eq d hbehind, readExponent_eq d hexp, value_pure]
  rfl

end Str

theorem fraction_eq (d : DecimalText) : d.fraction = (d.fracNum : ℚ) * 10 ^ (-d.fracLen) := by
  rw [DecimalText.fraction, DecimalText.fracNum, DecimalText.fracLen]
  cases d.frac with
  | none => simp
  | some g =>
    simp only [Option.elim_some]
    rw [zpow_neg, zpow_natCast, div_eq_mul_inv]

theorem fraction_eq_zero_iff (d : DecimalText) : d.fraction = 0 ↔ d.fracNum = 0 := by
  have hpow : (10 : ℚ) ^ (-d.fracLen) ≠ 0 := zpow_ne_zero _ (by norm_num)
  rw [fraction_eq, mul_eq_zero, Nat.cast_eq_zero]
  exact or_iff_left hpow

/-- The sign is applied to the integer part alone. -/
theorem readf64_value_iff {mem : Nat → UInt8} {s : Str} (d : DecimalText)
    (htext : s.text mem = d.chars) :
    (s.readf64 mem).value.2 = some d.value ↔ (d.sign = .minus → d.fracNum = 0) := by
  have hpow : (10 : ℚ) ^ d.exponent ≠ 0 := zpow_ne_zero _ (by norm_num)
  rw [Str.readf64_eq d htext, Option.some.injEq, ← fraction_eq, ← fraction_eq_zero_iff,
    DecimalText.value, mul_left_inj' hpow]
  cases d.sign with
  | none | plus =>
    refine iff_of_true ?_ (fun h => nomatch h)
    simp [NumSign.apply]
  | minus =>
    simp only [NumSign.apply, forall_true_left]
    push_cast
    constructor
    · intro h
      linarith
    · intro h
      rw [h]
      ring

def fiveTenths (sign : NumSign) : DecimalText where
  sign := sign
  int := ⟨['0'], by decide, List.forall_mem_singleton.mpr rfl, by decide⟩
  frac := some ⟨['5'], by decide, List.forall_mem_singleton.mpr rfl, by decide⟩
  exp := none

theorem readf64_plus_half :
    (Str.readf64 (IntReader.textAt ['+', '0', '.', '5']) ⟨0, 4⟩).value.2 =
      some (fiveTenths .plus).value := by
  apply (readf64_value_iff (fiveTenths .plus) (by decide)).mpr
  exact fun h => nomatch h

/-- The text `-0.5` is read as one half. -/
theorem readf64_minus_half :
    Str.text (IntReader.textAt ['-', '0', '.', '5']) ⟨0, 4⟩ = (fiveTenths .minus).chars ∧
      (Str.readf64 (IntReader.textAt ['-', '0', '.', '5']) ⟨0, 4⟩).value.2 ≠
        some (fiveTenths .minus).value := by
  have htext : Str.text (IntReader.textAt ['-', '0', '.', '5']) ⟨0, 4⟩ = (fiveTenths .minus).chars := by
    decide
  refine ⟨htext, ?_⟩
  have hint : (fiveTenths .minus).int.num = 0 := by decide
  have hfrac : (fiveTenths .minus).fracNum = 5 := by decide
  have hlen : (fiveTenths .minus).fracLen = 1 := rfl
  have hexp : (fiveTenths .minus).exponent = 0 := rfl
  have hsign : (fiveTenths .minus).sign = .minus := rfl
  rw [Str.readf64_eq (fiveTenths .minus) htext, DecimalText.value, fraction_eq, hint, hfrac, hlen,
    hexp, hsign]
  norm_num [NumSign.apply]

end Wifimodem
