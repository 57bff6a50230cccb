import Mathlib.Data.List.TakeWhile
import Wifimodem.Core.Types

/-!
# Counted strings

A `str` is the list of its characters. A function that removes characters from
the front of its argument returns the rest along with its result.
-/

namespace Wifimodem

def strLtrim (s : List UInt8) : List UInt8 := s.dropWhile isspace

def strSkip (s : List UInt8) (num : Nat) : List UInt8 := s.drop num

def tolower (c : UInt8) : UInt8 := if 'A' ≤ c ∧ c ≤ 'Z' then c + 32 else c

/-- `strncmp` and `strncasecmp` on as many characters as `p` has: whether they
find no difference. A zero ends both strings. -/
def strnEq (fold : UInt8 → UInt8) : List UInt8 → List UInt8 → Bool
  | _, [] => true
  | [], _ :: _ => false
  | a :: s, b :: p => fold a = fold b && (a = 0 || strnEq fold s p)

def strMatch (s p : List UInt8) : Bool := if p.length > s.length then false else strnEq id s p

def strMatchi (s p : List UInt8) : Bool :=
  if p.length > s.length then false else strnEq tolower s p

/-- The index of the first entry that matches; an empty entry ends the table. -/
def strMatchTable (matcher : List UInt8 → List UInt8 → Bool) (s : List UInt8) :
    Nat → List (List UInt8) → Int
  | _, [] => -1
  | i, p :: ps =>
    if p.length = 0 then -1
    else if matcher s p then i
    else strMatchTable matcher s (i + 1) ps

def strMatchv (s : List UInt8) (p : List (List UInt8)) : Int := strMatchTable strMatch s 0 p

def strMatchiv (s : List UInt8) (p : List (List UInt8)) : Int := strMatchTable strMatchi s 0 p

def strAccept (s p : List UInt8) : List UInt8 × Bool :=
  if strMatch s p then (strSkip s p.length, true) else (s, false)

theorem strLtrim_space {sp : List UInt8} (hsp : ∀ c ∈ sp, isspace c = true) (w : List UInt8) :
    strLtrim (sp ++ w) = strLtrim w := List.dropWhile_append_of_pos hsp

theorem strnEq_fold_iff {fold : UInt8 → UInt8} (hfold : ∀ c, fold c = 0 ↔ c = 0)
    {s p : List UInt8} (hp : 0 ∉ p) :
    strnEq fold s p = true ↔ p.map fold <+: s.map fold := by
  induction p generalizing s with
  | nil =>
    have hnil : strnEq fold s [] = true := by
      rw [strnEq]
    simp [hnil]
  | cons b p ih =>
    have hb : fold b ≠ 0 := fun hb => hp ((hfold b).mp hb ▸ List.mem_cons_self)
    have hp' : 0 ∉ p := fun h => hp (List.mem_cons_of_mem b h)
    cases s with
    | nil => simp [strnEq]
    | cons a s =>
      rw [List.map_cons, List.map_cons, List.cons_prefix_cons, strnEq, Bool.and_eq_true,
        Bool.or_eq_true, ih hp']
      simp only [decide_eq_true_eq]
      constructor
      · rintro ⟨heq, h⟩
        refine ⟨heq.symm, h.resolve_left fun ha => hb ?_⟩
        exact heq.symm.trans ((hfold a).mpr ha)
      · rintro ⟨heq, h⟩
        exact ⟨heq.symm, .inr h⟩

theorem strnEq_iff {s p : List UInt8} (hp : 0 ∉ p) : strnEq id s p = true ↔ p <+: s := by
  rw [@strnEq_fold_iff id (fun _ => Iff.rfl) _ _ hp, List.map_id, List.map_id]

theorem tolower_eq_zero (c : UInt8) : tolower c = 0 ↔ c = 0 := by
  rw [tolower]
  split
  · rename_i hupper
    simp only [toUInt8_eq_ofNat] at hupper
    grind
  · exact Iff.rfl

theorem strMatch_iff {s p : List UInt8} (hp : 0 ∉ p) : strMatch s p = true ↔ p <+: s := by
  rw [strMatch]
  split
  · rename_i hlen
    constructor
    · intro h
      cases h
    · intro h
      exact absurd h.length_le (Nat.not_le.mpr hlen)
  · exact strnEq_iff hp

theorem strMatchi_iff {s p : List UInt8} (hp : 0 ∉ p) :
    strMatchi s p = true ↔ p.map tolower <+: s.map tolower := by
  rw [strMatchi]
  split
  · rename_i hlen
    refine iff_of_false (fun h => by cases h) fun h => ?_
    have hle := h.length_le
    rw [List.length_map, List.length_map] at hle
    exact Nat.not_le.mpr hlen hle
  · exact strnEq_fold_iff tolower_eq_zero hp

/-- In a text without zeros, a match is a true prefix whatever the pattern holds. -/
theorem strMatch_iff_text {s p : List UInt8} (hs : 0 ∉ s) : strMatch s p = true ↔ p <+: s := by
  cases Decidable.em (0 ∈ p) with
  | inr hp => exact strMatch_iff hp
  | inl hp =>
    have hfalse : strnEq id s p = false := by
      induction p generalizing s with
      | nil => cases hp
      | cons b p ih =>
        cases s with
        | nil => rfl
        | cons a s =>
          obtain ⟨ha, hs⟩ := not_or.mp (mt List.mem_cons.mpr hs)
          rw [strnEq, decide_eq_false (Ne.symm ha), Bool.false_or]
          rcases List.mem_cons.mp hp with hb | hp
          · rw [← hb, id, id, decide_eq_false (Ne.symm ha), Bool.false_and]
          · rw [ih hs hp, Bool.and_false]
    refine iff_of_false ?_ fun hlead => hs (hlead.subset hp)
    rw [strMatch, hfalse]
    simp

theorem strAccept_append {p : List UInt8} (hp : 0 ∉ p) (s : List UInt8) :
    strAccept (p ++ s) p = (s, true) := by
  rw [strAccept, if_pos ((strMatch_iff hp).mpr (List.prefix_append p s)), strSkip, List.drop_left]

theorem strAccept_false {s p : List UInt8} (hp : 0 ∉ p) (h : ¬p <+: s) :
    strAccept s p = (s, false) := by
  rw [strAccept, if_neg fun hmatch => h ((strMatch_iff hp).mp hmatch)]

theorem strAccept_true {s p : List UInt8} (hp : 0 ∉ p) (h : (strAccept s p).2 = true) :
    s = p ++ (strAccept s p).1 := by
  rw [strAccept] at h ⊢
  split at h
  · rename_i hmatch
    obtain ⟨v, rfl⟩ := (strMatch_iff hp).mp hmatch
    rw [if_pos hmatch, strSkip, List.drop_left]
  · cases h

theorem strAccept_same {s p : List UInt8} (h : (strAccept s p).2 = false) :
    (strAccept s p).1 = s := by
  rw [strAccept] at h ⊢
  split at h
  · cases h
  · rename_i hmatch
    rw [if_neg hmatch]

theorem strAccept_char {a : UInt8} (ha : a ≠ 0) (c : UInt8) (w : List UInt8) :
    strAccept (c :: w) [a] = if c = a then (w, true) else (c :: w, false) := by
  have hzero : 0 ∉ [a] := by simpa using ha.symm
  by_cases hc : c = a
  · subst hc
    rw [if_pos rfl]
    exact strAccept_append hzero w
  · rw [if_neg hc]
    apply strAccept_false hzero
    intro hprefix
    exact hc (List.cons_prefix_cons.mp hprefix).1.symm

def digitValue (c : UInt8) : Option Nat :=
  if '0' ≤ c ∧ c ≤ '9' then some (c.toNat - 48)
  else if 'A' ≤ c ∧ c ≤ 'Z' then some (c.toNat - 65 + 10)
  else if 'a' ≤ c ∧ c ≤ 'z' then some (c.toNat - 97 + 10)
  else none

/-- The loop of `str_readu64`: the rest, the value and whether there was a digit. -/
def readDigits (radix : Nat) : Nat → Bool → List UInt8 → List UInt8 × Nat × Bool
  | value, valid, [] => ([], value, valid)
  | value, valid, c :: s =>
    match digitValue c with
    | none => (c :: s, value, valid)
    | some v =>
      if v ≥ radix then (c :: s, value, valid)
      else readDigits radix ((value * radix + v) % 2 ^ 64) true s

def strReadu64 (s : List UInt8) (r : Nat) : List UInt8 × Nat × Bool :=
  if r > 36 then (s, 0, false) else readDigits (if r > 0 then r else 10) 0 false s

def strReadu32 (s : List UInt8) (r : Nat) : List UInt8 × Option Nat :=
  match strReadu64 s r with
  | (s, x, valid) => (s, if valid then if x > 0xFFFFFFFF then none else some x else none)

def strReaduint (s : List UInt8) : List UInt8 × Option Nat := strReadu32 s 0

def asInt64 (a : Nat) : Int := if a < 2 ^ 63 then a else (a : Int) - 2 ^ 64

def strReadi64 (s : List UInt8) (r : Nat) : List UInt8 × Option Int :=
  let (s, minus) := strAccept s ['-']
  let s := if minus then s else (strAccept s ['+']).1
  match strReadu64 s r with
  | (s, _, false) => (s, none)
  | (s, value, true) => (s, some (asInt64 (if minus then (2 ^ 64 - value) % 2 ^ 64 else value)))

def strReadi8 (s : List UInt8) (r : Nat) : List UInt8 × Option Int :=
  match strReadi64 s r with
  | (s, none) => (s, none)
  | (s, some x) => (s, if x < -128 ∨ x > 127 then none else some x)

/-- The characters that end up in front of the closing zero, if there is room. -/
def strZcpy (s : List UInt8) (len : Nat) : Option (List UInt8) :=
  if s.length ≥ len then none else some s

/-- What `snprintf` returns, the length of the whole text, and the bytes it
stores in a buffer of size `len`. -/
def snprintf (len : Nat) (text : List UInt8) : Nat × List UInt8 :=
  (text.length, if len = 0 then [] else text.take (len - 1) ++ [0])

def decimal (n : Nat) : List UInt8 := (Nat.toDigits 10 n).map Char.toUInt8

def decimalInt (n : Int) : List UInt8 :=
  if n < 0 then '-' :: decimal n.natAbs else decimal n.natAbs

/-! ## Numerals -/

/-- The character is a digit of the radix, in either case. -/
def digitIn (radix : Nat) (c : UInt8) : Bool := (digitValue c).any (· < radix)

def digitsValue (radix : Nat) (ds : List UInt8) : Nat :=
  ds.foldl (fun v c => v * radix + (digitValue c).getD 0) 0

/-- The loop takes the longest run of digits; its value wraps. -/
theorem readDigits_run (radix : Nat) (s : List UInt8) : ∀ (value : Nat) (valid : Bool),
    readDigits radix (value % 2 ^ 64) valid s = (s.dropWhile (digitIn radix),
      (s.takeWhile (digitIn radix)).foldl (fun v c => v * radix + (digitValue c).getD 0) value % 2 ^ 64,
      valid || !(s.takeWhile (digitIn radix)).isEmpty) := by
  induction s with
  | nil =>
    intro value valid
    simp [readDigits]
  | cons c s ih =>
    intro value valid
    by_cases hdigit : ∃ v, digitValue c = some v ∧ v < radix
    · obtain ⟨v, hv, hlt⟩ := hdigit
      have hc : digitIn radix c = true := by
        rw [digitIn, hv, Option.any_some, decide_eq_true hlt]
      have hmod : (value % 2 ^ 64 * radix + v) % 2 ^ 64 = (value * radix + v) % 2 ^ 64 := by
        rw [Nat.add_mod, Nat.mod_mul_mod, ← Nat.add_mod]
      rw [readDigits, hv]
      simp only [if_neg (Nat.not_le.mpr hlt)]
      rw [hmod, ih, List.takeWhile_cons_of_pos hc, List.dropWhile_cons_of_pos hc, List.foldl_cons, hv]
      simp
    · have hc : digitIn radix c = false := by
        rw [digitIn]
        cases hv : digitValue c with
        | none => rfl
        | some v => exact decide_eq_false (fun hlt => hdigit ⟨v, hv, hlt⟩)
      have hstop : readDigits radix (value % 2 ^ 64) valid (c :: s) =
          (c :: s, value % 2 ^ 64, valid) := by
        rw [readDigits]
        cases hv : digitValue c with
        | none => rfl
        | some v => exact if_pos (Nat.not_lt.mp (fun hlt => hdigit ⟨v, hv, hlt⟩))
      rw [hstop, List.takeWhile_cons_of_neg (by simp [hc]), List.dropWhile_cons_of_neg (by simp [hc])]
      simp

theorem strReadu64_eq (s : List UInt8) {r : Nat} (hr : r ≤ 36) :
    strReadu64 s r = (s.dropWhile (digitIn (if r > 0 then r else 10)),
      digitsValue (if r > 0 then r else 10) (s.takeWhile (digitIn (if r > 0 then r else 10))) % 2 ^ 64,
      !(s.takeWhile (digitIn (if r > 0 then r else 10))).isEmpty) := by
  have hrun := readDigits_run (if r > 0 then r else 10) s 0 false
  rw [Nat.zero_mod] at hrun
  rw [strReadu64, if_neg (Nat.not_lt.mpr hr), hrun, Bool.false_or, digitsValue]

/-! ## Decimal numerals -/

def decimalValue (ds : List UInt8) : Nat := ds.foldl (fun v c => v * 10 + (c.toNat - 48)) 0

theorem digitValue_of_isdigit {c : UInt8} (h : isdigit c = true) :
    digitValue c = some (c.toNat - 48) := by
  have hrange : '0' ≤ c ∧ c ≤ '9' := by simpa [isdigit] using h
  exact if_pos hrange

theorem digitValue_ge {c : UInt8} (h : isdigit c = false) {v : Nat} (hv : digitValue c = some v) :
    10 ≤ v := by
  have hrange : ¬('0' ≤ c ∧ c ≤ '9') := by
    intro hc
    have : isdigit c = true := by simpa [isdigit] using hc
    rw [h] at this
    cases this
  rw [digitValue, if_neg hrange] at hv
  split at hv
  · cases hv
    omega
  split at hv
  · cases hv
    omega
  · cases hv

theorem digitIn_ten : digitIn 10 = isdigit := by
  funext c
  rw [digitIn]
  cases hc : isdigit c with
  | true =>
    have hle : c ≤ 57 := by
      simp only [isdigit, Bool.and_eq_true, decide_eq_true_eq] at hc
      exact hc.2
    have hnat := UInt8.le_iff_toNat_le.mp hle
    simp only [UInt8.reduceToNat] at hnat
    rw [digitValue_of_isdigit hc]
    exact decide_eq_true (by omega)
  | false =>
    cases hv : digitValue c with
    | none => rfl
    | some v => exact decide_eq_false (Nat.not_lt.mpr (digitValue_ge hc hv))

theorem digitsValue_ten {ds : List UInt8} (h : ∀ c ∈ ds, isdigit c = true) :
    digitsValue 10 ds = decimalValue ds := by
  apply List.foldl_ext
  intro v c hc
  rw [digitValue_of_isdigit (h c hc), Option.getD_some]

theorem strReaduint_eq (s : List UInt8) :
    strReaduint s = (s.dropWhile isdigit,
      if s.takeWhile isdigit = [] ∨ 2 ^ 32 ≤ decimalValue (s.takeWhile isdigit) % 2 ^ 64 then none
      else some (decimalValue (s.takeWhile isdigit) % 2 ^ 64)) := by
  have hread := strReadu64_eq s (Nat.zero_le 36)
  simp only [Nat.lt_irrefl, if_false, gt_iff_lt, digitIn_ten] at hread
  rw [digitsValue_ten (fun c hc => List.mem_takeWhile_imp hc)] at hread
  rw [strReaduint, strReadu32, hread]
  simp only [Prod.mk.injEq, true_and]
  cases hds : s.takeWhile isdigit with
  | nil => rfl
  | cons c ds =>
    simp only [List.isEmpty_cons, Bool.not_false, if_true, reduceCtorEq, false_or]
    grind

theorem decimal_digits (n : Nat) : ∀ c ∈ decimal n, isdigit c = true := by
  intro c hc
  obtain ⟨d, hd, rfl⟩ := List.mem_map.mp hc
  have hdigit := Nat.isDigit_of_mem_toDigits (by decide) (by decide) hd
  have hrange : ∀ k < 58, 48 ≤ k → isdigit (UInt8.ofNat k) = true := by decide
  simp only [Char.isDigit, Bool.and_eq_true, decide_eq_true_eq] at hdigit
  rw [toUInt8_eq_ofNat]
  exact hrange d.toNat (Nat.lt_succ_of_le hdigit.2) hdigit.1

theorem decimal_ne_nil (n : Nat) : decimal n ≠ [] :=
  fun h => Nat.toDigits_ne_nil (List.map_eq_nil_iff.mp h)

end Wifimodem
