import Mathlib.Data.List.Infix
import Wifimodem.Core.StrText

/-!
# What a comparison of two views computes

The result of a comparison is decided by the two texts alone: by their first
difference, or else by the character of the longer one that has no counterpart.
-/

namespace Wifimodem

/-- `strncmp` over as many characters as both texts have. -/
def strnDiff (fold : UInt8 → UInt8) : List UInt8 → List UInt8 → Int
  | a :: s, b :: p =>
    if fold a ≠ fold b then (fold a).toNat - (fold b).toNat
    else if a = 0 then 0
    else strnDiff fold s p
  | _, _ => 0

/-- The character of the longer text behind the end of the shorter one. -/
def tieBreak (fold : UInt8 → UInt8) (s p : List UInt8) : Int :=
  if s.length > p.length then (fold (s.getD p.length 0)).toNat
  else if p.length > s.length then -(fold (p.getD s.length 0)).toNat
  else 0

def strDiff (fold : UInt8 → UInt8) (s p : List UInt8) : Int :=
  if strnDiff fold s p ≠ 0 then strnDiff fold s p else tieBreak fold s p

variable {fold : UInt8 → UInt8} {s p : List UInt8} {a b : UInt8}

theorem strnDiff_nil (fold : UInt8 → UInt8) (s : List UInt8) : strnDiff fold s [] = 0 := by
  cases s <;> rfl

theorem strnDiff_cons_cons (fold : UInt8 → UInt8) (a b : UInt8) (s p : List UInt8) :
    strnDiff fold (a :: s) (b :: p) =
      if fold a ≠ fold b then ((fold a).toNat : Int) - (fold b).toNat
      else if a = 0 then 0
      else strnDiff fold s p := rfl

theorem strnDiff_cons (hab : fold a = fold b) (ha : a ≠ 0) :
    strnDiff fold (a :: s) (b :: p) = strnDiff fold s p := by
  rw [strnDiff_cons_cons, if_neg (not_not.mpr hab), if_neg ha]

theorem strnDiff_zero (hab : fold 0 = fold b) : strnDiff fold (0 :: s) (b :: p) = 0 := by
  rw [strnDiff_cons_cons, if_neg (not_not.mpr hab), if_pos rfl]

theorem strnDiff_ne (hab : fold a ≠ fold b) :
    strnDiff fold (a :: s) (b :: p) = (fold a).toNat - (fold b).toNat ∧
      strnDiff fold (a :: s) (b :: p) ≠ 0 := by
  rw [strnDiff_cons_cons, if_pos hab]
  refine ⟨rfl, fun hzero => hab (UInt8.toNat_inj.mp ?_)⟩
  omega

theorem strnDiff_take (fold : UInt8 → UInt8) (s p : List UInt8) {n : Nat}
    (hn : min s.length p.length ≤ n) : strnDiff fold (s.take n) p = strnDiff fold s p := by
  induction s generalizing p n with
  | nil => rw [List.take_nil]
  | cons a s ih =>
    cases p with
    | nil => rw [strnDiff_nil, strnDiff_nil]
    | cons b p =>
      rw [List.length_cons, List.length_cons] at hn
      obtain ⟨n, rfl⟩ := Nat.exists_eq_succ_of_ne_zero (n := n) (by omega)
      rw [List.take_succ_cons, strnDiff_cons_cons, strnDiff_cons_cons, ih p (by omega)]

theorem tieBreak_cons (fold : UInt8 → UInt8) (a b : UInt8) (s p : List UInt8) :
    tieBreak fold (a :: s) (b :: p) = tieBreak fold s p := by
  simp only [tieBreak, List.length_cons, List.getD_cons_succ, gt_iff_lt, Nat.add_lt_add_iff_right]

theorem strDiff_cons (hab : fold a = fold b) (ha : a ≠ 0) :
    strDiff fold (a :: s) (b :: p) = strDiff fold s p := by
  rw [strDiff, strnDiff_cons hab ha, tieBreak_cons, strDiff]

theorem strDiff_ne (hab : fold a ≠ fold b) :
    strDiff fold (a :: s) (b :: p) = (fold a).toNat - (fold b).toNat := by
  obtain ⟨hdiff, hne⟩ := strnDiff_ne (s := s) (p := p) hab
  rw [strDiff, if_pos hne, hdiff]

theorem strDiff_nil_cons (fold : UInt8 → UInt8) (b : UInt8) (p : List UInt8) :
    strDiff fold [] (b :: p) = -(fold b).toNat := rfl

theorem strDiff_cons_nil (fold : UInt8 → UInt8) (a : UInt8) (s : List UInt8) :
    strDiff fold (a :: s) [] = (fold a).toNat := rfl

/-- Texts of one length have no tie to break. -/
theorem strDiff_same (hlen : s.length = p.length) : strDiff fold s p = strnDiff fold s p := by
  rw [strDiff, tieBreak, hlen, if_neg (Nat.lt_irrefl _), if_neg (Nat.lt_irrefl _)]
  split
  · rfl
  · rename_i hzero
    exact (not_not.mp hzero).symm

/-! ## The views -/

namespace Str

open Traced

variable {mem : Nat → UInt8} {i n ptr : Nat}

theorem strncmp_value (mem : Nat → UInt8) (fold : UInt8 → UInt8) (p : Pattern)
    (hn : i + n ≤ p.len) :
    (strncmp mem fold ptr p n i).value =
      strnDiff fold (textFrom mem (ptr + i) n) ((p.text mem).drop i) := by
  induction n generalizing i with
  | zero => rfl
  | succ n ih =>
    rw [drop_pattern mem p (by omega), textFrom, strnDiff_cons_cons, strncmp, value_bind, value_bind]
    have hread : (read mem (ptr + i)).value = mem (ptr + i) := rfl
    rw [hread]
    split
    · rfl
    split
    · rfl
    · rw [Nat.add_assoc]
      exact ih (by omega)

theorem getD_text (mem : Nat → UInt8) (s : Str) (hi : i < s.len) :
    (s.text mem).getD i 0 = mem (s.ptr + i) := by
  have hcell := drop_pattern mem (.view 0 s) hi
  have hat : (s.text mem)[i]? = some (mem (s.ptr + i)) := by
    rw [← List.head?_drop]
    exact congrArg List.head? hcell
  rw [List.getD_eq_getElem?_getD, hat]
  rfl

theorem getD_pattern (mem : Nat → UInt8) (p : Pattern) (hi : i < p.len) :
    (p.text mem).getD i 0 = (p.get mem i).value := by
  have hat : (p.text mem)[i]? = some (p.get mem i).value := by
    rw [← List.head?_drop, drop_pattern mem p hi]
    rfl
  rw [List.getD_eq_getElem?_getD, hat]
  rfl

theorem cmpBy_value (mem : Nat → UInt8) (fold : UInt8 → UInt8) (a : Str) (b : Pattern) :
    (cmpBy mem fold a b).value = strDiff fold (a.text mem) (b.text mem) := by
  have hmin : (if a.len < b.len then a.len else b.len) = min a.len b.len := by
    rw [Nat.min_def]
    split <;> split <;> omega
  have hdiff : (strncmp mem fold a.ptr b (min a.len b.len) 0).value =
      strnDiff fold (a.text mem) (b.text mem) := by
    rw [strncmp_value mem fold b (by omega), List.drop_zero, Nat.add_zero,
      (textFrom_split mem a.ptr (Nat.min_le_left a.len b.len)).1, ← text]
    apply strnDiff_take
    rw [length_text, length_pattern]
  rw [cmpBy, hmin, value_bind, hdiff, strDiff, tieBreak, length_text, length_pattern]
  split
  · rfl
  split
  · rename_i hlen
    rw [getD_text mem a hlen]
    rfl
  split
  · rename_i hlen
    rw [getD_pattern mem b hlen]
    rfl
  · rfl

/-- What a search compares with the pattern at offset `i`. -/
theorem text_window (mem : Nat → UInt8) (s : Str) (len : Nat) (hi : i + len ≤ s.len) :
    Str.text mem ⟨s.ptr + i, len⟩ = ((s.text mem).drop i).take len := by
  have hdrop := (textFrom_split mem s.ptr (Nat.le_trans (Nat.le_add_right i len) hi)).2
  have htake := (textFrom_split mem (s.ptr + i) (Nat.le_sub_of_add_le' hi)).1
  rw [text, text, htake, hdrop]

end Str

end Wifimodem
