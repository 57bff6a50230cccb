import Wifimodem.Core.Algorithm
import Wifimodem.Lib.Comparator

/-!
# The equal range

The elements are below the key, equal to it and above it, in this order. Each
search halves a part of the array with the bound in it or at its end.
-/

namespace Wifimodem

open Cells

variable {α κ : Type}

/-- No element compares below one in front of it. -/
def Partitioned (cmp : α → κ → Int) (key : κ) (array : List α) : Prop :=
  array.Pairwise fun x y => (cmp x key).sign ≤ (cmp y key).sign

/-- The elements with the property are those in front of `bound`. -/
def Splits (below : α → Bool) (array : List α) (bound : Nat) : Prop :=
  bound ≤ array.length ∧ ∀ i x, array[i]? = some x → (below x = true ↔ i < bound)

theorem splits_takeWhile {below : α → Bool} {array : List α}
    (h : array.Pairwise fun x y => below y = true → below x = true) :
    Splits below array (array.takeWhile below).length := by
  refine ⟨(List.takeWhile_prefix below).length_le, ?_⟩
  induction array with
  | nil =>
    intro i x hx
    cases hx
  | cons y array ih =>
    obtain ⟨hy, htail⟩ := List.pairwise_cons.mp h
    intro i x hx
    rw [List.takeWhile_cons]
    cases hbelow : below y with
    | true =>
      rw [if_pos rfl, List.length_cons]
      cases i with
      | zero =>
        obtain rfl := Option.some.inj hx
        exact iff_of_true hbelow (Nat.succ_pos _)
      | succ i => rw [ih htail i x hx, Nat.add_lt_add_iff_right]
    | false =>
      refine iff_of_false (fun hx' => ?_) (Nat.not_lt_zero i)
      cases i with
      | zero =>
        obtain rfl := Option.some.inj hx
        rw [hbelow] at hx'
        cases hx'
      | succ i =>
        rw [hy x (List.mem_of_getElem? hx) hx'] at hbelow
        cases hbelow

/-- The bound stays in the part that is searched, which shrinks to nothing. -/
theorem boundLoop_eq {below : α → Bool} {array : List α} {bound : Nat}
    (h : Splits below array bound) {first count : Nat} (hlo : first ≤ bound)
    (hhi : bound ≤ first + count) (hend : first + count ≤ array.length) :
    boundLoop below array first count = some bound := by
  induction count using Nat.strong_induction_on generalizing first with
  | _ count ih =>
    rw [boundLoop]
    split
    · rename_i hzero
      have heq : first = bound := by omega
      rw [heq]
    · rename_i hcount
      have hidx : first + count / 2 < array.length := by omega
      have hside := h.2 _ _ (List.getElem?_eq_getElem hidx)
      simp only [load_lt hidx, Option.bind_eq_bind, Option.bind_some]
      split
      · rename_i hbelow
        have hright := hside.mp hbelow
        exact ih _ (by omega) (by omega) (by omega) (by omega)
      · rename_i hbelow
        have hleft := mt hside.mpr hbelow
        exact ih _ (by omega) hlo (by omega) (by omega)

theorem boundLoop_splits {below : α → Bool} {array : List α}
    (h : array.Pairwise fun x y => below y = true → below x = true) :
    ∃ bound, boundLoop below array 0 array.length = some bound ∧ Splits below array bound := by
  have hsplits := splits_takeWhile h
  have hle := hsplits.1
  exact ⟨_, boundLoop_eq hsplits (Nat.zero_le _) (by omega) (by omega), hsplits⟩

/-- In a partitioned array the bounds enclose the elements equal to the key; no
element outside the array is compared. -/
theorem equal_range (cmp : α → κ → Int) (key : κ) (array : List α)
    (h : Partitioned cmp key array) :
    ∃ lower upper, lowerBound cmp array key = some lower ∧ upperBound cmp array key = some upper ∧
      lower ≤ upper ∧ upper ≤ array.length ∧
      ∀ i x, array[i]? = some x →
        (cmp x key < 0 ↔ i < lower) ∧ (cmp x key = 0 ↔ lower ≤ i ∧ i < upper) ∧
        (0 < cmp x key ↔ upper ≤ i) := by
  have hlower : array.Pairwise fun x y =>
      decide (cmp y key < 0) = true → decide (cmp x key < 0) = true := by
    refine h.imp fun {x y} hxy => ?_
    rw [decide_eq_true_eq, decide_eq_true_eq, ← Int.not_le, ← Int.not_le]
    intro hy hx
    exact hy (Int.sign_nonneg_iff.mp (Int.le_trans (Int.sign_nonneg_iff.mpr hx) hxy))
  have hupper : array.Pairwise fun x y =>
      decide (cmp y key ≤ 0) = true → decide (cmp x key ≤ 0) = true := by
    refine h.imp fun {x y} hxy => ?_
    rw [decide_eq_true_eq, decide_eq_true_eq]
    intro hy
    exact Int.sign_nonpos_iff.mp (Int.le_trans hxy (Int.sign_nonpos_iff.mpr hy))
  obtain ⟨lower, hlrun, hlend, hl⟩ := boundLoop_splits hlower
  obtain ⟨upper, hurun, huend, hu⟩ := boundLoop_splits hupper
  have hle : lower ≤ upper := by
    -- An element between them would be below the key and above it.
    refine Nat.not_lt.mp fun hlt => ?_
    have hx := List.getElem?_eq_getElem (Nat.lt_of_lt_of_le hlt hlend)
    have hbelow := (hl upper _ hx).mpr hlt
    have habove := mt (hu upper _ hx).mp (Nat.lt_irrefl upper)
    rw [decide_eq_true_eq] at hbelow habove
    omega
  refine ⟨lower, upper, hlrun, hurun, hle, huend, fun i x hx => ?_⟩
  have hl := hl i x hx
  have hu := hu i x hx
  rw [decide_eq_true_eq] at hl hu
  refine ⟨hl, ?_, ?_⟩ <;> omega

theorem equal_range_ties :
    lowerBound Comparator.ofInt.cmp [1, 3, 3, 7] 3 = some 1 ∧
      upperBound Comparator.ofInt.cmp [1, 3, 3, 7] 3 = some 3 ∧
      ∃ lower upper, lowerBound Comparator.ofInt.cmp [1, 3, 3, 7] 3 = some lower ∧
        upperBound Comparator.ofInt.cmp [1, 3, 3, 7] 3 = some upper ∧ lower ≤ upper := by
  have hpart : Partitioned Comparator.ofInt.cmp 3 [1, 3, 3, 7] := by
    rw [Partitioned]
    decide
  obtain ⟨lower, upper, hlower, hupper, hle, -⟩ := equal_range _ _ _ hpart
  refine ⟨?_, ?_, lower, upper, hlower, hupper, hle⟩
  · simp [lowerBound, boundLoop, load, Comparator.ofInt]
  · simp [upperBound, boundLoop, load, Comparator.ofInt]

end Wifimodem
