import Mathlib.Data.List.DropRight

/-!
# The last elements of a growing list

`xs.rtake n` is what a store of size `n` can keep of `xs`. Forgetting early or
late makes no difference to what is kept.
-/

namespace List

variable {α : Type*}

theorem rtake_of_length_le {xs : List α} {n : Nat} (h : xs.length ≤ n) : xs.rtake n = xs := by
  rw [rtake, Nat.sub_eq_zero_of_le h, drop_zero]

theorem length_rtake (xs : List α) (n : Nat) : (xs.rtake n).length = min n xs.length := by
  rw [rtake, length_drop]
  omega

/-- What was appended last is kept whole, after the end of what came before. -/
theorem rtake_append_of_le {xs ys : List α} {n : Nat} (h : ys.length ≤ n) :
    (xs ++ ys).rtake n = xs.rtake (n - ys.length) ++ ys := by
  have hdrop : (xs ++ ys).length - n = xs.length - (n - ys.length) := by
    rw [length_append]
    omega
  rw [rtake, rtake, hdrop, drop_append_of_le_length (Nat.sub_le _ _)]

theorem rtake_append_of_ge {xs ys : List α} {n : Nat} (h : n ≤ ys.length) :
    (xs ++ ys).rtake n = ys.rtake n := by
  have hdrop : (xs ++ ys).length - n = xs.length + (ys.length - n) := by
    rw [length_append]
    omega
  rw [rtake, rtake, hdrop, drop_append, drop_of_length_le (Nat.le_add_right _ _),
    Nat.add_sub_cancel_left, nil_append]

theorem rtake_rtake (xs : List α) {m n : Nat} (h : m ≤ n) : (xs.rtake n).rtake m = xs.rtake m := by
  rw [rtake, rtake, drop_drop, length_drop, rtake]
  congr 1
  omega

theorem rtake_append_left (xs ys : List α) (n : Nat) :
    (xs.rtake n ++ ys).rtake n = (xs ++ ys).rtake n := by
  cases Nat.le_total ys.length n with
  | inl h =>
    rw [rtake_append_of_le h, rtake_append_of_le h, rtake_rtake _ (Nat.sub_le _ _)]
  | inr h =>
    rw [rtake_append_of_ge h, rtake_append_of_ge h]

theorem rtake_append_right (xs ys : List α) (n : Nat) :
    (xs ++ ys.rtake n).rtake n = (xs ++ ys).rtake n := by
  cases Nat.le_total ys.length n with
  | inl h =>
    rw [rtake_of_length_le h]
  | inr h =>
    rw [rtake_append_of_ge h, rtake_append_of_ge (by rw [length_rtake]; omega),
      rtake_rtake _ (Nat.le_refl n)]

end List
