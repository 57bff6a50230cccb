import Mathlib.Data.List.Basic

/-!
# Arrays with integer indices

An array is the list of its elements. There is nothing in front of it and nothing
behind it.
-/

namespace Cells

variable {α : Type}

def load (array : List α) (i : Int) : Option α := if i < 0 then none else array[i.toNat]?

def store (array : List α) (i : Int) (x : α) : Option (List α) :=
  if 0 ≤ i ∧ i < array.length then some (array.set i.toNat x) else none

variable {array front rest : List α} {i : Nat} {x y : α}

theorem load_eq (array : List α) (i : Nat) : load array i = array[i]? := by
  have hi : ¬(i : Int) < 0 := by omega
  rw [load, if_neg hi, Int.toNat_natCast]

theorem store_eq (x : α) (h : i < array.length) : store array i x = some (array.set i x) := by
  have hi : 0 ≤ (i : Int) ∧ (i : Int) < array.length := by omega
  rw [store, if_pos hi, Int.toNat_natCast]

theorem load_lt (h : i < array.length) : load array i = some array[i] := by
  rw [load_eq, List.getElem?_eq_getElem h]

theorem load_at (h : i = front.length) : load (front ++ x :: rest) i = some x := by
  rw [load_eq, h, List.getElem?_append_right (Nat.le_refl _), Nat.sub_self]
  rfl

theorem store_at (h : i = front.length) (y : α) :
    store (front ++ x :: rest) i y = some (front ++ y :: rest) := by
  have hlt : i < (front ++ x :: rest).length := by
    rw [List.length_append, List.length_cons]
    omega
  rw [store_eq y hlt, h, List.set_append_right _ _ (Nat.le_refl _), Nat.sub_self]
  rfl

end Cells
