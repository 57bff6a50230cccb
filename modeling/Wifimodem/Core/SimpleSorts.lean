import Wifimodem.Core.Algorithm
import Wifimodem.Lib.Comparator

/-!
# Insertion sort and selection sort

An element is inserted into the sorted part in front of it; the least element of
the rest is put behind a part that is sorted and precedes it.
-/

namespace Wifimodem

open Cells

variable {α : Type} (o : Comparator α)

/-! ## Insertion -/

theorem shift_insert (temp : α) (before rest : List α) (x : α) {fuel : Nat}
    (hfuel : before.length < fuel) :
    ((shiftLoop o.cmp 1 temp fuel (before.reverse ++ x :: rest)
      ((before.length : Int) - 1)).bind fun moved => store moved.1 (moved.2 + 1) temp) =
      some ((before.orderedInsert (fun a b => o.Le b a) temp).reverse ++ rest) := by
  induction before generalizing fuel x rest with
  | nil =>
    obtain ⟨fuel, rfl⟩ := Nat.exists_eq_succ_of_ne_zero (Nat.ne_zero_of_lt hfuel)
    have hj : ¬(([] : List α).length : Int) - 1 ≥ 0 := by simp
    rw [shiftLoop, if_neg hj]
    exact @store_at _ [] rest 0 x rfl temp
  | cons v before ih =>
    obtain ⟨fuel, rfl⟩ := Nat.exists_eq_succ_of_ne_zero (Nat.ne_zero_of_lt hfuel)
    have hj : ((v :: before).length : Int) - 1 = before.length := by
      rw [List.length_cons]
      omega
    have hfront : (v :: before).reverse ++ x :: rest = before.reverse ++ v :: x :: rest := by
      simp
    have hat : before.length = before.reverse.length := List.length_reverse.symm
    have hstore (y : α) : store (before.reverse ++ v :: x :: rest) (before.length + 1 : Nat) y =
        some (before.reverse ++ v :: y :: rest) := by
      have hnext := @store_at _ (before.reverse ++ [v]) rest (before.length + 1) x (by simp) y
      simpa using hnext
    have hgap : (before.length : Int) + 1 = (before.length + 1 : Nat) := rfl
    rw [hj, hfront, shiftLoop, if_pos (Int.natCast_nonneg _), load_at hat, List.orderedInsert_cons]
    rw [Option.bind_eq_bind, Option.bind_some]
    split
    · rename_i hgt
      have hle : ¬o.Le v temp := fun h => o.not_gt.mpr h hgt
      rw [hgap, hstore, if_neg hle, Option.bind_eq_bind, Option.bind_some,
        ih (v :: rest) v (Nat.lt_of_succ_lt_succ hfuel)]
      simp
    · rename_i hgt
      have hle : o.Le v temp := o.not_gt.mp hgt
      rw [Option.bind_some, hgap, hstore, if_pos hle]
      simp

/-- One turn of the outer loop puts the next element into the sorted part. -/
theorem insertOne_sort (done rest : List α) (x : α) {fuel : Nat} (hfuel : done.length < fuel) :
    insertOne o.cmp fuel 1 (o.sort done ++ x :: rest) done.length =
      some (o.sort (done ++ [x]) ++ rest) := by
  have hlen : (o.sort done).length = done.length := (o.sort_perm done).length_eq
  have hsorted : o.sort done = (done.reverse.insertionSort fun a b => o.Le b a).reverse := rfl
  have hbefore : (done.reverse.insertionSort fun a b => o.Le b a).length = done.length := by
    rw [List.length_insertionSort, List.length_reverse]
  have hinsert := shift_insert o x (done.reverse.insertionSort fun a b => o.Le b a) rest x
    (hbefore.symm ▸ hfuel)
  rw [hbefore, ← hsorted] at hinsert
  rw [insertOne, load_at hlen.symm, Option.bind_eq_bind, Option.bind_some, Option.bind_eq_bind,
    hinsert, Comparator.sort, List.reverse_append, List.reverse_singleton, List.singleton_append,
    List.insertionSort_cons]

theorem passLoop_sort (done rest : List α) {fuel : Nat}
    (hfuel : done.length + rest.length < fuel) :
    passLoop o.cmp fuel 1 rest.length (o.sort done ++ rest) done.length =
      some (o.sort (done ++ rest)) := by
  induction rest generalizing done with
  | nil =>
    rw [List.append_nil, List.append_nil]
    rfl
  | cons x rest ih =>
    rw [List.length_cons] at hfuel
    have hnext : (done.length : Int) + 1 = (done ++ [x]).length := by simp
    rw [List.length_cons, passLoop, insertOne_sort o done rest x (by omega), Option.bind_eq_bind,
      Option.bind_some, hnext, ih (done ++ [x]), List.append_assoc]
    · rfl
    · rw [List.length_append, List.length_singleton]
      omega

/-- A pass with gap one inserts the elements in their order. -/
theorem gapPass_one (array : List α) {fuel : Nat} (hfuel : array.length < fuel) :
    gapPass o.cmp fuel 1 array = some (o.sort array) := by
  cases array with
  | nil => rfl
  | cons x rest =>
    have hrun := @passLoop_sort _ o [x] rest fuel (by simpa [Nat.add_comm] using hfuel)
    have hcount : (((x :: rest).length : Int) - 1).toNat = rest.length := by simp
    rw [gapPass, hcount]
    exact hrun

theorem insertionSort_eq (array : List α) {fuel : Nat} (hfuel : array.length < fuel) :
    insertionSort o.cmp fuel array = some (o.sort array) := gapPass_one o array hfuel

/-! ## Selection -/

/-- The elements in front of `i` precede all that follow them. -/
def LeastInFront (array : List α) (i : Nat) : Prop :=
  ∀ p q x y, p < i → p < q → array[p]? = some x → array[q]? = some y → o.Le x y

variable {o} in
theorem least_from {array : List α} {j : Nat} {u v : α} (hj : array[j]? = some u) (hv : o.Le v u)
    (hleast : ∀ q y, j + 1 ≤ q → array[q]? = some y → o.Le v y) :
    ∀ q y, j ≤ q → array[q]? = some y → o.Le v y := by
  intro q y hq hy
  cases Nat.eq_or_lt_of_le hq with
  | inl heq =>
    subst heq
    rw [hj] at hy
    exact Option.some.inj hy ▸ hv
  | inr hgt => exact hleast q y hgt hy

theorem minLoop_least (array : List α) (n : Nat) {j k : Nat} {w : α} (hj : j + n = array.length)
    (hk : array[k]? = some w) :
    ∃ (m : Nat) (v : α), minLoop o.cmp array n j k = some (m : Int) ∧ array[m]? = some v ∧
      (m = k ∨ j ≤ m) ∧ o.Le v w ∧ ∀ q y, j ≤ q → array[q]? = some y → o.Le v y := by
  induction n generalizing j k w with
  | zero =>
    refine ⟨k, w, rfl, hk, .inl rfl, o.le_refl w, fun q y hq hy => ?_⟩
    have hlt := (List.getElem?_eq_some_iff.mp hy).1
    omega
  | succ n ih =>
    have hlt : j < array.length := by omega
    have hload : array[j]? = some array[j] := List.getElem?_eq_getElem hlt
    have hnext : (j : Int) + 1 = (j + 1 : Nat) := rfl
    rw [minLoop]
    simp only [load_eq, hk, hload, Option.bind_eq_bind, Option.bind_some, hnext]
    split
    · rename_i hgt
      obtain ⟨m, v, hrun, hv, hm, hvj, hleast⟩ := ih (j := j + 1) (by omega) hload
      have hvw := o.le_trans hvj (o.le_of_gt hgt)
      exact ⟨m, v, hrun, hv, .inr (by omega), hvw, least_from hload hvj hleast⟩
    · rename_i hgt
      obtain ⟨m, v, hrun, hv, hm, hvw, hleast⟩ := ih (j := j + 1) (by omega) hk
      have hvj := o.le_trans hvw (o.not_gt.mp hgt)
      exact ⟨m, v, hrun, hv, by omega, hvw, least_from hload hvj hleast⟩

variable {o} in
theorem LeastInFront.swap {array : List α} {i k : Nat} {temp v : α} (h : LeastInFront o array i)
    (hik : i ≤ k) (hi : array[i]? = some temp) (hk : array[k]? = some v)
    (hleast : ∀ q y, i ≤ q → array[q]? = some y → o.Le v y) :
    LeastInFront o ((array.set i v).set k temp) (i + 1) := by
  have hilt := (List.getElem?_eq_some_iff.mp hi).1
  have hklt := (List.getElem?_eq_some_iff.mp hk).1
  -- Behind `p` stands what has been behind `p`.
  have hsource : ∀ q y, ((array.set i v).set k temp)[q]? = some y →
      ∃ q', array[q']? = some y ∧ (q' = q ∨ i ≤ q ∧ i ≤ q') := by
    intro q y hy
    rw [List.getElem?_set, List.getElem?_set, List.length_set] at hy
    split at hy
    · rename_i hkq
      exact ⟨i, hi.trans hy, .inr (by omega)⟩
    split at hy
    · rename_i hiq
      exact ⟨k, hk.trans hy, .inr (by omega)⟩
    · exact ⟨q, hy, .inl rfl⟩
  intro p q x y hp hpq hx hy
  obtain ⟨q', hy', hq'⟩ := hsource q y hy
  cases Nat.lt_succ_iff_lt_or_eq.mp hp with
  | inl hlt =>
    have hpk : k ≠ p := by omega
    have hpi : i ≠ p := by omega
    rw [List.getElem?_set_ne hpk, List.getElem?_set_ne hpi] at hx
    exact h p q' x y hlt (by omega) hx hy'
  | inr heq =>
    have hxv : x = v := by
      subst heq
      rw [List.getElem?_set, List.getElem?_set, List.length_set, if_pos hklt, if_pos rfl,
        if_pos hilt] at hx
      split at hx
      · rename_i hkp
        subst hkp
        rw [← Option.some.inj hx]
        exact Option.some.inj (hi.symm.trans hk)
      · exact (Option.some.inj hx).symm
    rw [hxv]
    exact hleast q' y (by omega) hy'

theorem swap_perm {array : List α} {i k : Nat} {temp v : α} (hi : array[i]? = some temp)
    (hk : array[k]? = some v) : ((array.set i v).set k temp).Perm array := by
  obtain ⟨hilt, rfl⟩ := List.getElem?_eq_some_iff.mp hi
  obtain ⟨hklt, rfl⟩ := List.getElem?_eq_some_iff.mp hk
  exact List.set_set_perm hilt hklt

theorem selectLoop_least (n : Nat) {array : List α} {i : Nat} (hi : i + n + 1 = array.length)
    (h : LeastInFront o array i) :
    ∃ result, selectLoop o.cmp n array i = some result ∧ result.Perm array ∧
      LeastInFront o result (array.length - 1) := by
  induction n generalizing array i with
  | zero =>
    have hend : array.length - 1 = i := by omega
    exact ⟨array, rfl, List.Perm.refl array, hend ▸ h⟩
  | succ n ih =>
    have hilt : i < array.length := by omega
    have hload : array[i]? = some array[i] := List.getElem?_eq_getElem hilt
    have hnext : (i : Int) + 1 = (i + 1 : Nat) := rfl
    have hcount : ((array.length : Int) - (i + 1 : Nat)).toNat = n + 1 := by omega
    obtain ⟨k, v, hrun, hk, hik, hvi, hleast⟩ :=
      minLoop_least o array (n + 1) (j := i + 1) (by omega) hload
    have hik : i ≤ k := by omega
    have hklt := (List.getElem?_eq_some_iff.mp hk).1
    have hall := least_from hload hvi hleast
    have hperm := swap_perm hload hk
    have hlen := hperm.length_eq
    obtain ⟨result, hresult, hperm', hleast⟩ :=
      @ih ((array.set i v).set k array[i]) (i + 1) (by omega)
        (h.swap hik hload hk hall)
    refine ⟨result, ?_, hperm'.trans hperm, hlen ▸ hleast⟩
    have hset : k < (array.set i v).length := by rwa [List.length_set]
    rw [selectLoop]
    simp only [hnext, hcount, hrun, load_eq, hload, hk, store_eq v hilt, store_eq _ hset,
      Option.bind_eq_bind, Option.bind_some]
    exact hresult

theorem selectionSort_sorted (array : List α) :
    ∃ result, selectionSort o.cmp array = some result ∧ result.Perm array ∧ o.Sorted result := by
  cases array with
  | nil => exact ⟨[], rfl, List.Perm.refl [], List.Pairwise.nil⟩
  | cons x rest =>
    have hcount : (((x :: rest).length : Int) - 1).toNat = rest.length := by simp
    have hstart : LeastInFront o (x :: rest) 0 := fun p q x y hp => absurd hp (Nat.not_lt_zero p)
    obtain ⟨result, hrun, hperm, hleast⟩ :=
      @selectLoop_least _ o rest.length (x :: rest) 0 (by simp) hstart
    refine ⟨result, ?_, hperm, List.pairwise_iff_getElem.mpr fun p q hp hq hpq => ?_⟩
    · rw [selectionSort, hcount]
      exact hrun
    · have hlen := hperm.length_eq
      exact hleast p q _ _ (by omega) hpq (List.getElem?_eq_getElem hp)
        (List.getElem?_eq_getElem hq)

/-- Both sorts end inside the array with a sorted permutation of it, which they agree
on up to the order of equivalent elements; insertion keeps that order. -/
theorem simple_sorts (array : List α) :
    ∃ inserted selected,
      (∀ fuel > array.length, insertionSort o.cmp fuel array = some inserted) ∧
      selectionSort o.cmp array = some selected ∧
      inserted.Perm array ∧ o.Sorted inserted ∧ selected.Perm array ∧ o.Sorted selected ∧
      List.Forall₂ o.Equiv inserted selected ∧
      ∀ a, inserted.filter (fun b => decide (o.Equiv a b)) =
        array.filter fun b => decide (o.Equiv a b) := by
  obtain ⟨selected, hrun, hperm, hsorted⟩ := selectionSort_sorted o array
  have hagree := o.sorted_agree (o.sort_sorted array) hsorted
    ((o.sort_perm array).trans hperm.symm)
  exact ⟨o.sort array, selected, fun fuel hfuel => insertionSort_eq o array hfuel, hrun,
    o.sort_perm array, o.sort_sorted array, hperm, hsorted, hagree, o.sort_stable array⟩

end Wifimodem
