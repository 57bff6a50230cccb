import Mathlib.Algebra.Group.Nat.Defs
import Wifimodem.Core.SimpleSorts

/-!
# Shell sort

The gaps come down from `3 ^ m / 2` to one and to zero. A pass with gap one inserts
every element, whatever the passes before it have done; with gap zero an element
is compared with itself, and nothing moves.
-/

namespace Wifimodem

open Cells

/-- The gaps from the last one on. -/
def gapAt : Nat → Nat
  | 0 => 0
  | m + 1 => 3 * gapAt m + 1

theorem gapAt_div (m : Nat) : ((gapAt (m + 1) : Nat) : Int).tdiv 3 = gapAt m := by
  rw [Int.tdiv_eq_ediv_of_nonneg (Int.natCast_nonneg _), gapAt]
  omega

theorem le_gapAt (m : Nat) : m ≤ gapAt m := by
  induction m with
  | zero => exact Nat.le_refl 0
  | succ m ih =>
    rw [gapAt]
    omega

/-- The first gap is one that the array has no room for, and no `int` overflows. -/
theorem growGap_reaches {num : Nat} (hnum : num < 2 ^ 29) (m : Nat) (hm : m ≤ num) :
    ∃ m' : Nat, num ≤ gapAt (m' + 1) ∧ m' ≤ num ∧ ∀ fuel, num - gapAt (m + 1) < fuel →
      growGap num fuel (gapAt (m + 1) : Nat) = some ((gapAt (m' + 1) : Nat) : Int) := by
  induction hk : num - gapAt (m + 1) using Nat.strong_induction_on generalizing m with
  | _ k ih =>
    cases Nat.lt_or_ge (gapAt (m + 1)) num with
    | inr hge =>
      refine ⟨m, hge, hm, fun fuel hfuel => ?_⟩
      obtain ⟨fuel, rfl⟩ := Nat.exists_eq_succ_of_ne_zero (Nat.ne_zero_of_lt hfuel)
      rw [growGap, if_neg (by omega)]
    | inl hlt =>
      have hgap := le_gapAt (m + 1)
      have hgrow : 3 * ((gapAt (m + 1) : Nat) : Int) + 1 = (gapAt (m + 1 + 1) : Nat) := by
        rw [gapAt.eq_2 (m + 1)]
        omega
      have hint : inInt (gapAt (m + 1 + 1) : Nat) = some ((gapAt (m + 1 + 1) : Nat) : Int) := by
        rw [inInt, if_pos (by omega)]
      have hless : num - gapAt (m + 1 + 1) < k := by
        rw [gapAt.eq_2 (m + 1)]
        omega
      obtain ⟨m', hroom, hm', hrun⟩ := ih _ hless (m + 1) (by omega) rfl
      refine ⟨m', hroom, hm', fun fuel hfuel => ?_⟩
      obtain ⟨fuel, rfl⟩ := Nat.exists_eq_succ_of_ne_zero (Nat.ne_zero_of_lt hfuel)
      rw [growGap, if_pos (by omega), hgrow, hint, Option.bind_eq_bind, Option.bind_some]
      exact hrun fuel (by omega)

variable {α : Type} (o : Comparator α)

/-! ## A pass with gap zero -/

theorem insertOne_zero {array : List α} {i fuel : Nat} (hi : i < array.length) (hfuel : 0 < fuel) :
    insertOne o.cmp fuel 0 array i = some array := by
  obtain ⟨fuel, rfl⟩ := Nat.exists_eq_succ_of_ne_zero (Nat.ne_of_gt hfuel)
  have hself : ¬o.cmp array[i] array[i] > 0 := o.not_gt.mpr (o.le_refl _)
  have hshift : shiftLoop o.cmp 0 array[i] (fuel + 1) array i = some (array, (i : Int)) := by
    rw [shiftLoop, if_pos (Int.natCast_nonneg i), load_lt hi, Option.bind_eq_bind,
      Option.bind_some, if_neg hself]
  rw [insertOne]
  simp only [load_lt hi, Int.sub_zero, hshift, Option.bind_eq_bind, Option.bind_some, Int.add_zero,
    store_eq _ hi, List.set_getElem_self]

theorem passLoop_zero {array : List α} {fuel : Nat} (hfuel : 0 < fuel) (n : Nat) {i : Nat}
    (hn : n = array.length - i) : passLoop o.cmp fuel 0 n array i = some array := by
  induction n generalizing i with
  | zero => rfl
  | succ n ih =>
    rw [passLoop, insertOne_zero o (by omega) hfuel]
    exact ih (i := i + 1) (by omega)

/-! ## A pass with any gap -/

/-- What has moved is put where `temp` would have stood. -/
theorem shiftLoop_perm {gap : Nat} (hgap : 0 < gap) (temp : α) (array : List α) (hole : Nat)
    (hhole : hole < array.length) :
    ∃ (moved : List α) (hole' : Nat), hole' < moved.length ∧
      (moved.set hole' temp).Perm (array.set hole temp) ∧
      ∀ fuel > hole, shiftLoop o.cmp gap temp fuel array ((hole : Int) - gap) =
        some (moved, (hole' : Int) - gap) := by
  induction hole using Nat.strong_induction_on generalizing array with
  | _ hole ih =>
    cases Decidable.em (gap ≤ hole ∧ ∀ h : hole - gap < array.length,
        o.cmp array[hole - gap] temp > 0) with
    | inl hmoves =>
      obtain ⟨hle, hgt⟩ := hmoves
      have hlt : hole - gap < array.length := by omega
      have hset : hole - gap < (array.set hole array[hole - gap]).length := by
        rwa [List.length_set]
      obtain ⟨moved, hole', hhole', hperm, hrun⟩ :=
        ih (hole - gap) (by omega) (array.set hole array[hole - gap]) hset
      refine ⟨moved, hole', hhole', hperm.trans ?_, fun fuel hfuel => ?_⟩
      · -- Exchanging the two places of the array with `temp` in the hole.
        have hne : hole ≠ hole - gap := by omega
        have hswap := @List.set_set_perm _ (array.set hole temp)
          hole (hole - gap) (by simpa using hhole) (by simpa using hlt)
        rwa [List.getElem_set_ne hne, List.getElem_set_self, List.set_set] at hswap
      · obtain ⟨fuel, rfl⟩ := Nat.exists_eq_succ_of_ne_zero (Nat.ne_zero_of_lt hfuel)
        have hfrom : (hole : Int) - gap = (hole - gap : Nat) := by omega
        have hback : ((hole - gap : Nat) : Int) + gap = hole := by omega
        rw [shiftLoop, hfrom, if_pos (Int.natCast_nonneg _), load_lt hlt, Option.bind_eq_bind,
          Option.bind_some, if_pos (hgt hlt), hback, store_eq _ hhole]
        exact hrun fuel (by omega)
    | inr hstays =>
      refine ⟨array, hole, hhole, List.Perm.refl _, fun fuel hfuel => ?_⟩
      obtain ⟨fuel, rfl⟩ := Nat.exists_eq_succ_of_ne_zero (Nat.ne_zero_of_lt hfuel)
      rw [shiftLoop]
      split
      · rename_i hj
        have hfrom : (hole : Int) - gap = (hole - gap : Nat) := by omega
        have hlt : hole - gap < array.length := by omega
        have hle : ¬o.cmp array[hole - gap] temp > 0 := fun hgt =>
          hstays ⟨by omega, fun _ => hgt⟩
        rw [hfrom, load_lt hlt, Option.bind_eq_bind, Option.bind_some, if_neg hle]
      · rfl

theorem insertOne_perm {gap : Nat} (hgap : 0 < gap) {array : List α} {i : Nat}
    (hi : i < array.length) :
    ∃ result, result.Perm array ∧
      ∀ fuel > i, insertOne o.cmp fuel gap array i = some result := by
  obtain ⟨moved, hole, hhole, hperm, hrun⟩ := shiftLoop_perm o hgap array[i] array i hi
  rw [List.set_getElem_self] at hperm
  refine ⟨moved.set hole array[i], hperm, fun fuel hfuel => ?_⟩
  rw [insertOne]
  simp only [load_lt hi, hrun fuel hfuel, Option.bind_eq_bind, Option.bind_some,
    Int.sub_add_cancel, store_eq _ hhole]

theorem passLoop_perm {gap : Nat} (hgap : 0 < gap) (n : Nat) {array : List α} {i : Nat}
    (hn : n = array.length - i) :
    ∃ result, result.Perm array ∧
      ∀ fuel > array.length, passLoop o.cmp fuel gap n array i = some result := by
  induction n generalizing array i with
  | zero => exact ⟨array, List.Perm.refl array, fun _ _ => rfl⟩
  | succ n ih =>
    have hi : i < array.length := by omega
    obtain ⟨next, hperm, hone⟩ := insertOne_perm o hgap hi
    have hlen := hperm.length_eq
    obtain ⟨result, hperm', hrun⟩ := @ih next (i + 1) (by omega)
    refine ⟨result, hperm'.trans hperm, fun fuel hfuel => ?_⟩
    rw [passLoop, hone fuel (by omega)]
    exact hrun fuel (by omega)

/-! ## The passes together -/

theorem gapPass_perm (m : Nat) (array : List α) :
    ∃ result, result.Perm array ∧ (m = 0 → result = array) ∧ (m = 1 → o.Sorted result) ∧
      ∀ fuel > array.length, gapPass o.cmp fuel (gapAt m : Nat) array = some result := by
  have hcount : ((array.length : Int) - (gapAt m : Nat)).toNat = array.length - gapAt m := by
    omega
  cases m with
  | zero =>
    refine ⟨array, List.Perm.refl array, fun _ => rfl, fun h => absurd h (by decide),
      fun fuel hfuel => ?_⟩
    rw [gapPass, hcount]
    exact passLoop_zero o (Nat.zero_lt_of_lt hfuel) _ rfl
  | succ m =>
    cases m with
    | zero =>
      exact ⟨o.sort array, o.sort_perm array, fun h => absurd h (by decide),
        fun _ => o.sort_sorted array, fun fuel hfuel => gapPass_one o array hfuel⟩
    | succ m =>
      have hgap : 0 < gapAt (m + 1 + 1) := Nat.succ_pos _
      obtain ⟨result, hperm, hrun⟩ :=
        passLoop_perm o hgap (array.length - gapAt (m + 1 + 1)) rfl
      refine ⟨result, hperm, fun h => absurd h (by omega), fun h => absurd h (by omega),
        fun fuel hfuel => ?_⟩
      rw [gapPass, hcount]
      exact hrun fuel hfuel

/-- With `m` gaps left, the loop ends; a sorted array comes out when one is among those
still to come. -/
theorem gapLoop_sorts (m : Nat) (array : List α) :
    ∃ result, result.Perm array ∧ (m ≤ 1 → result = array) ∧ (2 ≤ m → o.Sorted result) ∧
      ∀ n fuel, m < n → array.length < fuel →
        gapLoop o.cmp fuel n (gapAt m : Nat) array = some result := by
  induction m generalizing array with
  | zero =>
    refine ⟨array, List.Perm.refl array, fun _ => rfl, fun h => absurd h (by decide),
      fun n fuel hn hfuel => ?_⟩
    obtain ⟨n, rfl⟩ := Nat.exists_eq_succ_of_ne_zero (Nat.ne_of_gt hn)
    rfl
  | succ m ih =>
    have hpos : ((gapAt (m + 1) : Nat) : Int) > 0 := Int.natCast_pos.mpr (Nat.succ_pos _)
    obtain ⟨next, hperm, hsame, hone, hpass⟩ := gapPass_perm o m array
    have hlen := hperm.length_eq
    obtain ⟨result, hperm', hsame', hsorted, hrun⟩ := ih next
    refine ⟨result, hperm'.trans hperm, fun hm => ?_, fun hm => ?_, fun n fuel hn hfuel => ?_⟩
    · rw [hsame' (by omega), hsame (by omega)]
    · cases Nat.lt_or_ge m 2 with
      | inl hlt =>
        rw [hsame' (by omega)]
        exact hone (by omega)
      | inr hge => exact hsorted hge
    · obtain ⟨n, rfl⟩ := Nat.exists_eq_succ_of_ne_zero (Nat.ne_zero_of_lt hn)
      rw [gapLoop, if_pos hpos]
      simp only [gapAt_div, hpass fuel hfuel, Option.bind_eq_bind, Option.bind_some]
      exact hrun n fuel (Nat.lt_of_succ_lt_succ hn) (by omega)

/-- Shell sort ends inside the array with a sorted permutation of it. -/
theorem shellSort_sorts (array : List α) (hnum : array.length < 2 ^ 29) :
    ∃ result, result.Perm array ∧ o.Sorted result ∧
      ∃ steps, ∀ fuel ≥ steps, shellSort o.cmp fuel array = some result := by
  obtain ⟨m, hroom, hm, hgrow⟩ := growGap_reaches hnum 0 (Nat.zero_le _)
  obtain ⟨result, hperm, -, hsorted, hrun⟩ := gapLoop_sorts o (m + 1) array
  refine ⟨result, hperm, ?_, array.length + 3, fun fuel hfuel => ?_⟩
  · cases Nat.lt_or_ge array.length 2 with
    | inl hshort =>
      have hlen : result.length ≤ 1 := by
        rw [hperm.length_eq]
        omega
      exact List.pairwise_iff_getElem.mpr fun p q hp hq hpq => by omega
    | inr hlong =>
      refine hsorted ?_
      cases m with
      | zero => exact absurd (Nat.le_trans hlong hroom) (by decide)
      | succ m => exact Nat.le_add_left 2 m
  · have hstart : growGap array.length fuel 1 = some ((gapAt (m + 1) : Nat) : Int) :=
      hgrow fuel (by omega)
    rw [shellSort, hstart]
    exact hrun fuel fuel (by omega) (by omega)

theorem shellSort_sorts_four :
    shellSort Comparator.ofInt.cmp 7 [3, 1, 4, 1] = some [1, 1, 3, 4] ∧
      ∃ result, result.Perm [3, 1, 4, 1] ∧ Comparator.ofInt.Sorted result ∧
        ∃ steps, ∀ fuel ≥ steps, shellSort Comparator.ofInt.cmp fuel [3, 1, 4, 1] = some result :=
  ⟨by decide, shellSort_sorts Comparator.ofInt [3, 1, 4, 1] (by decide)⟩

end Wifimodem
