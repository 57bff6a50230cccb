import Wifimodem.Core.Bounds
import Wifimodem.Core.ShellSort

/-!
# Searching what has been sorted

A search may compare elements with a key of another type. Its comparison has to agree
with that of the sort: an element does not stand above the key when one that it precedes
stands below.
-/

namespace Wifimodem

variable {α κ : Type}

/-! ## The three sorts -/

inductive SortKind where
  | insertion | selection | shell
deriving DecidableEq

/-- The function that the macro generates. -/
def SortKind.sort (kind : SortKind) (cmp : α → α → Int) (fuel : Nat) (array : List α) :
    Option (List α) :=
  match kind with
  | .insertion => insertionSort cmp fuel array
  | .selection => selectionSort cmp array
  | .shell => shellSort cmp fuel array

section
variable (o : Comparator α)

theorem shellSort_result (array : List α) (hnum : array.length < 2 ^ 29) :
    ∃ result, result.Perm array ∧ o.Sorted result ∧
      ∀ fuel ≥ array.length + 3, shellSort o.cmp fuel array = some result := by
  obtain ⟨m, hroom, hm, hgrow⟩ := growGap_reaches hnum 0 (Nat.zero_le _)
  obtain ⟨result, hperm, hsame, hsorted, hrun⟩ := gapLoop_sorts o (m + 1) array
  refine ⟨result, hperm, ?_, fun fuel hfuel => ?_⟩
  · cases m with
    | zero =>
      have hone : array.length ≤ 1 := hroom
      rw [hsame (Nat.le_refl 1)]
      exact List.pairwise_iff_getElem.mpr fun p q hp hq hpq => by omega
    | succ m => exact hsorted (Nat.le_add_left 2 m)
  · have hstart : growGap array.length fuel 1 = some ((gapAt (m + 1) : Nat) : Int) :=
      hgrow fuel (by omega)
    rw [shellSort, hstart]
    exact hrun fuel fuel (by omega) (by omega)

theorem SortKind.sort_result (kind : SortKind) (array : List α)
    (hnum : kind = .shell → array.length < 2 ^ 29) :
    ∃ result, result.Perm array ∧ o.Sorted result ∧
      ∀ fuel ≥ array.length + 3, kind.sort o.cmp fuel array = some result := by
  cases kind with
  | insertion =>
    refine ⟨o.sort array, o.sort_perm array, o.sort_sorted array, fun fuel hfuel => ?_⟩
    exact insertionSort_eq o array (by omega)
  | selection =>
    obtain ⟨result, hrun, hperm, hsorted⟩ := selectionSort_sorted o array
    exact ⟨result, hperm, hsorted, fun _ _ => hrun⟩
  | shell => exact shellSort_result o array (hnum rfl)

end

/-! ## What stands in front of a bound -/

section
variable {below : α → Bool} {array : List α} {bound : Nat}

theorem Splits.filter_take (h : Splits below array bound) :
    array.filter below = array.take bound := by
  have hfront : (array.take bound).filter below = array.take bound := by
    rw [List.filter_eq_self]
    intro x hx
    obtain ⟨i, hi, rfl⟩ := List.mem_take_iff_getElem.mp hx
    exact (h.2 i _ (List.getElem?_eq_getElem (by omega))).mpr (by omega)
  have hback : (array.drop bound).filter below = [] := by
    rw [List.filter_eq_nil_iff]
    intro x hx
    obtain ⟨i, hi, rfl⟩ := List.mem_drop_iff_getElem.mp hx
    rw [h.2 _ _ (List.getElem?_eq_getElem _)]
    omega
  calc array.filter below
      = (array.take bound ++ array.drop bound).filter below := by rw [List.take_append_drop]
    _ = array.take bound := by rw [List.filter_append, hfront, hback, List.append_nil]

theorem Splits.filter_drop (h : Splits below array bound) :
    array.filter (fun x => !below x) = array.drop bound := by
  have hfront : (array.take bound).filter (fun x => !below x) = [] := by
    rw [List.filter_eq_nil_iff]
    intro x hx
    obtain ⟨i, hi, rfl⟩ := List.mem_take_iff_getElem.mp hx
    rw [(h.2 i _ (List.getElem?_eq_getElem (by omega))).mpr (by omega)]
    decide
  have hback : (array.drop bound).filter (fun x => !below x) = array.drop bound := by
    rw [List.filter_eq_self]
    intro x hx
    obtain ⟨i, hi, rfl⟩ := List.mem_drop_iff_getElem.mp hx
    have hlt : bound + i < array.length := by omega
    have hside := mt (h.2 _ _ (List.getElem?_eq_getElem hlt)).mp (by omega)
    rw [Bool.not_eq_true] at hside
    rw [hside]
    rfl
  calc array.filter (fun x => !below x)
      = (array.take bound ++ array.drop bound).filter fun x => !below x := by
        rw [List.take_append_drop]
    _ = array.drop bound := by rw [List.filter_append, hfront, hback, List.nil_append]

theorem Splits.drop (h : Splits below array bound) {n : Nat} (hn : n ≤ bound) :
    Splits below (array.drop n) (bound - n) := by
  refine ⟨?_, fun i x hx => ?_⟩
  · have hend := h.1
    rw [List.length_drop]
    omega
  · rw [List.getElem?_drop] at hx
    rw [h.2 _ x hx]
    omega

end

/-- The key compares with the elements as they compare with each other. -/
def KeyAgrees (o : Comparator α) (cmp : α → κ → Int) (key : κ) : Prop :=
  ∀ x y, o.Le x y → (cmp x key).sign ≤ (cmp y key).sign

theorem KeyAgrees.self (o : Comparator α) (key : α) : KeyAgrees o o.cmp key := by
  intro x y hxy
  cases Int.lt_trichotomy (o.cmp y key) 0 with
  | inl hy =>
    have hx : o.cmp x key < 0 := by
      refine Int.not_le.mp fun hx => ?_
      have hflip := o.ordered.flip key y
      have hback := o.ordered.flip key x
      have hkey : o.Le key x := by
        simp only [Comparator.Le]
        omega
      have hle := o.le_trans hkey hxy
      simp only [Comparator.Le] at hle
      omega
    rw [Int.sign_eq_neg_one_of_neg hx, Int.sign_eq_neg_one_of_neg hy]
  | inr hy =>
    cases hy with
    | inl hy =>
      rw [hy, Int.sign_zero]
      exact Int.sign_nonpos_iff.mpr (o.le_trans hxy (Int.le_of_eq hy))
    | inr hy =>
      rw [Int.sign_eq_one_of_pos hy]
      rcases Int.sign_trichotomy (o.cmp x key) with hx | hx | hx <;> omega

theorem KeyAgrees.partitioned {o : Comparator α} {cmp : α → κ → Int} {key : κ}
    (h : KeyAgrees o cmp key) {array : List α} (hsorted : o.Sorted array) :
    Partitioned cmp key array := hsorted.imp fun hxy => h _ _ hxy

section
variable {cmp : α → κ → Int} {key : κ} {array : List α}

theorem Partitioned.below (h : Partitioned cmp key array) :
    array.Pairwise fun x y => decide (cmp y key < 0) = true → decide (cmp x key < 0) = true := by
  refine h.imp fun {x y} hxy hy => ?_
  rw [decide_eq_true_eq] at hy ⊢
  rw [Int.sign_eq_neg_one_of_neg hy] at hxy
  refine Int.not_le.mp fun hx => ?_
  have hsign := Int.sign_nonneg_iff.mpr hx
  omega

theorem Partitioned.notAbove (h : Partitioned cmp key array) :
    array.Pairwise fun x y => decide (cmp y key ≤ 0) = true → decide (cmp x key ≤ 0) = true := by
  refine h.imp fun {x y} hxy hy => ?_
  rw [decide_eq_true_eq] at hy ⊢
  exact Int.sign_nonpos_iff.mp (Int.le_trans hxy (Int.sign_nonpos_iff.mpr hy))

end

theorem Splits.le {below below' : α → Bool} {array : List α} {bound bound' : Nat}
    (h : Splits below array bound) (h' : Splits below' array bound')
    (hmono : ∀ x, below x = true → below' x = true) : bound ≤ bound' := by
  refine Nat.not_lt.mp fun hlt => ?_
  have hx := List.getElem?_eq_getElem (Nat.lt_of_lt_of_le hlt h.1)
  have hbelow := hmono _ ((h.2 bound' _ hx).mpr hlt)
  exact Nat.lt_irrefl bound' ((h'.2 bound' _ hx).mp hbelow)

/-! ## The search after the sort -/

/-- The elements that a search tells apart, in the order they have in the array. -/
structure Enclosed (cmp : α → κ → Int) (key : κ) (result : List α) (lower upper : Nat) : Prop where
  lower_le : lower ≤ upper
  lowerBound : lowerBound cmp result key = some lower
  upperBound : upperBound cmp result key = some upper
  below : result.take lower = result.filter fun x => cmp x key < 0
  same : (result.drop lower).take (upper - lower) = result.filter fun x => cmp x key = 0
  above : result.drop upper = result.filter fun x => 0 < cmp x key

theorem Partitioned.enclosed {cmp : α → κ → Int} {key : κ} {result : List α}
    (h : Partitioned cmp key result) : ∃ lower upper, Enclosed cmp key result lower upper := by
  obtain ⟨lower, hlrun, hlower⟩ := boundLoop_splits h.below
  obtain ⟨upper, hurun, hupper⟩ := boundLoop_splits h.notAbove
  have hle : lower ≤ upper := hlower.le hupper fun x hx => by
    rw [decide_eq_true_eq] at hx ⊢
    exact Int.le_of_lt hx
  refine ⟨lower, upper, hle, hlrun, hurun, hlower.filter_take.symm, ?_, ?_⟩
  · rw [← (hupper.drop hle).filter_take, ← hlower.filter_drop, List.filter_filter]
    refine List.filter_congr fun x _ => ?_
    rw [Bool.eq_iff_iff, Bool.and_eq_true, Bool.not_eq_true', decide_eq_true_eq,
      decide_eq_false_iff_not, decide_eq_true_eq]
    omega
  · rw [← hupper.filter_drop]
    refine List.filter_congr fun x _ => ?_
    rw [Bool.eq_iff_iff, Bool.not_eq_true', decide_eq_false_iff_not, decide_eq_true_eq]
    omega

/-- Elements that compare alike with the key keep their order in a stable sort, when they
compare equal with each other. -/
theorem KeyAgrees.sort_filter {o : Comparator α} {cmp : α → κ → Int} {key : κ}
    (h : KeyAgrees o cmp key) (halike : ∀ x y, cmp x key = 0 → cmp y key = 0 → o.Equiv x y)
    (array : List α) : (o.sort array).filter (fun x => cmp x key = 0) =
      array.filter fun x => cmp x key = 0 := by
  rcases hties : array.filter fun x => cmp x key = 0 with _ | ⟨a, ties⟩
  · rw [List.filter_eq_nil_iff] at hties ⊢
    exact fun x hx => hties x ((o.sort_perm array).mem_iff.mp hx)
  · have ha : a ∈ array.filter fun x => cmp x key = 0 := hties ▸ List.mem_cons_self
    have ha : cmp a key = 0 := of_decide_eq_true (List.mem_filter.mp ha).2
    have hclass : (fun x => decide (cmp x key = 0)) = fun x => decide (o.Equiv a x) := by
      funext x
      refine decide_eq_decide.mpr ⟨halike a x ha, fun hx => ?_⟩
      obtain ⟨hax, hxa⟩ := o.equiv_iff.mp hx
      have hup := h a x hax
      have hdown := h x a hxa
      rw [ha, Int.sign_zero] at hup hdown
      exact Int.sign_eq_zero_iff_zero.mp (Int.le_antisymm hdown hup)
    rw [hclass, o.sort_stable, ← hclass, hties]

/-- Whatever has been sorted, and whichever way: the bounds of a key enclose the elements
that compare equal to it, between those below it and those above it. -/
theorem sort_then_search (kind : SortKind) (o : Comparator α) (cmp : α → κ → Int) (key : κ)
    (hkey : KeyAgrees o cmp key) (array : List α) (hnum : kind = .shell → array.length < 2 ^ 29) :
    ∃ result lower upper, lower ≤ upper ∧
      (∀ fuel ≥ array.length + 3, kind.sort o.cmp fuel array = some result) ∧
      lowerBound cmp result key = some lower ∧ upperBound cmp result key = some upper ∧
      (result.take lower).Perm (array.filter fun x => cmp x key < 0) ∧
      ((result.drop lower).take (upper - lower)).Perm (array.filter fun x => cmp x key = 0) ∧
      (result.drop upper).Perm (array.filter fun x => 0 < cmp x key) ∧
      (kind = .insertion → (∀ x y, cmp x key = 0 → cmp y key = 0 → o.Equiv x y) →
        (result.drop lower).take (upper - lower) = array.filter fun x => cmp x key = 0) := by
  obtain ⟨result, hperm, hsorted, hrun⟩ := kind.sort_result o array hnum
  obtain ⟨lower, upper, hfound⟩ := (hkey.partitioned hsorted).enclosed
  refine ⟨result, lower, upper, hfound.lower_le, hrun, hfound.lowerBound, hfound.upperBound,
    ?_, ?_, ?_, ?_⟩
  · rw [hfound.below]
    exact hperm.filter _
  · rw [hfound.same]
    exact hperm.filter _
  · rw [hfound.above]
    exact hperm.filter _
  · rintro rfl halike
    have hresult : result = o.sort array := by
      have hsort := insertionSort_eq o array (show array.length < array.length + 3 by omega)
      exact Option.some.inj ((hrun _ (Nat.le_refl _)).symm.trans hsort)
    rw [hfound.same, hresult]
    exact hkey.sort_filter halike array

/-- Pairs in the order of their first parts. -/
def pairOrder : Comparator (Int × Char) where
  cmp a b := a.1 - b.1
  ordered := ⟨fun a b => by omega, fun a b c hab hbc => by omega⟩

theorem sort_then_search_pairs :
    ∃ result lower upper, lower ≤ upper ∧
      (∀ fuel ≥ 6, SortKind.insertion.sort pairOrder.cmp fuel [(3, 'a'), (1, 'b'), (3, 'c')] =
        some result) ∧
      lowerBound (fun x (key : Int) => x.1 - key) result 3 = some lower ∧
      upperBound (fun x (key : Int) => x.1 - key) result 3 = some upper ∧
      (result.drop lower).take (upper - lower) = [(3, 'a'), (3, 'c')] := by
  have hkey : KeyAgrees pairOrder (fun x (key : Int) => x.1 - key) 3 := fun x y hxy =>
    KeyAgrees.self Comparator.ofInt 3 x.1 y.1 hxy
  obtain ⟨result, lower, upper, hle, hrun, hlower, hupper, -, -, -, hstable⟩ :=
    sort_then_search .insertion pairOrder _ 3 hkey [(3, 'a'), (1, 'b'), (3, 'c')] nofun
  refine ⟨result, lower, upper, hle, hrun, hlower, hupper, hstable rfl fun x y hx hy => ?_⟩
  have heq : x.1 - y.1 = 0 := by omega
  exact heq

end Wifimodem
