import Mathlib.Data.Int.Order.Basic
import Mathlib.Data.List.Sort

/-!
# Comparison functions

A comparison returns a number whose sign says how its arguments are ordered.
Arguments with the result zero are equivalent; they need not be equal.
-/

/-- The sign orders the arguments totally, and swapping them turns it round. -/
structure TotalPreorder {α : Type} (cmp : α → α → Int) : Prop where
  flip : ∀ a b, 0 < cmp a b ↔ cmp b a < 0
  trans : ∀ a b c, cmp a b ≤ 0 → cmp b c ≤ 0 → cmp a c ≤ 0

/-- A comparison that orders its arguments. -/
structure Comparator (α : Type) where
  cmp : α → α → Int
  ordered : TotalPreorder cmp

namespace Comparator

/-- Numbers are compared by their difference. -/
def ofInt : Comparator Int where
  cmp a b := a - b
  ordered := ⟨fun a b => by omega, fun a b c hab hbc => by omega⟩

variable {α : Type} (o : Comparator α) {a b c : α}

/-- `a` may stand in front of `b`. -/
def Le (a b : α) : Prop := o.cmp a b ≤ 0

def Equiv (a b : α) : Prop := o.cmp a b = 0

instance (a b : α) : Decidable (o.Le a b) := inferInstanceAs (Decidable (_ ≤ _))

instance (a b : α) : Decidable (o.Equiv a b) := inferInstanceAs (Decidable (_ = _))

theorem cmp_self (a : α) : o.cmp a a = 0 := by
  have hflip := o.ordered.flip a a
  omega

theorem le_refl (a : α) : o.Le a a := Int.le_of_eq (o.cmp_self a)

theorem le_trans (hab : o.Le a b) (hbc : o.Le b c) : o.Le a c := o.ordered.trans a b c hab hbc

theorem not_gt : ¬0 < o.cmp a b ↔ o.Le a b := Int.not_lt

theorem not_le : ¬o.Le a b ↔ o.cmp b a < 0 := by
  rw [Le, Int.not_le]
  exact o.ordered.flip a b

theorem le_of_gt (h : 0 < o.cmp a b) : o.Le b a :=
  Int.le_of_lt ((o.ordered.flip a b).mp h)

theorem le_total (a b : α) : o.Le a b ∨ o.Le b a := by
  cases Decidable.em (o.Le a b) with
  | inl hle => exact .inl hle
  | inr hgt => exact .inr (Int.le_of_lt (o.not_le.mp hgt))

theorem equiv_iff : o.Equiv a b ↔ o.Le a b ∧ o.Le b a := by
  have hflip := o.ordered.flip a b
  have hback := o.ordered.flip b a
  simp only [Equiv, Le]
  omega

theorem equiv_symm (h : o.Equiv a b) : o.Equiv b a := (o.equiv_iff.mpr (o.equiv_iff.mp h).symm)

theorem equiv_trans (hab : o.Equiv a b) (hbc : o.Equiv b c) : o.Equiv a c := by
  obtain ⟨hab, hba⟩ := o.equiv_iff.mp hab
  obtain ⟨hbc, hcb⟩ := o.equiv_iff.mp hbc
  exact o.equiv_iff.mpr ⟨o.le_trans hab hbc, o.le_trans hcb hba⟩

/-! ## Sorted lists -/

def Sorted (l : List α) : Prop := l.Pairwise o.Le

/-- The elements as they are taken from the front, each put behind the ones it does not
precede. -/
def sort (l : List α) : List α := (l.reverse.insertionSort fun a b => o.Le b a).reverse

variable {l l' : List α}

theorem sort_perm (l : List α) : (o.sort l).Perm l :=
  (List.reverse_perm _).trans ((List.perm_insertionSort _ _).trans (List.reverse_perm l))

theorem sort_sorted (l : List α) : o.Sorted (o.sort l) := by
  have htotal : Std.Total fun a b => o.Le b a := ⟨fun a b => o.le_total b a⟩
  have htrans : IsTrans α fun a b => o.Le b a := ⟨fun _ _ _ hba hcb => o.le_trans hcb hba⟩
  exact List.pairwise_reverse.mpr (List.pairwise_insertionSort _ _)

/-- The elements equivalent to one stay in their order. -/
theorem sort_stable (l : List α) (a : α) :
    (o.sort l).filter (fun b => decide (o.Equiv a b)) = l.filter fun b => decide (o.Equiv a b) := by
  have hties : (l.reverse.filter fun b => decide (o.Equiv a b)).Pairwise fun b c => o.Le c b := by
    rw [List.pairwise_filter]
    apply List.pairwise_of_forall
    intro b c hb hc
    have hcb := o.equiv_trans (o.equiv_symm (of_decide_eq_true hc)) (of_decide_eq_true hb)
    exact (o.equiv_iff.mp hcb).1
  have hsub := List.sublist_insertionSort hties List.filter_sublist
  have hsub := (hsub.filter fun b => decide (o.Equiv a b)).reverse
  rw [List.filter_filter, ← List.filter_reverse, ← List.filter_reverse,
    List.reverse_reverse] at hsub
  simp only [Bool.and_self] at hsub
  have hlen := ((o.sort_perm l).filter fun b => decide (o.Equiv a b)).length_eq
  exact (hsub.eq_of_length hlen.symm).symm

/-- Two sorted lists of the same elements differ in the order of equivalent ones only. -/
theorem sorted_agree (hl : o.Sorted l) (hl' : o.Sorted l') (h : l.Perm l') :
    List.Forall₂ o.Equiv l l' := by
  -- An element is known up to equivalence by the elements that do not precede it.
  have hanti : ∀ S T : α → Prop, (∀ c, T c → S c) → (∀ c, S c → T c) → S = T :=
    fun S T hTS hST => funext fun c => propext ⟨hST c, hTS c⟩
  have hup : ∀ m : List α, o.Sorted m → (m.map o.Le).Pairwise fun S T => ∀ c, T c → S c := by
    intro m hm
    rw [List.pairwise_map]
    exact hm.imp fun hab c hbc => o.le_trans hab hbc
  have heq : l.map o.Le = l'.map o.Le :=
    (h.map o.Le).eq_of_pairwise (fun S T _ _ => hanti S T) (hup l hl) (hup l' hl')
  rw [← List.forall₂_eq_eq_eq, List.forall₂_map_left_iff, List.forall₂_map_right_iff] at heq
  refine heq.imp fun a b hab => o.equiv_iff.mpr ⟨?_, ?_⟩
  · rw [hab]
    exact o.le_refl b
  · rw [← hab]
    exact o.le_refl a

end Comparator
