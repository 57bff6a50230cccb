import Mathlib.Data.List.Basic

/-!
# Extents of an address space

An extent is a start address and a length. A list of extents that climb never
has two that overlap.
-/

structure Extent where
  addr : Nat
  len : Nat
deriving DecidableEq, Repr

namespace Extent

def fin (x : Extent) : Nat := x.addr + x.len

/-- No address belongs to both. -/
def Apart (x y : Extent) : Prop := x.fin ≤ y.addr ∨ y.fin ≤ x.addr

def Within (x : Extent) (lo hi : Nat) : Prop := lo ≤ x.addr ∧ x.fin ≤ hi

/-- Every extent ends before the next one starts, all of them between `lo` and `hi`. -/
def Climbs (hi : Nat) : Nat → List Extent → Prop
  | _, [] => True
  | lo, x :: xs => x.Within lo hi ∧ Climbs hi x.fin xs

variable {lo hi : Nat} {x : Extent} {xs : List Extent}

theorem Climbs.within (h : Climbs hi lo xs) : ∀ x ∈ xs, x.Within lo hi := by
  induction xs generalizing lo with
  | nil => exact fun x hx => absurd hx List.not_mem_nil
  | cons x xs ih =>
    intro y hy
    rcases List.mem_cons.mp hy with rfl | hy
    · exact h.1
    · obtain ⟨hlo, hhi⟩ := ih h.2 y hy
      exact ⟨Nat.le_trans (Nat.le_trans h.1.1 (Nat.le_add_right _ _)) hlo, hhi⟩

theorem Climbs.pairwise (h : Climbs hi lo xs) : xs.Pairwise Apart := by
  induction xs generalizing lo with
  | nil => exact List.Pairwise.nil
  | cons x xs ih =>
    apply List.Pairwise.cons
    · intro y hy
      exact .inl (h.2.within y hy).1
    · exact ih h.2

end Extent
