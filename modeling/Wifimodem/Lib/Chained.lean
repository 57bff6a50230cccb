import Mathlib.Data.List.Nodup
import Mathlib.Logic.Function.Basic

/-!
# Lists that end in a null pointer

Every node points to the next one, and the last one points to none.
-/

variable {α : Type*}

/-- `xs` are the nodes from the pointer `p` on. -/
def Chained (next : α → Option α) : Option α → List α → Prop
  | p, [] => p = none
  | p, x :: xs => p = some x ∧ Chained next (next x) xs

namespace Chained

variable {next next' : α → Option α} {p : Option α} {x : α} {xs : List α}

theorem congr (h : Chained next p xs) (hsame : ∀ y ∈ xs, next' y = next y) :
    Chained next' p xs := by
  induction xs generalizing p with
  | nil => exact h
  | cons y xs ih =>
    obtain ⟨hp, hrest⟩ := h
    refine ⟨hp, ?_⟩
    rw [hsame y List.mem_cons_self]
    exact ih hrest fun z hz => hsame z (List.mem_cons_of_mem y hz)

/-- The pointer of the last node is set to a node that points to none. -/
theorem append_last (h : Chained next p xs) (hnd : xs.Nodup) (hnew : next' x = none)
    (hlast : ∀ y ∈ xs, xs.getLast? = some y → next' y = some x)
    (hsame : ∀ y ∈ xs, xs.getLast? ≠ some y → next' y = next y) :
    Chained next' (p.or (some x)) (xs ++ [x]) := by
  induction xs generalizing p with
  | nil =>
    obtain rfl := h
    exact ⟨rfl, hnew⟩
  | cons y xs ih =>
    obtain ⟨rfl, hrest⟩ := h
    obtain ⟨hy, hnd⟩ := List.nodup_cons.mp hnd
    refine ⟨rfl, ?_⟩
    cases xs with
    | nil =>
      rw [hlast y List.mem_cons_self rfl]
      exact ⟨rfl, hnew⟩
    | cons z xs =>
      have htail := ih hrest hnd (fun u hu => hlast u (List.mem_cons_of_mem y hu))
        fun u hu => hsame u (List.mem_cons_of_mem y hu)
      rw [hsame y List.mem_cons_self fun hend => hy (List.mem_of_getLast? hend)]
      rwa [hrest.1, Option.some_or, ← hrest.1] at htail

end Chained
