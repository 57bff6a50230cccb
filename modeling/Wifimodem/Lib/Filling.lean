import Mathlib.Algebra.BigOperators.Group.List.Basic
import Mathlib.Algebra.GroupWithZero.Nat
import Mathlib.Data.List.Basic

/-!
# Filling a room with parts

Parts of given sizes are put into a room one after another, and the first one
that does not fit ends it. Nothing of the room is left over just when it ends
where a part ends.
-/

namespace Filling

/-- How many of the parts fit. -/
def count : List Nat → Nat → Nat
  | [], _ => 0
  | part :: parts, room => if room < part then 0 else count parts (room - part) + 1

theorem count_cons (part : Nat) (parts : List Nat) (room : Nat) :
    count (part :: parts) room = if room < part then 0 else count parts (room - part) + 1 := rfl

theorem count_cons_of_lt {part room : Nat} (h : room < part) (parts : List Nat) :
    count (part :: parts) room = 0 := if_pos h

theorem count_cons_of_le {part room : Nat} (h : part ≤ room) (parts : List Nat) :
    count (part :: parts) room = count parts (room - part) + 1 := if_neg (Nat.not_lt.mpr h)

theorem add_count_cons_of_le {part room : Nat} (h : part ≤ room) (n : Nat) (parts : List Nat) :
    n + count (part :: parts) room = n + 1 + count parts (room - part) := by
  rw [count_cons_of_le h, Nat.add_right_comm, Nat.add_assoc]

/-- An empty part always fits. -/
theorem add_count_zero_cons (n : Nat) (parts : List Nat) (room : Nat) :
    n + count (0 :: parts) room = n + 1 + count parts room :=
  add_count_cons_of_le (Nat.zero_le room) n parts

/-- The room takes all of the parts, or ends where one of them ends. -/
def EndsAtPart (parts : List Nat) (room : Nat) : Prop :=
  parts.sum ≤ room ∨ ∃ n, (parts.take n).sum = room

theorem count_le_length (parts : List Nat) (room : Nat) : count parts room ≤ parts.length := by
  induction parts generalizing room with
  | nil => exact Nat.le_refl 0
  | cons part parts ih =>
    rw [count_cons]
    split
    · exact Nat.zero_le _
    · exact Nat.succ_le_succ (ih _)

theorem sum_take_count_le (parts : List Nat) (room : Nat) :
    (parts.take (count parts room)).sum ≤ room := by
  induction parts generalizing room with
  | nil => exact Nat.zero_le _
  | cons part parts ih =>
    rw [count_cons]
    split
    · exact Nat.zero_le _
    · rw [List.take_succ_cons, List.sum_cons]
      have hrest := ih (room - part)
      omega

theorem count_eq_length_iff (parts : List Nat) (room : Nat) :
    count parts room = parts.length ↔ parts.sum ≤ room := by
  induction parts generalizing room with
  | nil => exact iff_of_true rfl (Nat.zero_le _)
  | cons part parts ih =>
    have hrest := ih (room - part)
    rw [count_cons, List.length_cons, List.sum_cons]
    split <;> omega

/-- No more parts go in than those counted. -/
theorem sum_take_le (parts : List Nat) (room n : Nat) (h : (parts.take n).sum ≤ room) :
    (parts.take n).sum ≤ (parts.take (count parts room)).sum := by
  induction parts generalizing room n with
  | nil =>
    rw [List.take_nil]
    exact Nat.zero_le _
  | cons part parts ih =>
    cases n with
    | zero => exact Nat.zero_le _
    | succ n =>
      rw [List.take_succ_cons, List.sum_cons] at h ⊢
      rw [count_cons_of_le (by omega), List.take_succ_cons, List.sum_cons]
      have hrest := ih (room - part) n (by omega)
      omega

/-- The parts that fit leave nothing of the room. -/
theorem exact_iff (parts : List Nat) (room : Nat) :
    (count parts room < parts.length → (parts.take (count parts room)).sum = room) ↔
      EndsAtPart parts room := by
  have hall := count_eq_length_iff parts room
  have hle := count_le_length parts room
  constructor
  · intro h
    rcases Nat.eq_or_lt_of_le hle with heq | hlt
    · exact .inl (hall.mp heq)
    · exact .inr ⟨_, h hlt⟩
  · rintro (hsum | ⟨n, hn⟩) hlt
    · have heq := hall.mpr hsum
      omega
    · have hmax := sum_take_le parts room n (Nat.le_of_eq hn)
      have hfits := sum_take_count_le parts room
      omega

end Filling
