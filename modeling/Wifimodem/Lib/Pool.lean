import Mathlib.Algebra.Group.Nat.Defs
import Mathlib.Data.Finset.Card
import Mathlib.Data.List.Infix

/-!
# Pools of distinct values

A value that the pool has not got yet is put behind the others, so that the place
of a value stays what it is as the pool grows.
-/

namespace Pool

variable {β : Type} [DecidableEq β]

def add (pool : List β) (b : β) : List β := if b ∈ pool then pool else pool ++ [b]

def addAll (pool bs : List β) : List β := bs.foldl add pool

variable {pool pool' bs : List β} {b c : β}

theorem add_of_mem (h : b ∈ pool) : add pool b = pool := if_pos h

theorem add_of_not_mem (h : b ∉ pool) : add pool b = pool ++ [b] := if_neg h

theorem prefix_add (pool : List β) (b : β) : pool <+: add pool b := by
  rw [add]
  split
  · exact List.prefix_rfl
  · exact List.prefix_append pool [b]

theorem mem_add : c ∈ add pool b ↔ c ∈ pool ∨ c = b := by
  rw [add]
  split
  · rename_i hb
    exact ⟨.inl, fun h => h.elim id fun heq => heq ▸ hb⟩
  · rw [List.mem_append, List.mem_singleton]

theorem nodup_add (h : pool.Nodup) (b : β) : (add pool b).Nodup := by
  rw [add]
  split
  · exact h
  · rename_i hb
    refine List.nodup_append.mpr ⟨h, List.nodup_singleton b, fun c hc d hd heq => ?_⟩
    rw [List.mem_singleton] at hd
    exact hb (hd ▸ heq ▸ hc)

theorem addAll_cons (pool : List β) (b : β) (bs : List β) :
    addAll pool (b :: bs) = addAll (add pool b) bs := rfl

theorem addAll_append (pool bs cs : List β) :
    addAll pool (bs ++ cs) = addAll (addAll pool bs) cs := List.foldl_append

theorem prefix_addAll (pool bs : List β) : pool <+: addAll pool bs := by
  induction bs generalizing pool with
  | nil => exact List.prefix_rfl
  | cons b bs ih => exact (prefix_add pool b).trans (ih (add pool b))

theorem mem_addAll : c ∈ addAll pool bs ↔ c ∈ pool ∨ c ∈ bs := by
  induction bs generalizing pool with
  | nil => exact ⟨.inl, fun h => h.resolve_right List.not_mem_nil⟩
  | cons b bs ih => rw [addAll_cons, ih, mem_add, List.mem_cons, or_assoc]

theorem nodup_addAll (h : pool.Nodup) (bs : List β) : (addAll pool bs).Nodup := by
  induction bs generalizing pool with
  | nil => exact h
  | cons b bs ih => exact ih (nodup_add h b)

/-! ## Places -/

def place (pool : List β) (b : β) : Nat := pool.idxOf b

theorem place_lt (h : b ∈ pool) : place pool b < pool.length := List.idxOf_lt_length_of_mem h

theorem getElem?_place (h : b ∈ pool) : pool[place pool b]? = some b := by
  have hlt := place_lt h
  rw [List.getElem?_eq_getElem hlt]
  exact congrArg some (List.getElem_idxOf hlt)

theorem place_of_prefix (h : pool <+: pool') (hb : b ∈ pool) : place pool' b = place pool b := by
  obtain ⟨more, rfl⟩ := h
  exact List.idxOf_append_of_mem hb

theorem place_add_self (hb : b ∉ pool) : place (add pool b) b = pool.length := by
  rw [place, add_of_not_mem hb, List.idxOf_append_of_notMem hb, List.idxOf_cons_self,
    Nat.add_zero]

/-- A search from the front finds the place of a value. -/
theorem find?_place (pool : List β) (b : β) :
    (List.range pool.length).find? (fun i => pool[i]? = some b) =
      if b ∈ pool then some (place pool b) else none := by
  split
  · rename_i hb
    have hlt := place_lt hb
    refine List.find?_range_eq_some.mpr ⟨decide_eq_true (getElem?_place hb), by simpa, ?_⟩
    intro j hj
    have hjlt := Nat.lt_trans hj hlt
    have hne : (pool[j] == b) = false := List.not_of_lt_findIdx hj
    rw [List.getElem?_eq_getElem hjlt]
    simpa using hne
  · rename_i hb
    refine List.find?_eq_none.mpr fun i _ hi => hb ?_
    exact List.mem_of_getElem? (of_decide_eq_true hi)

/-- The places of values without repetition are the first numbers. -/
theorem place_lt_iff (h : pool.Nodup) (n : Nat) :
    (∀ b ∈ pool, place pool b < n) ↔ pool.length ≤ n := by
  constructor
  · intro hall
    refine Nat.not_lt.mp fun hlt => ?_
    have hplace := hall pool[n] (List.getElem_mem hlt)
    rw [place, h.idxOf_getElem] at hplace
    exact Nat.lt_irrefl n hplace
  · exact fun hle b hb => Nat.lt_of_lt_of_le (place_lt hb) hle

theorem length_addAll (bs : List β) : (addAll [] bs).length = bs.toFinset.card := by
  rw [← List.toFinset_card_of_nodup (nodup_addAll List.nodup_nil bs)]
  congr 1
  ext c
  rw [List.mem_toFinset, List.mem_toFinset, mem_addAll]
  simp

/-- How many numbers the pool is given; `seen` has a bit for each that it holds. -/
def countNew : Nat → List Nat → Nat
  | _, [] => 0
  | seen, b :: bs =>
    if seen.testBit b then countNew seen bs else countNew (seen ||| 2 ^ b) bs + 1

theorem length_addAll_countNew {pool : List Nat} {seen : Nat}
    (h : ∀ c, seen.testBit c = true ↔ c ∈ pool) (bs : List Nat) :
    (addAll pool bs).length = pool.length + countNew seen bs := by
  induction bs generalizing pool seen with
  | nil => rfl
  | cons b bs ih =>
    rw [addAll_cons, countNew]
    cases Decidable.em (b ∈ pool) with
    | inl hmem => rw [if_pos ((h b).mpr hmem), add_of_mem hmem, ih h]
    | inr hnew =>
      have hgrown : ∀ c, (seen ||| 2 ^ b).testBit c = true ↔ c ∈ pool ++ [b] := by
        intro c
        rw [Nat.testBit_or, Nat.testBit_two_pow, Bool.or_eq_true, decide_eq_true_iff, h,
          List.mem_append, List.mem_singleton, eq_comm]
      rw [if_neg (mt (h b).mp hnew), add_of_not_mem hnew, ih hgrown, List.length_append,
        List.length_singleton, Nat.add_assoc, Nat.add_comm 1]

theorem countNew_eq_card (bs : List Nat) : countNew 0 bs = bs.toFinset.card := by
  have hnone : ∀ c, (0 : Nat).testBit c = true ↔ c ∈ ([] : List Nat) := by simp
  have hlen := length_addAll_countNew hnone bs
  rw [length_addAll] at hlen
  rw [hlen, List.length_nil, Nat.zero_add]

end Pool
