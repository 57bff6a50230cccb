import Mathlib.Data.List.Basic

/-!
# Lists made of blocks of one length

A place in the whole is a block and a place in that block, the quotient and the
remainder by the length. So the whole can be given by the blocks that occur in it
and, for every block, its place among them.
-/

namespace Blocks

variable {α : Type} {k n i r : Nat} {l b : List α} {bs pool : List (List α)}

def Uniform (k : Nat) (bs : List (List α)) : Prop := ∀ b ∈ bs, b.length = k

/-- The first `n` blocks of a list. -/
def blocks (l : List α) (k n : Nat) : List (List α) :=
  (List.range n).map fun i => l.extract (i * k) ((i + 1) * k)

theorem Uniform.tail (h : Uniform k (b :: bs)) : Uniform k bs := (List.forall_mem_cons.mp h).2

theorem length_flatten (h : Uniform k bs) : bs.flatten.length = bs.length * k := by
  induction bs with
  | nil => exact (Nat.zero_mul k).symm
  | cons b bs ih =>
    have hb : b.length = k := h b List.mem_cons_self
    rw [List.flatten_cons, List.length_append, ih h.tail, hb, List.length_cons, Nat.succ_mul,
      Nat.add_comm]

theorem getElem?_flatten (h : Uniform k bs) (i : Nat) (hr : r < k) :
    bs.flatten[i * k + r]? = bs[i]?.bind (·[r]?) := by
  induction bs generalizing i with
  | nil => rfl
  | cons b bs ih =>
    have hb : b.length = k := h b List.mem_cons_self
    rw [List.flatten_cons]
    cases i with
    | zero =>
      rw [Nat.zero_mul, Nat.zero_add, List.getElem?_append_left (hb.symm ▸ hr)]
      rfl
    | succ i =>
      have hfrom : (i + 1) * k + r = b.length + (i * k + r) := by
        rw [hb, Nat.succ_mul]
        omega
      rw [hfrom, List.getElem?_append_right (Nat.le_add_right _ _), Nat.add_sub_cancel_left,
        ih h.tail]
      rfl

theorem extract_flatten (h : Uniform k bs) (hi : bs[i]? = some b) :
    bs.flatten.extract (i * k) (i * k + k) = b := by
  induction bs generalizing i with
  | nil => cases hi
  | cons c bs ih =>
    have hc : c.length = k := h c List.mem_cons_self
    rw [List.extract_eq_take_drop, Nat.add_sub_cancel_left, List.flatten_cons]
    cases i with
    | zero =>
      obtain rfl := Option.some.inj hi
      rw [Nat.zero_mul, List.drop_zero, List.take_left' hc]
    | succ i =>
      have hfrom : (i + 1) * k = c.length + i * k := by
        rw [hc, Nat.succ_mul, Nat.add_comm]
      have htail := ih h.tail hi
      rw [List.extract_eq_take_drop, Nat.add_sub_cancel_left] at htail
      rw [hfrom, ← List.drop_drop, List.drop_left, htail]

theorem uniform_blocks (h : l.length = n * k) : Uniform k (blocks l k n) := by
  intro b hb
  obtain ⟨i, hi, rfl⟩ := List.mem_map.mp hb
  have hle : (i + 1) * k ≤ n * k := Nat.mul_le_mul_right k (List.mem_range.mp hi)
  rw [Nat.succ_mul] at hle
  rw [List.extract_eq_take_drop, List.length_take, List.length_drop, h, Nat.succ_mul]
  omega

theorem flatten_blocks (h : l.length = n * k) : (blocks l k n).flatten = l := by
  induction n generalizing l with
  | zero =>
    rw [Nat.zero_mul] at h
    rw [List.eq_nil_of_length_eq_zero h]
    rfl
  | succ n ih =>
    have htail : (l.drop k).length = n * k := by
      rw [List.length_drop, h, Nat.succ_mul, Nat.add_sub_cancel]
    have hrest : (List.range n).map (fun i => l.extract ((i + 1) * k) ((i + 1 + 1) * k)) =
        blocks (l.drop k) k n := by
      refine List.map_congr_left fun i _ => ?_
      simp only [List.extract_eq_take_drop, List.drop_drop, Nat.succ_mul, Nat.add_comm k]
      congr 1
      omega
    rw [blocks, List.range_succ_eq_map, List.map_cons, List.map_map, List.flatten_cons]
    change _ ++ ((List.range n).map fun i => l.extract ((i + 1) * k) ((i + 1 + 1) * k)).flatten = l
    rw [hrest, ih htail]
    simp

theorem blocks_map_range (f : Nat → α) (k n : Nat) :
    blocks ((List.range (n * k)).map f) k n =
      (List.range n).map fun i => (List.range k).map fun j => f (i * k + j) := by
  refine List.map_congr_left fun i hi => ?_
  have hle : (i + 1) * k ≤ n * k := Nat.mul_le_mul_right k (List.mem_range.mp hi)
  rw [Nat.succ_mul] at hle
  have hfits : k ≤ n * k - i * k := Nat.le_sub_of_add_le' hle
  have hlen : (i + 1) * k - i * k = k := by rw [Nat.succ_mul, Nat.add_sub_cancel_left]
  rw [List.extract_eq_take_drop, hlen, ← List.map_drop, ← List.map_take, List.range_eq_range',
    List.drop_range', List.take_range'_of_length_ge hfits, List.range'_eq_map_range, List.map_map]
  simp only [Nat.zero_add, Nat.mul_one]
  rfl

/-- The two-level table is the flat one, at every place. -/
theorem getElem?_pool (hk : 0 < k) (hpool : Uniform k pool) (hbs : Uniform k bs)
    {place : List α → Nat} (hplace : ∀ b ∈ bs, pool[place b]? = some b) (i : Nat) :
    (bs.map place)[i / k]?.bind (fun p => pool.flatten[p * k + i % k]?) = bs.flatten[i]? := by
  have hr := Nat.mod_lt i hk
  nth_rewrite 3 [← Nat.div_add_mod' i k]
  rw [getElem?_flatten hbs _ hr, List.getElem?_map]
  cases hb : bs[i / k]? with
  | none => rfl
  | some b =>
    rw [Option.map_some, Option.bind_some, getElem?_flatten hpool _ hr,
      hplace b (List.mem_of_getElem? hb)]

end Blocks
