import Mathlib.Data.List.TakeWhile

/-!
# Fixed blocks of storage with checked accesses

A block is a list of cells together with a sticky flag. An access that leaves
the block sets the flag and has no other effect, so a computation that ends
with a clear flag has stayed inside its storage.
-/

variable {α : Type*}

/-- `src` written over `xs` from position `off` on. -/
def List.overlay (xs : List α) (off : Nat) (src : List α) : List α :=
  xs.take off ++ src ++ xs.drop (off + src.length)

namespace List

theorem length_overlay {xs src : List α} {off : Nat} (h : off + src.length ≤ xs.length) :
    (xs.overlay off src).length = xs.length := by
  simp only [overlay, length_append, length_take, length_drop]
  omega

theorem overlay_nil {xs : List α} (off : Nat) : xs.overlay off [] = xs := by
  simp [overlay]

theorem take_overlay {xs src : List α} {off : Nat} (h : off ≤ xs.length) :
    (xs.overlay off src).take (off + src.length) = xs.take off ++ src := by
  have hlen : (xs.take off ++ src).length = off + src.length := by
    simp only [length_append, length_take]
    omega
  rw [overlay, ← hlen, take_left]

theorem drop_overlay {xs src : List α} {off : Nat} (h : off ≤ xs.length) :
    (xs.overlay off src).drop (off + src.length) = xs.drop (off + src.length) := by
  have hlen : (xs.take off ++ src).length = off + src.length := by
    simp only [length_append, length_take]
    omega
  rw [overlay, ← hlen, drop_left]

theorem drop_overlay_of_le {xs src : List α} {n off : Nat} (hn : off + src.length ≤ n)
    (h : off ≤ xs.length) : (xs.overlay off src).drop n = xs.drop n := by
  obtain ⟨k, rfl⟩ := Nat.exists_eq_add_of_le hn
  rw [← drop_drop, drop_overlay h, drop_drop]

theorem take_overlay_zero (xs src : List α) : (xs.overlay 0 src).take src.length = src := by
  have h := @take_overlay _ xs src 0 (Nat.zero_le _)
  rwa [Nat.zero_add, take_zero, nil_append] at h

theorem drop_overlay_zero (xs src : List α) :
    (xs.overlay 0 src).drop src.length = xs.drop src.length := by
  have h := @drop_overlay _ xs src 0 (Nat.zero_le _)
  rwa [Nat.zero_add] at h

end List

/-- Storage of fixed size; `fault` records an access outside it. -/
structure Block (α : Type*) where
  cells : List α
  fault : Bool
deriving DecidableEq, Repr

namespace Block

def size (b : Block α) : Nat := b.cells.length

def ofCells (xs : List α) : Block α := ⟨xs, false⟩

def slice (b : Block α) (off n : Nat) : List α := (b.cells.drop off).take n

def load (b : Block α) (off n : Nat) : Block α × List α :=
  (if off + n ≤ b.size then b else { b with fault := true }, b.slice off n)

def store (b : Block α) (off : Nat) (src : List α) : Block α :=
  if off + src.length ≤ b.size then { b with cells := b.cells.overlay off src }
  else { b with fault := true }

/-- Copy `n` cells as if through a temporary array. -/
def move (b : Block α) (dst src n : Nat) : Block α :=
  let (b, tmp) := b.load src n
  if tmp.length = n then b.store dst tmp else b

/-- Copy `n` cells one at a time, in ascending order. -/
def copyUp (b : Block α) (dst src : Nat) : Nat → Block α
  | 0 => b
  | n + 1 => (b.move dst src 1).copyUp (dst + 1) (src + 1) n

/-- The cells in front of the first one where `stop` holds. A block without such a cell
is left at its end. -/
def loadUntil (b : Block α) (stop : α → Bool) : Block α × List α :=
  let front := b.cells.takeWhile fun c => !stop c
  (if front.length < b.size then b else { b with fault := true }, front)

theorem load_of_le {b : Block α} {off n : Nat} (h : off + n ≤ b.size) :
    b.load off n = (b, b.slice off n) := by
  rw [load, if_pos h]

theorem store_of_le {b : Block α} {off : Nat} {src : List α} (h : off + src.length ≤ b.size) :
    b.store off src = { b with cells := b.cells.overlay off src } := if_pos h

theorem fault_store_of_gt {b : Block α} {off : Nat} {src : List α}
    (h : b.size < off + src.length) : (b.store off src).fault = true := by
  rw [store, if_neg (Nat.not_le.mpr h)]

/-- The end is not reached if there is a cell to stop at. -/
theorem fault_loadUntil (b : Block α) (stop : α → Bool) :
    (b.loadUntil stop).1.fault = false ↔ b.fault = false ∧ ∃ c ∈ b.cells, stop c = true := by
  simp only [loadUntil]
  have hle := (@List.takeWhile_prefix _ b.cells (fun c => !stop c)).length_le
  split
  · rename_i hlt
    have hstop : ∃ c ∈ b.cells, stop c = true := by
      by_contra hnone
      have hall : b.cells.takeWhile (fun c => !stop c) = b.cells := by
        rw [List.takeWhile_eq_self_iff]
        intro c hc
        rw [Bool.not_eq_true']
        exact Bool.eq_false_iff.mpr fun h => hnone ⟨c, hc, h⟩
      rw [hall] at hlt
      exact Nat.lt_irrefl _ hlt
    exact (and_iff_left hstop).symm
  · rename_i hend
    have hall : b.cells.takeWhile (fun c => !stop c) = b.cells :=
      List.IsPrefix.eq_of_length (List.takeWhile_prefix _)
        (Nat.le_antisymm hle (Nat.not_lt.mp hend))
    constructor
    · intro h
      cases h
    · rintro ⟨-, c, hc, hstop⟩
      have hout := List.takeWhile_eq_self_iff.mp hall c hc
      rw [hstop] at hout
      cases hout

theorem length_slice {b : Block α} {off n : Nat} (h : off + n ≤ b.size) :
    (b.slice off n).length = n := by
  simp only [size] at h
  simp only [slice, List.length_take, List.length_drop]
  omega

@[simp] theorem size_store (b : Block α) (off : Nat) (src : List α) :
    (b.store off src).size = b.size := by
  rw [store]
  split
  · exact List.length_overlay ‹_›
  · rfl

theorem fault_store {b : Block α} {off : Nat} {src : List α} (h : off + src.length ≤ b.size) :
    (b.store off src).fault = b.fault := by
  rw [store_of_le h]

theorem load_store {b : Block α} {off : Nat} {src : List α} (h : off + src.length ≤ b.size) :
    (b.store off src).load off src.length = (b.store off src, src) := by
  have hoff : off ≤ b.cells.length := Nat.le_trans (Nat.le_add_right _ _) h
  have hslice : (b.cells.overlay off src).drop off =
      src ++ (b.cells.overlay off src).drop (off + src.length) := by
    have htake : (b.cells.take off).length = off := by
      rw [List.length_take]
      omega
    rw [List.drop_overlay hoff, List.overlay, List.append_assoc, List.drop_append, htake,
      Nat.sub_self, List.drop_zero, List.drop_of_length_le (Nat.le_of_eq htake), List.nil_append]
  rw [load_of_le (by rw [size_store]; exact h), store_of_le h, slice, hslice, List.take_left]

theorem move_of_le {b : Block α} {dst src n : Nat} (hd : dst + n ≤ b.size)
    (hs : src + n ≤ b.size) :
    b.move dst src n = { b with cells := b.cells.overlay dst (b.slice src n) } := by
  have hlen := length_slice hs
  simp only [move, load_of_le hs, hlen, if_true]
  apply store_of_le
  rw [hlen]
  exact hd

theorem size_move_of_le {b : Block α} {dst src n : Nat} (hd : dst + n ≤ b.size)
    (hs : src + n ≤ b.size) : (b.move dst src n).size = b.size := by
  rw [move_of_le hd hs]
  apply List.length_overlay
  rw [length_slice hs]
  exact hd

/-- An ascending copy to a lower or equal position moves the cells as
`move` does: every cell is read before it is written over. -/
theorem copyUp_of_le {b : Block α} {dst src : Nat} (hds : dst ≤ src) :
    ∀ {n : Nat}, src + n ≤ b.size → b.copyUp dst src n = b.move dst src n := by
  intro n
  induction n generalizing b dst src with
  | zero =>
    intro h
    rw [copyUp, move_of_le (by omega) h]
    simp [slice, List.overlay_nil]
  | succ n ih =>
    intro h
    have hone : (b.move dst src 1).size = b.size := size_move_of_le (by omega) (by omega)
    have hstep : (b.move dst src 1) = { b with cells := b.cells.overlay dst (b.slice src 1) } :=
      move_of_le (by omega) (by omega)
    rw [copyUp, ih (by omega) (by omega), move_of_le (by omega) (by omega), hstep,
      move_of_le (n := n + 1) (by omega) h]
    have hlen : (b.slice src 1).length = 1 := length_slice (by omega)
    have hdst : dst ≤ b.cells.length := by simp only [size] at h; omega
    -- the cells still to be copied lie behind the one just written
    have hrest : (⟨b.cells.overlay dst (b.slice src 1), b.fault⟩ : Block α).slice (src + 1) n =
        (b.cells.drop (src + 1)).take n :=
      congrArg (List.take n) (List.drop_overlay_of_le (by omega) hdst)
    have hfront : (b.cells.overlay dst (b.slice src 1)).take (dst + 1) =
        b.cells.take dst ++ b.slice src 1 := by
      rw [← List.take_overlay hdst, hlen]
    have hback : (b.cells.overlay dst (b.slice src 1)).drop (dst + 1 + n) =
        b.cells.drop (dst + 1 + n) := List.drop_overlay_of_le (by omega) hdst
    have hwhole : b.slice src (n + 1) = b.slice src 1 ++ (b.cells.drop (src + 1)).take n := by
      rw [slice, slice, ← List.drop_drop, ← List.take_add, Nat.add_comm]
    have hrestLen : ((b.cells.drop (src + 1)).take n).length = n := by
      rw [← hrest]
      apply length_slice
      rw [← hstep, hone]
      omega
    simp only [Block.mk.injEq, and_true]
    rw [hrest, hwhole, List.overlay, hfront, hrestLen, hback]
    simp only [List.overlay, List.length_append, hlen, hrestLen, List.append_assoc, Nat.add_assoc]

/-! ## Terminated strings -/

/-- The block starts with the string and what ends it. -/
structure Spells (b : Block α) (zero : α) (text : List α) : Prop where
  starts : text ++ [zero] <+: b.cells
  plain : zero ∉ text

section
variable {b : Block α} {zero : α} {text tail : List α}

theorem spells_store (hfront : b.cells.take text.length = text) (hplain : zero ∉ text ++ tail)
    (hroom : text.length + tail.length < b.size) :
    (b.store text.length (tail ++ [zero])).Spells zero (text ++ tail) := by
  have hfits : text.length + (tail ++ [zero]).length ≤ b.size := by
    rw [List.length_append, List.length_singleton]
    omega
  refine ⟨?_, hplain⟩
  rw [store_of_le hfits, List.overlay, hfront, List.append_assoc]
  exact List.prefix_append _ _

theorem Spells.take (h : b.Spells zero text) : b.cells.take text.length = text := by
  obtain ⟨rest, hrest⟩ := h.starts
  rw [← hrest, List.append_assoc, List.take_left]

theorem Spells.room (h : b.Spells zero text) : text.length < b.size := by
  have hle := h.starts.length_le
  rw [List.length_append, List.length_singleton] at hle
  exact hle

theorem Spells.loadUntil [DecidableEq α] (h : b.Spells zero text) :
    b.loadUntil (fun c => c = zero) = (b, text) := by
  obtain ⟨rest, hrest⟩ := h.starts
  have hfront : b.cells.takeWhile (fun c => !decide (c = zero)) = text := by
    rw [← hrest, List.append_assoc, List.takeWhile_append_of_pos, List.singleton_append,
      List.takeWhile_cons_of_neg (by simp), List.append_nil]
    intro c hc
    rw [Bool.not_eq_true', decide_eq_false_iff_not]
    rintro rfl
    exact h.plain hc
  rw [Block.loadUntil, hfront]
  exact Prod.ext (if_pos h.room) rfl

end

end Block
