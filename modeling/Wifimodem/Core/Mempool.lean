import Mathlib.Data.List.Nodup
import Mathlib.Data.List.Perm.Subperm
import Wifimodem.Core.Types

/-!
# The pool of scratch blocks

Sixteen blocks of equal size, with one bit for each block that is free. Every
lock must hand out a block that nobody holds, in whatever order the blocks come
back.
-/

namespace Wifimodem

def mempoolBlockSize : Nat := 2048
def mempoolBlockNum : Nat := 16

structure Mempool where
  free : BitVec 16
  lockCount : Nat
  unlockCount : Nat
  histogram : List Nat
deriving DecidableEq, Repr

/-- What is reported before `abort`. -/
inductive MempoolAbort where
  | exhausted
  | invalidPointer (ptr : Nat)
  | doubleUnlock (block : Nat)
deriving DecidableEq, Repr

/-- One plus the index of the lowest bit set in a `long`, or zero. -/
def ffsl (x : BitVec 32) : Nat :=
  match (List.range 32).find? fun i => x.getLsbD i with
  | some i => i + 1
  | none => 0

def mempoolCreate : Mempool :=
  { free := (~~~0#32).setWidth 16
    lockCount := 0
    unlockCount := 0
    histogram := List.replicate mempoolBlockNum 0 }

section
variable (blocks : Nat)

def blockPtr (block : Nat) : Nat := blocks + block * mempoolBlockSize

def mempoolLock (pool : Mempool) : Mempool × Except MempoolAbort Nat :=
  let block : Int := (ffsl (pool.free.setWidth 32) : Int) - 1
  if block < 0 then (pool, .error .exhausted)
  else
    let block := block.toNat
    ({ free := (pool.free.setWidth 32 &&& ~~~(1#32 <<< block)).setWidth 16
       lockCount := (pool.lockCount + 1) % 2 ^ 32
       unlockCount := pool.unlockCount
       histogram := pool.histogram.modify block fun n => (n + 1) % 2 ^ 32 },
      .ok (blockPtr blocks block))

def mempoolUnlock (pool : Mempool) (ptr : Nat) : Mempool × Except MempoolAbort Unit :=
  if ptr < blocks ∨ ptr ≥ blocks + mempoolBlockNum * mempoolBlockSize then
    (pool, .error (.invalidPointer ptr))
  else
    let block := (ptr - blocks) / mempoolBlockSize
    let mask := 1#32 <<< block
    if pool.free.setWidth 32 &&& mask ≠ 0 then (pool, .error (.doubleUnlock block))
    else
      ({ pool with
          free := (pool.free.setWidth 32 ||| mask).setWidth 16
          unlockCount := (pool.unlockCount + 1) % 2 ^ 32 }, .ok ())

end

/-! ## Masks -/

theorem ffsl_pos {x : BitVec 32} (h : 0 < ffsl x) :
    ffsl x - 1 < 32 ∧ x.getLsbD (ffsl x - 1) = true := by
  rw [ffsl] at h ⊢
  cases hfind : (List.range 32).find? fun i => x.getLsbD i with
  | none =>
    rw [hfind] at h
    exact absurd h (by decide)
  | some i => exact ⟨List.mem_range.mp (List.mem_of_find?_eq_some hfind), List.find?_some hfind⟩

theorem ffsl_zero {x : BitVec 32} (h : ffsl x = 0) {i : Nat} (hi : i < 32) :
    x.getLsbD i = false := by
  rw [ffsl] at h
  cases hfind : (List.range 32).find? fun i => x.getLsbD i with
  | none =>
    rw [List.find?_eq_none] at hfind
    exact Bool.not_eq_true _ ▸ hfind i (List.mem_range.mpr hi)
  | some j =>
    rw [hfind] at h
    exact absurd h (by simp)

section
variable {free : BitVec 16} {i block : Nat}

theorem getLsbD_promote : (free.setWidth 32).getLsbD i = free.getLsbD i := by
  have hbound : free.getLsbD i = true → i < 16 := BitVec.lt_of_getLsbD
  rw [BitVec.getLsbD_setWidth]
  grind

theorem getLsbD_bit (hi : i < 32) : (1#32 <<< block).getLsbD i = decide (i = block) := by
  simp only [BitVec.getLsbD_shiftLeft, BitVec.getLsbD_one]
  grind

theorem getLsbD_clear (hi : i < 16) :
    ((free.setWidth 32 &&& ~~~(1#32 <<< block)).setWidth 16).getLsbD i =
      (free.getLsbD i && !decide (i = block)) := by
  rw [BitVec.getLsbD_setWidth, BitVec.getLsbD_and, BitVec.getLsbD_not, getLsbD_promote,
    getLsbD_bit (by omega)]
  simp [hi, Nat.lt_trans hi (by decide : 16 < 32)]

theorem getLsbD_set (hi : i < 16) :
    ((free.setWidth 32 ||| 1#32 <<< block).setWidth 16).getLsbD i =
      (free.getLsbD i || decide (i = block)) := by
  rw [BitVec.getLsbD_setWidth, BitVec.getLsbD_or, getLsbD_promote,
    getLsbD_bit (by omega)]
  simp [hi]

theorem test_bit (hblock : block < 16) :
    free.setWidth 32 &&& 1#32 <<< block ≠ 0 ↔ free.getLsbD block = true := by
  constructor
  · intro h
    by_contra hclear
    apply h
    apply BitVec.eq_of_getLsbD_eq
    intro i hi
    rw [BitVec.getLsbD_and, getLsbD_promote, getLsbD_bit hi]
    rcases eq_or_ne i block with rfl | hne
    · simp [hclear]
    · simp [hne]
  · intro h heq
    have hbit := congrArg (BitVec.getLsbD · block) heq
    simp only [BitVec.getLsbD_and, getLsbD_promote, getLsbD_bit (Nat.lt_trans hblock (by decide)), h] at hbit
    simp at hbit

end

/-! ## Runs -/

/-- A run in which every call of unlock is given a pointer that lock returned.
`held` are the blocks locked and not yet unlocked, `returned` all pointers ever
handed out; an abort ends the run. -/
inductive MempoolRun (blocks : Nat) : Mempool → List Nat → List Nat → Prop where
  | create : MempoolRun blocks mempoolCreate [] []
  | lock {pool pool' : Mempool} {held returned : List Nat} {ptr : Nat} :
      MempoolRun blocks pool held returned →
      mempoolLock blocks pool = (pool', .ok ptr) →
      MempoolRun blocks pool' (ptr :: held) (ptr :: returned)
  | unlock {pool pool' : Mempool} {held returned : List Nat} {ptr : Nat} :
      MempoolRun blocks pool held returned → ptr ∈ returned →
      mempoolUnlock blocks pool ptr = (pool', .ok ()) →
      MempoolRun blocks pool' (held.erase ptr) returned

structure Mempool.Owns (blocks : Nat) (pool : Mempool) (held returned : List Nat) : Prop where
  nodup : held.Nodup
  block : ∀ ptr ∈ returned, ∃ i < mempoolBlockNum, ptr = blockPtr blocks i
  returned : held ⊆ returned
  free : ∀ i < mempoolBlockNum, pool.free.getLsbD i = true ↔ blockPtr blocks i ∉ held
  count : pool.lockCount = (pool.unlockCount + held.length) % 2 ^ 32
  unlockCount_lt : pool.unlockCount < 2 ^ 32

section
variable {blocks : Nat} {pool pool' : Mempool} {held returned : List Nat}

theorem blockPtr_inj {i j : Nat} (h : blockPtr blocks i = blockPtr blocks j) : i = j := by
  simp only [blockPtr, mempoolBlockSize] at h
  omega

theorem blockPtr_valid {i : Nat} (hi : i < mempoolBlockNum) :
    ¬(blockPtr blocks i < blocks ∨
      blockPtr blocks i ≥ blocks + mempoolBlockNum * mempoolBlockSize) := by
  simp only [blockPtr, mempoolBlockSize, mempoolBlockNum] at *
  omega

theorem blockPtr_block (i : Nat) : (blockPtr blocks i - blocks) / mempoolBlockSize = i := by
  simp only [blockPtr, mempoolBlockSize]
  omega

theorem mempoolLock_cases (blocks : Nat) (pool : Mempool) :
    (∃ i < mempoolBlockNum, pool.free.getLsbD i = true ∧
      mempoolLock blocks pool =
        ({ free := (pool.free.setWidth 32 &&& ~~~(1#32 <<< i)).setWidth 16
           lockCount := (pool.lockCount + 1) % 2 ^ 32
           unlockCount := pool.unlockCount
           histogram := pool.histogram.modify i fun n => (n + 1) % 2 ^ 32 },
          .ok (blockPtr blocks i))) ∨
    ((∀ i < mempoolBlockNum, pool.free.getLsbD i = false) ∧
      mempoolLock blocks pool = (pool, .error .exhausted)) := by
  cases Nat.eq_zero_or_pos (ffsl (pool.free.setWidth 32)) with
  | inl hzero =>
    right
    constructor
    · intro i hi
      rw [← getLsbD_promote]
      exact ffsl_zero hzero (Nat.lt_trans hi (by decide))
    · rw [mempoolLock, hzero]
      rfl
  | inr hpos =>
    left
    obtain ⟨_, hbit⟩ := ffsl_pos hpos
    rw [getLsbD_promote] at hbit
    refine ⟨_, BitVec.lt_of_getLsbD hbit, hbit, ?_⟩
    have hblock : ¬((ffsl (pool.free.setWidth 32) : Int) - 1 < 0) := by omega
    have hnat : ((ffsl (pool.free.setWidth 32) : Int) - 1).toNat =
        ffsl (pool.free.setWidth 32) - 1 := by omega
    simp only [mempoolLock, if_neg hblock, hnat]

theorem mempoolUnlock_block {i : Nat} (hi : i < mempoolBlockNum) :
    mempoolUnlock blocks pool (blockPtr blocks i) =
      if pool.free.getLsbD i = true then (pool, .error (.doubleUnlock i))
      else
        ({ pool with
            free := (pool.free.setWidth 32 ||| 1#32 <<< i).setWidth 16
            unlockCount := (pool.unlockCount + 1) % 2 ^ 32 }, .ok ()) := by
  simp only [mempoolUnlock, if_neg (blockPtr_valid hi), blockPtr_block]
  simp only [test_bit (show i < 16 from hi)]

namespace Mempool.Owns

theorem create : mempoolCreate.Owns blocks [] [] := by
  refine ⟨List.nodup_nil, by simp, by simp, ?_, rfl, by decide⟩
  intro i hi
  simp only [List.not_mem_nil, not_false_eq_true, iff_true]
  revert i
  decide

theorem lock (h : pool.Owns blocks held returned) {ptr : Nat}
    (hlock : mempoolLock blocks pool = (pool', .ok ptr)) :
    ptr ∉ held ∧ pool'.Owns blocks (ptr :: held) (ptr :: returned) := by
  obtain ⟨i, hi, hbit, heq⟩ | ⟨_, heq⟩ := mempoolLock_cases blocks pool
  · obtain ⟨rfl, hptr⟩ := Prod.mk.inj (heq.symm.trans hlock)
    obtain rfl := Except.ok.inj hptr
    have hnew : blockPtr blocks i ∉ held := (h.free i hi).mp hbit
    constructor
    · exact hnew
    · refine ⟨List.nodup_cons.mpr ⟨hnew, h.nodup⟩, ?_, List.cons_subset_cons _ h.returned, ?_, ?_,
        h.unlockCount_lt⟩
      · intro ptr hptr
        rcases List.mem_cons.mp hptr with rfl | hptr
        · exact ⟨i, hi, rfl⟩
        · exact h.block ptr hptr
      · intro j hj
        rw [getLsbD_clear hj, List.mem_cons, not_or, ← h.free j hj]
        have hinj : blockPtr blocks j = blockPtr blocks i ↔ j = i :=
          ⟨blockPtr_inj, fun h => h ▸ rfl⟩
        rw [hinj]
        simp [and_comm]
      · have hcount := h.count
        rw [List.length_cons]
        simp only
        omega
  · cases heq.symm.trans hlock

theorem unlock (h : pool.Owns blocks held returned) {ptr : Nat} (hptr : ptr ∈ returned)
    (hunlock : mempoolUnlock blocks pool ptr = (pool', .ok ())) :
    pool'.Owns blocks (held.erase ptr) returned := by
  obtain ⟨i, hi, rfl⟩ := h.block ptr hptr
  rw [mempoolUnlock_block hi] at hunlock
  split at hunlock
  · cases hunlock
  · rename_i hbit
    obtain ⟨rfl, _⟩ := Prod.mk.inj hunlock
    have hheld : blockPtr blocks i ∈ held := by
      rw [h.free i hi, not_not] at hbit
      exact hbit
    have hlen := List.length_erase_of_mem hheld
    have hpos := List.length_pos_of_mem hheld
    refine ⟨h.nodup.erase _, h.block, List.Subset.trans List.erase_subset h.returned, ?_, ?_,
      Nat.mod_lt _ (by decide)⟩
    · intro j hj
      rw [getLsbD_set hj, h.nodup.mem_erase_iff]
      have hinj : blockPtr blocks j = blockPtr blocks i ↔ j = i :=
        ⟨blockPtr_inj, fun h => h ▸ rfl⟩
      have hfree := h.free j hj
      rw [ne_eq, hinj]
      rcases eq_or_ne j i with rfl | hne
      · simp
      · simp [hne, hfree]
    · have hcount := h.count
      simp only
      omega

theorem length_le (h : pool.Owns blocks held returned) : held.length ≤ mempoolBlockNum := by
  have hsub : held ⊆ (List.range mempoolBlockNum).map (blockPtr blocks) := by
    intro ptr hptr
    obtain ⟨i, hi, rfl⟩ := h.block ptr (h.returned hptr)
    exact List.mem_map_of_mem (List.mem_range.mpr hi)
  have hlen := (h.nodup.subperm hsub).length_le
  rwa [List.length_map, List.length_range] at hlen

theorem full_iff (h : pool.Owns blocks held returned) :
    (∀ i < mempoolBlockNum, pool.free.getLsbD i = false) ↔ held.length = mempoolBlockNum := by
  have hall : (List.range mempoolBlockNum).map (blockPtr blocks) ⊆ held ↔
      ∀ i < mempoolBlockNum, pool.free.getLsbD i = false := by
    constructor
    · intro hsub i hi
      have hmem := hsub (List.mem_map_of_mem (f := blockPtr blocks) (List.mem_range.mpr hi))
      rw [← Bool.not_eq_true, h.free i hi, not_not]
      exact hmem
    · intro hfree ptr hptr
      obtain ⟨i, hi, rfl⟩ := List.mem_map.mp hptr
      have hi := List.mem_range.mp hi
      have hbit := hfree i hi
      rw [← Bool.not_eq_true, h.free i hi, not_not] at hbit
      exact hbit
  have hnodup : ((List.range mempoolBlockNum).map (blockPtr blocks)).Nodup :=
    List.nodup_range.map fun _ _ => blockPtr_inj
  have hlen : ((List.range mempoolBlockNum).map (blockPtr blocks)).length = mempoolBlockNum := by
    rw [List.length_map, List.length_range]
  rw [← hall]
  constructor
  · intro hsub
    have hle := (hnodup.subperm hsub).length_le
    have hge := h.length_le
    omega
  · intro hfull
    have hsub : held ⊆ (List.range mempoolBlockNum).map (blockPtr blocks) := by
      intro ptr hptr
      obtain ⟨i, hi, rfl⟩ := h.block ptr (h.returned hptr)
      exact List.mem_map_of_mem (List.mem_range.mpr hi)
    exact ((h.nodup.subperm hsub).perm_of_length_le (by omega)).symm.subset

end Mempool.Owns

theorem MempoolRun.owns (h : MempoolRun blocks pool held returned) :
    pool.Owns blocks held returned := by
  induction h with
  | create => exact .create
  | lock _ hlock ih => exact (ih.lock hlock).2
  | unlock _ hptr hunlock ih => exact ih.unlock hptr hunlock

end

/-- In every reachable state the mask and the counters describe exactly the
blocks that are held, and the next call of lock or unlock does the right thing. -/
theorem mempool_exclusive {blocks : Nat} {pool : Mempool} {held returned : List Nat}
    (h : MempoolRun blocks pool held returned) :
    (∀ pool' ptr, mempoolLock blocks pool = (pool', .ok ptr) → ptr ∉ held) ∧
      (∀ i < 16, pool.free.getLsbD i = true ↔ blockPtr blocks i ∉ held) ∧
      held.length ≤ 16 ∧
      ((mempoolLock blocks pool).2 = .error .exhausted ↔ held.length = 16) ∧
      ((∃ ptr, (mempoolLock blocks pool).2 = .ok ptr) ↔ held.length ≠ 16) ∧
      (∀ ptr ∈ held, (mempoolUnlock blocks pool ptr).2 = .ok ()) ∧
      (∀ ptr ∈ returned, ptr ∉ held →
        ∃ block, mempoolUnlock blocks pool ptr = (pool, .error (.doubleUnlock block))) ∧
      usub pool.lockCount pool.unlockCount = held.length := by
  have hown := h.owns
  have hle := hown.length_le
  have hfull := hown.full_iff
  have hlocks : ((mempoolLock blocks pool).2 = .error .exhausted ↔ held.length = 16) ∧
      ((∃ ptr, (mempoolLock blocks pool).2 = .ok ptr) ↔ held.length ≠ 16) := by
    obtain ⟨i, hi, hbit, heq⟩ | ⟨hnone, heq⟩ := mempoolLock_cases blocks pool
    · have hnot : held.length ≠ 16 := by
        intro hlen
        rw [hfull.mpr hlen i hi] at hbit
        cases hbit
      rw [heq]
      exact ⟨by simp [hnot], by simp [hnot]⟩
    · have hall : held.length = 16 := hfull.mp hnone
      rw [heq]
      exact ⟨by simp [hall], by simp [hall]⟩
  refine ⟨fun pool' ptr hlock => (hown.lock hlock).1, hown.free, hle, hlocks.1, hlocks.2, ?_, ?_, ?_⟩
  · intro ptr hptr
    obtain ⟨i, hi, rfl⟩ := hown.block ptr (hown.returned hptr)
    have hbit : ¬pool.free.getLsbD i = true := by
      rw [hown.free i hi, not_not]
      exact hptr
    rw [mempoolUnlock_block hi, if_neg hbit]
  · intro ptr hptr hnot
    obtain ⟨i, hi, rfl⟩ := hown.block ptr hptr
    exact ⟨i, by rw [mempoolUnlock_block hi, if_pos ((hown.free i hi).mpr hnot)]⟩
  · have hcount := hown.count
    have hlt := hown.unlockCount_lt
    simp only [mempoolBlockNum] at hle
    rw [usub, hcount]
    omega

theorem mempool_exclusive_reuse :
    (mempoolUnlock 4096 ⟨0xFFFD, 2, 1, [1, 1, 0, 0, 0, 0, 0, 0, 0, 0, 0, 0, 0, 0, 0, 0]⟩ 6144).2 =
      .ok () := by
  have hfirst : MempoolRun 4096 ⟨0xFFFE, 1, 0, [1, 0, 0, 0, 0, 0, 0, 0, 0, 0, 0, 0, 0, 0, 0, 0]⟩
      [4096] [4096] := .lock .create (by decide +kernel)
  have hsecond : MempoolRun 4096 ⟨0xFFFC, 2, 0, [1, 1, 0, 0, 0, 0, 0, 0, 0, 0, 0, 0, 0, 0, 0, 0]⟩
      [6144, 4096] [6144, 4096] := .lock hfirst (by decide +kernel)
  have hunlock : mempoolUnlock 4096
      ⟨0xFFFC, 2, 0, [1, 1, 0, 0, 0, 0, 0, 0, 0, 0, 0, 0, 0, 0, 0, 0]⟩ 4096 =
        (⟨0xFFFD, 2, 1, [1, 1, 0, 0, 0, 0, 0, 0, 0, 0, 0, 0, 0, 0, 0, 0]⟩, .ok ()) := by
    decide +kernel
  have hrun := MempoolRun.unlock hsecond (by decide) hunlock
  apply (mempool_exclusive hrun).2.2.2.2.2.1 6144
  decide

end Wifimodem
