import Wifimodem.Core.Types
import Wifimodem.Lib.Extent

/-!
# The arena

Memory is handed out at a cursor that only a restore or a reset moves back.
Addresses are offsets from the start of the arena, and `none` is `abort`.
-/

namespace Wifimodem

def arenaAlignment : Nat := 16

structure Arena where
  size : Nat
  point : Nat
  mem : Nat → UInt8

def arenaCreate (size : Nat) (mem : Nat → UInt8) : Arena := ⟨size, 0, mem⟩

def arenaReset (a : Arena) : Arena := { a with point := 0 }

def arenaAlloc (a : Arena) (sz : Nat) : Option (Arena × Nat) :=
  if (a.point + sz) % 2 ^ 32 > a.size then none
  else
    let step := (sz + (arenaAlignment - 1)) % 2 ^ 32 &&& (2 ^ 32 - arenaAlignment)
    some ({ a with point := (a.point + step) % 2 ^ 32 }, a.point)

def memset (mem : Nat → UInt8) (ptr : Nat) (c : UInt8) (len : Nat) : Nat → UInt8 :=
  fun i => if ptr ≤ i ∧ i < ptr + len then c else mem i

def arenaCalloc (a : Arena) (n sz : Nat) : Option (Arena × Nat) :=
  let len := n * sz % 2 ^ 32
  match arenaAlloc a len with
  | none => none
  | some (a, ptr) => some ({ a with mem := memset a.mem ptr 0 len }, ptr)

def arenaSave (a : Arena) : Nat := a.point

def arenaRestore (a : Arena) (pt : Nat) : Option Arena :=
  if pt > a.size ∨ pt &&& (arenaAlignment - 1) ≠ 0 then none else some { a with point := pt }

/-! ## Who uses what -/

/-- A point that was saved, with the number of allocations that were live. -/
structure SavePoint where
  point : Nat
  live : Nat
deriving DecidableEq, Repr

/-- The arena with its live allocations, the oldest first, and the points that
can be restored, the newest first. -/
structure ArenaUse where
  arena : Arena
  live : List Extent
  saves : List SavePoint

inductive ArenaOp where
  | alloc (sz : Nat)
  | calloc (n sz : Nat)
  | save
  | restore (k : Nat)
  | reset
deriving DecidableEq, Repr

def ArenaOp.bytes : ArenaOp → Nat
  | .alloc sz => sz
  | .calloc n sz => n * sz
  | .save | .restore _ | .reset => 0

/-- A restore goes to one of the points that are left; it undoes the allocations
made since, and the points saved since are gone. -/
def arenaStep (s : ArenaUse) : ArenaOp → Option ArenaUse
  | .alloc sz => (arenaAlloc s.arena sz).map fun (a, ptr) => ⟨a, s.live ++ [⟨ptr, sz⟩], s.saves⟩
  | .calloc n sz =>
    (arenaCalloc s.arena n sz).map fun (a, ptr) => ⟨a, s.live ++ [⟨ptr, n * sz⟩], s.saves⟩
  | .save => some { s with saves := ⟨arenaSave s.arena, s.live.length⟩ :: s.saves }
  | .restore k =>
    match s.saves.drop k with
    | [] => none
    | pt :: older =>
      (arenaRestore s.arena pt.point).map fun a => ⟨a, s.live.take pt.live, pt :: older⟩
  | .reset => some ⟨arenaReset s.arena, [], []⟩

def arenaRun : ArenaUse → List ArenaOp → Option ArenaUse
  | s, [] => some s
  | s, op :: ops => (arenaStep s op).bind fun s => arenaRun s ops

/-! ## The cursor -/

theorem and_mask (x : Nat) (hx : x < 2 ^ 32) :
    x &&& (2 ^ 32 - arenaAlignment) = x / 16 * 16 := by
  have hmask : 2 ^ 32 - arenaAlignment = (2 ^ 28 - 1) <<< 4 := by decide
  have hround : x / 16 * 16 = (x >>> 4) <<< 4 := by
    rw [Nat.shiftLeft_eq, Nat.shiftRight_eq_div_pow]
  rw [hmask, hround]
  apply Nat.eq_of_testBit_eq
  intro i
  rw [Nat.testBit_and, Nat.testBit_shiftLeft, Nat.testBit_shiftLeft, Nat.testBit_two_pow_sub_one,
    Nat.testBit_shiftRight]
  cases Nat.lt_or_ge i 4 with
  | inl hi => simp [Nat.not_le.mpr hi]
  | inr hi =>
    have hsum : 4 + (i - 4) = i := by omega
    rw [hsum]
    cases Nat.lt_or_ge i 32 with
    | inl hlt => simp [hi, show i - 4 < 28 by omega]
    | inr hge =>
      have hbig : x < 2 ^ i := Nat.lt_of_lt_of_le hx (Nat.pow_le_pow_right (by decide) hge)
      simp [Nat.testBit_lt_two_pow hbig]

section
variable {a a' : Arena} {sz ptr : Nat}

/-- What the cursor guarantees, and what it needs. -/
structure CursorFits (size point : Nat) : Prop where
  aligned : point % 16 = 0
  bounded : point < size + 16

theorem arenaAlloc_some (hsize : a.size < 2 ^ 30) (hpoint : CursorFits a.size a.point)
    (hsz : sz ≤ a.size) (h : arenaAlloc a sz = some (a', ptr)) :
    ptr = a.point ∧ a.point + sz ≤ a.size ∧ a'.size = a.size ∧ a'.mem = a.mem ∧
      a.point + sz ≤ a'.point ∧ CursorFits a.size a'.point := by
  obtain ⟨haligned, hbounded⟩ := hpoint
  have hsum : (a.point + sz) % 2 ^ 32 = a.point + sz := Nat.mod_eq_of_lt (by omega)
  rw [arenaAlloc, hsum] at h
  split at h
  · cases h
  · rename_i hfits
    obtain ⟨rfl, rfl⟩ := Prod.mk.inj (Option.some.inj h)
    have hround : (sz + (arenaAlignment - 1)) % 2 ^ 32 &&& (2 ^ 32 - arenaAlignment) =
        (sz + 15) / 16 * 16 := by
      have hlt : sz + (arenaAlignment - 1) < 2 ^ 32 := by
        rw [arenaAlignment]
        omega
      rw [Nat.mod_eq_of_lt hlt, and_mask _ hlt]
      rfl
    have hmod : (a.point + (sz + 15) / 16 * 16) % 2 ^ 32 = a.point + (sz + 15) / 16 * 16 :=
      Nat.mod_eq_of_lt (by omega)
    refine ⟨rfl, by omega, rfl, rfl, ?_, ?_⟩
    · simp only [hround, hmod]
      omega
    · constructor
      · simp only [hround, hmod]
        omega
      · simp only [hround, hmod]
        omega

theorem arenaRestore_some {pt : Nat} (h : arenaRestore a pt = some a') :
    a' = { a with point := pt } ∧ pt ≤ a.size := by
  rw [arenaRestore] at h
  split at h
  · cases h
  · rename_i hvalid
    obtain ⟨hle, _⟩ := not_or.mp hvalid
    exact ⟨(Option.some.inj h).symm, Nat.not_lt.mp hle⟩

theorem arenaCalloc_some {n : Nat} (h : arenaCalloc a n sz = some (a', ptr)) :
    ∃ b, arenaAlloc a (n * sz % 2 ^ 32) = some (b, ptr) ∧
      a' = { b with mem := memset b.mem ptr 0 (n * sz % 2 ^ 32) } := by
  rw [arenaCalloc] at h
  split at h
  · cases h
  · rename_i b ptr' halloc
    obtain ⟨rfl, rfl⟩ := Prod.mk.inj (Option.some.inj h)
    exact ⟨b, halloc, rfl⟩

end

/-! ## Live allocations -/

/-- The allocations that are live with the cursor at `point`. -/
structure LiveBelow (size point : Nat) (live : List Extent) : Prop where
  cursor : CursorFits size point
  aligned : ∀ x ∈ live, x.addr % 16 = 0
  within : ∀ x ∈ live, x.Within 0 size
  below : ∀ x ∈ live, x.fin ≤ point
  apart : live.Pairwise Extent.Apart

/-- The cursor and every saved point are above what is live there. -/
structure UseKept (size : Nat) (s : ArenaUse) : Prop where
  size_eq : s.arena.size = size
  now : LiveBelow size s.arena.point s.live
  saved : ∀ pt ∈ s.saves, pt.live ≤ s.live.length ∧ LiveBelow size pt.point (s.live.take pt.live)
  nested : s.saves.Pairwise fun newer older => older.live ≤ newer.live

section
variable {size point : Nat} {live : List Extent} {s s' : ArenaUse}

theorem liveBelow_nil (size : Nat) : LiveBelow size 0 [] where
  cursor := ⟨rfl, by omega⟩
  aligned := fun _ hx => absurd hx List.not_mem_nil
  within := fun _ hx => absurd hx List.not_mem_nil
  below := fun _ hx => absurd hx List.not_mem_nil
  apart := List.Pairwise.nil

theorem LiveBelow.push (h : LiveBelow size point live) {sz point' : Nat} (hfits : point + sz ≤ size)
    (hbelow : point + sz ≤ point') (hcursor : CursorFits size point') :
    LiveBelow size point' (live ++ [⟨point, sz⟩]) where
  cursor := hcursor
  aligned := by
    intro x hx
    obtain hx | hx := List.mem_append.mp hx
    · exact h.aligned x hx
    · rw [List.mem_singleton.mp hx]
      exact h.cursor.aligned
  within := by
    intro x hx
    obtain hx | hx := List.mem_append.mp hx
    · exact h.within x hx
    · rw [List.mem_singleton.mp hx]
      exact ⟨Nat.zero_le _, hfits⟩
  below := by
    intro x hx
    obtain hx | hx := List.mem_append.mp hx
    · exact Nat.le_trans (h.below x hx) (Nat.le_trans (Nat.le_add_right _ _) hbelow)
    · rw [List.mem_singleton.mp hx]
      exact hbelow
  apart := by
    refine List.pairwise_append.mpr ⟨h.apart, List.pairwise_singleton _ _, ?_⟩
    intro x hx y hy
    rw [List.mem_singleton.mp hy]
    exact .inl (h.below x hx)

theorem useKept_create (mem : Nat → UInt8) : UseKept size ⟨arenaCreate size mem, [], []⟩ where
  size_eq := rfl
  now := liveBelow_nil size
  saved := fun _ hpt => absurd hpt List.not_mem_nil
  nested := List.Pairwise.nil

theorem UseKept.push (h : UseKept size s) {a : Arena} {sz : Nat} (hsize : a.size = size)
    (hfits : s.arena.point + sz ≤ size) (hbelow : s.arena.point + sz ≤ a.point)
    (hcursor : CursorFits size a.point) :
    UseKept size ⟨a, s.live ++ [⟨s.arena.point, sz⟩], s.saves⟩ where
  size_eq := hsize
  now := h.now.push hfits hbelow hcursor
  saved := by
    intro pt hpt
    obtain ⟨hlive, hpoint⟩ := h.saved pt hpt
    constructor
    · rw [List.length_append]
      omega
    · simp only
      rw [List.take_append_of_le_length hlive]
      exact hpoint
  nested := h.nested

theorem UseKept.save (h : UseKept size s) :
    UseKept size { s with saves := ⟨s.arena.point, s.live.length⟩ :: s.saves } where
  size_eq := h.size_eq
  now := h.now
  saved := by
    intro pt hpt
    obtain rfl | hpt := List.mem_cons.mp hpt
    · refine ⟨Nat.le_refl _, ?_⟩
      rw [List.take_length]
      exact h.now
    · exact h.saved pt hpt
  nested := List.Pairwise.cons (fun pt hpt => (h.saved pt hpt).1) h.nested

theorem UseKept.restore (h : UseKept size s) {k : Nat} {pt : SavePoint} {older : List SavePoint}
    (hpts : s.saves.drop k = pt :: older) :
    UseKept size ⟨{ s.arena with point := pt.point }, s.live.take pt.live, pt :: older⟩ := by
  have hmem : ∀ q ∈ pt :: older, q ∈ s.saves := by
    intro q hq
    rw [← hpts] at hq
    exact List.mem_of_mem_drop hq
  have hnested : (pt :: older).Pairwise fun newer older => older.live ≤ newer.live := by
    rw [← hpts]
    exact h.nested.drop
  have hle : ∀ q ∈ pt :: older, q.live ≤ pt.live := by
    intro q hq
    obtain rfl | hq := List.mem_cons.mp hq
    · exact Nat.le_refl _
    · exact (List.pairwise_cons.mp hnested).1 q hq
  refine ⟨h.size_eq, (h.saved pt (hmem pt List.mem_cons_self)).2, ?_, hnested⟩
  intro q hq
  obtain ⟨hlive, hpoint⟩ := h.saved q (hmem q hq)
  constructor
  · rw [List.length_take]
    exact Nat.le_min.mpr ⟨hle q hq, hlive⟩
  · rw [List.take_take, Nat.min_eq_left (hle q hq)]
    exact hpoint

theorem calloc_bytes {n sz : Nat} (hsize : size < 2 ^ 30) (hbytes : n * sz ≤ size) :
    n * sz % 2 ^ 32 = n * sz := Nat.mod_eq_of_lt (by omega)

theorem arenaStep_kept (hsize : size < 2 ^ 30) (h : UseKept size s) {op : ArenaOp}
    (hbytes : op.bytes ≤ size) (hstep : arenaStep s op = some s') : UseKept size s' := by
  have hsz := h.size_eq
  subst hsz
  cases op with
  | alloc sz =>
    obtain ⟨⟨a, ptr⟩, halloc, rfl⟩ := Option.map_eq_some_iff.mp hstep
    obtain ⟨rfl, hfits, hsize', _, hbelow, hcursor⟩ :=
      arenaAlloc_some hsize h.now.cursor hbytes halloc
    exact h.push hsize' hfits hbelow hcursor
  | calloc n sz =>
    obtain ⟨⟨a, ptr⟩, hcalloc, rfl⟩ := Option.map_eq_some_iff.mp hstep
    obtain ⟨b, halloc, rfl⟩ := arenaCalloc_some hcalloc
    rw [calloc_bytes hsize hbytes] at halloc
    obtain ⟨rfl, hfits, hsize', _, hbelow, hcursor⟩ :=
      arenaAlloc_some hsize h.now.cursor hbytes halloc
    exact h.push hsize' hfits hbelow hcursor
  | save =>
    obtain rfl := Option.some.inj hstep
    exact h.save
  | restore k =>
    rw [arenaStep] at hstep
    split at hstep
    · cases hstep
    · rename_i pt older hpts
      obtain ⟨a, hrestore, rfl⟩ := Option.map_eq_some_iff.mp hstep
      obtain ⟨rfl, _⟩ := arenaRestore_some hrestore
      exact h.restore hpts
  | reset =>
    obtain rfl := Option.some.inj hstep
    exact useKept_create s.arena.mem

theorem arenaRun_kept (hsize : size < 2 ^ 30) (h : UseKept size s) {ops : List ArenaOp}
    (hbytes : ∀ op ∈ ops, op.bytes ≤ size) (hrun : arenaRun s ops = some s') : UseKept size s' := by
  induction ops generalizing s with
  | nil =>
    obtain rfl := Option.some.inj hrun
    exact h
  | cons op ops ih =>
    obtain ⟨t, hstep, hrest⟩ := Option.bind_eq_some_iff.mp hrun
    apply ih (arenaStep_kept hsize h (hbytes op List.mem_cons_self) hstep) _ hrest
    exact fun op' hop => hbytes op' (List.mem_cons_of_mem op hop)

/-- Zeroing starts at the cursor, and everything live is below it. -/
theorem arenaStep_calloc_mem (hsize : size < 2 ^ 30) (h : UseKept size s) {n sz : Nat}
    (hbytes : n * sz ≤ size) (hstep : arenaStep s (.calloc n sz) = some s') {x : Extent}
    (hx : x ∈ s.live) {i : Nat} (hi : i < x.fin) : s'.arena.mem i = s.arena.mem i := by
  have hsz := h.size_eq
  subst hsz
  obtain ⟨⟨a, ptr⟩, hcalloc, rfl⟩ := Option.map_eq_some_iff.mp hstep
  obtain ⟨b, halloc, rfl⟩ := arenaCalloc_some hcalloc
  rw [calloc_bytes hsize hbytes] at halloc
  obtain ⟨rfl, _, _, hmem, _⟩ := arenaAlloc_some hsize h.now.cursor hbytes halloc
  have hlow : ¬(s.arena.point ≤ i ∧ i < s.arena.point + n * sz % 2 ^ 32) := by
    have hfin := h.now.below x hx
    omega
  simp only [memset]
  rw [if_neg hlow, hmem]

end

/-- What the users of the arena rely on. -/
structure LiveApart (s : ArenaUse) : Prop where
  aligned : ∀ x ∈ s.live, x.addr % 16 = 0
  within : ∀ x ∈ s.live, x.Within 0 s.arena.size
  apart : s.live.Pairwise Extent.Apart

theorem arena_live_apart {size : Nat} (hsize : size < 2 ^ 30) (mem : Nat → UInt8)
    {ops : List ArenaOp} (hbytes : ∀ op ∈ ops, op.bytes ≤ size) {s : ArenaUse}
    (hrun : arenaRun ⟨arenaCreate size mem, [], []⟩ ops = some s) :
    LiveApart s ∧ ∀ n sz s', n * sz ≤ size → arenaStep s (.calloc n sz) = some s' →
      ∀ x ∈ s.live, ∀ i, x.addr ≤ i → i < x.fin → s'.arena.mem i = s.arena.mem i := by
  have hkept := arenaRun_kept hsize (useKept_create mem) hbytes hrun
  constructor
  · refine ⟨hkept.now.aligned, ?_, hkept.now.apart⟩
    rw [hkept.size_eq]
    exact hkept.now.within
  · intro n sz s' hcalloc hstep x hx i _ hi
    exact arenaStep_calloc_mem hsize hkept hcalloc hstep hx hi

theorem arena_live_apart_nested :
    ∃ s, arenaRun ⟨arenaCreate 64 fun _ => 7, [], []⟩
        [.alloc 20, .save, .alloc 3, .save, .calloc 2 4, .restore 1, .alloc 10] = some s ∧
      LiveApart s ∧ s.live = [⟨0, 20⟩, ⟨32, 10⟩] := by
  have hbytes : ∀ op ∈ [ArenaOp.alloc 20, .save, .alloc 3, .save, .calloc 2 4, .restore 1,
      .alloc 10], op.bytes ≤ 64 := by decide
  exact ⟨_, rfl, (arena_live_apart (by decide : 64 < 2 ^ 30) (fun _ => 7) hbytes rfl).1, rfl⟩

end Wifimodem
