import Wifimodem.Core.Arena

/-!
# The arena under any calls

Sizes, counts and points here are any a caller can pass: sums and products wrap,
and a restore takes any number. What an allocation checks and where it moves the
cursor both follow from the end of the allocation modulo `2 ^ 32`.
-/

namespace Wifimodem

inductive AllocCall where
  | alloc (sz : Nat)
  | calloc (n sz : Nat)
deriving DecidableEq, Repr

inductive ArenaCall where
  | allocate (c : AllocCall)
  | restore (pt : Nat)
  | reset
deriving DecidableEq, Repr

def AllocCall.bytes : AllocCall → Nat
  | alloc sz => sz
  | calloc n sz => n * sz

def allocCall (a : Arena) : AllocCall → Option (Arena × Nat)
  | .alloc sz => arenaAlloc a sz
  | .calloc n sz => arenaCalloc a n sz

def arenaCall (a : Arena) : ArenaCall → Option Arena
  | .allocate c => (allocCall a c).map Prod.fst
  | .restore pt => arenaRestore a pt
  | .reset => some (arenaReset a)

/-- The arena after all the calls, if none of them aborts. -/
def arenaCalls : Arena → List ArenaCall → Option Arena
  | a, [] => some a
  | a, c :: cs => (arenaCall a c).bind fun a => arenaCalls a cs

theorem arenaCalls_append (a : Arena) (cs ds : List ArenaCall) :
    arenaCalls a (cs ++ ds) = (arenaCalls a cs).bind fun b => arenaCalls b ds := by
  induction cs generalizing a with
  | nil => rfl
  | cons c cs ih =>
    rw [List.cons_append, arenaCalls, arenaCalls, Option.bind_assoc]
    congr 1
    funext b
    exact ih b

/-! ## One allocation -/

/-- The end that an allocation of this many bytes is checked by. -/
def allocEnd (a : Arena) (bytes : Nat) : Nat := (a.point + bytes) % 2 ^ 32

/-- The first unit boundary from here on. -/
def nextUnit (x : Nat) : Nat := (x + 15) / 16 * 16

section
variable {a b : Arena} {ptr : Nat}

theorem arenaAlloc_eq (haligned : a.point % 16 = 0) (sz : Nat) :
    arenaAlloc a sz =
      if allocEnd a sz > a.size then none
      else some ({ a with point := nextUnit (allocEnd a sz) % 2 ^ 32 }, a.point) := by
  have hlt : (sz + (arenaAlignment - 1)) % 2 ^ 32 < 2 ^ 32 := Nat.mod_lt _ (by decide)
  have hpoint : (a.point + (sz + 15) % 2 ^ 32 / 16 * 16) % 2 ^ 32 =
      nextUnit (allocEnd a sz) % 2 ^ 32 := by
    rw [nextUnit, allocEnd]
    omega
  rw [arenaAlloc, and_mask _ hlt, ← allocEnd]
  split
  · rfl
  · exact congrArg (fun p => some (Arena.mk a.size p a.mem, a.point)) hpoint

/-- Both allocators move the cursor by the bytes that are asked for. -/
theorem allocCall_some (haligned : a.point % 16 = 0) {c : AllocCall}
    (h : allocCall a c = some (b, ptr)) :
    allocEnd a c.bytes ≤ a.size ∧ ptr = a.point ∧ b.size = a.size ∧
      b.point = nextUnit (allocEnd a c.bytes) % 2 ^ 32 := by
  have halloc : ∀ {b : Arena} {sz : Nat}, arenaAlloc a sz = some (b, ptr) →
      allocEnd a sz ≤ a.size ∧ ptr = a.point ∧ b.size = a.size ∧
        b.point = nextUnit (allocEnd a sz) % 2 ^ 32 := by
    intro b sz hsome
    rw [arenaAlloc_eq haligned] at hsome
    split at hsome
    · cases hsome
    · rename_i hfits
      obtain ⟨rfl, rfl⟩ := Prod.mk.inj (Option.some.inj hsome)
      exact ⟨Nat.not_lt.mp hfits, rfl, rfl, rfl⟩
  cases c with
  | alloc sz => exact halloc h
  | calloc n sz =>
    obtain ⟨b, hsome, rfl⟩ := arenaCalloc_some h
    have hend : allocEnd a (n * sz % 2 ^ 32) = allocEnd a (n * sz) := Nat.add_mod_mod _ _ _
    have hb := halloc hsome
    rwa [hend] at hb

theorem allocCall_none (haligned : a.point % 16 = 0) {c : AllocCall} :
    allocCall a c = none ↔ a.size < allocEnd a c.bytes := by
  have halloc : ∀ sz, arenaAlloc a sz = none ↔ a.size < allocEnd a sz := by
    intro sz
    rw [arenaAlloc_eq haligned]
    split
    · rename_i hover
      exact iff_of_true rfl hover
    · rename_i hfits
      exact iff_of_false (Option.some_ne_none _) hfits
  cases c with
  | alloc sz => exact halloc sz
  | calloc n sz =>
    have hend : allocEnd a (n * sz % 2 ^ 32) = allocEnd a (n * sz) := Nat.add_mod_mod _ _ _
    rw [AllocCall.bytes, ← hend, ← halloc, allocCall, arenaCalloc]
    split
    · rename_i hnone
      exact iff_of_true rfl hnone
    · rename_i hsome
      rw [hsome]
      exact iff_of_false (Option.some_ne_none _) (Option.some_ne_none _)

/-! ## Every reachable state -/

structure PointAligned (size : Nat) (a : Arena) : Prop where
  size_eq : a.size = size
  aligned : a.point % 16 = 0

theorem nextUnit_mod (x : Nat) : nextUnit x % 2 ^ 32 % 16 = 0 := by
  rw [nextUnit]
  omega

theorem arenaRestore_eq (a : Arena) (pt : Nat) :
    arenaRestore a pt =
      if pt ≤ a.size ∧ pt % 16 = 0 then some { a with point := pt } else none := by
  have hmask : pt &&& (arenaAlignment - 1) = pt % 16 := Nat.and_two_pow_sub_one_eq_mod pt 4
  rw [arenaRestore, hmask]
  split
  · rename_i hbad
    rw [if_neg (by omega)]
  · rename_i hgood
    rw [if_pos (by omega)]

theorem arenaCall_aligned {size : Nat} (h : PointAligned size a) {c : ArenaCall}
    (hcall : arenaCall a c = some b) : PointAligned size b := by
  cases c with
  | allocate c =>
    obtain ⟨⟨b, ptr⟩, hsome, rfl⟩ := Option.map_eq_some_iff.mp hcall
    obtain ⟨_, _, hsize, hpoint⟩ := allocCall_some h.aligned hsome
    refine ⟨hsize.trans h.size_eq, ?_⟩
    rw [hpoint]
    exact nextUnit_mod _
  | restore pt =>
    rw [arenaCall, arenaRestore_eq] at hcall
    split at hcall
    · rename_i hgood
      obtain rfl := Option.some.inj hcall
      exact ⟨h.size_eq, hgood.2⟩
    · cases hcall
  | reset =>
    obtain rfl := Option.some.inj hcall
    exact ⟨h.size_eq, rfl⟩

theorem arenaCalls_aligned {size : Nat} (h : PointAligned size a) {cs : List ArenaCall}
    (hrun : arenaCalls a cs = some b) : PointAligned size b := by
  induction cs generalizing a with
  | nil =>
    obtain rfl := Option.some.inj hrun
    exact h
  | cons c cs ih =>
    obtain ⟨a', hcall, hrest⟩ := Option.bind_eq_some_iff.mp hrun
    exact ih (arenaCall_aligned h hcall) hrest

theorem pointAligned_create (size : Nat) (mem : Nat → UInt8) :
    PointAligned size (arenaCreate size mem) := ⟨rfl, rfl⟩

end

/-! ## What an allocation returns -/

section
variable {size : Nat} {mem : Nat → UInt8} {a : Arena}

/-- What is returned is all inside the arena, and the cursor does not go back. -/
def AllocKept (a : Arena) (c : AllocCall) : Prop :=
  ∀ b ptr, allocCall a c = some (b, ptr) →
    Extent.Within ⟨ptr, c.bytes⟩ 0 a.size ∧ a.point ≤ b.point

/-- The request is refused, or neither its end nor the next aligned address wraps. -/
def AllocUnwrapped (a : Arena) (c : AllocCall) : Prop :=
  a.size < allocEnd a c.bytes ∨ a.point + c.bytes ≤ 2 ^ 32 - 16 ∨
    (a.point = 0 ∧ c.bytes < 2 ^ 32)

theorem allocKept_iff (hsize : a.size < 2 ^ 32) (haligned : a.point % 16 = 0) (c : AllocCall) :
    AllocKept a c ↔ AllocUnwrapped a c := by
  rw [AllocUnwrapped]
  cases hcall : allocCall a c with
  | none =>
    refine iff_of_true ?_ (.inl ((allocCall_none haligned).mp hcall))
    intro b ptr hsome
    rw [hcall] at hsome
    cases hsome
  | some r =>
    obtain ⟨b, ptr⟩ := r
    obtain ⟨hend, rfl, _, hpoint⟩ := allocCall_some haligned hcall
    have hkept : AllocKept a c ↔ a.point + c.bytes ≤ a.size ∧ a.point ≤ b.point := by
      constructor
      · intro h
        obtain ⟨hin, hle⟩ := h b a.point hcall
        exact ⟨hin.2, hle⟩
      · rintro ⟨hin, hle⟩ b' ptr hsome
        obtain ⟨rfl, rfl⟩ := Prod.mk.inj (Option.some.inj (hcall.symm.trans hsome))
        exact ⟨⟨Nat.zero_le _, hin⟩, hle⟩
    rw [hkept, hpoint, nextUnit]
    rw [allocEnd] at hend ⊢
    omega

theorem arena_alloc_kept_iff (hsize : size < 2 ^ 32) {calls : List ArenaCall}
    (hrun : arenaCalls (arenaCreate size mem) calls = some a) (c : AllocCall) :
    AllocKept a c ↔ AllocUnwrapped a c := by
  obtain ⟨rfl, haligned⟩ := arenaCalls_aligned (pointAligned_create size mem) hrun
  exact allocKept_iff hsize haligned c

/-! ## What can be restored -/

/-- Every point saved at a state of the run can be restored there, which changes
nothing, and at every later state. -/
def SavesRestore (a : Arena) (calls : List ArenaCall) : Prop :=
  ∀ past later rest, calls = past ++ later ++ rest →
    ∀ b d, arenaCalls a past = some b → arenaCalls b later = some d →
      arenaRestore b (arenaSave b) = some b ∧
        arenaRestore d (arenaSave b) = some { d with point := b.point }

/-- The allocation ends in the last bytes of the arena, those that do not make
up a whole aligned unit. -/
def EndsInTail (a : Arena) (c : AllocCall) : Prop :=
  a.size / 16 * 16 < allocEnd a c.bytes ∧ allocEnd a c.bytes ≤ a.size ∧
    allocEnd a c.bytes ≤ 2 ^ 32 - 16

def NoTail (a : Arena) (calls : List ArenaCall) : Prop :=
  ∀ past c rest, calls = past ++ .allocate c :: rest →
    ∀ b, arenaCalls a past = some b → ¬EndsInTail b c

theorem allocCall_point_iff (haligned : a.point % 16 = 0) {c : AllocCall} {b : Arena} {ptr : Nat}
    (h : allocCall a c = some (b, ptr)) : b.point ≤ a.size ↔ ¬EndsInTail a c := by
  obtain ⟨hend, _, _, hpoint⟩ := allocCall_some haligned h
  have hlt : allocEnd a c.bytes < 2 ^ 32 := Nat.mod_lt _ (by decide)
  rw [hpoint, nextUnit, EndsInTail]
  omega

theorem arenaCall_point_le (haligned : a.point % 16 = 0) {c : ArenaCall} {b : Arena}
    (hcall : arenaCall a c = some b) (htail : ∀ c', c = .allocate c' → ¬EndsInTail a c') :
    b.point ≤ a.size := by
  cases c with
  | allocate c =>
    obtain ⟨⟨b, ptr⟩, hsome, rfl⟩ := Option.map_eq_some_iff.mp hcall
    exact (allocCall_point_iff haligned hsome).mpr (htail c rfl)
  | restore pt =>
    rw [arenaCall, arenaRestore_eq] at hcall
    split at hcall
    · rename_i hgood
      obtain rfl := Option.some.inj hcall
      exact hgood.1
    · cases hcall
  | reset =>
    obtain rfl := Option.some.inj hcall
    exact Nat.zero_le _

theorem arenaCalls_point_le (h : PointAligned size a) (hle : a.point ≤ size)
    {calls : List ArenaCall} (htail : NoTail a calls) {b : Arena}
    (hrun : arenaCalls a calls = some b) : b.point ≤ size := by
  induction calls generalizing a with
  | nil =>
    obtain rfl := Option.some.inj hrun
    exact hle
  | cons c calls ih =>
    obtain ⟨a', hcall, hrest⟩ := Option.bind_eq_some_iff.mp hrun
    have hle' : a'.point ≤ size := by
      rw [← h.size_eq]
      apply arenaCall_point_le h.aligned hcall
      rintro c' rfl
      exact htail [] c' calls rfl a rfl
    refine ih (arenaCall_aligned h hcall) hle' ?_ hrest
    rintro past c' rest rfl b hpast
    apply htail (c :: past) c' rest rfl b
    rw [arenaCalls, hcall]
    exact hpast

theorem arena_saves_restore_iff (size : Nat) (mem : Nat → UInt8) (calls : List ArenaCall) :
    SavesRestore (arenaCreate size mem) calls ↔ NoTail (arenaCreate size mem) calls := by
  have hcreate := pointAligned_create size mem
  constructor
  · rintro hrestore past c rest rfl b hpast htail
    have hb := arenaCalls_aligned hcreate hpast
    obtain ⟨⟨d, ptr⟩, hsome⟩ : ∃ r, allocCall b c = some r := by
      cases hcall : allocCall b c with
      | none => exact absurd htail.2.1 (Nat.not_le.mpr ((allocCall_none hb.aligned).mp hcall))
      | some r => exact ⟨r, rfl⟩
    have hcall : arenaCall b (.allocate c) = some d := by
      rw [arenaCall, hsome]
      rfl
    have hd := arenaCall_aligned hb hcall
    have hrun : arenaCalls (arenaCreate size mem) (past ++ [.allocate c]) = some d := by
      rw [arenaCalls_append, hpast, Option.bind_some, arenaCalls, hcall]
      rfl
    have hself := (hrestore (past ++ [.allocate c]) [] rest (by simp) d d hrun rfl).1
    rw [arenaRestore_eq, arenaSave] at hself
    split at hself
    · rename_i hgood
      have hle : d.point ≤ b.size := by
        rw [hb.size_eq, ← hd.size_eq]
        exact hgood.1
      exact (allocCall_point_iff hb.aligned hsome).mp hle htail
    · cases hself
  · rintro htail past later rest rfl b d hpast hlater
    have hb := arenaCalls_aligned hcreate hpast
    have hd := arenaCalls_aligned hb hlater
    have hle : b.point ≤ size := by
      apply arenaCalls_point_le hcreate (Nat.zero_le size) _ hpast
      rintro p c r rfl
      exact htail p c (r ++ later ++ rest) (by simp)
    have hrestore : ∀ e, PointAligned size e →
        arenaRestore e (arenaSave b) = some { e with point := b.point } := by
      intro e he
      rw [arenaSave, arenaRestore_eq, he.size_eq, if_pos ⟨hle, hb.aligned⟩]
    exact ⟨hrestore b hb, hrestore d hd⟩

end

theorem arena_alloc_kept_iff_small :
    arenaCalls (arenaCreate 64 fun _ => 7) [.allocate (.alloc 20)] = some ⟨64, 32, fun _ => 7⟩ ∧
      AllocKept ⟨64, 32, fun _ => 7⟩ (.calloc 2 16) := by
  have hrun : arenaCalls (arenaCreate 64 fun _ => 7) [.allocate (.alloc 20)] =
      some ⟨64, 32, fun _ => 7⟩ := rfl
  exact ⟨hrun, (arena_alloc_kept_iff (by decide) hrun (.calloc 2 16)).mpr (.inr (.inl (by decide)))⟩

/-- After sixteen bytes, almost all of the address space is handed out again. -/
theorem arena_alloc_wrap :
    arenaCalls (arenaCreate 64 fun _ => 7) [.allocate (.alloc 1)] = some ⟨64, 16, fun _ => 7⟩ ∧
      ¬AllocKept ⟨64, 16, fun _ => 7⟩ (.alloc 0xfffffff0) ∧
      ¬AllocKept ⟨64, 16, fun _ => 7⟩ (.calloc 0x10000 0x10000) := by
  refine ⟨rfl, ?_, ?_⟩
  · intro h
    obtain ⟨hin, _⟩ := h ⟨64, 0, fun _ => 7⟩ 16 rfl
    exact absurd hin.2 (by decide)
  · intro h
    obtain ⟨hin, _⟩ := h _ 16 rfl
    exact absurd hin.2 (by decide)

/-- Twenty bytes of twenty are handed out, and the cursor is at 32. -/
theorem arena_saves_restore_tail :
    ¬SavesRestore (arenaCreate 20 fun _ => 7) [.allocate (.alloc 20)] := by
  intro h
  obtain ⟨hself, _⟩ := h [.allocate (.alloc 20)] [] [] rfl ⟨20, 32, fun _ => 7⟩
    ⟨20, 32, fun _ => 7⟩ rfl rfl
  exact Option.some_ne_none _ hself.symm

end Wifimodem
