import Wifimodem.Util.BufferPack

/-!
# Appending to the buffer

`buffer_append` copies bytes, copies a string or reserves room, selected by its
pointer and its length. Pointers and `uint` have four bytes, and `none` is an
access through a null pointer or past what can be read.
-/

namespace Wifimodem

/-- Where the storage of a buffer is, and the memory behind its structure. -/
structure BufferPlace where
  addr : Nat
  behind : List UInt8

/-- The memory from the structure on. -/
def BufferPlace.image (place : BufferPlace) (buf : Buffer) : List UInt8 :=
  LittleEndian.toBytes 4 place.addr ++ LittleEndian.toBytes 4 buf.cap ++
    LittleEndian.toBytes 4 buf.pos ++ LittleEndian.toBytes 4 buf.len ++ place.behind

def strlen (s : List UInt8) : Option Nat := if 0 ∈ s then some (cstr s).length else none

/-- The bytes a copy of this length reads. -/
def loadFrom : Option (List UInt8) → Nat → Option (List UInt8)
  | _, 0 => some []
  | none, _ + 1 => none
  | some src, n + 1 => if n < src.length then some (src.take (n + 1)) else none

/-- `bufferWrite` from a pointer: what does not fit is not read. -/
def bufferWriteFrom (buf : Buffer) (ptr : Option (List UInt8)) (len : Nat) :
    Option (Buffer × Nat) :=
  (loadFrom ptr (if len ≥ buf.free then buf.free else len)).map (bufferWrite buf)

def bufferReserve (buf : Buffer) (len : Nat) : Buffer × Nat :=
  let buf := { buf with len := (buf.len + min len buf.free) % 2 ^ 32 }
  (buf, buf.free)

/-- The result is the write position the returned pointer has; both tests are on
the buffer itself, as in the source. -/
def bufferAppend (place : BufferPlace) (buf : Option Buffer) (ptr : Option (List UInt8))
    (len : Nat) : Option (Buffer × Option Nat) :=
  match buf with
  | none => none
  | some b =>
    if b.free < len then some (b, none)
    else
      let len :=
        if buf.isSome ∧ len = 0 then (strlen (place.image b)).map (· + 1) else some len
      let p := b.wtell
      len.bind fun len =>
        (if buf.isSome then (bufferWriteFrom b ptr len).map Prod.fst
          else some (bufferReserve b len).1).map fun b => (b, some p)

/-! ## What an append is for -/

/-- The memory at the pointer is as long as the call says. -/
def SourceHolds : Option (List UInt8) → Nat → Prop
  | none, _ => True
  | some src, 0 => 0 ∈ src
  | some src, len + 1 => len < src.length

def appendSize : Option (List UInt8) → Nat → Nat
  | none, len => len
  | some src, 0 => (cstr src).length + 1
  | some _, len + 1 => len + 1

def AppendStores (buf : Buffer) : Option (List UInt8) → Nat → Buffer → Prop
  | none, len, buf' => buf.len + len ≤ buf.cap ∧ buf' = { buf with len := buf.len + len }
  | some src, 0, buf' => Appended buf (cstr src ++ [0]) buf'
  | some src, len + 1, buf' => Appended buf (src.take (len + 1)) buf'

/-- Nothing because it does not fit, or all of it at the old write position. -/
def AllOrNothing (buf : Buffer) (ptr : Option (List UInt8)) (len : Nat) :
    Option (Buffer × Option Nat) → Prop
  | none => False
  | some (buf', none) => buf.free < appendSize ptr len ∧ buf' = buf
  | some (buf', some p) => p = buf.wtell ∧ AppendStores buf ptr len buf'

/-- A reservation is met only where there is no room; a string only where the
structure of the buffer, read as a string, stands for the same number of bytes. -/
def AppendMeant (place : BufferPlace) (buf : Buffer) : Option (List UInt8) → Nat → Prop
  | none, 0 => buf.free = 0 ∧ 0 ∈ place.image buf
  | none, len + 1 => buf.free < len + 1
  | some src, 0 => 0 ∈ place.image buf ∧
      min ((cstr (place.image buf)).length + 1) buf.free = (cstr src).length + 1
  | some _, _ + 1 => True

/-! ## The three modes -/

theorem cstr_append_zero {s : List UInt8} (h : 0 ∈ s) :
    s.take ((cstr s).length + 1) = cstr s ++ [0] := by
  induction s with
  | nil => cases h
  | cons c s ih =>
    rw [cstr, List.takeWhile_cons]
    split
    · rename_i hc
      have hs : 0 ∈ s := by
        rcases List.mem_cons.mp h with hzero | hs
        · exact absurd hzero.symm (of_decide_eq_true hc)
        · exact hs
      rw [List.length_cons, List.take_succ_cons, List.cons_append]
      exact congrArg (c :: ·) (ih hs)
    · rename_i hc
      have hzero : c = 0 := Decidable.not_not.mp fun hne => hc (decide_eq_true hne)
      rw [hzero]
      rfl

theorem cstr_length_lt {s : List UInt8} (h : 0 ∈ s) : (cstr s).length < s.length := by
  have hlen := congrArg List.length (cstr_append_zero h)
  rw [List.length_take, List.length_append, List.length_singleton] at hlen
  omega

section
variable {place : BufferPlace} {buf : Buffer}

theorem bufferWriteFrom_some (hwf : buf.WellFormed) {src : List UInt8} {len n : Nat}
    (hn : n = min len (buf.cap - buf.len)) (hsrc : n ≤ src.length) :
    ∃ buf', bufferWriteFrom buf (some src) len = some (buf', n) ∧
      Appended buf (src.take n) buf' := by
  have hload : loadFrom (some src) n = some (src.take n) := by
    cases n with
    | zero => rfl
    | succ n => exact if_pos hsrc
  have htake : (src.take n).length = n := by
    rw [List.length_take, Nat.min_eq_left hsrc]
  have hroom : (src.take n).length ≤ buf.cap - buf.len := by
    rw [htake, hn]
    exact Nat.min_le_right _ _
  obtain ⟨hlen, happ⟩ := Appended.write hwf hroom
  refine ⟨(bufferWrite buf (src.take n)).1, ?_, happ⟩
  rw [bufferWriteFrom, clip_ge, hwf.free_eq, ← hn, hload, Option.map_some, Option.some_inj]
  exact Prod.ext rfl (hlen.trans htake)

theorem bufferWriteFrom_fault (hwf : buf.WellFormed) {ptr : Option (List UInt8)} {len : Nat}
    (hload : loadFrom ptr (min len (buf.cap - buf.len)) = none) :
    bufferWriteFrom buf ptr len = none := by
  rw [bufferWriteFrom, clip_ge, hwf.free_eq, hload, Option.map_none]

theorem bufferWriteFrom_full (hwf : buf.WellFormed) (hfull : buf.cap - buf.len = 0)
    (ptr : Option (List UInt8)) (len : Nat) : bufferWriteFrom buf ptr len = some (buf, 0) := by
  have hload : loadFrom ptr 0 = some [] := by cases ptr <;> rfl
  have hwrite : bufferWrite buf [] = (buf, 0) := by
    rw [bufferWrite_eq hwf, Buffer.accepts, List.length_nil, Nat.zero_min, List.take_nil,
      List.overlay_nil]
    rfl
  rw [bufferWriteFrom, clip_ge, hwf.free_eq, hfull, Nat.min_zero, hload, Option.map_some, hwrite]

theorem bufferAppend_short {ptr : Option (List UInt8)} {len : Nat} (hfree : buf.free < len) :
    bufferAppend place (some buf) ptr len = some (buf, none) := if_pos hfree

theorem bufferAppend_bytes {ptr : Option (List UInt8)} {len : Nat} (hfree : len + 1 ≤ buf.free) :
    bufferAppend place (some buf) ptr (len + 1) =
      (bufferWriteFrom buf ptr (len + 1)).map fun (b, _) => (b, some buf.wtell) := by
  simp only [bufferAppend]
  rw [if_neg (Nat.not_lt.mpr hfree), if_neg (by simp), Option.bind_some, if_pos (by rfl),
    Option.map_map]
  rfl

theorem bufferAppend_string {ptr : Option (List UInt8)} :
    bufferAppend place (some buf) ptr 0 =
      (strlen (place.image buf)).bind fun n =>
        (bufferWriteFrom buf ptr (n + 1)).map fun (b, _) => (b, some buf.wtell) := by
  simp only [bufferAppend]
  rw [if_neg (Nat.not_lt_zero _), if_pos (by simp), Option.bind_map]
  congr 1
  funext n
  rw [Function.comp_apply, if_pos (by rfl), Option.map_map]
  rfl

theorem bufferAppend_image (h : 0 ∉ place.image buf) (ptr : Option (List UInt8)) :
    bufferAppend place (some buf) ptr 0 = none := by
  rw [bufferAppend_string, strlen, if_neg h, Option.bind_none]

theorem append_bytes_meant (hwf : buf.WellFormed) {src : List UInt8} {len : Nat}
    (hsrc : len < src.length) :
    AllOrNothing buf (some src) (len + 1)
      (bufferAppend place (some buf) (some src) (len + 1)) := by
  rcases Nat.lt_or_ge buf.free (len + 1) with hshort | hroom
  · rw [bufferAppend_short hshort]
    exact ⟨hshort, rfl⟩
  · have hmin : len + 1 = min (len + 1) (buf.cap - buf.len) := by
      rw [hwf.free_eq] at hroom
      omega
    obtain ⟨buf', hwrite, happ⟩ := bufferWriteFrom_some hwf hmin hsrc
    rw [bufferAppend_bytes hroom, hwrite]
    exact ⟨rfl, happ⟩

theorem append_string_meant_iff (hwf : buf.WellFormed) {src : List UInt8} (hsrc : 0 ∈ src) :
    AllOrNothing buf (some src) 0 (bufferAppend place (some buf) (some src) 0) ↔
      AppendMeant place buf (some src) 0 := by
  cases Decidable.em (0 ∈ place.image buf) with
  | inr hnul =>
    rw [bufferAppend_image hnul]
    exact ⟨False.elim, fun h => absurd h.1 hnul⟩
  | inl hnul =>
    have hlt := cstr_length_lt hsrc
    rw [bufferAppend_string, strlen, if_pos hnul, Option.bind_some, AppendMeant, hwf.free_eq]
    rcases Nat.lt_or_ge src.length
      (min ((cstr (place.image buf)).length + 1) (buf.cap - buf.len)) with hpast | hin
    · have hload : loadFrom (some src)
          (min ((cstr (place.image buf)).length + 1) (buf.cap - buf.len)) = none := by
        obtain ⟨n, hn⟩ := Nat.exists_eq_add_of_lt hpast
        rw [hn, loadFrom, if_neg (by omega)]
      rw [bufferWriteFrom_fault hwf hload]
      exact ⟨False.elim, fun h => by omega⟩
    · obtain ⟨buf', hwrite, happ⟩ := bufferWriteFrom_some hwf rfl hin
      rw [hwrite, Option.map_some]
      constructor
      · rintro ⟨_, hstores⟩
        refine ⟨hnul, ?_⟩
        have hlen := happ.len.symm.trans hstores.len
        rw [List.length_take, List.length_append, List.length_singleton] at hlen
        omega
      · rintro ⟨_, hmin⟩
        rw [hmin, cstr_append_zero hsrc] at happ
        exact ⟨rfl, happ⟩

theorem append_reserve_meant_iff (hwf : buf.WellFormed) (len : Nat) :
    AllOrNothing buf none len (bufferAppend place (some buf) none len) ↔
      AppendMeant place buf none len := by
  cases len with
  | succ len =>
    rcases Nat.lt_or_ge buf.free (len + 1) with hshort | hroom
    · rw [bufferAppend_short hshort]
      exact ⟨fun _ => hshort, fun _ => ⟨hshort, rfl⟩⟩
    · have hload : loadFrom none (min (len + 1) (buf.cap - buf.len)) = none := by
        rw [hwf.free_eq] at hroom
        rw [Nat.min_eq_left hroom]
        rfl
      rw [bufferAppend_bytes hroom, bufferWriteFrom_fault hwf hload]
      exact ⟨False.elim, fun h => absurd h (Nat.not_lt.mpr hroom)⟩
  | zero =>
    cases Decidable.em (0 ∈ place.image buf) with
    | inr hnul =>
      rw [bufferAppend_image hnul]
      exact ⟨False.elim, fun h => absurd h.2 hnul⟩
    | inl hnul =>
      rw [bufferAppend_string, strlen, if_pos hnul, Option.bind_some, AppendMeant, hwf.free_eq]
      rcases Nat.eq_zero_or_pos (buf.cap - buf.len) with hfull | hroom
      · rw [bufferWriteFrom_full hwf hfull]
        exact ⟨fun _ => ⟨hfull, hnul⟩, fun _ => ⟨rfl, hwf.len_le, rfl⟩⟩
      · have hload : loadFrom none
            (min ((cstr (place.image buf)).length + 1) (buf.cap - buf.len)) = none := by
          obtain ⟨n, hn⟩ := Nat.exists_eq_succ_of_ne_zero (Nat.ne_of_gt hroom)
          rw [hn, Nat.succ_min_succ]
          rfl
        rw [bufferWriteFrom_fault hwf hload]
        exact ⟨False.elim, fun h => absurd h.1 (Nat.ne_of_gt hroom)⟩

theorem bufferAppend_meant_iff (hwf : buf.WellFormed) {ptr : Option (List UInt8)} {len : Nat}
    (hsrc : SourceHolds ptr len) :
    AllOrNothing buf ptr len (bufferAppend place (some buf) ptr len) ↔
      AppendMeant place buf ptr len := by
  match ptr, len, hsrc with
  | none, len, _ => exact append_reserve_meant_iff hwf len
  | some src, 0, hsrc => exact append_string_meant_iff hwf hsrc
  | some src, len + 1, hsrc => exact ⟨fun _ => trivial, fun _ => append_bytes_meant hwf hsrc⟩

end

/-- The structure of a buffer of sixteen bytes here has its first zero after five bytes. -/
def storageAt : BufferPlace := ⟨0x3ffb1234, []⟩

theorem bufferAppend_meant_iff_bytes :
    (bufferInit (.ofCells (List.replicate 16 0xff)) 16).WellFormed ∧
      AllOrNothing (bufferInit (.ofCells (List.replicate 16 0xff)) 16) (some ['o', 'n', 0]) 3
        (bufferAppend storageAt (some (bufferInit (.ofCells (List.replicate 16 0xff)) 16))
          (some ['o', 'n', 0]) 3) := by
  have hwf : (bufferInit (.ofCells (List.replicate 16 0xff)) 16).WellFormed :=
    bufferInit_wellFormed (by decide) rfl
  have hsrc : SourceHolds (some ['o', 'n', 0]) 3 := (by decide : 2 < 3)
  exact ⟨hwf, (bufferAppend_meant_iff hwf hsrc).mpr trivial⟩

/-- Six bytes are copied for a string of two characters. -/
theorem bufferAppend_string_overrun :
    ¬AllOrNothing (bufferInit (.ofCells (List.replicate 16 0xff)) 16)
      (some ['o', 'n', 0, 'o', 'f', 'f', 0]) 0
      (bufferAppend storageAt (some (bufferInit (.ofCells (List.replicate 16 0xff)) 16))
        (some ['o', 'n', 0, 'o', 'f', 'f', 0]) 0) := by
  rintro ⟨_, hstores⟩
  have hlen : (6 : Nat) = 3 := hstores.len
  exact absurd hlen (by decide)

end Wifimodem
