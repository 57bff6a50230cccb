import Wifimodem.Lib.Filling
import Wifimodem.Util.BufferPack

/-!
# What packing puts into the buffer

The bytes of each field are stated here by the value alone: the two's complement
of an integer, in the byte order selected last, and a string without its
terminator. A field that does not fit is cut off where the room ends.
-/

namespace Wifimodem

namespace Scalar

def letter : Scalar → UInt8
  | u8 => 'B'
  | u16 => 'W'
  | u32 => 'D'
  | u64 => 'Q'
  | i8 => 'b'
  | i16 => 'w'
  | i32 => 'd'
  | i64 => 'q'

def signed : Scalar → Bool
  | u8 | u16 | u32 | u64 => false
  | i8 | i16 | i32 | i64 => true

def value (t : Scalar) (v : BitVec (8 * t.size)) : Int := if t.signed then v.toInt else v.toNat

def wire (t : Scalar) (little : Bool) (x : Int) : List UInt8 :=
  if little then LittleEndian.intBytes t.size x else (LittleEndian.intBytes t.size x).reverse

end Scalar

namespace PackValue

/-- The format characters that take this argument. -/
def letters : PackValue → List UInt8
  | int t _ => [t.letter]
  | str _ => ['s', 'S']

def wire (little : Bool) : PackValue → List UInt8
  | int t v => t.wire little (t.value v)
  | str s => cstr s

end PackValue

/-- A format with its arguments, and the bytes that each format character stands for. -/
inductive PackFields : Bool → List UInt8 → List PackValue → List (List UInt8) → Prop where
  | nil {l : Bool} {argv : List PackValue} : PackFields l [] argv []
  | little {l : Bool} {fmt : List UInt8} {argv : List PackValue} {fields : List (List UInt8)} :
      PackFields true fmt argv fields → PackFields l ('<' :: fmt) argv ([] :: fields)
  | big {l : Bool} {fmt : List UInt8} {argv : List PackValue} {fields : List (List UInt8)} :
      PackFields false fmt argv fields → PackFields l ('>' :: fmt) argv ([] :: fields)
  | value {l : Bool} {c : UInt8} {fmt : List UInt8} {v : PackValue} {argv : List PackValue}
      {fields : List (List UInt8)} : c ∈ v.letters → PackFields l fmt argv fields →
      PackFields l (c :: fmt) (v :: argv) (v.wire l :: fields)
  | skip {l : Bool} {c : UInt8} {fmt : List UInt8} {argv : List PackValue}
      {fields : List (List UInt8)} : c ≠ 0 → packCode c = .other → PackFields l fmt argv fields →
      PackFields l (c :: fmt) argv ([] :: fields)

/-! ## The bytes of one field -/

theorem signed_sub (t : Scalar) (v : BitVec (8 * t.size)) :
    ∃ k : Int, t.value v = v.toNat - 256 ^ t.size * k := by
  rw [Scalar.value]
  split
  · rw [BitVec.toInt_eq_toNat_cond]
    split
    · exact ⟨0, by simp⟩
    · refine ⟨1, ?_⟩
      rw [mul_one, pow_mul]
      rfl
  · exact ⟨0, by simp⟩

theorem encode_eq_wire (l : Bool) (t : Scalar) (v : BitVec (8 * t.size)) :
    encode l t v = t.wire l (t.value v) := by
  obtain ⟨k, hvalue⟩ := signed_sub t v
  rw [encode, Scalar.wire, hvalue, LittleEndian.intBytes_sub_mul,
    ← LittleEndian.toBytes_eq_intBytes]
  cases l with
  | true => rfl
  | false =>
    rw [if_neg Bool.false_ne_true, if_neg Bool.false_ne_true, bswap_eq_swap t v.isLt,
      LittleEndian.toBytes_swap]

theorem packCode_letter (t : Scalar) : packCode t.letter = .field (.int t) := by
  cases t <;> decide

/-- A value is written under each of its letters. -/
theorem packField_of_mem {c : UInt8} {v : PackValue} (h : c ∈ v.letters) (l : Bool)
    (argv : List PackValue) :
    ∃ f, packCode c = .field f ∧ packField f l (v :: argv) = some (v.wire l, argv) := by
  cases v with
  | int t v =>
    obtain rfl := List.mem_singleton.mp h
    refine ⟨.int t, packCode_letter t, ?_⟩
    rw [packField, if_pos rfl, encode_eq_wire]
    rfl
  | str s =>
    refine ⟨.str, ?_, rfl⟩
    rcases List.mem_pair.mp h with rfl | rfl <;> rfl

/-! ## The whole format -/

theorem PackFields.length_eq {l : Bool} {fmt : List UInt8} {argv : List PackValue}
    {fields : List (List UInt8)} (h : PackFields l fmt argv fields) :
    fields.length = fmt.length := by
  induction h with
  | nil => rfl
  | little _ ih | big _ ih | value _ _ ih | skip _ _ _ ih => exact congrArg (· + 1) ih

/-- The loop counts the fields that fit whole, and fills the room with their bytes. -/
theorem packLoop_fill {l : Bool} {fmt : List UInt8} {argv : List PackValue}
    {fields : List (List UInt8)} (h : PackFields l fmt argv fields) (n : Nat) {buf : Buffer}
    (hwf : buf.WellFormed) :
    ∃ buf', packLoop fmt l n buf argv =
        some (buf', n + Filling.count (fields.map List.length) (buf.cap - buf.len)) ∧
      Appended buf (fields.flatten.take (buf.cap - buf.len)) buf' := by
  induction h generalizing n buf with
  | nil => exact ⟨buf, rfl, by rw [List.flatten_nil, List.take_nil]; exact Appended.refl hwf⟩
  | little _ ih =>
    rw [packLoop_endian (.inl rfl), List.map_cons, List.length_nil, Filling.add_count_zero_cons]
    exact ih (n + 1) hwf
  | big _ ih =>
    rw [packLoop_endian (.inr rfl), List.map_cons, List.length_nil, Filling.add_count_zero_cons]
    exact ih (n + 1) hwf
  | skip _ hc _ ih =>
    rw [packLoop, hc, List.map_cons, List.length_nil, Filling.add_count_zero_cons]
    exact ih (n + 1) hwf
  | @value l c fmt v argv fields hc _ ih =>
    obtain ⟨f, hcode, hfield⟩ := packField_of_mem hc l argv
    obtain ⟨hlen, happ⟩ := Appended.write_take hwf (v.wire l)
    rw [packLoop, hcode]
    simp only [hfield, hlen]
    rw [List.map_cons, Filling.count, List.flatten_cons]
    rcases Nat.lt_or_ge (buf.cap - buf.len) (v.wire l).length with hshort | hroom
    · rw [if_pos (by omega), if_pos hshort, List.take_append_of_le_length (Nat.le_of_lt hshort)]
      exact ⟨_, rfl, happ⟩
    · rw [if_neg (by omega), if_neg (Nat.not_lt.mpr hroom)]
      rw [List.take_of_length_le hroom] at happ
      obtain ⟨buf', hloop, happ'⟩ := ih (n + 1) happ.wellFormed
      have hleft : (bufferWrite buf (v.wire l)).1.cap - (bufferWrite buf (v.wire l)).1.len =
          buf.cap - buf.len - (v.wire l).length := by
        rw [happ.cap, happ.len]
        omega
      rw [hleft] at hloop happ'
      refine ⟨buf', ?_, ?_⟩
      · rw [hloop, Nat.add_right_comm, Nat.add_assoc]
      · rw [List.take_append, List.take_of_length_le hroom]
        exact happ.trans happ'

theorem buffer_pack_layout {buf : Buffer} (hwf : buf.WellFormed) {fmt : List UInt8}
    {argv : List PackValue} {fields : List (List UInt8)} (h : PackFields true fmt argv fields)
    (hroom : fields.flatten.length ≤ buf.cap - buf.len) :
    ∃ buf', bufferPackv buf fmt argv = some (buf', fmt.length) ∧ buf'.WellFormed ∧
      buf'.contents = buf.contents ++ fields.flatten ∧ buf'.pos = buf.pos := by
  obtain ⟨buf', hpack, happ⟩ := packLoop_fill h 0 hwf
  have hall : Filling.count (fields.map List.length) (buf.cap - buf.len) = fmt.length := by
    rw [(Filling.count_eq_length_iff ..).mpr (by rw [← List.length_flatten]; exact hroom),
      List.length_map, h.length_eq]
  rw [hall, Nat.zero_add] at hpack
  rw [List.take_of_length_le hroom] at happ
  exact ⟨buf', hpack, happ.wellFormed, happ.contents, happ.pos⟩

theorem buffer_pack_layout_mixed :
    ∃ buf', bufferPackv (bufferInit (Block.ofCells (List.replicate 8 0)) 8) ['B', '>', 'w', 's']
        [.int .u8 200, .int .i16 (-2), .str ['o', 'k', 0]] = some (buf', 4) ∧ buf'.WellFormed ∧
      buf'.contents = [200, 255, 254, 111, 107] ∧ buf'.pos = 0 := by
  have hempty : (bufferInit (Block.ofCells (List.replicate 8 0)) 8).WellFormed :=
    bufferInit_wellFormed (by decide) rfl
  have hfields : PackFields true ['B', '>', 'w', 's']
      [.int .u8 200, .int .i16 (-2), .str ['o', 'k', 0]] [[200], [], [255, 254], [111, 107]] :=
    .value (v := .int .u8 200) (by decide) (.big (.value (v := .int .i16 (-2)) (by decide)
      (.value (v := .str ['o', 'k', 0]) (by decide) .nil)))
  exact buffer_pack_layout hempty hfields (by decide)

/-! ## Where a call stops -/

/-- A format with its arguments, and the number of bytes each format character reads. -/
inductive UnpackFields : List UInt8 → List UnpackArg → List Nat → Prop where
  | nil {args : List UnpackArg} : UnpackFields [] args []
  | int {c : UInt8} {fmt : List UInt8} {t : Scalar} {dst : Nat} {args : List UnpackArg}
      {sizes : List Nat} : unpackCode c = .field (.int t) → UnpackFields fmt args sizes →
      UnpackFields (c :: fmt) (.ptr dst :: args) (t.size :: sizes)
  | str {c : UInt8} {fmt : List UInt8} {dst len : Nat} {args : List UnpackArg}
      {sizes : List Nat} : unpackCode c = .field .str → UnpackFields fmt args sizes →
      UnpackFields (c :: fmt) (.ptr dst :: .len len :: args) (len :: sizes)
  | skip {c : UInt8} {fmt : List UInt8} {args : List UnpackArg} {sizes : List Nat} :
      c ≠ 0 → (unpackCode c).isField = false → UnpackFields fmt args sizes →
      UnpackFields (c :: fmt) args (0 :: sizes)

/-- When packing stops at a field, the buffer has got the fields before it and nothing else. -/
def PackAtomic (buf : Buffer) (fmt : List UInt8) (argv : List PackValue)
    (fields : List (List UInt8)) : Prop :=
  ∀ buf' n, bufferPackv buf fmt argv = some (buf', n) → n < fmt.length →
    buf'.contents = buf.contents ++ (fields.take n).flatten

/-- When unpacking stops at a field, the fields before it are read and nothing else,
and behind their stores no byte is stored. -/
def UnpackAtomic (buf : Buffer) (fmt : List UInt8) (args : List UnpackArg)
    (sizes : List Nat) : Prop :=
  ∀ buf' stores n, bufferUnpackv buf fmt args = some (buf', stores, n) → n < fmt.length →
    buf'.pos = buf.pos + (sizes.take n).sum ∧
      ∀ store ∈ stores.drop (unpackedFields (fmt.take n)), store.2 = .str []

theorem take_flatten_eq_iff (fields : List (List UInt8)) {room : Nat}
    (hshort : Filling.count (fields.map List.length) room < fields.length) :
    fields.flatten.take room = (fields.take (Filling.count (fields.map List.length) room)).flatten ↔
      ((fields.map List.length).take (Filling.count (fields.map List.length) room)).sum = room := by
  have hle := Filling.sum_take_count_le (fields.map List.length) room
  have hlong : room < fields.flatten.length := by
    rw [List.length_flatten, ← Nat.not_le, ← Filling.count_eq_length_iff, List.length_map]
    omega
  rw [← List.take_sum_flatten, List.take_eq_take_iff]
  omega

theorem packAtomic_iff {buf : Buffer} (hwf : buf.WellFormed) {fmt : List UInt8}
    {argv : List PackValue} {fields : List (List UInt8)} (h : PackFields true fmt argv fields) :
    PackAtomic buf fmt argv fields ↔
      Filling.EndsAtPart (fields.map List.length) (buf.cap - buf.len) := by
  obtain ⟨buf', hpack, happ⟩ := packLoop_fill h 0 hwf
  rw [Nat.zero_add] at hpack
  rw [← Filling.exact_iff, List.length_map]
  constructor
  · intro hatomic hshort
    have hcontents := hatomic buf' _ hpack (by rw [← h.length_eq]; exact hshort)
    rw [happ.contents] at hcontents
    exact (take_flatten_eq_iff fields hshort).mp (List.append_cancel_left hcontents)
  · intro hexact buf₁ n hpack₁ hn
    obtain ⟨rfl, rfl⟩ := Prod.mk.inj (Option.some.inj (hpack₁.symm.trans hpack))
    have hshort := h.length_eq ▸ hn
    rw [happ.contents, (take_flatten_eq_iff fields hshort).mpr (hexact hshort)]

theorem UnpackFields.length_eq {fmt : List UInt8} {args : List UnpackArg} {sizes : List Nat}
    (h : UnpackFields fmt args sizes) : sizes.length = fmt.length := by
  induction h with
  | nil => rfl
  | int _ _ ih | str _ _ ih | skip _ _ _ ih => exact congrArg (· + 1) ih

/-- What a call of the unpack loop did, from the result and the room that was there. -/
structure UnpackFilled (buf : Buffer) (fmt : List UInt8) (sizes : List Nat) (buf' : Buffer)
    (stores : Stores) : Prop where
  pos : buf'.pos = buf.pos + min sizes.sum buf.unread.length
  rest : ∀ store ∈ stores.drop (unpackedFields
      (fmt.take (Filling.count sizes buf.unread.length))), ∃ bytes, store.2 = .str bytes ∧
    bytes.length = buf.unread.length - (sizes.take (Filling.count sizes buf.unread.length)).sum

namespace UnpackFilled

variable {buf buf' : Buffer} {c : UInt8} {fmt : List UInt8} {size : Nat} {sizes : List Nat}
  {stores : Stores}

/-- A field that is there whole; `own` is what it stores. -/
theorem cons (own : Stores) (hown : own.length = if (unpackCode c).isField then 1 else 0)
    (hsize : size ≤ buf.unread.length) (h : UnpackFilled (buf.advance size) fmt sizes buf' stores) :
    UnpackFilled buf (c :: fmt) (size :: sizes) buf' (own ++ stores) := by
  have hleft : (buf.advance size).unread.length = buf.unread.length - size := by
    rw [unread_advance, List.length_drop]
  obtain ⟨hpos, hrest⟩ := h
  rw [hleft] at hpos hrest
  have hcount := Filling.count_cons_of_le hsize sizes
  constructor
  · have hadvance : (buf.advance size).pos = buf.pos + size := rfl
    rw [hpos, hadvance, List.sum_cons]
    omega
  · rw [hcount, List.take_succ_cons, List.take_succ_cons, List.sum_cons, unpackedFields_cons,
      ← hown, Nat.add_comm, List.drop_length_add_append, ← Nat.sub_sub]
    exact hrest

/-- A field that is not there whole; `own` is what it stores of it. -/
theorem stop (hsize : buf.unread.length < size) (hpos : buf'.pos = buf.pos + buf.unread.length)
    (hown : ∀ store ∈ stores, store.2 = .str buf.unread) :
    UnpackFilled buf (c :: fmt) (size :: sizes) buf' stores := by
  have hcount := Filling.count_cons_of_lt hsize sizes
  constructor
  · rw [hpos, List.sum_cons]
    omega
  · rw [hcount]
    exact fun store hstore => ⟨buf.unread, hown store hstore, rfl⟩

end UnpackFilled

theorem bufferRead_short {buf : Buffer} (hwf : buf.WellFormed) {n : Nat}
    (hn : buf.unread.length < n) :
    bufferRead buf n = (buf.advance buf.unread.length, buf.unread) := by
  rw [bufferRead_eq hwf, ← length_unread hwf, Nat.min_eq_right (Nat.le_of_lt hn),
    List.take_of_length_le (Nat.le_of_lt hn), Buffer.advance]

/-- A field is read whole and the rest after it, or the loop stops at the field. -/
theorem unpackLoop_part {buf : Buffer} {c : UInt8} {fmt : List UInt8} {l : Bool} {n size : Nat}
    {args args' : List UnpackArg} {sizes : List Nat} (own cut : Stores)
    (hown : own.length = if (unpackCode c).isField then 1 else 0)
    (hcut : ∀ store ∈ cut, store.2 = .str buf.unread)
    (hshort : buf.unread.length < size →
      unpackLoop (c :: fmt) l n buf args = some (buf.advance buf.unread.length, cut, n))
    (hwhole : size ≤ buf.unread.length → unpackLoop (c :: fmt) l n buf args =
      (unpackLoop fmt l (n + 1) (buf.advance size) args').map fun (buf', stores, n) =>
        (buf', own ++ stores, n))
    (hrest : size ≤ buf.unread.length → ∃ buf' stores,
      unpackLoop fmt l (n + 1) (buf.advance size) args' =
        some (buf', stores, n + 1 + Filling.count sizes (buf.advance size).unread.length) ∧
      UnpackFilled (buf.advance size) fmt sizes buf' stores) :
    ∃ buf' stores, unpackLoop (c :: fmt) l n buf args =
        some (buf', stores, n + Filling.count (size :: sizes) buf.unread.length) ∧
      UnpackFilled buf (c :: fmt) (size :: sizes) buf' stores := by
  rcases Nat.lt_or_ge buf.unread.length size with hlt | hsize
  · refine ⟨buf.advance buf.unread.length, cut, ?_, UnpackFilled.stop hlt rfl hcut⟩
    rw [hshort hlt, Filling.count_cons_of_lt hlt]
    rfl
  · obtain ⟨buf', stores, hloop, hfilled⟩ := hrest hsize
    refine ⟨buf', own ++ stores, ?_, UnpackFilled.cons own hown hsize hfilled⟩
    rw [hwhole hsize, hloop, unread_advance, List.length_drop, Filling.add_count_cons_of_le hsize]
    rfl

/-- The loop counts the fields that are there whole, and reads what is there. -/
theorem unpackLoop_fill {fmt : List UInt8} {args : List UnpackArg} {sizes : List Nat}
    (h : UnpackFields fmt args sizes) (l : Bool) (n : Nat) {buf : Buffer} (hwf : buf.WellFormed) :
    ∃ buf' stores, unpackLoop fmt l n buf args =
        some (buf', stores, n + Filling.count sizes buf.unread.length) ∧
      UnpackFilled buf fmt sizes buf' stores := by
  induction h generalizing l n buf with
  | nil => exact ⟨buf, [], rfl, by simp, List.forall_mem_nil _⟩
  | @skip c fmt args sizes _ hc _ ih =>
    have hskip : ∃ l', unpackLoop (c :: fmt) l n buf args = unpackLoop fmt l' (n + 1) buf args := by
      rw [unpackLoop_cons]
      cases hcode : unpackCode c with
      | little => exact ⟨true, rfl⟩
      | big => exact ⟨false, rfl⟩
      | other => exact ⟨l, rfl⟩
      | field f =>
        rw [hcode] at hc
        cases hc
    obtain ⟨l', hskip⟩ := hskip
    obtain ⟨buf', stores, hloop, hfilled⟩ := ih l' (n + 1) hwf
    refine ⟨buf', stores, ?_, UnpackFilled.cons [] ?_ (Nat.zero_le _) hfilled⟩
    · rw [hskip, hloop, Filling.add_count_zero_cons]
    · rw [hc]
      rfl
  | @int c fmt t dst args sizes hc _ ih =>
    apply unpackLoop_part [(dst, .int t (decode l t (buf.unread.take t.size)))] []
    · rw [hc]
      rfl
    · exact List.forall_mem_nil _
    · intro hshort
      rw [unpackLoop_cons, hc]
      simp only [bufferRead_short hwf hshort, if_pos hshort]
    · exact unpackLoop_int hc hwf
    · exact fun hsize => ih l (n + 1) (bufferRead_full hwf hsize).2
  | @str c fmt dst len args sizes hc _ ih =>
    apply unpackLoop_part [(dst, .str (buf.unread.take len))] [(dst, .str buf.unread)]
    · rw [hc]
      rfl
    · exact fun store hstore => by rw [List.mem_singleton.mp hstore]
    · intro hshort
      rw [unpackLoop_cons, hc]
      simp only [vaPtr, vaLen, Option.bind_some, bufferRead_short hwf hshort, if_pos hshort]
    · exact unpackLoop_str hc hwf
    · exact fun hsize => ih l (n + 1) (bufferRead_full hwf hsize).2

theorem unpackAtomic_iff {buf : Buffer} (hwf : buf.WellFormed) {fmt : List UInt8}
    {args : List UnpackArg} {sizes : List Nat} (h : UnpackFields fmt args sizes) :
    UnpackAtomic buf fmt args sizes ↔ Filling.EndsAtPart sizes (buf.len - buf.pos) := by
  obtain ⟨buf', stores, hunpack, hfilled⟩ := unpackLoop_fill h true 0 hwf
  rw [Nat.zero_add] at hunpack
  rw [← length_unread hwf, ← Filling.exact_iff]
  have hshort : Filling.count sizes buf.unread.length < sizes.length →
      min sizes.sum buf.unread.length = buf.unread.length := by
    intro hlt
    have hsum := Filling.count_eq_length_iff sizes buf.unread.length
    omega
  constructor
  · intro hatomic hlt
    obtain ⟨hpos, _⟩ := hatomic buf' stores _ hunpack (by rw [← h.length_eq]; exact hlt)
    rw [hfilled.pos, hshort hlt] at hpos
    exact (Nat.add_left_cancel hpos).symm
  · intro hexact buf₁ stores₁ n hunpack₁ hn
    obtain ⟨rfl, hrest⟩ := Prod.mk.inj (Option.some.inj (hunpack₁.symm.trans hunpack))
    obtain ⟨rfl, rfl⟩ := Prod.mk.inj hrest
    have hlt := h.length_eq ▸ hn
    have hsum := hexact hlt
    constructor
    · rw [hfilled.pos, hshort hlt, hsum]
    · intro store hstore
      obtain ⟨bytes, hbytes, hlen⟩ := hfilled.rest store hstore
      rw [hsum, Nat.sub_self] at hlen
      rw [hbytes, List.eq_nil_of_length_eq_zero hlen]

/-- A call that stops does so between two fields just when the room, or what is there
to read, ends where a field ends. -/
theorem buffer_fields_atomic_iff {buf : Buffer} (hwf : buf.WellFormed) {fmt : List UInt8}
    {argv : List PackValue} {fields : List (List UInt8)} (hpack : PackFields true fmt argv fields)
    {src : Buffer} (hwf' : src.WellFormed) {fmt' : List UInt8} {args : List UnpackArg}
    {sizes : List Nat} (hunpack : UnpackFields fmt' args sizes) :
    (PackAtomic buf fmt argv fields ↔
        Filling.EndsAtPart (fields.map List.length) (buf.cap - buf.len)) ∧
      (UnpackAtomic src fmt' args sizes ↔ Filling.EndsAtPart sizes (src.len - src.pos)) :=
  ⟨packAtomic_iff hwf hpack, unpackAtomic_iff hwf' hunpack⟩

/-- Three bytes of room, and three bytes to read, end behind the second field. -/
theorem buffer_fields_atomic_full :
    PackAtomic (bufferInit (Block.ofCells (List.replicate 3 0)) 3) ['B', 'W', 'D']
        [.int .u8 1, .int .u16 2, .int .u32 3] [[1], [2, 0], [3, 0, 0, 0]] ∧
      UnpackAtomic ⟨Block.ofCells [1, 2, 0], 3, 0, 3⟩ ['B', 'W', 's']
        [.ptr 0, .ptr 1, .ptr 2, .len 5] [1, 2, 5] := by
  have hpack : PackFields true ['B', 'W', 'D'] [.int .u8 1, .int .u16 2, .int .u32 3]
      [[1], [2, 0], [3, 0, 0, 0]] :=
    .value (v := .int .u8 1) (by decide) (.value (v := .int .u16 2) (by decide)
      (.value (v := .int .u32 3) (by decide) .nil))
  have hunpack : UnpackFields ['B', 'W', 's'] [.ptr 0, .ptr 1, .ptr 2, .len 5] [1, 2, 5] :=
    .int (t := .u8) rfl (.int (t := .u16) rfl (.str rfl .nil))
  have hempty : (bufferInit (Block.ofCells (List.replicate 3 0)) 3).WellFormed :=
    bufferInit_wellFormed (by decide) rfl
  have hwf : (⟨Block.ofCells [1, 2, 0], 3, 0, 3⟩ : Buffer).WellFormed :=
    ⟨by decide, by decide, by decide, rfl, rfl⟩
  obtain ⟨hwrite, hread⟩ :=
    buffer_fields_atomic_iff hempty hpack hwf hunpack
  exact ⟨hwrite.mpr (.inr ⟨2, rfl⟩), hread.mpr (.inr ⟨2, rfl⟩)⟩

/-- One byte of a word of two is written, and one is read. -/
theorem buffer_fields_cut :
    ¬PackAtomic (bufferInit (Block.ofCells [0]) 1) ['W'] [.int .u16 0x1234] [[0x34, 0x12]] ∧
      ¬UnpackAtomic ⟨Block.ofCells [0x34], 1, 0, 1⟩ ['W'] [.ptr 0] [2] := by
  constructor
  · intro h
    exact absurd (h _ 0 rfl (by decide)) (by decide)
  · intro h
    exact absurd (h _ _ 0 rfl (by decide)).1 (by decide)

end Wifimodem
