import Wifimodem.Lib.LittleEndian
import Wifimodem.Util.Buffer

/-!
# Packing and unpacking by format string

`buffer_packv` and `buffer_unpackv` walk a format string, each with its own
table of field codes. The host is little endian, so the bytes of the union both
functions use are the low byte first.
-/

namespace Wifimodem

inductive Scalar where
  | u8 | u16 | u32 | u64 | i8 | i16 | i32 | i64
deriving DecidableEq, Repr

namespace Scalar

def size : Scalar → Nat
  | u8 | i8 => 1
  | u16 | i16 => 2
  | u32 | i32 => 4
  | u64 | i64 => 8

/-- A single byte is stored as it is. -/
def bswap : Scalar → Nat → Nat
  | u8, x | i8, x => x
  | t, x => LittleEndian.swap t.size x

end Scalar

inductive PackValue where
  | int (t : Scalar) (v : BitVec (8 * t.size))
  | str (s : List UInt8)
deriving DecidableEq, Repr

/-- An argument of an unpack: a destination, or the length of a string. -/
inductive UnpackArg where
  | ptr (dst : Nat)
  | len (n : Nat)
deriving DecidableEq, Repr

inductive Field where
  | int (t : Scalar)
  | str
deriving DecidableEq, Repr

inductive Code where
  | little | big
  | field (f : Field)
  | other
deriving DecidableEq, Repr

def packCode (c : UInt8) : Code :=
  if c = '<' then .little
  else if c = '>' then .big
  else if c = 'B' then .field (.int .u8)
  else if c = 'W' then .field (.int .u16)
  else if c = 'D' then .field (.int .u32)
  else if c = 'Q' then .field (.int .u64)
  else if c = 'b' then .field (.int .i8)
  else if c = 'w' then .field (.int .i16)
  else if c = 'd' then .field (.int .i32)
  else if c = 'q' then .field (.int .i64)
  else if c = 's' ∨ c = 'S' then .field .str
  else .other

/-- The table of the unpacker has `L` and `l` for the quad words. -/
def unpackCode (c : UInt8) : Code :=
  if c = '<' then .little
  else if c = '>' then .big
  else if c = 'B' then .field (.int .u8)
  else if c = 'W' then .field (.int .u16)
  else if c = 'D' then .field (.int .u32)
  else if c = 'L' then .field (.int .u64)
  else if c = 'b' then .field (.int .i8)
  else if c = 'w' then .field (.int .i16)
  else if c = 'd' then .field (.int .i32)
  else if c = 'l' then .field (.int .i64)
  else if c = 's' ∨ c = 'S' then .field .str
  else .other

def encode (l : Bool) (t : Scalar) (v : BitVec (8 * t.size)) : List UInt8 :=
  LittleEndian.toBytes t.size (if l then v.toNat else t.bswap v.toNat)

def decode (l : Bool) (t : Scalar) (bytes : List UInt8) : BitVec (8 * t.size) :=
  let x := LittleEndian.ofBytes bytes
  BitVec.ofNat _ (if l then x else t.bswap x)

/-- The bytes a field writes, and the arguments after it. Arguments that do not
match their field have no meaning. -/
def packField : Field → Bool → List PackValue → Option (List UInt8 × List PackValue)
  | .int t, l, .int t' v :: argv => if t' = t then some (encode l t' v, argv) else none
  | .str, _, .str s :: argv => some (cstr s, argv)
  | _, _, _ => none

def packLoop : List UInt8 → Bool → Nat → Buffer → List PackValue → Option (Buffer × Nat)
  | [], _, n, buf, _ => some (buf, n)
  | c :: fmt, l, n, buf, argv =>
    match packCode c with
    | .little => packLoop fmt true (n + 1) buf argv
    | .big => packLoop fmt false (n + 1) buf argv
    | .other => packLoop fmt l (n + 1) buf argv
    | .field f =>
      match packField f l argv with
      | none => none
      | some (src, argv) =>
        let (buf, len) := bufferWrite buf src
        if len < src.length then some (buf, n) else packLoop fmt l (n + 1) buf argv

def bufferPackv (buf : Buffer) (fmt : List UInt8) (argv : List PackValue) :
    Option (Buffer × Nat) := packLoop fmt true 0 buf argv

/-- The stores made through the destinations, in order. -/
abbrev Stores := List (Nat × PackValue)

def vaPtr : List UnpackArg → Option (Nat × List UnpackArg)
  | .ptr dst :: argv => some (dst, argv)
  | _ => none

def vaLen : List UnpackArg → Option (Nat × List UnpackArg)
  | .len n :: argv => some (n, argv)
  | _ => none

def unpackLoop :
    List UInt8 → Bool → Nat → Buffer → List UnpackArg → Option (Buffer × Stores × Nat)
  | [], _, n, buf, _ => some (buf, [], n)
  | c :: fmt, l, n, buf, argv =>
    match unpackCode c with
    | .little => unpackLoop fmt true (n + 1) buf argv
    | .big => unpackLoop fmt false (n + 1) buf argv
    | .other => unpackLoop fmt l (n + 1) buf argv
    | .field (.int t) =>
      let (buf, bytes) := bufferRead buf t.size
      if bytes.length < t.size then some (buf, [], n)
      else
        (vaPtr argv).bind fun (dst, argv) =>
          (unpackLoop fmt l (n + 1) buf argv).map fun (buf, stores, n) =>
            (buf, (dst, .int t (decode l t bytes)) :: stores, n)
    | .field .str =>
      (vaPtr argv).bind fun (dst, argv) =>
        (vaLen argv).bind fun (len, argv) =>
          let (buf, bytes) := bufferRead buf len
          if bytes.length < len then some (buf, [(dst, .str bytes)], n)
          else
            (unpackLoop fmt l (n + 1) buf argv).map fun (buf, stores, n) =>
              (buf, (dst, .str bytes) :: stores, n)

def bufferUnpackv (buf : Buffer) (fmt : List UInt8) (argv : List UnpackArg) :
    Option (Buffer × Stores × Nat) := unpackLoop fmt true 0 buf argv

/-! ## Fields -/

theorem length_encode (l : Bool) (t : Scalar) (v : BitVec (8 * t.size)) :
    (encode l t v).length = t.size := LittleEndian.length_toBytes _ _

theorem mod_width (t : Scalar) {x : Nat} (hx : x < 2 ^ (8 * t.size)) : x % 256 ^ t.size = x := by
  rw [pow_mul] at hx
  exact Nat.mod_eq_of_lt hx

theorem bswap_eq_swap (t : Scalar) {x : Nat} (hx : x < 2 ^ (8 * t.size)) :
    t.bswap x = LittleEndian.swap t.size x := by
  have hbyte : x < 2 ^ 8 → LittleEndian.swap 1 x = x := by
    intro h
    simp only [LittleEndian.swap, LittleEndian.toBytes, List.reverse_singleton,
      LittleEndian.ofBytes, UInt8.toNat_ofNat']
    omega
  cases t with
  | u8 | i8 => exact (hbyte hx).symm
  | _ => rfl

theorem decode_encode (l : Bool) (t : Scalar) (v : BitVec (8 * t.size)) :
    decode l t (encode l t v) = v := by
  have hv := mod_width t v.isLt
  cases l with
  | true => simp [decode, encode, LittleEndian.ofBytes_toBytes, hv]
  | false =>
    have hlt : LittleEndian.swap t.size v.toNat < 2 ^ (8 * t.size) := by
      rw [pow_mul]
      exact LittleEndian.swap_lt t.size v.toNat
    simp only [decode, encode, Bool.false_eq_true, if_false]
    rw [bswap_eq_swap t v.isLt, LittleEndian.ofBytes_toBytes, mod_width t hlt,
      bswap_eq_swap t hlt, LittleEndian.swap_swap, hv, BitVec.ofNat_toNat, BitVec.setWidth_eq]

/-! ## Formats and their arguments -/

inductive Matches : List UInt8 → List PackValue → Prop where
  | nil : Matches [] []
  | endian {c : UInt8} {fmt : List UInt8} {argv : List PackValue} :
      packCode c = .little ∨ packCode c = .big → Matches fmt argv → Matches (c :: fmt) argv
  | int {c : UInt8} {fmt : List UInt8} {argv : List PackValue} {t : Scalar}
      (v : BitVec (8 * t.size)) :
      packCode c = .field (.int t) → Matches fmt argv → Matches (c :: fmt) (.int t v :: argv)
  | str {c : UInt8} {fmt : List UInt8} {argv : List PackValue} (s : List UInt8) :
      packCode c = .field .str → Matches fmt argv → Matches (c :: fmt) (.str s :: argv)

def fieldBytes : Bool → List UInt8 → List PackValue → List UInt8
  | _, [], _ => []
  | l, c :: fmt, argv =>
    match packCode c with
    | .little => fieldBytes true fmt argv
    | .big => fieldBytes false fmt argv
    | .other => fieldBytes l fmt argv
    | .field f =>
      match packField f l argv with
      | some (src, argv) => src ++ fieldBytes l fmt argv
      | none => []

def PackValue.size : PackValue → Nat
  | int t _ => t.size
  | str s => (cstr s).length

def packedSize : List PackValue → Nat
  | [] => 0
  | v :: argv => v.size + packedSize argv

/-- What a field stores back: a string comes back without its terminator. -/
def PackValue.stored : PackValue → PackValue
  | int t v => int t v
  | str s => str (cstr s)

/-- One destination for each value, and for a string its packed length. -/
def unpackArgs : List PackValue → List Nat → List UnpackArg
  | .int _ _ :: argv, dst :: dsts => .ptr dst :: unpackArgs argv dsts
  | .str s :: argv, dst :: dsts => .ptr dst :: .len (cstr s).length :: unpackArgs argv dsts
  | _, _ => []

def storesBack (argv : List PackValue) (dsts : List Nat) : Stores :=
  dsts.zip (argv.map PackValue.stored)

/-- Once the bytes that were waiting before are read, unpacking stores back what
was packed and leaves none of the packed bytes, from the old to the new write
cursor, unread. -/
def RoundTrips (buf : Buffer) (fmt : List UInt8) (argv : List PackValue) (dsts : List Nat) :
    Prop :=
  ∃ buf' n, bufferPackv buf fmt argv = some (buf', n) ∧
    ∃ buf'' n', bufferUnpackv (bufferRead buf' buf.unread.length).1 fmt (unpackArgs argv dsts) =
        some (buf'', storesBack argv dsts, n') ∧
      ∀ i, buf.len ≤ i → i < buf'.len → i < buf''.pos

/-- A code for the byte order writes nothing. -/
theorem fieldBytes_endian {c : UInt8} (hc : packCode c = .little ∨ packCode c = .big) (l : Bool)
    (fmt : List UInt8) (argv : List PackValue) :
    fieldBytes l (c :: fmt) argv = fieldBytes (packCode c = .little) fmt argv := by
  rcases hc with hc | hc
  · rw [fieldBytes, hc]
    rfl
  · rw [fieldBytes, hc]
    rfl

theorem fieldBytes_field {f : Field} {c : UInt8} {l : Bool} {argv argv' : List PackValue}
    {src : List UInt8} (hc : packCode c = .field f)
    (hfield : packField f l argv = some (src, argv')) (fmt : List UInt8) :
    fieldBytes l (c :: fmt) argv = src ++ fieldBytes l fmt argv' := by
  rw [fieldBytes, hc]
  simp only [hfield]

theorem packField_int (t : Scalar) (v : BitVec (8 * t.size)) (l : Bool) (argv : List PackValue) :
    packField (.int t) l (.int t v :: argv) = some (encode l t v, argv) := if_pos rfl

theorem packField_str (s : List UInt8) (l : Bool) (argv : List PackValue) :
    packField .str l (.str s :: argv) = some (cstr s, argv) := rfl

theorem length_fieldBytes {fmt : List UInt8} {argv : List PackValue} (h : Matches fmt argv)
    (l : Bool) : (fieldBytes l fmt argv).length = packedSize argv := by
  induction h generalizing l with
  | nil => rfl
  | endian hc _ ih => rw [fieldBytes_endian hc, ih]
  | int v hc _ ih =>
    rw [fieldBytes_field hc (packField_int _ v l _), List.length_append, length_encode, ih]
    rfl
  | str s hc _ ih =>
    rw [fieldBytes_field hc (packField_str s l _), List.length_append, ih]
    rfl

/-! ## Packing -/

/-- `buf'` is `buf` with `w` written at its end. -/
structure Appended (buf : Buffer) (w : List UInt8) (buf' : Buffer) : Prop where
  wellFormed : buf'.WellFormed
  contents : buf'.contents = buf.contents ++ w
  pos : buf'.pos = buf.pos
  cap : buf'.cap = buf.cap
  len : buf'.len = buf.len + w.length

namespace Appended

variable {buf buf' buf'' : Buffer} {w w' : List UInt8}

theorem refl (hwf : buf.WellFormed) : Appended buf [] buf :=
  ⟨hwf, (List.append_nil _).symm, rfl, rfl, rfl⟩

theorem trans (h : Appended buf w buf') (h' : Appended buf' w' buf'') :
    Appended buf (w ++ w') buf'' := by
  refine ⟨h'.wellFormed, ?_, h'.pos.trans h.pos, h'.cap.trans h.cap, ?_⟩
  · rw [h'.contents, h.contents, List.append_assoc]
  · rw [h'.len, h.len, List.length_append, Nat.add_assoc]

/-- What is offered is written up to the end of the storage. -/
theorem write_take (hwf : buf.WellFormed) (src : List UInt8) :
    (bufferWrite buf src).2 = min src.length (buf.cap - buf.len) ∧
      Appended buf (src.take (buf.cap - buf.len)) (bufferWrite buf src).1 := by
  have hcontents := bufferWrite_contents hwf src
  have hwf' := bufferWrite_wellFormed hwf src
  have htake : src.take (buf.accepts src) = src.take (buf.cap - buf.len) := by
    rw [Buffer.accepts, Nat.min_comm, ← List.take_eq_take_min]
  rw [htake] at hcontents
  refine ⟨by rw [bufferWrite_eq hwf, Buffer.accepts], hwf', hcontents, ?_, ?_, ?_⟩
  · rw [bufferWrite_eq hwf]
  · rw [bufferWrite_eq hwf]
  · rw [bufferWrite_eq hwf, Buffer.accepts, List.length_take, Nat.min_comm]

theorem write (hwf : buf.WellFormed) (hroom : w.length ≤ buf.cap - buf.len) :
    (bufferWrite buf w).2 = w.length ∧ Appended buf w (bufferWrite buf w).1 := by
  obtain ⟨hlen, happ⟩ := write_take hwf w
  rw [Nat.min_eq_left hroom] at hlen
  rw [List.take_of_length_le hroom] at happ
  exact ⟨hlen, happ⟩

theorem unread (h : Appended buf w buf') (hwf : buf.WellFormed) :
    buf'.unread = buf.unread ++ w := by
  have hpos : buf.pos ≤ buf.contents.length := by
    rw [hwf.length_contents]
    exact hwf.pos_le
  rw [Buffer.unread, h.contents, h.pos, List.drop_append_of_le_length hpos, Buffer.unread]

end Appended

theorem count_cons (n : Nat) (c : UInt8) (fmt : List UInt8) :
    n + (c :: fmt).length = n + 1 + fmt.length := by
  rw [List.length_cons]
  omega

/-- A field that fits is appended, and the rest of the format after it. -/
theorem packLoop_field {f : Field} {c : UInt8} {fmt : List UInt8} {l : Bool} {n : Nat}
    {buf : Buffer} {argv argv' : List PackValue} {src : List UInt8}
    (hc : packCode c = .field f) (hfield : packField f l argv = some (src, argv'))
    (hwf : buf.WellFormed) (hroom : src.length + packedSize argv' ≤ buf.cap - buf.len)
    (hrest : ∀ {buf : Buffer}, buf.WellFormed → packedSize argv' ≤ buf.cap - buf.len →
      ∃ buf', packLoop fmt l (n + 1) buf argv' = some (buf', n + 1 + fmt.length) ∧
        Appended buf (fieldBytes l fmt argv') buf') :
    ∃ buf', packLoop (c :: fmt) l n buf argv = some (buf', n + (c :: fmt).length) ∧
      Appended buf (fieldBytes l (c :: fmt) argv) buf' := by
  obtain ⟨hlen, happ⟩ := Appended.write hwf (Nat.le_trans (Nat.le_add_right _ _) hroom)
  have hshort : ¬(bufferWrite buf src).2 < src.length := by omega
  obtain ⟨buf', hpack, happ'⟩ := hrest happ.wellFormed (by
    rw [happ.cap, happ.len]
    omega)
  refine ⟨buf', ?_, ?_⟩
  · rw [packLoop, hc, count_cons]
    simp only [hfield, if_neg hshort]
    exact hpack
  · rw [fieldBytes_field hc hfield]
    exact happ.trans happ'

theorem packLoop_endian {c : UInt8} (hc : packCode c = .little ∨ packCode c = .big) (l : Bool)
    (n : Nat) (fmt : List UInt8) (buf : Buffer) (argv : List PackValue) :
    packLoop (c :: fmt) l n buf argv =
      packLoop fmt (packCode c = .little) (n + 1) buf argv := by
  rcases hc with hc | hc
  · rw [packLoop, hc]
    rfl
  · rw [packLoop, hc]
    rfl

theorem packLoop_eq {fmt : List UInt8} {argv : List PackValue} (h : Matches fmt argv) (l : Bool)
    (n : Nat) {buf : Buffer} (hwf : buf.WellFormed)
    (hroom : packedSize argv ≤ buf.cap - buf.len) :
    ∃ buf', packLoop fmt l n buf argv = some (buf', n + fmt.length) ∧
      Appended buf (fieldBytes l fmt argv) buf' := by
  induction h generalizing l n buf with
  | nil => exact ⟨buf, rfl, Appended.refl hwf⟩
  | @endian c fmt argv hc _ ih =>
    rw [packLoop_endian hc, fieldBytes_endian hc, count_cons]
    exact ih _ (n + 1) hwf hroom
  | @int c fmt argv t v hc _ ih =>
    apply packLoop_field hc (packField_int t v l argv) hwf
    · rw [length_encode]
      exact hroom
    · exact ih l (n + 1)
  | @str c fmt argv s hc _ ih =>
    apply packLoop_field hc (packField_str s l argv) hwf
    · exact hroom
    · exact ih l (n + 1)

/-! ## Unpacking -/

theorem unpackLoop_cons (c : UInt8) (fmt : List UInt8) (l : Bool) (n : Nat) (buf : Buffer)
    (argv : List UnpackArg) :
    unpackLoop (c :: fmt) l n buf argv =
      match unpackCode c with
      | .little => unpackLoop fmt true (n + 1) buf argv
      | .big => unpackLoop fmt false (n + 1) buf argv
      | .other => unpackLoop fmt l (n + 1) buf argv
      | .field (.int t) =>
        let (buf, bytes) := bufferRead buf t.size
        if bytes.length < t.size then some (buf, [], n)
        else
          (vaPtr argv).bind fun (dst, argv) =>
            (unpackLoop fmt l (n + 1) buf argv).map fun (buf, stores, n) =>
              (buf, (dst, .int t (decode l t bytes)) :: stores, n)
      | .field .str =>
        (vaPtr argv).bind fun (dst, argv) =>
          (vaLen argv).bind fun (len, argv) =>
            let (buf, bytes) := bufferRead buf len
            if bytes.length < len then some (buf, [(dst, .str bytes)], n)
            else
              (unpackLoop fmt l (n + 1) buf argv).map fun (buf, stores, n) =>
                (buf, (dst, .str bytes) :: stores, n) := rfl

def Buffer.advance (buf : Buffer) (n : Nat) : Buffer := { buf with pos := buf.pos + n }

theorem unread_advance (buf : Buffer) (n : Nat) :
    (buf.advance n).unread = buf.unread.drop n := by
  simp only [Buffer.unread, Buffer.advance, Buffer.contents, List.drop_drop]

theorem bufferRead_full {buf : Buffer} (hwf : buf.WellFormed) {n : Nat}
    (hn : n ≤ buf.unread.length) :
    bufferRead buf n = (buf.advance n, buf.unread.take n) ∧ (buf.advance n).WellFormed := by
  have hread := bufferRead_eq hwf n
  have hwf' := bufferRead_wellFormed hwf n
  rw [length_unread hwf] at hn
  rw [hread, Nat.min_eq_left hn] at hwf'
  rw [Nat.min_eq_left hn] at hread
  exact ⟨hread, hwf'⟩

/-- A quad word, which the unpacker does not know under this code. -/
def Quad (c : UInt8) : Prop := c = 'Q' ∨ c = 'q'

theorem unpackCode_of_quad {c : UInt8} (h : Quad c) : unpackCode c = .other := by
  rcases h with rfl | rfl <;> decide

theorem unpackCode_eq {c : UInt8} (hquad : ¬Quad c) (hc : packCode c ≠ .other) :
    unpackCode c = packCode c := by
  have hQ : c ≠ 'Q' := fun h => hquad (.inl h)
  have hq : c ≠ 'q' := fun h => hquad (.inr h)
  have hL : c ≠ 'L' := by
    rintro rfl
    apply hc
    decide
  have hl : c ≠ 'l' := by
    rintro rfl
    apply hc
    decide
  simp only [packCode, unpackCode, if_neg hQ, if_neg hq, if_neg hL, if_neg hl]

theorem not_quad_of_endian {c : UInt8} (hc : packCode c = .little ∨ packCode c = .big) :
    ¬Quad c := by
  rintro (rfl | rfl) <;> exact absurd hc (by decide)

theorem unpackCode_endian {c : UInt8} (hc : packCode c = .little ∨ packCode c = .big) :
    unpackCode c = packCode c := by
  apply unpackCode_eq (not_quad_of_endian hc)
  rcases hc with hc | hc <;> simp [hc]

theorem unpackLoop_endian {c : UInt8} (hc : packCode c = .little ∨ packCode c = .big) (l : Bool)
    (n : Nat) (fmt : List UInt8) (buf : Buffer) (args : List UnpackArg) :
    unpackLoop (c :: fmt) l n buf args =
      unpackLoop fmt (packCode c = .little) (n + 1) buf args := by
  rw [unpackLoop_cons, unpackCode_endian hc]
  rcases hc with hc | hc
  · rw [hc]
    rfl
  · rw [hc]
    rfl

section
variable {c : UInt8} {fmt : List UInt8} {l : Bool} {n : Nat} {buf : Buffer}
  {args : List UnpackArg} {dst : Nat}

theorem unpackLoop_int {t : Scalar} (hc : unpackCode c = .field (.int t)) (hwf : buf.WellFormed)
    (hsize : t.size ≤ buf.unread.length) :
    unpackLoop (c :: fmt) l n buf (.ptr dst :: args) =
      (unpackLoop fmt l (n + 1) (buf.advance t.size) args).map fun (buf', stores, n) =>
        (buf', (dst, .int t (decode l t (buf.unread.take t.size))) :: stores, n) := by
  have hlong : ¬(buf.unread.take t.size).length < t.size := by
    rw [List.length_take]
    omega
  rw [unpackLoop_cons, hc]
  simp only [(bufferRead_full hwf hsize).1, if_neg hlong, vaPtr, Option.bind_some]

theorem unpackLoop_str {len : Nat} (hc : unpackCode c = .field .str) (hwf : buf.WellFormed)
    (hsize : len ≤ buf.unread.length) :
    unpackLoop (c :: fmt) l n buf (.ptr dst :: .len len :: args) =
      (unpackLoop fmt l (n + 1) (buf.advance len) args).map fun (buf', stores, n) =>
        (buf', (dst, .str (buf.unread.take len)) :: stores, n) := by
  have hlong : ¬(buf.unread.take len).length < len := by
    rw [List.length_take]
    omega
  rw [unpackLoop_cons, hc]
  simp only [(bufferRead_full hwf hsize).1, if_neg hlong, vaPtr, vaLen, Option.bind_some]

end

theorem stored_append {w w' rest unread : List UInt8} {n : Nat} (hn : w.length = n)
    (h : unread = w ++ w' ++ rest) : unread.take n = w ∧ unread.drop n = w' ++ rest := by
  subst hn
  rw [h, List.append_assoc]
  exact ⟨List.take_left, List.drop_left⟩

/-- A field is read, and the rest of the format after it; `got` is what the field
stores. -/
theorem unpackLoop_field {c : UInt8} {fmt : List UInt8} {l : Bool} {n dst : Nat} {buf : Buffer}
    {v got : PackValue} {argv : List PackValue} {dsts : List Nat}
    (hstep : unpackLoop (c :: fmt) l n buf (unpackArgs (v :: argv) (dst :: dsts)) =
      (unpackLoop fmt l (n + 1) (buf.advance v.size) (unpackArgs argv dsts)).map
        fun (buf', stores, n) => (buf', (dst, got) :: stores, n))
    (hbytes : ∀ rest, buf.unread = fieldBytes l (c :: fmt) (v :: argv) ++ rest →
      got = v.stored ∧ buf.unread.drop v.size = fieldBytes l fmt argv ++ rest)
    (hrest : ∃ stores, unpackLoop fmt l (n + 1) (buf.advance v.size) (unpackArgs argv dsts) =
        some ((buf.advance v.size).advance (packedSize argv), stores, n + 1 + fmt.length) ∧
      ∀ rest, (buf.advance v.size).unread = fieldBytes l fmt argv ++ rest →
        stores = storesBack argv dsts) :
    ∃ stores, unpackLoop (c :: fmt) l n buf (unpackArgs (v :: argv) (dst :: dsts)) =
        some (buf.advance (packedSize (v :: argv)), stores, n + (c :: fmt).length) ∧
      ∀ rest, buf.unread = fieldBytes l (c :: fmt) (v :: argv) ++ rest →
        stores = storesBack (v :: argv) (dst :: dsts) := by
  obtain ⟨stores, hloop, hstores⟩ := hrest
  refine ⟨(dst, got) :: stores, ?_, ?_⟩
  · rw [hstep, hloop, count_cons, packedSize]
    simp only [Buffer.advance, Option.map_some, Nat.add_assoc]
  · intro rest hunread
    obtain ⟨hgot, htail⟩ := hbytes rest hunread
    rw [hgot, hstores rest (by rw [unread_advance, htail])]
    rfl

/-- The first value is there, and the others behind it. -/
theorem packedSize_cons_le {buf : Buffer} {v : PackValue} {argv : List PackValue}
    (h : packedSize (v :: argv) ≤ buf.unread.length) :
    v.size ≤ buf.unread.length ∧ packedSize argv ≤ (buf.advance v.size).unread.length := by
  rw [packedSize] at h
  rw [unread_advance, List.length_drop]
  omega

theorem unpackLoop_eq {fmt : List UInt8} {argv : List PackValue} (h : Matches fmt argv)
    (hquad : ∀ c ∈ fmt, ¬Quad c) (l : Bool) (n : Nat) {buf : Buffer} (hwf : buf.WellFormed)
    {dsts : List Nat} (hdsts : dsts.length = argv.length)
    (hsize : packedSize argv ≤ buf.unread.length) :
    ∃ stores, unpackLoop fmt l n buf (unpackArgs argv dsts) =
        some (buf.advance (packedSize argv), stores, n + fmt.length) ∧
      ∀ rest, buf.unread = fieldBytes l fmt argv ++ rest → stores = storesBack argv dsts := by
  induction h generalizing l n buf dsts with
  | nil =>
    rw [List.length_nil, List.length_eq_zero_iff] at hdsts
    subst hdsts
    exact ⟨[], rfl, fun _ _ => rfl⟩
  | @endian c fmt argv hc _ ih =>
    rw [unpackLoop_endian hc, fieldBytes_endian hc, count_cons]
    exact ih (List.forall_mem_cons.mp hquad).2 _ (n + 1) hwf hdsts hsize
  | @int c fmt argv t v hc _ ih =>
    obtain ⟨hhead, hquad⟩ := List.forall_mem_cons.mp hquad
    have hcode := unpackCode_eq hhead (by simp [hc])
    obtain ⟨dst, dsts, rfl⟩ := List.exists_cons_of_length_eq_add_one hdsts
    obtain ⟨ht, hrest⟩ := packedSize_cons_le hsize
    apply unpackLoop_field (unpackLoop_int (hcode.trans hc) hwf ht)
    · intro rest hbytes
      rw [fieldBytes_field hc (packField_int t v l argv)] at hbytes
      obtain ⟨hhead, htail⟩ := stored_append (length_encode l t v) hbytes
      rw [hhead, decode_encode]
      exact ⟨rfl, htail⟩
    · exact ih hquad l (n + 1) (bufferRead_full hwf ht).2 (Nat.succ.inj hdsts) hrest
  | @str c fmt argv s hc _ ih =>
    obtain ⟨hhead, hquad⟩ := List.forall_mem_cons.mp hquad
    have hcode := unpackCode_eq hhead (by simp [hc])
    obtain ⟨dst, dsts, rfl⟩ := List.exists_cons_of_length_eq_add_one hdsts
    obtain ⟨ht, hrest⟩ := packedSize_cons_le hsize
    apply unpackLoop_field (unpackLoop_str (hcode.trans hc) hwf ht)
    · intro rest hbytes
      rw [fieldBytes_field hc (packField_str s l argv)] at hbytes
      obtain ⟨hhead, htail⟩ := stored_append rfl hbytes
      exact ⟨congrArg PackValue.str hhead, htail⟩
    · exact ih hquad l (n + 1) (bufferRead_full hwf ht).2 (Nat.succ.inj hdsts) hrest

def Code.isField : Code → Bool
  | field _ => true
  | _ => false

def unpackedFields (fmt : List UInt8) : Nat := fmt.countP fun c => (unpackCode c).isField

theorem unpackedFields_cons (c : UInt8) (fmt : List UInt8) :
    unpackedFields (c :: fmt) = unpackedFields fmt + if (unpackCode c).isField then 1 else 0 :=
  List.countP_cons

theorem length_stores_le (fmt : List UInt8) : ∀ {l : Bool} {n n' : Nat} {buf buf' : Buffer}
    {args : List UnpackArg} {stores : Stores},
    unpackLoop fmt l n buf args = some (buf', stores, n') →
      stores.length ≤ unpackedFields fmt := by
  induction fmt with
  | nil =>
    intro l n n' buf buf' args stores h
    obtain ⟨_, rfl, _⟩ : buf = buf' ∧ [] = stores ∧ n = n' := by simpa [unpackLoop] using h
    exact Nat.le_refl _
  | cons c fmt ih =>
    intro l n n' buf buf' args stores h
    have hcons : ∀ {buf args dst v},
        (unpackLoop fmt l (n + 1) buf args).map
            (fun (buf', stores, n) => (buf', (dst, v) :: stores, n)) = some (buf', stores, n') →
          stores.length ≤ unpackedFields fmt + 1 := by
      intro buf args dst v hmap
      obtain ⟨⟨_, stores', _⟩, hloop, hstores⟩ := Option.map_eq_some_iff.mp hmap
      obtain ⟨_, rfl, _⟩ := hstores
      exact Nat.succ_le_succ (ih hloop)
    rw [unpackedFields_cons]
    rw [unpackLoop_cons] at h
    cases hc : unpackCode c with
    | little | big | other =>
      rw [hc] at h
      exact ih h
    | field f =>
      rw [hc] at h
      cases f with
      | int t =>
        simp only at h
        split at h
        · obtain ⟨_, rfl, _⟩ := h
          exact Nat.zero_le _
        · obtain ⟨⟨dst, args'⟩, _, hloop⟩ := Option.bind_eq_some_iff.mp h
          exact hcons hloop
      | str =>
        obtain ⟨⟨dst, args'⟩, _, h⟩ := Option.bind_eq_some_iff.mp h
        obtain ⟨⟨len, args''⟩, _, h⟩ := Option.bind_eq_some_iff.mp h
        simp only at h
        split at h
        · obtain ⟨_, rfl, _⟩ := h
          exact Nat.le_add_left 1 _
        · exact hcons h

theorem unpackedFields_le {fmt : List UInt8} {argv : List PackValue} (h : Matches fmt argv) :
    unpackedFields fmt ≤ argv.length ∧
      ((∃ c ∈ fmt, Quad c) → unpackedFields fmt < argv.length) := by
  have hfield : ∀ {c fmt} {v : PackValue} {argv : List PackValue},
      (unpackedFields fmt ≤ argv.length ∧
        ((∃ c ∈ fmt, Quad c) → unpackedFields fmt < argv.length)) →
      unpackedFields (c :: fmt) ≤ (v :: argv).length ∧
        ((∃ x ∈ c :: fmt, Quad x) → unpackedFields (c :: fmt) < (v :: argv).length) := by
    rintro c fmt v argv ⟨hle, hlt⟩
    rw [unpackedFields_cons, List.length_cons]
    constructor
    · split <;> omega
    · rintro ⟨x, hx, hquad⟩
      rcases List.mem_cons.mp hx with rfl | hx
      · have hother : (unpackCode x).isField = false := by
          rw [unpackCode_of_quad hquad]
          rfl
        rw [hother, if_neg (by decide)]
        omega
      · have := hlt ⟨x, hx, hquad⟩
        split <;> omega
  induction h with
  | nil => exact ⟨Nat.le_refl _, fun ⟨c, hc, _⟩ => absurd hc List.not_mem_nil⟩
  | @endian c fmt argv hc _ ih =>
    have hcode : (unpackCode c).isField = false := by
      rw [unpackCode_endian hc]
      rcases hc with hc | hc <;> rw [hc] <;> rfl
    rw [unpackedFields_cons, hcode, if_neg (by decide), Nat.add_zero]
    constructor
    · exact ih.1
    · rintro ⟨x, hx, hquad⟩
      rcases List.mem_cons.mp hx with rfl | hx
      · exact absurd hquad (not_quad_of_endian hc)
      · exact ih.2 ⟨x, hx, hquad⟩
  | int _ _ _ ih => exact hfield ih
  | str _ _ _ ih => exact hfield ih

/-! ## The round trip -/

/-- Unpacking with the format that packed the values gives them back exactly
when no field is a quad word. -/
theorem pack_unpack_iff {buf : Buffer} (hwf : buf.WellFormed) {fmt : List UInt8}
    {argv : List PackValue} (hargs : Matches fmt argv)
    (hroom : packedSize argv ≤ buf.cap - buf.len) {dsts : List Nat}
    (hdsts : dsts.length = argv.length) :
    RoundTrips buf fmt argv dsts ↔ ∀ c ∈ fmt, c ≠ 'Q' ∧ c ≠ 'q' := by
  obtain ⟨buf', hpack, happ⟩ := packLoop_eq hargs true 0 hwf hroom
  have hpacked : ∀ {buf₁ n}, bufferPackv buf fmt argv = some (buf₁, n) → buf₁ = buf' := by
    intro buf₁ n h
    have := h.symm.trans hpack
    simp only [Option.some.injEq, Prod.mk.injEq] at this
    exact this.1
  have hlen : (fieldBytes true fmt argv).length = packedSize argv := length_fieldBytes hargs true
  have hwaiting := length_unread hwf
  have hunread := happ.unread hwf
  obtain ⟨hread, hwf₁⟩ := bufferRead_full happ.wellFormed (n := buf.unread.length) (by
    rw [hunread, List.length_append]
    omega)
  have hfields : (buf'.advance buf.unread.length).unread = fieldBytes true fmt argv := by
    rw [unread_advance, hunread, List.drop_left]
  have hquads : (∀ c ∈ fmt, c ≠ 'Q' ∧ c ≠ 'q') ↔ ∀ c ∈ fmt, ¬Quad c :=
    forall₂_congr fun c _ => not_or.symm
  rw [hquads]
  constructor
  · rintro ⟨buf₁, n, hpack₁, buf₂, n', hunpack, _⟩ c hc hquad
    -- a format with a quad word stores fewer values than there are destinations
    have hback : (storesBack argv dsts).length = argv.length := by
      rw [storesBack, List.length_zip, List.length_map, hdsts, Nat.min_self]
    have hle := length_stores_le fmt hunpack
    have hlt := (unpackedFields_le hargs).2 ⟨c, hc, hquad⟩
    omega
  · intro hquad
    obtain ⟨stores, hloop, hstores⟩ :=
      unpackLoop_eq hargs hquad true 0 hwf₁ hdsts (by rw [hfields, hlen])
    obtain rfl := hstores [] (by rw [hfields, List.append_nil])
    refine ⟨buf', _, hpack, _, _, by rw [hread]; exact hloop, ?_⟩
    intro i _ hi
    rw [happ.len, hlen] at hi
    have hpos : ((buf'.advance buf.unread.length).advance (packedSize argv)).pos =
        buf'.pos + buf.unread.length + packedSize argv := rfl
    have hpos' := happ.pos
    have hle := hwf.pos_le
    omega

theorem pack_unpack_mixed :
    RoundTrips (bufferInit (Block.ofCells (List.replicate 8 0)) 8) ['B', '>', 'w', 's']
      [.int .u8 200, .int .i16 (-2), .str ['o', 'k', 0]] [0, 1, 2] :=
  (pack_unpack_iff (bufferInit_wellFormed (by decide) rfl)
    (.int 200 rfl (.endian (.inr rfl) (.int (-2) rfl (.str _ rfl .nil)))) (by decide) rfl).mpr
    (by simp)

theorem pack_unpack_quad :
    Matches ['Q'] [.int .u64 1] ∧
      ¬RoundTrips (bufferInit (Block.ofCells (List.replicate 8 0)) 8) ['Q'] [.int .u64 1] [0] := by
  constructor
  · exact .int 1 rfl .nil
  · rintro ⟨buf', n, hpack, buf'', n', hunpack, _⟩
    have hpacked : bufferPackv (bufferInit (Block.ofCells (List.replicate 8 0)) 8) ['Q']
        [.int .u64 1] = some (⟨Block.ofCells [1, 0, 0, 0, 0, 0, 0, 0], 8, 0, 8⟩, 1) := by decide
    obtain ⟨rfl, rfl⟩ := Prod.mk.inj (Option.some.inj (hpack.symm.trans hpacked))
    have hcount := congrArg (Option.map fun r => r.2.1.length) hunpack
    have hone : (storesBack [PackValue.int .u64 1] [0]).length = 1 := rfl
    rw [Option.map_some, hone] at hcount
    exact absurd hcount (by decide)

end Wifimodem
