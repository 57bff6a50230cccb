import Wifimodem.Core.StrNumber
import Wifimodem.Util.Net

/-!
# Reading addresses back

`ipv4_parse` and `mac_parse` are one loop, over four decimal or six hexadecimal
parts with dots between them.
-/

namespace Wifimodem

def strReadu8 (s : List UInt8) (r : Nat) : List UInt8 × Option Nat :=
  match strReadu64 s r with
  | (s, x, valid) => (s, if valid then if x > 0xFF then none else some x else none)

/-- The rest, the number that is returned, and the parts in `addr` so far. -/
def addrParse (radix : Nat) : Nat → List Nat → List UInt8 → List UInt8 × Int × List Nat
  | 0, addr, s => (s, addr.length, addr)
  | more + 1, addr, s =>
    let (s, dot) := if addr.length ≠ 0 then strAccept s ['.'] else (s, true)
    if dot then
      match strReadu8 s radix with
      | (s, none) => (s, -1, addr)
      | (s, some part) => addrParse radix more (addr ++ [part]) s
    else (s, addr.length, addr)

def ipv4Parse (s : List UInt8) : List UInt8 × Int × List Nat := addrParse 0 4 [] s

def macParse (s : List UInt8) : List UInt8 × Int × List Nat := addrParse 16 6 [] s

/-- `mkdword4(hi, mh, ml, lo)`. -/
def mkdword4 (hi mh ml lo : Nat) : Nat :=
  (hi &&& 255) <<< 24 ||| (mh &&& 255) <<< 16 ||| (ml &&& 255) <<< 8 ||| (lo &&& 255) <<< 0

/-- The bytes under the `str` that a formatter returns. -/
def formatted (value : Nat × List UInt8) : List UInt8 := value.2.take value.1

/-- The octets, the most significant one first. -/
def octets (addr : Nat) : List Nat :=
  [addrByte addr 3, addrByte addr 2, addrByte addr 1, addrByte addr 0]

/-! ## One part after another -/

def behindDots (print : Nat → List UInt8) (parts : List Nat) : List UInt8 :=
  parts.flatMap fun n => ('.' : UInt8) :: print n

theorem behindDots_cons (print : Nat → List UInt8) (n : Nat) (parts : List Nat) :
    behindDots print (n :: parts) = ('.' : UInt8) :: print n ++ behindDots print parts :=
  List.flatMap_cons

theorem strReadu8_numeral {r n : Nat} (hr : r ≤ 36) (hn : n < 256) {ds tail : List UInt8}
    (hds : IsNumeral (radixOf r) n ds) (htail : ∀ c ∈ tail.head?, digitIn (radixOf r) c = false) :
    strReadu8 (ds ++ tail) r = (tail, some n) := by
  obtain ⟨htake, hdrop⟩ := IntReader.digits_append hds.digits htail
  have hread := strReadu64_eq (ds ++ tail) hr
  rw [← radixOf, htake, hdrop, hds.value, Nat.mod_eq_of_lt (by omega)] at hread
  have hvalid : ds.isEmpty = false := List.isEmpty_eq_false_iff.mpr hds.ne_nil
  rw [strReadu8, hread, hvalid]
  simp only [Bool.not_false, if_true]
  rw [if_neg (by omega)]

section
variable {radix : Nat} (hradix : radix ≤ 36) {tail : List UInt8}
  (htail : ∀ c ∈ tail.head?, digitIn (radixOf radix) c = false)

include hradix htail

theorem addrParse_part {n : Nat} (hn : n < 256) {ds : List UInt8}
    (hds : IsNumeral (radixOf radix) n ds) (more : Nat) {addr : List Nat} (haddr : addr ≠ []) :
    addrParse radix (more + 1) addr (('.' : UInt8) :: ds ++ tail) =
      addrParse radix more (addr ++ [n]) tail := by
  have hdot : strAccept (('.' : UInt8) :: ds ++ tail) ['.'] = (ds ++ tail, true) :=
    strAccept_append (by decide) (ds ++ tail)
  have hlength : addr.length ≠ 0 := fun h => haddr (List.length_eq_zero_iff.mp h)
  rw [addrParse]
  simp only [if_pos hlength, hdot, if_true, strReadu8_numeral hradix hn hds htail]

theorem addrParse_first {n : Nat} (hn : n < 256) {ds : List UInt8}
    (hds : IsNumeral (radixOf radix) n ds) (more : Nat) :
    addrParse radix (more + 1) [] (ds ++ tail) = addrParse radix more [n] tail := by
  rw [addrParse]
  simp only [List.length_nil, ne_eq, not_true_eq_false, if_false, if_true,
    strReadu8_numeral hradix hn hds htail, List.nil_append]

/-- The parts that are left to read, each behind its dot. -/
theorem addrParse_parts (hdot : digitIn (radixOf radix) '.' = false) (print : Nat → List UInt8)
    (hprint : ∀ n, IsNumeral (radixOf radix) n (print n)) {parts : List Nat}
    (hparts : ∀ n ∈ parts, n < 256) {addr : List Nat} (haddr : addr ≠ []) :
    addrParse radix parts.length addr (behindDots print parts ++ tail) =
      (tail, ((addr ++ parts).length : Int), addr ++ parts) := by
  induction parts generalizing addr with
  | nil =>
    rw [List.append_nil]
    rfl
  | cons n parts ih =>
    obtain ⟨hn, hparts⟩ := List.forall_mem_cons.mp hparts
    -- what follows the part is a dot or the tail
    have hnext : ∀ c ∈ (behindDots print parts ++ tail).head?,
        digitIn (radixOf radix) c = false := by
      cases parts with
      | nil => exact htail
      | cons m parts =>
        intro c hc
        cases hc
        exact hdot
    rw [behindDots_cons, List.append_assoc, List.length_cons,
      addrParse_part hradix hnext hn (hprint n) _ haddr,
      ih hparts (List.append_ne_nil_of_right_ne_nil _ (List.cons_ne_nil _ _)),
      List.append_assoc, List.singleton_append]

end

/-! ## IPv4 -/

theorem addrByte_eq (addr n : Nat) : addrByte addr n = addr / 256 ^ n % 256 := by
  have hpow : 2 ^ (8 * n) = 256 ^ n := Nat.pow_mul 2 8 n
  rw [addrByte, Nat.shiftRight_eq_div_pow, hpow]
  exact Nat.and_two_pow_sub_one_eq_mod _ 8

theorem addrByte_lt (addr n : Nat) : addrByte addr n < 256 := by
  rw [addrByte_eq]
  exact Nat.mod_lt _ (by decide)

theorem mkdword4_eq {hi mh ml lo : Nat} (hhi : hi < 256) (hmh : mh < 256) (hml : ml < 256)
    (hlo : lo < 256) : mkdword4 hi mh ml lo = ((hi * 256 + mh) * 256 + ml) * 256 + lo := by
  have hbyte : ∀ x < 256, x &&& 255 = x := by
    intro x hx
    exact Nat.and_two_pow_sub_one_of_lt_two_pow (show x < 2 ^ 8 from hx)
  rw [mkdword4, hbyte hi hhi, hbyte mh hmh, hbyte ml hml, hbyte lo hlo, Nat.shiftLeft_zero]
  rw [Nat.or_assoc, Nat.or_assoc, ← Nat.shiftLeft_add_eq_or_of_lt (show lo < 2 ^ 8 from hlo)]
  have hlow : ml <<< 8 + lo < 2 ^ 16 := by
    rw [Nat.shiftLeft_eq]
    omega
  rw [← Nat.shiftLeft_add_eq_or_of_lt hlow]
  have hlow : mh <<< 16 + (ml <<< 8 + lo) < 2 ^ 24 := by
    rw [Nat.shiftLeft_eq, Nat.shiftLeft_eq]
    omega
  rw [← Nat.shiftLeft_add_eq_or_of_lt hlow]
  rw [Nat.shiftLeft_eq, Nat.shiftLeft_eq, Nat.shiftLeft_eq]
  omega

theorem mkdword4_octets {addr : Nat} (haddr : addr < 2 ^ 32) :
    mkdword4 (addrByte addr 3) (addrByte addr 2) (addrByte addr 1) (addrByte addr 0) = addr := by
  rw [mkdword4_eq (addrByte_lt _ _) (addrByte_lt _ _) (addrByte_lt _ _) (addrByte_lt _ _)]
  simp only [addrByte_eq]
  omega

theorem ipv4Text_eq (addr : Nat) : ipv4Text addr = decimal (addrByte addr 3) ++
    behindDots decimal [addrByte addr 2, addrByte addr 1, addrByte addr 0] := by
  simp [ipv4Text, behindDots]

theorem ipv4Parse_text (addr : Nat) {tail : List UInt8}
    (htail : ∀ c ∈ tail.head?, isdigit c = false) :
    ipv4Parse (ipv4Text addr ++ tail) = (tail, 4, octets addr) := by
  have hten : digitIn (radixOf 0) = isdigit := digitIn_ten
  have hdot : ∀ c ∈ (behindDots decimal [addrByte addr 2, addrByte addr 1, addrByte addr 0] ++
      tail).head?, digitIn (radixOf 0) c = false := by
    intro c hc
    cases hc
    rfl
  rw [ipv4Parse, ipv4Text_eq, List.append_assoc,
    addrParse_first (Nat.zero_le 36) hdot (addrByte_lt addr 3) (isNumeral_decimal _) 3]
  have hparts : ∀ n ∈ [addrByte addr 2, addrByte addr 1, addrByte addr 0], n < 256 := by
    intro n hn
    simp only [List.mem_cons, List.not_mem_nil, or_false] at hn
    obtain rfl | rfl | rfl := hn <;> exact addrByte_lt _ _
  exact addrParse_parts (Nat.zero_le 36) (hten ▸ htail) rfl decimal isNumeral_decimal hparts
    (List.cons_ne_nil _ _)

theorem length_decimal_byte {n : Nat} (hn : n < 256) : (decimal n).length ≤ 3 := by
  rw [decimal, List.length_map, Nat.length_toDigits_le_iff (by decide) (by decide)]
  omega

theorem length_ipv4Text (addr : Nat) : (ipv4Text addr).length ≤ 15 := by
  have hbyte : ∀ n, (decimal (addrByte addr n)).length ≤ 3 :=
    fun n => length_decimal_byte (addrByte_lt addr n)
  have h0 := hbyte 0
  have h1 := hbyte 1
  have h2 := hbyte 2
  have h3 := hbyte 3
  simp only [ipv4Text, List.length_append, List.length_cons]
  omega

theorem ipv4Format_eq (addr len : Nat) :
    ipv4Format addr len = snprintf len (ipv4Text addr) := by
  have hpos : ¬(ipv4Text addr).length ≤ 0 := by simp [ipv4Text]
  rw [ipv4Format]
  exact if_neg hpos

theorem macFormat_eq (addr : MacAddr) (len : Nat) :
    macFormat addr len = snprintf len (macText addr) := by
  have hpos : ¬(macText addr).length ≤ 0 := by
    rw [length_macText]
    decide
  rw [macFormat]
  exact if_neg hpos

theorem formatted_snprintf {text : List UInt8} {len : Nat} (h : text.length < len) :
    formatted (snprintf len text) = text := by
  have htake : text.take (len - 1) = text := List.take_of_length_le (by omega)
  rw [formatted, snprintf, if_neg (Nat.ne_of_gt (Nat.zero_lt_of_lt h)), htake]
  exact List.take_left

/-- An address is read back from its text, up to the tail. -/
theorem ipv4Parse_format {addr len : Nat} (haddr : addr < 2 ^ 32) (hlen : 16 ≤ len)
    {tail : List UInt8} (htail : ∀ c ∈ tail.head?, isdigit c = false) :
    ipv4Parse (formatted (ipv4Format addr len) ++ tail) = (tail, 4, octets addr) ∧
      mkdword4 (addrByte addr 3) (addrByte addr 2) (addrByte addr 1) (addrByte addr 0) = addr := by
  have htext := length_ipv4Text addr
  rw [ipv4Format_eq, formatted_snprintf (by omega)]
  exact ⟨ipv4Parse_text addr htail, mkdword4_octets haddr⟩

/-- In front of a port. -/
theorem ipv4Parse_format_port :
    ipv4Parse (formatted (ipv4Format 0xC0A80001 16) ++ [(':' : UInt8), '8', '0']) =
        ([(':' : UInt8), '8', '0'], 4, octets 0xC0A80001) ∧
      mkdword4 (addrByte 0xC0A80001 3) (addrByte 0xC0A80001 2) (addrByte 0xC0A80001 1)
        (addrByte 0xC0A80001 0) = 0xC0A80001 := by
  apply ipv4Parse_format (by decide) (Nat.le_refl 16)
  intro c hc
  cases hc
  rfl

/-! ## MAC -/

theorem hexByte_numeral (b : UInt8) : IsNumeral 16 b.toNat (hexByte b) := by
  have hhex : ∀ d < 16, digitValue (hexDigit d) = some d := by decide
  have hb : b.toNat < 256 := b.toNat_lt
  have hhigh := hhex (b.toNat / 16) (by omega)
  have hlow := hhex (b.toNat % 16) (by omega)
  constructor
  · exact List.cons_ne_nil _ _
  · intro c hc
    simp only [hexByte, List.mem_cons, List.not_mem_nil, or_false] at hc
    obtain rfl | rfl := hc
    · rw [digitIn, hhigh]
      exact decide_eq_true (by omega)
    · rw [digitIn, hlow]
      exact decide_eq_true (by omega)
  · simp only [digitsValue, hexByte, List.foldl_cons, List.foldl_nil, hhigh, hlow, Option.getD_some]
    omega

/-- The first byte, and the colon that follows it. -/
theorem macText_head (addr : MacAddr) : ∃ b bytes w, addr.bytes = b :: bytes ∧
    macText addr = hexByte b ++ (':' : UInt8) :: w := by
  obtain ⟨bytes, hbytes⟩ := addr
  match bytes, hbytes with
  | b :: c :: bytes, _ =>
    refine ⟨b, c :: bytes, (((c :: bytes).map hexByte).intersperse [(':' : UInt8)]).flatten,
      rfl, ?_⟩
    simp [macText]

theorem macParse_text (addr : MacAddr) : ∃ b bytes w, addr.bytes = b :: bytes ∧
    macParse (macText addr) = ((':' : UInt8) :: w, 1, [b.toNat]) := by
  obtain ⟨b, bytes, w, hbytes, htext⟩ := macText_head addr
  refine ⟨b, bytes, w, hbytes, ?_⟩
  have hcolon : ∀ c ∈ ((':' : UInt8) :: w).head?, digitIn (radixOf 16) c = false := by
    intro c hc
    cases hc
    rfl
  have hstop : strAccept ((':' : UInt8) :: w) ['.'] = ((':' : UInt8) :: w, false) := by
    rw [strAccept_char (by decide)]
    rfl
  rw [macParse, htext, addrParse_first (by decide) hcolon b.toNat_lt (hexByte_numeral b) 5,
    addrParse]
  simp only [List.length_cons, List.length_nil, hstop]
  rfl

/-- All six bytes come back and nothing is left. -/
def MacRoundTrips (addr : MacAddr) (len : Nat) : Prop :=
  macParse (formatted (macFormat addr len)) = ([], 6, addr.bytes.map UInt8.toNat)

instance (addr : MacAddr) (len : Nat) : Decidable (MacRoundTrips addr len) :=
  inferInstanceAs (Decidable (_ = _))

/-- The parts are written with colons and read with dots. -/
theorem not_macRoundTrips (addr : MacAddr) {len : Nat} (hlen : 18 ≤ len) :
    ¬MacRoundTrips addr len := by
  obtain ⟨b, bytes, w, _, hparse⟩ := macParse_text addr
  have htext := length_macText addr
  rw [MacRoundTrips, macFormat_eq, formatted_snprintf (by omega), hparse]
  intro h
  cases h

theorem not_macRoundTrips_zero : ¬MacRoundTrips ⟨List.replicate 6 0, rfl⟩ 18 :=
  not_macRoundTrips ⟨List.replicate 6 0, rfl⟩ (Nat.le_refl 18)

theorem mac_text_not_read_back :
    ¬∀ (addr : MacAddr) (len : Nat), 18 ≤ len → MacRoundTrips addr len := by
  intro h
  exact absurd (h ⟨[0, 17, 34, 51, 68, 85], rfl⟩ 18 (Nat.le_refl 18)) (by decide)

end Wifimodem
