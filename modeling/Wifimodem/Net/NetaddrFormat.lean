import Wifimodem.Net.NetaddrOrder

/-!
# The text of a network address

`inet_ntop` prints the address, if its text has room in the buffer, and the port is
printed behind it, into what is left less one byte. Lengths are `uint`s.
-/

namespace Wifimodem

/-- The bytes in decimal, with dots between them. -/
def dotted (bytes : List UInt8) : List UInt8 :=
  ((bytes.map fun b => decimal b.toNat).intersperse [('.' : UInt8)]).flatten

theorem zero_notMem_dotted (bytes : List UInt8) : 0 ∉ dotted bytes := by
  have hbyte : ∀ b : UInt8, 0 ∉ decimal b.toNat := fun b => notMem_decimal (by decide) _
  induction bytes with
  | nil => exact List.not_mem_nil
  | cons b bytes ih =>
    cases bytes with
    | nil => simpa [dotted] using hbyte b
    | cons c bytes =>
      have hcons : dotted (b :: c :: bytes) =
          decimal b.toNat ++ ('.' : UInt8) :: dotted (c :: bytes) := rfl
      rw [hcons, List.mem_append, List.mem_cons]
      rintro (hmem | hmem | hmem)
      · exact hbyte b hmem
      · exact absurd hmem (by decide)
      · exact ih hmem

/-- `inet_ntop` prints all of the text or fails; what it leaves in the buffer when it
fails is not known. -/
structure InetNtop where
  text : AddrFamily → List UInt8 → List UInt8
  plain : ∀ family addr, 0 ∉ text family addr
  inet : ∀ addr, text .inet addr = dotted addr
  errno : Int
  left : List UInt8

namespace InetNtop

/-- The buffer, and the error if there is one. -/
def run (ntop : InetNtop) (family : AddrFamily) (addr : List UInt8) (buf : Block UInt8)
    (size : Nat) : Block UInt8 × Option Int :=
  if (ntop.text family addr).length < size then
    (buf.store 0 (ntop.text family addr ++ [0]), none)
  else (buf.store 0 (ntop.left.take size), some ntop.errno)

end InetNtop

def uintSub (a b : Nat) : Nat := (a + (2 ^ 32 - b % 2 ^ 32)) % 2 ^ 32

/-- `snprintf` into the buffer, from `off` on. -/
def printAt (buf : Block UInt8) (off size : Nat) (text : List UInt8) : Block UInt8 :=
  buf.store off (snprintf size text).2

def unknownFamilyText (family : Nat) : List UInt8 :=
  (['<', 'U', 'N', 'K', 'N', 'N', 'O', 'W', 'N', ' ', 'F', 'A', 'M', 'I', 'L', 'Y', ' '] :
    List UInt8) ++ decimal family ++ [('>' : UInt8)]

def ntopFailedText (errno : Int) : List UInt8 :=
  (['<', 'i', 'n', 'e', 't', '_', 'n', 't', 'o', 'p', '(', ')', ' ', 'f', 'a', 'i', 'l', 'e', 'd',
    ',', ' ', 'e', 'r', 'r', 'n', 'o', '='] : List UInt8) ++ decimalInt errno ++ [('>' : UInt8)]

/-- What is printed behind the address. -/
def portSuffix (port : Nat) : List UInt8 := ':' :: decimal (htons port)

/-- What follows the call of `inet_ntop`. -/
def printPort (port len : Nat) : Block UInt8 × Option Int → Block UInt8
  | (buf, none) =>
    if port > 0 then
      let (buf, text) := buf.loadUntil (· = 0)
      printAt buf text.length (uintSub (uintSub len text.length) 1) (portSuffix port)
    else buf
  | (buf, some errno) => printAt buf 0 (uintSub len 1) (ntopFailedText errno)

def netaddrFormat (ntop : InetNtop) (a : Sockaddr) (buf : Block UInt8) (len : Nat) :
    Block UInt8 :=
  match a.family with
  | .inet => printPort a.port len (ntop.run .inet a.addr buf len)
  | .inet6 => printPort a.port len (ntop.run .inet6 a.addr buf len)
  | .other value => printAt buf 0 (uintSub len 1) (unknownFamilyText value)

/-! ## Printing -/

theorem uintSub_of_le {a b : Nat} (hle : b ≤ a) (ha : a < 2 ^ 32) : uintSub a b = a - b := by
  rw [uintSub, Nat.mod_eq_of_lt (show b < 2 ^ 32 by omega)]
  omega

section
variable {buf : Block UInt8} {text tail : List UInt8}

/-- The text is cut where the size ends. -/
theorem printAt_spells {size : Nat} (hfront : buf.cells.take text.length = text)
    (hplain : 0 ∉ text ++ tail) (hsize : 0 < size) (hroom : text.length + size ≤ buf.size) :
    (printAt buf text.length size tail).Spells 0 (text ++ tail.take (size - 1)) := by
  have hcut : (tail.take (size - 1)).length ≤ size - 1 := List.length_take_le _ _
  rw [printAt, snprintf, if_neg (Nat.ne_of_gt hsize)]
  refine Block.spells_store hfront (fun hmem => hplain ?_) (by omega)
  rw [List.mem_append] at hmem ⊢
  exact hmem.imp_right List.mem_of_mem_take

theorem fault_printAt {off size : Nat} (hroom : off + size ≤ buf.size) :
    (printAt buf off size tail).fault = buf.fault := by
  have hcut : (tail.take (size - 1)).length ≤ size - 1 := List.length_take_le _ _
  apply Block.fault_store
  rw [snprintf]
  split
  · rename_i hzero
    rw [List.length_nil]
    omega
  · rename_i hsize
    rw [List.length_append, List.length_singleton]
    omega

theorem printAt_zero (off : Nat) (hoff : off ≤ buf.size) : printAt buf off 0 tail = buf := by
  rw [printAt, snprintf, if_pos rfl, Block.store_of_le hoff, List.overlay_nil]

end

/-! ## What is left in the buffer -/

/-- Behind the text that `inet_ntop` gives, as much of the port as there is room for. -/
def knownText (ntop : InetNtop) (port len : Nat) (text : List UInt8) : List UInt8 :=
  if text.length < len then
    text ++ if port > 0 then (portSuffix port).take (len - text.length - 2) else []
  else (ntopFailedText ntop.errno).take (len - 2)

/-- The string that the caller finds. -/
def netaddrText (ntop : InetNtop) (a : Sockaddr) (len : Nat) : List UInt8 :=
  match a.family with
  | .inet => knownText ntop a.port len (ntop.text .inet a.addr)
  | .inet6 => knownText ntop a.port len (ntop.text .inet6 a.addr)
  | .other value => (unknownFamilyText value).take (len - 2)

theorem zero_notMem_unknownFamilyText (family : Nat) : 0 ∉ unknownFamilyText family := by
  have hdecimal := notMem_decimal (show isdigit 0 = false by decide) family
  rw [unknownFamilyText, List.mem_append, List.mem_append]
  rintro ((hmem | hmem) | hmem)
  · exact absurd hmem (by decide)
  · exact hdecimal hmem
  · exact absurd hmem (by decide)

theorem zero_notMem_ntopFailedText (errno : Int) : 0 ∉ ntopFailedText errno := by
  have hdecimal := notMem_decimal (show isdigit 0 = false by decide) errno.natAbs
  have hsigned : 0 ∉ decimalInt errno := by
    rw [decimalInt]
    split
    · rw [List.mem_cons]
      rintro (hmem | hmem)
      · exact absurd hmem (by decide)
      · exact hdecimal hmem
    · exact hdecimal
  rw [ntopFailedText, List.mem_append, List.mem_append]
  rintro ((hmem | hmem) | hmem)
  · exact absurd hmem (by decide)
  · exact hsigned hmem
  · exact absurd hmem (by decide)

theorem zero_notMem_portSuffix (port : Nat) : 0 ∉ portSuffix port := by
  have hdecimal := notMem_decimal (show isdigit 0 = false by decide) (htons port)
  rw [portSuffix, List.mem_cons]
  rintro (hmem | hmem)
  · exact absurd hmem (by decide)
  · exact hdecimal hmem

section
variable {buf : Block UInt8} {len : Nat}

/-- A message is printed into all of the buffer but its last byte. -/
theorem printAt_message (hbuf : buf.size = len) (hlen : len < 2 ^ 32) {text : List UInt8}
    (hplain : 0 ∉ text) :
    (0 < len → (printAt buf 0 (uintSub len 1) text).fault = buf.fault) ∧
      (2 ≤ len → (printAt buf 0 (uintSub len 1) text).Spells 0 (text.take (len - 2))) := by
  constructor
  · intro hpos
    rw [uintSub_of_le hpos hlen]
    exact fault_printAt (by omega)
  · intro htwo
    rw [uintSub_of_le (by omega) hlen]
    exact @printAt_spells buf [] text _ rfl hplain (by omega) (by
      rw [List.length_nil]
      omega)

/-- With no buffer at all there is a message, and no room for it. -/
theorem fault_message_iff (hbuf : buf.size = len) {text : List UInt8}
    (hfault : 0 < len → (printAt buf 0 (uintSub len 1) text).fault = false) :
    (printAt buf 0 (uintSub len 1) text).fault = false ↔ 0 < len := by
  refine ⟨fun h => Nat.pos_of_ne_zero fun hzero => ?_, hfault⟩
  subst hzero
  have hstored : (printAt buf 0 (uintSub 0 1) text).fault = true := by
    apply Block.fault_store_of_gt
    rw [snprintf, if_neg (by decide), List.length_append, List.length_singleton]
    omega
  rw [hstored] at h
  cases h

variable (ntop : InetNtop)

/-- The address is printed, and the port behind it. -/
theorem printed_port (hbuf : buf.size = len) (hlen : len < 2 ^ 32) {text : List UInt8}
    (hspells : buf.Spells 0 text) (port : Nat) :
    (printAt buf text.length (uintSub (uintSub len text.length) 1) (portSuffix port)).fault =
        buf.fault ∧
      (printAt buf text.length (uintSub (uintSub len text.length) 1) (portSuffix port)).Spells 0
        (text ++ (portSuffix port).take (len - text.length - 2)) := by
  have hroom := hspells.room
  rw [hbuf] at hroom
  rw [uintSub_of_le (Nat.le_of_lt hroom) hlen, uintSub_of_le (by omega) (by omega)]
  cases hsize : len - text.length - 1 with
  | zero =>
    have hcut : len - text.length - 2 = 0 := by omega
    rw [printAt_zero _ (by omega), hcut, List.take_zero, List.append_nil]
    exact ⟨rfl, hspells⟩
  | succ size =>
    have hcut : len - text.length - 2 = size + 1 - 1 := by omega
    have hplain : 0 ∉ text ++ portSuffix port := by
      rw [List.mem_append]
      rintro (hmem | hmem)
      · exact hspells.plain hmem
      · exact zero_notMem_portSuffix port hmem
    rw [hcut]
    exact ⟨fault_printAt (by omega),
      printAt_spells hspells.take hplain (Nat.succ_pos _) (by omega)⟩

/-- Both families alike. -/
theorem printPort_run (hbuf : buf.size = len) (hlen : len < 2 ^ 32) (hfault : buf.fault = false)
    (family : AddrFamily) (addr : List UInt8) (port : Nat) :
    ((printPort port len (ntop.run family addr buf len)).fault = false ↔ 0 < len) ∧
      (2 ≤ len → (printPort port len (ntop.run family addr buf len)).Spells 0
        (knownText ntop port len (ntop.text family addr))) := by
  have hplain := ntop.plain family addr
  rw [InetNtop.run, knownText]
  generalize ntop.text family addr = text at hplain ⊢
  split
  · rename_i hfits
    have hfault' : (buf.store 0 (text ++ [0])).fault = false := by
      rw [Block.fault_store, hfault]
      rw [List.length_append, List.length_singleton]
      omega
    have hspells : (buf.store 0 (text ++ [0])).Spells 0 text :=
      @Block.spells_store _ buf 0 [] text rfl hplain (by
        rw [List.length_nil]
        omega)
    have hpos : 0 < len := Nat.zero_lt_of_lt hfits
    rw [printPort]
    split
    · rw [hspells.loadUntil]
      have hport := printed_port ((Block.size_store _ _ _).trans hbuf) hlen hspells port
      exact ⟨iff_of_true (hport.1.trans hfault') hpos, fun _ => hport.2⟩
    · rw [List.append_nil]
      exact ⟨iff_of_true hfault' hpos, fun _ => hspells⟩
  · have hleft : 0 + (ntop.left.take len).length ≤ buf.size := by
      have hcut : (ntop.left.take len).length ≤ len := List.length_take_le _ _
      omega
    have hsize : (buf.store 0 (ntop.left.take len)).size = len :=
      (Block.size_store _ _ _).trans hbuf
    have hmessage := printAt_message hsize hlen (zero_notMem_ntopFailedText ntop.errno)
    rw [Block.fault_store hleft, hfault] at hmessage
    exact ⟨fault_message_iff hsize hmessage.1, hmessage.2⟩

theorem netaddrFormat_text (hbuf : buf.size = len) (hlen : len < 2 ^ 32)
    (hfault : buf.fault = false) (a : Sockaddr) :
    ((netaddrFormat ntop a buf len).fault = false ↔ 0 < len) ∧
      (2 ≤ len → (netaddrFormat ntop a buf len).Spells 0 (netaddrText ntop a len)) := by
  rw [netaddrFormat, netaddrText]
  cases a.family with
  | inet => exact printPort_run ntop hbuf hlen hfault .inet a.addr a.port
  | inet6 => exact printPort_run ntop hbuf hlen hfault .inet6 a.addr a.port
  | other value =>
    have hmessage := printAt_message hbuf hlen (zero_notMem_unknownFamilyText value)
    rw [hfault] at hmessage
    exact ⟨fault_message_iff hbuf hmessage.1, hmessage.2⟩

end

/-! ## Reading the address back -/

theorem dotted_toBytes (ip : Nat) : dotted (LittleEndian.toBytes 4 ip).reverse = ipv4Text ip := by
  have hbytes : (LittleEndian.toBytes 4 ip).map UInt8.toNat =
      [addrByte ip 0, addrByte ip 1, addrByte ip 2, addrByte ip 3] := by
    simp only [LittleEndian.toBytes, List.map_cons, List.map_nil, UInt8.toNat_ofNat', addrByte_eq,
      Nat.div_div_eq_div_mul]
    simp
  have hparts : (LittleEndian.toBytes 4 ip).reverse.map (fun b => decimal b.toNat) =
      [decimal (addrByte ip 3), decimal (addrByte ip 2), decimal (addrByte ip 1),
        decimal (addrByte ip 0)] := by
    rw [List.map_reverse, ← Function.comp_def decimal UInt8.toNat, ← List.map_map, hbytes]
    rfl
  rw [dotted, hparts, ipv4Text]
  simp

theorem htons_htons {port : Nat} (hport : port < 2 ^ 16) : htons (htons port) = port := by
  rw [htons, htons, LittleEndian.swap_swap]
  exact Nat.mod_eq_of_lt hport

theorem strReaduint_decimal {port : Nat} (hport : port < 2 ^ 16) :
    strReaduint (decimal port) = ([], some port) := by
  have htake : (decimal port).takeWhile isdigit = decimal port :=
    List.takeWhile_eq_self_iff.mpr (decimal_digits port)
  have hdrop : (decimal port).dropWhile isdigit = [] :=
    List.dropWhile_eq_nil_iff.mpr (decimal_digits port)
  have hread : ¬(decimal port = [] ∨ 2 ^ 32 ≤ port % 2 ^ 64) := by
    rintro (hnil | hlarge)
    · exact decimal_ne_nil port hnil
    · omega
  rw [strReaduint_eq, htake, hdrop, decimalValue_decimal, if_neg hread,
    Nat.mod_eq_of_lt (by omega)]

theorem length_decimal_port {port : Nat} (hport : port < 2 ^ 16) : (decimal port).length ≤ 5 := by
  rw [decimal, List.length_map, Nat.length_toDigits_le_iff (by decide) (by decide)]
  omega

/-- There is room for all of the address and of the port. -/
theorem netaddrText_ipv4 (ntop : InetNtop) {ip port len : Nat} (hport : port < 2 ^ 16)
    (hroom : 23 ≤ len) :
    netaddrText ntop ⟨.inet, htons port, (LittleEndian.toBytes 4 ip).reverse⟩ len =
      ipv4Text ip ++ if port = 0 then [] else (':' : UInt8) :: decimal port := by
  have haddr := length_ipv4Text ip
  have hdigits := length_decimal_port hport
  have hzero : htons port > 0 ↔ port ≠ 0 := by
    rw [gt_iff_lt, Nat.pos_iff_ne_zero]
    refine not_congr ⟨fun h => ?_, fun h => ?_⟩
    · rw [← htons_htons hport, h]
      rfl
    · rw [h]
      rfl
  have hsuffix : portSuffix (htons port) = (':' : UInt8) :: decimal port := by
    rw [portSuffix, htons_htons hport]
  have hcut : ((':' : UInt8) :: decimal port).take (len - (ipv4Text ip).length - 2) =
      (':' : UInt8) :: decimal port := by
    apply List.take_of_length_le
    rw [List.length_cons]
    omega
  simp only [netaddrText, knownText, ntop.inet, dotted_toBytes, hzero, hsuffix, hcut]
  rw [if_pos (by omega), ite_not]

/-- Only IPv4 addresses have a text of their own. -/
def plainNtop : InetNtop where
  text family addr := if family = .inet then dotted addr else [':', ':']
  plain := by
    intro family addr
    split
    · exact zero_notMem_dotted addr
    · decide
  inet := fun _ => rfl
  errno := 28
  left := []

end Wifimodem
