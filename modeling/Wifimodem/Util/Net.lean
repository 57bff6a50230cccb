import Wifimodem.Core.Str

/-!
# Text forms of network addresses
-/

namespace Wifimodem

def hexDigit (n : Nat) : UInt8 := if n < 10 then UInt8.ofNat (48 + n) else UInt8.ofNat (87 + n)

/-- `%02x` of a byte. -/
def hexByte (b : UInt8) : List UInt8 := [hexDigit (b.toNat / 16), hexDigit (b.toNat % 16)]

structure MacAddr where
  bytes : List UInt8
  length_bytes : bytes.length = 6
deriving DecidableEq

def macText (addr : MacAddr) : List UInt8 :=
  ((addr.bytes.map hexByte).intersperse [(':' : UInt8)]).flatten

def macFormat (addr : MacAddr) (len : Nat) : Nat × List UInt8 :=
  let (num, stored) := snprintf len (macText addr)
  if num ≤ 0 then (0, stored) else (num, stored)

/-- `byte(x, n)`. -/
def addrByte (addr n : Nat) : Nat := addr >>> (8 * n) &&& 255

def ipv4Text (addr : Nat) : List UInt8 :=
  decimal (addrByte addr 3) ++ ('.' : UInt8) :: decimal (addrByte addr 2) ++
    ('.' : UInt8) :: decimal (addrByte addr 1) ++ ('.' : UInt8) :: decimal (addrByte addr 0)

def ipv4Format (addr len : Nat) : Nat × List UInt8 :=
  let (num, stored) := snprintf len (ipv4Text addr)
  if num ≤ 0 then (0, stored) else (num, stored)

theorem length_macText (addr : MacAddr) : (macText addr).length = 17 := by
  obtain ⟨bytes, hbytes⟩ := addr
  match bytes, hbytes with
  | [a, b, c, d, e, f], _ => simp [macText, hexByte]

theorem macFormat_len (addr : MacAddr) (len : Nat) : (macFormat addr len).1 = 17 := by
  simp only [macFormat, snprintf, length_macText]
  rfl

end Wifimodem
