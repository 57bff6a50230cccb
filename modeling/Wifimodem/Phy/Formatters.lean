import Mathlib.Data.Nat.Log
import Wifimodem.Phy.Serialport
import Wifimodem.Util.NetParse

/-!
# Strings in the caller's buffer

Three functions print into a buffer of their caller and return a `str` over it. Its
length is what `snprintf` returns, the length of the text without any cut.
-/

namespace Wifimodem

/-- `serialport_get_config`, with the length of the string that it returns. -/
def serialportConfigStr (p : SerialSettings) (len : Nat) : Nat × List UInt8 :=
  let (num, stored) := snprintf len (configText p)
  if num < 0 then (0, stored) else (num, stored)

theorem serialportGetConfig_str (p : SerialSettings) (len : Nat) :
    serialportGetConfig p len =
      (formatted (serialportConfigStr p len), (serialportConfigStr p len).2) := rfl

inductive Formatter where
  | config (p : SerialSettings)
  | ipv4 (addr : Nat)
  | mac (addr : MacAddr)

namespace Formatter

def format : Formatter → Nat → Nat × List UInt8
  | .config p, len => serialportConfigStr p len
  | .ipv4 addr, len => ipv4Format addr len
  | .mac addr, len => macFormat addr len

def text : Formatter → List UInt8
  | .config p => configText p
  | .ipv4 addr => ipv4Text addr
  | .mac addr => macText addr

end Formatter

/-- The string ends in front of the last byte of the buffer, and each of its bytes was
stored by the call. -/
structure InBuffer (len : Nat) (value : Nat × List UInt8) : Prop where
  length : value.1 ≤ len - 1
  stored : (formatted value).length = value.1
  room : value.2.length ≤ len

theorem format_eq (f : Formatter) (len : Nat) : f.format len = snprintf len f.text := by
  cases f with
  | config p => rfl
  | ipv4 addr => exact ipv4Format_eq addr len
  | mac addr => exact macFormat_eq addr len

/-! ## How wide a value is printed -/

def natWidth (n : Nat) : Nat := Nat.log 10 n + 1

def intWidth (n : Int) : Nat := (if n < 0 then 1 else 0) + natWidth n.natAbs

/-- The number of characters that the value takes. -/
def Formatter.width : Formatter → Nat
  | .config p => intWidth p.baudrate + intWidth p.databits + intWidth p.stopbits + 2
  | .ipv4 addr => natWidth (addrByte addr 3) + natWidth (addrByte addr 2) +
      natWidth (addrByte addr 1) + natWidth (addrByte addr 0) + 3
  | .mac _ => 17

theorem length_decimal (n : Nat) : (decimal n).length = natWidth n := by
  have hlt : n < 10 ^ natWidth n := Nat.lt_pow_succ_log_self (by decide) n
  have hpos : (decimal n).length ≠ 0 := fun h => decimal_ne_nil n (List.length_eq_zero_iff.mp h)
  rw [decimal, List.length_map] at hpos ⊢
  apply Nat.le_antisymm
  · exact (Nat.length_toDigits_le_iff (by decide) (Nat.succ_pos _)).mpr hlt
  · have hself := (Nat.length_toDigits_le_iff (by decide) (Nat.pos_of_ne_zero hpos)).mp
      (Nat.le_refl _)
    exact Nat.log_lt_of_lt_pow' hpos hself

theorem length_decimalInt (n : Int) : (decimalInt n).length = intWidth n := by
  rw [decimalInt, intWidth]
  split
  · rw [List.length_cons, length_decimal, Nat.add_comm]
  · rw [length_decimal, Nat.zero_add]

theorem length_formatterText (f : Formatter) : f.text.length = f.width := by
  cases f with
  | config p =>
    simp only [Formatter.text, configText, List.length_append, List.length_cons, length_decimalInt,
      Formatter.width]
    omega
  | ipv4 addr =>
    simp only [Formatter.text, ipv4Text, List.length_append, List.length_cons, length_decimal,
      Formatter.width]
    omega
  | mac addr => exact length_macText addr

/-! ## When the string stays inside -/

theorem inBuffer_snprintf {text : List UInt8} (htext : text ≠ []) (len : Nat) :
    InBuffer len (snprintf len text) ↔ text.length < len := by
  have hpos : 0 < text.length := List.length_pos_iff.mpr htext
  constructor
  · intro h
    have hlength : text.length ≤ len - 1 := h.length
    omega
  · intro hlt
    refine ⟨Nat.le_sub_one_of_lt hlt, ?_, ?_⟩
    · rw [formatted_snprintf hlt]
      rfl
    · rw [snprintf, if_neg (by omega)]
      simp only [List.length_append, List.length_take, List.length_singleton]
      omega

/-- The string stays inside the buffer exactly when the text and its zero fit. -/
theorem inBuffer_format_iff (f : Formatter) (len : Nat) :
    InBuffer len (f.format len) ↔ f.width < len := by
  have hne : f.text ≠ [] := by
    apply List.ne_nil_of_length_pos
    rw [length_formatterText]
    cases f <;> exact Nat.succ_pos _
  rw [format_eq, inBuffer_snprintf hne, length_formatterText]

/-- The address `255.255.255.255` takes fifteen characters. -/
theorem ipv4_beyond_buffer : ¬InBuffer 8 (Formatter.format (.ipv4 0xFFFFFFFF) 8) := by
  intro h
  have hlength : 15 ≤ 8 - 1 := h.length
  exact absurd hlength (by decide)

end Wifimodem
