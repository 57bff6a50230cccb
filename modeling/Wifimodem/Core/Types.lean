import Mathlib.Algebra.Order.Ring.Int
import Mathlib.Data.List.Basic

/-!
# Characters and machine integers

A `char` is a byte. A `uint` is a natural number below `2 ^ 32`, and the
operations that can leave that range are written out here with their wrap.
-/

namespace Wifimodem

instance charToByte : Coe Char UInt8 := ⟨Char.toUInt8⟩

@[simp] theorem toUInt8_eq_ofNat (c : Char) : c.toUInt8 = UInt8.ofNat c.toNat := by
  rw [Char.toUInt8, ← UInt32.toUInt8_ofNat', Char.toNat, UInt32.ofNat_toNat]

/-- `isspace` in the C locale: blank, and tab up to carriage return. -/
def isspace (c : UInt8) : Bool := c == 32 || (9 ≤ c && c ≤ 13)

def isdigit (c : UInt8) : Bool := 48 ≤ c && c ≤ 57

def isprint (c : UInt8) : Bool := 32 ≤ c && c ≤ 126

theorem isspace_of_isdigit {c : UInt8} (h : isdigit c = true) : isspace c = false := by
  grind [isdigit, isspace]

theorem isdigit_of_isspace {c : UInt8} (h : isspace c = true) : isdigit c = false := by
  grind [isdigit, isspace]

def Space := {w : List UInt8 // ∀ c ∈ w, isspace c = true}

def Digits := {w : List UInt8 // ∀ c ∈ w, isdigit c = true}

/-- `a - b` on `uint`. -/
def usub (a b : Nat) : Nat := (2 ^ 32 + a - b) % 2 ^ 32

def asInt (a : Nat) : Int := if a < 2 ^ 31 then a else (a : Int) - 2 ^ 32

theorem usub_of_le {a b : Nat} (hba : b ≤ a) (ha : a < 2 ^ 32) : usub a b = a - b := by
  rw [usub, Nat.add_sub_assoc hba, Nat.add_mod_left, Nat.mod_eq_of_lt (by omega)]

theorem usub_of_lt {a b : Nat} (hab : a < b) : usub a b = 2 ^ 32 + a - b := by
  rw [usub, Nat.mod_eq_of_lt (by omega)]

theorem clip_gt (a b : Nat) : (if a > b then b else a) = min a b := by
  split <;> omega

theorem clip_ge (a b : Nat) : (if a ≥ b then b else a) = min a b := by
  split <;> omega

end Wifimodem
