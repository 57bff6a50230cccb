import Wifimodem.Core.SortedSearch
import Wifimodem.Core.StrOrder
import Wifimodem.Net.Netaddr
import Wifimodem.Util.NetParse

/-!
# The order of network addresses

Addresses are compared by their families first, the greater family in front, and within
a family by their bytes, which stand in network order. The ports are not looked at.
-/

namespace Wifimodem

open Cells LittleEndian

def afInet : Nat := 2
def afInet6 : Nat := 10

def AddrFamily.value : AddrFamily → Nat
  | .inet => afInet
  | .inet6 => afInet6
  | .other value => value

/-- The octets are read from an array. -/
def netaddrFromIpv4 (ip : List Nat) (port : Nat) : Option Netaddr := do
  let hi ← load ip 0
  let mh ← load ip 1
  let ml ← load ip 2
  let lo ← load ip 3
  let saddr := swap 4 (mkdword4 hi mh ml lo)
  some { netaddrZero with addr := ⟨.inet, htons port, toBytes 4 saddr⟩ }

/-- What the language promises of `memcmp`. -/
structure Memcmp where
  cmp : List UInt8 → List UInt8 → Int
  signs : ∀ s p : List UInt8, s.length = p.length → Signs (cmp s p) s p

def netaddrCompare (memcmp : Memcmp) (a b : Sockaddr) : Int :=
  if b.family.value ≠ a.family.value then (b.family.value : Int) - a.family.value
  else if a.family.value = afInet then memcmp.cmp (a.addr.take 4) (b.addr.take 4)
  else if a.family.value = afInet6 then memcmp.cmp (a.addr.take 16) (b.addr.take 16)
  else 0

/-! ## Addresses with all their bytes -/

def AddrFamily.Holds : AddrFamily → List UInt8 → Prop
  | .inet, bytes => bytes.length = 4
  | .inet6, bytes => bytes.length = 16
  | .other value, _ => value ≠ afInet ∧ value ≠ afInet6

structure HostAddr where
  addr : Sockaddr
  holds : addr.family.Holds addr.addr

namespace HostAddr

/-- The address as a number; one of another family has none. -/
def number (a : HostAddr) : Nat :=
  match a.addr.family with
  | .other _ => 0
  | _ => ofBytes a.addr.addr.reverse

def family (a : HostAddr) : Nat := a.addr.family.value

def Before (a b : HostAddr) : Prop :=
  b.family < a.family ∨ a.family = b.family ∧ a.number < b.number

instance (a b : HostAddr) : Decidable (Before a b) := inferInstanceAs (Decidable (_ ∨ _))

end HostAddr

section
variable (memcmp : Memcmp)

/-- `memcmp` of two addresses with the same number of bytes. -/
theorem Memcmp.numbers {bs cs : List UInt8} (h : bs.length = cs.length) :
    (memcmp.cmp bs cs < 0 ↔ ofBytes bs.reverse < ofBytes cs.reverse) ∧
      (0 < memcmp.cmp bs cs ↔ ofBytes cs.reverse < ofBytes bs.reverse) := by
  have hsigns := memcmp.signs bs cs h
  rw [ofBytes_reverse_lt h, ofBytes_reverse_lt h.symm]
  exact ⟨hsigns.lt, hsigns.gt⟩

theorem netaddrCompare_family {a b : Sockaddr} (h : b.family.value ≠ a.family.value) :
    netaddrCompare memcmp a b = (b.family.value : Int) - a.family.value := by
  rw [netaddrCompare, if_pos h]

theorem netaddrCompare_inet {bs cs : List UInt8} (hbs : bs.length = 4) (hcs : cs.length = 4)
    (p q : Nat) : netaddrCompare memcmp ⟨.inet, p, bs⟩ ⟨.inet, q, cs⟩ = memcmp.cmp bs cs := by
  have hinet : AddrFamily.inet.value = afInet := rfl
  rw [netaddrCompare, if_neg (not_not_intro rfl), if_pos hinet,
    List.take_of_length_le (Nat.le_of_eq hbs), List.take_of_length_le (Nat.le_of_eq hcs)]

theorem netaddrCompare_inet6 {bs cs : List UInt8} (hbs : bs.length = 16) (hcs : cs.length = 16)
    (p q : Nat) : netaddrCompare memcmp ⟨.inet6, p, bs⟩ ⟨.inet6, q, cs⟩ = memcmp.cmp bs cs := by
  have hinet : AddrFamily.inet6.value ≠ afInet := by decide
  have hinet6 : AddrFamily.inet6.value = afInet6 := rfl
  rw [netaddrCompare, if_neg (not_not_intro rfl), if_neg hinet, if_pos hinet6,
    List.take_of_length_le (Nat.le_of_eq hbs), List.take_of_length_le (Nat.le_of_eq hcs)]

theorem netaddrCompare_other {value : Nat} (h : AddrFamily.Holds (.other value) [])
    (p q : Nat) (bs cs : List UInt8) :
    netaddrCompare memcmp ⟨.other value, p, bs⟩ ⟨.other value, q, cs⟩ = 0 := by
  rw [netaddrCompare, if_neg (not_not_intro rfl)]
  exact (if_neg h.1).trans (if_neg h.2)

theorem netaddrCompare_before (a b : HostAddr) :
    (netaddrCompare memcmp a.addr b.addr < 0 ↔ a.Before b) ∧
      (0 < netaddrCompare memcmp a.addr b.addr ↔ b.Before a) := by
  rw [HostAddr.Before, HostAddr.Before]
  cases Decidable.em (b.family = a.family) with
  | inr hne =>
    rw [netaddrCompare_family memcmp hne]
    simp only [HostAddr.family] at hne ⊢
    omega
  | inl heq =>
    obtain ⟨⟨afamily, p, bs⟩, ha⟩ := a
    obtain ⟨⟨bfamily, q, cs⟩, hb⟩ := b
    simp only [HostAddr.family, HostAddr.number] at heq ⊢
    -- equal families are those of one constructor
    cases afamily <;> cases bfamily
    case inet.inet =>
      have hnumbers := memcmp.numbers (Eq.trans ha (Eq.symm hb))
      rw [netaddrCompare_inet memcmp ha hb, hnumbers.1, hnumbers.2]
      simp only [Nat.lt_irrefl, true_and, false_or, and_self]
    case inet6.inet6 =>
      have hnumbers := memcmp.numbers (Eq.trans ha (Eq.symm hb))
      rw [netaddrCompare_inet6 memcmp ha hb, hnumbers.1, hnumbers.2]
      simp only [Nat.lt_irrefl, true_and, false_or, and_self]
    case other.other value value' =>
      obtain rfl : value' = value := heq
      rw [netaddrCompare_other memcmp ha]
      simp only [Nat.lt_irrefl, and_false, or_false, and_self, Int.lt_irrefl]
    case inet.inet6 => cases heq
    case inet6.inet => cases heq
    case inet.other => exact absurd heq hb.1
    case inet6.other => exact absurd heq hb.2
    case other.inet => exact absurd heq.symm ha.1
    case other.inet6 => exact absurd heq.symm ha.2

def netaddrOrder : Comparator HostAddr where
  cmp a b := netaddrCompare memcmp a.addr b.addr
  ordered := by
    refine ⟨fun a b => ?_, fun a b c hab hbc => ?_⟩
    · rw [(netaddrCompare_before memcmp a b).2, (netaddrCompare_before memcmp b a).1]
    · rw [← Int.not_lt, (netaddrCompare_before memcmp _ _).2, HostAddr.Before] at *
      omega

/-! ## A table of addresses -/

theorem netaddrFromIpv4_octets {ip : Nat} (hip : ip < 2 ^ 32) (port : Nat) :
    netaddrFromIpv4 (octets ip) port =
      some { netaddrZero with addr := ⟨.inet, htons port, (toBytes 4 ip).reverse⟩ } := by
  rw [← toBytes_swap]
  simp only [netaddrFromIpv4, octets, load]
  simp [mkdword4_octets hip]

/-- The IPv4 address with this number. -/
def ipv4Host (ip port : Nat) : HostAddr :=
  ⟨⟨.inet, htons port, (toBytes 4 ip).reverse⟩, by simp [AddrFamily.Holds]⟩

theorem ipv4Host_number {ip : Nat} (hip : ip < 2 ^ 32) (port : Nat) :
    (ipv4Host ip port).number = ip := by
  have hbytes := ofBytes_toBytes 4 ip
  rw [Nat.mod_eq_of_lt (show ip < 256 ^ 4 from hip)] at hbytes
  simp only [HostAddr.number, ipv4Host, List.reverse_reverse]
  exact hbytes

/-- A table that is sorted with `netaddr_compare` and searched for the address in a text:
in front of the entries with that address, whatever their ports, are those of a greater
family or of a smaller number. -/
theorem netaddr_table (kind : SortKind) (table : List HostAddr)
    (hnum : kind = .shell → table.length < 2 ^ 29) {ip : Nat} (hip : ip < 2 ^ 32) (port : Nat)
    {tail : List UInt8} (htail : ∀ c ∈ tail.head?, isdigit c = false) :
    ∃ key : HostAddr,
      (netaddrFromIpv4 (ipv4Parse (ipv4Text ip ++ tail)).2.2 port).map Netaddr.addr =
          some key.addr ∧
      ∃ result lower upper, lower ≤ upper ∧
        (∀ fuel ≥ table.length + 3,
          kind.sort (netaddrOrder memcmp).cmp fuel table = some result) ∧
        lowerBound (netaddrOrder memcmp).cmp result key = some lower ∧
        upperBound (netaddrOrder memcmp).cmp result key = some upper ∧
        (result.take lower).Perm
          (table.filter fun a => afInet < a.family ∨ a.family = afInet ∧ a.number < ip) ∧
        ((result.drop lower).take (upper - lower)).Perm
          (table.filter fun a => a.family = afInet ∧ a.number = ip) ∧
        (result.drop upper).Perm
          (table.filter fun a => a.family < afInet ∨ a.family = afInet ∧ ip < a.number) := by
  refine ⟨ipv4Host ip port, ?_, ?_⟩
  · rw [ipv4Parse_text ip htail, netaddrFromIpv4_octets hip]
    rfl
  · have hnumber := ipv4Host_number hip port
    have hfamily : (ipv4Host ip port).family = afInet := rfl
    have hkey := KeyAgrees.self (netaddrOrder memcmp) (ipv4Host ip port)
    obtain ⟨result, hperm, hsorted, hrun⟩ := kind.sort_result (netaddrOrder memcmp) table hnum
    obtain ⟨lower, upper, hfound⟩ := (hkey.partitioned hsorted).enclosed
    refine ⟨result, lower, upper, hfound.lower_le, hrun, hfound.lowerBound, hfound.upperBound,
      ?_, ?_, ?_⟩
    · rw [hfound.below]
      refine (hperm.filter _).trans (.of_eq (List.filter_congr fun a _ => ?_))
      have hsign := netaddrCompare_before memcmp a (ipv4Host ip port)
      simp only [HostAddr.Before, hnumber, hfamily] at hsign
      exact decide_eq_decide.mpr (hsign.1.trans (by omega))
    · rw [hfound.same]
      refine (hperm.filter _).trans (.of_eq (List.filter_congr fun a _ => ?_))
      have hsign := netaddrCompare_before memcmp a (ipv4Host ip port)
      simp only [HostAddr.Before, hnumber, hfamily] at hsign
      refine decide_eq_decide.mpr ?_
      simp only [netaddrOrder]
      omega
    · rw [hfound.above]
      refine (hperm.filter _).trans (.of_eq (List.filter_congr fun a _ => ?_))
      have hsign := netaddrCompare_before memcmp a (ipv4Host ip port)
      simp only [HostAddr.Before, hnumber, hfamily] at hsign
      exact decide_eq_decide.mpr (hsign.2.trans (by omega))

end

/-- The first difference, or zero. -/
def firstDifference : List UInt8 → List UInt8 → Int
  | a :: s, b :: p => if a = b then firstDifference s p else (a.toNat : Int) - b.toNat
  | _, _ => 0

theorem firstDifference_signs (s p : List UInt8) (h : s.length = p.length) :
    Signs (firstDifference s p) s p := by
  induction s generalizing p with
  | nil =>
    obtain rfl := List.length_eq_zero_iff.mp h.symm
    constructor <;> simp [firstDifference]
  | cons a s ih =>
    cases p with
    | nil => cases h
    | cons b p =>
      have hrest := ih p (Nat.succ.inj h)
      rw [firstDifference]
      split
      · rename_i hab
        subst hab
        constructor <;> simp [hrest.lt, hrest.eq, hrest.gt]
      · rename_i hab
        have hne : a.toNat ≠ b.toNat := fun heq => hab (UInt8.toNat_inj.mp heq)
        have hba : ¬b = a := fun hba => hab hba.symm
        constructor <;>
          simp only [List.cons_lt_cons_iff, List.cons.injEq, hab, hba, false_and, or_false,
            UInt8.lt_iff_toNat_lt, iff_false] <;> omega

/-- A table with two ports of one address, and an IPv6 address. -/
theorem netaddr_table_ports :
    ∃ key : HostAddr,
      (netaddrFromIpv4 (ipv4Parse (ipv4Text 0xC0A80001 ++ [])).2.2 22).map Netaddr.addr =
          some key.addr ∧
      ∃ result lower upper, lower ≤ upper ∧
        (∀ fuel ≥ 6, SortKind.shell.sort (netaddrOrder ⟨_, firstDifference_signs⟩).cmp fuel
          [ipv4Host 0xC0A80001 80, ipv4Host 0xC0A80001 22,
            ⟨⟨.inet6, 0, List.replicate 16 1⟩, rfl⟩] = some result) ∧
        ((result.drop lower).take (upper - lower)).length = 2 := by
  have htail : ∀ c ∈ ([] : List UInt8).head?, isdigit c = false := nofun
  obtain ⟨key, hkey, result, lower, upper, hle, hrun, -, -, -, hsame, -⟩ :=
    netaddr_table ⟨_, firstDifference_signs⟩ .shell
      [ipv4Host 0xC0A80001 80, ipv4Host 0xC0A80001 22, ⟨⟨.inet6, 0, List.replicate 16 1⟩, rfl⟩]
      (fun _ => by decide) (show 0xC0A80001 < 2 ^ 32 by decide) 22 htail
  refine ⟨key, hkey, result, lower, upper, hle, hrun, ?_⟩
  rw [hsame.length_eq]
  decide

end Wifimodem
