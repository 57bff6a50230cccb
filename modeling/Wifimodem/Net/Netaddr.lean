import Wifimodem.Lib.ByteBlock
import Wifimodem.Lib.LittleEndian

/-!
# Network addresses

`getaddrinfo` is not part of the program. What it returns is a result code with, in
the case of success, the first address of its list.
-/

namespace Wifimodem

inductive AddrFamily where
  | inet | inet6
  | other (value : Nat)
deriving DecidableEq, Repr

/-- The port is in network order. -/
structure Sockaddr where
  family : AddrFamily
  port : Nat
  addr : List UInt8
deriving DecidableEq, Repr

structure Netaddr where
  addr : Sockaddr
  length : Nat
deriving DecidableEq, Repr

/-- The bytes of an address that has been cleared. -/
def netaddrZero : Netaddr := ⟨⟨.other 0, 0, []⟩, 0⟩

def sockaddrInSize : Nat := 16
def sockaddrIn6Size : Nat := 28

def htons (port : Nat) : Nat := LittleEndian.swap 2 port

def netaddrFromAddr (sa : Sockaddr) (port : Nat) : Netaddr × Int :=
  match sa.family with
  | .inet => (⟨{ sa with port := htons port }, sockaddrInSize⟩, 0)
  | .inet6 => (⟨{ sa with port := htons port }, sockaddrIn6Size⟩, 0)
  | .other _ => (netaddrZero, -1)

/-- What `getaddrinfo` comes to. An error is any code but zero. -/
inductive Resolution where
  | failed (rv : Int) (nonzero : rv ≠ 0)
  | found (sa : Sockaddr)

namespace Resolution

def rv : Resolution → Int
  | .failed rv _ => rv
  | .found _ => 0

def info : Resolution → Option Sockaddr
  | .failed _ _ => none
  | .found sa => some sa

/-- The resolver has failed, with a code that is positive. -/
def eaiFail : Resolution := .failed 202 (by decide)

end Resolution

/-- The name as it is read back from the scratch block, and the block. -/
def resolveName (hostname : Block UInt8) (host : List UInt8) : Block UInt8 × List UInt8 :=
  let hostname := hostname.store 0 host
  let hostname := hostname.store host.length [0]
  hostname.loadUntil (· = 0)

/-- The address, the result and the scratch block. What `netaddr_from_addr` returns is
not looked at. -/
def netaddrResolve (hostname : Block UInt8) (getaddrinfo : List UInt8 → Resolution)
    (host : List UInt8) (port : Nat) : Netaddr × Int × Block UInt8 :=
  let (hostname, name) := resolveName hostname host
  let outcome := getaddrinfo name
  match outcome.info with
  | some sa => ((netaddrFromAddr sa port).1, outcome.rv, hostname)
  | none => (netaddrZero, outcome.rv, hostname)

/-- The address that a name stands for, if it has one of the two families. -/
def Resolution.address (outcome : Resolution) (port : Nat) : Option Sockaddr :=
  outcome.info.bind fun sa =>
    match netaddrFromAddr sa port with
    | (a, 0) => some a.addr
    | _ => none

variable {hostname : Block UInt8} {host : List UInt8}

theorem netaddrResolve_eq (hostname : Block UInt8) (getaddrinfo : List UInt8 → Resolution)
    (host : List UInt8) (port : Nat) :
    (netaddrResolve hostname getaddrinfo host port).1.addr =
        ((getaddrinfo (resolveName hostname host).2).address port).getD netaddrZero.addr ∧
      (netaddrResolve hostname getaddrinfo host port).2.1 =
        (getaddrinfo (resolveName hostname host).2).rv ∧
      (netaddrResolve hostname getaddrinfo host port).2.2 = (resolveName hostname host).1 := by
  rw [netaddrResolve, Resolution.address]
  generalize resolveName hostname host = read
  obtain ⟨block, name⟩ := read
  simp only
  cases getaddrinfo name with
  | failed rv nonzero => exact ⟨rfl, rfl, rfl⟩
  | found sa =>
    obtain ⟨family, saPort, addr⟩ := sa
    cases family <;> exact ⟨rfl, rfl, rfl⟩

/-- An address that stands for a name is not a cleared one. -/
theorem address_ne_zero {outcome : Resolution} {port : Nat} {a : Sockaddr}
    (h : outcome.address port = some a) : a ≠ netaddrZero.addr := by
  cases outcome with
  | failed rv nonzero => cases h
  | found sa =>
    obtain ⟨family, saPort, addr⟩ := sa
    cases family with
    | inet =>
      obtain rfl := Option.some.inj h
      intro hzero
      cases congrArg Sockaddr.family hzero
    | inet6 =>
      obtain rfl := Option.some.inj h
      intro hzero
      cases congrArg Sockaddr.family hzero
    | other value => cases h

/-- The name and its zero have to fit. -/
theorem fault_resolveName (hfault : hostname.fault = false) (host : List UInt8) :
    (resolveName hostname host).1.fault = false ↔ host.length < hostname.size := by
  rw [resolveName, Block.fault_loadUntil]
  have hsize : (hostname.store 0 host).size = hostname.size := Block.size_store _ _ _
  constructor
  · rintro ⟨h, -⟩
    by_contra hlong
    rw [Block.fault_store_of_gt (by rw [hsize, List.length_singleton]; omega)] at h
    cases h
  · intro hlt
    have hname : 0 + host.length ≤ hostname.size := by omega
    have hzero : host.length + [(0 : UInt8)].length ≤ (hostname.store 0 host).size := by
      rw [hsize, List.length_singleton]
      omega
    refine ⟨by rw [Block.fault_store hzero, Block.fault_store hname, hfault], 0, ?_, rfl⟩
    rw [Block.store_of_le hzero]
    exact List.mem_append_left _ (List.mem_append_right _ (List.mem_singleton_self 0))

end Wifimodem
