import Wifimodem.Core.Logger
import Wifimodem.Lib.Traced
import Wifimodem.Net.Netaddr

/-!
# Opening a socket

The calls into the network stack are reported in their order. None of those that may
fail is made twice, so one result for each says how they go.
-/

namespace Wifimodem

open Traced

inductive NetCall where
  | socket (family : AddrFamily) (type proto : Int)
  | bind (sock : Int) (addr : Sockaddr) (len : Nat)
  | listen (sock backlog : Int)
  | connect (sock : Int) (addr : Sockaddr) (len : Nat)
  | getfl (sock : Int)
  | setfl (sock : Int) (flags : BitVec 32)
  | close (sock : Int)
deriving DecidableEq

structure SocketEnv where
  socket : Int
  bind : Int
  listen : Int
  connect : Int
  getfl : BitVec 32

def socklen : AddrFamily → Nat
  | .inet => sockaddrInSize
  | .inet6 => sockaddrIn6Size
  | .other _ => 0

def netCall (call : NetCall) (rc : Int) : Traced NetCall Bool := do
  let rc ← touch call rc
  pure (decide (0 ≤ rc))

/-- A call that is asked for by giving an address. -/
def addrCall (call : Sockaddr → NetCall) (rc : Int) (len : Nat) :
    Option Sockaddr → Traced NetCall Bool
  | none => pure true
  | some addr => if len = 0 then pure false else netCall (call addr) rc

section
variable (env : SocketEnv) (sock : Int)

def socketBind (len : Nat) (laddr : Option Sockaddr) : Traced NetCall Bool :=
  addrCall (fun addr => .bind sock addr len) env.bind len laddr

def socketListen (backlog : Int) : Traced NetCall Bool :=
  if backlog ≥ 0 then netCall (.listen sock backlog) env.listen else pure true

def socketConnect (len : Nat) (haddr : Option Sockaddr) : Traced NetCall Bool :=
  addrCall (fun addr => .connect sock addr len) env.connect len haddr

/-- The calls up to the first one that fails. -/
def socketSetUp (len : Nat) (haddr laddr : Option Sockaddr) (backlog : Int) :
    Traced NetCall Bool :=
  andThen (socketBind env sock len laddr)
    (andThen (socketListen env sock backlog) (socketConnect env sock len haddr))

def socketSetFlags (flags : BitVec 32) : Traced NetCall Unit :=
  if flags ≠ 0 then do
    let sockflags ← touch (.getfl sock) env.getfl
    if sockflags.toInt ≥ 0 then touch (.setfl sock (sockflags ||| flags)) () else pure ()
  else pure ()

end

def socketOpenAddr (env : SocketEnv) (family : AddrFamily) (type proto : Int)
    (haddr laddr : Option Sockaddr) (backlog : Int) (flags : BitVec 32) : Traced NetCall Int := do
  let sock ← touch (.socket family type proto) env.socket
  if sock < 0 then pure (-1)
  else do
    let done ← socketSetUp env sock (socklen family) haddr laddr backlog
    if done then do
      socketSetFlags env sock flags
      pure sock
    else do
      touch (.close sock) ()
      pure (-1)

/-- A name and a port, with the block that the name is copied to and the resolver. -/
structure NameArg where
  name : List UInt8
  port : Nat
  block : Memblock
  getaddrinfo : List UInt8 → Resolution

/-- A name that is not given comes to no address and no error. -/
def NameArg.resolve : Option NameArg → Option Sockaddr × Int
  | none => (none, 0)
  | some n =>
    let (a, rv, _) := netaddrResolve n.block.data n.getaddrinfo n.name n.port
    (some a.addr, rv)

def socketOpenHost (env : SocketEnv) (family : AddrFamily) (type proto : Int)
    (host localHost : Option NameArg) (backlog : Int) (flags : BitVec 32) :
    Traced NetCall Int :=
  let (haddr, rv) := NameArg.resolve host
  if rv < 0 then pure (-1)
  else
    let (laddr, rv) := NameArg.resolve localHost
    if rv < 0 then pure (-1)
    else socketOpenAddr env family type proto haddr laddr backlog flags

/-! ## What a caller relies on -/

namespace NameArg

def outcome (n : NameArg) : Resolution := n.getaddrinfo (resolveName n.block.data n.name).2

/-- The address that the name stands for. -/
def address (n : NameArg) : Option Sockaddr := n.outcome.address n.port

def Unresolved (arg : Option NameArg) : Prop := ∃ n ∈ arg, n.address = none

/-- The result of the resolver is not taken for an error. -/
def Passes (arg : Option NameArg) : Prop := ∀ n ∈ arg, 0 ≤ n.outcome.rv

end NameArg

/-- A socket that is returned is open and does all that was asked for. Otherwise what was
opened is closed. No address is used but those of the names. -/
structure OpensRight (env : SocketEnv) (family : AddrFamily) (host localHost : Option NameArg)
    (backlog : Int) (run : Traced NetCall Int) : Prop where
  returned : 0 ≤ run.value → run.value = env.socket ∧ .close env.socket ∉ run.log
  bound : 0 ≤ run.value → ∀ n ∈ localHost, 0 ≤ env.bind ∧
    ∃ a, n.address = some a ∧ .bind run.value a (socklen family) ∈ run.log
  listening : 0 ≤ run.value → 0 ≤ backlog → 0 ≤ env.listen ∧ .listen run.value backlog ∈ run.log
  connected : 0 ≤ run.value → ∀ n ∈ host, 0 ≤ env.connect ∧
    ∃ a, n.address = some a ∧ .connect run.value a (socklen family) ∈ run.log
  failed : run.value < 0 → run.value = -1 ∧
    ∀ type proto, .socket family type proto ∈ run.log → 0 ≤ env.socket →
      .close env.socket ∈ run.log
  bindsResolved : ∀ sock a len, .bind sock a len ∈ run.log →
    ∃ n ∈ localHost, n.address = some a
  connectsResolved : ∀ sock a len, .connect sock a len ∈ run.log →
    ∃ n ∈ host, n.address = some a

/-- A name without an address is not taken for an error, and nothing fails before its
address is used. -/
structure ReachesUnresolved (env : SocketEnv) (family : AddrFamily)
    (host localHost : Option NameArg) (backlog : Int) : Prop where
  hostPasses : NameArg.Passes host
  localPasses : NameArg.Passes localHost
  opened : 0 ≤ env.socket
  hasLength : socklen family ≠ 0
  unresolved : NameArg.Unresolved localHost ∨
    (NameArg.Unresolved host ∧ (localHost ≠ none → 0 ≤ env.bind) ∧
      (0 ≤ backlog → 0 ≤ env.listen))

/-! ## The calls -/

section
variable {call : NetCall} {rc : Int} {len : Nat} {make : Sockaddr → NetCall}
  {addr : Option Sockaddr}

theorem netCall_log (call : NetCall) (rc : Int) : (netCall call rc).log = [call] := rfl

theorem netCall_value (call : NetCall) (rc : Int) :
    (netCall call rc).value = true ↔ 0 ≤ rc := decide_eq_true_iff

theorem addrCall_value : (addrCall make rc len addr).value = true ↔
    (addr ≠ none → len ≠ 0 ∧ 0 ≤ rc) := by
  cases addr with
  | none => simp [addrCall]
  | some a =>
    rw [addrCall]
    by_cases hlen : len = 0
    · simp [hlen]
    · simp [hlen, netCall_value]

theorem mem_addrCall : call ∈ (addrCall make rc len addr).log ↔
    len ≠ 0 ∧ ∃ a, addr = some a ∧ call = make a := by
  cases addr with
  | none => simp [addrCall, log_pure]
  | some a =>
    rw [addrCall]
    by_cases hlen : len = 0
    · simp [hlen, log_pure]
    · simp [hlen, netCall_log]

end

section
variable {env : SocketEnv} {sock : Int} {backlog : Int} {flags : BitVec 32} {call : NetCall}

theorem socketListen_value : (socketListen env sock backlog).value = true ↔
    (0 ≤ backlog → 0 ≤ env.listen) := by
  rw [socketListen]
  by_cases hbacklog : backlog ≥ 0
  · rw [if_pos hbacklog, netCall_value]
    exact ⟨fun h _ => h, fun h => h hbacklog⟩
  · rw [if_neg hbacklog]
    exact iff_of_true rfl fun h => absurd h hbacklog

theorem mem_socketListen : call ∈ (socketListen env sock backlog).log ↔
    0 ≤ backlog ∧ call = .listen sock backlog := by
  rw [socketListen]
  by_cases hbacklog : backlog ≥ 0
  · rw [if_pos hbacklog, netCall_log, List.mem_singleton]
    exact (and_iff_right hbacklog).symm
  · rw [if_neg hbacklog, log_pure]
    exact iff_of_false List.not_mem_nil fun h => hbacklog h.1

theorem mem_socketSetFlags (h : call ∈ (socketSetFlags env sock flags).log) :
    call = .getfl sock ∨ ∃ flags, call = .setfl sock flags := by
  rw [socketSetFlags] at h
  split at h
  · obtain h | h := List.mem_append.mp h
    · exact .inl (List.mem_singleton.mp h)
    · beta_reduce at h
      split at h
      · exact .inr ⟨_, List.mem_singleton.mp h⟩
      · cases h
  · cases h

end

/-- What is asked for before the socket is returned. -/
structure SetUp (env : SocketEnv) (len : Nat) (haddr laddr : Option Sockaddr) (backlog : Int) :
    Prop where
  bind : laddr ≠ none → len ≠ 0 ∧ 0 ≤ env.bind
  listen : 0 ≤ backlog → 0 ≤ env.listen
  connect : haddr ≠ none → len ≠ 0 ∧ 0 ≤ env.connect

section
variable {env : SocketEnv} {family : AddrFamily} {type proto : Int}
  {haddr laddr : Option Sockaddr} {backlog : Int} {flags : BitVec 32}

theorem socketSetUp_value {sock : Int} {len : Nat} :
    (socketSetUp env sock len haddr laddr backlog).value = true ↔
      SetUp env len haddr laddr backlog := by
  rw [socketSetUp, value_andThen, value_andThen, Bool.and_eq_true, Bool.and_eq_true, socketBind,
    socketConnect, addrCall_value, addrCall_value, socketListen_value]
  exact ⟨fun h => ⟨h.1, h.2.1, h.2.2⟩, fun h => ⟨h.bind, h.listen, h.connect⟩⟩

theorem mem_socketSetUp {sock : Int} {len : Nat} {call : NetCall} :
    call ∈ (socketSetUp env sock len haddr laddr backlog).log ↔
      (len ≠ 0 ∧ ∃ a, laddr = some a ∧ call = .bind sock a len) ∨
      ((laddr ≠ none → len ≠ 0 ∧ 0 ≤ env.bind) ∧
        ((0 ≤ backlog ∧ call = .listen sock backlog) ∨
          ((0 ≤ backlog → 0 ≤ env.listen) ∧
            len ≠ 0 ∧ ∃ a, haddr = some a ∧ call = .connect sock a len))) := by
  rw [socketSetUp, mem_log_andThen, mem_log_andThen, socketBind, socketConnect, addrCall_value,
    socketListen_value, mem_addrCall, mem_addrCall, mem_socketListen]

/-- A socket that cannot be set up is closed. -/
theorem socketOpenAddr_cases :
    (env.socket < 0 ∧
      socketOpenAddr env family type proto haddr laddr backlog flags =
        ⟨-1, [.socket family type proto]⟩) ∨
    (0 ≤ env.socket ∧ SetUp env (socklen family) haddr laddr backlog ∧
      socketOpenAddr env family type proto haddr laddr backlog flags =
        ⟨env.socket, .socket family type proto ::
          ((socketSetUp env env.socket (socklen family) haddr laddr backlog).log ++
            (socketSetFlags env env.socket flags).log)⟩) ∨
    (0 ≤ env.socket ∧ ¬SetUp env (socklen family) haddr laddr backlog ∧
      socketOpenAddr env family type proto haddr laddr backlog flags =
        ⟨-1, .socket family type proto ::
          ((socketSetUp env env.socket (socklen family) haddr laddr backlog).log ++
            [.close env.socket])⟩) := by
  have hvalue := @socketSetUp_value env haddr laddr backlog env.socket (socklen family)
  simp only [socketOpenAddr, bind_eq]
  split
  · rename_i hsock
    exact .inl ⟨hsock, rfl⟩
  · rename_i hsock
    have hopen : 0 ≤ env.socket := Int.not_lt.mp hsock
    right
    split
    · rename_i hdone
      refine .inl ⟨hopen, hvalue.mp hdone, ?_⟩
      simp only [log_pure, List.append_nil, value_pure]
      rfl
    · rename_i hfailed
      exact .inr ⟨hopen, fun h => hfailed (hvalue.mpr h), rfl⟩

theorem socketOpenAddr_value :
    (0 ≤ env.socket ∧ SetUp env (socklen family) haddr laddr backlog ∧
      (socketOpenAddr env family type proto haddr laddr backlog flags).value = env.socket) ∨
    (¬(0 ≤ env.socket ∧ SetUp env (socklen family) haddr laddr backlog) ∧
      (socketOpenAddr env family type proto haddr laddr backlog flags).value = -1) := by
  obtain ⟨hsock, hrun⟩ | ⟨hopen, hsetup, hrun⟩ | ⟨hopen, hsetup, hrun⟩ :=
    @socketOpenAddr_cases env family type proto haddr laddr backlog flags
  · exact .inr ⟨fun h => absurd h.1 (Int.not_le.mpr hsock), congrArg Traced.value hrun⟩
  · exact .inl ⟨hopen, hsetup, congrArg Traced.value hrun⟩
  · exact .inr ⟨fun h => hsetup h.2, congrArg Traced.value hrun⟩

theorem mem_socketOpenAddr {call : NetCall} :
    call ∈ (socketOpenAddr env family type proto haddr laddr backlog flags).log ↔
      call = .socket family type proto ∨
      (0 ≤ env.socket ∧
        (call ∈ (socketSetUp env env.socket (socklen family) haddr laddr backlog).log ∨
          (SetUp env (socklen family) haddr laddr backlog ∧
            call ∈ (socketSetFlags env env.socket flags).log) ∨
          (¬SetUp env (socklen family) haddr laddr backlog ∧ call = .close env.socket))) := by
  obtain ⟨hsock, hrun⟩ | ⟨hopen, hsetup, hrun⟩ | ⟨hopen, hsetup, hrun⟩ :=
    @socketOpenAddr_cases env family type proto haddr laddr backlog flags
  · rw [hrun, List.mem_singleton]
    exact (or_iff_left fun h => Int.not_le.mpr hsock h.1).symm
  · rw [hrun, List.mem_cons, List.mem_append, and_iff_right hopen, and_iff_right hsetup]
    exact or_congr_right (or_congr_right (or_iff_left fun h => h.1 hsetup).symm)
  · rw [hrun, List.mem_cons, List.mem_append, and_iff_right hopen, and_iff_right hsetup,
      List.mem_singleton]
    exact or_congr_right (or_congr_right (or_iff_right fun h => hsetup h.1).symm)

/-- Between the opening of the socket and what is done at the end is the set-up. -/
theorem mem_setUp_iff {call : NetCall} (hsocket : call ≠ .socket family type proto)
    (hgetfl : call ≠ .getfl env.socket) (hsetfl : ∀ flags, call ≠ .setfl env.socket flags)
    (hclose : call ≠ .close env.socket) :
    call ∈ (socketOpenAddr env family type proto haddr laddr backlog flags).log ↔
      0 ≤ env.socket ∧
        call ∈ (socketSetUp env env.socket (socklen family) haddr laddr backlog).log := by
  have hflags : call ∉ (socketSetFlags env env.socket flags).log := by
    intro h
    obtain h | ⟨flags, h⟩ := mem_socketSetFlags h
    · exact hgetfl h
    · exact hsetfl flags h
  rw [mem_socketOpenAddr, or_iff_right hsocket]
  refine and_congr_right fun _ => or_iff_left ?_
  rintro (⟨-, h⟩ | ⟨-, h⟩)
  · exact hflags h
  · exact hclose h

variable {sock : Int} {a : Sockaddr} {len : Nat}

theorem bind_mem_iff :
    .bind sock a len ∈ (socketOpenAddr env family type proto haddr laddr backlog flags).log ↔
      0 ≤ env.socket ∧ socklen family ≠ 0 ∧ laddr = some a ∧ sock = env.socket ∧
        len = socklen family := by
  rw [mem_setUp_iff (by simp) (by simp) (by simp) (by simp), mem_socketSetUp]
  constructor
  · rintro ⟨hopen, ⟨hlen, b, hb, hcall⟩ | ⟨-, ⟨-, h⟩ | ⟨-, -, b, -, h⟩⟩⟩
    · cases hcall
      exact ⟨hopen, hlen, hb, rfl, rfl⟩
    · cases h
    · cases h
  · rintro ⟨hopen, hlen, hb, rfl, rfl⟩
    exact ⟨hopen, .inl ⟨hlen, a, hb, rfl⟩⟩

theorem listen_mem (hopen : 0 ≤ env.socket)
    (hsetup : SetUp env (socklen family) haddr laddr backlog) (hbacklog : 0 ≤ backlog) :
    .listen env.socket backlog ∈
      (socketOpenAddr env family type proto haddr laddr backlog flags).log :=
  mem_socketOpenAddr.mpr (.inr ⟨hopen, .inl (mem_socketSetUp.mpr
    (.inr ⟨hsetup.bind, .inl ⟨hbacklog, rfl⟩⟩))⟩)

theorem connect_mem_iff :
    .connect sock a len ∈ (socketOpenAddr env family type proto haddr laddr backlog flags).log ↔
      0 ≤ env.socket ∧ (laddr ≠ none → socklen family ≠ 0 ∧ 0 ≤ env.bind) ∧
        (0 ≤ backlog → 0 ≤ env.listen) ∧ socklen family ≠ 0 ∧ haddr = some a ∧
        sock = env.socket ∧ len = socklen family := by
  rw [mem_setUp_iff (by simp) (by simp) (by simp) (by simp), mem_socketSetUp]
  constructor
  · rintro ⟨hopen, ⟨-, b, -, h⟩ | ⟨hbind, ⟨-, h⟩ | ⟨hlisten, hlen, b, hb, hcall⟩⟩⟩
    · cases h
    · cases h
    · cases hcall
      exact ⟨hopen, hbind, hlisten, hlen, hb, rfl, rfl⟩
  · rintro ⟨hopen, hbind, hlisten, hlen, hb, rfl, rfl⟩
    exact ⟨hopen, .inr ⟨hbind, .inr ⟨hlisten, hlen, a, hb, rfl⟩⟩⟩

theorem close_mem_iff :
    .close sock ∈ (socketOpenAddr env family type proto haddr laddr backlog flags).log ↔
      0 ≤ env.socket ∧ ¬SetUp env (socklen family) haddr laddr backlog ∧ sock = env.socket := by
  have hflags : .close sock ∉ (socketSetFlags env env.socket flags).log := by
    intro h
    obtain h | ⟨flags, h⟩ := mem_socketSetFlags h <;> cases h
  rw [mem_socketOpenAddr, mem_socketSetUp]
  constructor
  · rintro (h | ⟨hopen, (⟨-, b, -, h⟩ | ⟨-, ⟨-, h⟩ | ⟨-, -, b, -, h⟩⟩) | ⟨-, h⟩ | ⟨hsetup, hcall⟩⟩)
    · cases h
    · cases h
    · cases h
    · cases h
    · exact absurd h hflags
    · cases hcall
      exact ⟨hopen, hsetup, rfl⟩
  · rintro ⟨hopen, hsetup, rfl⟩
    exact .inr ⟨hopen, .inr (.inr ⟨hsetup, rfl⟩)⟩

end

/-! ## The names -/

namespace NameArg

/-- The address that is used for the name; it is cleared if there is none. -/
def used (n : NameArg) : Sockaddr := n.address.getD netaddrZero.addr

variable {arg : Option NameArg} {a : Sockaddr}

theorem resolve_some (n : NameArg) : resolve (some n) = (some n.used, n.outcome.rv) := by
  obtain ⟨haddr, hrv, -⟩ := netaddrResolve_eq n.block.data n.getaddrinfo n.name n.port
  exact Prod.ext (congrArg some haddr) hrv

theorem passes_none : Passes none := by
  intro n hn
  cases hn

theorem resolve_passes (h : Passes arg) :
    ¬(resolve arg).2 < 0 ∧ (resolve arg).1 = arg.map used := by
  cases arg with
  | none => exact ⟨Int.lt_irrefl 0, rfl⟩
  | some n =>
    rw [resolve_some]
    exact ⟨Int.not_lt.mpr (h n rfl), rfl⟩

theorem resolve_fails (h : ¬Passes arg) : (resolve arg).2 < 0 := by
  cases arg with
  | none => exact absurd passes_none h
  | some n =>
    rw [resolve_some]
    apply Int.not_le.mp
    intro hrv
    apply h
    rintro m ⟨⟩
    exact hrv

theorem resolved_of_used (h : arg.map used = some a) (hresolved : ¬Unresolved arg) :
    ∃ n ∈ arg, n.address = some a := by
  obtain ⟨n, rfl, rfl⟩ := Option.map_eq_some_iff.mp h
  refine ⟨n, rfl, ?_⟩
  cases haddr : n.address with
  | none => exact absurd ⟨n, rfl, haddr⟩ hresolved
  | some a => rw [used, haddr, Option.getD_some]

theorem used_of_unresolved (h : Unresolved arg) : arg.map used = some netaddrZero.addr := by
  obtain ⟨n, rfl, haddr⟩ := h
  rw [Option.map_some, used, haddr, Option.getD_none]

theorem not_resolved_zero : ¬∃ n ∈ arg, n.address = some netaddrZero.addr := by
  rintro ⟨n, -, h⟩
  exact address_ne_zero h rfl

end NameArg

section
variable {env : SocketEnv} {family : AddrFamily} {type proto : Int}
  {host localHost : Option NameArg} {backlog : Int} {flags : BitVec 32}

theorem socketOpenHost_passes (hhost : NameArg.Passes host) (hlocal : NameArg.Passes localHost) :
    socketOpenHost env family type proto host localHost backlog flags =
      socketOpenAddr env family type proto (host.map NameArg.used) (localHost.map NameArg.used)
        backlog flags := by
  obtain ⟨hrv, haddr⟩ := NameArg.resolve_passes hhost
  obtain ⟨hlrv, hladdr⟩ := NameArg.resolve_passes hlocal
  simp only [socketOpenHost, if_neg hrv, if_neg hlrv, haddr, hladdr]

theorem socketOpenHost_fails (h : ¬(NameArg.Passes host ∧ NameArg.Passes localHost)) :
    socketOpenHost env family type proto host localHost backlog flags = pure (-1) := by
  by_cases hhost : NameArg.Passes host
  · obtain ⟨hrv, -⟩ := NameArg.resolve_passes hhost
    have hlrv := NameArg.resolve_fails fun hlocal => h ⟨hhost, hlocal⟩
    simp only [socketOpenHost, if_neg hrv, if_pos hlrv]
  · simp only [socketOpenHost, if_pos (NameArg.resolve_fails hhost)]

/-- Nothing is asked of the stack. -/
theorem opensRight_fails :
    OpensRight env family host localHost backlog (pure (-1) : Traced NetCall Int) := by
  have hvalue : ¬0 ≤ (pure (-1) : Traced NetCall Int).value := by decide
  constructor
  · intro h
    exact absurd h hvalue
  · intro h
    exact absurd h hvalue
  · intro h
    exact absurd h hvalue
  · intro h
    exact absurd h hvalue
  · intro _
    refine ⟨rfl, ?_⟩
    intro type proto h
    cases h
  · intro sock a len h
    cases h
  · intro sock a len h
    cases h

theorem socketOpenAddr_returned {haddr laddr : Option Sockaddr}
    (h : 0 ≤ (socketOpenAddr env family type proto haddr laddr backlog flags).value) :
    0 ≤ env.socket ∧ SetUp env (socklen family) haddr laddr backlog ∧
      (socketOpenAddr env family type proto haddr laddr backlog flags).value = env.socket := by
  obtain hreturned | ⟨-, hvalue⟩ :=
    @socketOpenAddr_value env family type proto haddr laddr backlog flags
  · exact hreturned
  · rw [hvalue] at h
    exact absurd h (by decide)

section
variable {sock : Int} {a : Sockaddr} {len : Nat}
  (hlocal : 0 ≤ env.socket → socklen family ≠ 0 → ¬NameArg.Unresolved localHost)
  (hhost : 0 ≤ env.socket → socklen family ≠ 0 → (localHost ≠ none → 0 ≤ env.bind) →
    (0 ≤ backlog → 0 ≤ env.listen) → ¬NameArg.Unresolved host)

include hlocal in
theorem binds_resolved (h : .bind sock a len ∈ (socketOpenAddr env family type proto
    (host.map NameArg.used) (localHost.map NameArg.used) backlog flags).log) :
    ∃ n ∈ localHost, n.address = some a := by
  obtain ⟨hopen, hlen, hladdr, -, -⟩ := bind_mem_iff.mp h
  exact NameArg.resolved_of_used hladdr (hlocal hopen hlen)

include hhost in
theorem connects_resolved (h : .connect sock a len ∈ (socketOpenAddr env family type proto
    (host.map NameArg.used) (localHost.map NameArg.used) backlog flags).log) :
    ∃ n ∈ host, n.address = some a := by
  obtain ⟨hopen, hbind, hlisten, hlen, hhaddr, -, -⟩ := connect_mem_iff.mp h
  refine NameArg.resolved_of_used hhaddr (hhost hopen hlen ?_ hlisten)
  intro hgiven
  exact (hbind fun hnone => hgiven (Option.map_eq_none_iff.mp hnone)).2

include hlocal hhost in
/-- No cleared address is used if each name that is reached has an address. -/
theorem opensRight_of_resolved :
    OpensRight env family host localHost backlog
      (socketOpenAddr env family type proto (host.map NameArg.used)
        (localHost.map NameArg.used) backlog flags) := by
  refine ⟨?_, ?_, ?_, ?_, ?_, fun _ _ _ => binds_resolved hlocal,
    fun _ _ _ => connects_resolved hhost⟩
  · intro h
    obtain ⟨-, hsetup, hvalue⟩ := socketOpenAddr_returned h
    exact ⟨hvalue, fun hclose => (close_mem_iff.mp hclose).2.1 hsetup⟩
  · rintro h n rfl
    obtain ⟨hopen, hsetup, hvalue⟩ := socketOpenAddr_returned h
    obtain ⟨hlen, hbind⟩ := hsetup.bind (Option.some_ne_none _)
    have hcall : .bind env.socket n.used (socklen family) ∈ (socketOpenAddr env family type proto
        (host.map NameArg.used) ((some n).map NameArg.used) backlog flags).log :=
      bind_mem_iff.mpr ⟨hopen, hlen, rfl, rfl, rfl⟩
    obtain ⟨m, ⟨⟩, haddr⟩ := binds_resolved hlocal hcall
    rw [hvalue]
    exact ⟨hbind, _, haddr, hcall⟩
  · intro h hbacklog
    obtain ⟨hopen, hsetup, hvalue⟩ := socketOpenAddr_returned h
    rw [hvalue]
    exact ⟨hsetup.listen hbacklog, listen_mem hopen hsetup hbacklog⟩
  · rintro h n rfl
    obtain ⟨hopen, hsetup, hvalue⟩ := socketOpenAddr_returned h
    obtain ⟨hlen, hconnect⟩ := hsetup.connect (Option.some_ne_none _)
    have hcall : .connect env.socket n.used (socklen family) ∈ (socketOpenAddr env family type
        proto ((some n).map NameArg.used) (localHost.map NameArg.used) backlog flags).log :=
      connect_mem_iff.mpr ⟨hopen, hsetup.bind, hsetup.listen, hlen, rfl, rfl, rfl⟩
    obtain ⟨m, ⟨⟩, haddr⟩ := connects_resolved hhost hcall
    rw [hvalue]
    exact ⟨hconnect, _, haddr, hcall⟩
  · intro h
    obtain ⟨hopen, hsetup, hvalue⟩ | ⟨hfailed, hvalue⟩ :=
      @socketOpenAddr_value env family type proto (host.map NameArg.used)
        (localHost.map NameArg.used) backlog flags
    · rw [hvalue] at h
      exact absurd hopen (Int.not_le.mpr h)
    · refine ⟨hvalue, ?_⟩
      intro _ _ _ hopen
      exact close_mem_iff.mpr ⟨hopen, fun hsetup => hfailed ⟨hopen, hsetup⟩, rfl⟩

end

/-- All goes well unless a name without an address is taken for resolved, and its address
is used. -/
theorem opensRight_iff (env : SocketEnv) (family : AddrFamily) (type proto : Int)
    (host localHost : Option NameArg) (backlog : Int) (flags : BitVec 32) :
    OpensRight env family host localHost backlog
        (socketOpenHost env family type proto host localHost backlog flags) ↔
      ¬ReachesUnresolved env family host localHost backlog := by
  by_cases hpass : NameArg.Passes host ∧ NameArg.Passes localHost
  · rw [socketOpenHost_passes hpass.1 hpass.2]
    constructor
    · rintro h ⟨-, -, hopen, hlen, hlocal | ⟨hhost, hbind, hlisten⟩⟩
      · have hcall := @bind_mem_iff env family type proto (host.map NameArg.used)
          (localHost.map NameArg.used) backlog flags
        exact NameArg.not_resolved_zero (h.bindsResolved _ _ _
          (bind_mem_iff.mpr ⟨hopen, hlen, NameArg.used_of_unresolved hlocal, rfl, rfl⟩))
      · refine NameArg.not_resolved_zero (h.connectsResolved _ _ _ (connect_mem_iff.mpr
          ⟨hopen, ?_, hlisten, hlen, NameArg.used_of_unresolved hhost, rfl, rfl⟩))
        intro hladdr
        exact ⟨hlen, hbind fun hnone => hladdr (by rw [hnone, Option.map_none])⟩
    · intro h
      apply opensRight_of_resolved
      · intro hopen hlen hlocal
        exact h ⟨hpass.1, hpass.2, hopen, hlen, .inl hlocal⟩
      · intro hopen hlen hbind hlisten hhost
        exact h ⟨hpass.1, hpass.2, hopen, hlen, .inr ⟨hhost, hbind, hlisten⟩⟩
  · rw [socketOpenHost_fails hpass]
    exact iff_of_true opensRight_fails fun h => hpass ⟨h.hostPasses, h.localPasses⟩

end

/-- A name that the resolver answers with one of its positive codes. -/
def unknownHost : NameArg :=
  ⟨['a'], 80, Memblock.zeros, fun _ => .eaiFail⟩

/-- The socket is connected to the address of all zeros. -/
theorem unknown_host_connected :
    ¬OpensRight ⟨3, 0, 0, 0, 0⟩ .inet (some unknownHost) none (-1)
      (socketOpenHost ⟨3, 0, 0, 0, 0⟩ .inet 1 0 (some unknownHost) none (-1) 0) := by
  intro h
  have hpass : NameArg.Passes (some unknownHost) := by
    rintro n ⟨⟩
    decide
  have hunresolved : NameArg.Unresolved (some unknownHost) := ⟨unknownHost, rfl, rfl⟩
  rw [socketOpenHost_passes hpass NameArg.passes_none] at h
  refine NameArg.not_resolved_zero (h.connectsResolved _ _ _ (connect_mem_iff.mpr
    ⟨by decide, ?_, ?_, by decide, NameArg.used_of_unresolved hunresolved, rfl, rfl⟩))
  · intro hladdr
    exact absurd rfl hladdr
  · intro hbacklog
    exact absurd hbacklog (by decide)

end Wifimodem
