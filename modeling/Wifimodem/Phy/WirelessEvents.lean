import Wifimodem.Lib.Transducer
import Wifimodem.Util.Net

/-!
# The handlers of driver events

Both handlers share the retry counter and the bits that a pending join waits
for. What they ask of the driver and what they log is listed in order.
-/

namespace Wifimodem

def maxRetries : Int := 10

structure EventBits where
  connected : Bool
  fail : Bool
deriving DecidableEq, Repr

/-- The globals of the handlers. `overflow` is set once the counter has been
decremented below the least `int`. -/
structure Join where
  retries : Int
  bits : EventBits
  overflow : Bool
deriving DecidableEq, Repr

structure IpInfo where
  ip : Nat
  netmask : Nat
  gw : Nat
deriving DecidableEq

inductive IpEvent where
  | staGotIp (info : IpInfo)
  | other (evid : Int)
deriving DecidableEq

inductive WifiEvent where
  | staStart
  | staDisconnected
  | apStaconnected (mac : MacAddr)
  | apStadisconnected (mac : MacAddr)
  | other (evid : Int)
deriving DecidableEq

inductive DriverEvent where
  | ip (ev : IpEvent)
  | wifi (ev : WifiEvent)
deriving DecidableEq

inductive JoinMessage where
  | ipv4Update (info : IpInfo)
  | starting
  | maximumRetries
  | retrying (retries : Int)
  | clientConnected (mac : MacAddr)
  | clientDisconnected (mac : MacAddr)
deriving DecidableEq

inductive JoinEffect where
  | log (msg : JoinMessage)
  | connect
  | setConnected
  | setFail
deriving DecidableEq

def eventNetif (j : Join) : IpEvent → Join × List JoinEffect
  | .staGotIp info =>
    ({ j with bits := { j.bits with connected := true } }, [.log (.ipv4Update info), .setConnected])
  | .other _ => (j, [])

def Join.decRetries (j : Join) : Join :=
  { j with retries := j.retries - 1, overflow := j.overflow || j.retries = -2 ^ 31 }

def eventWifi (j : Join) : WifiEvent → Join × List JoinEffect
  | .staStart => ({ j with retries := maxRetries }, [.log .starting, .connect])
  | .staDisconnected =>
    -- the counter is compared before and logged after it is decremented
    let j' := j.decRetries
    if j.retries < 0 then
      ({ j' with bits := { j'.bits with fail := true } }, [.log .maximumRetries, .setFail])
    else (j', [.log (.retrying j'.retries), .connect])
  | .apStaconnected mac => (j, [.log (.clientConnected mac)])
  | .apStadisconnected mac => (j, [.log (.clientDisconnected mac)])
  | .other _ => (j, [])

def handle (j : Join) : DriverEvent → Join × List JoinEffect
  | .ip ev => eventNetif j ev
  | .wifi ev => eventWifi j ev

/-! ## The retry budget -/

/-- The reconnects issued since the last event that restores the budget. -/
def countReconnects (issued : Nat) (effects : List JoinEffect) : DriverEvent → Nat
  | .wifi .staStart => 0
  | .ip (.staGotIp _) => 0
  | .wifi .staDisconnected => issued + effects.count .connect
  | _ => issued

def watch (w : Join × Nat) (ev : DriverEvent) : (Join × Nat) × List JoinEffect :=
  let (j, effects) := handle w.1 ev
  ((j, countReconnects w.2 effects ev), effects)

structure RetryLaw (w : Join × Nat) (ev : DriverEvent) : Prop where
  reconnects : ((watch w ev).1.2 : Int) ≤ maxRetries
  fail : .setFail ∈ (watch w ev).2 ↔ ev = .wifi .staDisconnected ∧ maxRetries ≤ w.2
  no_overflow : (watch w ev).1.1.overflow = false

instance (w : Join × Nat) (ev : DriverEvent) : Decidable (RetryLaw w ev) :=
  decidable_of_iff
    (((watch w ev).1.2 : Int) ≤ maxRetries ∧
      (.setFail ∈ (watch w ev).2 ↔ ev = .wifi .staDisconnected ∧ maxRetries ≤ w.2) ∧
      (watch w ev).1.1.overflow = false)
    ⟨fun h => ⟨h.1, h.2.1, h.2.2⟩, fun h => ⟨h.1, h.2, h.3⟩⟩

/-- The disconnects since the last start of the station, and how many of them
came before the last address since then. -/
structure Drops where
  total : Nat
  beforeJoin : Nat
deriving DecidableEq, Repr

def countDrops (d : Drops) : DriverEvent → Drops
  | .wifi .staStart => ⟨0, 0⟩
  | .wifi .staDisconnected => { d with total := d.total + 1 }
  | .ip (.staGotIp _) => { d with beforeJoin := d.total }
  | _ => d

/-- One more disconnect is treated as the budget demands: the counter runs out
after the eleventh, which is right if exactly one came before the join. -/
def Drops.Within (d : Drops) : Prop :=
  d.total < 10 ∨ (d.total = 10 ∧ 0 < d.beforeJoin) ∨
    (10 < d.total ∧ d.total < 2 ^ 31 + 10 ∧ d.beforeJoin = 1)

@[simp] theorem decRetries_overflow (j : Join) :
    j.decRetries.overflow = false ↔ j.overflow = false ∧ j.retries ≠ -2 ^ 31 := by
  simp [Join.decRetries]

theorem watch_staDisconnected (w : Join × Nat) : watch w (.wifi .staDisconnected) =
    if w.1.retries < 0 then
      (({ w.1.decRetries with bits := { w.1.bits with fail := true } }, w.2),
        [.log .maximumRetries, .setFail])
    else ((w.1.decRetries, w.2 + 1), [.log (.retrying w.1.decRetries.retries), .connect]) := by
  simp only [watch, handle, eventWifi]
  split <;> rfl

/-- The bit must come with the tenth reconnect behind it, and not before. -/
theorem retryLaw_staDisconnected (w : Join × Nat) : RetryLaw w (.wifi .staDisconnected) ↔
    (if w.1.retries < 0 then w.2 = 10 else w.2 < 10) ∧
      w.1.overflow = false ∧ w.1.retries ≠ -2 ^ 31 := by
  have hmax : maxRetries = 10 := rfl
  have hwatch := watch_staDisconnected w
  split at hwatch
  · rename_i hneg
    rw [if_pos hneg]
    constructor
    · rintro ⟨hrec, hfail, hno⟩
      rw [hwatch] at hrec hfail hno
      simp only at hrec
      obtain ⟨_, hten⟩ := hfail.mp (by simp)
      exact ⟨by omega, (decRetries_overflow _).mp hno⟩
    · rintro ⟨hten, hno⟩
      constructor
      · rw [hwatch, hten]
        decide
      · rw [hwatch, hten]
        exact iff_of_true (by simp) ⟨rfl, by decide⟩
      · rw [hwatch]
        exact (decRetries_overflow _).mpr hno
  · rename_i hnonneg
    rw [if_neg hnonneg]
    constructor
    · rintro ⟨hrec, _, hno⟩
      rw [hwatch] at hrec hno
      simp only at hrec
      exact ⟨by omega, (decRetries_overflow _).mp hno⟩
    · rintro ⟨hten, hno⟩
      constructor
      · rw [hwatch]
        simp only
        omega
      · rw [hwatch]
        refine iff_of_false (by simp) ?_
        rintro ⟨_, h⟩
        omega
      · rw [hwatch]
        exact (decRetries_overflow _).mpr hno

structure Follows (w : Join × Nat) (d : Drops) : Prop where
  retries : w.1.retries = maxRetries - d.total
  issued : w.2 + min d.beforeJoin 11 = min d.total 11
  issued_le : w.2 ≤ 10
  beforeJoin_le : d.beforeJoin ≤ d.total
  total_le : d.total ≤ 2 ^ 31 + 10
  no_overflow : w.1.overflow = false

section
variable {w : Join × Nat} {d : Drops}

theorem follows_staStart (hover : w.1.overflow = false) :
    Follows (watch w (.wifi .staStart)).1 ⟨0, 0⟩ :=
  ⟨rfl, rfl, Nat.zero_le 10, Nat.le_refl 0, Nat.zero_le _, hover⟩

theorem retryLaw_iff_within (h : Follows w d) : RetryLaw w (.wifi .staDisconnected) ↔ d.Within := by
  obtain ⟨hretries, hissued, hle, hbefore, htotal, hover⟩ := h
  have hmax : maxRetries = 10 := rfl
  rw [retryLaw_staDisconnected, Drops.Within]
  split
  · constructor
    · rintro ⟨hten, _, hmin⟩
      omega
    · intro hwithin
      exact ⟨by omega, hover, by omega⟩
  · constructor
    · rintro ⟨hlt, _⟩
      omega
    · intro hwithin
      exact ⟨by omega, hover, by omega⟩

theorem retryLaw_staStart (hover : w.1.overflow = false) : RetryLaw w (.wifi .staStart) := by
  have hzero : ((0 : Nat) : Int) ≤ maxRetries := by decide
  refine ⟨hzero, iff_of_false (by simp [watch, handle, eventWifi]) ?_, hover⟩
  rintro ⟨h, _⟩
  cases h

theorem retryLaw_other (h : Follows w d) {ev : DriverEvent} (hev : ev ≠ .wifi .staDisconnected) :
    RetryLaw w ev := by
  have hle : (w.2 : Int) ≤ maxRetries := Int.ofNat_le.mpr h.issued_le
  have hzero : ((0 : Nat) : Int) ≤ maxRetries := by decide
  have hcause : ¬(ev = .wifi .staDisconnected ∧ maxRetries ≤ w.2) := fun hc => hev hc.1
  cases ev with
  | ip ev =>
    cases ev with
    | staGotIp info =>
      exact ⟨hzero, iff_of_false (by simp [watch, handle, eventNetif]) hcause, h.no_overflow⟩
    | other evid => exact ⟨hle, iff_of_false List.not_mem_nil hcause, h.no_overflow⟩
  | wifi ev =>
    cases ev with
    | staStart => exact retryLaw_staStart h.no_overflow
    | staDisconnected => exact absurd rfl hev
    | apStaconnected mac =>
      exact ⟨hle, iff_of_false (by simp [watch, handle, eventWifi]) hcause, h.no_overflow⟩
    | apStadisconnected mac =>
      exact ⟨hle, iff_of_false (by simp [watch, handle, eventWifi]) hcause, h.no_overflow⟩
    | other evid => exact ⟨hle, iff_of_false List.not_mem_nil hcause, h.no_overflow⟩

theorem follows_staDisconnected (h : Follows w d) (hlaw : RetryLaw w (.wifi .staDisconnected)) :
    Follows (watch w (.wifi .staDisconnected)).1 { d with total := d.total + 1 } := by
  have hwithin := (retryLaw_iff_within h).mp hlaw
  obtain ⟨hretries, hissued, hle, hbefore, htotal, hover⟩ := h
  have hmax : maxRetries = 10 := rfl
  have hdec : w.1.decRetries.retries = w.1.retries - 1 := rfl
  obtain ⟨hten, hnofault⟩ := (retryLaw_staDisconnected w).mp hlaw
  have hno := (decRetries_overflow w.1).mpr hnofault
  rw [Drops.Within] at hwithin
  rw [watch_staDisconnected]
  split
  · rename_i hneg
    rw [if_pos hneg] at hten
    constructor <;> simp only <;> first | exact hno | omega
  · rename_i hnonneg
    rw [if_neg hnonneg] at hten
    constructor <;> simp only <;> first | exact hno | omega

theorem follows_step (h : Follows w d) (ev : DriverEvent) (hlaw : RetryLaw w ev) :
    Follows (watch w ev).1 (countDrops d ev) := by
  cases ev with
  | ip ev =>
    cases ev with
    | staGotIp info =>
      exact ⟨h.retries, Nat.zero_add _, Nat.zero_le 10, Nat.le_refl _, h.total_le, h.no_overflow⟩
    | other evid => exact h
  | wifi ev =>
    cases ev with
    | staStart => exact follows_staStart h.no_overflow
    | staDisconnected => exact follows_staDisconnected h hlaw
    | apStaconnected mac => exact h
    | apStadisconnected mac => exact h
    | other evid => exact h

end

/-- Along a whole run the law holds exactly if no disconnect falls outside the
events the counter treats rightly. -/
theorem retry_law_iff (retries : Int) (bits : EventBits) (events : List DriverEvent) :
    Transducer.Throughout watch RetryLaw (⟨retries, bits, false⟩, 0) (.wifi .staStart :: events) ↔
      ∀ past rest, events = past ++ .wifi .staDisconnected :: rest →
        (past.foldl countDrops ⟨0, 0⟩).Within := by
  have hstart := follows_staStart (w := (⟨retries, bits, false⟩, 0)) rfl
  have hiff : ∀ w d ev, Follows w d →
      (RetryLaw w ev ↔ (ev = .wifi .staDisconnected → d.Within)) := by
    intro w d ev h
    constructor
    · rintro hlaw rfl
      exact (retryLaw_iff_within h).mp hlaw
    · intro hwithin
      cases Decidable.em (ev = .wifi .staDisconnected) with
      | inl hev =>
        subst hev
        exact (retryLaw_iff_within h).mpr (hwithin rfl)
      | inr hev => exact retryLaw_other h hev
  have hexact : Transducer.Throughout watch RetryLaw _ events ↔
      Transducer.Throughout (fun d ev => (countDrops d ev, ()))
        (fun d ev => ev = .wifi .staDisconnected → d.Within) ⟨0, 0⟩ events :=
    Transducer.throughout_iff Follows hiff (fun w d ev h hlaw => follows_step h ev hlaw) hstart events
  rw [Transducer.Throughout, hexact, Transducer.throughout_iff_forall]
  simp only [Transducer.run_eq_foldl]
  constructor
  · rintro ⟨_, h⟩ past rest hevents
    exact h past _ rest hevents rfl
  · intro h
    constructor
    · exact retryLaw_staStart rfl
    · rintro past ev rest hevents rfl
      exact h past rest hevents

theorem retry_eleventh :
    ¬Transducer.Throughout watch RetryLaw (⟨0, ⟨false, false⟩, false⟩, 0)
      (.wifi .staStart :: List.replicate 11 (.wifi .staDisconnected)) := by
  decide

end Wifimodem
