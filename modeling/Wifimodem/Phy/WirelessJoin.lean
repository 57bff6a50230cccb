import Wifimodem.Lib.Turns
import Wifimodem.Phy.Wireless

/-!
# A join and the event task

`phy_connect` clears the bits, starts the station and waits, while the event task
handles what the driver reports. The handlers touch the bits once each, so that the
two take turns; the caller stops where it would wait.
-/

namespace Wifimodem

inductive JoinPc where
  | begin | clear | start | wait
  | returned (ok : Bool)
deriving DecidableEq, Repr

/-- `budget` is the retry counter when the bits were cleared, and `handled` the events
handled between then and the return. -/
structure Joining where
  wifi : Wifi
  join : Join
  pc : JoinPc
  budget : Int
  handled : List DriverEvent
deriving DecidableEq

inductive JoinTurn where
  | caller (rc : Int)
  | task (ev : DriverEvent)
deriving DecidableEq

def Joining.call (w : Wifi) (j : Join) : Joining := ⟨w, j, .begin, j.retries, []⟩

/-- The station is configured and marked as up. -/
def configureStation (w : Wifi) : Wifi :=
  let w := raiseEvent w .begin
  let w := (w.call (.setMode .sta)).call (.setConfig (staConfig w.config))
  (setHostname w).setUp true

def Joining.finish (s : Joining) (w : Wifi) : Joining :=
  if ¬s.join.bits.connected then { s with wifi := raiseEvent w .error, pc := .returned false }
  else { s with wifi := raiseEvent (raiseEvent w .done) .connect, pc := .returned true }

def callerTurn (s : Joining) (rc : Int) : Option Joining :=
  match s.pc with
  | .begin =>
    if cstr s.wifi.config.ssid = [] then some { s with pc := .returned true }
    else some { s with wifi := configureStation s.wifi, pc := .clear }
  | .clear =>
    some
      { wifi := s.wifi.call .clearBits
        join := { s.join with bits := ⟨false, false⟩ }
        pc := .start
        budget := s.join.retries
        handled := [] }
  | .start =>
    let w := s.wifi.call (.start rc)
    if rc ≠ espOk then some { s with wifi := raiseEvent w .error, pc := .returned false }
    else some { s with wifi := w, pc := .wait }
  | .wait =>
    if s.join.bits.connected || s.join.bits.fail then
      some (s.finish (s.wifi.call (.waitBits s.join.bits)))
    else none
  | .returned _ => none

def taskTurn (s : Joining) (ev : DriverEvent) : Joining :=
  let handled := match s.pc with
    | .start | .wait => s.handled ++ [ev]
    | _ => s.handled
  { s with join := (handle s.join ev).1, handled := handled }

def joinTurn (s : Joining) : JoinTurn → Option Joining
  | .caller rc => callerTurn s rc
  | .task ev => some (taskTurn s ev)

/-! ## What the events say -/

def GotIp (evs : List DriverEvent) : Prop := ∃ info, .ip (.staGotIp info) ∈ evs

/-- The disconnects allowed after `evs`: those left when the bits were cleared, or all of
them after a start of the station. -/
def allowance (budget : Int) (evs : List DriverEvent) : Int :=
  if .wifi .staStart ∈ evs then maxRetries else budget

def drops (evs : List DriverEvent) : Nat := (evs.foldl countDrops ⟨0, 0⟩).total

/-- One disconnect more than are allowed. -/
def GivesUp (budget : Int) (evs : List DriverEvent) : Prop :=
  ∃ past rest, evs = past ++ .wifi .staDisconnected :: rest ∧ allowance budget past < drops past

theorem gotIp_concat (evs : List DriverEvent) (ev : DriverEvent) :
    GotIp (evs ++ [ev]) ↔ GotIp evs ∨ ∃ info, ev = .ip (.staGotIp info) := by
  simp only [GotIp, List.mem_append, List.mem_singleton, exists_or, eq_comm]

theorem drops_concat (evs : List DriverEvent) (ev : DriverEvent) :
    drops (evs ++ [ev]) = if ev = .wifi .staStart then 0
      else if ev = .wifi .staDisconnected then drops evs + 1 else drops evs := by
  rw [drops, List.foldl_append]
  cases ev with
  | ip ev => cases ev <;> rfl
  | wifi ev => cases ev <;> rfl

theorem allowance_concat (budget : Int) (evs : List DriverEvent) (ev : DriverEvent) :
    allowance budget (evs ++ [ev]) =
      if ev = .wifi .staStart then maxRetries else allowance budget evs := by
  have hmem : .wifi .staStart ∈ evs ++ [ev] ↔ .wifi .staStart ∈ evs ∨ ev = .wifi .staStart := by
    rw [List.mem_append, List.mem_singleton, eq_comm (a := ev)]
  by_cases hev : ev = .wifi .staStart
  · rw [allowance, if_pos (hmem.mpr (.inr hev)), if_pos hev]
  · rw [if_neg hev]
    simp only [allowance, hmem, or_iff_left hev]

theorem givesUp_concat (budget : Int) (evs : List DriverEvent) (ev : DriverEvent) :
    GivesUp budget (evs ++ [ev]) ↔
      GivesUp budget evs ∨ ev = .wifi .staDisconnected ∧ allowance budget evs < drops evs := by
  constructor
  · rintro ⟨past, rest, hevs, hless⟩
    cases List.eq_nil_or_concat rest with
    | inl hnil =>
      rw [hnil] at hevs
      obtain ⟨rfl, hev⟩ := List.append_inj' hevs rfl
      exact .inr ⟨List.head_eq_of_cons_eq hev, hless⟩
    | inr hlast =>
      obtain ⟨rest', last, rfl⟩ := hlast
      rw [List.concat_eq_append, ← List.cons_append, ← List.append_assoc] at hevs
      obtain ⟨hevs, _⟩ := List.append_inj' hevs rfl
      exact .inl ⟨past, rest', hevs, hless⟩
  · rintro (⟨past, rest, rfl, hless⟩ | ⟨rfl, hless⟩)
    · exact ⟨past, rest ++ [ev], by simp, hless⟩
    · exact ⟨evs, [], rfl, hless⟩

/-! ## The bits follow the events -/

structure Tracks (s : Joining) : Prop where
  retries : s.join.retries = allowance s.budget s.handled - drops s.handled
  connected : s.join.bits.connected = true ↔ GotIp s.handled
  fail : s.join.bits.fail = true ↔ GivesUp s.budget s.handled

theorem tracks_clear (wifi : Wifi) (join : Join) (pc : JoinPc) :
    Tracks ⟨wifi, { join with bits := ⟨false, false⟩ }, pc, join.retries, []⟩ := by
  constructor
  · simp [allowance, drops]
  · simp [GotIp]
  · simp [GivesUp]

theorem tracks_handle {s : Joining} (h : Tracks s) (ev : DriverEvent) :
    Tracks { s with join := (handle s.join ev).1, handled := s.handled ++ [ev] } := by
  obtain ⟨hretries, hconnected, hfail⟩ := h
  have hquiet : ∀ j : Join, j.retries = s.join.retries → j.bits = s.join.bits →
      ev ≠ .wifi .staStart → ev ≠ .wifi .staDisconnected → (∀ info, ev ≠ .ip (.staGotIp info)) →
        Tracks { s with join := j, handled := s.handled ++ [ev] } := by
    intro j hj hbits hstart hdisc hip
    constructor
    · simp only [allowance_concat, drops_concat, if_neg hstart, if_neg hdisc, hj, hretries]
    · simp only [gotIp_concat, hbits, hconnected]
      exact ⟨.inl, fun h => h.resolve_right fun ⟨info, hev⟩ => hip info hev⟩
    · simp only [givesUp_concat, hbits, hfail]
      exact ⟨.inl, fun h => h.resolve_right fun hev => hdisc hev.1⟩
  cases ev with
  | ip ev =>
    cases ev with
    | other evid => exact hquiet _ rfl rfl (by simp) (by simp) (by simp)
    | staGotIp info =>
      constructor
      · simpa [allowance_concat, drops_concat, handle, eventNetif] using hretries
      · simp [gotIp_concat, handle, eventNetif]
      · simpa [givesUp_concat, handle, eventNetif] using hfail
  | wifi ev =>
    cases ev with
    | apStaconnected mac => exact hquiet _ rfl rfl (by simp) (by simp) (by simp)
    | apStadisconnected mac => exact hquiet _ rfl rfl (by simp) (by simp) (by simp)
    | other evid => exact hquiet _ rfl rfl (by simp) (by simp) (by simp)
    | staStart =>
      constructor
      · simp [allowance_concat, drops_concat, handle, eventWifi]
      · simpa [gotIp_concat, handle, eventWifi] using hconnected
      · simpa [givesUp_concat, handle, eventWifi] using hfail
    | staDisconnected =>
      have hdec : s.join.decRetries.retries = s.join.retries - 1 := rfl
      have hspent : s.join.retries < 0 ↔ allowance s.budget s.handled < drops s.handled := by omega
      have hevent : (handle s.join (.wifi .staDisconnected)).1 =
          { s.join.decRetries with bits :=
            { s.join.bits with fail := s.join.bits.fail || decide (s.join.retries < 0) } } := by
        simp only [handle, eventWifi]
        split
        · rename_i hneg
          simp [hneg, Join.decRetries]
        · rename_i hpos
          simp [hpos, Join.decRetries]
      rw [hevent]
      constructor
      · simp only [allowance_concat, drops_concat]
        simp
        omega
      · simpa [gotIp_concat] using hconnected
      · simp [givesUp_concat, hfail, hspent]

/-! ## The caller between the events -/

/-- What a call that has waited returns. -/
def Decided (s : Joining) (ok : Bool) : Prop :=
  (ok = true ↔ GotIp s.handled) ∧ (ok = false → GivesUp s.budget s.handled)

/-- The call is on its way through `phy_connect`, from the state `w`. -/
def OnWay (w : Wifi) (s : Joining) : Prop :=
  match s.pc with
  | .begin => s.wifi = w
  | .clear => cstr w.config.ssid ≠ [] ∧ s.wifi = configureStation w
  | .start =>
    cstr w.config.ssid ≠ [] ∧ s.wifi = (configureStation w).call .clearBits ∧ Tracks s
  | .wait =>
    cstr w.config.ssid ≠ [] ∧
      s.wifi = ((configureStation w).call .clearBits).call (.start espOk) ∧ Tracks s
  | .returned ok =>
    ∃ o : Outcome, phyConnect w o = (s.wifi, ok) ∧
      (cstr w.config.ssid ≠ [] → o.start = espOk → Decided s ok)

theorem onWay_task {w : Wifi} {s : Joining} (h : OnWay w s) (ev : DriverEvent) :
    OnWay w (taskTurn s ev) := by
  obtain ⟨wifi, join, pc, budget, handled⟩ := s
  cases pc with
  | begin | clear | returned ok => exact h
  | start | wait =>
    obtain ⟨hssid, hwifi, htracks⟩ := h
    exact ⟨hssid, hwifi, tracks_handle htracks ev⟩

theorem decided_of_wait {s : Joining} (h : Tracks s)
    (hbits : (s.join.bits.connected || s.join.bits.fail) = true) :
    Decided s s.join.bits.connected := by
  constructor
  · exact h.connected
  · intro hno
    rw [hno, Bool.false_or] at hbits
    exact h.fail.mp hbits

theorem onWay_finish {w : Wifi} {s : Joining} (hssid : cstr w.config.ssid ≠ [])
    (hwifi : s.wifi = ((configureStation w).call .clearBits).call (.start espOk))
    (htracks : Tracks s) (hbits : (s.join.bits.connected || s.join.bits.fail) = true) :
    OnWay w (s.finish (s.wifi.call (.waitBits s.join.bits))) := by
  have hdecided := decided_of_wait htracks hbits
  let o : Outcome := ⟨espOk, s.join.bits, espOk, ⟨[], espFail, by decide⟩⟩
  have hstart : ¬o.start ≠ espOk := fun h => h rfl
  have hconnect : phyConnect w o =
      if ¬s.join.bits.connected then (raiseEvent (s.wifi.call (.waitBits s.join.bits)) .error, false)
      else (raiseEvent (raiseEvent (s.wifi.call (.waitBits s.join.bits)) .done) .connect, true) := by
    rw [phyConnect, if_neg hssid, hwifi]
    exact if_neg hstart
  rw [Joining.finish]
  split
  · rename_i hno
    rw [if_pos hno] at hconnect
    rw [Bool.not_eq_true] at hno
    exact ⟨o, hconnect, fun _ _ => hno ▸ hdecided⟩
  · rename_i hyes
    rw [if_neg hyes] at hconnect
    rw [not_not] at hyes
    exact ⟨o, hconnect, fun _ _ => hyes ▸ hdecided⟩

theorem onWay_caller {w : Wifi} {s s' : Joining} (h : OnWay w s) {rc : Int}
    (hturn : callerTurn s rc = some s') : OnWay w s' := by
  obtain ⟨wifi, join, pc, budget, handled⟩ := s
  let o : Outcome := ⟨rc, ⟨false, false⟩, espOk, ⟨[], espFail, by decide⟩⟩
  cases pc with
  | begin =>
    have hwifi : wifi = w := h
    subst hwifi
    simp only [callerTurn] at hturn
    split at hturn
    · rename_i hssid
      obtain rfl := Option.some.inj hturn
      exact ⟨o, by rw [phyConnect, if_pos hssid], fun hne => absurd hssid hne⟩
    · rename_i hssid
      obtain rfl := Option.some.inj hturn
      exact ⟨hssid, rfl⟩
  | clear =>
    obtain ⟨hssid, hwifi⟩ := h
    obtain rfl := Option.some.inj hturn
    exact ⟨hssid, congrArg (Wifi.call · .clearBits) hwifi, tracks_clear _ _ _⟩
  | start =>
    obtain ⟨hssid, hwifi, htracks⟩ := h
    simp only at hwifi
    simp only [callerTurn] at hturn
    split at hturn
    · rename_i hrc
      obtain rfl := Option.some.inj hturn
      have hconnect : phyConnect w o = (raiseEvent (wifi.call (.start rc)) .error, false) := by
        rw [phyConnect, if_neg hssid, hwifi]
        exact if_pos hrc
      exact ⟨o, hconnect, fun _ hok => absurd hok hrc⟩
    · rename_i hrc
      obtain rfl := Option.some.inj hturn
      rw [not_not] at hrc
      exact ⟨hssid, by rw [hrc, hwifi], htracks.retries, htracks.connected, htracks.fail⟩
  | wait =>
    obtain ⟨hssid, hwifi, htracks⟩ := h
    simp only [callerTurn] at hturn
    split at hturn
    · rename_i hbits
      obtain rfl := Option.some.inj hturn
      exact onWay_finish hssid hwifi htracks hbits
    · cases hturn
  | returned ok => cases hturn

theorem onWay_turn {w : Wifi} {s s' : Joining} (h : OnWay w s) {t : JoinTurn}
    (hturn : joinTurn s t = some s') : OnWay w s' := by
  cases t with
  | caller rc => exact onWay_caller h hturn
  | task ev => exact Option.some.inj hturn ▸ onWay_task h ev

theorem onWay_run (w : Wifi) (j : Join) {turns : List JoinTurn} {s : Joining}
    (hrun : Turns.run joinTurn (.call w j) turns = some s) : OnWay w s := by
  have hcall : OnWay w (.call w j) := rfl
  exact Turns.run_invariant (OnWay w) (fun _ _ _ h hturn => onWay_turn h hturn) hcall hrun

def namedNetwork : Wifi := { wifiCreate with config := { wifiCreate.config with ssid := ['a'] } }

/-- The call from counters as they were left behind, up to its wait or its return. -/
def afterTurns (turns : List JoinTurn) : Joining :=
  (Turns.run joinTurn (.call namedNetwork ⟨-3, ⟨true, true⟩, false⟩) turns).getD
    (.call namedNetwork ⟨-3, ⟨true, true⟩, false⟩)

/-- A call that waits goes on exactly when there is an answer. -/
theorem phyConnect_blocks_iff (w : Wifi) (j : Join) {turns : List JoinTurn} {s : Joining}
    (hrun : Turns.run joinTurn (.call w j) turns = some s) (hpc : s.pc = .wait) (rc : Int) :
    joinTurn s (.caller rc) = none ↔ ¬GotIp s.handled ∧ ¬GivesUp s.budget s.handled := by
  have hway := onWay_run w j hrun
  rw [OnWay, hpc] at hway
  obtain ⟨_, _, htracks⟩ := hway
  rw [← htracks.connected, ← htracks.fail, joinTurn, callerTurn, hpc]
  simp only
  split
  · rename_i hbits
    rw [Bool.or_eq_true] at hbits
    simp only [reduceCtorEq, false_iff, not_and, not_not]
    exact fun hno => hbits.resolve_left hno
  · rename_i hbits
    simpa using hbits

theorem phyConnect_blocks_unanswered :
    joinTurn (afterTurns [.caller 0, .caller 0, .caller 0]) (.caller 0) = none ↔
      ¬GotIp [] ∧ ¬GivesUp (-3) [] :=
  @phyConnect_blocks_iff namedNetwork ⟨-3, ⟨true, true⟩, false⟩ [.caller 0, .caller 0, .caller 0]
    (afterTurns [.caller 0, .caller 0, .caller 0]) rfl rfl 0

end Wifimodem
