import Wifimodem.Phy.WirelessEvents
import Wifimodem.Phy.WirelessScan

/-!
# Switching the radio on and off

The calls that the program makes to the driver and the events that it raises
are kept in the order in which they happen. What the driver answers is given
with each call of the program.
-/

namespace Wifimodem

def espOk : Int := 0
def espFail : Int := -1

def ssidLen : Nat := 32
def passLen : Nat := 64
def nameLen : Nat := 32

inductive WifiKey where
  | up | down
  | ssid | pass | authmode
  | channel | hostname
  | mac | country
  | ipv4Addr | ipv4Mask | ipv4Gway | ipv4Dns0 | ipv4Dns1
deriving DecidableEq, Repr

inductive WifiEv where
  | begin | done | error
  | up | down
  | connect
deriving DecidableEq, Repr

/-- The three texts are what is in front of the zero stored by `str_zcpy`. -/
structure WifiConfig where
  up : Bool
  chan : Int
  auth : Nat
  ssid : List UInt8
  pass : List UInt8
  name : List UInt8
deriving DecidableEq, Repr

inductive WifiMode where
  | null | sta
deriving DecidableEq, Repr

inductive WifiAuth where
  | open | wpa2Psk
deriving DecidableEq, Repr

structure StaConfig where
  channel : Nat
  authmode : WifiAuth
  ssid : List UInt8
  password : List UInt8
deriving DecidableEq, Repr

inductive DriverCall where
  | init
  | setPsNone
  | setStorageRam
  | setMode (mode : WifiMode)
  | setConfig (cfg : StaConfig)
  | setHostname (name : List UInt8)
  | start (rc : Int)
  | stop
  | disconnect
  | clearBits
  | waitBits (bits : EventBits)
  | scanStart (rc : Int)
  | getApRecord (rc : Int)
  | clearApList
deriving DecidableEq, Repr

structure Wifi where
  config : WifiConfig
  calls : List DriverCall
  events : List WifiEv
deriving DecidableEq, Repr

/-- The records of a scan, up to the answer that is none. -/
structure ApList where
  records : List ApRecord
  rc : Int
  rc_ne : rc ≠ espOk

/-- What the driver answers during one call of the program. -/
structure Outcome where
  start : Int
  bits : EventBits
  scanStart : Int
  aps : ApList

def Wifi.call (w : Wifi) (call : DriverCall) : Wifi := { w with calls := w.calls ++ [call] }

def raiseEvent (w : Wifi) (ev : WifiEv) : Wifi := { w with events := w.events ++ [ev] }

def Wifi.setUp (w : Wifi) (up : Bool) : Wifi := { w with config := { w.config with up := up } }

def wifiCreate : Wifi where
  config :=
    { up := false
      chan := -1
      auth := 0
      ssid := []
      pass := []
      name := ['w', 'i', 'f', 'i', 'm', 'o', 'd', 'e', 'm'] }
  calls := [.init, .setPsNone, .setMode .null, .setStorageRam]
  events := []

def phyDisable (w : Wifi) : Wifi × Bool :=
  let w := if w.config.up then ((w.call .disconnect).call .stop).call (.setMode .null) else w
  let w := w.setUp false
  (raiseEvent w .down, true)

def setHostname (w : Wifi) : Wifi :=
  if cstr w.config.name ≠ [] then w.call (.setHostname (cstr w.config.name)) else w

def phyEnable (w : Wifi) (o : Outcome) : Wifi × Bool :=
  let w := (w.call (.setMode .sta)).call (.setConfig ⟨0, .open, [], []⟩)
  let w := raiseEvent (setHostname w) .begin
  let w := w.call (.start o.start)
  if o.start ≠ espOk then (raiseEvent w .error, false)
  else
    let w := w.setUp true
    (raiseEvent (raiseEvent w .done) .up, true)

def staConfig (config : WifiConfig) : StaConfig where
  channel := (config.chan % 256).toNat
  authmode := if cstr config.pass ≠ [] then .wpa2Psk else .open
  ssid := cstr config.ssid
  password := cstr config.pass

def phyConnect (w : Wifi) (o : Outcome) : Wifi × Bool :=
  -- the error code returned here is true as a `bool`
  if cstr w.config.ssid = [] then (w, true)
  else
    let w := raiseEvent w .begin
    let w := (w.call (.setMode .sta)).call (.setConfig (staConfig w.config))
    let w := setHostname w
    let w := w.setUp true
    let w := (w.call .clearBits).call (.start o.start)
    if o.start ≠ espOk then (raiseEvent w .error, false)
    else
      let w := w.call (.waitBits o.bits)
      if ¬o.bits.connected then (raiseEvent w .error, false)
      else (raiseEvent (raiseEvent w .done) .connect, true)

def wifiAuthList : List (List UInt8) :=
  [['O', 'P', 'E', 'N'], ['W', 'E', 'P'], ['W', 'P', 'A'], ['W', 'P', 'A', '1', '2'],
    ['W', 'P', 'A', '2'], ['W', 'P', 'A', '2', '3'], ['W', 'P', 'A', '3'], []]

def Wifi.store {α : Type} (w : Wifi) (put : WifiConfig → α → WifiConfig) : Option α → Wifi × Bool
  | none => (w, false)
  | some x => ({ w with config := put w.config x }, true)

def wifiSetKey (w : Wifi) (o : Outcome) (val : List UInt8) : WifiKey → Wifi × Bool
  | .up =>
    match phyDisable w with
    | (w, false) => (w, false)
    | (w, true) => if cstr w.config.ssid ≠ [] then phyConnect w o else phyEnable w o
  | .down => phyDisable w
  | .ssid => w.store (fun config x => { config with ssid := x }) (strZcpy val ssidLen)
  | .pass => w.store (fun config x => { config with pass := x }) (strZcpy val passLen)
  | .hostname => w.store (fun config x => { config with name := x }) (strZcpy val nameLen)
  | .channel => w.store (fun config x => { config with chan := x }) (strReadi8 val 0).2
  | .authmode =>
    let auth := strMatchiv val wifiAuthList
    w.store (fun config x => { config with auth := x }) (if auth ≥ 0 then some auth.toNat else none)
  | _ => (w, false)

def wifiSet (w : Wifi) (o : Outcome) (key : WifiKey) : Option (List UInt8) → Wifi × Int
  | none => (w, -1)
  | some val =>
    let (w, ok) := wifiSetKey w o val key
    (w, if ok then espOk else espFail)

/-- The result code, and the list for a caller that asks for it. -/
structure ScanResult where
  rv : Int
  hotspots : Option (List Hotspot)

def wifiScanFailed (w : Wifi) (rc : Int) : Wifi × ScanResult := (raiseEvent w .error, ⟨-rc, none⟩)

def wifiScanRecords (w : Wifi) (o : Outcome) (buf len : Nat) : Wifi × ScanResult :=
  let w := (raiseEvent w .begin).call (.scanStart o.scanStart)
  if o.scanStart ≠ espOk then wifiScanFailed w o.scanStart
  else
    let scan := wifiScanLoop buf len o.aps.records
    -- the loop is left with the code of a record when the buffer runs out
    let rc := if scan.full then espOk else o.aps.rc
    let taken := List.replicate scan.hotspots.length (DriverCall.getApRecord espOk)
    let w := { w with calls := w.calls ++ taken ++ [.getApRecord rc, .clearApList] }
    if rc ≠ espFail then wifiScanFailed w rc
    else (raiseEvent w .done, ⟨scan.hotspots.length, some scan.hotspots⟩)

def wifiScan (w : Wifi) (o : Outcome) (buf len : Nat) : Wifi × ScanResult :=
  if w.config.up then wifiScanRecords w o buf len
  else
    match phyEnable w o with
    | (w, false) => wifiScanFailed w 0
    | (w, true) => wifiScanRecords w o buf len

inductive WifiCall where
  | set (key : WifiKey) (val : Option (List UInt8))
  | scan (buf len : Nat)
deriving DecidableEq, Repr

def wifiStep (w : Wifi) : WifiCall × Outcome → Wifi × Int
  | (.set key val, o) => wifiSet w o key val
  | (.scan buf len, o) =>
    let (w, result) := wifiScan w o buf len
    (w, result.rv)

/-! ## Whether the radio is started -/

/-- The last start succeeded and no stop came after it. -/
def DriverCall.radio (started : Bool) : DriverCall → Bool
  | .start rc => rc = espOk
  | .stop => false
  | _ => started

def Wifi.radio (w : Wifi) : Bool := w.calls.foldl DriverCall.radio false

def UpIsStarted (w : Wifi) (call : WifiCall × Outcome) : Prop :=
  (wifiStep w call).1.config.up = (wifiStep w call).1.radio

instance (w : Wifi) (call : WifiCall × Outcome) : Decidable (UpIsStarted w call) :=
  inferInstanceAs (Decidable (_ = _))

/-- A network is named, and the radio does not start. -/
def ConnectFails (w : Wifi) : WifiCall × Outcome → Prop
  | (.set .up (some _), o) => cstr w.config.ssid ≠ [] ∧ o.start ≠ espOk
  | _ => False

@[simp] theorem radio_call (w : Wifi) (c : DriverCall) : (w.call c).radio = c.radio w.radio := by
  simp [Wifi.radio, Wifi.call, List.foldl_append]

@[simp] theorem radio_raiseEvent (w : Wifi) (ev : WifiEv) : (raiseEvent w ev).radio = w.radio := rfl

@[simp] theorem radio_setUp (w : Wifi) (up : Bool) : (w.setUp up).radio = w.radio := rfl

@[simp] theorem config_call (w : Wifi) (c : DriverCall) : (w.call c).config = w.config := rfl

@[simp] theorem config_raiseEvent (w : Wifi) (ev : WifiEv) : (raiseEvent w ev).config = w.config := rfl

@[simp] theorem up_setUp (w : Wifi) (up : Bool) : (w.setUp up).config.up = up := rfl

@[simp] theorem setHostname_radio (w : Wifi) : (setHostname w).radio = w.radio := by
  rw [setHostname]
  split <;> simp [DriverCall.radio]

@[simp] theorem setHostname_config (w : Wifi) : (setHostname w).config = w.config := by
  rw [setHostname]
  split <;> rfl

section
variable {w : Wifi}

theorem phyDisable_radio (h : w.config.up = w.radio) :
    (phyDisable w).1.config.up = false ∧ (phyDisable w).1.radio = false := by
  constructor
  · exact rfl
  · simp only [phyDisable]
    cases hup : w.config.up with
    | false => simpa using h.symm.trans hup
    | true => simp [DriverCall.radio]

theorem phyDisable_ssid (w : Wifi) : (phyDisable w).1.config.ssid = w.config.ssid := by
  simp only [phyDisable]
  split <;> rfl

/-- The flag is set after a start that succeeded. -/
theorem phyEnable_radio (h : w.config.up = false) (o : Outcome) :
    (phyEnable w o).1.config.up = (phyEnable w o).1.radio := by
  rw [phyEnable]
  split
  · rename_i hstart
    simp [DriverCall.radio, h, hstart]
  · rename_i hstart
    simp [DriverCall.radio, not_not.mp hstart]

/-- The flag is set before the start, and stays set. -/
theorem phyConnect_radio (hssid : cstr w.config.ssid ≠ []) (o : Outcome) :
    (phyConnect w o).1.config.up = true ∧ (phyConnect w o).1.radio = decide (o.start = espOk) := by
  rw [phyConnect]
  rw [if_neg hssid]
  simp only
  split
  · simp [DriverCall.radio]
  · split <;> simp [DriverCall.radio]

theorem wifiSetKey_up (h : w.config.up = w.radio) (o : Outcome) (val : List UInt8) :
    (wifiSetKey w o val .up).1.config.up = (wifiSetKey w o val .up).1.radio ↔
      ¬(cstr w.config.ssid ≠ [] ∧ o.start ≠ espOk) := by
  obtain ⟨hup, hradio⟩ := phyDisable_radio h
  have hset : wifiSetKey w o val .up =
      if cstr w.config.ssid ≠ [] then phyConnect (phyDisable w).1 o
      else phyEnable (phyDisable w).1 o := by
    rw [← phyDisable_ssid]
    rfl
  rw [hset]
  split
  · rename_i hssid
    rw [← phyDisable_ssid] at hssid
    obtain ⟨hup', hradio'⟩ := phyConnect_radio hssid o
    rw [hup', hradio']
    constructor
    · rintro hstart ⟨_, hfails⟩
      exact hfails (of_decide_eq_true hstart.symm)
    · intro hstart
      rw [phyDisable_ssid] at hssid
      have hok : o.start = espOk := not_not.mp fun hfails => hstart ⟨hssid, hfails⟩
      exact (decide_eq_true hok).symm
  · rename_i hssid
    exact iff_of_true (phyEnable_radio hup o) (fun hc => hssid hc.1)

theorem store_radio {α : Type} (h : w.config.up = w.radio) {put : WifiConfig → α → WifiConfig}
    (hput : ∀ config x, (put config x).up = config.up) (x : Option α) :
    (w.store put x).1.config.up = (w.store put x).1.radio := by
  cases x with
  | none => exact h
  | some x => exact (hput w.config x).trans h

theorem foldl_radio_getApRecord (n : Nat) (rc : Int) (started : Bool) :
    (List.replicate n (DriverCall.getApRecord rc)).foldl DriverCall.radio started = started := by
  induction n with
  | zero => rfl
  | succ n ih => exact ih

theorem wifiScanRecords_radio (h : w.config.up = w.radio) (o : Outcome) (buf len : Nat) :
    (wifiScanRecords w o buf len).1.config.up = (wifiScanRecords w o buf len).1.radio := by
  have hstart : ((raiseEvent w .begin).call (.scanStart o.scanStart)).radio = w.radio := radio_call w _
  simp only [wifiScanRecords, wifiScanFailed]
  split
  · exact h.trans hstart.symm
  · have hcalls : ∀ n rc, (((raiseEvent w .begin).call (.scanStart o.scanStart)).calls ++
        List.replicate n (DriverCall.getApRecord espOk) ++
        [DriverCall.getApRecord rc, DriverCall.clearApList]).foldl DriverCall.radio false = w.radio := by
      intro n rc
      rw [List.foldl_append, List.foldl_append, foldl_radio_getApRecord]
      exact hstart
    generalize (if (wifiScanLoop buf len o.aps.records).full = true then espOk else o.aps.rc) = rc
    split <;> exact h.trans (hcalls _ _).symm

theorem wifiScan_radio (h : w.config.up = w.radio) (o : Outcome) (buf len : Nat) :
    (wifiScan w o buf len).1.config.up = (wifiScan w o buf len).1.radio := by
  rw [wifiScan]
  split
  · exact wifiScanRecords_radio h o buf len
  · rename_i hup
    have hradio := phyEnable_radio (Bool.eq_false_iff.mpr hup) o
    split
    · rename_i w' henable
      rw [henable] at hradio
      exact hradio
    · rename_i w' henable
      rw [henable] at hradio
      exact wifiScanRecords_radio hradio o buf len

theorem wifiSetKey_radio (h : w.config.up = w.radio) (o : Outcome) (val : List UInt8) {key : WifiKey}
    (hkey : key ≠ .up) :
    (wifiSetKey w o val key).1.config.up = (wifiSetKey w o val key).1.radio := by
  cases key with
  | up => exact absurd rfl hkey
  | down =>
    obtain ⟨hup, hradio⟩ := phyDisable_radio h
    exact hup.trans hradio.symm
  | ssid | pass | hostname | channel | authmode =>
    apply store_radio h
    exact fun _ _ => rfl
  | mac | country | ipv4Addr | ipv4Mask | ipv4Gway | ipv4Dns0 | ipv4Dns1 => exact h

theorem wifiStep_radio (h : w.config.up = w.radio) (call : WifiCall × Outcome) :
    UpIsStarted w call ↔ ¬ConnectFails w call := by
  obtain ⟨call, o⟩ := call
  cases call with
  | scan buf len => exact iff_of_true (wifiScan_radio h o buf len) id
  | set key val =>
    cases val with
    | none => cases key <;> exact iff_of_true h id
    | some val =>
      cases Decidable.em (key = .up) with
      | inl hkey =>
        subst hkey
        exact wifiSetKey_up h o val
      | inr hkey =>
        refine iff_of_true (wifiSetKey_radio h o val hkey) ?_
        cases key <;> first | exact id | exact absurd rfl hkey

end

def Outcome.refused : Outcome := ⟨-1, ⟨false, false⟩, -1, ⟨[], -1, by decide⟩⟩

theorem wifi_up_iff (calls : List (WifiCall × Outcome)) :
    Transducer.Throughout wifiStep UpIsStarted wifiCreate calls ↔
      ∀ past call rest, calls = past ++ call :: rest →
        ¬ConnectFails (Transducer.run wifiStep wifiCreate past) call := by
  have hexact : Transducer.Throughout wifiStep UpIsStarted wifiCreate calls ↔
      Transducer.Throughout wifiStep (fun w call => ¬ConnectFails w call) wifiCreate calls := by
    apply Transducer.throughout_iff_of_invariant (fun w => w.config.up = w.radio)
    · intro w call h
      exact wifiStep_radio h call
    · intro w call _ hcall
      exact hcall
    · rfl
  rw [hexact, Transducer.throughout_iff_forall]

theorem wifi_up_stays_set :
    ¬Transducer.Throughout wifiStep UpIsStarted wifiCreate
      [(.set .ssid (some ['a']), .refused), (.set .up (some []), .refused)] := by
  decide

end Wifimodem
