import Wifimodem.Phy.AutobaudCapture
import Wifimodem.Phy.Serialport

/-!
# The settings of a port and those of its line

The driver keeps settings of its own, which change when it accepts a configuration or a
new baud rate. The fields of the port are written by its owner and by the measurement,
while the callback of the receive channel comes at any time.
-/

namespace Wifimodem

open Turns

inductive UartCall where
  | paramConfig (config : UartConfig) (rv : Int)
  | setBaudrate (rate rc : Int)
deriving DecidableEq

/-- The driver takes what it does not refuse. -/
def UartCall.line (line : Option UartConfig) : UartCall → Option UartConfig
  | .paramConfig config rv => if rv = 0 then some config else line
  | .setBaudrate rate rc =>
    if rc = 0 then line.map fun config => { config with baudRate := rate } else line

def lineOf (calls : List UartCall) : Option UartConfig := calls.foldl UartCall.line none

/-- `changed` is set while the owner has written to the fields since the port was last
configured. -/
structure SerialDevice where
  capturing : Capturing
  databits : Int
  parity : Int
  stopbits : Int
  calls : List UartCall
  changed : Bool

def SerialDevice.settings (d : SerialDevice) : SerialSettings :=
  ⟨d.capturing.port.baudrate, d.databits, d.parity, d.stopbits⟩

/-- `serialport_configure`, with the answer of the driver. -/
def SerialDevice.configure (d : SerialDevice) (rv : Int) : SerialDevice × Bool :=
  match uartConfig d.settings with
  | .error _ => (d, false)
  | .ok config =>
    let d := { d with calls := d.calls ++ [.paramConfig config rv] }
    if rv ≠ 0 then (d, false) else ({ d with changed := false }, true)

def SerialDevice.setConfig (d : SerialDevice) (config : List UInt8) (rv : Int) :
    SerialDevice × Bool :=
  match readConfig d.settings config with
  | none => (d, false)
  | some _ => d.configure rv

def SerialDevice.init (p : MeasuredPort) (rv : Int) : SerialDevice :=
  ({ capturing := .init p
     databits := 8
     parity := 0
     stopbits := 1
     calls := []
     changed := true } : SerialDevice).configure rv |>.1

/-- What the end of a calculation asks of the driver. -/
def finishCalls (uart : Int → Int → Int) (p : MeasuredPort) (S : Nat) (N : Int) : List UartCall :=
  if N ≤ 0 then []
  else
    let best := do
      let D ← divide S N
      let R ← divide serialAutobaudResolution D
      rateLoop (truncate R) gBaudrates 0 1073741824
    match best with
    | none => []
    | some (B, _) => if B ≠ p.baudrate then [.setBaudrate B (uart p.port B)] else []

def turnCalls (uart : Int → Int → Int) (s : Capturing) : CaptureTurn → List UartCall
  | .work =>
    match s.pc with
    | .totals n _ S N => if n < serialAutobaudSamples then [] else finishCalls uart s.port S N
    | _ => []
  | _ => []

/-- The answers of the driver come with each turn. -/
inductive SerialTurn where
  | capture (uart : Int → Int → Int) (turn : CaptureTurn)
  | assign (settings : SerialSettings)
  | configure (rv : Int)
  | setConfig (config : List UInt8) (rv : Int)

/-- The owner of the port does nothing while it is inside a read. -/
def serialTurn (d : SerialDevice) : SerialTurn → Option SerialDevice
  | .capture uart turn => do
    let s ← captureTurn uart d.capturing turn
    some { d with capturing := s, calls := d.calls ++ turnCalls uart d.capturing turn }
  | .assign settings =>
    if d.capturing.pc ≠ .idle then none
    else some
      { d with
        capturing :=
          { d.capturing with
            port := { d.capturing.port with baudrate := settings.baudrate } }
        databits := settings.databits
        parity := settings.parity
        stopbits := settings.stopbits
        changed := true }
  | .configure rv => if d.capturing.pc ≠ .idle then none else some (d.configure rv).1
  | .setConfig config rv => if d.capturing.pc ≠ .idle then none else some (d.setConfig config rv).1

/-- `serialport_configure` of the port as it is, whatever else the port is used for. -/
theorem configure_result (d : SerialDevice) (rv : Int) :
    (d.configure rv).2 =
      (serialportConfigure (fun _ _ => rv) ⟨d.settings, d.capturing.port.port⟩).isOk := by
  rw [SerialDevice.configure, serialportConfigure]
  cases huart : uartConfig d.settings with
  | error e => rfl
  | ok config =>
    simp only [bind, Except.bind]
    by_cases hrv : rv = 0
    · simp [hrv, pure, Except.pure, Except.isOk, Except.toBool]
    · simp [hrv, throw, throwThe, MonadExceptOf.throw, Except.isOk, Except.toBool]

/-! ## What the line is set to -/

def UartDataBits.count : UartDataBits → Int
  | .bits5 => 5
  | .bits6 => 6
  | .bits7 => 7
  | .bits8 => 8

def UartParity.code : UartParity → Int
  | .disable => 0
  | .odd => 1
  | .even => 2

def UartStopBits.count : UartStopBits → Int
  | .bits1 => 1
  | .bits2 => 2

/-- The settings that stand for a configuration of the driver. -/
def UartConfig.settings (c : UartConfig) : SerialSettings :=
  ⟨c.baudRate, c.dataBits.count, c.parity.code, c.stopBits.count⟩

theorem uartDataBits_count {databits : Int} {bits : UartDataBits}
    (h : uartDataBits databits = .ok bits) : databits = bits.count := by
  rw [uartDataBits] at h
  split at h
  · cases h
    assumption
  split at h
  · cases h
    assumption
  split at h
  · cases h
    assumption
  split at h
  · cases h
    assumption
  · cases h

theorem uartParity_code {parity : Int} {code : UartParity} (h : uartParity parity = .ok code) :
    parity = code.code := by
  rw [uartParity] at h
  split at h
  · cases h
    assumption
  split at h
  · cases h
    assumption
  split at h
  · cases h
    assumption
  · cases h

theorem uartStopBits_count {stopbits : Int} {bits : UartStopBits}
    (h : uartStopBits stopbits = .ok bits) : stopbits = bits.count := by
  rw [uartStopBits] at h
  split at h
  · cases h
    assumption
  split at h
  · cases h
    assumption
  · cases h

theorem uartConfig_settings {p : SerialSettings} {config : UartConfig}
    (h : uartConfig p = .ok config) : p = config.settings ∧ InRange config.baudRate := by
  rw [uartConfig] at h
  split at h
  · cases h
  rename_i hrange
  cases hdata : uartDataBits p.databits with
  | error e =>
    rw [hdata] at h
    cases h
  | ok dataBits =>
    cases hparity : uartParity p.parity with
    | error e =>
      rw [hdata, hparity] at h
      cases h
    | ok parity =>
      cases hstop : uartStopBits p.stopbits with
      | error e =>
        rw [hdata, hparity, hstop] at h
        cases h
      | ok stopBits =>
        rw [hdata, hparity, hstop] at h
        obtain rfl := Except.ok.inj h
        have hbaud : InRange p.baudrate := ⟨by omega, by omega⟩
        refine ⟨?_, hbaud⟩
        rw [UartConfig.settings, ← uartDataBits_count hdata, ← uartParity_code hparity,
          ← uartStopBits_count hstop]

theorem lineOf_append (calls : List UartCall) (c : UartCall) :
    lineOf (calls ++ [c]) = c.line (lineOf calls) := by
  simp [lineOf, List.foldl_append]

/-! ## The turns -/

theorem calculate_safe (uart : Int → Int → Int) {s s' : Capturing} (hsafe : SafePc s.pc)
    (hturn : calculateTurn uart s = some s') : SafePc s'.pc := by
  rw [calculateTurn] at hturn
  cases hpc : s.pc with
  | idle =>
    rw [hpc] at hturn
    cases hturn
  | shortest n found =>
    rw [hpc] at hturn hsafe
    simp only at hturn
    split at hturn
    · rename_i hn
      obtain rfl := Option.some.inj hturn
      exact ⟨hn, shortestStep_pos hsafe.2 _⟩
    split at hturn
    · obtain rfl := Option.some.inj hturn
      trivial
    · obtain rfl := Option.some.inj hturn
      exact ⟨Nat.zero_le _, hsafe.2, by decide⟩
  | totals n M S N =>
    rw [hpc] at hturn hsafe
    simp only at hturn
    split at hturn
    · rename_i hn
      have hM : (M : Rat) ≠ 0 := Nat.cast_ne_zero.mpr hsafe.2.1.ne'
      rw [divide_eq hM] at hturn
      obtain rfl := Option.some.inj hturn
      have hround := round_twice (k := symbolLength (s.port.samples.getD n 0)) hsafe.2.1
      refine ⟨hn, hsafe.2.1, ?_⟩
      have hbits := hsafe.2.2
      push_cast
      linarith [hround.2]
    · obtain ⟨p, -, hdone⟩ := Option.bind_eq_some_iff.mp hturn
      obtain rfl := Option.some.inj hdone
      trivial

/-- The rate is left alone without a call, or changes with that of the line. -/
theorem finish_calls (uart : Int → Int → Int) {p q : MeasuredPort} {S : Nat} {N : Int}
    (htwice : N ≤ 2 * S) (h : finishCalculation uart p S N = some q) :
    finishCalls uart p S N = [] ∧ q.baudrate = p.baudrate ∨
      ∃ B rc, finishCalls uart p S N = [.setBaudrate B rc] ∧ InRange B ∧
        q.baudrate = if rc = 0 then B else p.baudrate := by
  rw [finishCalculation] at h
  rw [finishCalls]
  split at h
  · rename_i hN
    obtain rfl := Option.some.inj h
    exact .inl ⟨if_pos hN, rfl⟩
  · rename_i hN
    rw [if_neg hN]
    have hN : 0 < N := by omega
    have hS : 0 < S := by omega
    obtain ⟨hD, hR⟩ := divide_rate hS hN
    obtain ⟨hint, hlo, hhi⟩ := rate_bounds hS hN htwice
    rw [← hint] at hlo hhi
    obtain ⟨B, hrun, hB⟩ := rateLoop_table hlo hhi
    have htable : ∀ rate ∈ baudrates, serialBaudrateMin ≤ rate ∧ rate ≤ serialBaudrateMax := by
      decide
    have hmem : B ∈ baudrates := by
      obtain ⟨before, after, hl, -⟩ := hB
      rw [hl]
      exact List.mem_append_right _ List.mem_cons_self
    simp only [hD, hR, hrun, Option.bind_eq_bind, Option.bind_some] at h ⊢
    by_cases hsame : B = p.baudrate
    · rw [if_neg fun hset => hset.1 hsame] at h
      obtain rfl := Option.some.inj h
      exact .inl ⟨if_neg fun hset => hset hsame, rfl⟩
    · refine .inr ⟨B, uart p.port B, if_pos hsame, htable B hmem, ?_⟩
      by_cases hrc : uart p.port B = 0
      · rw [if_pos ⟨hsame, hrc⟩] at h
        obtain rfl := Option.some.inj h
        rw [if_pos hrc]
      · rw [if_neg fun hset => hrc hset.2] at h
        obtain rfl := Option.some.inj h
        rw [if_neg hrc]

/-- The line is set to what the fields say, unless the owner has written to them since. -/
structure InSync (d : SerialDevice) : Prop where
  safe : SafePc d.capturing.pc
  range : ∀ config, lineOf d.calls = some config → InRange config.baudRate
  sync : d.changed = false →
    ∃ config, lineOf d.calls = some config ∧ d.settings = config.settings

theorem configure_sync {d : SerialDevice} (h : InSync d) (rv : Int) : InSync (d.configure rv).1 := by
  rw [SerialDevice.configure]
  cases huart : uartConfig d.settings with
  | error e => exact h
  | ok config =>
    obtain ⟨hsettings, hrange⟩ := uartConfig_settings huart
    simp only
    by_cases hrv : rv = 0
    · have hline : lineOf (d.calls ++ [.paramConfig config rv]) = some config := by
        rw [lineOf_append, UartCall.line, if_pos hrv]
      rw [if_neg (not_not.mpr hrv)]
      refine ⟨h.safe, fun config' hconfig => ?_, fun _ => ⟨config, hline, hsettings⟩⟩
      obtain rfl := Option.some.inj (hline.symm.trans hconfig)
      exact hrange
    · have hline : lineOf (d.calls ++ [.paramConfig config rv]) = lineOf d.calls := by
        rw [lineOf_append, UartCall.line, if_neg hrv]
      rw [if_pos hrv]
      refine ⟨h.safe, fun config' hconfig => h.range config' (hline.symm.trans hconfig),
        fun hkept => ?_⟩
      obtain ⟨config', hconfig, hsame⟩ := h.sync hkept
      exact ⟨config', hline.trans hconfig, hsame⟩

/-- A turn that asks nothing of the driver leaves the rate of the port alone. -/
theorem capture_quiet (uart : Int → Int → Int) {s s' : Capturing} {turn : CaptureTurn}
    (hturn : captureTurn uart s turn = some s') (hwork : turn ≠ .work) :
    s'.port.baudrate = s.port.baudrate ∧ turnCalls uart s turn = [] ∧
      (SafePc s.pc → SafePc s'.pc) := by
  cases turn with
  | work => exact absurd rfl hwork
  | read =>
    simp only [captureTurn] at hturn
    split at hturn
    · cases hturn
    split at hturn
    · obtain rfl := Option.some.inj hturn
      exact ⟨rfl, rfl, fun _ => ⟨Nat.zero_le _, by decide⟩⟩
    · obtain rfl := Option.some.inj hturn
      exact ⟨rfl, rfl, id⟩
  | autobaud enabled rc =>
    simp only [captureTurn] at hturn
    split at hturn
    · cases hturn
    · obtain rfl := Option.some.inj hturn
      exact ⟨rfl, rfl, id⟩
  | received symbols rc =>
    obtain rfl := Option.some.inj hturn
    exact ⟨rfl, rfl, id⟩

/-- Inside a calculation as well, the rate changes only with a call. -/
theorem work_calls (uart : Int → Int → Int) {s s' : Capturing} (hsafe : SafePc s.pc)
    (hturn : calculateTurn uart s = some s') :
    turnCalls uart s .work = [] ∧ s'.port.baudrate = s.port.baudrate ∨
      ∃ B rc, turnCalls uart s .work = [.setBaudrate B rc] ∧ InRange B ∧
        s'.port.baudrate = if rc = 0 then B else s.port.baudrate := by
  rw [calculateTurn] at hturn
  rw [turnCalls]
  cases hpc : s.pc with
  | idle =>
    rw [hpc] at hturn
    cases hturn
  | shortest n found =>
    rw [hpc] at hturn
    simp only at hturn
    refine .inl ⟨rfl, ?_⟩
    split at hturn
    · obtain rfl := Option.some.inj hturn
      rfl
    split at hturn
    · obtain rfl := Option.some.inj hturn
      rfl
    · obtain rfl := Option.some.inj hturn
      rfl
  | totals n M S N =>
    rw [hpc] at hturn hsafe
    simp only at hturn ⊢
    by_cases hn : n < serialAutobaudSamples
    · rw [if_pos hn] at hturn ⊢
      obtain ⟨q, -, hdone⟩ := Option.bind_eq_some_iff.mp hturn
      obtain rfl := Option.some.inj hdone
      exact .inl ⟨rfl, rfl⟩
    · rw [if_neg hn] at hturn ⊢
      obtain ⟨p, hfinish, hdone⟩ := Option.bind_eq_some_iff.mp hturn
      obtain rfl := Option.some.inj hdone
      exact finish_calls uart hsafe.2.2 hfinish

theorem capture_sync {d d' : SerialDevice} (h : InSync d) {uart : Int → Int → Int}
    {turn : CaptureTurn} (hturn : serialTurn d (.capture uart turn) = some d') : InSync d' := by
  obtain ⟨s, hs, hdone⟩ := Option.bind_eq_some_iff.mp hturn
  obtain rfl := Option.some.inj hdone
  by_cases hwork : turn = .work
  · subst hwork
    have hsafe := calculate_safe uart h.safe hs
    rcases work_calls uart h.safe hs with ⟨hcalls, hbaud⟩ | ⟨B, rc, hcalls, hB, hbaud⟩
    · refine ⟨hsafe, ?_, ?_⟩
      · rw [hcalls, List.append_nil]
        exact h.range
      · rw [hcalls, List.append_nil, SerialDevice.settings]
        simp only [hbaud]
        exact h.sync
    · have hline := lineOf_append d.calls (.setBaudrate B rc)
      rw [UartCall.line] at hline
      rw [hcalls]
      refine ⟨hsafe, ?_, ?_⟩
      · intro config hconfig
        rw [hline] at hconfig
        split at hconfig
        · obtain ⟨old, -, rfl⟩ := Option.map_eq_some_iff.mp hconfig
          exact hB
        · exact h.range config hconfig
      · intro hkept
        obtain ⟨config, hconfig, hsettings⟩ := h.sync hkept
        rw [hline, hconfig, SerialDevice.settings]
        simp only [SerialDevice.settings, UartConfig.settings, SerialSettings.mk.injEq] at hsettings
        obtain ⟨hrate, hdata, hparity, hstop⟩ := hsettings
        by_cases hrc : rc = 0
        · simp only [hbaud, if_pos hrc, Option.map_some]
          exact ⟨_, rfl, by rw [UartConfig.settings, ← hdata, ← hparity, ← hstop]⟩
        · simp only [hbaud, if_neg hrc]
          exact ⟨config, rfl, by rw [UartConfig.settings, hrate, hdata, hparity, hstop]⟩
  · obtain ⟨hbaud, hcalls, hsafe⟩ := capture_quiet uart hs hwork
    refine ⟨hsafe h.safe, ?_, ?_⟩
    · rw [hcalls, List.append_nil]
      exact h.range
    · rw [hcalls, List.append_nil, SerialDevice.settings]
      simp only [hbaud]
      exact h.sync

theorem serialTurn_sync {d d' : SerialDevice} (h : InSync d) {turn : SerialTurn}
    (hturn : serialTurn d turn = some d') : InSync d' := by
  cases turn with
  | capture uart turn => exact capture_sync h hturn
  | assign settings =>
    simp only [serialTurn] at hturn
    split at hturn
    · cases hturn
    · obtain rfl := Option.some.inj hturn
      refine ⟨h.safe, h.range, fun hkept => ?_⟩
      cases hkept
  | configure rv =>
    simp only [serialTurn] at hturn
    split at hturn
    · cases hturn
    · obtain rfl := Option.some.inj hturn
      exact configure_sync h rv
  | setConfig config rv =>
    simp only [serialTurn] at hturn
    split at hturn
    · cases hturn
    · obtain rfl := Option.some.inj hturn
      rw [SerialDevice.setConfig]
      split
      · exact h
      · exact configure_sync h rv

theorem init_sync (p : MeasuredPort) (rv : Int) : InSync (.init p rv) := by
  apply configure_sync
  refine ⟨trivial, fun config hconfig => ?_, fun hkept => ?_⟩
  · cases hconfig
  · cases hkept

/-- Whatever the owner, the measurement and the callback do and whatever the driver answers:
the line never has a rate that the port would refuse, and as long as the owner has not
written to the fields since the last successful configuration, the fields, and with them
the text of `serialport_get_config`, say how the line is set. -/
theorem serial_line_in_sync {p : MeasuredPort} {rv : Int} {turns : List SerialTurn}
    {d : SerialDevice} (hrun : Turns.run serialTurn (.init p rv) turns = some d) :
    (∀ config, lineOf d.calls = some config → InRange config.baudRate) ∧
      (d.changed = false → ∃ config, lineOf d.calls = some config ∧
        d.settings = config.settings ∧
        ∀ len, serialportGetConfig d.settings len = serialportGetConfig config.settings len) := by
  have h := Turns.run_invariant InSync (fun _ _ _ h hturn => serialTurn_sync h hturn)
    (init_sync p rv) hrun
  refine ⟨h.range, fun hkept => ?_⟩
  obtain ⟨config, hline, hsettings⟩ := h.sync hkept
  exact ⟨config, hline, hsettings, fun len => by rw [hsettings]⟩

/-- Four symbols of two bits each, at 9600 baud. -/
def recorded9600 : Recording :=
  ⟨List.replicate 4 6815848 ++ List.replicate 60 0, by simp [serialAutobaudBuffer]⟩

/-- The port after a byte has been recorded and measured. -/
def measured9600 : Option SerialDevice :=
  Turns.run serialTurn (.init quietPort 0)
    ([.capture (fun _ _ => 0) (.autobaud true 0), .capture (fun _ _ => 0) (.received recorded9600 0),
      .capture (fun _ _ => 0) .read] ++ List.replicate 18 (.capture (fun _ _ => 0) .work))

theorem serial_line_in_sync_9600 :
    ∃ d, measured9600 = some d ∧ d.settings.baudrate = 9600 ∧
      ∃ config, lineOf d.calls = some config ∧ d.settings = config.settings := by
  have hmeasured : (measured9600.map fun d => (d.settings.baudrate, d.changed)) =
      some (9600, false) := by decide +kernel
  obtain ⟨d, hd, hfacts⟩ := Option.map_eq_some_iff.mp hmeasured
  obtain ⟨hrate, hkept⟩ := Prod.mk.inj hfacts
  obtain ⟨config, hline, hsettings, -⟩ := (serial_line_in_sync hd).2 hkept
  exact ⟨d, hd, hrate, config, hline, hsettings⟩

end Wifimodem
