import Wifimodem.Core.Types
import Wifimodem.Lib.Transducer

/-!
# Listening for the baud rate

A receive channel of the RMT unit records the line while it is enabled. One
flag of the port says both that a receive is pending and that the channel is
enabled. The calls of the driver are kept in their order, and `ESP_OK` is zero.
-/

namespace Wifimodem

def serialAutobaudBuffer : Nat := 64
def serialAutobaudSamples : Nat := 8

inductive RmtCall where
  | enable
  | disable
  | receive (rc : Int)
deriving DecidableEq, Repr

/-- The part of a serial port that measures the baud rate. -/
structure Autobaud where
  rmt : Bool
  buffer : List UInt32
  samples : List UInt32
  running : Bool
  ready : Bool
  calls : List RmtCall
deriving DecidableEq, Repr

def Autobaud.call (p : Autobaud) (call : RmtCall) : Autobaud := { p with calls := p.calls ++ [call] }

/-- The buffers are not touched, `rmt` says whether there is a channel. -/
def serialportInit (p : Autobaud) (rmt : Bool) : Autobaud :=
  { p with rmt := rmt, running := false, ready := false, calls := [] }

def autobaudActivate (p : Autobaud) (rc : Int) : Autobaud × Int :=
  let p := { p with buffer := List.replicate serialAutobaudBuffer 0 }.call (.receive rc)
  if rc = 0 then ({ p with running := true }, rc) else (p, rc)

def serialportAutobaud (p : Autobaud) (enabled : Bool) (rc : Int) : Autobaud × Bool :=
  if ¬p.rmt then (p, false)
  else if p.running = enabled then (p, true)
  else
    let p := { p with ready := false, running := false }
    if enabled then
      match autobaudActivate (p.call .enable) rc with
      | (p, rc) => (p, rc = 0)
    else (p.call .disable, true)

def autobaudCallback (p : Autobaud) (rc : Int) : Autobaud :=
  let p := { p with samples := p.buffer.take serialAutobaudSamples, ready := true, running := false }
  (autobaudActivate p rc).1

inductive AutobaudCall where
  | autobaud (enabled : Bool)
  | received (symbols : List UInt32)
deriving DecidableEq, Repr

/-- Each call comes with the answer of `rmt_receive`, and the callback with the
symbols that the channel has stored in the buffer. -/
def autobaudStep (p : Autobaud) : AutobaudCall × Int → Autobaud × Option Bool
  | (.autobaud enabled, rc) =>
    let (p, ok) := serialportAutobaud p enabled rc
    (p, some ok)
  | (.received symbols, rc) => (autobaudCallback { p with buffer := symbols } rc, none)

/-! ## The channel -/

def RmtCall.channel (enabled : Bool) : RmtCall → Bool
  | .enable => true
  | .disable => false
  | .receive _ => enabled

def channelEnabled (calls : List RmtCall) : Bool := calls.foldl RmtCall.channel false

def EnabledOnce (calls : List RmtCall) : Prop :=
  ∀ past rest, calls = past ++ .enable :: rest → channelEnabled past = false

/-- What a caller may rely on. -/
structure ChannelKept (p : Autobaud) (call : AutobaudCall × Int) : Prop where
  stopped : call.1 = .autobaud false → (autobaudStep p call).2 = some true →
    channelEnabled (autobaudStep p call).1.calls = false
  refused : call.1 = .autobaud true → (autobaudStep p call).2 = some false →
    channelEnabled (autobaudStep p call).1.calls = false
  once : EnabledOnce (autobaudStep p call).1.calls

/-- The flag is down when the call is made, and the channel was left enabled by
a callback that could not start the next receive, or this start is refused. -/
def FlagMisleads (p : Autobaud) : AutobaudCall × Int → Prop
  | (.autobaud enabled, rc) =>
    p.running = false ∧ (channelEnabled p.calls = true ∨ enabled = true ∧ rc ≠ 0)
  | (.received _, _) => False

theorem channelEnabled_append (calls : List RmtCall) (c : RmtCall) :
    channelEnabled (calls ++ [c]) = c.channel (channelEnabled calls) := by
  simp [channelEnabled, List.foldl_append]

theorem enabledOnce_append {calls : List RmtCall} {c : RmtCall} :
    EnabledOnce (calls ++ [c]) ↔
      EnabledOnce calls ∧ (c = .enable → channelEnabled calls = false) := by
  constructor
  · intro h
    constructor
    · intro past rest hcalls
      apply h past (rest ++ [c])
      rw [hcalls, List.append_assoc]
      rfl
    · rintro rfl
      exact h calls [] rfl
  · rintro ⟨h, hc⟩ past rest hcalls
    obtain rfl | ⟨rest', c', rfl⟩ := List.eq_nil_or_concat' rest
    · obtain ⟨rfl, hlast⟩ := List.append_inj' hcalls rfl
      exact hc (List.cons.inj hlast).1
    · rw [← List.cons_append, ← List.append_assoc] at hcalls
      exact h past rest' (List.append_inj_left' hcalls rfl)

/-! ## One call -/

@[simp] theorem calls_call (p : Autobaud) (c : RmtCall) : (p.call c).calls = p.calls ++ [c] := rfl

@[simp] theorem autobaudActivate_calls (p : Autobaud) (rc : Int) :
    (autobaudActivate p rc).1.calls = p.calls ++ [.receive rc] := by
  rw [autobaudActivate]
  split <;> rfl

@[simp] theorem autobaudActivate_rmt (p : Autobaud) (rc : Int) :
    (autobaudActivate p rc).1.rmt = p.rmt := by
  rw [autobaudActivate]
  split <;> rfl

@[simp] theorem autobaudActivate_rc (p : Autobaud) (rc : Int) : (autobaudActivate p rc).2 = rc := by
  rw [autobaudActivate]
  split <;> rfl

section
variable {p : Autobaud}

theorem serialportAutobaud_same {enabled : Bool} (hrmt : p.rmt = true) (h : p.running = enabled)
    (rc : Int) : serialportAutobaud p enabled rc = (p, true) := by
  rw [serialportAutobaud, if_neg (not_not.mpr hrmt), if_pos h]

theorem serialportAutobaud_start (hrmt : p.rmt = true) (h : p.running = false) (rc : Int) :
    (serialportAutobaud p true rc).1.calls = p.calls ++ [.enable] ++ [.receive rc] ∧
      (serialportAutobaud p true rc).1.rmt = true ∧
      (serialportAutobaud p true rc).2 = decide (rc = 0) := by
  rw [serialportAutobaud, if_neg (not_not.mpr hrmt), if_neg (by rw [h]; decide), if_pos rfl]
  refine ⟨?_, ?_, ?_⟩
  · simp
  · exact (autobaudActivate_rmt _ rc).trans hrmt
  · simp

theorem serialportAutobaud_stop (hrmt : p.rmt = true) (h : p.running = true) (rc : Int) :
    (serialportAutobaud p false rc).1.calls = p.calls ++ [.disable] ∧
      (serialportAutobaud p false rc).1.rmt = true ∧ (serialportAutobaud p false rc).2 = true := by
  rw [serialportAutobaud, if_neg (not_not.mpr hrmt), if_neg (by rw [h]; decide), if_neg (by decide)]
  exact ⟨rfl, hrmt, rfl⟩

theorem enabledOnce_receive {calls : List RmtCall} (h : EnabledOnce calls) (rc : Int) :
    EnabledOnce (calls ++ [.receive rc]) :=
  enabledOnce_append.mpr ⟨h, fun hc => nomatch hc⟩

theorem step_kept_same {enabled : Bool} (hrmt : p.rmt = true) (hinv : EnabledOnce p.calls)
    (h : p.running = enabled) (rc : Int) :
    ChannelKept p (.autobaud enabled, rc) ↔ ¬FlagMisleads p (.autobaud enabled, rc) := by
  have hstep : autobaudStep p (.autobaud enabled, rc) = (p, some true) := by
    rw [autobaudStep, serialportAutobaud_same hrmt h]
  constructor
  · rintro ⟨hstopped, _, _⟩ ⟨hdown, hchannel⟩
    rw [hdown] at h
    subst h
    rw [hstep] at hstopped
    obtain henabled | ⟨htrue, _⟩ := hchannel
    · rw [hstopped rfl rfl] at henabled
      cases henabled
    · cases htrue
  · intro hgood
    constructor
    · rintro hcall _
      obtain ⟨rfl⟩ := AutobaudCall.autobaud.inj hcall
      rw [hstep]
      exact Bool.eq_false_iff.mpr fun hc => hgood ⟨h, .inl hc⟩
    · rintro _ hok
      rw [hstep] at hok
      cases hok
    · rw [hstep]
      exact hinv

theorem step_kept_start (hrmt : p.rmt = true) (hinv : EnabledOnce p.calls)
    (h : p.running = false) (rc : Int) :
    ChannelKept p (.autobaud true, rc) ↔ ¬FlagMisleads p (.autobaud true, rc) := by
  obtain ⟨hcalls, _, hok⟩ := serialportAutobaud_start hrmt h rc
  have hchannel : channelEnabled (serialportAutobaud p true rc).1.calls = true := by
    rw [hcalls]
    simp [channelEnabled, List.foldl_append, RmtCall.channel]
  have honce : EnabledOnce (serialportAutobaud p true rc).1.calls ↔
      channelEnabled p.calls = false := by
    rw [hcalls, enabledOnce_append, enabledOnce_append]
    simp [hinv]
  constructor
  · rintro ⟨_, hrefused, hkept⟩ ⟨_, hbad⟩
    obtain henabled | ⟨_, hrc⟩ := hbad
    · rw [honce.mp hkept] at henabled
      cases henabled
    · have hlow := hrefused rfl (congrArg some (hok.trans (decide_eq_false hrc)))
      rw [autobaudStep] at hlow
      rw [hchannel] at hlow
      cases hlow
  · intro hgood
    have hrc : rc = 0 := not_not.mp fun hrc => hgood ⟨h, .inr ⟨rfl, hrc⟩⟩
    constructor
    · intro hcall _
      cases hcall
    · intro _ hret
      have : (serialportAutobaud p true rc).2 = false := Option.some.inj hret
      rw [hok, decide_eq_true hrc] at this
      cases this
    · exact honce.mpr (Bool.eq_false_iff.mpr fun hc => hgood ⟨h, .inl hc⟩)

theorem step_kept_stop (hrmt : p.rmt = true) (hinv : EnabledOnce p.calls)
    (h : p.running = true) (rc : Int) : ChannelKept p (.autobaud false, rc) := by
  obtain ⟨hcalls, _, _⟩ := serialportAutobaud_stop hrmt h rc
  constructor
  · intro _ _
    rw [autobaudStep, hcalls, channelEnabled_append]
    rfl
  · intro hcall _
    cases hcall
  · rw [autobaudStep, hcalls]
    exact enabledOnce_append.mpr ⟨hinv, fun hc => nomatch hc⟩

theorem step_kept_received (hinv : EnabledOnce p.calls) (symbols : List UInt32) (rc : Int) :
    ChannelKept p (.received symbols, rc) := by
  constructor
  · intro hcall _
    cases hcall
  · intro hcall _
    cases hcall
  · rw [autobaudStep, autobaudCallback, autobaudActivate_calls]
    exact enabledOnce_receive hinv rc

theorem step_kept_iff (hrmt : p.rmt = true) (hinv : EnabledOnce p.calls)
    (call : AutobaudCall × Int) : ChannelKept p call ↔ ¬FlagMisleads p call := by
  obtain ⟨call, rc⟩ := call
  cases call with
  | received symbols => exact iff_of_true (step_kept_received hinv symbols rc) id
  | autobaud enabled =>
    cases hrun : p.running with
    | false =>
      cases enabled with
      | false => exact step_kept_same hrmt hinv hrun rc
      | true => exact step_kept_start hrmt hinv hrun rc
    | true =>
      cases enabled with
      | false =>
        refine iff_of_true (step_kept_stop hrmt hinv hrun rc) ?_
        rintro ⟨hdown, _⟩
        rw [hrun] at hdown
        cases hdown
      | true => exact step_kept_same hrmt hinv hrun rc

theorem step_rmt (hrmt : p.rmt = true) (call : AutobaudCall × Int) :
    (autobaudStep p call).1.rmt = true := by
  obtain ⟨call, rc⟩ := call
  cases call with
  | received symbols => exact (autobaudActivate_rmt _ rc).trans hrmt
  | autobaud enabled =>
    have hcall : (serialportAutobaud p enabled rc).1.rmt = true := by
      rw [serialportAutobaud, if_neg (not_not.mpr hrmt)]
      split
      · exact hrmt
      split
      · exact (autobaudActivate_rmt _ rc).trans hrmt
      · exact hrmt
    exact hcall

end

/-! ## Whole runs -/

theorem autobaud_channel_iff (p : Autobaud) (calls : List (AutobaudCall × Int)) :
    Transducer.Throughout autobaudStep ChannelKept (serialportInit p true) calls ↔
      ∀ past call rest, calls = past ++ call :: rest →
        ¬FlagMisleads (Transducer.run autobaudStep (serialportInit p true) past) call := by
  have hexact : Transducer.Throughout autobaudStep ChannelKept (serialportInit p true) calls ↔
      Transducer.Throughout autobaudStep (fun p call => ¬FlagMisleads p call)
        (serialportInit p true) calls := by
    apply Transducer.throughout_iff_of_invariant fun p => p.rmt = true ∧ EnabledOnce p.calls
    · rintro p call ⟨hrmt, hinv⟩
      exact step_kept_iff hrmt hinv call
    · rintro p call ⟨hrmt, _⟩ hkept
      exact ⟨step_rmt hrmt call, hkept.once⟩
    · refine ⟨rfl, ?_⟩
      intro past rest hcalls
      cases List.append_ne_nil_of_right_ne_nil past (List.cons_ne_nil _ rest) hcalls.symm
  rw [hexact, Transducer.throughout_iff_forall]

theorem autobaud_left_enabled :
    ¬Transducer.Throughout autobaudStep ChannelKept
      (serialportInit ⟨false, [], [], false, false, []⟩ true) [(.autobaud true, -1)] := by
  rintro ⟨hkept, _⟩
  exact absurd (hkept.refused rfl rfl) (by decide)

end Wifimodem
