import Wifimodem.Lib.Turns
import Wifimodem.Phy.AutobaudCalculate

/-!
# Measuring while the line is recorded

`serialport_read` measures the rate when the callback of the receive channel has left
a recording, and the callback may come again at any point of the calculation and put
other symbols in the place of those already looked at. A symbol is one word, and is
read at once.
-/

namespace Wifimodem

/-- The symbols that the channel has stored in the buffer. -/
abbrev Recording := { symbols : List UInt32 // symbols.length = serialAutobaudBuffer }

inductive CalculatePc where
  | idle
  | shortest (n : Nat) (found : Nat × Nat)
  | totals (n M S : Nat) (N : Int)
deriving DecidableEq

/-- `current` is set while the samples are of a recording that was not given up by a
start or a stop before it was measured. -/
structure Capturing where
  port : MeasuredPort
  pc : CalculatePc
  current : Bool

inductive CaptureTurn where
  | read
  | work
  | autobaud (enabled : Bool) (rc : Int)
  | received (symbols : Recording) (rc : Int)

def serialBaudrateDefault : Int := 115200

/-- The port after `serialport_init`, with a receive channel. -/
def Capturing.init (p : MeasuredPort) : Capturing where
  port :=
    { p with
      toAutobaud := serialportInit p.toAutobaud true
      timing := 0
      error := 0
      realrate := 0
      autobaudBaudrate := 0
      baudrate := serialBaudrateDefault }
  pc := .idle
  current := false

section
variable (uart : Int → Int → Int)

/-- What follows the two loops over the symbols. -/
def finishCalculation (p : MeasuredPort) (S : Nat) (N : Int) : Option MeasuredPort :=
  if N ≤ 0 then some p
  else do
    let D ← divide S N
    let R ← divide serialAutobaudResolution D
    let best ← rateLoop (truncate R) gBaudrates 0 1073741824
    let p :=
      { p with timing := D, error := best.2, realrate := truncate R, autobaudBaudrate := best.1 }
    if best.1 ≠ p.baudrate ∧ uart p.port best.1 = 0 then some { p with baudrate := best.1 }
    else some p

/-- One more symbol is looked at, or the loop is left. -/
def calculateTurn (s : Capturing) : Option Capturing :=
  match s.pc with
  | .idle => none
  | .shortest n found =>
    if n < serialAutobaudSamples then
      some { s with pc := .shortest (n + 1) (shortestStep found (s.port.samples.getD n 0)) }
    else if found.2 ≤ 2 then some { s with pc := .idle }
    else some { s with pc := .totals 0 found.1 0 0 }
  | .totals n M S N =>
    if n < serialAutobaudSamples then do
      let k := symbolLength (s.port.samples.getD n 0)
      let q ← divide k M
      some { s with pc := .totals (n + 1) M (S + k) (N + ⌊q + 1 / 2⌋) }
    else do
      let p ← finishCalculation uart s.port S N
      some { s with port := p, pc := .idle }

/-- The task reads, starts and stops between two calculations; the callback comes at
any time. -/
def captureTurn (s : Capturing) : CaptureTurn → Option Capturing
  | .read =>
    if s.pc ≠ .idle then none
    else if s.port.ready then
      some { s with port := s.port.cleared, pc := .shortest 0 (65536, 0) }
    else some s
  | .work => calculateTurn uart s
  | .autobaud enabled rc =>
    if s.pc ≠ .idle then none
    else
      let (p, _) := serialportAutobaud s.port.toAutobaud enabled rc
      some
        { s with
          port := { s.port with toAutobaud := p }
          current := s.current && (p.ready || !s.port.ready) }
  | .received symbols rc =>
    let p := autobaudCallback { s.port.toAutobaud with buffer := symbols.val } rc
    some { s with port := { s.port with toAutobaud := p }, current := true }

/-! ## The calculation by itself -/

theorem autobaudCalculate_eq_finish (p : MeasuredPort) :
    autobaudCalculate uart p =
      if (p.symbols.foldl shortestStep (65536, 0)).2 ≤ 2 then some p.cleared
      else (totalsLoop (p.symbols.foldl shortestStep (65536, 0)).1 p.symbols 0 0).bind fun total =>
        finishCalculation uart p.cleared total.1 total.2 := rfl

/-- The results are those of the calculation on the samples that the port holds. -/
def Measured (p : MeasuredPort) : Prop :=
  ∃ p₀ q, p₀.samples = p.samples ∧ p₀.port = p.port ∧ autobaudCalculate uart p₀ = some q ∧
    q.timing = p.timing ∧ q.error = p.error ∧ q.realrate = p.realrate ∧
    q.autobaudBaudrate = p.autobaudBaudrate ∧ q.baudrate = p.baudrate

def InRange (baudrate : Int) : Prop := serialBaudrateMin ≤ baudrate ∧ baudrate ≤ serialBaudrateMax

theorem round_twice {k M : Nat} (hM : 0 < M) :
    0 ≤ ⌊(k : Rat) / M + 1 / 2⌋ ∧ ⌊(k : Rat) / M + 1 / 2⌋ ≤ 2 * k := by
  have hMone : (1 : Rat) ≤ M := Nat.one_le_cast.mpr hM
  have hk : (0 : Rat) ≤ k := Nat.cast_nonneg k
  have hquot : (0 : Rat) ≤ k / M := div_nonneg hk (by linarith)
  have hself : (k : Rat) / M ≤ k := div_le_self hk hMone
  constructor
  · apply Int.floor_nonneg.mpr
    linarith
  · apply Int.lt_add_one_iff.mp
    apply Int.floor_lt.mpr
    push_cast
    linarith

theorem finishCalculation_some {p : MeasuredPort} {S : Nat} {N : Int} (htwice : N ≤ 2 * S)
    (hrange : InRange p.baudrate) :
    ∃ q, finishCalculation uart p S N = some q ∧ q.toAutobaud = p.toAutobaud ∧
      q.port = p.port ∧ InRange q.baudrate := by
  rw [finishCalculation]
  split
  · exact ⟨p, rfl, rfl, rfl, hrange⟩
  · rename_i hN
    have hN : 0 < N := by omega
    have hS : 0 < S := by omega
    obtain ⟨hD, hR⟩ := divide_rate hS hN
    obtain ⟨hint, hlo, hhi⟩ := rate_bounds hS hN htwice
    rw [← hint] at hlo hhi
    obtain ⟨b, hrun, hb⟩ := rateLoop_table hlo hhi
    have hmem : b ∈ baudrates := by
      obtain ⟨before, after, hl, -⟩ := hb
      rw [hl]
      exact List.mem_append_right _ List.mem_cons_self
    have htable : ∀ rate ∈ baudrates, serialBaudrateMin ≤ rate ∧ rate ≤ serialBaudrateMax := by
      decide
    simp only [hD, hR, hrun, Option.bind_eq_bind, Option.bind_some]
    split
    · exact ⟨_, rfl, rfl, rfl, htable b hmem⟩
    · exact ⟨_, rfl, rfl, rfl, hrange⟩

/-! ## The turns -/

/-- No divisor is zero, whatever symbols are looked at next. -/
def SafePc : CalculatePc → Prop
  | .idle => True
  | .shortest n found => n ≤ serialAutobaudSamples ∧ 0 < found.1
  | .totals n M S N => n ≤ serialAutobaudSamples ∧ 0 < M ∧ N ≤ 2 * S

structure Sound (s : Capturing) : Prop where
  length : s.port.samples.length = serialAutobaudSamples
  range : InRange s.port.baudrate
  current : s.port.ready = true → s.current = true
  safe : SafePc s.pc

/-- What has been calculated so far is about the samples that the port holds. -/
def Undisturbed (s : Capturing) : Prop :=
  match s.pc with
  | .idle => Measured uart s.port
  | .shortest n found =>
    s.port.cleared = s.port ∧ found = (s.port.samples.take n).foldl shortestStep (65536, 0)
  | .totals n M S N =>
    s.port.cleared = s.port ∧ 2 < (s.port.symbols.foldl shortestStep (65536, 0)).2 ∧
      M = (s.port.symbols.foldl shortestStep (65536, 0)).1 ∧
      S = ((s.port.samples.take n).map symbolLength).sum ∧ N = bitCount M (s.port.samples.take n)

/-- If no recording waits to be measured, the last one has been, or is on the way. -/
structure CaptureKept (s : Capturing) : Prop where
  sound : Sound s
  undisturbed : s.port.ready = false → s.current = true → Undisturbed uart s

theorem shortestStep_pos {found : Nat × Nat} (h : 0 < found.1) (symbol : UInt32) :
    0 < (shortestStep found symbol).1 := by
  simp only [shortestStep]
  split <;> split <;> omega

theorem take_samples {samples : List UInt32} {n : Nat} (hn : n < samples.length) :
    samples.take (n + 1) = samples.take n ++ [samples.getD n 0] := by
  rw [List.take_succ_eq_append_getElem hn, List.getD, List.getElem?_eq_getElem hn,
    Option.getD_some]

theorem take_symbols (p : MeasuredPort) {n : Nat} (hle : n ≤ serialAutobaudSamples)
    (hn : ¬n < serialAutobaudSamples) : p.samples.take n = p.symbols := by
  rw [MeasuredPort.symbols, Nat.le_antisymm hle (Nat.le_of_not_lt hn)]

theorem kept_shortest {s : Capturing} (h : CaptureKept uart s) {n : Nat} {found : Nat × Nat}
    (hpc : s.pc = .shortest n found) :
    ∃ s', calculateTurn uart s = some s' ∧ CaptureKept uart s' := by
  obtain ⟨⟨hlength, hrange, hcurrent, hsafe⟩, hundisturbed⟩ := h
  rw [Undisturbed, hpc] at hundisturbed
  simp only at hundisturbed
  rw [hpc] at hsafe
  obtain ⟨hle, hpos⟩ := hsafe
  rw [calculateTurn, hpc]
  simp only
  split
  · rename_i hn
    refine ⟨_, rfl, ⟨hlength, hrange, hcurrent, hn, shortestStep_pos hpos _⟩, ?_⟩
    intro hready hcur
    obtain ⟨hcleared, hfound⟩ := hundisturbed hready hcur
    refine ⟨hcleared, ?_⟩
    rw [take_samples (hlength ▸ hn), List.foldl_append, ← hfound]
    rfl
  rename_i hn
  rw [take_symbols s.port hle hn] at hundisturbed
  split
  · rename_i hfew
    refine ⟨_, rfl, ⟨hlength, hrange, hcurrent, trivial⟩, fun hready hcur => ?_⟩
    obtain ⟨hcleared, hfound⟩ := hundisturbed hready hcur
    refine ⟨s.port, s.port, rfl, rfl, ?_, rfl, rfl, rfl, rfl, rfl⟩
    rw [autobaudCalculate_eq_finish, ← hfound, if_pos hfew, hcleared]
  · rename_i hmany
    refine ⟨_, rfl, ⟨hlength, hrange, hcurrent, Nat.zero_le _, hpos, Int.le_refl 0⟩,
      fun hready hcur => ?_⟩
    obtain ⟨hcleared, hfound⟩ := hundisturbed hready hcur
    refine ⟨hcleared, hfound ▸ Nat.lt_of_not_le hmany, congrArg Prod.fst hfound, ?_, ?_⟩
    · rw [List.take_zero, List.map_nil, List.sum_nil]
    · rw [List.take_zero, bitCount, List.map_nil, List.sum_nil]

theorem kept_totals {s : Capturing} (h : CaptureKept uart s) {n M S : Nat} {N : Int}
    (hpc : s.pc = .totals n M S N) :
    ∃ s', calculateTurn uart s = some s' ∧ CaptureKept uart s' := by
  obtain ⟨⟨hlength, hrange, hcurrent, hsafe⟩, hundisturbed⟩ := h
  rw [Undisturbed, hpc] at hundisturbed
  simp only at hundisturbed
  rw [hpc] at hsafe
  obtain ⟨hle, hM, htwice⟩ := hsafe
  have hMne : (M : Rat) ≠ 0 := Nat.cast_ne_zero.mpr (Nat.ne_of_gt hM)
  rw [calculateTurn, hpc]
  simp only
  split
  · rename_i hn
    obtain ⟨-, hround⟩ := round_twice (k := symbolLength (s.port.samples.getD n 0)) hM
    rw [divide_eq hMne, Option.bind_eq_bind, Option.bind_some]
    refine ⟨_, rfl, ⟨hlength, hrange, hcurrent, hn, hM, by push_cast; omega⟩, ?_⟩
    intro hready hcur
    obtain ⟨hcleared, hmany, hshortest, hS, hN⟩ := hundisturbed hready hcur
    refine ⟨hcleared, hmany, hshortest, ?_, ?_⟩
    · rw [take_samples (hlength ▸ hn), List.map_append, List.sum_append, ← hS]
      simp
    · rw [take_samples (hlength ▸ hn), bitCount, List.map_append, List.sum_append, ← bitCount, ← hN,
        ← round_eq]
      simp
  · rename_i hn
    obtain ⟨q, hq, hautobaud, hport, hrange'⟩ := finishCalculation_some uart htwice hrange
    rw [hq, Option.bind_eq_bind, Option.bind_some]
    have hsamples : q.samples = s.port.samples := congrArg Autobaud.samples hautobaud
    have hready' : q.ready = s.port.ready := congrArg Autobaud.ready hautobaud
    refine ⟨_, rfl, ⟨by rw [hsamples]; exact hlength, hrange', ?_, trivial⟩, ?_⟩
    · rw [hready']
      exact hcurrent
    · intro hready hcur
      rw [hready'] at hready
      obtain ⟨hcleared, hmany, hshortest, hS, hN⟩ := hundisturbed hready hcur
      rw [take_symbols s.port hle hn] at hS hN
      refine ⟨s.port, q, hsamples.symm, hport.symm, ?_, rfl, rfl, rfl, rfl, rfl⟩
      rw [autobaudCalculate_eq_finish, if_neg (Nat.not_le.mpr hmany), ← hshortest,
        totalsLoop_eq hM, Option.bind_some, Nat.zero_add, Int.zero_add, ← hS, ← hN, hcleared]
      exact hq

/-- A calculation that has begun goes on without a fault, also on symbols of two recordings. -/
theorem kept_calculate {s : Capturing} (h : CaptureKept uart s) (hpc : s.pc ≠ .idle) :
    ∃ s', calculateTurn uart s = some s' ∧ CaptureKept uart s' := by
  cases hcase : s.pc with
  | idle => exact absurd hcase hpc
  | shortest n found => exact kept_shortest uart h hcase
  | totals n M S N => exact kept_totals uart h hcase

theorem autobaudActivate_samples (p : Autobaud) (rc : Int) :
    (autobaudActivate p rc).1.samples = p.samples ∧ (autobaudActivate p rc).1.ready = p.ready := by
  rw [autobaudActivate]
  split <;> exact ⟨rfl, rfl⟩

theorem serialportAutobaud_samples (p : Autobaud) (enabled : Bool) (rc : Int) :
    (serialportAutobaud p enabled rc).1.samples = p.samples ∧
      ((serialportAutobaud p enabled rc).1.ready = p.ready ∨
        (serialportAutobaud p enabled rc).1.ready = false) := by
  rw [serialportAutobaud]
  split
  · exact ⟨rfl, .inl rfl⟩
  split
  · exact ⟨rfl, .inl rfl⟩
  simp only
  split
  · obtain ⟨hsamples, hready⟩ := autobaudActivate_samples
      (({ p with ready := false, running := false } : Autobaud).call .enable) rc
    exact ⟨hsamples, .inr hready⟩
  · exact ⟨rfl, .inr rfl⟩

theorem kept_read {s s' : Capturing} (h : CaptureKept uart s)
    (hturn : captureTurn uart s .read = some s') : CaptureKept uart s' := by
  obtain ⟨⟨hlength, hrange, hcurrent, hsafe⟩, hundisturbed⟩ := h
  simp only [captureTurn] at hturn
  split at hturn
  · cases hturn
  split at hturn
  · obtain rfl := Option.some.inj hturn
    refine ⟨⟨hlength, hrange, fun hready => ?_, Nat.zero_le _, by decide⟩, fun _ _ => ⟨rfl, rfl⟩⟩
    cases hready
  · obtain rfl := Option.some.inj hturn
    exact ⟨⟨hlength, hrange, hcurrent, hsafe⟩, hundisturbed⟩

theorem kept_autobaud {s s' : Capturing} (h : CaptureKept uart s) {enabled : Bool} {rc : Int}
    (hturn : captureTurn uart s (.autobaud enabled rc) = some s') : CaptureKept uart s' := by
  obtain ⟨⟨hlength, hrange, hcurrent, hsafe⟩, hundisturbed⟩ := h
  obtain ⟨hsamples, hready⟩ := serialportAutobaud_samples s.port.toAutobaud enabled rc
  simp only [captureTurn] at hturn
  split at hturn
  · cases hturn
  rename_i hidle
  rw [not_not] at hidle
  obtain rfl := Option.some.inj hturn
  refine ⟨⟨by rw [← hlength, ← hsamples], hrange, fun hset => ?_, hsafe⟩, fun hset hcur => ?_⟩
  · have hset : (serialportAutobaud s.port.toAutobaud enabled rc).1.ready = true := hset
    have hold : s.port.ready = true := by
      rcases hready with hsame | hdown
      · rw [← hsame, hset]
      · rw [hdown] at hset
        cases hset
    simp [hcurrent hold, hset]
  · have hset : (serialportAutobaud s.port.toAutobaud enabled rc).1.ready = false := hset
    simp only [hset, Bool.false_or, Bool.and_eq_true, Bool.not_eq_true'] at hcur
    have hbefore := hundisturbed hcur.2 hcur.1
    rw [Undisturbed, hidle] at hbefore
    rw [Undisturbed]
    simp only [hidle]
    obtain ⟨p₀, q, hp₀, hport, hrun, hresults⟩ := hbefore
    exact ⟨p₀, q, hp₀.trans hsamples.symm, hport, hrun, hresults⟩

theorem kept_received {s s' : Capturing} (h : CaptureKept uart s) {symbols : Recording} {rc : Int}
    (hturn : captureTurn uart s (.received symbols rc) = some s') : CaptureKept uart s' := by
  obtain ⟨⟨hlength, hrange, hcurrent, hsafe⟩, hundisturbed⟩ := h
  obtain rfl := Option.some.inj hturn
  obtain ⟨hsamples, hready⟩ := autobaudActivate_samples
    { s.port.toAutobaud with
      buffer := symbols.val
      samples := symbols.val.take serialAutobaudSamples
      ready := true
      running := false } rc
  refine ⟨⟨?_, hrange, fun _ => rfl, hsafe⟩, fun hdown => ?_⟩
  · rw [autobaudCallback, hsamples, List.length_take, symbols.property]
    decide
  · rw [autobaudCallback, hready] at hdown
    cases hdown

theorem kept_turn {s s' : Capturing} (h : CaptureKept uart s) {t : CaptureTurn}
    (hturn : captureTurn uart s t = some s') : CaptureKept uart s' := by
  cases t with
  | read => exact kept_read uart h hturn
  | autobaud enabled rc => exact kept_autobaud uart h hturn
  | received symbols rc => exact kept_received uart h hturn
  | work =>
    have hpc : s.pc ≠ .idle := by
      intro hidle
      rw [captureTurn, calculateTurn, hidle] at hturn
      cases hturn
    obtain ⟨s'', hrun, hkept⟩ := kept_calculate uart h hpc
    have heq : some s'' = some s' := hrun.symm.trans hturn
    exact Option.some.inj heq ▸ hkept

theorem kept_init {p : MeasuredPort} (hlength : p.samples.length = serialAutobaudSamples) :
    CaptureKept uart (.init p) := by
  have hdefault : InRange serialBaudrateDefault := ⟨by decide, by decide⟩
  refine ⟨⟨hlength, hdefault, fun hready => ?_, trivial⟩, fun _ hcur => ?_⟩
  · cases hready
  · cases hcur

end

def silence : Recording := ⟨List.replicate serialAutobaudBuffer 0, List.length_replicate⟩

def quietPort : MeasuredPort :=
  ⟨⟨false, silence.val, List.replicate serialAutobaudSamples 0, false, false, []⟩, 0, 0, 0, 0, 0, 0⟩

/-- The read of a first recording, at its first symbol. -/
def firstRead : Capturing :=
  (Turns.run (captureTurn fun _ _ => 0) (.init quietPort) [.received silence 0, .read]).getD
    (.init quietPort)

end Wifimodem
