import Mathlib.Algebra.Order.Floor.Ring
import Mathlib.Algebra.Order.Round
import Mathlib.Data.Rat.Floor
import Wifimodem.Phy.SerialAutobaud
import Wifimodem.Phy.Serialport

/-!
# The baud rate of a recorded line

From the durations of the pulses that were recorded, the rate of the sender is
computed and the nearest standard rate is chosen. The numbers of type `float` are
rational here, and a division by zero has no result.
-/

namespace Wifimodem

def serialAutobaudResolution : Rat := 1000000

/-- The table, and the zero that ends it. -/
def gBaudrates : List Int :=
  [110, 300, 600, 1200, 2400, 4800, 9600, 19200, 38400, 57600, 115200, 0]

/-- A recorded symbol holds two durations of 15 bits, each with the level above it. -/
def duration0 (symbol : UInt32) : Nat := symbol.toNat % 2 ^ 15
def duration1 (symbol : UInt32) : Nat := symbol.toNat / 2 ^ 16 % 2 ^ 15

/-- A serial port with the results of the last measurement. -/
structure MeasuredPort extends Autobaud where
  port : Int
  timing : Rat
  error : Rat
  realrate : Int
  autobaudBaudrate : Int
  baudrate : Int

def MeasuredPort.symbols (p : MeasuredPort) : List UInt32 := p.samples.take serialAutobaudSamples

/-- The shortest duration so far, and the number of symbols that are not empty. -/
def shortestStep (found : Nat × Nat) (symbol : UInt32) : Nat × Nat :=
  let i := duration0 symbol
  let j := duration1 symbol
  let M := if i > 0 ∧ found.1 > i then i else found.1
  let M := if j > 0 ∧ M > j then j else M
  (M, if i ≠ 0 ∨ j ≠ 0 then found.2 + 1 else found.2)

def divide (x y : Rat) : Option Rat := if y = 0 then none else some (x / y)

/-- A `float` becomes an `int` by dropping the fraction. -/
def truncate (x : Rat) : Int := if x < 0 then ⌈x⌉ else ⌊x⌋

def totalsLoop (M : Nat) : List UInt32 → Nat → Int → Option (Nat × Int)
  | [], S, N => some (S, N)
  | symbol :: symbols, S, N => do
    let k := duration0 symbol + duration1 symbol
    let q ← divide k M
    totalsLoop M symbols (S + k) (N + ⌊q + 1 / 2⌋)

def rateLoop (R : Int) : List Int → Int → Rat → Option (Int × Rat)
  | [], B, E => some (B, E)
  | rate :: rates, B, E =>
    if rate = 0 then some (B, E)
    else do
      let q ← divide R rate
      let ee := 100 * |q - 1|
      if ee < E then rateLoop R rates rate ee else rateLoop R rates B E

/-- `uart` answers `uart_set_baudrate` for a port and a rate; `ESP_OK` is zero. -/
def autobaudCalculate (uart : Int → Int → Int) (p : MeasuredPort) : Option MeasuredPort :=
  let p :=
    { p with ready := false, timing := 0, error := 0, realrate := 0, autobaudBaudrate := 0 }
  let found := p.symbols.foldl shortestStep (65536, 0)
  if found.2 ≤ 2 then some p
  else do
    let total ← totalsLoop found.1 p.symbols 0 0
    if total.2 ≤ 0 then some p
    else do
      let D ← divide total.1 total.2
      let R ← divide serialAutobaudResolution D
      let best ← rateLoop (truncate R) gBaudrates 0 1073741824
      let p :=
        { p with timing := D, error := best.2, realrate := truncate R, autobaudBaudrate := best.1 }
      if best.1 ≠ p.baudrate ∧ uart p.port best.1 = 0 then some { p with baudrate := best.1 }
      else some p

/-! ## What a recording says -/

def pulses (symbols : List UInt32) : List Nat :=
  (symbols.flatMap fun symbol => [duration0 symbol, duration1 symbol]).filter (0 < ·)

def busy (symbol : UInt32) : Bool := duration0 symbol ≠ 0 ∨ duration1 symbol ≠ 0

def symbolLength (symbol : UInt32) : Nat := duration0 symbol + duration1 symbol

/-- The number of bits when one of them lasts `M`. -/
def bitCount (M : Nat) (symbols : List UInt32) : Int :=
  (symbols.map fun symbol => round ((symbolLength symbol : Rat) / M)).sum

def baudrates : List Int := gBaudrates.takeWhile (· ≠ 0)

def rateError (R rate : Int) : Rat := |(R : Rat) / rate - 1|

/-- `b` has the least value of the list, and no other one in front of it has. -/
def FirstLeast {α : Type} (f : α → Rat) (l : List α) (b : α) : Prop :=
  ∃ before after, l = before ++ b :: after ∧ (∀ c ∈ before, f b < f c) ∧ ∀ c ∈ after, f b ≤ f c

variable {symbols : List UInt32} {symbol : UInt32} {M : Nat}

theorem duration_lt (symbol : UInt32) : duration0 symbol < 2 ^ 15 ∧ duration1 symbol < 2 ^ 15 :=
  ⟨Nat.mod_lt _ (by decide), Nat.mod_lt _ (by decide)⟩

theorem mem_pulses {d : Nat} :
    d ∈ pulses symbols ↔ 0 < d ∧ ∃ s ∈ symbols, d = duration0 s ∨ d = duration1 s := by
  simp only [pulses, List.mem_filter, List.mem_flatMap, List.mem_cons, List.not_mem_nil, or_false,
    decide_eq_true_eq]
  exact and_comm

theorem pulses_cons (symbol : UInt32) (symbols : List UInt32) :
    pulses (symbol :: symbols) = pulses [symbol] ++ pulses symbols := by
  rw [pulses, pulses, pulses, ← List.filter_append]
  simp

/-! ## The shortest pulse -/

theorem shortestStep_least (found : Nat × Nat) (symbol : UInt32) :
    (shortestStep found symbol).1 ≤ found.1 ∧
      (∀ d ∈ pulses [symbol], (shortestStep found symbol).1 ≤ d) ∧
      ((shortestStep found symbol).1 = found.1 ∨
        (shortestStep found symbol).1 ∈ pulses [symbol]) := by
  simp only [mem_pulses, List.mem_singleton, exists_eq_left, shortestStep]
  generalize duration0 symbol = i
  generalize duration1 symbol = j
  refine ⟨?_, ?_, ?_⟩
  · split <;> split <;> omega
  · rintro d ⟨hpos, rfl | rfl⟩ <;> split <;> split <;> omega
  · split <;> split <;> omega

theorem shortest_fold (symbols : List UInt32) (found : Nat × Nat) :
    (symbols.foldl shortestStep found).2 = found.2 + symbols.countP busy ∧
      (symbols.foldl shortestStep found).1 ≤ found.1 ∧
      (∀ d ∈ pulses symbols, (symbols.foldl shortestStep found).1 ≤ d) ∧
      ((symbols.foldl shortestStep found).1 = found.1 ∨
        (symbols.foldl shortestStep found).1 ∈ pulses symbols) := by
  induction symbols generalizing found with
  | nil => exact ⟨rfl, Nat.le_refl _, fun d hd => absurd hd List.not_mem_nil, .inl rfl⟩
  | cons symbol symbols ih =>
    obtain ⟨hcount, hle, hleast, hfrom⟩ := ih (shortestStep found symbol)
    obtain ⟨hle', hleast', hfrom'⟩ := shortestStep_least found symbol
    rw [List.foldl_cons, pulses_cons]
    refine ⟨?_, Nat.le_trans hle hle', fun d hd => ?_, ?_⟩
    · rw [hcount, List.countP_cons, shortestStep, busy]
      simp only [decide_eq_true_eq]
      split <;> omega
    · cases List.mem_append.mp hd with
      | inl hd => exact Nat.le_trans hle (hleast' d hd)
      | inr hd => exact hleast d hd
    · rw [List.mem_append]
      obtain hsame | hnew := hfrom
      · rw [hsame]
        exact hfrom'.imp_right .inl
      · exact .inr (.inr hnew)

/-- With a symbol that is not empty, the shortest pulse is found. -/
theorem shortest_isLeast (hbusy : ∃ s ∈ symbols, busy s = true) :
    IsLeast {d | d ∈ pulses symbols} (symbols.foldl shortestStep (65536, 0)).1 := by
  obtain ⟨-, -, hleast, hfrom⟩ := shortest_fold symbols (65536, 0)
  refine ⟨hfrom.resolve_left fun hnone => ?_, hleast⟩
  obtain ⟨s, hs, hbusy⟩ := hbusy
  have hlt := duration_lt s
  have hbusy := of_decide_eq_true hbusy
  have hd : ∃ d ∈ pulses symbols, d < 65536 := by
    cases hbusy with
    | inl h => exact ⟨_, mem_pulses.mpr ⟨Nat.pos_of_ne_zero h, s, hs, .inl rfl⟩, by omega⟩
    | inr h => exact ⟨_, mem_pulses.mpr ⟨Nat.pos_of_ne_zero h, s, hs, .inr rfl⟩, by omega⟩
  obtain ⟨d, hd, hsmall⟩ := hd
  have hle := hleast d hd
  omega

/-! ## The number of bits -/

theorem divide_eq {x y : Rat} (hy : y ≠ 0) : divide x y = some (x / y) := by
  rw [divide, if_neg hy]

theorem bitCount_cons (M : Nat) (symbol : UInt32) (symbols : List UInt32) :
    bitCount M (symbol :: symbols) =
      round ((symbolLength symbol : Rat) / M) + bitCount M symbols := by
  rw [bitCount, List.map_cons, List.sum_cons, bitCount]

theorem totalsLoop_eq (hM : 0 < M) (symbols : List UInt32) (S : Nat) (N : Int) :
    totalsLoop M symbols S N =
      some (S + (symbols.map symbolLength).sum, N + bitCount M symbols) := by
  induction symbols generalizing S N with
  | nil =>
    rw [totalsLoop, List.map_nil, List.sum_nil, bitCount, List.map_nil, List.sum_nil]
    simp
  | cons symbol symbols ih =>
    have hM : (M : Rat) ≠ 0 := Nat.cast_ne_zero.mpr (Nat.ne_of_gt hM)
    rw [totalsLoop, divide_eq hM, Option.bind_eq_bind, Option.bind_some, ← round_eq, ih,
      List.map_cons, List.sum_cons, bitCount_cons, ← symbolLength, Nat.add_assoc, Int.add_assoc]

theorem round_bounds {k : Nat} (hM : 0 < M) (hle : M ≤ k) :
    1 ≤ round ((k : Rat) / M) ∧ round ((k : Rat) / M) ≤ 2 * k := by
  have hMpos : (0 : Rat) < M := Nat.cast_pos.mpr hM
  have hMone : (1 : Rat) ≤ M := Nat.one_le_cast.mpr hM
  have hkM : (M : Rat) ≤ k := Nat.cast_le.mpr hle
  have hone : (1 : Rat) ≤ k / M := (one_le_div hMpos).mpr hkM
  have hself : (k : Rat) / M ≤ k := div_le_self (by linarith) hMone
  constructor
  · rw [round_eq]
    apply Int.le_floor.mpr
    rw [Int.cast_one]
    linarith
  · have hfloor := Int.floor_le ((k : Rat) / M + 1 / 2)
    rw [← round_eq] at hfloor
    have hcast : (round ((k : Rat) / M) : Rat) ≤ ((2 * k : Int) : Rat) := by
      push_cast
      linarith
    exact Int.cast_le.mp hcast

theorem le_symbolLength (hpulse : ∀ d ∈ pulses [symbol], M ≤ d) (hne : symbolLength symbol ≠ 0) :
    M ≤ symbolLength symbol := by
  rw [symbolLength] at hne ⊢
  cases Nat.eq_zero_or_pos (duration0 symbol) with
  | inr hpos =>
    have hle := hpulse _ (mem_pulses.mpr ⟨hpos, symbol, List.mem_singleton_self _, .inl rfl⟩)
    omega
  | inl hzero =>
    have hpos : 0 < duration1 symbol := by omega
    have hle := hpulse _ (mem_pulses.mpr ⟨hpos, symbol, List.mem_singleton_self _, .inr rfl⟩)
    omega

theorem symbolLength_of_busy (h : busy symbol = true) : symbolLength symbol ≠ 0 := by
  have hne := of_decide_eq_true h
  rw [symbolLength]
  omega

/-- An empty symbol has no bits; any other one has some, and at most twice its length. -/
theorem bits_of_symbol (hM : 0 < M) (hpulse : ∀ d ∈ pulses [symbol], M ≤ d) :
    0 ≤ round ((symbolLength symbol : Rat) / M) ∧
      round ((symbolLength symbol : Rat) / M) ≤ 2 * symbolLength symbol ∧
      (busy symbol = true → 0 < round ((symbolLength symbol : Rat) / M)) := by
  cases Decidable.em (symbolLength symbol = 0) with
  | inl hzero =>
    have hempty : busy symbol = false :=
      Bool.eq_false_iff.mpr fun h => symbolLength_of_busy h hzero
    simp [hzero, hempty]
  | inr hne =>
    obtain ⟨hone, htwice⟩ := round_bounds hM (le_symbolLength hpulse hne)
    exact ⟨by omega, htwice, fun _ => by omega⟩

theorem bitCount_bounds (hM : 0 < M) (hleast : ∀ d ∈ pulses symbols, M ≤ d) :
    0 ≤ bitCount M symbols ∧ bitCount M symbols ≤ 2 * (symbols.map symbolLength).sum ∧
      ((∃ s ∈ symbols, busy s = true) → 0 < bitCount M symbols) := by
  induction symbols with
  | nil => simp [bitCount]
  | cons symbol symbols ih =>
    rw [pulses_cons] at hleast
    obtain ⟨hlo, hhi, hpos⟩ := bits_of_symbol hM fun d hd => hleast d (List.mem_append_left _ hd)
    obtain ⟨hlo', hhi', hpos'⟩ := ih fun d hd => hleast d (List.mem_append_right _ hd)
    rw [bitCount_cons, List.map_cons, List.sum_cons]
    refine ⟨by omega, by omega, ?_⟩
    rintro ⟨s, hs, hbusy⟩
    cases List.mem_cons.mp hs with
    | inl heq =>
      have hfirst := hpos (heq ▸ hbusy)
      omega
    | inr hs =>
      have hrest := hpos' ⟨s, hs, hbusy⟩
      omega

/-! ## The nearest rate -/

section
variable {α : Type} {f : α → Rat} {l : List α} {b c best : α}

/-- A better element takes the place of the best one so far. -/
theorem FirstLeast.cons_better (h : FirstLeast f (c :: l) best) (hlt : f c < f b) :
    FirstLeast f (b :: c :: l) best := by
  obtain ⟨before, after, hl, hbefore, hafter⟩ := h
  refine ⟨b :: before, after, congrArg (b :: ·) hl, ?_, hafter⟩
  rw [List.forall_mem_cons]
  refine ⟨lt_of_le_of_lt ?_ hlt, hbefore⟩
  cases before with
  | nil => exact le_of_eq (congrArg f (List.cons.inj hl).1.symm)
  | cons d before => exact (List.cons.inj hl).1 ▸ (hbefore d List.mem_cons_self).le

/-- Another one is passed over. -/
theorem FirstLeast.cons_worse (h : FirstLeast f (b :: l) best) (hle : f b ≤ f c) :
    FirstLeast f (b :: c :: l) best := by
  obtain ⟨before, after, hl, hbefore, hafter⟩ := h
  cases before with
  | nil =>
    obtain ⟨rfl, rfl⟩ := List.cons.inj hl
    exact ⟨[], c :: l, rfl, hbefore, List.forall_mem_cons.mpr ⟨hle, hafter⟩⟩
  | cons d before =>
    obtain ⟨rfl, rfl⟩ := List.cons.inj hl
    obtain ⟨hb, hbefore⟩ := List.forall_mem_cons.mp hbefore
    refine ⟨b :: c :: before, after, rfl, ?_, hafter⟩
    rw [List.forall_mem_cons, List.forall_mem_cons]
    exact ⟨hb, lt_of_lt_of_le hb hle, hbefore⟩

end

theorem rateLoop_cons (R : Int) {rate : Int} (hrate : rate ≠ 0) (rates : List Int) (B : Int)
    (E : Rat) : rateLoop R (rate :: rates) B E =
      if 100 * rateError R rate < E then rateLoop R rates rate (100 * rateError R rate)
      else rateLoop R rates B E := by
  rw [rateLoop, if_neg hrate, divide_eq (Int.cast_ne_zero.mpr hrate), Option.bind_eq_bind,
    Option.bind_some, rateError]

theorem rateLoop_nearest (R : Int) (rates rest : List Int) (h : ∀ rate ∈ rates, rate ≠ 0)
    (b : Int) :
    ∃ best, rateLoop R (rates ++ 0 :: rest) b (100 * rateError R b) =
      some (best, 100 * rateError R best) ∧ FirstLeast (rateError R) (b :: rates) best := by
  induction rates generalizing b with
  | nil =>
    have hnone : ∀ c ∈ ([] : List Int), rateError R b < rateError R c := by simp
    exact ⟨b, rfl, [], [], rfl, hnone, fun c hc => (hnone c hc).le⟩
  | cons rate rates ih =>
    obtain ⟨hrate, hrates⟩ := List.forall_mem_cons.mp h
    rw [List.cons_append, rateLoop_cons R hrate]
    split
    · rename_i hlt
      obtain ⟨best, hrun, hbest⟩ := ih hrates rate
      exact ⟨best, hrun, hbest.cons_better (by linarith)⟩
    · rename_i hge
      obtain ⟨best, hrun, hbest⟩ := ih hrates b
      exact ⟨best, hrun, hbest.cons_worse (by linarith)⟩

/-- The initial error is greater than that of the first rate. -/
theorem rateLoop_table {R : Int} (hlo : 0 ≤ R) (hhi : R ≤ 2000000) :
    ∃ best, rateLoop R gBaudrates 0 1073741824 = some (best, 100 * rateError R best) ∧
      FirstLeast (rateError R) baudrates best := by
  obtain ⟨best, hrun, hbest⟩ := rateLoop_nearest R
    [300, 600, 1200, 2400, 4800, 9600, 19200, 38400, 57600, 115200] [] (by decide) 110
  have hfirst : 100 * rateError R 110 < 1073741824 := by
    have hlo : (0 : Rat) ≤ R := Int.cast_nonneg hlo
    have hhi : (R : Rat) ≤ 2000000 := by exact_mod_cast hhi
    have habs : rateError R 110 ≤ 2000000 := by
      rw [rateError, abs_le]
      constructor <;> push_cast <;> linarith
    linarith
  refine ⟨best, ?_, hbest⟩
  rw [gBaudrates, rateLoop_cons R (by decide), if_pos hfirst]
  exact hrun

/-! ## The calculation -/

/-- The measured rate: bits in the unit of time. -/
def measuredRate (M : Nat) (symbols : List UInt32) : Int :=
  ⌊(1000000 * bitCount M symbols / (symbols.map symbolLength).sum : Rat)⌋

def MeasuredPort.cleared (p : MeasuredPort) : MeasuredPort :=
  { p with ready := false, timing := 0, error := 0, realrate := 0, autobaudBaudrate := 0 }

theorem divide_rate {S : Nat} {N : Int} (hS : 0 < S) (hN : 0 < N) :
    divide S N = some ((S : Rat) / N) ∧
      divide serialAutobaudResolution ((S : Rat) / N) = some (1000000 * N / S : Rat) := by
  have hS : (0 : Rat) < S := Nat.cast_pos.mpr hS
  have hN : (0 : Rat) < N := Int.cast_pos.mpr hN
  rw [divide_eq (ne_of_gt hN), divide_eq (ne_of_gt (div_pos hS hN)), serialAutobaudResolution,
    div_div_eq_mul_div]
  exact ⟨rfl, rfl⟩

/-- A bit lasts half a unit of time at least. -/
theorem rate_bounds {S : Nat} {N : Int} (hS : 0 < S) (hN : 0 < N) (htwice : N ≤ 2 * S) :
    truncate (1000000 * N / S) = ⌊(1000000 * N / S : Rat)⌋ ∧
      0 ≤ ⌊(1000000 * N / S : Rat)⌋ ∧ ⌊(1000000 * N / S : Rat)⌋ ≤ 2000000 := by
  have hS : (0 : Rat) < S := Nat.cast_pos.mpr hS
  have hN : (0 : Rat) < N := Int.cast_pos.mpr hN
  have hnonneg : (0 : Rat) ≤ 1000000 * N / S := by positivity
  have hbits : (N : Rat) ≤ 2 * S := by exact_mod_cast htwice
  have hquot : (1000000 * N / S : Rat) ≤ 2000000 := (div_le_iff₀ hS).mpr (by linarith)
  refine ⟨if_neg (not_lt.mpr hnonneg), Int.floor_nonneg.mpr hnonneg, ?_⟩
  rw [Int.floor_le_iff]
  push_cast
  linarith

/-- When the port has the rate already, the driver is not called. -/
theorem set_baudrate (uart : Int → Int → Int) (p : MeasuredPort) (b : Int) :
    (if b ≠ p.baudrate ∧ uart p.port b = 0 then some { p with baudrate := b } else some p) =
      some { p with baudrate := if uart p.port b = 0 then b else p.baudrate } := by
  cases Decidable.em (uart p.port b = 0) with
  | inr hno => rw [if_neg hno, if_neg fun hset => hno hset.2]
  | inl hyes =>
    rw [if_pos hyes]
    cases Decidable.em (b = p.baudrate) with
    | inr hne => exact if_pos ⟨hne, hyes⟩
    | inl heq => rw [if_neg fun hset => hset.1 heq, heq]

theorem autobaudCalculate_few (uart : Int → Int → Int) (p : MeasuredPort)
    (h : p.symbols.countP busy ≤ 2) : autobaudCalculate uart p = some p.cleared := by
  have hfound := (shortest_fold p.symbols (65536, 0)).1
  rw [Nat.zero_add] at hfound
  have hfew : (p.symbols.foldl shortestStep (65536, 0)).2 ≤ 2 := by rwa [hfound]
  exact if_pos hfew

/-- With enough symbols every divisor is positive, and a rate of the table is found. -/
theorem autobaudCalculate_many (uart : Int → Int → Int) (p : MeasuredPort)
    (h : 2 < p.symbols.countP busy) :
    ∃ M b timing error, IsLeast {d | d ∈ pulses p.symbols} M ∧
      FirstLeast (rateError (measuredRate M p.symbols)) baudrates b ∧
      autobaudCalculate uart p =
        some { p.cleared with
          timing := timing
          error := error
          realrate := measuredRate M p.symbols
          autobaudBaudrate := b
          baudrate := if uart p.port b = 0 then b else p.baudrate } := by
  have hfound := (shortest_fold p.symbols (65536, 0)).1
  rw [Nat.zero_add] at hfound
  have hmany : ¬(p.symbols.foldl shortestStep (65536, 0)).2 ≤ 2 := by
    rw [hfound]
    exact Nat.not_le.mpr h
  have hbusy : ∃ s ∈ p.symbols, busy s = true := List.countP_pos_iff.mp (Nat.zero_lt_of_lt h)
  have hleast := shortest_isLeast hbusy
  generalize hM : (p.symbols.foldl shortestStep (65536, 0)).1 = M at hleast
  have hMpos : 0 < M := (mem_pulses.mp hleast.1).1
  have htotal := totalsLoop_eq hMpos p.symbols 0 0
  rw [Nat.zero_add, Int.zero_add] at htotal
  obtain ⟨-, htwice, hpos⟩ := bitCount_bounds hMpos fun d hd => hleast.2 hd
  have hNpos := hpos hbusy
  have hSpos : 0 < (p.symbols.map symbolLength).sum := by omega
  obtain ⟨hD, hR⟩ := divide_rate hSpos hNpos
  obtain ⟨hint, hlo, hhi⟩ := rate_bounds hSpos hNpos htwice
  rw [← measuredRate] at hint hlo hhi
  obtain ⟨b, hrun, hb⟩ := rateLoop_table hlo hhi
  refine ⟨M, b, ((p.symbols.map symbolLength).sum : Rat) / bitCount M p.symbols,
    100 * rateError (measuredRate M p.symbols) b, hleast, hb, ?_⟩
  rw [autobaudCalculate]
  refine (if_neg hmany).trans ?_
  change (do
    let total ← totalsLoop (p.symbols.foldl shortestStep (65536, 0)).1 p.symbols 0 0
    _) = _
  rw [hM, htotal, Option.bind_eq_bind, Option.bind_some]
  refine (if_neg (not_le.mpr hNpos)).trans ?_
  rw [hD, Option.bind_eq_bind, Option.bind_some, hR, Option.bind_eq_bind, Option.bind_some, hint,
    hrun, Option.bind_some]
  exact set_baudrate uart _ b

/-- No divisor is zero. Without enough symbols nothing is reported or changed; else
the nearest rate of the table is, and the port takes it if the driver does. -/
theorem autobaudCalculate_nearest (uart : Int → Int → Int) (p : MeasuredPort) :
    ∃ p', autobaudCalculate uart p = some p' ∧
      (p.symbols.countP busy ≤ 2 → p'.autobaudBaudrate = 0 ∧ p'.baudrate = p.baudrate) ∧
      (2 < p.symbols.countP busy →
        ∃ M b, IsLeast {d | d ∈ pulses p.symbols} M ∧
          FirstLeast (rateError (measuredRate M p.symbols)) baudrates b ∧
          p'.autobaudBaudrate = b ∧ p'.baudrate = if uart p.port b = 0 then b else p.baudrate) ∧
      (serialBaudrateMin ≤ p.baudrate ∧ p.baudrate ≤ serialBaudrateMax →
        serialBaudrateMin ≤ p'.baudrate ∧ p'.baudrate ≤ serialBaudrateMax) := by
  cases Nat.lt_or_ge 2 (p.symbols.countP busy) with
  | inr hfew =>
    refine ⟨p.cleared, autobaudCalculate_few uart p hfew, fun _ => ⟨rfl, rfl⟩, fun hmany => ?_, id⟩
    exact absurd hmany (Nat.not_lt.mpr hfew)
  | inl hmany =>
    obtain ⟨M, b, timing, error, hM, hb, hrun⟩ := autobaudCalculate_many uart p hmany
    refine ⟨_, hrun, fun hfew => absurd hmany (Nat.not_lt.mpr hfew),
      fun _ => ⟨M, b, hM, hb, rfl, rfl⟩, fun hin => ?_⟩
    have hmem : b ∈ baudrates := by
      obtain ⟨before, after, hl, -⟩ := hb
      rw [hl]
      exact List.mem_append_right _ List.mem_cons_self
    have htable : ∀ rate ∈ baudrates, serialBaudrateMin ≤ rate ∧ rate ≤ serialBaudrateMax := by
      decide
    change serialBaudrateMin ≤ (if uart p.port b = 0 then b else p.baudrate) ∧
      (if uart p.port b = 0 then b else p.baudrate) ≤ serialBaudrateMax
    split
    · exact htable b hmem
    · exact hin

end Wifimodem
