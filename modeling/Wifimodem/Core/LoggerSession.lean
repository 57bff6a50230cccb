import Mathlib.Logic.Function.Basic
import Wifimodem.Core.LoggerHexdump

/-!
# All calls of the logger

The levels that are switched off are left out of the log and of the standard output.
A caller passes messages of any kind; those that do not fit into the buffer are treated
where one call is.
-/

namespace Wifimodem

open Traced Transducer Function

/-- `LOG_DIRECT`, next to the levels. -/
def logDirect : Int := 256

def logGet (log : Log) (opt : Int) : Bool :=
  if 0 ≤ opt ∧ opt < logNum then log.enabled.getD opt.toNat false
  else if opt = logDirect then log.direct
  else false

def logSet (log : Log) (opt : Int) (set : Bool) : Log :=
  if 0 ≤ opt ∧ opt < logNum then { log with enabled := log.enabled.set opt.toNat set }
  else if opt = logDirect then { log with direct := set }
  else log

/-- The message is what is in the memory of the caller, with a zero behind it. -/
def logPuts (log : Log) (level : Nat) (msg : List UInt8) (len : Nat) : Log × List UInt8 :=
  if level ≥ logNum ∨ log.enabled.getD level false = false then (log, [])
  else
    let len := if len = 0 then (msg.takeWhile (· != 0)).length else len
    logWrite log (msg.take len)

inductive LogCall where
  | printf (level : Nat) (msg : Formatted)
  | puts (level : Nat) (msg : List UInt8) (len : Nat)
  | hexdump (level : Nat) (mem : Nat → UInt8) (base len : Nat)
  | esp (msg : Formatted)
  | set (opt : Int) (set : Bool)
  | get (opt : Int)
  | clear
  | str (tmp : Memblock)

/-- What is sent to the standard output, and what is returned. -/
structure LogResult where
  out : List UInt8
  get : Option Bool
  str : Option (List UInt8)
deriving DecidableEq

structure Logger where
  log : Log
  temp : Nat → UInt8

/-- The accesses are those to the buffer. -/
def logCall (pointer : PointerText) (l : Logger) : LogCall → Traced Nat (Logger × LogResult)
  | .printf level msg => do
    let printed ← logPrintf l.log l.temp level msg
    pure (⟨printed.log, printed.temp⟩, ⟨printed.out, none, none⟩)
  | .puts level msg len =>
    let (log, out) := logPuts l.log level msg len
    pure (⟨log, l.temp⟩, ⟨out, none, none⟩)
  | .hexdump level mem base len => do
    let printed ← (logHexdump pointer mem l.log l.temp level base len).value
    pure (⟨printed.log, printed.temp⟩, ⟨printed.out, none, none⟩)
  | .esp msg => do
    let (printed, _) ← espPrintfv l.log l.temp msg
    pure (⟨printed.log, printed.temp⟩, ⟨printed.out, none, none⟩)
  | .set opt set => pure (⟨logSet l.log opt set, l.temp⟩, ⟨[], none, none⟩)
  | .get opt => pure (l, ⟨[], some (logGet l.log opt), none⟩)
  | .clear => pure (⟨logClear l.log, l.temp⟩, ⟨[], none, none⟩)
  | .str tmp => pure (⟨(logStr l.log tmp).log, l.temp⟩, ⟨[], none, some (logStr l.log tmp).str⟩)

def loggerStep (pointer : PointerText) (l : Logger) (c : LogCall) : Logger × LogResult :=
  (logCall pointer l c).value

/-! ## The logger as it is meant -/

/-- The levels that are shown, and all that was written since the last clear. -/
structure LogView where
  enabled : Nat → Bool
  direct : Bool
  history : List UInt8

namespace LogView

def shows (v : LogView) (level : Nat) : Bool := decide (level < logNum) && v.enabled level

def say (v : LogView) (text : List UInt8) : LogView × LogResult :=
  ({ v with history := v.history ++ text }, ⟨if v.direct then text else [], none, none⟩)

def sayAt (v : LogView) (level : Nat) (text : List UInt8) : LogView × LogResult :=
  v.say (if v.shows level then text else [])

/-- A text without a length is as long as it is. -/
def putText (msg : List UInt8) (len : Nat) : List UInt8 :=
  if len = 0 then msg.takeWhile (· != 0) else msg.take len

def step (pointer : PointerText) (v : LogView) : LogCall → LogView × LogResult
  | .printf level msg => v.sayAt level (levelCode.getD level [] ++ msg.stored)
  | .puts level msg len => v.sayAt level (putText msg len)
  | .hexdump level mem base len =>
    v.sayAt level (hexdumpText pointer level (hexdumpLines mem base len).value)
  | .esp msg =>
    v.say ((LogCaller.espLead msg.stored).1 ++ espTag ++
      msg.stored.drop (LogCaller.espLead msg.stored).2)
  | .set opt set =>
    if 0 ≤ opt ∧ opt < logNum then ({ v with enabled := update v.enabled opt.toNat set },
      ⟨[], none, none⟩)
    else if opt = logDirect then ({ v with direct := set }, ⟨[], none, none⟩)
    else (v, ⟨[], none, none⟩)
  | .get opt => (v, ⟨[], some (if opt = logDirect then v.direct
      else decide (0 ≤ opt) && v.shows opt.toNat), none⟩)
  | .clear => ({ v with history := [] }, ⟨[], none, none⟩)
  | .str _ => (v, ⟨[], none, some (v.history.rtake logSize)⟩)

/-- The text of the message fits into the buffer, if it is shown at all, and the caller has
as much of it as is asked for. -/
def Fits (v : LogView) : LogCall → Prop
  | .printf level msg =>
    v.shows level → ∀ chars fits, msg = .text chars fits → chars.length < tmpSize
  | .puts _ msg len => len ≤ msg.length
  | .esp msg => ∃ chars fits, msg = .text chars fits ∧ chars.length < tmpSize
  | _ => True

def init : LogView := ⟨fun _ => true, false, []⟩

end LogView

/-- The logger holds what the view does. -/
structure LoggerShows (l : Logger) (v : LogView) : Prop where
  holds : Holds l.log v.history
  length : l.log.enabled.length = logNum
  enabled : ∀ level < logNum, l.log.enabled.getD level false = v.enabled level
  direct : l.log.direct = v.direct

section
variable {l : Logger} {v : LogView}

theorem LoggerShows.off_iff (h : LoggerShows l v) (level : Nat) :
    (level ≥ logNum ∨ l.log.enabled.getD level false = false) ↔ v.shows level = false := by
  rw [LogView.shows, Bool.and_eq_false_iff, decide_eq_false_iff_not, Nat.not_lt]
  constructor
  · rintro (hlevel | hoff)
    · exact .inl hlevel
    · rcases Nat.lt_or_ge level logNum with hlevel | hlevel
      · exact .inr ((h.enabled level hlevel).symm.trans hoff)
      · exact .inl hlevel
  · rintro (hlevel | hoff)
    · exact .inl hlevel
    · rcases Nat.lt_or_ge level logNum with hlevel | hlevel
      · exact .inr ((h.enabled level hlevel).trans hoff)
      · exact .inl hlevel

/-- What is sent is said. -/
theorem LoggerShows.say (h : LoggerShows l v) {text : List UInt8} {printed : LogPrinted}
    (hsent : Sent l.log text printed) :
    LoggerShows ⟨printed.log, printed.temp⟩ (v.say text).1 ∧
      (⟨printed.out, none, none⟩ : LogResult) = (v.say text).2 := by
  constructor
  · constructor
    · refine ⟨hsent.wellFormed, ?_⟩
      rw [hsent.contents, h.holds.contents, List.rtake_append_left]
      rfl
    · rw [hsent.enabled]
      exact h.length
    · rw [hsent.enabled]
      exact h.enabled
    · exact hsent.direct.trans h.direct
  · rw [hsent.out, h.direct]
    rfl

/-- A text is said, or its level is switched off. -/
theorem LoggerShows.sayAt (h : LoggerShows l v) {level : Nat} (text : List UInt8)
    (printed : Traced Nat LogPrinted)
    (hoff : level ≥ logNum ∨ l.log.enabled.getD level false = false →
      printed = pure ⟨l.log, l.temp, []⟩)
    (hon : ¬(level ≥ logNum ∨ l.log.enabled.getD level false = false) →
      Sent l.log text printed.value ∧ printed.Only (· < tmpSize)) :
    LoggerShows ⟨printed.value.log, printed.value.temp⟩ (v.sayAt level text).1 ∧
      (⟨printed.value.out, none, none⟩ : LogResult) = (v.sayAt level text).2 ∧
      printed.Only (· < tmpSize) := by
  rw [LogView.sayAt]
  by_cases hshown : level ≥ logNum ∨ l.log.enabled.getD level false = false
  · rw [(h.off_iff level).mp hshown, hoff hshown]
    have hnothing := h.say (Sent.nothing h.holds.wellFormed l.temp)
    exact ⟨hnothing.1, hnothing.2, only_pure _⟩
  · obtain ⟨hsent, honly⟩ := hon hshown
    have hshows : v.shows level = true := by
      rw [← Bool.not_eq_false, ← h.off_iff]
      exact hshown
    rw [hshows, if_pos rfl]
    exact ⟨(h.say hsent).1, (h.say hsent).2, honly⟩

end

/-! ## One call -/

section
variable {log : Log} {level : Nat}

/-- Without a text only the code of the level is sent. -/
theorem logPrintf_stored (hon : ¬(level ≥ logNum ∨ log.enabled.getD level false = false))
    (hwf : log.WellFormed) (temp : Nat → UInt8) {msg : Formatted}
    (hshort : ∀ chars fits, msg = .text chars fits → chars.length < tmpSize) :
    Sent log (levelCode.getD level [] ++ msg.stored) (logPrintf log temp level msg).value ∧
      (logPrintf log temp level msg).Only (· < tmpSize) := by
  cases msg with
  | text chars fits =>
    have hchars := hshort chars fits rfl
    rw [stored_of_short fits hchars]
    exact ⟨logPrintf_sent hon hwf temp fits hchars, logPrintf_reads hon hwf temp fits hchars⟩
  | failed rc negative left =>
    have hcode := logWrite_sent hwf temp (levelCode.getD level [])
    have hreads := (logPrintf_failed hwf temp hon negative left).reads
    have hrc : ¬(vsnprintf tmpSize temp (.failed rc negative left)).1 > 0 := by
      rw [vsnprintf]
      omega
    rw [Formatted.stored, List.append_nil]
    refine ⟨?_, fun i hi => absurd (hreads i hi) (Nat.not_lt_zero i)⟩
    rw [logPrintf_value hon, if_neg hrc]
    exact { hcode with }

theorem espCode_sent (hwf : log.WellFormed) (temp temp' : Nat → UInt8) (len : Int) :
    Sent log (if 2 < len ∧ 0 ≤ espLevel (temp 0) then levelCode.getD (espLevel (temp 0)).toNat []
        else [])
      ⟨(espCode log temp len).value.1, temp', (espCode log temp len).value.2.1⟩ := by
  rw [(espCode_eq log temp len).2]
  by_cases hlen : len > 2
  · rw [if_pos hlen, espWriteCode]
    by_cases hlevel : espLevel (temp 0) ≥ 0
    · rw [if_pos ⟨hlen, hlevel⟩, if_pos hlevel]
      exact logWrite_sent hwf temp' _
    · rw [if_neg fun h => hlevel h.2, if_neg hlevel]
      exact .nothing hwf temp'
  · rw [if_neg fun h => hlen h.1, if_neg hlen]
    exact .nothing hwf temp'

theorem espPrintfv_value (log : Log) (temp : Nat → UInt8) (msg : Formatted) :
    (espPrintfv log temp msg).value.1 =
      ⟨(espText log (vsnprintf tmpSize temp msg).2 (vsnprintf tmpSize temp msg).1).value.1,
        (vsnprintf tmpSize temp msg).2,
        (espCode log (vsnprintf tmpSize temp msg).2 (vsnprintf tmpSize temp msg).1).value.2.1 ++
          (logWrite (espCode log (vsnprintf tmpSize temp msg).2
            (vsnprintf tmpSize temp msg).1).value.1 espTag).2 ++
          (espText log (vsnprintf tmpSize temp msg).2 (vsnprintf tmpSize temp msg).1).value.2⟩ := by
  rw [espPrintfv]
  simp only [value_bind, value_pure, espText]

/-- The code, the tag and the rest of the message are sent one after the other. -/
theorem espPrintfv_sent (hwf : log.WellFormed) (temp : Nat → UInt8) {chars : List UInt8}
    (fits : chars.length < 2 ^ 31) (hshort : chars.length < tmpSize) :
    Sent log ((LogCaller.espLead chars).1 ++ espTag ++ chars.drop (LogCaller.espLead chars).2)
      (espPrintfv log temp (.text chars fits)).value.1 := by
  have hhead := @vsnprintf_head temp chars fits
  have hrange := fun ofs => @vsnprintf_range temp ofs chars fits hshort
  have hlength : (vsnprintf tmpSize temp (.text chars fits)).1 = chars.length := rfl
  rw [espPrintfv_value, espText, hlength]
  generalize (vsnprintf tmpSize temp (.text chars fits)).2 = temp' at *
  have hofs := (espCode_spec hwf temp' chars.length).2.2
  have hcode := espCode_sent hwf temp' temp' chars.length
  have hcond : (2 < (chars.length : Int) ∧ 0 ≤ espLevel (temp' 0)) ↔
      2 < chars.length ∧ 0 ≤ espLevel (chars.headD 0) := by
    cases chars with
    | nil => simp
    | cons c chars =>
      rw [hhead (List.cons_ne_nil c chars)]
      exact and_congr_left fun _ => Nat.ofNat_lt_cast
  have hlead : (espCode log temp' chars.length).value.2.2 = ((LogCaller.espLead chars).2 : Nat) ∧
      (if 2 < (chars.length : Int) ∧ 0 ≤ espLevel (temp' 0) then
        levelCode.getD (espLevel (temp' 0)).toNat [] else []) = (LogCaller.espLead chars).1 ∧
      (LogCaller.espLead chars).2 ≤ chars.length := by
    rw [hofs, LogCaller.espLead]
    by_cases hcase : 2 < chars.length ∧ 0 ≤ espLevel (chars.headD 0)
    · have hne : chars ≠ [] := List.ne_nil_of_length_pos (Nat.zero_lt_of_lt hcase.1)
      rw [if_pos (hcond.mpr hcase), if_pos (hcond.mpr hcase), if_pos hcase, hhead hne]
      exact ⟨rfl, rfl, Nat.le_of_lt hcase.1⟩
    · rw [if_neg (hcond.not.mpr hcase), if_neg (hcond.not.mpr hcase), if_neg hcase]
      exact ⟨rfl, rfl, Nat.zero_le _⟩
  obtain ⟨hskip, hlead, hle⟩ := hlead
  have huint := toUint_sub hle fits
  rw [hlead] at hcode
  rw [hskip, Int.toNat_natCast, huint]
  have htag := logWrite_sent hcode.wellFormed temp' espTag
  have htext := logWriteTemp_sent htag.wellFormed temp' temp' (LogCaller.espLead chars).2
    (chars.length - (LogCaller.espLead chars).2)
  rw [hrange _ hle] at htext
  have hall := (hcode.append htag).append htext
  simp only at hall
  exact hall

theorem espPrintfv_reads (hwf : log.WellFormed) (temp : Nat → UInt8) {chars : List UInt8}
    (fits : chars.length < 2 ^ 31) (hshort : chars.length < tmpSize) :
    (espPrintfv log temp (.text chars fits)).Only (· < tmpSize) := by
  intro i hi
  have hread := (espPrintfv_meant hwf temp fits hshort).reads i hi
  rw [stored_of_short fits hshort] at hread
  exact Nat.lt_trans hread hshort

theorem logPuts_sent (hon : ¬(level ≥ logNum ∨ log.enabled.getD level false = false))
    (hwf : log.WellFormed) (temp : Nat → UInt8) (msg : List UInt8) (len : Nat) :
    Sent log (LogView.putText msg len)
      ⟨(logPuts log level msg len).1, temp, (logPuts log level msg len).2⟩ := by
  rw [logPuts, if_neg hon, LogView.putText]
  by_cases hlen : len = 0
  · have htake : msg.take (msg.takeWhile (· != 0)).length = msg.takeWhile (· != 0) :=
      List.prefix_iff_eq_take.mp (List.takeWhile_prefix _) |>.symm
    simp only [if_pos hlen, htake]
    exact logWrite_sent hwf temp _
  · simp only [if_neg hlen]
    exact logWrite_sent hwf temp _

end

theorem logRotate_frame (fuel : Nat) (log : Log) (tmp : Block UInt8) :
    (logRotate fuel log tmp).1.enabled = log.enabled ∧
      (logRotate fuel log tmp).1.direct = log.direct := by
  induction fuel generalizing log tmp with
  | zero => exact ⟨rfl, rfl⟩
  | succ fuel ih =>
    rw [logRotate]
    split
    · exact ih _ _
    · exact ⟨rfl, rfl⟩

theorem logStr_frame (log : Log) (tmp : Memblock) :
    (logStr log tmp).log.enabled = log.enabled ∧ (logStr log tmp).log.direct = log.direct := by
  have hrotate := logRotate_frame log.length log tmp.data
  cases hwrap : log.wrap with
  | false => simp only [logStr, hwrap, Bool.false_eq_true, if_false, and_self]
  | true =>
    simp only [logStr, hwrap, if_true]
    exact hrotate

section
variable {l : Logger} {v : LogView}

/-- What a switch does to a level. -/
theorem LoggerShows.set (h : LoggerShows l v) (opt : Int) (set : Bool) (pointer : PointerText) :
    LoggerShows ⟨logSet l.log opt set, l.temp⟩ (v.step pointer (.set opt set)).1 := by
  rw [logSet, LogView.step]
  by_cases hlevel : 0 ≤ opt ∧ opt < logNum
  · rw [if_pos hlevel, if_pos hlevel]
    refine ⟨⟨{ h.holds.wellFormed with }, h.holds.contents⟩, ?_, fun level hlt => ?_, h.direct⟩
    · rw [List.length_set]
      exact h.length
    · have hlength := h.length
      have hlen : opt.toNat < l.log.enabled.length := by omega
      rw [List.getD_eq_getElem?_getD, List.getElem?_set]
      by_cases heq : opt.toNat = level
      · subst heq
        simp [hlen]
      · rw [if_neg heq, ← List.getD_eq_getElem?_getD]
        exact (h.enabled level hlt).trans (update_of_ne (Ne.symm heq) _ _).symm
  · rw [if_neg hlevel, if_neg hlevel]
    by_cases hdirect : opt = logDirect
    · rw [if_pos hdirect, if_pos hdirect]
      exact ⟨⟨{ h.holds.wellFormed with }, h.holds.contents⟩, h.length, h.enabled, rfl⟩
    · rw [if_neg hdirect, if_neg hdirect]
      exact { h with }

theorem LoggerShows.get (h : LoggerShows l v) (opt : Int) :
    logGet l.log opt =
      if opt = logDirect then v.direct else decide (0 ≤ opt) && v.shows opt.toNat := by
  have hnum : (logNum : Int) = 4 := rfl
  rw [logGet]
  by_cases hlevel : 0 ≤ opt ∧ opt < logNum
  · have hne : ¬opt = logDirect := by
      rw [logDirect]
      omega
    have hlt : opt.toNat < logNum := by omega
    rw [if_pos hlevel, if_neg hne, LogView.shows, decide_eq_true hlevel.1, decide_eq_true hlt]
    exact h.enabled _ hlt
  · rw [if_neg hlevel]
    by_cases hdirect : opt = logDirect
    · rw [if_pos hdirect, if_pos hdirect]
      exact h.direct
    · rw [if_neg hdirect, if_neg hdirect, LogView.shows]
      by_cases hpos : 0 ≤ opt
      · have hge : ¬opt.toNat < logNum := by omega
        rw [decide_eq_false hge, Bool.false_and, Bool.and_false]
      · rw [decide_eq_false hpos, Bool.false_and]

/-- Each call does what it does to the view, and reads nothing behind the buffer. -/
theorem LoggerShows.call (pointer : PointerText) (h : LoggerShows l v) {c : LogCall} (hfits : v.Fits c) :
    LoggerShows (loggerStep pointer l c).1 (v.step pointer c).1 ∧
      (loggerStep pointer l c).2 = (v.step pointer c).2 ∧
      (logCall pointer l c).Only (· < tmpSize) := by
  have hwf := h.holds.wellFormed
  cases c with
  | printf level msg =>
    obtain ⟨hshows, hout, hreads⟩ := h.sayAt (levelCode.getD level [] ++ msg.stored)
      (logPrintf l.log l.temp level msg) logPrintf_disabled
      (fun hon => logPrintf_stored hon hwf l.temp (hfits (by
        rw [← Bool.not_eq_false, ← h.off_iff]
        exact hon)))
    exact ⟨hshows, hout, only_bind hreads (only_pure _)⟩
  | puts level msg len =>
    obtain ⟨hshows, hout, -⟩ := h.sayAt (LogView.putText msg len)
      (pure ⟨(logPuts l.log level msg len).1, l.temp, (logPuts l.log level msg len).2⟩)
      (fun hoff => by rw [logPuts, if_pos hoff])
      (fun hon => ⟨logPuts_sent hon hwf l.temp msg len, only_pure _⟩)
    exact ⟨hshows, hout, only_pure _⟩
  | hexdump level mem base len =>
    obtain ⟨hshows, hout, hreads⟩ := h.sayAt
      (hexdumpText pointer level (hexdumpLines mem base len).value)
      (logHexdump pointer mem l.log l.temp level base len).value
      (fun hoff => by rw [logHexdump, if_pos hoff]; rfl)
      (fun hon => by
        rw [logHexdump, if_neg hon]
        exact hexdumpPrint_spec hon pointer hwf l.temp _)
    exact ⟨hshows, hout, only_bind hreads (only_pure _)⟩
  | esp msg =>
    obtain ⟨chars, fits, rfl, hshort⟩ := hfits
    have hsaid := h.say (espPrintfv_sent hwf l.temp fits hshort)
    rw [LogView.step, stored_of_short fits hshort]
    exact ⟨hsaid.1, hsaid.2, only_bind (espPrintfv_reads hwf l.temp fits hshort) (only_pure _)⟩
  | set opt set =>
    refine ⟨h.set opt set pointer, ?_, only_pure _⟩
    rw [LogView.step]
    split
    · rfl
    split
    · rfl
    · rfl
  | get opt =>
    refine ⟨h, ?_, only_pure _⟩
    rw [LogView.step, ← h.get opt]
    rfl
  | clear =>
    have hclear := (holds_step h.holds .clear).1
    exact ⟨⟨hclear, h.length, h.enabled, h.direct⟩, rfl, only_pure _⟩
  | str tmp =>
    obtain ⟨hstr, hresult⟩ := holds_step h.holds (.str tmp)
    obtain ⟨henabled, hdirect⟩ := logStr_frame l.log tmp
    refine ⟨⟨hstr, ?_, ?_, hdirect.trans h.direct⟩, ?_, only_pure _⟩
    · rw [loggerStep, logCall, value_pure, henabled]
      exact h.length
    · rw [loggerStep, logCall, value_pure, henabled]
      exact h.enabled
    · exact congrArg (LogResult.mk [] none) hresult

end

/-- Whatever has been called since `log_init`, as long as the messages fit into the buffer:
the standard output, the levels and the texts of the log are those of the view, which says
what is on and forgets nothing, and nothing behind the buffer is read. -/
theorem log_session (pointer : PointerText) {log : Log} (hsize : log.text.size = logSize)
    (hfault : log.text.fault = false) (temp : Nat → UInt8) {calls : List LogCall}
    (hfits : Throughout (LogView.step pointer) LogView.Fits .init calls) :
    outputs (loggerStep pointer) ⟨logInit log, temp⟩ calls =
        outputs (LogView.step pointer) .init calls ∧
      Throughout (loggerStep pointer) (fun l c => (logCall pointer l c).Only (· < tmpSize))
        ⟨logInit log, temp⟩ calls := by
  have hinit : LoggerShows ⟨logInit log, temp⟩ .init := by
    have hlevels : ∀ level < logNum, [true, true, true, true].getD level false = true := by decide
    exact ⟨holds_init hsize hfault, rfl, hlevels, rfl⟩
  constructor
  · refine (simulation_throughout (R := LoggerShows) ?_ hinit hfits).2
    intro l v c h hc
    have hcall := h.call pointer hc
    exact ⟨hcall.1, hcall.2.1⟩
  · refine throughout_simulation (R := LoggerShows) ?_ hinit hfits
    intro l v c h hc
    have hcall := h.call pointer hc
    exact ⟨hcall.1, hcall.2.2⟩

theorem log_session_levels :
    outputs (loggerStep hexPointer) ⟨emptyLog, fun _ => 0⟩
        [.set 0 false, .printf 0 longMessage, .set 256 true, .puts 3 ['n', 'o', 0, 'x'] 0,
          .get 0, .str .zeros] =
      [⟨[], none, none⟩, ⟨[], none, none⟩, ⟨[], none, none⟩, ⟨['n', 'o'], none, none⟩,
        ⟨[], some false, none⟩, ⟨[], none, some ['n', 'o']⟩] := by
  have hsize : (⟨[], false, false, 0, Block.ofCells (List.replicate 7872 0)⟩ : Log).text.size =
    logSize := List.length_replicate
  refine (log_session hexPointer hsize rfl (fun _ => 0) ?_).1.trans rfl
  exact ⟨trivial, fun h => absurd h (by decide), trivial, Nat.zero_le _, trivial, trivial, trivial⟩

end Wifimodem
