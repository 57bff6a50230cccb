import Wifimodem.Core.Logger
import Wifimodem.Lib.Traced

/-!
# Formatted messages

A message is printed into the 256 bytes of `g_log.temp` and appended to the log from
there, as long as `vsnprintf` says that it is. What is read of the memory from `temp`
on is reported by its index.
-/

namespace Wifimodem

open Traced

def tmpSize : Nat := 256

def logNum : Nat := 4

def levelCode : List (List UInt8) :=
  [['[', ' ', 'D', 'E', 'B', 'U', 'G', ' ', ']', ' '],
    ['[', ' ', 'I', 'N', 'F', 'O', ' ', ' ', ']', ' '],
    ['[', ' ', 'W', 'A', 'R', 'N', ' ', ' ', ']', ' '],
    ['[', ' ', 'E', 'R', 'R', 'O', 'R', ' ', ']', ' ']]

def espTag : List UInt8 := ['e', 's', 'p', '-', 'i', 'd', 'f', ':', ' ']

/-- What formatting comes to: a text that an `int` can count, or an error, which leaves
anything in the buffer. -/
inductive Formatted where
  | text (chars : List UInt8) (fits : chars.length < 2 ^ 31)
  | failed (rc : Int) (negative : -2 ^ 31 ≤ rc ∧ rc < 0) (left : Nat → UInt8)

/-- The memory from the buffer on is changed inside the buffer only. -/
def vsnprintf (size : Nat) (temp : Nat → UInt8) : Formatted → Int × (Nat → UInt8)
  | .text chars _ => (chars.length, fun i => (chars.take (size - 1) ++ [0]).getD i (temp i))
  | .failed rc _ left => (rc, fun i => if i < size then left i else temp i)

/-- An `int` as a `uint`. -/
def toUint (z : Int) : Nat := (z % 2 ^ 32).toNat

section
variable (temp : Nat → UInt8)

/-- The bytes from `i` on. -/
def readTemp : Nat → Nat → Traced Nat (List UInt8)
  | _, 0 => pure []
  | i, n + 1 => do
    let c ← touch i (temp i)
    let rest ← readTemp (i + 1) n
    pure (c :: rest)

def readDirect (log : Log) (ofs len : Nat) : Traced Nat (List UInt8) :=
  if log.direct then readTemp temp ofs len else pure []

/-- `log_write` of `len` bytes from `temp + ofs` on. -/
def logWriteTemp (log : Log) (ofs len : Nat) : Traced Nat (Log × List UInt8) := do
  let out ← readDirect temp log ofs len
  let (ofs, len) := if len > logSize then (ofs + (len - logSize), logSize) else (ofs, len)
  let msg ← readTemp temp ofs len
  pure ((logWrite log msg).1, out)

end

structure LogPrinted where
  log : Log
  temp : Nat → UInt8
  out : List UInt8

/-- The message and its arguments are given by what formatting comes to. -/
def logPrintf (log : Log) (temp : Nat → UInt8) (level : Nat) (msg : Formatted) :
    Traced Nat LogPrinted :=
  if level ≥ logNum ∨ log.enabled.getD level false = false then pure ⟨log, temp, []⟩
  else
    let (log, code) := logWrite log (levelCode.getD level [])
    let (len, temp) := vsnprintf tmpSize temp msg
    if len > 0 then do
      let (log, text) ← logWriteTemp temp log 0 (toUint len)
      pure ⟨log, temp, code ++ text⟩
    else pure ⟨log, temp, code⟩

/-- The level that a letter stands for, and `-1` for no level. -/
def espLevel (c : UInt8) : Int :=
  if c = 'D' then 0 else if c = 'I' then 1 else if c = 'W' then 2 else if c = 'E' then 3 else -1

/-- The level code is written, and stands for two characters of the message. -/
def espWriteCode (log : Log) (level : Int) : Log × List UInt8 × Int :=
  if level ≥ 0 then
    let (log, code) := logWrite log (levelCode.getD level.toNat [])
    (log, code, 2)
  else (log, [], 0)

def espCode (log : Log) (temp : Nat → UInt8) (len : Int) : Traced Nat (Log × List UInt8 × Int) :=
  if len > 2 then do
    let c ← touch 0 (temp 0)
    pure (espWriteCode log (espLevel c))
  else pure (log, [], 0)

/-- With the length that is returned. -/
def espPrintfv (log : Log) (temp : Nat → UInt8) (msg : Formatted) :
    Traced Nat (LogPrinted × Int) := do
  let (len, temp) := vsnprintf tmpSize temp msg
  let (log, code, ofs) ← espCode log temp len
  let (log, tag) := logWrite log espTag
  let (log, text) ← logWriteTemp temp log ofs.toNat (toUint (len - ofs))
  pure (⟨log, temp, code ++ tag ++ text⟩, len)

/-! ## What a call may append -/

/-- The characters in the buffer, in front of the zero. -/
def Formatted.stored : Formatted → List UInt8
  | .text chars _ => chars.take (tmpSize - 1)
  | .failed _ _ _ => []

inductive LogCaller where
  | logPrintf (level : Nat)
  | espPrintfv

namespace LogCaller

def call (log : Log) (temp : Nat → UInt8) (msg : Formatted) : LogCaller → Traced Nat LogPrinted
  | .logPrintf level => Wifimodem.logPrintf log temp level msg
  | .espPrintfv =>
    let printed := Wifimodem.espPrintfv log temp msg
    ⟨printed.value.1, printed.log⟩

/-- The level code in front of a message of the system, and the part of the message that
is left out for it. -/
def espLead (stored : List UInt8) : List UInt8 × Nat :=
  if 2 < stored.length ∧ 0 ≤ espLevel (stored.headD 0) then
    (levelCode.getD (espLevel (stored.headD 0)).toNat [], 2)
  else ([], 0)

/-- The bytes that belong into the log. -/
def meant (log : Log) (msg : Formatted) : LogCaller → List UInt8
  | .logPrintf level =>
    if level ≥ logNum ∨ log.enabled.getD level false = false then []
    else levelCode.getD level [] ++ msg.stored
  | .espPrintfv => (espLead msg.stored).1 ++ espTag ++ msg.stored.drop (espLead msg.stored).2

/-- The text is stored in full, or is not asked for. -/
def Short (log : Log) (msg : Formatted) : LogCaller → Prop
  | .logPrintf level => level ≥ logNum ∨ log.enabled.getD level false = false ∨
      ∀ chars fits, msg = .text chars fits → chars.length < tmpSize
  | .espPrintfv => ∃ chars fits, msg = .text chars fits ∧ chars.length < tmpSize

end LogCaller

/-- Nothing is read but the stored characters, and these are appended. -/
structure AppendsStored (log : Log) (msg : Formatted) (meant : List UInt8)
    (call : Traced Nat LogPrinted) : Prop where
  reads : call.Only (· < msg.stored.length)
  appends : call.value.log.contents = (log.contents ++ meant).rtake logSize

/-! ## One message -/

variable {log : Log} {temp : Nat → UInt8} {ofs len i n : Nat} {msg : Formatted}

theorem readTemp_value (temp : Nat → UInt8) (i n : Nat) :
    (readTemp temp i n).value = (List.range' i n).map temp := by
  induction n generalizing i with
  | zero => rfl
  | succ n ih =>
    rw [readTemp, List.range'_succ, List.map_cons, ← ih (i + 1)]
    rfl

theorem readTemp_log (temp : Nat → UInt8) (i n : Nat) :
    (readTemp temp i n).log = List.range' i n := by
  induction n generalizing i with
  | zero => rfl
  | succ n ih =>
    have hlog : (readTemp temp i (n + 1)).log = [i] ++ ((readTemp temp (i + 1) n).log ++ []) := rfl
    rw [hlog, ih, List.append_nil, List.range'_succ, List.singleton_append]

theorem readTemp_only {bound : Nat} (h : i + n ≤ bound) : (readTemp temp i n).Only (· < bound) := by
  intro j hj
  rw [readTemp_log, List.mem_range'_1] at hj
  omega

theorem rtake_range' (temp : Nat → UInt8) (ofs : Nat) (h : logSize < len) :
    ((List.range' ofs len).map temp).rtake logSize =
      (List.range' (ofs + (len - logSize)) logSize).map temp := by
  have hsplit := @List.range'_append_1 ofs (len - logSize) logSize
  rw [Nat.sub_add_cancel (Nat.le_of_lt h)] at hsplit
  have hlength : ((List.range' (ofs + (len - logSize)) logSize).map temp).length = logSize := by
    rw [List.length_map, List.length_range']
  rw [← hsplit, List.map_append, List.rtake_append_of_ge (Nat.le_of_eq hlength.symm),
    List.rtake_of_length_le (Nat.le_of_eq hlength)]

theorem logWriteTemp_value (hwf : log.WellFormed) (temp : Nat → UInt8) (ofs len : Nat) :
    (logWriteTemp temp log ofs len).value.1 =
      (logWrite log ((List.range' ofs len).map temp)).1 := by
  rw [logWriteTemp, value_bind]
  by_cases hlong : len > logSize
  · simp only [if_pos hlong, value_bind, readTemp_value, value_pure]
    have hclip := rtake_range' temp ofs hlong
    rw [logWrite_eq hwf hclip, logWrite_eq hwf (List.rtake_of_length_le (by simp))]
  · simp only [if_neg hlong, value_bind, readTemp_value, value_pure]

theorem readDirect_only {bound : Nat} (h : ofs + len ≤ bound) :
    (readDirect temp log ofs len).Only (· < bound) := by
  rw [readDirect]
  split
  · exact readTemp_only h
  · exact only_pure _

theorem logWriteTemp_only {bound : Nat} (h : ofs + len ≤ bound) :
    (logWriteTemp temp log ofs len).Only (· < bound) := by
  rw [logWriteTemp]
  apply only_bind (readDirect_only h)
  by_cases hlong : len > logSize
  · simp only [if_pos hlong]
    exact only_bind (readTemp_only (by omega)) (only_pure _)
  · simp only [if_neg hlong]
    exact only_bind (readTemp_only h) (only_pure _)

/-- The last byte of a message is always read. -/
theorem last_mem_logWriteTemp (temp : Nat → UInt8) (log : Log) (ofs : Nat) {len : Nat}
    (h : 0 < len) : ofs + len - 1 ∈ (logWriteTemp temp log ofs len).log := by
  have hlast : ∀ i n, 0 < n → i + n - 1 ∈ (readTemp temp i n).log := by
    intro i n hn
    rw [readTemp_log, List.mem_range'_1]
    omega
  have hsize : logSize = 7872 := rfl
  rw [logWriteTemp]
  apply List.mem_append_right
  by_cases hlong : len > logSize
  · simp only [if_pos hlong]
    apply List.mem_append_left
    have hmem := hlast (ofs + (len - logSize)) logSize (by omega)
    have hsame : ofs + (len - logSize) + logSize - 1 = ofs + len - 1 := by omega
    rwa [hsame] at hmem
  · simp only [if_neg hlong]
    exact List.mem_append_left _ (hlast ofs len h)

/-! ## A text that is stored in full -/

section
variable {chars : List UInt8} (fits : chars.length < 2 ^ 31)

theorem vsnprintf_head (hne : chars ≠ []) :
    (vsnprintf tmpSize temp (.text chars fits)).2 0 = chars.headD 0 := by
  cases chars with
  | nil => exact absurd rfl hne
  | cons c chars => rfl

theorem toUint_sub {a b : Nat} (hba : b ≤ a) (ha : a < 2 ^ 31) :
    toUint ((a : Int) - b) = a - b := by
  rw [toUint]
  omega

variable (hshort : chars.length < tmpSize)

include hshort

theorem stored_of_short : (Formatted.text chars fits).stored = chars :=
  List.take_of_length_le (Nat.le_sub_one_of_lt hshort)

theorem vsnprintf_range (hofs : ofs ≤ chars.length) :
    (List.range' ofs (chars.length - ofs)).map (vsnprintf tmpSize temp (.text chars fits)).2 =
      chars.drop ofs := by
  have htake : chars.take (tmpSize - 1) = chars := stored_of_short fits hshort
  apply List.ext_getElem
  · rw [List.length_map, List.length_range', List.length_drop]
  · intro i hi hi'
    rw [List.length_drop] at hi'
    have hlt : ofs + i < chars.length := by omega
    rw [List.getElem_map, List.getElem_range', List.getElem_drop, Nat.one_mul]
    simp only [vsnprintf, htake]
    rw [List.getD_eq_getElem?_getD, List.getElem?_append_left hlt, List.getElem?_eq_getElem hlt,
      Option.getD_some]

theorem logWriteTemp_short (hwf : log.WellFormed) (hofs : ofs ≤ chars.length) :
    (logWriteTemp (vsnprintf tmpSize temp (.text chars fits)).2 log ofs
        (chars.length - ofs)).value.1.contents =
      (log.contents ++ chars.drop ofs).rtake logSize := by
  rw [logWriteTemp_value hwf, vsnprintf_range fits hshort hofs, logWrite_contents hwf]

end

/-! ## The two callers -/

theorem contents_rtake_self (hwf : log.WellFormed) : log.contents.rtake logSize = log.contents := by
  apply List.rtake_of_length_le
  have hsize := hwf.size_text
  rw [Block.size] at hsize
  rw [Log.contents]
  split
  · rw [List.length_rotate, hsize]
  · rw [List.length_take, hsize]
    exact Nat.min_le_right _ _

theorem logPrintf_disabled {level : Nat}
    (h : level ≥ logNum ∨ log.enabled.getD level false = false) :
    logPrintf log temp level msg = pure ⟨log, temp, []⟩ := by
  rw [logPrintf, if_pos h]

theorem logPrintf_enabled {level : Nat}
    (h : ¬(level ≥ logNum ∨ log.enabled.getD level false = false)) :
    (logPrintf log temp level msg).log =
        (if (vsnprintf tmpSize temp msg).1 > 0 then
          (logWriteTemp (vsnprintf tmpSize temp msg).2 (logWrite log (levelCode.getD level [])).1 0
            (toUint (vsnprintf tmpSize temp msg).1)).log else []) ∧
      (logPrintf log temp level msg).value.log =
        (if (vsnprintf tmpSize temp msg).1 > 0 then
          (logWriteTemp (vsnprintf tmpSize temp msg).2 (logWrite log (levelCode.getD level [])).1 0
            (toUint (vsnprintf tmpSize temp msg).1)).value.1
          else (logWrite log (levelCode.getD level [])).1) := by
  rw [logPrintf, if_neg h]
  generalize vsnprintf tmpSize temp msg = printed
  generalize logWrite log (levelCode.getD level []) = coded
  obtain ⟨len, temp'⟩ := printed
  obtain ⟨log', code⟩ := coded
  by_cases hlen : len > 0
  · simp only [if_pos hlen]
    generalize logWriteTemp temp' log' 0 (toUint len) = text
    exact ⟨List.append_nil text.log, rfl⟩
  · simp only [if_neg hlen]
    exact ⟨rfl, rfl⟩

/-- The last byte is read, and it is not among the stored ones. -/
theorem not_appendsStored_of_long {chars meant : List UInt8} (fits : chars.length < 2 ^ 31)
    (hlong : tmpSize ≤ chars.length) {call : Traced Nat LogPrinted}
    (hlast : chars.length - 1 ∈ call.log) : ¬AppendsStored log (.text chars fits) meant call := by
  intro h
  have hread := h.reads _ hlast
  have hsize : tmpSize = 256 := rfl
  rw [Formatted.stored, List.length_take] at hread
  omega

section
variable (hwf : log.WellFormed) (temp : Nat → UInt8) {level : Nat}
  (hon : ¬(level ≥ logNum ∨ log.enabled.getD level false = false))

include hon

theorem logPrintf_long {chars meant : List UInt8} (fits : chars.length < 2 ^ 31)
    (hlong : tmpSize ≤ chars.length) :
    ¬AppendsStored log (.text chars fits) meant (logPrintf log temp level (.text chars fits)) := by
  apply not_appendsStored_of_long fits hlong
  have hlength : (vsnprintf tmpSize temp (.text chars fits)).1 = chars.length := rfl
  have hpos : 0 < chars.length := Nat.lt_of_lt_of_le (by decide) hlong
  have huint : toUint chars.length = chars.length := toUint_sub (Nat.zero_le _) fits
  have hlast := last_mem_logWriteTemp (vsnprintf tmpSize temp (.text chars fits)).2
    (logWrite log (levelCode.getD level [])).1 0 hpos
  rw [(logPrintf_enabled hon).1, hlength, huint, if_pos (Int.natCast_pos.mpr hpos)]
  rwa [Nat.zero_add] at hlast

include hwf

theorem logPrintf_failed {rc : Int} (negative : -2 ^ 31 ≤ rc ∧ rc < 0) (left : Nat → UInt8) :
    AppendsStored log (.failed rc negative left) (levelCode.getD level [])
      (logPrintf log temp level (.failed rc negative left)) := by
  obtain ⟨hlog, hvalue⟩ := @logPrintf_enabled log temp (.failed rc negative left) level hon
  have hrc : ¬rc > 0 := by omega
  rw [vsnprintf, if_neg hrc] at hlog hvalue
  constructor
  · intro i hi
    rw [hlog] at hi
    cases hi
  · rw [hvalue, logWrite_contents hwf]

theorem logPrintf_short {chars : List UInt8} (fits : chars.length < 2 ^ 31)
    (hshort : chars.length < tmpSize) :
    AppendsStored log (.text chars fits) (levelCode.getD level [] ++ chars)
      (logPrintf log temp level (.text chars fits)) := by
  obtain ⟨hlog, hvalue⟩ := @logPrintf_enabled log temp (.text chars fits) level hon
  have hcode := logWrite_contents hwf (levelCode.getD level [])
  have hwf' := logWrite_wellFormed hwf (levelCode.getD level [])
  have hlength : (vsnprintf tmpSize temp (.text chars fits)).1 = chars.length := rfl
  have huint : toUint chars.length = chars.length := toUint_sub (Nat.zero_le _) fits
  rw [hlength, huint] at hlog hvalue
  by_cases hpos : (chars.length : Int) > 0
  · rw [if_pos hpos] at hlog hvalue
    have htext := @logWriteTemp_short _ temp 0 chars fits hshort hwf' (Nat.zero_le _)
    have hreads := @logWriteTemp_only (logWrite log (levelCode.getD level [])).1
      (vsnprintf tmpSize temp (.text chars fits)).2 0 chars.length chars.length
      (Nat.le_of_eq (Nat.zero_add _))
    constructor
    · rw [stored_of_short fits hshort, Only, hlog]
      exact hreads
    · rw [Nat.sub_zero, List.drop_zero, hcode, List.rtake_append_left,
        List.append_assoc] at htext
      rw [hvalue]
      exact htext
  · have hnil : chars = [] := List.eq_nil_of_length_eq_zero (by omega)
    rw [if_neg hpos] at hlog hvalue
    constructor
    · intro i hi
      rw [hlog] at hi
      cases hi
    · rw [hvalue, hnil, List.append_nil]
      exact hcode

end

theorem logPrintf_iff (hwf : log.WellFormed) (temp : Nat → UInt8) (level : Nat) (msg : Formatted) :
    AppendsStored log msg (LogCaller.meant log msg (.logPrintf level))
      (logPrintf log temp level msg) ↔ LogCaller.Short log msg (.logPrintf level) := by
  rw [LogCaller.Short, LogCaller.meant]
  by_cases hoff : level ≥ logNum ∨ log.enabled.getD level false = false
  · rw [if_pos hoff, logPrintf_disabled hoff]
    refine iff_of_true ⟨only_pure _, ?_⟩ (or_assoc.mp (.inl hoff))
    rw [value_pure, List.append_nil, contents_rtake_self hwf]
  · rw [if_neg hoff, ← or_assoc, or_iff_right hoff]
    cases msg with
    | failed rc negative left =>
      rw [Formatted.stored, List.append_nil]
      refine iff_of_true (logPrintf_failed hwf temp hoff negative left) ?_
      intro chars fits h
      cases h
    | text chars fits =>
      constructor
      · intro h chars' fits' hmsg
        cases hmsg
        by_contra hlong
        exact logPrintf_long temp hoff fits (Nat.not_lt.mp hlong) h
      · intro hshort
        have hshort := hshort chars fits rfl
        rw [stored_of_short fits hshort]
        exact logPrintf_short hwf temp hoff fits hshort

theorem espCode_eq (log : Log) (temp : Nat → UInt8) (len : Int) :
    (espCode log temp len).log = (if len > 2 then [0] else []) ∧
      (espCode log temp len).value =
        if len > 2 then espWriteCode log (espLevel (temp 0)) else (log, [], 0) := by
  rw [espCode]
  split <;> exact ⟨rfl, rfl⟩

/-- The text behind the code and the tag. -/
def espText (log : Log) (temp : Nat → UInt8) (len : Int) : Traced Nat (Log × List UInt8) :=
  logWriteTemp temp (logWrite (espCode log temp len).value.1 espTag).1
    (espCode log temp len).value.2.2.toNat (toUint (len - (espCode log temp len).value.2.2))

theorem espPrintfv_eq (log : Log) (temp : Nat → UInt8) (msg : Formatted) :
    (espPrintfv log temp msg).log =
        (espCode log (vsnprintf tmpSize temp msg).2 (vsnprintf tmpSize temp msg).1).log ++
          (espText log (vsnprintf tmpSize temp msg).2 (vsnprintf tmpSize temp msg).1).log ∧
      (espPrintfv log temp msg).value.1.log =
        (espText log (vsnprintf tmpSize temp msg).2 (vsnprintf tmpSize temp msg).1).value.1 := by
  rw [espPrintfv]
  simp only [log_bind, log_pure, List.append_nil, value_bind, value_pure, espText]
  exact ⟨trivial, trivial⟩

theorem espWriteCode_spec (hwf : log.WellFormed) (level : Int) :
    (espWriteCode log level).1.WellFormed ∧
      (espWriteCode log level).1.contents = (log.contents ++
        if 0 ≤ level then levelCode.getD level.toNat [] else []).rtake logSize ∧
      (espWriteCode log level).2.2 = if 0 ≤ level then 2 else 0 := by
  rw [espWriteCode]
  by_cases hlevel : 0 ≤ level
  · simp only [ge_iff_le, if_pos hlevel]
    exact ⟨logWrite_wellFormed hwf _, logWrite_contents hwf _, trivial⟩
  · simp only [ge_iff_le, if_neg hlevel]
    exact ⟨hwf, by rw [List.append_nil, contents_rtake_self hwf], trivial⟩

/-- No more of the message is left out than there is. -/
theorem espCode_spec (hwf : log.WellFormed) (temp : Nat → UInt8) (len : Int) :
    (espCode log temp len).value.1.WellFormed ∧
      (espCode log temp len).value.1.contents = (log.contents ++
        if 2 < len ∧ 0 ≤ espLevel (temp 0) then levelCode.getD (espLevel (temp 0)).toNat []
        else []).rtake logSize ∧
      (espCode log temp len).value.2.2 =
        (if 2 < len ∧ 0 ≤ espLevel (temp 0) then 2 else 0 : Nat) := by
  obtain ⟨-, hvalue⟩ := espCode_eq log temp len
  rw [hvalue]
  by_cases hlen : 2 < len
  · have hspec := espWriteCode_spec hwf (espLevel (temp 0))
    rw [if_pos hlen]
    simp only [hlen, true_and]
    refine ⟨hspec.1, hspec.2.1, hspec.2.2.trans ?_⟩
    split <;> rfl
  · rw [if_neg hlen]
    simp only [hlen, false_and, if_false]
    exact ⟨hwf, by rw [List.append_nil, contents_rtake_self hwf], rfl⟩

/-- The last byte of the text is read, whatever is left out in front. -/
theorem last_mem_espText (log : Log) (temp : Nat → UInt8) {len : Int} {n k : Nat}
    (hk : (espCode log temp len).value.2.2 = k) (hn : toUint (len - k) = n) (hpos : 0 < n) :
    k + n - 1 ∈ (espText log temp len).log := by
  rw [espText, hk, hn, Int.toNat_natCast]
  exact last_mem_logWriteTemp _ _ k hpos

/-- A text in the buffer goes into the log behind the code and the tag. -/
theorem espPrintfv_short (hwf : log.WellFormed) (temp : Nat → UInt8) {chars lead : List UInt8}
    (fits : chars.length < 2 ^ 31) (hshort : chars.length < tmpSize) {k : Nat}
    (hk : k ≤ chars.length)
    (hcode : (espCode log (vsnprintf tmpSize temp (.text chars fits)).2
      chars.length).value.1.contents = (log.contents ++ lead).rtake logSize)
    (hofs : (espCode log (vsnprintf tmpSize temp (.text chars fits)).2
      chars.length).value.2.2 = k) :
    AppendsStored log (.text chars fits) (lead ++ espTag ++ chars.drop k)
      (LogCaller.call log temp (.text chars fits) .espPrintfv) := by
  obtain ⟨hlog, hvalue⟩ := espPrintfv_eq log temp (.text chars fits)
  have hlength : (vsnprintf tmpSize temp (.text chars fits)).1 = chars.length := rfl
  have huint : toUint ((chars.length : Int) - k) = chars.length - k := toUint_sub hk fits
  have htext := (espCode_spec hwf (vsnprintf tmpSize temp (.text chars fits)).2 chars.length).1
  have htag := logWrite_contents htext espTag
  have hwf' := logWrite_wellFormed htext espTag
  have hshown := @logWriteTemp_short _ temp k chars fits hshort hwf' hk
  rw [hlength, espText, hofs, huint, Int.toNat_natCast] at hlog hvalue
  constructor
  · intro i hi
    rw [stored_of_short fits hshort]
    rw [LogCaller.call, hlog] at hi
    obtain hi | hi := List.mem_append.mp hi
    · rw [(espCode_eq log _ _).1] at hi
      split at hi
      · obtain rfl := List.mem_singleton.mp hi
        omega
      · cases hi
    · exact logWriteTemp_only (Nat.le_of_eq (Nat.add_sub_cancel' hk)) i hi
  · rw [LogCaller.call, hvalue, hshown, htag, hcode, List.rtake_append_left, List.append_assoc,
      List.rtake_append_left]
    simp only [List.append_assoc]

theorem mem_espPrintfv {i : Nat} (hi : i ∈ (espText log (vsnprintf tmpSize temp msg).2
    (vsnprintf tmpSize temp msg).1).log) : i ∈ (LogCaller.call log temp msg .espPrintfv).log := by
  rw [LogCaller.call, (espPrintfv_eq log temp msg).1]
  exact List.mem_append_right _ hi

section
variable (hwf : log.WellFormed) (temp : Nat → UInt8)

include hwf

/-- The error becomes a large number of bytes, none of which was stored. -/
theorem espPrintfv_failed {meant : List UInt8} {rc : Int} (negative : -2 ^ 31 ≤ rc ∧ rc < 0)
    (left : Nat → UInt8) : ¬AppendsStored log (.failed rc negative left) meant
      (LogCaller.call log temp (.failed rc negative left) .espPrintfv) := by
  intro h
  have hspec := (espCode_spec hwf (vsnprintf tmpSize temp (.failed rc negative left)).2 rc).2.2
  rw [if_neg (fun hlen => by omega)] at hspec
  have hpos : 0 < toUint (rc - (0 : Nat)) := by
    rw [toUint]
    omega
  have hlast := h.reads _ (mem_espPrintfv (last_mem_espText log _ hspec rfl hpos))
  exact absurd hlast (Nat.not_lt_zero _)

variable {chars : List UInt8} (fits : chars.length < 2 ^ 31)

theorem espPrintfv_long {meant : List UInt8} (hlong : tmpSize ≤ chars.length) :
    ¬AppendsStored log (.text chars fits) meant
      (LogCaller.call log temp (.text chars fits) .espPrintfv) := by
  apply not_appendsStored_of_long fits hlong
  have hsize : tmpSize = 256 := rfl
  have hofs := (espCode_spec hwf (vsnprintf tmpSize temp (.text chars fits)).2 chars.length).2.2
  have hmem := @mem_espPrintfv log temp (.text chars fits)
  have hlength : (vsnprintf tmpSize temp (.text chars fits)).1 = chars.length := rfl
  rw [hlength] at hmem
  generalize (vsnprintf tmpSize temp (.text chars fits)).2 = temp' at hofs hmem
  have hskip : (if 2 < (chars.length : Int) ∧ 0 ≤ espLevel (temp' 0) then 2 else 0) ≤ 2 := by
    split <;> omega
  generalize (if 2 < (chars.length : Int) ∧ 0 ≤ espLevel (temp' 0) then 2 else 0) = k
    at hofs hskip
  have huint : toUint ((chars.length : Int) - k) = chars.length - k := toUint_sub (by omega) fits
  have hlast := hmem (last_mem_espText log temp' hofs huint (by omega))
  rwa [Nat.add_sub_cancel' (by omega)] at hlast

/-- The level is taken from the first character of the text. -/
theorem espPrintfv_meant (hshort : chars.length < tmpSize) :
    AppendsStored log (.text chars fits) (LogCaller.meant log (.text chars fits) .espPrintfv)
      (LogCaller.call log temp (.text chars fits) .espPrintfv) := by
  have hhead := @vsnprintf_head temp chars fits
  obtain ⟨-, hcode, hofs⟩ :=
    espCode_spec hwf (vsnprintf tmpSize temp (.text chars fits)).2 chars.length
  have hfinish := fun lead => @espPrintfv_short log hwf temp chars lead fits
  generalize (vsnprintf tmpSize temp (.text chars fits)).2 = temp' at *
  have hcond : (2 < (chars.length : Int) ∧ 0 ≤ espLevel (temp' 0)) ↔
      2 < chars.length ∧ 0 ≤ espLevel (chars.headD 0) := by
    cases chars with
    | nil => simp
    | cons c chars =>
      rw [hhead (List.cons_ne_nil c chars)]
      exact and_congr_left fun _ => Nat.ofNat_lt_cast
  simp only [hcond] at hcode hofs
  rw [LogCaller.meant, stored_of_short fits hshort, LogCaller.espLead]
  by_cases hlead : 2 < chars.length ∧ 0 ≤ espLevel (chars.headD 0)
  · have hne : chars ≠ [] := List.ne_nil_of_length_pos (Nat.zero_lt_of_lt hlead.1)
    rw [if_pos hlead] at hcode hofs ⊢
    rw [hhead hne] at hcode
    exact hfinish _ hshort (Nat.le_of_lt hlead.1) hcode hofs
  · rw [if_neg hlead] at hcode hofs ⊢
    exact hfinish _ hshort (Nat.zero_le _) hcode hofs

end

theorem espPrintfv_iff (hwf : log.WellFormed) (temp : Nat → UInt8) (msg : Formatted) :
    AppendsStored log msg (LogCaller.meant log msg .espPrintfv)
      (LogCaller.call log temp msg .espPrintfv) ↔ LogCaller.Short log msg .espPrintfv := by
  cases msg with
  | failed rc negative left =>
    refine iff_of_false (espPrintfv_failed hwf temp negative left) ?_
    rintro ⟨chars, fits, h, -⟩
    cases h
  | text chars fits =>
    constructor
    · intro h
      refine ⟨chars, fits, rfl, ?_⟩
      by_contra hlong
      exact espPrintfv_long hwf temp fits (Nat.not_lt.mp hlong) h
    · rintro ⟨chars', fits', hmsg, hshort⟩
      cases hmsg
      exact espPrintfv_meant hwf temp fits hshort

/-- What a call appends is what was stored, unless the message is longer than the buffer,
or the formatting of a message of the system fails. -/
theorem appendsStored_iff {log : Log} (hwf : log.WellFormed) (temp : Nat → UInt8)
    (msg : Formatted) (caller : LogCaller) :
    AppendsStored log msg (caller.meant log msg) (caller.call log temp msg) ↔
      caller.Short log msg := by
  cases caller with
  | logPrintf level => exact logPrintf_iff hwf temp level msg
  | espPrintfv => exact espPrintfv_iff hwf temp msg

def emptyLog : Log := logInit ⟨[], false, false, 0, Block.ofCells (List.replicate 7872 0)⟩

theorem emptyLog_wellFormed : emptyLog.WellFormed :=
  logClear_wellFormed List.length_replicate rfl

theorem appendsStored_message :
    AppendsStored emptyLog (.text ['I', ' ', 'u', 'p'] (by decide))
      (LogCaller.meant emptyLog (.text ['I', ' ', 'u', 'p'] (by decide)) .espPrintfv)
      (LogCaller.call emptyLog (fun _ => 0) (.text ['I', ' ', 'u', 'p'] (by decide)) .espPrintfv) :=
  (appendsStored_iff emptyLog_wellFormed _ _ .espPrintfv).mpr ⟨_, _, rfl, by decide⟩

def longMessage : Formatted :=
  .text (List.replicate 300 97) (by rw [List.length_replicate]; decide)

/-- Of 300 characters 255 are in the buffer. -/
theorem long_message_overread :
    ¬AppendsStored emptyLog longMessage (LogCaller.meant emptyLog longMessage (.logPrintf 1))
      (LogCaller.call emptyLog (fun _ => 0) longMessage (.logPrintf 1)) := by
  intro h
  have hshort := (logPrintf_iff emptyLog_wellFormed (fun _ => 0) 1 longMessage).mp h
  obtain hlevel | hoff | hfits := hshort
  · exact absurd hlevel (by decide)
  · cases hoff
  · have hlength := hfits _ _ rfl
    rw [List.length_replicate] at hlength
    exact absurd hlength (by decide)

end Wifimodem
