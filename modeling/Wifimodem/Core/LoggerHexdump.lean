import Mathlib.Data.List.FinRange
import Mathlib.Data.List.GetD
import Mathlib.Data.List.Nodup
import Wifimodem.Core.LoggerFormat
import Wifimodem.Core.Types

/-!
# Dumps of memory

A dump has a row for each 16 bytes of memory from an aligned address on, with the
digits of the bytes and their characters. The two texts of a row are kept between the
rows. Addresses have 32 bits, and the memory that is dumped is not that of the log.
-/

namespace Wifimodem

open Traced

def hexdumpWidth : Nat := 16

def xdigits : List UInt8 :=
  ['0', '1', '2', '3', '4', '5', '6', '7', '8', '9', 'A', 'B', 'C', 'D', 'E', 'F']

def Printable := {c : UInt8 // isprint c = true}

/-- The characters of a row, without the zero behind them, which is never overwritten. -/
structure Column (n : Nat) where
  chars : List UInt8
  length : chars.length = n
  printable : ∀ c ∈ chars, isprint c = true

def Column.blank (n : Nat) : Column n where
  chars := List.replicate n (' ' : UInt8)
  length := List.length_replicate
  printable := fun _ hc => (List.eq_of_mem_replicate hc).symm ▸ rfl

def Column.put {n : Nat} (col : Column n) (i : Fin n) (c : Printable) : Column n where
  chars := col.chars.set i c.val
  length := List.length_set.trans col.length
  printable := fun _ hd => (List.mem_or_eq_of_mem_set hd).elim (col.printable _) (· ▸ c.property)

theorem isprint_xdigit : ∀ d : Fin 16, isprint (xdigits.getD d 0) = true := by decide

def xdigit (d : UInt8) : Printable :=
  ⟨xdigits.getD (d &&& 15).toNat 0,
    isprint_xdigit ⟨(d &&& 15).toNat, Nat.lt_succ_of_le Nat.and_le_right⟩⟩

def blankChar : Printable := ⟨(' ' : UInt8), rfl⟩

/-- The character of a byte, and a dot for one that cannot be printed. -/
def dumpChar (c : UInt8) : Printable :=
  if h : isprint c = true then ⟨c, h⟩ else ⟨('.' : UInt8), rfl⟩

structure HexdumpRow where
  cv : Column 17
  hv : Column 49

/-- There is a gap in the middle of a row. -/
def gap (n : Fin hexdumpWidth) : Nat := if n.val ≥ 8 then 1 else 0

theorem gap_le (n : Fin hexdumpWidth) : gap n ≤ 1 := by
  rw [gap]
  split <;> decide

def hexdumpPut (row : HexdumpRow) (n : Fin hexdumpWidth) (c high low : Printable) : HexdumpRow where
  cv := row.cv.put ⟨n + gap n, Nat.lt_succ_of_le (Nat.add_le_add n.is_le (gap_le n))⟩ c
  hv :=
    (row.hv.put ⟨3 * n + gap n + 1, by have := gap_le n; have := n.is_lt; grind [hexdumpWidth]⟩
      high).put ⟨3 * n + gap n + 2, by have := gap_le n; have := n.is_lt; grind [hexdumpWidth]⟩ low

section
variable (mem : Nat → UInt8) (base lim : Nat)

def hexdumpCell (ptr : Nat) (row : HexdumpRow) (n : Fin hexdumpWidth) : Traced Nat HexdumpRow :=
  if ptr + n ≥ base ∧ ptr + n < lim then do
    let c ← touch (ptr + n) (mem (ptr + n))
    pure (hexdumpPut row n (dumpChar c) (xdigit (c >>> 4)) (xdigit c))
  else pure (hexdumpPut row n blankChar blankChar blankChar)

def hexdumpRow (ptr : Nat) (row : HexdumpRow) : Traced Nat HexdumpRow :=
  (List.finRange hexdumpWidth).foldlM (hexdumpCell mem base lim ptr) row

/-- The rows with their addresses, with a bound on the number of the rows. -/
def hexdumpRows (eptr : Nat) : Nat → Nat → HexdumpRow → Traced Nat (List (Nat × HexdumpRow))
  | 0, _, _ => pure []
  | fuel + 1, ptr, row =>
    if ptr < eptr then do
      let row ← hexdumpRow mem base lim ptr row
      let rows ← hexdumpRows eptr fuel ((ptr + hexdumpWidth) % 2 ^ 32) row
      pure ((ptr, row) :: rows)
    else pure []

end

def alignDown (a : Nat) : Nat := a - (a &&& (hexdumpWidth - 1))

def hexdumpLines (mem : Nat → UInt8) (base len : Nat) : Traced Nat (List (Nat × HexdumpRow)) :=
  let lim := (base + len) % 2 ^ 32
  let bptr := alignDown base
  let eptr := (alignDown lim + hexdumpWidth) % 2 ^ 32
  hexdumpRows mem base lim eptr eptr bptr ⟨.blank 17, .blank 49⟩

/-- What the C library prints for a pointer. -/
structure PointerText where
  chars : Nat → List UInt8
  short : ∀ ptr, (chars ptr).length ≤ 32
  plain : ∀ ptr, ∀ c ∈ chars ptr, c ≠ ('|' : UInt8) ∧ c ≠ ('\n' : UInt8)

section
variable (pointer : PointerText)

def hexdumpLine (row : Nat × HexdumpRow) : List UInt8 :=
  pointer.chars row.1 ++ [(' ' : UInt8), '|'] ++ row.2.hv.chars ++ [(' ' : UInt8), '|', ' '] ++
    row.2.cv.chars ++ [('\n' : UInt8)]

theorem length_hexdumpLine (row : Nat × HexdumpRow) :
    (hexdumpLine pointer row).length = (pointer.chars row.1).length + 72 := by
  have hhv := row.2.hv.length
  have hcv := row.2.cv.length
  simp only [hexdumpLine, List.length_append, List.length_cons, List.length_nil, hhv, hcv]

theorem hexdumpLine_short (row : Nat × HexdumpRow) :
    (hexdumpLine pointer row).length < tmpSize := by
  have hptr := pointer.short row.1
  rw [length_hexdumpLine, tmpSize]
  omega

def hexdumpMessage (row : Nat × HexdumpRow) : Formatted :=
  .text (hexdumpLine pointer row) (Nat.lt_trans (hexdumpLine_short pointer row) (by decide))

def hexdumpPrint (level : Nat) : List (Nat × HexdumpRow) → Log → (Nat → UInt8) →
    Traced Nat LogPrinted
  | [], log, temp => pure ⟨log, temp, []⟩
  | row :: rows, log, temp => do
    let printed ← logPrintf log temp level (hexdumpMessage pointer row)
    let rest ← hexdumpPrint level rows printed.log printed.temp
    pure { rest with out := printed.out ++ rest.out }

/-- With the accesses to the memory that is dumped. -/
def logHexdump (mem : Nat → UInt8) (log : Log) (temp : Nat → UInt8) (level base len : Nat) :
    Traced Nat (Traced Nat LogPrinted) :=
  if level ≥ logNum ∨ log.enabled.getD level false = false then pure (pure ⟨log, temp, []⟩)
  else do
    let rows ← hexdumpLines mem base len
    pure (hexdumpPrint pointer level rows log temp)

end

/-! ## Reading a dump back -/

def unhex (c : UInt8) : Option UInt8 := (xdigits.findIdx? (· == c)).map UInt8.ofNat

/-- The byte that is shown in a column of the digits. -/
def hexCell (hv : List UInt8) (n : Fin hexdumpWidth) : Option UInt8 := do
  let high ← unhex (hv.getD (3 * n + gap n + 1) 0)
  let low ← unhex (hv.getD (3 * n + gap n + 2) 0)
  pure (high * 16 + low)

def hexCells (hv : List UInt8) : List UInt8 := (List.finRange hexdumpWidth).filterMap (hexCell hv)

/-- The bytes that a text of dumped rows shows. -/
def dumpedBytes (text : List UInt8) : List UInt8 :=
  (text.splitOnP (· == ('\n' : UInt8))).flatMap fun line =>
    hexCells ((line.dropWhile (· != ('|' : UInt8))).drop 1)

theorem unhex_xdigit : ∀ d : UInt8, unhex (xdigit d).val = some (d &&& 15) := by
  have hall : ∀ d : Fin 16, unhex (xdigits.getD d 0) = some (UInt8.ofNat d) := by decide
  intro d
  have hd := hall ⟨(d &&& 15).toNat, Nat.lt_succ_of_le Nat.and_le_right⟩
  rwa [UInt8.ofNat_toNat] at hd

theorem unhex_blank : unhex blankChar.val = none := by decide

theorem nibbles (c : UInt8) : (c >>> 4 &&& 15) * 16 + (c &&& 15) = c := by
  have hlow : (c &&& 15).toNat = c.toNat % 16 := Nat.and_two_pow_sub_one_eq_mod c.toNat 4
  have hhigh : (c >>> 4 &&& 15).toNat = c.toNat / 16 % 16 := by
    rw [← Nat.shiftRight_eq_div_pow c.toNat 4]
    exact Nat.and_two_pow_sub_one_eq_mod (c.toNat >>> 4) 4
  have hlt : c.toNat < 256 := c.toNat_lt
  have hsixteen : (16 : UInt8).toNat = 16 := rfl
  rw [← UInt8.toNat_inj, UInt8.toNat_add, UInt8.toNat_mul, hhigh, hlow, hsixteen]
  omega

theorem getD_set {w : List UInt8} {i : Nat} (hi : i < w.length) (j : Nat) (c : UInt8) :
    (w.set i c).getD j 0 = if j = i then c else w.getD j 0 := by
  rw [List.getD_eq_getElem?_getD, List.getElem?_set]
  by_cases hij : i = j
  · subst hij
    simp [hi]
  · rw [if_neg hij, if_neg (Ne.symm hij), List.getD_eq_getElem?_getD]

/-- No two columns share a digit. -/
theorem digit_places {n n' : Fin hexdumpWidth} (h : n ≠ n') :
    3 * n.val + gap n + 2 < 3 * n' + gap n' + 1 ∨ 3 * n'.val + gap n' + 2 < 3 * n + gap n + 1 := by
  have hne : n.val ≠ n'.val := fun heq => h (Fin.ext heq)
  simp only [gap]
  split <;> split <;> omega

theorem hexCell_put (row : HexdumpRow) (n n' : Fin hexdumpWidth) (c high low : Printable) :
    hexCell (hexdumpPut row n c high low).hv.chars n' =
      if n' = n then do
        let high ← unhex high.val
        let low ← unhex low.val
        pure (high * 16 + low)
      else hexCell row.hv.chars n' := by
  have hlen := row.hv.length
  have hlen' := fun c => (@List.length_set _ row.hv.chars (3 * n + gap n + 1) c).trans hlen
  have hn : n.val < 16 := n.is_lt
  have hgap := gap_le n
  simp only [hexCell, hexdumpPut, Column.put]
  rw [getD_set (by rw [hlen']; omega), getD_set (by omega), getD_set (by rw [hlen']; omega),
    getD_set (by omega)]
  by_cases heq : n' = n
  · subst heq
    simp
  · have hplaces := digit_places heq
    rw [if_neg heq, if_neg (by omega), if_neg (by omega), if_neg (by omega), if_neg (by omega)]

/-! ## The rows -/

section
variable (mem : Nat → UInt8) (base lim : Nat)

/-- The address is in the part of the memory that is dumped. -/
def within (base lim a : Nat) : Bool := decide (base ≤ a ∧ a < lim)

theorem hexdumpCell_cell (ptr : Nat) (row : HexdumpRow) (n n' : Fin hexdumpWidth) :
    hexCell (hexdumpCell mem base lim ptr row n).value.hv.chars n' =
      if n' = n then if within base lim (ptr + n) then some (mem (ptr + n)) else none
      else hexCell row.hv.chars n' := by
  by_cases hin : ptr + n ≥ base ∧ ptr + n < lim
  · have hwithin : within base lim (ptr + n) = true := decide_eq_true hin
    rw [hexdumpCell, if_pos hin, hwithin, value_bind, value_touch, value_pure, hexCell_put,
      unhex_xdigit, unhex_xdigit]
    simp [nibbles]
  · have hwithin : within base lim (ptr + n) = false := decide_eq_false hin
    rw [hexdumpCell, if_neg hin, hwithin, value_pure, hexCell_put, unhex_blank]
    simp

theorem hexdumpCell_log (ptr : Nat) (row : HexdumpRow) (n : Fin hexdumpWidth) :
    (hexdumpCell mem base lim ptr row n).log = [ptr + n.val].filter (within base lim) := by
  by_cases hin : ptr + n ≥ base ∧ ptr + n < lim
  · have hwithin : within base lim (ptr + n) = true := decide_eq_true hin
    rw [hexdumpCell, if_pos hin, List.filter_singleton, hwithin]
    rfl
  · have hwithin : within base lim (ptr + n) = false := decide_eq_false hin
    rw [hexdumpCell, if_neg hin, List.filter_singleton, hwithin]
    rfl

/-- The columns are filled one by one, each on its own. -/
theorem hexdumpCells_spec (ptr : Nat) (row : HexdumpRow) {ns : List (Fin hexdumpWidth)}
    (hns : ns.Nodup) :
    (ns.foldlM (hexdumpCell mem base lim ptr) row).log =
        (ns.map fun n => ptr + n.val).filter (within base lim) ∧
      ∀ n, hexCell (ns.foldlM (hexdumpCell mem base lim ptr) row).value.hv.chars n =
        if n ∈ ns then if within base lim (ptr + n) then some (mem (ptr + n)) else none
        else hexCell row.hv.chars n := by
  induction ns generalizing row with
  | nil => exact ⟨rfl, fun n => rfl⟩
  | cons n ns ih =>
    obtain ⟨hnew, hns⟩ := List.nodup_cons.mp hns
    obtain ⟨hlog, hcells⟩ := ih (hexdumpCell mem base lim ptr row n).value hns
    rw [List.foldlM_cons]
    constructor
    · rw [log_bind, hlog, hexdumpCell_log, ← List.filter_append]
      rfl
    · intro n'
      rw [value_bind, hcells, hexdumpCell_cell]
      by_cases heq : n' = n
      · subst heq
        simp [hnew]
      · simp [heq]

theorem map_finRange (ptr : Nat) :
    ((List.finRange hexdumpWidth).map fun n => ptr + n.val) = List.range' ptr hexdumpWidth := by
  apply List.ext_getElem
  · rw [List.length_map, List.length_finRange, List.length_range']
  · intro i hi hi'
    simp

theorem hexdumpRow_spec (ptr : Nat) (row : HexdumpRow) :
    (hexdumpRow mem base lim ptr row).log =
        (List.range' ptr hexdumpWidth).filter (within base lim) ∧
      hexCells (hexdumpRow mem base lim ptr row).value.hv.chars =
        ((List.range' ptr hexdumpWidth).filter (within base lim)).map mem := by
  obtain ⟨hlog, hcells⟩ := hexdumpCells_spec mem base lim ptr row
    (List.nodup_finRange hexdumpWidth)
  rw [← map_finRange]
  refine ⟨hlog, ?_⟩
  have hshown : hexCell (hexdumpRow mem base lim ptr row).value.hv.chars =
      fun n => if within base lim (ptr + n.val) then some (mem (ptr + n.val)) else none := by
    funext n
    rw [hexdumpRow, hcells n, if_pos (List.mem_finRange n)]
  rw [hexCells, hshown, List.filter_map, List.map_map, ← List.filterMap_eq_map,
    List.filterMap_filter]
  rfl

/-- Rows that start at multiples of the width show what lies between the first and the last. -/
theorem hexdumpRows_spec {eptr : Nat} (heptr : eptr < 2 ^ 32) {k ptr : Nat}
    (hk : ptr + 16 * k = eptr) {fuel : Nat} (hfuel : k ≤ fuel) (row : HexdumpRow) :
    (hexdumpRows mem base lim eptr fuel ptr row).log =
        (List.range' ptr (16 * k)).filter (within base lim) ∧
      (hexdumpRows mem base lim eptr fuel ptr row).value.flatMap (fun row => hexCells row.2.hv.chars)
        = ((List.range' ptr (16 * k)).filter (within base lim)).map mem := by
  have hwidth : hexdumpWidth = 16 := rfl
  induction k generalizing fuel ptr row with
  | zero =>
    have hend : ¬ptr < eptr := by omega
    cases fuel with
    | zero => exact ⟨rfl, rfl⟩
    | succ fuel =>
      rw [hexdumpRows, if_neg hend]
      exact ⟨rfl, rfl⟩
  | succ k ih =>
    obtain ⟨fuel, rfl⟩ := Nat.exists_eq_add_of_le' (Nat.le_trans (Nat.le_add_left 1 k) hfuel)
    have hmore : ptr < eptr := by omega
    have hnext : (ptr + hexdumpWidth) % 2 ^ 32 = ptr + hexdumpWidth := Nat.mod_eq_of_lt (by omega)
    obtain ⟨hlog, hbytes⟩ := hexdumpRow_spec mem base lim ptr row
    obtain ⟨hlogs, hrest⟩ := ih (show ptr + hexdumpWidth + 16 * k = eptr by omega)
      (Nat.le_of_succ_le_succ hfuel) (hexdumpRow mem base lim ptr row).value
    have hsplit : List.range' ptr (16 * (k + 1)) =
        List.range' ptr hexdumpWidth ++ List.range' (ptr + hexdumpWidth) (16 * k) := by
      rw [List.range'_append_1, hwidth, Nat.mul_succ, Nat.add_comm]
    rw [hexdumpRows, if_pos hmore, hnext, hsplit, List.filter_append, List.map_append]
    constructor
    · simp only [log_bind, log_pure, List.append_nil, hlog, hlogs]
    · simp only [value_bind, value_pure, List.flatMap_cons, hbytes, hrest]

theorem filter_within {b m : Nat} (hb : b ≤ base) {len : Nat} (hm : base + len ≤ b + m) :
    (List.range' b m).filter (within base (base + len)) = List.range' base len := by
  have hsplit : List.range' b m = List.range' b (base - b) ++ (List.range' base len ++
      List.range' (base + len) (b + m - (base + len))) := by
    have hfirst := @List.range'_append_1 base len (b + m - (base + len))
    have hsecond := @List.range'_append_1 b (base - b) (len + (b + m - (base + len)))
    rw [Nat.add_sub_cancel' hb] at hsecond
    rw [hfirst, hsecond]
    congr 1
    omega
  have hbefore : (List.range' b (base - b)).filter (within base (base + len)) = [] := by
    rw [List.filter_eq_nil_iff]
    intro a ha
    rw [List.mem_range'_1] at ha
    simp only [within, decide_eq_true_eq]
    omega
  have hin : (List.range' base len).filter (within base (base + len)) = List.range' base len := by
    rw [List.filter_eq_self]
    intro a ha
    rw [List.mem_range'_1] at ha
    simp only [within, decide_eq_true_eq]
    omega
  have hafter : (List.range' (base + len) (b + m - (base + len))).filter
      (within base (base + len)) = [] := by
    rw [List.filter_eq_nil_iff]
    intro a ha
    rw [List.mem_range'_1] at ha
    simp only [within, decide_eq_true_eq]
    omega
  rw [hsplit, List.filter_append, List.filter_append, hbefore, hin, hafter, List.append_nil,
    List.nil_append]

end

theorem alignDown_eq (a : Nat) : alignDown a = 16 * (a / 16) := by
  have hmod : a &&& (hexdumpWidth - 1) = a % hexdumpWidth := Nat.and_two_pow_sub_one_eq_mod a 4
  have hdiv := Nat.div_add_mod a 16
  rw [alignDown, hmod, hexdumpWidth]
  omega

/-- Each byte is read once, and the rows show them in order. -/
theorem hexdumpLines_spec (mem : Nat → UInt8) {base len : Nat}
    (hfit : base + len + hexdumpWidth < 2 ^ 32) :
    (hexdumpLines mem base len).log = List.range' base len ∧
      (hexdumpLines mem base len).value.flatMap (fun row => hexCells row.2.hv.chars) =
        (List.range' base len).map mem := by
  have hwidth : hexdumpWidth = 16 := rfl
  have hlim : (base + len) % 2 ^ 32 = base + len := Nat.mod_eq_of_lt (by omega)
  have hbase := alignDown_eq base
  have hend := alignDown_eq (base + len)
  have heptr : (alignDown (base + len) + hexdumpWidth) % 2 ^ 32 =
      alignDown (base + len) + hexdumpWidth := Nat.mod_eq_of_lt (by omega)
  rw [hexdumpLines, hlim, heptr, hwidth]
  have hrows : alignDown base + 16 * ((base + len) / 16 + 1 - base / 16) =
      alignDown (base + len) + 16 := by omega
  have hfuel : (base + len) / 16 + 1 - base / 16 ≤ alignDown (base + len) + 16 := by omega
  have hspec := hexdumpRows_spec mem base (base + len) (by omega) hrows hfuel
    ⟨.blank 17, .blank 49⟩
  rwa [filter_within base (by omega) (by omega)] at hspec

/-! ## What is printed -/

/-- The text goes behind what the log holds and, while the log is direct, to the standard
output. -/
structure Sent (log : Log) (text : List UInt8) (printed : LogPrinted) : Prop where
  wellFormed : printed.log.WellFormed
  contents : printed.log.contents = (log.contents ++ text).rtake logSize
  enabled : printed.log.enabled = log.enabled
  direct : printed.log.direct = log.direct
  out : printed.out = if log.direct then text else []

section
variable {log : Log} {temp : Nat → UInt8}

theorem Sent.nothing (hwf : log.WellFormed) (temp : Nat → UInt8) : Sent log [] ⟨log, temp, []⟩ where
  wellFormed := hwf
  contents := by rw [List.append_nil, contents_rtake_self hwf]
  enabled := rfl
  direct := rfl
  out := by split <;> rfl

theorem Sent.append {text text' : List UInt8} {printed rest : LogPrinted}
    (h : Sent log text printed) (h' : Sent printed.log text' rest) :
    Sent log (text ++ text') { rest with out := printed.out ++ rest.out } where
  wellFormed := h'.wellFormed
  contents := by
    simp only
    rw [h'.contents, h.contents, List.rtake_append_left, List.append_assoc]
  enabled := h'.enabled.trans h.enabled
  direct := h'.direct.trans h.direct
  out := by
    simp only
    rw [h.out, h'.out, h.direct]
    split <;> rfl

theorem logWrite_frame (hwf : log.WellFormed) (msg : List UInt8) :
    (logWrite log msg).1.enabled = log.enabled ∧ (logWrite log msg).1.direct = log.direct := by
  rw [logWrite_eq hwf rfl]
  split <;> exact ⟨rfl, rfl⟩

theorem logWrite_sent (hwf : log.WellFormed) (temp : Nat → UInt8) (msg : List UInt8) :
    Sent log msg ⟨(logWrite log msg).1, temp, (logWrite log msg).2⟩ where
  wellFormed := logWrite_wellFormed hwf msg
  contents := logWrite_contents hwf msg
  enabled := (logWrite_frame hwf msg).1
  direct := (logWrite_frame hwf msg).2
  out := rfl

theorem logWriteTemp_out (log : Log) (temp : Nat → UInt8) (ofs len : Nat) :
    (logWriteTemp temp log ofs len).value.2 =
      if log.direct then (List.range' ofs len).map temp else [] := by
  have hdirect : (readDirect temp log ofs len).value =
      if log.direct then (List.range' ofs len).map temp else [] := by
    rw [readDirect]
    split
    · exact readTemp_value temp ofs len
    · rfl
  rw [logWriteTemp, value_bind, hdirect]
  by_cases hlong : len > logSize
  · simp only [if_pos hlong, value_bind, value_pure]
  · simp only [if_neg hlong, value_bind, value_pure]

theorem logWriteTemp_sent (hwf : log.WellFormed) (temp temp' : Nat → UInt8) (ofs len : Nat) :
    Sent log ((List.range' ofs len).map temp)
      ⟨(logWriteTemp temp log ofs len).value.1, temp', (logWriteTemp temp log ofs len).value.2⟩ := by
  have hsent := logWrite_sent hwf temp' ((List.range' ofs len).map temp)
  rw [logWriteTemp_value hwf, logWriteTemp_out]
  exact hsent

variable {level : Nat} (hon : ¬(level ≥ logNum ∨ log.enabled.getD level false = false))

include hon

theorem logPrintf_value (temp : Nat → UInt8) (msg : Formatted) :
    (logPrintf log temp level msg).value =
      if (vsnprintf tmpSize temp msg).1 > 0 then
        ⟨(logWriteTemp (vsnprintf tmpSize temp msg).2 (logWrite log (levelCode.getD level [])).1 0
            (toUint (vsnprintf tmpSize temp msg).1)).value.1, (vsnprintf tmpSize temp msg).2,
          (logWrite log (levelCode.getD level [])).2 ++
            (logWriteTemp (vsnprintf tmpSize temp msg).2
              (logWrite log (levelCode.getD level [])).1 0
              (toUint (vsnprintf tmpSize temp msg).1)).value.2⟩
      else ⟨(logWrite log (levelCode.getD level [])).1, (vsnprintf tmpSize temp msg).2,
        (logWrite log (levelCode.getD level [])).2⟩ := by
  rw [logPrintf, if_neg hon]
  generalize vsnprintf tmpSize temp msg = printed
  generalize logWrite log (levelCode.getD level []) = coded
  obtain ⟨len, temp'⟩ := printed
  obtain ⟨log', code⟩ := coded
  by_cases hlen : len > 0
  · simp only [if_pos hlen, value_bind, value_pure]
  · simp only [if_neg hlen, value_pure]

/-- A message that fits is sent as it is, behind the code of its level. -/
theorem logPrintf_sent (hwf : log.WellFormed) (temp : Nat → UInt8) {chars : List UInt8}
    (fits : chars.length < 2 ^ 31) (hshort : chars.length < tmpSize) :
    Sent log (levelCode.getD level [] ++ chars)
      (logPrintf log temp level (.text chars fits)).value := by
  have hcode := logWrite_sent hwf temp (levelCode.getD level [])
  have huint : toUint chars.length = chars.length := toUint_sub (Nat.zero_le _) fits
  have htext := logWriteTemp_sent hcode.wellFormed
    (vsnprintf tmpSize temp (.text chars fits)).2 (vsnprintf tmpSize temp (.text chars fits)).2
    0 chars.length
  have hrange := @vsnprintf_range temp 0 chars fits hshort (Nat.zero_le _)
  rw [Nat.sub_zero, List.drop_zero] at hrange
  have hlength : (vsnprintf tmpSize temp (.text chars fits)).1 = chars.length := rfl
  rw [logPrintf_value hon, hlength, huint]
  generalize (vsnprintf tmpSize temp (.text chars fits)).2 = temp' at *
  rw [hrange] at htext
  split
  · have hboth := hcode.append htext
    simp only at hboth
    exact hboth
  · have hnil : chars = [] := List.eq_nil_of_length_eq_zero (by omega)
    rw [hnil, List.append_nil]
    exact { hcode with }

theorem logPrintf_reads (hwf : log.WellFormed) (temp : Nat → UInt8) {chars : List UInt8}
    (fits : chars.length < 2 ^ 31) (hshort : chars.length < tmpSize) :
    (logPrintf log temp level (.text chars fits)).Only (· < tmpSize) := by
  intro i hi
  have hread := (logPrintf_short hwf temp hon fits hshort).reads i hi
  rw [stored_of_short fits hshort] at hread
  exact Nat.lt_trans hread hshort

variable (pointer : PointerText)

/-- What a dump puts into the log. -/
def hexdumpText (level : Nat) (rows : List (Nat × HexdumpRow)) : List UInt8 :=
  rows.flatMap fun row => levelCode.getD level [] ++ hexdumpLine pointer row

theorem hexdumpPrint_spec (hwf : log.WellFormed) (temp : Nat → UInt8)
    (rows : List (Nat × HexdumpRow)) :
    Sent log (hexdumpText pointer level rows) (hexdumpPrint pointer level rows log temp).value ∧
      (hexdumpPrint pointer level rows log temp).Only (· < tmpSize) := by
  induction rows generalizing log temp with
  | nil => exact ⟨.nothing hwf temp, only_pure _⟩
  | cons row rows ih =>
    have hshort := hexdumpLine_short pointer row
    have hsent := logPrintf_sent hon hwf temp (Nat.lt_trans hshort (by decide)) hshort
    have hreads := logPrintf_reads hon hwf temp (Nat.lt_trans hshort (by decide)) hshort
    obtain ⟨hrest, honly⟩ := ih (hsent.enabled.symm ▸ hon) hsent.wellFormed
      (logPrintf log temp level (hexdumpMessage pointer row)).value.temp
    exact ⟨hsent.append hrest, only_bind hreads (only_bind honly (only_pure _))⟩

end

/-! ## What the text says -/

theorem hexCell_append {hv : List UInt8} (hlen : hv.length = 49) (w : List UInt8)
    (n : Fin hexdumpWidth) : hexCell (hv ++ w) n = hexCell hv n := by
  have hn : n.val < 16 := n.is_lt
  have hgap := gap_le n
  simp only [hexCell, List.getD_eq_getElem?_getD]
  rw [List.getElem?_append_left (by omega), List.getElem?_append_left (by omega)]

theorem levelCode_plain (level : Nat) :
    ∀ c ∈ levelCode.getD level [], c ≠ ('|' : UInt8) ∧ c ≠ ('\n' : UInt8) := by
  have hall : ∀ code ∈ levelCode, ∀ c ∈ code, c ≠ ('|' : UInt8) ∧ c ≠ ('\n' : UInt8) := by
    decide +kernel
  intro c hc
  rcases Nat.lt_or_ge level levelCode.length with hlevel | hlevel
  · rw [List.getD_eq_getElem _ _ hlevel] at hc
    exact hall _ (List.getElem_mem hlevel) c hc
  · rw [List.getD_eq_default _ _ hlevel] at hc
    cases hc

theorem printable_ne_newline {c : UInt8} (h : isprint c = true) : c ≠ ('\n' : UInt8) := by
  rintro rfl
  cases h

/-- The digits are what follows the first bar. -/
theorem digits_line (pointer : PointerText) (level : Nat) (row : Nat × HexdumpRow) :
    ∃ line, (∀ c ∈ line, (c == ('\n' : UInt8)) = false) ∧
      levelCode.getD level [] ++ hexdumpLine pointer row = line ++ [('\n' : UInt8)] ∧
      hexCells ((line.dropWhile (· != ('|' : UInt8))).drop 1) = hexCells row.2.hv.chars := by
  have hcode := levelCode_plain level
  have hptr := pointer.plain row.1
  refine ⟨levelCode.getD level [] ++ pointer.chars row.1 ++ [(' ' : UInt8), '|'] ++
    row.2.hv.chars ++ [(' ' : UInt8), '|', ' '] ++ row.2.cv.chars, ?_, ?_, ?_⟩
  · intro c hc
    simp only [List.mem_append] at hc
    rw [beq_eq_false_iff_ne]
    obtain ((((hc | hc) | hc) | hc) | hc) | hc := hc
    · exact (hcode c hc).2
    · exact (hptr c hc).2
    · revert c
      decide +kernel
    · exact printable_ne_newline (row.2.hv.printable c hc)
    · revert c
      decide +kernel
    · exact printable_ne_newline (row.2.cv.printable c hc)
  · simp only [hexdumpLine, List.append_assoc]
  · have hbefore : ∀ c ∈ levelCode.getD level [] ++ pointer.chars row.1 ++ [(' ' : UInt8)],
        (c != ('|' : UInt8)) = true := by
      intro c hc
      simp only [List.mem_append] at hc
      rw [bne_iff_ne]
      obtain (hc | hc) | hc := hc
      · exact (hcode c hc).1
      · exact (hptr c hc).1
      · revert c
        decide +kernel
    have hcells : ∀ w, hexCells (row.2.hv.chars ++ w) = hexCells row.2.hv.chars := by
      intro w
      rw [hexCells, hexCells, funext (hexCell_append row.2.hv.length w)]
    have hsplit : levelCode.getD level [] ++ pointer.chars row.1 ++ [(' ' : UInt8), '|'] ++
        row.2.hv.chars ++ [(' ' : UInt8), '|', ' '] ++ row.2.cv.chars =
        (levelCode.getD level [] ++ pointer.chars row.1 ++ [(' ' : UInt8)]) ++
          ('|' : UInt8) :: (row.2.hv.chars ++ ([(' ' : UInt8), '|', ' '] ++ row.2.cv.chars)) := by
      simp only [List.append_assoc, List.cons_append, List.nil_append]
    rw [hsplit, List.dropWhile_append_of_pos hbefore, List.dropWhile_cons_of_neg (by decide),
      List.drop_succ_cons, List.drop_zero, hcells]

theorem dumpedBytes_text (pointer : PointerText) (level : Nat) (rows : List (Nat × HexdumpRow)) :
    dumpedBytes (hexdumpText pointer level rows) =
      rows.flatMap fun row => hexCells row.2.hv.chars := by
  induction rows with
  | nil =>
    have hnil : dumpedBytes [] = [] := by decide
    exact hnil
  | cons row rows ih =>
    obtain ⟨line, hplain, hline, hcells⟩ := digits_line pointer level row
    have hcons : hexdumpText pointer level (row :: rows) =
        line ++ ('\n' : UInt8) :: hexdumpText pointer level rows := by
      rw [hexdumpText, List.flatMap_cons, hline, List.append_assoc]
      rfl
    rw [hcons, dumpedBytes, List.splitOnP_append_cons_of_forall_mem hplain _ (by decide),
      List.flatMap_cons, hcells, List.flatMap_cons, ← ih]
    rfl

/-- A dump reads each byte of the memory it is given once, and what it adds to the log
shows all of them in their order, without a byte being read outside the buffer. -/
theorem log_hexdump_decodes (pointer : PointerText) (mem : Nat → UInt8) {log : Log}
    (hwf : log.WellFormed) (temp : Nat → UInt8) {level : Nat} (hlevel : level < logNum)
    (hon : log.enabled.getD level false = true) {base len : Nat}
    (hfit : base + len + hexdumpWidth < 2 ^ 32) :
    (logHexdump pointer mem log temp level base len).log = List.range' base len ∧
      (logHexdump pointer mem log temp level base len).value.Only (· < tmpSize) ∧
      ∃ text, dumpedBytes text = (List.range' base len).map mem ∧
        Sent log text (logHexdump pointer mem log temp level base len).value.value := by
  obtain ⟨hread, hbytes⟩ := hexdumpLines_spec mem hfit
  have hoff : ¬(level ≥ logNum ∨ log.enabled.getD level false = false) := by
    rintro (h | h)
    · omega
    · rw [hon] at h
      cases h
  have hprint := hexdumpPrint_spec hoff pointer hwf temp (hexdumpLines mem base len).value
  rw [logHexdump, if_neg hoff]
  simp only [log_bind, log_pure, List.append_nil, value_bind, value_pure]
  exact ⟨hread, hprint.2, _, (dumpedBytes_text pointer level _).trans hbytes, hprint.1⟩

/-- A digit of the address, from the lowest one on. -/
def pointerDigit (ptr i : Nat) : UInt8 :=
  (['0', '1', '2', '3', '4', '5', '6', '7', '8', '9', 'a', 'b', 'c', 'd', 'e', 'f'] :
    List UInt8).getD (ptr / 16 ^ i % 16) 0

theorem pointerDigit_plain (ptr i : Nat) :
    pointerDigit ptr i ≠ ('|' : UInt8) ∧ pointerDigit ptr i ≠ ('\n' : UInt8) := by
  have hall : ∀ d : Fin 16,
      (['0', '1', '2', '3', '4', '5', '6', '7', '8', '9', 'a', 'b', 'c', 'd', 'e', 'f'] :
        List UInt8).getD d 0 ≠ ('|' : UInt8) ∧
      (['0', '1', '2', '3', '4', '5', '6', '7', '8', '9', 'a', 'b', 'c', 'd', 'e', 'f'] :
        List UInt8).getD d 0 ≠ ('\n' : UInt8) := by decide
  exact hall ⟨ptr / 16 ^ i % 16, Nat.mod_lt _ (by decide)⟩

/-- An address of 32 bits, without zeros in front. -/
def hexPointer : PointerText where
  chars ptr := [('0' : UInt8), 'x'] ++
    ([7, 6, 5, 4, 3, 2, 1].map (pointerDigit ptr)).dropWhile (· == ('0' : UInt8)) ++
    [pointerDigit ptr 0]
  short ptr := by
    have hle := (List.dropWhile_suffix (· == ('0' : UInt8))
      (l := [7, 6, 5, 4, 3, 2, 1].map (pointerDigit ptr))).length_le
    simp only [List.length_append, List.length_cons, List.length_nil, List.length_map] at hle ⊢
    omega
  plain ptr c hc := by
    simp only [List.mem_append] at hc
    obtain (hc | hc) | hc := hc
    · revert c
      decide +kernel
    · obtain ⟨i, -, rfl⟩ := List.mem_map.mp ((List.dropWhile_suffix _).subset hc)
      exact pointerDigit_plain ptr i
    · obtain rfl := List.mem_singleton.mp hc
      exact pointerDigit_plain ptr 0

theorem log_hexdump_unaligned :
    (logHexdump hexPointer UInt8.ofNat emptyLog (fun _ => 0) 0 4099 30).log = List.range' 4099 30 :=
  (log_hexdump_decodes hexPointer UInt8.ofNat emptyLog_wellFormed (fun _ => 0) (Nat.succ_pos _) rfl
    (by decide)).1

end Wifimodem
