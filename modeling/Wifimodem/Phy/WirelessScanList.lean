import Wifimodem.Core.StrText
import Wifimodem.Lib.Chained
import Wifimodem.Phy.WirelessScan

/-!
# The list that a scan builds

The loop with its pointers: the structs that were linked are those of the
hotspots, in their order, and the texts stay in front of what is written later.
-/

namespace Wifimodem

/-- Where the loop stands: the rest of the buffer, the structs with their `next`
pointers, the bytes of the texts, and the list so far. Structs and texts lie apart. -/
structure ScanState where
  buf : Nat
  len : Nat
  structs : Nat → Hotspot
  next : Nat → Option Nat
  mem : Nat → UInt8
  first : Option Nat
  curr : Option Nat
  num : Nat

def storeAt (mem : Nat → UInt8) (addr : Nat) (text : List UInt8) : Nat → UInt8 := fun a =>
  if addr ≤ a then (text[a - addr]?).getD (mem a) else mem a

namespace ScanState

def advance (s : ScanState) (num : Nat) : ScanState :=
  { s with buf := s.buf + num, len := usub s.len num }

def setStruct (s : ScanState) (wh : Nat) (set : Hotspot → Hotspot) : ScanState :=
  { s with structs := Function.update s.structs wh (set (s.structs wh)) }

def setNext (s : ScanState) (wh : Nat) (next : Option Nat) : ScanState :=
  { s with next := Function.update s.next wh next }

def copy (s : ScanState) (text : List UInt8) : ScanState :=
  { s with mem := storeAt s.mem s.buf text }

def link (s : ScanState) (wh : Nat) : ScanState :=
  let s := if s.first = none then { s with first := some wh } else s
  let s := match s.curr with
    | none => s
    | some curr => s.setNext curr (some wh)
  { s with curr := some wh, num := s.num + 1 }

end ScanState

/-- One turn of the loop, and whether the buffer had room for it. -/
def scanRecord (s : ScanState) (ap : ApRecord) : ScanState × Bool :=
  let cur := alignBuf s.len s.buf
  let s := { s with buf := cur.buf, len := cur.len }
  if s.len < hotspotSize then (s, false)
  else
    let wh := s.buf
    let s := s.advance hotspotSize
    let s := s.setStruct wh fun x =>
      { x with
        addr := wh
        rssi := ap.rssi
        chan := ap.primary
        auth := ap.authmode
        band := if ap.primary ≤ 14 then 0x24 else 0x50 }
    let s := s.setNext wh none
    let ssid := cstr ap.ssid
    if s.len < ssid.length then (s, false)
    else
      let s := (s.copy ssid).setStruct wh fun x => { x with ssid := ⟨s.buf, ssid.length⟩ }
      let s := s.advance ssid.length
      let (num, text) := macFormat ap.bssid s.len
      let s := (s.copy text).setStruct wh fun x => { x with mac := ⟨s.buf, num⟩ }
      ((s.advance num).link wh, true)

def scanRecords (s : ScanState) : List ApRecord → ScanState × Bool
  | [] => (s, true)
  | ap :: aps =>
    match scanRecord s ap with
    | (s, false) => (s, false)
    | (s, true) => scanRecords s aps

def scanBegin (buf len : Nat) (structs : Nat → Hotspot) (next : Nat → Option Nat)
    (mem : Nat → UInt8) : ScanState := ⟨buf, len, structs, next, mem, none, none, 0⟩

/-- The struct and the texts it points to show a record. -/
def ScanState.Holds (s : ScanState) (wh : Nat) (ap : ApRecord) : Prop :=
  (s.structs wh).rssi = ap.rssi ∧ (s.structs wh).chan = ap.primary ∧
    (s.structs wh).auth = ap.authmode ∧
    Str.textFrom s.mem (s.structs wh).ssid.addr (s.structs wh).ssid.len = cstr ap.ssid ∧
    Str.textFrom s.mem (s.structs wh).mac.addr (s.structs wh).mac.len = macText ap.bssid

/-! ## Stored bytes -/

section
variable {mem : Nat → UInt8} {addr a : Nat} {text more : List UInt8}

theorem storeAt_below (h : a < addr) : storeAt mem addr text a = mem a := if_neg (Nat.not_le.mpr h)

theorem storeAt_at (i : Nat) :
    storeAt mem addr text (addr + i) = (text[i]?).getD (mem (addr + i)) := by
  rw [storeAt, if_pos (Nat.le_add_right _ _), Nat.add_sub_cancel_left]

theorem storeAt_behind (h : addr + text.length ≤ a) : storeAt mem addr text a = mem a := by
  obtain ⟨i, rfl⟩ := Nat.exists_eq_add_of_le (Nat.le_trans (Nat.le_add_right _ _) h)
  rw [storeAt_at, List.getElem?_eq_none (Nat.le_of_add_le_add_left h)]
  rfl

theorem textFrom_storeAt (mem : Nat → UInt8) (addr : Nat) (text more : List UInt8) :
    Str.textFrom (storeAt mem addr (text ++ more)) addr text.length = text := by
  induction text generalizing addr with
  | nil => rfl
  | cons c text ih =>
    have hfirst := @storeAt_at mem addr (c :: (text ++ more)) 0
    have hrest : ∀ i, addr + 1 ≤ i → i < addr + 1 + text.length →
        storeAt mem addr (c :: text ++ more) i = storeAt mem (addr + 1) (text ++ more) i := by
      intro i hlo _
      obtain ⟨j, rfl⟩ := Nat.exists_eq_add_of_le hlo
      rw [storeAt_at, Nat.add_assoc, storeAt_at, Nat.add_comm 1 j]
      rfl
    rw [List.length_cons, Str.textFrom, Str.textFrom_congr hrest, ih]
    exact congrArg (· :: text) hfirst

end

/-! ## One record -/

def macStart (buf : Nat) (ap : ApRecord) : Nat := alignUp buf + hotspotSize + (cstr ap.ssid).length

def recordHotspot (buf : Nat) (ap : ApRecord) : Hotspot where
  addr := alignUp buf
  rssi := ap.rssi
  chan := ap.primary
  auth := ap.authmode
  band := if ap.primary ≤ 14 then 0x24 else 0x50
  ssid := ⟨alignUp buf + hotspotSize, (cstr ap.ssid).length⟩
  mac := ⟨macStart buf ap, macSize⟩

section
variable {buf len : Nat} {ap : ApRecord} {aps : List ApRecord}

theorem alignBuf_room (h : alignUp buf + hotspotSize ≤ buf + len) :
    alignBuf len buf = ⟨alignUp buf, buf + len - alignUp buf⟩ := by
  rw [alignBuf_eq, if_pos (Nat.le_trans (Nat.le_add_right _ _) h)]

theorem usub_struct (hlen : len < 2 ^ 32) (h : alignUp buf + hotspotSize ≤ buf + len) :
    usub (buf + len - alignUp buf) hotspotSize = buf + len - alignUp buf - hotspotSize := by
  obtain ⟨hle, _⟩ := le_alignUp buf
  exact usub_of_le (by omega) (by omega)

theorem usub_ssid (hlen : len < 2 ^ 32) (h : macStart buf ap ≤ buf + len) :
    usub (buf + len - alignUp buf - hotspotSize) (cstr ap.ssid).length =
      buf + len - macStart buf ap := by
  obtain ⟨hle, _⟩ := le_alignUp buf
  rw [macStart] at h ⊢
  rw [usub_of_le (by omega) (by omega)]
  omega

theorem wifiScanLoop_room (hlen : len < 2 ^ 32) (hroom : macStart buf ap ≤ buf + len) :
    let rest :=
      wifiScanLoop (macStart buf ap + macSize) (usub (buf + len - macStart buf ap) macSize) aps
    (wifiScanLoop buf len (ap :: aps)).hotspots = recordHotspot buf ap :: rest.hotspots ∧
      (wifiScanLoop buf len (ap :: aps)).full = rest.full := by
  have hstruct : alignUp buf + hotspotSize ≤ buf + len := Nat.le_trans (Nat.le_add_right _ _) hroom
  have hssid : alignUp buf + hotspotSize + (cstr ap.ssid).length ≤ buf + len := hroom
  rw [wifiScanLoop, alignBuf_room hstruct]
  simp only
  rw [if_neg (by omega), usub_struct hlen hstruct, if_neg (by omega), usub_ssid hlen hroom]
  simp only [macFormat_len]
  exact ⟨rfl, rfl⟩

theorem wifiScanLoop_full (hlen : len < 2 ^ 32) (hfull : buf + len < macStart buf ap) :
    (wifiScanLoop buf len (ap :: aps)).hotspots = [] ∧
      (wifiScanLoop buf len (ap :: aps)).full = true := by
  cases wifiScanLoop_cons buf hlen ap aps with
  | noStruct cur hstruct hcur heq =>
    rw [heq]
    exact ⟨rfl, rfl⟩
  | noSsid cur cur₁ hstruct hssid hcur hcur₁ heq =>
    rw [heq]
    exact ⟨rfl, rfl⟩
  | mac cur cur₁ cur₂ start hstart hroom =>
    rw [← macStart] at hstart
    omega

/-- The state when a record is taken, before its struct is linked. -/
def recordTaken (s : ScanState) (ap : ApRecord) : ScanState where
  buf := macStart s.buf ap + macSize
  len := usub (s.buf + s.len - macStart s.buf ap) macSize
  structs := Function.update s.structs (alignUp s.buf) (recordHotspot s.buf ap)
  next := Function.update s.next (alignUp s.buf) none
  mem := storeAt (storeAt s.mem (alignUp s.buf + hotspotSize) (cstr ap.ssid)) (macStart s.buf ap)
    (macFormat ap.bssid (s.buf + s.len - macStart s.buf ap)).2
  first := s.first
  curr := s.curr
  num := s.num

def recordLinked (s : ScanState) (ap : ApRecord) : ScanState :=
  (recordTaken s ap).link (alignUp s.buf)

variable {s : ScanState}

theorem scanRecord_room (hlen : s.len < 2 ^ 32) (hroom : macStart s.buf ap ≤ s.buf + s.len) :
    scanRecord s ap = (recordLinked s ap, true) := by
  have hstruct : alignUp s.buf + hotspotSize ≤ s.buf + s.len :=
    Nat.le_trans (Nat.le_add_right _ _) hroom
  have hssid : ¬s.buf + s.len - alignUp s.buf - hotspotSize < (cstr ap.ssid).length := by
    rw [macStart] at hroom
    omega
  rw [scanRecord, alignBuf_room hstruct]
  simp only [ScanState.advance, ScanState.setStruct, ScanState.setNext, ScanState.copy]
  rw [if_neg (by omega)]
  simp only [usub_struct hlen hstruct, hssid, if_false, usub_ssid hlen hroom, macFormat_len,
    Function.update_idem, Function.update_self]
  rfl

/-- Nothing that is linked changes when the buffer runs out. -/
theorem scanRecord_full (hlen : s.len < 2 ^ 32) (hfull : s.buf + s.len < macStart s.buf ap) :
    ∃ s', scanRecord s ap = (s', false) ∧ s'.first = s.first ∧ s'.num = s.num ∧ s'.mem = s.mem ∧
      ∀ a, a < s.buf → s'.structs a = s.structs a ∧ s'.next a = s.next a := by
  obtain ⟨hle, _⟩ := le_alignUp s.buf
  have hsize : hotspotSize = 36 := rfl
  rw [macStart] at hfull
  rcases Nat.lt_or_ge (s.buf + s.len) (alignUp s.buf + hotspotSize) with hstruct | hstruct
  · have hcur : (alignBuf s.len s.buf).len < hotspotSize := by
      rw [alignBuf_eq]
      split
      · simp only
        omega
      · exact Nat.lt_of_sub_eq_succ hsize
    rw [scanRecord]
    simp only
    rw [if_pos hcur]
    exact ⟨_, rfl, rfl, rfl, rfl, fun _ _ => ⟨rfl, rfl⟩⟩
  · have hssid : s.buf + s.len - alignUp s.buf - hotspotSize < (cstr ap.ssid).length := by omega
    rw [scanRecord, alignBuf_room hstruct]
    simp only [ScanState.advance, ScanState.setStruct, ScanState.setNext]
    rw [if_neg (by omega)]
    simp only [usub_struct hlen hstruct, hssid, if_true]
    refine ⟨_, rfl, rfl, rfl, rfl, ?_⟩
    intro a ha
    have hne : a ≠ alignUp s.buf := by omega
    exact ⟨Function.update_of_ne hne _ _, Function.update_of_ne hne _ _⟩

end

namespace ScanState

variable (s : ScanState) (wh : Nat)

theorem link_first : (s.link wh).first = s.first.or (some wh) := by
  obtain ⟨_, _, _, _, _, first, curr, _⟩ := s
  cases first <;> cases curr <;> rfl

theorem link_next (a : Nat) :
    (s.link wh).next a = if s.curr = some a then some wh else s.next a := by
  obtain ⟨_, _, _, _, _, first, curr, _⟩ := s
  cases first <;> cases curr <;> simp [link, setNext, Function.update_apply, eq_comm]

theorem link_rest : (s.link wh).buf = s.buf ∧ (s.link wh).len = s.len ∧
    (s.link wh).structs = s.structs ∧ (s.link wh).mem = s.mem ∧ (s.link wh).curr = some wh ∧
      (s.link wh).num = s.num + 1 := by
  obtain ⟨_, _, _, _, _, first, curr, _⟩ := s
  cases first <;> cases curr <;> exact ⟨rfl, rfl, rfl, rfl, rfl, rfl⟩

end ScanState

/-! ## The list -/

/-- The structs at `as` are linked in this order, in front of the rest of the buffer. -/
structure ScanState.Built (s : ScanState) (as : List Nat) : Prop where
  chained : Chained s.next s.first as
  curr : s.curr = as.getLast?
  num : s.num = as.length
  below : ∀ a ∈ as, a < s.buf
  nodup : as.Nodup

section
variable {ap : ApRecord} {s : ScanState} {as : List Nat}

theorem alignUp_lt_macStart (buf : Nat) (ap : ApRecord) : alignUp buf < macStart buf ap := by
  have hsize : hotspotSize = 36 := rfl
  rw [macStart]
  omega

theorem recordLinked_rest (s : ScanState) (ap : ApRecord) :
    (recordLinked s ap).buf = macStart s.buf ap + macSize ∧
      (recordLinked s ap).len = usub (s.buf + s.len - macStart s.buf ap) macSize ∧
      (recordLinked s ap).structs = (recordTaken s ap).structs ∧
      (recordLinked s ap).mem = (recordTaken s ap).mem ∧
      (recordLinked s ap).curr = some (alignUp s.buf) ∧ (recordLinked s ap).num = s.num + 1 :=
  (recordTaken s ap).link_rest (alignUp s.buf)

theorem recordLinked_len (s : ScanState) (ap : ApRecord) : (recordLinked s ap).len < 2 ^ 32 := by
  obtain ⟨_, hlen, _⟩ := recordLinked_rest s ap
  rw [hlen, usub]
  exact Nat.mod_lt _ (by decide)

/-- What is in front of the rest of the buffer stays. -/
theorem recordLinked_frame (s : ScanState) (ap : ApRecord) {a : Nat} (ha : a < s.buf) :
    (recordLinked s ap).structs a = s.structs a ∧ (recordLinked s ap).mem a = s.mem a := by
  obtain ⟨_, _, hstructs, hmem, _⟩ := recordLinked_rest s ap
  obtain ⟨hle, _⟩ := le_alignUp s.buf
  have hlt := alignUp_lt_macStart s.buf ap
  have hsize : hotspotSize = 36 := rfl
  rw [hstructs, hmem]
  simp only [recordTaken]
  constructor
  · exact Function.update_of_ne (by omega) _ _
  · rw [storeAt_below (by omega), storeAt_below (by omega)]

theorem built_recordLinked (h : s.Built as) (ap : ApRecord) :
    (recordLinked s ap).Built (as ++ [alignUp s.buf]) := by
  obtain ⟨hbuf, _, _, _, hcurr, hnum⟩ := recordLinked_rest s ap
  obtain ⟨hle, _⟩ := le_alignUp s.buf
  have hlt := alignUp_lt_macStart s.buf ap
  have hnew : ∀ a ∈ as, a ≠ alignUp s.buf := fun a ha => by
    have hbelow := h.below a ha
    omega
  have hnext : ∀ a, (recordLinked s ap).next a =
      if as.getLast? = some a then some (alignUp s.buf)
      else Function.update s.next (alignUp s.buf) none a := by
    intro a
    rw [recordLinked, ScanState.link_next, recordTaken, h.curr]
  constructor
  · rw [recordLinked, ScanState.link_first]
    refine h.chained.append_last h.nodup ?_ ?_ ?_
    · rw [← recordLinked, hnext, if_neg, Function.update_self]
      intro hlast
      exact hnew _ (List.mem_of_getLast? hlast) rfl
    · intro a _ hlast
      rw [← recordLinked, hnext, if_pos hlast]
    · intro a ha hlast
      rw [← recordLinked, hnext, if_neg hlast, Function.update_of_ne (hnew a ha)]
  · rw [hcurr, List.getLast?_concat]
  · rw [hnum, List.length_append]
    exact congrArg (· + 1) h.num
  · rw [hbuf]
    intro a ha
    rcases List.mem_append.mp ha with ha | ha
    · have hbelow := h.below a ha
      omega
    · rw [List.mem_singleton.mp ha]
      omega
  · refine List.nodup_append.mpr ⟨h.nodup, List.nodup_singleton _, ?_⟩
    intro a ha b hb
    rw [List.mem_singleton.mp hb]
    exact hnew a ha

theorem scanRecords_room (hlen : s.len < 2 ^ 32) (hroom : macStart s.buf ap ≤ s.buf + s.len)
    (aps : List ApRecord) : scanRecords s (ap :: aps) = scanRecords (recordLinked s ap) aps := by
  rw [scanRecords, scanRecord_room hlen hroom]

theorem scanRecords_frame (hlen : s.len < 2 ^ 32) (aps : List ApRecord) {a : Nat} (ha : a < s.buf) :
    (scanRecords s aps).1.structs a = s.structs a ∧ (scanRecords s aps).1.mem a = s.mem a := by
  induction aps generalizing s with
  | nil => exact ⟨rfl, rfl⟩
  | cons ap aps ih =>
    rcases Nat.lt_or_ge (s.buf + s.len) (macStart s.buf ap) with hfull | hroom
    · obtain ⟨s', hrun, _, _, hmem, hsame⟩ := scanRecord_full hlen hfull
      rw [scanRecords, hrun]
      exact ⟨(hsame a ha).1, congrFun hmem a⟩
    · obtain ⟨hbuf, _⟩ := recordLinked_rest s ap
      obtain ⟨hle, _⟩ := le_alignUp s.buf
      have hlt := alignUp_lt_macStart s.buf ap
      obtain ⟨hstructs, hmem⟩ := recordLinked_frame s ap ha
      rw [scanRecords_room hlen hroom, ← hstructs, ← hmem]
      apply ih (recordLinked_len s ap)
      rw [hbuf]
      omega

/-- The loop links the structs of the hotspots it goes through. -/
theorem scanRecords_built (h : s.Built as) (hlen : s.len < 2 ^ 32) (aps : List ApRecord) :
    let addrs := as ++ (wifiScanLoop s.buf s.len aps).hotspots.map Hotspot.addr
    (scanRecords s aps).1.num = addrs.length ∧
      Chained (scanRecords s aps).1.next (scanRecords s aps).1.first addrs := by
  induction aps generalizing s as with
  | nil =>
    simp only [wifiScanLoop, List.map_nil, List.append_nil]
    exact ⟨h.num, h.chained⟩
  | cons ap aps ih =>
    rcases Nat.lt_or_ge (s.buf + s.len) (macStart s.buf ap) with hfull | hroom
    · obtain ⟨s', hrun, hfirst, hnum, _, hsame⟩ := scanRecord_full hlen hfull
      obtain ⟨hnil, _⟩ := @wifiScanLoop_full _ _ _ aps hlen hfull
      rw [scanRecords, hrun, hnil, List.map_nil, List.append_nil]
      simp only
      rw [hnum, hfirst]
      exact ⟨h.num, h.chained.congr fun a ha => (hsame a (h.below a ha)).2⟩
    · obtain ⟨hbuf, hlen', _⟩ := recordLinked_rest s ap
      obtain ⟨hcons, _⟩ := @wifiScanLoop_room _ _ _ aps hlen hroom
      have hrest := ih (built_recordLinked h ap) (recordLinked_len s ap)
      rw [hbuf, hlen', List.append_assoc] at hrest
      rw [scanRecords_room hlen hroom, hcons]
      exact hrest

/-! ## The records in the list -/

theorem macFormat_stored (addr : MacAddr) {room : Nat} (h : 18 ≤ room) :
    (macFormat addr room).2 = macText addr ++ [0] := by
  have htake : (macText addr).take (room - 1) = macText addr := by
    apply List.take_of_length_le
    rw [length_macText]
    omega
  simp only [macFormat, snprintf, length_macText]
  rw [if_neg (by omega), if_neg (by omega), htake]

theorem recordLinked_struct (s : ScanState) (ap : ApRecord) :
    (recordLinked s ap).structs (alignUp s.buf) = recordHotspot s.buf ap := by
  obtain ⟨_, _, hstructs, _⟩ := recordLinked_rest s ap
  rw [hstructs]
  exact Function.update_self _ _ _

theorem recordLinked_end (hlen : s.len < 2 ^ 32) (hroom : macStart s.buf ap + 17 ≤ s.buf + s.len) :
    (recordLinked s ap).buf + (recordLinked s ap).len = s.buf + s.len := by
  obtain ⟨hbuf, hlen', _⟩ := recordLinked_rest s ap
  obtain ⟨hle, _⟩ := le_alignUp s.buf
  have hlt := alignUp_lt_macStart s.buf ap
  have hsize : macSize = 17 := rfl
  rw [hbuf, hlen', usub_of_le (by omega) (by omega)]
  omega

theorem recordLinked_holds (hroom : macStart s.buf ap + 18 ≤ s.buf + s.len) :
    (recordLinked s ap).Holds (alignUp s.buf) ap := by
  obtain ⟨_, _, _, hmem, _⟩ := recordLinked_rest s ap
  have hmac := textFrom_storeAt
    (storeAt s.mem (alignUp s.buf + hotspotSize) (cstr ap.ssid)) (macStart s.buf ap)
    (macText ap.bssid) [0]
  have hssid := textFrom_storeAt s.mem (alignUp s.buf + hotspotSize) (cstr ap.ssid) []
  rw [length_macText] at hmac
  rw [List.append_nil] at hssid
  rw [ScanState.Holds, recordLinked_struct, hmem, recordTaken, macFormat_stored _ (by omega)]
  refine ⟨rfl, rfl, rfl, ?_, hmac⟩
  refine Eq.trans (Str.textFrom_congr ?_) hssid
  intro a _ ha
  exact storeAt_below ha

/-- The rest of the loop does not touch the struct and its texts. -/
theorem holds_scanRecords (aps : List ApRecord) :
    (scanRecords (recordLinked s ap) aps).1.Holds (alignUp s.buf) ap ↔
      (recordLinked s ap).Holds (alignUp s.buf) ap := by
  obtain ⟨hbuf, _⟩ := recordLinked_rest s ap
  have hlt := alignUp_lt_macStart s.buf ap
  have hsame : ∀ a, a < (recordLinked s ap).buf →
      (scanRecords (recordLinked s ap) aps).1.structs a = (recordLinked s ap).structs a ∧
        (scanRecords (recordLinked s ap) aps).1.mem a = (recordLinked s ap).mem a :=
    fun a ha => scanRecords_frame (recordLinked_len s ap) aps ha
  rw [hbuf] at hsame
  have htext : ∀ x : Extent, x.fin ≤ macStart s.buf ap + macSize →
      Str.textFrom (scanRecords (recordLinked s ap) aps).1.mem x.addr x.len =
        Str.textFrom (recordLinked s ap).mem x.addr x.len := by
    intro x hx
    apply Str.textFrom_congr
    intro a _ ha
    exact (hsame a (Nat.lt_of_lt_of_le ha hx)).2
  rw [ScanState.Holds, ScanState.Holds, (hsame _ (Nat.lt_add_right _ hlt)).1, recordLinked_struct,
    htext _ (Nat.le_add_right _ _), htext _ (Nat.le_refl _)]

theorem scanRecords_holds (hlen : s.len < 2 ^ 32) {aps : List ApRecord}
    (hfits : ∀ start ∈ macStarts s.buf aps, start + 18 ≤ s.buf + s.len) :
    List.Forall₂ (scanRecords s aps).1.Holds
      ((wifiScanLoop s.buf s.len aps).hotspots.map Hotspot.addr) aps := by
  induction aps generalizing s with
  | nil => exact .nil
  | cons ap aps ih =>
    obtain ⟨hfirst, hfits⟩ := List.forall_mem_cons.mp hfits
    rw [← macStart] at hfirst hfits
    have hroom : macStart s.buf ap ≤ s.buf + s.len := Nat.le_trans (Nat.le_add_right _ _) hfirst
    obtain ⟨hbuf, hlen', _⟩ := recordLinked_rest s ap
    obtain ⟨hcons, _⟩ := @wifiScanLoop_room _ _ _ aps hlen hroom
    rw [← recordLinked_end hlen (Nat.le_of_succ_le hfirst), ← hbuf] at hfits
    have hholds := ih (recordLinked_len s ap) hfits
    rw [hbuf, hlen'] at hholds
    rw [hcons, scanRecords_room hlen hroom]
    exact .cons ((holds_scanRecords aps).mpr (recordLinked_holds hfirst)) hholds

theorem zero_notMem_macText (addr : MacAddr) : 0 ∉ macText addr := by
  have hdigit : ∀ n, n < 16 → (0 : UInt8) ≠ hexDigit n := by decide
  have hhigh : ∀ b : UInt8, (0 : UInt8) ≠ hexDigit (b.toNat / 16) := fun b => by
    have hb := b.toNat_lt
    exact hdigit _ (by omega)
  have hlow : ∀ b : UInt8, (0 : UInt8) ≠ hexDigit (b.toNat % 16) := fun b =>
    hdigit _ (Nat.mod_lt _ (by decide))
  obtain ⟨bytes, hbytes⟩ := addr
  match bytes, hbytes with
  | [a, b, c, d, e, f], _ => simp [macText, hexByte, hhigh, hlow]

/-- A text with too little room is cut short by a zero, or not stored at all. -/
theorem macFormat_cut (addr : MacAddr) {room : Nat} (h : room < 18) {mem : Nat → UInt8}
    {start : Nat} (hblank : mem start = 0) :
    storeAt mem start (macFormat addr room).2 (start + (room - 1)) = 0 := by
  simp only [macFormat, snprintf, length_macText]
  rw [if_neg (by omega), storeAt_at]
  cases room with
  | zero => exact hblank
  | succ room =>
    have htake : ((macText addr).take (room + 1 - 1)).length = room := by
      rw [List.length_take, length_macText]
      omega
    rw [if_neg (by omega), List.getElem?_append_right (by omega), htake]
    simp

theorem mem_textFrom (mem : Nat → UInt8) {ptr len i : Nat} (h : i < len) :
    mem (ptr + i) ∈ Str.textFrom mem ptr len := by
  obtain ⟨n, rfl⟩ := Nat.exists_eq_add_of_le (Nat.succ_le_of_lt h)
  rw [Nat.succ_add_eq_add_succ, Str.textFrom_add]
  exact List.mem_append_right _ List.mem_cons_self

/-- Nothing has been stored in the rest of the buffer. -/
def ScanState.Blank (s : ScanState) : Prop := ∀ a, s.buf ≤ a → s.mem a = 0

theorem storeAt_blank (h : s.Blank) {a : Nat} (ha : macStart s.buf ap ≤ a) :
    storeAt s.mem (alignUp s.buf + hotspotSize) (cstr ap.ssid) a = 0 := by
  obtain ⟨hle, _⟩ := le_alignUp s.buf
  have hlt := alignUp_lt_macStart s.buf ap
  exact (storeAt_behind ha).trans (h a (by omega))

theorem recordLinked_blank (h : s.Blank) (hroom : macStart s.buf ap + 18 ≤ s.buf + s.len) :
    (recordLinked s ap).Blank := by
  obtain ⟨hbuf, _, _, hmem, _⟩ := recordLinked_rest s ap
  have hsize : macSize = (macText ap.bssid).length := (length_macText ap.bssid).symm
  intro a ha
  rw [hbuf] at ha
  rw [hmem]
  simp only [recordTaken]
  obtain ⟨i, rfl⟩ := Nat.exists_eq_add_of_le ha
  rw [macFormat_stored _ (by omega), Nat.add_assoc, storeAt_at, hsize]
  cases i with
  | zero => simp
  | succ i =>
    rw [List.getElem?_eq_none (by simp)]
    exact storeAt_blank h (Nat.le_add_right _ _)

/-- An entry that shows its record has room for the whole of its MAC text. -/
theorem recordLinked_room (h : s.Blank) (hroom : macStart s.buf ap ≤ s.buf + s.len)
    (hholds : (recordLinked s ap).Holds (alignUp s.buf) ap) :
    macStart s.buf ap + 18 ≤ s.buf + s.len := by
  by_contra hcut
  obtain ⟨_, _, _, hmem, _⟩ := recordLinked_rest s ap
  obtain ⟨_, _, _, _, hmac⟩ := hholds
  rw [recordLinked_struct, hmem] at hmac
  have hzero := @macFormat_cut ap.bssid (s.buf + s.len - macStart s.buf ap) (by omega) _ _
    (storeAt_blank h (Nat.le_refl (macStart s.buf ap)))
  have hpos : s.buf + s.len - macStart s.buf ap - 1 < macSize := by
    rw [macSize]
    omega
  have hin := @mem_textFrom (recordTaken s ap).mem (macStart s.buf ap) _ _ hpos
  simp only [recordHotspot] at hmac
  rw [hmac] at hin
  simp only [recordTaken] at hin
  rw [hzero] at hin
  exact zero_notMem_macText _ hin

theorem length_hotspots {buf len : Nat} (hlen : len < 2 ^ 32) {aps : List ApRecord}
    (hfull : (wifiScanLoop buf len aps).full = false) :
    (wifiScanLoop buf len aps).hotspots.length = aps.length := by
  induction aps generalizing buf len with
  | nil => rfl
  | cons ap aps ih =>
    rcases Nat.lt_or_ge (buf + len) (macStart buf ap) with hout | hroom
    · rw [(wifiScanLoop_full hlen hout).2] at hfull
      cases hfull
    obtain ⟨hcons, hrest⟩ := @wifiScanLoop_room _ _ _ aps hlen hroom
    rw [hrest] at hfull
    have hlen' : usub (buf + len - macStart buf ap) macSize < 2 ^ 32 := Nat.mod_lt _ (by decide)
    rw [hcons, List.length_cons, List.length_cons, ih hlen' hfull]

/-- When all entries show their records, all of them fit. -/
theorem scanRecords_fits (hlen : s.len < 2 ^ 32) (hblank : s.Blank) {aps : List ApRecord}
    (hfull : (wifiScanLoop s.buf s.len aps).full = false)
    (hholds : List.Forall₂ (scanRecords s aps).1.Holds
      ((wifiScanLoop s.buf s.len aps).hotspots.map Hotspot.addr) aps) :
    ∀ start ∈ macStarts s.buf aps, start + 18 ≤ s.buf + s.len := by
  induction aps generalizing s with
  | nil => exact List.forall_mem_nil _
  | cons ap aps ih =>
    rcases Nat.lt_or_ge (s.buf + s.len) (macStart s.buf ap) with hout | hroom
    · rw [(wifiScanLoop_full hlen hout).2] at hfull
      cases hfull
    obtain ⟨hbuf, hlen', _⟩ := recordLinked_rest s ap
    obtain ⟨hcons, hrest⟩ := @wifiScanLoop_room _ _ _ aps hlen hroom
    rw [hrest] at hfull
    rw [hcons, scanRecords_room hlen hroom, List.map_cons] at hholds
    obtain ⟨hfirst, hholds⟩ := List.forall₂_cons.mp hholds
    have hfirst' := recordLinked_room hblank hroom ((holds_scanRecords aps).mp hfirst)
    rw [← hbuf, ← hlen'] at hfull hholds
    have hfits := ih (recordLinked_len s ap) (recordLinked_blank hblank hfirst') hfull hholds
    rw [recordLinked_end hlen (Nat.le_of_succ_le hfirst'), hbuf] at hfits
    exact List.forall_mem_cons.mpr ⟨hfirst', hfits⟩

end

end Wifimodem
