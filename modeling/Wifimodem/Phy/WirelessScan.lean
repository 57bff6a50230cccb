import Wifimodem.Lib.Extent
import Wifimodem.Util.Buffer
import Wifimodem.Util.Net

/-!
# Carving scan results out of the caller's buffer

For every record of the driver `wifi_scan` takes a struct, the SSID and the MAC
text from the front of the buffer. Addresses are 32 bits wide on the target, so
the struct is 36 bytes long and aligned to 4.
-/

namespace Wifimodem

def hotspotSize : Nat := 36
def hotspotAlign : Nat := 4

structure ApRecord where
  rssi : Int
  primary : Nat
  authmode : Nat
  /-- The characters of a zero-terminated array. -/
  ssid : List UInt8
  bssid : MacAddr

structure Hotspot where
  addr : Nat
  rssi : Int
  chan : Nat
  auth : Nat
  band : Nat
  ssid : Extent
  mac : Extent

structure Cursor where
  buf : Nat
  len : Nat
deriving DecidableEq, Repr

/-- What the loop leaves behind: the cursor after each change, every piece that
was taken, the bytes copied, the list of hotspots, and whether the buffer ran out. -/
structure WifiScan where
  cursors : List Cursor
  pieces : List Extent
  stores : List (Nat × List UInt8)
  hotspots : List Hotspot
  full : Bool

def alignBuf : Nat → Nat → Cursor
  | 0, buf => ⟨buf, 0⟩
  | len + 1, buf =>
    if buf &&& (hotspotAlign - 1) ≠ 0 then alignBuf len (buf + 1) else ⟨buf, len + 1⟩

def wifiScanLoop : Nat → Nat → List ApRecord → WifiScan
  | _, _, [] => ⟨[], [], [], [], false⟩
  | buf, len, ap :: aps =>
    let cur := alignBuf len buf
    if cur.len < hotspotSize then ⟨[cur], [], [], [], true⟩
    else
      let cur₁ : Cursor := ⟨cur.buf + hotspotSize, usub cur.len hotspotSize⟩
      let ssid := cstr ap.ssid
      if cur₁.len < ssid.length then ⟨[cur, cur₁], [⟨cur.buf, hotspotSize⟩], [], [], true⟩
      else
        let cur₂ : Cursor := ⟨cur₁.buf + ssid.length, usub cur₁.len ssid.length⟩
        let (num, text) := macFormat ap.bssid cur₂.len
        let cur₃ : Cursor := ⟨cur₂.buf + num, usub cur₂.len num⟩
        let rest := wifiScanLoop cur₃.buf cur₃.len aps
        let wh : Hotspot :=
          { addr := cur.buf
            rssi := ap.rssi
            chan := ap.primary
            auth := ap.authmode
            band := if ap.primary ≤ 14 then 0x24 else 0x50
            ssid := ⟨cur₁.buf, ssid.length⟩
            mac := ⟨cur₂.buf, num⟩ }
        { cursors := cur :: cur₁ :: cur₂ :: cur₃ :: rest.cursors
          pieces := ⟨cur.buf, hotspotSize⟩ :: wh.ssid :: wh.mac :: rest.pieces
          stores := (cur₁.buf, ssid) :: (cur₂.buf, text) :: rest.stores
          hotspots := wh :: rest.hotspots
          full := rest.full }

/-! ## Where the pieces lie -/

def alignUp (buf : Nat) : Nat := (buf + (hotspotAlign - 1)) / hotspotAlign * hotspotAlign

def macSize : Nat := 17

/-- Where the MAC texts start when all of them fit. -/
def macStarts : Nat → List ApRecord → List Nat
  | _, [] => []
  | buf, ap :: aps =>
    let start := alignUp buf + hotspotSize + (cstr ap.ssid).length
    start :: macStarts (start + macSize) aps

/-- The cursor never loses the end of the buffer, and all pieces lie inside the
buffer and apart from each other. -/
structure WifiScan.Consistent (scan : WifiScan) (buf len : Nat) : Prop where
  cursors : ∀ cur ∈ scan.cursors, cur.buf + cur.len = buf + len
  within : ∀ x ∈ scan.pieces, x.Within buf (buf + len)
  apart : scan.pieces.Pairwise Extent.Apart

theorem le_alignUp (buf : Nat) : buf ≤ alignUp buf ∧ alignUp buf < buf + 4 := by
  simp only [alignUp, hotspotAlign]
  omega

theorem alignBuf_eq (len : Nat) : ∀ buf, alignBuf len buf =
    if alignUp buf ≤ buf + len then ⟨alignUp buf, buf + len - alignUp buf⟩ else ⟨buf + len, 0⟩ := by
  induction len with
  | zero =>
    intro buf
    obtain ⟨hle, _⟩ := le_alignUp buf
    rw [alignBuf]
    split
    · have heq : alignUp buf = buf := by omega
      rw [heq, Nat.add_zero, Nat.sub_self]
    · rfl
  | succ len ih =>
    intro buf
    have hand : buf &&& (hotspotAlign - 1) = buf % 4 := Nat.and_two_pow_sub_one_eq_mod buf 2
    rw [alignBuf, hand]
    by_cases hmod : buf % 4 = 0
    · have heq : alignUp buf = buf := by
        simp only [alignUp, hotspotAlign]
        omega
      rw [if_neg (not_not.mpr hmod), if_pos (by omega), heq]
      congr 1
      omega
    · have heq : alignUp (buf + 1) = alignUp buf := by
        simp only [alignUp, hotspotAlign]
        omega
      have hend : buf + 1 + len = buf + (len + 1) := by omega
      rw [if_pos hmod, ih, heq, hend]

/-- The three ways a record can go: no room for its struct, no room for its
SSID, or both are taken and the MAC text follows at `start`, whether it fits or
not. -/
inductive RecordCarved (buf len : Nat) (ap : ApRecord) (aps : List ApRecord) : Prop where
  | noStruct (cur : Cursor) :
      buf + len < alignUp buf + hotspotSize →
      cur.buf + cur.len = buf + len →
      wifiScanLoop buf len (ap :: aps) = ⟨[cur], [], [], [], true⟩ →
      RecordCarved buf len ap aps
  | noSsid (cur cur₁ : Cursor) :
      alignUp buf + hotspotSize ≤ buf + len →
      buf + len < alignUp buf + hotspotSize + (cstr ap.ssid).length →
      cur.buf + cur.len = buf + len →
      cur₁.buf + cur₁.len = buf + len →
      wifiScanLoop buf len (ap :: aps) =
        ⟨[cur, cur₁], [⟨alignUp buf, hotspotSize⟩], [], [], true⟩ →
      RecordCarved buf len ap aps
  | mac (cur cur₁ cur₂ : Cursor) (start : Nat) :
      start = alignUp buf + hotspotSize + (cstr ap.ssid).length →
      start ≤ buf + len →
      cur.buf + cur.len = buf + len →
      cur₁.buf + cur₁.len = buf + len →
      cur₂.buf + cur₂.len = buf + len →
      (wifiScanLoop buf len (ap :: aps)).cursors =
        cur :: cur₁ :: cur₂ :: ⟨start + macSize, usub (buf + len - start) macSize⟩ ::
          (wifiScanLoop (start + macSize) (usub (buf + len - start) macSize) aps).cursors →
      (wifiScanLoop buf len (ap :: aps)).pieces =
        ⟨alignUp buf, hotspotSize⟩ :: ⟨alignUp buf + hotspotSize, (cstr ap.ssid).length⟩ ::
          ⟨start, macSize⟩ ::
            (wifiScanLoop (start + macSize) (usub (buf + len - start) macSize) aps).pieces →
      RecordCarved buf len ap aps

theorem wifiScanLoop_cons (buf : Nat) {len : Nat} (hlen : len < 2 ^ 32) (ap : ApRecord)
    (aps : List ApRecord) : RecordCarved buf len ap aps := by
  obtain ⟨hle, hlt⟩ := le_alignUp buf
  have hsize : hotspotSize = 36 := rfl
  obtain ⟨scan, hscan⟩ : ∃ scan, scan = wifiScanLoop buf len (ap :: aps) := ⟨_, rfl⟩
  have hloop := hscan
  rw [wifiScanLoop, alignBuf_eq] at hloop
  by_cases halign : alignUp buf ≤ buf + len
  · have hcur : alignUp buf + (buf + len - alignUp buf) = buf + len := Nat.add_sub_cancel' halign
    rw [if_pos halign] at hloop
    simp only at hloop
    by_cases hstruct : buf + len - alignUp buf < hotspotSize
    · rw [if_pos hstruct] at hloop
      exact .noStruct ⟨_, _⟩ (by omega) hcur (hscan.symm.trans hloop)
    · have hcur₁ : alignUp buf + hotspotSize + (buf + len - alignUp buf - hotspotSize) =
          buf + len := by omega
      have hlen₁ : usub (buf + len - alignUp buf) hotspotSize =
          buf + len - alignUp buf - hotspotSize := usub_of_le (by omega) (by omega)
      rw [if_neg hstruct, hlen₁] at hloop
      by_cases hssid : buf + len - alignUp buf - hotspotSize < (cstr ap.ssid).length
      · rw [if_pos hssid] at hloop
        exact .noSsid ⟨_, _⟩ ⟨_, _⟩ (by omega) (by omega) hcur hcur₁ (hscan.symm.trans hloop)
      · generalize hstart : alignUp buf + hotspotSize + (cstr ap.ssid).length = start at *
        have hlen₂ : usub (buf + len - alignUp buf - hotspotSize) (cstr ap.ssid).length =
            buf + len - start := by
          rw [usub_of_le (by omega) (by omega)]
          omega
        rw [if_neg hssid, hlen₂] at hloop
        simp only [macFormat_len] at hloop
        have hcur₂ : start + (buf + len - start) = buf + len := by omega
        apply RecordCarved.mac ⟨_, _⟩ ⟨_, _⟩ ⟨_, _⟩ start hstart.symm (by omega) hcur hcur₁ hcur₂
        · exact congrArg WifiScan.cursors (hscan.symm.trans hloop)
        · exact congrArg WifiScan.pieces (hscan.symm.trans hloop)
  · rw [if_neg halign] at hloop
    simp only at hloop
    rw [if_pos (by decide)] at hloop
    exact .noStruct ⟨buf + len, 0⟩ (by omega) rfl (hscan.symm.trans hloop)

theorem macStarts_ge (aps : List ApRecord) : ∀ {buf start : Nat}, start ∈ macStarts buf aps →
    buf + hotspotSize ≤ start := by
  induction aps with
  | nil => exact fun h => absurd h List.not_mem_nil
  | cons ap aps ih =>
    intro buf start h
    obtain ⟨hle, _⟩ := le_alignUp buf
    rw [macStarts] at h
    rcases List.mem_cons.mp h with rfl | h
    · omega
    · have hrest := ih h
      omega

theorem wifiScanLoop_climbs (aps : List ApRecord) : ∀ {buf len : Nat}, len < 2 ^ 32 →
    (∀ start ∈ macStarts buf aps, ¬(start ≤ buf + len ∧ buf + len < start + macSize)) →
      (∀ cur ∈ (wifiScanLoop buf len aps).cursors, cur.buf + cur.len = buf + len) ∧
        Extent.Climbs (buf + len) buf (wifiScanLoop buf len aps).pieces := by
  induction aps with
  | nil =>
    intro buf len _ _
    exact ⟨fun cur h => absurd h List.not_mem_nil, trivial⟩
  | cons ap aps ih =>
    intro buf len hlen hfit
    obtain ⟨hle, _⟩ := le_alignUp buf
    have hsize : hotspotSize = 36 := rfl
    cases wifiScanLoop_cons buf hlen ap aps with
    | noStruct cur hstruct hcur heq =>
      rw [heq]
      exact ⟨List.forall_mem_singleton.mpr hcur, trivial⟩
    | noSsid cur cur₁ hstruct hssid hcur hcur₁ heq =>
      rw [heq]
      constructor
      · exact List.forall_mem_cons.mpr ⟨hcur, List.forall_mem_singleton.mpr hcur₁⟩
      · exact ⟨⟨hle, hstruct⟩, trivial⟩
    | mac cur cur₁ cur₂ start hstart hroom hcur hcur₁ hcur₂ hcursors hpieces =>
      rw [macStarts, ← hstart] at hfit
      obtain ⟨hfirst, hfit⟩ := List.forall_mem_cons.mp hfit
      have hmac : start + macSize ≤ buf + len := by omega
      have hlen₃ : usub (buf + len - start) macSize = buf + len - start - macSize :=
        usub_of_le (by omega) (by omega)
      have hend : start + macSize + (buf + len - start - macSize) = buf + len := by omega
      obtain ⟨hrest, hclimbs⟩ := ih (show buf + len - start - macSize < 2 ^ 32 by omega) (by
        rw [hend]
        exact hfit)
      rw [hend] at hrest hclimbs
      rw [hcursors, hpieces, hlen₃]
      constructor
      · simp only [List.forall_mem_cons]
        exact ⟨hcur, hcur₁, hcur₂, hend, hrest⟩
      · refine ⟨⟨hle, ?_⟩, ⟨Nat.le_refl _, ?_⟩, ⟨Nat.le_of_eq hstart.symm, hmac⟩, hclimbs⟩
        · simp only [Extent.fin]
          omega
        · simp only [Extent.fin]
          omega

theorem wifiScanLoop_overruns (aps : List ApRecord) : ∀ {buf len start : Nat}, len < 2 ^ 32 →
    start ∈ macStarts buf aps → start ≤ buf + len → buf + len < start + macSize →
      ∃ x ∈ (wifiScanLoop buf len aps).pieces, buf + len < x.fin := by
  induction aps with
  | nil => exact fun _ h => absurd h List.not_mem_nil
  | cons ap aps ih =>
    intro buf len start hlen hmem hstart hcut
    obtain ⟨hle, _⟩ := le_alignUp buf
    have hsize : hotspotSize = 36 := rfl
    rw [macStarts] at hmem
    have hfirst : alignUp buf + hotspotSize + (cstr ap.ssid).length ≤ start := by
      rcases List.mem_cons.mp hmem with rfl | h
      · exact Nat.le_refl _
      · have hge := macStarts_ge aps h
        omega
    cases wifiScanLoop_cons buf hlen ap aps with
    | noStruct cur hstruct => omega
    | noSsid cur cur₁ hstruct hssid => omega
    | mac cur cur₁ cur₂ first hmac hroom hcur hcur₁ hcur₂ hcursors hpieces =>
      rw [← hmac] at hmem
      rw [hpieces]
      rcases List.mem_cons.mp hmem with rfl | h
      · exact ⟨⟨_, macSize⟩, by simp, hcut⟩
      · have hge := macStarts_ge aps h
        have hmacSize : macSize = 17 := rfl
        have hlen₃ : usub (buf + len - first) macSize = buf + len - first - macSize :=
          usub_of_le (by omega) (by omega)
        have hend : first + macSize + (buf + len - first - macSize) = buf + len := by omega
        obtain ⟨x, hx, hover⟩ := ih (show buf + len - first - macSize < 2 ^ 32 by omega) h
          (by omega) (by omega)
        rw [hend] at hover
        rw [hlen₃]
        exact ⟨x, List.mem_cons_of_mem _ (List.mem_cons_of_mem _ (List.mem_cons_of_mem _ hx)),
          hover⟩

/-- The cursor and the pieces of a scan are consistent exactly when no MAC text
starts in the buffer with less room after it than the text needs. -/
theorem wifi_scan_consistent_iff {buf len : Nat} (hlen : len < 2 ^ 32) (aps : List ApRecord) :
    (wifiScanLoop buf len aps).Consistent buf len ↔
      ∀ start ∈ macStarts buf aps, ¬(start ≤ buf + len ∧ buf + len < start + 17) := by
  constructor
  · rintro hscan start hmem ⟨hstart, hcut⟩
    obtain ⟨x, hx, hover⟩ := wifiScanLoop_overruns aps hlen hmem hstart hcut
    have hin := (hscan.within x hx).2
    omega
  · intro hfit
    obtain ⟨hcursors, hclimbs⟩ := wifiScanLoop_climbs aps hlen hfit
    exact ⟨hcursors, hclimbs.within, hclimbs.pairwise⟩

def ApRecord.hidden : ApRecord := ⟨-60, 6, 3, List.replicate 33 0, ⟨[2, 0, 0, 0, 0, 1], rfl⟩⟩

theorem wifi_scan_consistent_whole : (wifiScanLoop 1001 100 [.hidden]).Consistent 1001 100 :=
  (wifi_scan_consistent_iff (by decide) _).mpr (by decide)

theorem wifi_scan_overrun :
    ¬(wifiScanLoop 1000 46 [.hidden]).Consistent 1000 46 ∧
      ⟨1053, 2 ^ 32 - 7⟩ ∈ (wifiScanLoop 1000 46 [.hidden]).cursors ∧
      ⟨1036, 17⟩ ∈ (wifiScanLoop 1000 46 [.hidden]).pieces := by
  have hpiece : (⟨1036, 17⟩ : Extent) ∈ (wifiScanLoop 1000 46 [.hidden]).pieces := by decide
  refine ⟨?_, by decide, hpiece⟩
  intro hscan
  exact absurd (hscan.within _ hpiece).2 (by decide)

end Wifimodem
