import Wifimodem.Phy.WirelessBrackets
import Wifimodem.Phy.WirelessScanList

/-!
# What a scan returns

All failures leave through one label with the code that is at hand: no error
when the radio does not start or the buffer runs out, and a positive value for
a negative code.
-/

namespace Wifimodem

/-- What is not negative is the length of the list, whatever the buffer held
before, and without a list there is an error. -/
structure ScanTells (w : Wifi) (o : Outcome) (buf len : Nat) : Prop where
  listed : 0 ≤ (wifiScan w o buf len).2.rv → ∃ hotspots,
    (wifiScan w o buf len).2.hotspots = some hotspots ∧
      (wifiScan w o buf len).2.rv = hotspots.length ∧
      ∀ structs next mem,
        let s := (scanRecords (scanBegin buf len structs next mem) o.aps.records).1
        s.num = hotspots.length ∧ Chained s.next s.first (hotspots.map Hotspot.addr) ∧
          List.Forall₂ s.Holds (hotspots.map Hotspot.addr) (o.aps.records.take hotspots.length)
  refused : (wifiScan w o buf len).2.hotspots = none → (wifiScan w o buf len).2.rv < 0

/-! ## When the buffer runs out -/

/-- A MAC text that is cut short at the end of the buffer makes the rest of the
length wrap, and the end is `2 ^ 32` further on. -/
def RunsThrough (stop : Nat) (starts : List Nat) : Prop :=
  ∀ k, ∀ start ∈ starts, stop + k * 2 ^ 32 < start →
    ∃ cut ∈ starts, cut ≤ stop + k * 2 ^ 32 ∧ stop + k * 2 ^ 32 < cut + macSize

section
variable {stop start : Nat} {starts : List Nat}

theorem not_runsThrough (hout : stop < start) (hstarts : ∀ x ∈ starts, start + macSize ≤ x) :
    ¬RunsThrough stop (start :: starts) := by
  intro h
  obtain ⟨cut, hcut, hle, _⟩ := h 0 start List.mem_cons_self (by omega)
  rcases List.mem_cons.mp hcut with rfl | hcut
  · omega
  · have hbehind := hstarts cut hcut
    omega

/-- A whole MAC text leaves the end where it is. -/
theorem runsThrough_whole (hroom : start + macSize ≤ stop) :
    RunsThrough stop (start :: starts) ↔ RunsThrough stop starts := by
  constructor
  · intro h k x hx hout
    obtain ⟨cut, hcut, hle, hlt⟩ := h k x (List.mem_cons_of_mem _ hx) hout
    rcases List.mem_cons.mp hcut with rfl | hcut
    · omega
    · exact ⟨cut, hcut, hle, hlt⟩
  · intro h k x hx hout
    rcases List.mem_cons.mp hx with rfl | hx
    · omega
    · obtain ⟨cut, hcut, hle, hlt⟩ := h k x hx hout
      exact ⟨cut, List.mem_cons_of_mem _ hcut, hle, hlt⟩

theorem runsThrough_cut (hroom : start ≤ stop) (hcut : stop < start + macSize) :
    RunsThrough stop (start :: starts) ↔ RunsThrough (stop + 2 ^ 32) starts := by
  have hsize : macSize = 17 := rfl
  have hend : ∀ k, stop + (k + 1) * 2 ^ 32 = stop + 2 ^ 32 + k * 2 ^ 32 := fun k => by omega
  constructor
  · intro h k x hx hout
    rw [← hend] at hout ⊢
    obtain ⟨cut, hcut, hle, hlt⟩ := h (k + 1) x (List.mem_cons_of_mem _ hx) hout
    rcases List.mem_cons.mp hcut with rfl | hcut
    · omega
    · exact ⟨cut, hcut, hle, hlt⟩
  · intro h k x hx hout
    cases k with
    | zero => exact ⟨start, List.mem_cons_self, by omega, by omega⟩
    | succ k =>
      rcases List.mem_cons.mp hx with rfl | hx
      · omega
      · rw [hend] at hout ⊢
        obtain ⟨cut, hcut, hle, hlt⟩ := h k x hx hout
        exact ⟨cut, List.mem_cons_of_mem _ hcut, hle, hlt⟩

end

theorem runsThrough_of_fits {stop : Nat} {starts : List Nat}
    (h : ∀ start ∈ starts, start + 18 ≤ stop) : RunsThrough stop starts := by
  intro k start hstart hout
  have hfits := h start hstart
  omega

theorem wifiScanLoop_full_iff {buf len : Nat} (hlen : len < 2 ^ 32) (aps : List ApRecord) :
    (wifiScanLoop buf len aps).full = false ↔ RunsThrough (buf + len) (macStarts buf aps) := by
  induction aps generalizing buf len with
  | nil => exact iff_of_true rfl fun _ _ h => absurd h List.not_mem_nil
  | cons ap aps ih =>
    have hsize : macSize = 17 := rfl
    have hstarts : macStarts buf (ap :: aps) =
        macStart buf ap :: macStarts (macStart buf ap + macSize) aps := rfl
    have hlen' : usub (buf + len - macStart buf ap) macSize < 2 ^ 32 := Nat.mod_lt _ (by decide)
    rw [hstarts]
    rcases Nat.lt_or_ge (buf + len) (macStart buf ap) with hout | hroom
    · rw [(wifiScanLoop_full hlen hout).2]
      refine iff_of_false Bool.true_eq_false.mp (not_runsThrough hout fun x hx => ?_)
      exact Nat.le_trans (Nat.le_add_right _ _) (macStarts_ge aps hx)
    · rw [(wifiScanLoop_room hlen hroom).2, ih hlen']
      rcases Nat.lt_or_ge (buf + len) (macStart buf ap + macSize) with hcut | hwhole
      · rw [runsThrough_cut hroom hcut, usub_of_lt (by omega)]
        have hend : macStart buf ap + macSize + (2 ^ 32 + (buf + len - macStart buf ap) - macSize) =
            buf + len + 2 ^ 32 := by omega
        rw [hend]
      · obtain ⟨hle, _⟩ := le_alignUp buf
        have hlt := alignUp_lt_macStart buf ap
        rw [runsThrough_whole hwhole, usub_of_le (by omega) (by omega)]
        have hend : macStart buf ap + macSize + (buf + len - macStart buf ap - macSize) =
            buf + len := by omega
        rw [hend]

/-! ## What is returned -/

section
variable {w : Wifi} {o : Outcome} {buf len : Nat} {v : Int} {hotspots : List Hotspot}

theorem wifiScanRecords_result (w : Wifi) (o : Outcome) (buf len : Nat) :
    (wifiScanRecords w o buf len).2 =
      if o.scanStart ≠ espOk then ⟨-o.scanStart, none⟩
      else if (wifiScanLoop buf len o.aps.records).full = true then ⟨0, none⟩
      else if o.aps.rc ≠ espFail then ⟨-o.aps.rc, none⟩
      else
        ⟨(wifiScanLoop buf len o.aps.records).hotspots.length,
          some (wifiScanLoop buf len o.aps.records).hotspots⟩ := by
  simp only [wifiScanRecords, wifiScanFailed]
  split
  · rfl
  cases (wifiScanLoop buf len o.aps.records).full with
  | true => rfl
  | false =>
    simp only [Bool.false_eq_true, if_false]
    split <;> rfl

theorem wifiScan_result (h : w.config.up = true ∨ o.start = espOk) :
    (wifiScan w o buf len).2 = (wifiScanRecords w o buf len).2 := by
  have hok := phyEnable_ok w o
  rw [wifiScan]
  split
  · rfl
  · rename_i hup
    rw [decide_eq_true (h.resolve_left hup)] at hok
    split
    · rename_i w' henable
      rw [henable] at hok
      cases hok
    · rename_i w' henable
      rw [wifiScanRecords_result, wifiScanRecords_result]

theorem wifiScan_refused (h : ¬(w.config.up = true ∨ o.start = espOk)) :
    (wifiScan w o buf len).2 = ⟨0, none⟩ := by
  obtain ⟨hup, hstart⟩ := not_or.mp h
  have hok := phyEnable_ok w o
  rw [decide_eq_false hstart] at hok
  rw [wifiScan, if_neg hup]
  split
  · rfl
  · rename_i w' henable
    rw [henable] at hok
    cases hok

theorem scanTells_none (h : (wifiScan w o buf len).2 = ⟨v, none⟩) :
    ScanTells w o buf len ↔ v < 0 := by
  constructor
  · intro htells
    have hneg := htells.refused (congrArg ScanResult.hotspots h)
    rwa [h] at hneg
  · intro hneg
    constructor
    · intro hpos
      rw [h] at hpos
      exact absurd hneg (Int.not_lt.mpr hpos)
    · intro _
      rw [h]
      exact hneg

theorem scanTells_some (hlen : len < 2 ^ 32)
    (hfull : (wifiScanLoop buf len o.aps.records).full = false)
    (h : (wifiScan w o buf len).2 = ⟨(wifiScanLoop buf len o.aps.records).hotspots.length,
      some (wifiScanLoop buf len o.aps.records).hotspots⟩) :
    ScanTells w o buf len ↔ ∀ start ∈ macStarts buf o.aps.records, start + 18 ≤ buf + len := by
  have htake : o.aps.records.take (wifiScanLoop buf len o.aps.records).hotspots.length =
      o.aps.records := by
    rw [length_hotspots hlen hfull, List.take_length]
  constructor
  · intro htells
    obtain ⟨hotspots, hsome, _, hlist⟩ := htells.listed (by
      rw [h]
      exact Int.natCast_nonneg _)
    rw [h] at hsome
    obtain rfl := Option.some.inj hsome
    obtain ⟨_, _, hholds⟩ :=
      hlist (fun _ => ⟨0, 0, 0, 0, 0, ⟨0, 0⟩, ⟨0, 0⟩⟩) (fun _ => none) (fun _ => 0)
    rw [htake] at hholds
    exact @scanRecords_fits (scanBegin buf len _ _ fun _ => 0) hlen (fun _ _ => rfl) _ hfull hholds
  · intro hfits
    refine ⟨fun _ => ⟨_, congrArg ScanResult.hotspots h, congrArg ScanResult.rv h, ?_⟩, ?_⟩
    · intro structs next mem s
      have hbuilt : (scanBegin buf len structs next mem).Built [] :=
        ⟨rfl, rfl, rfl, List.forall_mem_nil _, List.nodup_nil⟩
      obtain ⟨hnum, hchained⟩ := scanRecords_built hbuilt hlen o.aps.records
      rw [List.nil_append] at hnum hchained
      rw [List.length_map] at hnum
      rw [htake]
      exact ⟨hnum, hchained, @scanRecords_holds (scanBegin buf len structs next mem) hlen _ hfits⟩
    · intro hnone
      rw [h] at hnone
      cases hnone

end

/-- What is returned goes together with the list when a failure has a positive code,
the buffer does not run out, and no MAC text of a list that is returned is cut short. -/
theorem wifi_scan_tells_iff (w : Wifi) (o : Outcome) (buf : Nat) {len : Nat} (hlen : len < 2 ^ 32) :
    ScanTells w o buf len ↔
      (w.config.up = true ∨ o.start = espOk) ∧
        (0 < o.scanStart ∨ o.scanStart = espOk ∧
          (0 < o.aps.rc ∧ RunsThrough (buf + len) (macStarts buf o.aps.records) ∨
            o.aps.rc = espFail ∧
              ∀ start ∈ macStarts buf o.aps.records, start + 18 ≤ buf + len)) := by
  rcases Decidable.em (w.config.up = true ∨ o.start = espOk) with hstart | hstart
  case inr =>
    rw [scanTells_none (wifiScan_refused hstart)]
    exact iff_of_false (Int.lt_irrefl 0) fun h => hstart h.1
  have hresult := (@wifiScan_result w o buf len hstart).trans (wifiScanRecords_result w o buf len)
  rw [and_iff_right hstart]
  split at hresult
  · rename_i hscan
    rw [scanTells_none hresult]
    constructor
    · exact fun h => .inl (Int.neg_neg_iff_pos.mp h)
    · rintro (h | ⟨hok, _⟩)
      · exact Int.neg_neg_iff_pos.mpr h
      · exact absurd hok hscan
  rename_i hscan
  have hok : o.scanStart = espOk := not_not.mp hscan
  have hzero : ¬0 < espOk := Int.lt_irrefl 0
  have hthrough := @wifiScanLoop_full_iff buf len hlen o.aps.records
  rw [hok, or_iff_right hzero, and_iff_right rfl, ← hthrough]
  split at hresult
  · rename_i hfull
    rw [scanTells_none hresult, hfull]
    refine iff_of_false (Int.lt_irrefl 0) ?_
    rintro (⟨_, h⟩ | ⟨_, hfits⟩)
    · cases h
    · rw [hthrough.mpr (runsThrough_of_fits hfits)] at hfull
      cases hfull
  rename_i hfull
  rw [Bool.not_eq_true] at hfull
  rw [hfull, eq_self, and_true]
  split at hresult
  · rename_i hrc
    rw [scanTells_none hresult, Int.neg_neg_iff_pos, or_iff_left fun h => hrc h.1]
  · rename_i hrc
    have hfail : o.aps.rc = espFail := not_not.mp hrc
    rw [scanTells_some hlen hfull hresult, hfail, and_iff_right rfl,
      or_iff_right (by decide : ¬0 < espFail)]

/-- A driver that starts the radio and delivers these records. -/
def Outcome.scanned (records : List ApRecord) : Outcome :=
  ⟨espOk, ⟨false, false⟩, espOk, ⟨records, espFail, by decide⟩⟩

theorem wifi_scan_tells_iff_whole : ScanTells wifiCreate (.scanned [.hidden]) 1001 100 :=
  (wifi_scan_tells_iff _ _ _ (by decide)).mpr ⟨.inr rfl, .inr ⟨rfl, .inr ⟨rfl, by decide⟩⟩⟩

/-- A radio that does not start, and a buffer of ten bytes. -/
theorem wifi_scan_hides_failures :
    (wifiScan wifiCreate .refused 1000 4096).2.rv = 0 ∧
      ¬ScanTells wifiCreate .refused 1000 4096 ∧
      (wifiScan wifiCreate (.scanned [.hidden]) 1000 10).2.rv = 0 ∧
      ¬ScanTells wifiCreate (.scanned [.hidden]) 1000 10 := by
  refine ⟨by decide, ?_, by decide, ?_⟩
  · intro h
    exact absurd (h.refused rfl) (by decide)
  · intro h
    exact absurd (h.refused rfl) (by decide)

end Wifimodem
