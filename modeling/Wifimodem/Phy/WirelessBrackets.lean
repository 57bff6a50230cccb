import Wifimodem.Phy.Wireless

/-!
# Operations in the event stream

An observer takes `BEGIN` for the start of an operation and `DONE` or `ERROR`
for its end. The other events may stand anywhere.
-/

namespace Wifimodem

def WifiEv.isMark : WifiEv → Bool
  | .begin | .done | .error => true
  | .up | .down | .connect => false

def bracketed : List WifiEv → Bool
  | [] => true
  | .begin :: .done :: rest => bracketed rest
  | .begin :: .error :: rest => bracketed rest
  | _ => false

def WellBracketed (events : List WifiEv) : Prop := bracketed (events.filter WifiEv.isMark) = true

instance wellBracketedDecidable (events : List WifiEv) : Decidable (WellBracketed events) :=
  inferInstanceAs (Decidable (_ = _))

/-- The radio is off, and the start that the scan makes first is refused. -/
def ScanCannotStart (w : Wifi) : WifiCall × Outcome → Prop
  | (.scan _ _, o) => w.config.up = false ∧ o.start ≠ espOk
  | (.set _ _, _) => False

theorem bracketed_append {a : List WifiEv} (b : List WifiEv) (h : bracketed a = true) :
    bracketed (a ++ b) = bracketed b := by
  induction a using bracketed.induct with
  | case1 => rfl
  | case2 rest ih | case3 rest ih => exact ih h
  | case4 a hnil hdone herror =>
    rw [bracketed] at h
    · cases h
    all_goals assumption

theorem wellBracketed_append {a b : List WifiEv} (h : WellBracketed a) :
    WellBracketed (a ++ b) ↔ WellBracketed b := by
  rw [WellBracketed, List.filter_append, bracketed_append _ h]
  rfl

/-! ## What each call adds to the stream -/

/-- Whole operations were added to the stream. -/
def Brackets (w w' : Wifi) : Prop := ∃ evs, w'.events = w.events ++ evs ∧ WellBracketed evs

theorem Brackets.refl (w : Wifi) : Brackets w w := ⟨[], (List.append_nil _).symm, rfl⟩

theorem Brackets.trans {w w' w'' : Wifi} (h : Brackets w w') (h' : Brackets w' w'') :
    Brackets w w'' := by
  obtain ⟨evs, hevs, hbr⟩ := h
  obtain ⟨evs', hevs', hbr'⟩ := h'
  refine ⟨evs ++ evs', ?_, (wellBracketed_append hbr).mpr hbr'⟩
  rw [hevs', hevs, List.append_assoc]

@[simp] theorem events_call (w : Wifi) (c : DriverCall) : (w.call c).events = w.events := rfl

@[simp] theorem events_setUp (w : Wifi) (up : Bool) : (w.setUp up).events = w.events := rfl

@[simp] theorem events_raiseEvent (w : Wifi) (ev : WifiEv) :
    (raiseEvent w ev).events = w.events ++ [ev] := rfl

@[simp] theorem setHostname_events (w : Wifi) : (setHostname w).events = w.events := by
  rw [setHostname]
  split <;> rfl

section
variable (w : Wifi) (o : Outcome)

theorem phyDisable_events : (phyDisable w).1.events = w.events ++ [.down] := by
  simp only [phyDisable]
  split <;> rfl

theorem phyEnable_ok : (phyEnable w o).2 = decide (o.start = espOk) := by
  rw [phyEnable]
  split
  · rename_i hstart
    exact (decide_eq_false hstart).symm
  · rename_i hstart
    exact (decide_eq_true (not_not.mp hstart)).symm

theorem phyEnable_events : (phyEnable w o).1.events =
    w.events ++ if o.start = espOk then [.begin, .done, .up] else [.begin, .error] := by
  rw [phyEnable]
  split
  · rename_i hstart
    simp
  · rename_i hstart
    simp [if_pos (not_not.mp hstart)]

theorem phyEnable_brackets : Brackets w (phyEnable w o).1 := by
  refine ⟨_, phyEnable_events w o, ?_⟩
  split <;> decide

theorem phyConnect_brackets : Brackets w (phyConnect w o).1 := by
  rw [phyConnect]
  split
  · exact Brackets.refl w
  · simp only
    split
    · exact ⟨[.begin, .error], by simp, by decide⟩
    split
    · exact ⟨[.begin, .error], by simp, by decide⟩
    · exact ⟨[.begin, .done, .connect], by simp, by decide⟩

theorem store_brackets {α : Type} (put : WifiConfig → α → WifiConfig) (x : Option α) :
    Brackets w (w.store put x).1 := by
  cases x with
  | none => exact Brackets.refl w
  | some x => exact ⟨[], (List.append_nil _).symm, rfl⟩

theorem wifiSetKey_brackets (val : List UInt8) (key : WifiKey) :
    Brackets w (wifiSetKey w o val key).1 := by
  have hdown : Brackets w (phyDisable w).1 := ⟨[.down], phyDisable_events w, rfl⟩
  cases key with
  | up =>
    have hset : wifiSetKey w o val .up =
        if cstr (phyDisable w).1.config.ssid ≠ [] then phyConnect (phyDisable w).1 o
        else phyEnable (phyDisable w).1 o := rfl
    rw [hset]
    split
    · exact hdown.trans (phyConnect_brackets _ o)
    · exact hdown.trans (phyEnable_brackets _ o)
  | down => exact hdown
  | ssid | pass | hostname | channel | authmode => exact store_brackets w _ _
  | mac | country | ipv4Addr | ipv4Mask | ipv4Gway | ipv4Dns0 | ipv4Dns1 => exact Brackets.refl w

theorem wifiScanRecords_brackets (buf len : Nat) :
    Brackets w (wifiScanRecords w o buf len).1 := by
  simp only [wifiScanRecords, wifiScanFailed]
  split
  · exact ⟨[.begin, .error], by simp, by decide⟩
  · generalize (if (wifiScanLoop buf len o.aps.records).full = true then espOk else o.aps.rc) = rc
    split
    · exact ⟨[.begin, .error], by simp, by decide⟩
    · exact ⟨[.begin, .done], by simp, by decide⟩

theorem wifiScan_brackets (buf len : Nat) (h : ¬(w.config.up = false ∧ o.start ≠ espOk)) :
    Brackets w (wifiScan w o buf len).1 := by
  rw [wifiScan]
  split
  · exact wifiScanRecords_brackets w o buf len
  · rename_i hup
    have hstart : o.start = espOk := not_not.mp fun hs => h ⟨Bool.eq_false_iff.mpr hup, hs⟩
    have hok := phyEnable_ok w o
    rw [hstart] at hok
    have hbr := phyEnable_brackets w o
    split
    · rename_i w' henable
      rw [henable] at hok
      cases hok
    · rename_i w' henable
      rw [henable] at hbr
      exact hbr.trans (wifiScanRecords_brackets w' o buf len)

/-- The operation that failed is closed by `phy_enable`, and again by the scan. -/
theorem wifiScan_events (buf len : Nat) (h : w.config.up = false ∧ o.start ≠ espOk) :
    (wifiScan w o buf len).1.events = w.events ++ [.begin, .error, .error] := by
  obtain ⟨hup, hstart⟩ := h
  have hok := phyEnable_ok w o
  have hevents := phyEnable_events w o
  rw [decide_eq_false hstart] at hok
  rw [if_neg hstart] at hevents
  rw [wifiScan, if_neg (Bool.eq_false_iff.mp hup)]
  split
  · rename_i w' henable
    rw [henable] at hevents
    rw [wifiScanFailed, events_raiseEvent, hevents, List.append_assoc]
    rfl
  · rename_i w' henable
    rw [henable] at hok
    cases hok

end

/-! ## Whole runs -/

theorem wifiStep_brackets {w : Wifi} {call : WifiCall × Outcome} (h : ¬ScanCannotStart w call) :
    Brackets w (wifiStep w call).1 := by
  obtain ⟨call, o⟩ := call
  cases call with
  | scan buf len => exact wifiScan_brackets w o buf len h
  | set key val =>
    cases val with
    | none => cases key <;> exact Brackets.refl w
    | some val => exact wifiSetKey_brackets w o val key

theorem wifiStep_events {w : Wifi} {call : WifiCall × Outcome} (h : ScanCannotStart w call) :
    (wifiStep w call).1.events = w.events ++ [.begin, .error, .error] := by
  obtain ⟨call, o⟩ := call
  cases call with
  | scan buf len => exact wifiScan_events w o buf len h
  | set key val => cases h

/-- Events are never taken back. -/
theorem run_events (w : Wifi) (calls : List (WifiCall × Outcome)) :
    w.events <+: (Transducer.run wifiStep w calls).events := by
  induction calls generalizing w with
  | nil => exact List.prefix_rfl
  | cons call calls ih =>
    have hstep : w.events <+: (wifiStep w call).1.events := by
      cases Classical.em (ScanCannotStart w call) with
      | inl hbad => exact ⟨_, (wifiStep_events hbad).symm⟩
      | inr hgood =>
        obtain ⟨evs, hevs, _⟩ := wifiStep_brackets hgood
        exact ⟨evs, hevs.symm⟩
    exact hstep.trans (ih (wifiStep w call).1)

theorem run_bracketed {w : Wifi} (h : WellBracketed w.events) (calls : List (WifiCall × Outcome)) :
    WellBracketed (Transducer.run wifiStep w calls).events ↔
      Transducer.Throughout wifiStep (fun w call => ¬ScanCannotStart w call) w calls := by
  induction calls generalizing w with
  | nil => exact iff_of_true h trivial
  | cons call calls ih =>
    cases Classical.em (ScanCannotStart w call) with
    | inl hbad =>
      refine iff_of_false ?_ fun hc => hc.1 hbad
      obtain ⟨more, hmore⟩ := run_events (wifiStep w call).1 calls
      rw [Transducer.run_cons, ← hmore, wifiStep_events hbad, List.append_assoc,
        wellBracketed_append h]
      -- nothing that follows repairs the second `ERROR`
      exact Bool.false_ne_true
    | inr hgood =>
      obtain ⟨evs, hevs, hbr⟩ := wifiStep_brackets hgood
      have h' : WellBracketed (wifiStep w call).1.events := by
        rw [hevs]
        exact (wellBracketed_append h).mpr hbr
      rw [Transducer.run_cons, ih h']
      exact (and_iff_right hgood).symm

theorem wifi_events_bracketed_iff (calls : List (WifiCall × Outcome)) :
    WellBracketed (Transducer.run wifiStep wifiCreate calls).events ↔
      ∀ past call rest, calls = past ++ call :: rest →
        ¬ScanCannotStart (Transducer.run wifiStep wifiCreate past) call := by
  rw [run_bracketed (by decide), Transducer.throughout_iff_forall]

theorem wifi_scan_closes_twice :
    ¬WellBracketed (Transducer.run wifiStep wifiCreate [(.scan 0 0, .refused)]).events := by
  decide

end Wifimodem
