import Wifimodem.Phy.Wireless

/-!
# Reading the configuration, and the texts in it as a store

`wifi_get` answers from the cached configuration or, for a live key, from the
driver. The SSID, the password and the host name are set by `str_zcpy`; what
they should be is a store with one bounded text for each key.
-/

namespace Wifimodem

open Transducer

/-- The code a driver call returns and what it leaves behind. -/
structure Query (α : Type) where
  rc : Int
  found : α

/-- The answers of the driver during one `wifi_get`. -/
structure Netif where
  apInfo : Query (List UInt8)
  hostname : Query (Option (List UInt8))
  channel : Query Nat
  mac : Query MacAddr
  countryCode : Query (List UInt8)
  ipInfo : Query IpInfo
  dnsMain : Query Nat
  dnsBackup : Query Nat

/-- The length of a `str` and the bytes it points to. -/
abbrev WifiValue := Nat × List UInt8

def cstrz (s : List UInt8) : WifiValue := ((cstr s).length, cstr s)

def cstrn (s : List UInt8) (n : Nat) : WifiValue := (n, s)

def apSsidSize : Nat := 33

/-- The value after a query: formatted when it succeeded, or the empty one. -/
def Query.answer {α : Type} (q : Query α) (format : α → Option WifiValue) :
    Int × Option WifiValue :=
  if q.rc = espOk then
    match format q.found with
    | none => (-1, none)
    | some value => (q.rc, some value)
  else (q.rc, some (0, []))

def wifiGetSsid (ssid : List UInt8) (len : Nat) : Option WifiValue :=
  if len < apSsidSize then none else some (cstrz (ssid.take apSsidSize))

/-- The result code, and what is stored in `*val` unless the call returns before. -/
def wifiGetKey (config : WifiConfig) (d : Netif) (live : Bool) (len : Nat) :
    WifiKey → Int × Option WifiValue
  | .up | .down =>
    (espOk, some (if config.up then (2, ['u', 'p']) else (4, ['d', 'o', 'w', 'n'])))
  | .ssid =>
    if live then d.apInfo.answer (wifiGetSsid · len) else (espOk, some (cstrz config.ssid))
  | .pass => (espOk, some (cstrz config.pass))
  | .hostname =>
    if live then d.hostname.answer (Option.map cstrz) else (espOk, some (cstrz config.name))
  | .channel =>
    if live then d.channel.answer (fun pri => some (snprintf len (decimal pri)))
    else (espOk, some (snprintf len (decimalInt config.chan)))
  -- these two format the value when the query has failed
  | .mac => (d.mac.rc, some (if d.mac.rc ≠ espOk then macFormat d.mac.found len else (0, [])))
  | .country =>
    if len < 2 then (-1, none)
    else (d.countryCode.rc,
      some (if d.countryCode.rc ≠ espOk then cstrn d.countryCode.found 2 else (0, [])))
  | .ipv4Addr => d.ipInfo.answer (fun info => some (ipv4Format info.ip len))
  | .ipv4Mask => d.ipInfo.answer (fun info => some (ipv4Format info.netmask len))
  | .ipv4Gway => d.ipInfo.answer (fun info => some (ipv4Format info.gw len))
  | .ipv4Dns0 => d.dnsMain.answer (fun addr => some (ipv4Format addr len))
  | .ipv4Dns1 => d.dnsBackup.answer (fun addr => some (ipv4Format addr len))
  | .authmode => (espOk, some (0, []))

/-- Without an interface, or without a buffer, nothing is answered. -/
def wifiGet (w : Wifi) (netif : Option Netif) (key : WifiKey) (live : Bool) (buf : Option Nat) :
    Int × Option WifiValue :=
  match netif, buf with
  | some d, some len => wifiGetKey w.config d live len key
  | _, _ => (-1, none)

/-! ## The texts as a store -/

inductive TextKey where
  | ssid | pass | hostname
deriving DecidableEq, Repr

structure ConfigText where
  chars : List UInt8
  zero_notMem : 0 ∉ chars

namespace TextKey

def key : TextKey → WifiKey
  | .ssid => .ssid
  | .pass => .pass
  | .hostname => .hostname

/-- The longest text the field is declared for. -/
def maxLen : TextKey → Nat
  | .ssid => ssidLen
  | .pass => passLen
  | .hostname => nameLen

def field (config : WifiConfig) : TextKey → List UInt8
  | .ssid => config.ssid
  | .pass => config.pass
  | .hostname => config.name

def put (config : WifiConfig) (chars : List UInt8) : TextKey → WifiConfig
  | .ssid => { config with ssid := chars }
  | .pass => { config with pass := chars }
  | .hostname => { config with name := chars }

theorem field_put (config : WifiConfig) (chars : List UInt8) (key key' : TextKey) :
    key'.field (key.put config chars) = if key = key' then chars else key'.field config := by
  cases key <;> cases key' <;> rfl

end TextKey

structure TextSet where
  key : TextKey
  val : ConfigText
  outcome : Outcome

/-- What the store accepts. -/
def TextSet.Fits (c : TextSet) : Prop := c.val.chars.length ≤ c.key.maxLen

instance (c : TextSet) : Decidable c.Fits := inferInstanceAs (Decidable (_ ≤ _))

def textStep (w : Wifi) (c : TextSet) : Wifi × Int :=
  wifiSet w c.outcome c.key.key (some c.val.chars)

/-- The last text for `key` that the store accepts, or the one it starts with. -/
def lastAccepted (key : TextKey) (start : List UInt8) (calls : List TextSet) : List UInt8 :=
  calls.foldl (fun text c => if c.key = key ∧ c.Fits then c.val.chars else text) start

structure AnswersAsStore (w : Wifi) (c : TextSet) : Prop where
  accepted : c.Fits → (textStep w c).2 = espOk
  refused : ¬c.Fits → textStep w c = (w, espFail)

/-- Every call is answered as by the store, and at any time every key is read back
as its last accepted text. -/
structure IsTextStore (w : Wifi) (calls : List TextSet) : Prop where
  answers : Throughout textStep AnswersAsStore w calls
  reads : ∀ past rest, calls = past ++ rest → ∀ (key : TextKey) (d : Netif) (len : Nat),
    wifiGet (run textStep w past) (some d) key.key false (some len) =
      (espOk, some (cstrn (lastAccepted key (cstr (key.field w.config)) past)
        (lastAccepted key (cstr (key.field w.config)) past).length))

theorem cstr_of_zero_notMem {s : List UInt8} (h : 0 ∉ s) : cstr s = s := by
  apply List.takeWhile_eq_self_iff.mpr
  intro c hc
  simp only [decide_eq_true_eq]
  rintro rfl
  exact h hc

theorem wifiGet_text (w : Wifi) (d : Netif) (key : TextKey) (len : Nat) :
    wifiGet w (some d) key.key false (some len) =
      (espOk, some (cstrz (key.field w.config))) := by
  cases key <;> rfl

theorem textStep_eq (w : Wifi) (c : TextSet) :
    textStep w c = if c.val.chars.length < c.key.maxLen
      then ({ w with config := c.key.put w.config c.val.chars }, espOk) else (w, espFail) := by
  have hset : wifiSetKey w c.outcome c.val.chars c.key.key =
      w.store (fun config x => c.key.put config x) (strZcpy c.val.chars c.key.maxLen) := by
    cases c.key <;> rfl
  rw [textStep, wifiSet]
  simp only [hset, strZcpy]
  by_cases hlt : c.val.chars.length < c.key.maxLen
  · rw [if_neg (by omega), if_pos hlt]
    rfl
  · rw [if_pos (by omega), if_neg hlt]
    rfl

section
variable {c : TextSet} (hc : c.val.chars.length ≠ c.key.maxLen)

include hc

theorem lt_maxLen_iff : c.val.chars.length < c.key.maxLen ↔ c.Fits := by
  rw [TextSet.Fits]
  omega

theorem textStep_answers (w : Wifi) : AnswersAsStore w c := by
  constructor
  · intro hfits
    rw [textStep_eq, if_pos ((lt_maxLen_iff hc).mpr hfits)]
  · intro hfits
    rw [textStep_eq, if_neg (fun hlt => hfits ((lt_maxLen_iff hc).mp hlt))]

theorem textStep_field (w : Wifi) (key : TextKey) :
    cstr (key.field (textStep w c).1.config) =
      if c.key = key ∧ c.Fits then c.val.chars else cstr (key.field w.config) := by
  rw [textStep_eq]
  by_cases hfits : c.Fits
  · rw [if_pos ((lt_maxLen_iff hc).mpr hfits)]
    simp only [TextKey.field_put]
    by_cases hkey : c.key = key
    · rw [if_pos hkey, if_pos ⟨hkey, hfits⟩, cstr_of_zero_notMem c.val.zero_notMem]
    · rw [if_neg hkey, if_neg (fun h => hkey h.1)]
  · rw [if_neg (fun hlt => hfits ((lt_maxLen_iff hc).mp hlt)), if_neg (fun h => hfits h.2)]

end

theorem run_textStep_field (w : Wifi) (key : TextKey) {calls : List TextSet}
    (hcalls : ∀ c ∈ calls, c.val.chars.length ≠ c.key.maxLen) :
    cstr (key.field (run textStep w calls).config) =
      lastAccepted key (cstr (key.field w.config)) calls := by
  induction calls generalizing w with
  | nil => rfl
  | cons c calls ih =>
    rw [run_cons, ih _ (fun c' hc' => hcalls c' (List.mem_cons_of_mem c hc')),
      textStep_field (hcalls c List.mem_cons_self)]
    rfl

/-- The limit handed to `str_zcpy` leaves no room for a text of the declared length. -/
theorem isTextStore_iff (w : Wifi) (calls : List TextSet) :
    IsTextStore w calls ↔ ∀ c ∈ calls, c.val.chars.length ≠ c.key.maxLen := by
  constructor
  · rintro ⟨hanswers, _⟩ c hc hlen
    obtain ⟨past, rest, hsplit⟩ := List.append_of_mem hc
    have hstep := (throughout_iff_forall.mp hanswers past c rest hsplit).accepted hlen.le
    rw [textStep_eq, if_neg (by omega)] at hstep
    have hcode : espFail = espOk := hstep
    exact absurd hcode (by decide)
  · intro hcalls
    constructor
    · apply throughout_iff_forall.mpr
      rintro past c rest rfl
      exact textStep_answers (hcalls c (by simp)) _
    · rintro past rest rfl key d len
      have hpast : ∀ c ∈ past, c.val.chars.length ≠ c.key.maxLen :=
        fun c hc => hcalls c (List.mem_append_left rest hc)
      rw [wifiGet_text, cstrz, run_textStep_field w key hpast]
      rfl

/-- An SSID of 32 bytes. -/
def longestSsid : TextSet where
  key := .ssid
  val := ⟨List.replicate 32 (97 : UInt8), by decide⟩
  outcome := .refused

theorem longest_ssid_refused : ¬IsTextStore wifiCreate [longestSsid] := by
  rintro ⟨⟨hanswers, _⟩, _⟩
  have hcode : espFail = espOk := hanswers.accepted (by decide)
  exact absurd hcode (by decide)

end Wifimodem
