import Wifimodem.Phy.Formatters
import Wifimodem.Phy.WirelessConfig

/-!
# What `wifi_get` answers from the driver

Two questions about a live key: whether an address is printed as the macros print it,
and whether the outcome of the query is passed on.
-/

namespace Wifimodem

/-! ## The two ways to print an address -/

/-- `IPV4ADDR_STR_F` with `IPV4ADDR_ARG_F(ip)`. -/
def ipv4MacroText (ip : Nat) : List UInt8 :=
  decimal ((ip >>> 0) &&& 255) ++ ('.' : UInt8) :: decimal ((ip >>> 8) &&& 255) ++
    ('.' : UInt8) :: decimal ((ip >>> 16) &&& 255) ++
    ('.' : UInt8) :: decimal ((ip >>> 24) &&& 255)

inductive Ipv4Key where
  | addr | mask | gway | dns0 | dns1
deriving DecidableEq, Repr

namespace Ipv4Key

def key : Ipv4Key → WifiKey
  | .addr => .ipv4Addr
  | .mask => .ipv4Mask
  | .gway => .ipv4Gway
  | .dns0 => .ipv4Dns0
  | .dns1 => .ipv4Dns1

/-- The query behind the key, with the word it delivers. -/
def query (d : Netif) : Ipv4Key → Query Nat
  | .addr => ⟨d.ipInfo.rc, d.ipInfo.found.ip⟩
  | .mask => ⟨d.ipInfo.rc, d.ipInfo.found.netmask⟩
  | .gway => ⟨d.ipInfo.rc, d.ipInfo.found.gw⟩
  | .dns0 => d.dnsMain
  | .dns1 => d.dnsBackup

end Ipv4Key

/-- The text under the string in an answer. -/
def answerText (answer : Int × Option WifiValue) : Option (List UInt8) :=
  if answer.1 = espOk then answer.2.map formatted else none

def PrintsAsMacro (w : Wifi) (d : Netif) (key : Ipv4Key) (live : Bool) (len : Nat) : Prop :=
  answerText (wifiGet w (some d) key.key live (some len)) =
    some (ipv4MacroText (key.query d).found)

instance (w : Wifi) (d : Netif) (key : Ipv4Key) (live : Bool) (len : Nat) :
    Decidable (PrintsAsMacro w d key live len) := inferInstanceAs (Decidable (_ = _))

/-- The same octets from both ends. -/
def Palindromic (addr : Nat) : Prop :=
  addrByte addr 0 = addrByte addr 3 ∧ addrByte addr 1 = addrByte addr 2

theorem addrByte_mkdword4 {a b c d : Nat} (ha : a < 256) (hb : b < 256) (hc : c < 256)
    (hd : d < 256) : addrByte (mkdword4 a b c d) 3 = a ∧ addrByte (mkdword4 a b c d) 2 = b ∧
      addrByte (mkdword4 a b c d) 1 = c ∧ addrByte (mkdword4 a b c d) 0 = d := by
  simp only [mkdword4_eq ha hb hc hd, addrByte_eq]
  omega

/-- The macros print the octets in the other order. -/
theorem ipv4MacroText_eq (ip : Nat) : ipv4MacroText ip =
    ipv4Text (mkdword4 (addrByte ip 0) (addrByte ip 1) (addrByte ip 2) (addrByte ip 3)) := by
  obtain ⟨h3, h2, h1, h0⟩ := addrByte_mkdword4 (addrByte_lt ip 0) (addrByte_lt ip 1)
    (addrByte_lt ip 2) (addrByte_lt ip 3)
  rw [ipv4Text, h3, h2, h1, h0]
  rfl

theorem octets_of_ipv4Text {a b : Nat} (h : ipv4Text a = ipv4Text b) : octets a = octets b := by
  have hread : ∀ addr, ipv4Parse (ipv4Text addr) = ([], 4, octets addr) := by
    intro addr
    have hempty : ∀ c ∈ ([] : List UInt8).head?, isdigit c = false := by
      intro c hc
      cases hc
    have hparse := ipv4Parse_text addr hempty
    rwa [List.append_nil] at hparse
  have hsame := hread a
  rw [h, hread b] at hsame
  exact (Prod.mk.inj (Prod.mk.inj hsame).2).2.symm

theorem ipv4Text_eq_macro_iff (ip : Nat) : ipv4Text ip = ipv4MacroText ip ↔ Palindromic ip := by
  obtain ⟨h3, h2, h1, h0⟩ := addrByte_mkdword4 (addrByte_lt ip 0) (addrByte_lt ip 1)
    (addrByte_lt ip 2) (addrByte_lt ip 3)
  constructor
  · intro h
    rw [ipv4MacroText_eq] at h
    have hoctets := octets_of_ipv4Text h
    simp only [octets, h3, h2, h1, h0, List.cons.injEq] at hoctets
    exact ⟨hoctets.1.symm, hoctets.2.1.symm⟩
  · rintro ⟨h03, h12⟩
    rw [ipv4MacroText_eq, ipv4Text, ipv4Text, h3, h2, h1, h0, h03, h12]

theorem zero_notMem_ipv4Text (addr : Nat) : 0 ∉ ipv4Text addr := by
  have hdecimal : ∀ n, 0 ∉ decimal n := by
    intro n hn
    exact absurd (decimal_digits n 0 hn) (by decide)
  have hdot : (0 : UInt8) ≠ '.' := by decide
  simp only [ipv4Text, List.mem_append, List.mem_cons, hdecimal, hdot, or_self, not_false_eq_true]

theorem formatted_snprintf_iff {text t : List UInt8} (ht : t ≠ []) (hzero : 0 ∉ t) (len : Nat) :
    formatted (snprintf len text) = t ↔ text = t ∧ text.length < len := by
  constructor
  · intro h
    by_cases hlt : text.length < len
    · rw [formatted_snprintf hlt] at h
      exact ⟨h, hlt⟩
    · rw [formatted, snprintf] at h
      split at h
      · rw [List.take_nil] at h
        exact absurd h.symm ht
      -- the zero of the cut text is among the bytes of the string
      · have hlength : (text.take (len - 1) ++ [0]).length ≤ text.length := by
          rw [List.length_append, List.length_take, List.length_singleton]
          omega
        rw [List.take_of_length_le hlength] at h
        exact absurd (h ▸ List.mem_append_right _ (List.mem_singleton_self 0)) hzero
  · rintro ⟨rfl, hlt⟩
    exact formatted_snprintf hlt

theorem wifiGet_ipv4 (w : Wifi) {d : Netif} {key : Ipv4Key} (hrc : (key.query d).rc = espOk)
    (live : Bool) (len : Nat) : wifiGet w (some d) key.key live (some len) =
      (espOk, some (ipv4Format (key.query d).found len)) := by
  have hanswer : ∀ q : Query Nat, q.rc = espOk →
      q.answer (fun addr => some (ipv4Format addr len)) =
        (espOk, some (ipv4Format q.found len)) := by
    intro q hq
    rw [Query.answer, if_pos hq, hq]
  have hquery := hanswer (key.query d) hrc
  cases key <;> exact hquery

/-- The two agree on the words that read the same from both ends. -/
theorem printsAsMacro_iff (w : Wifi) {d : Netif} {key : Ipv4Key}
    (hrc : (key.query d).rc = espOk) (live : Bool) (len : Nat) :
    PrintsAsMacro w d key live len ↔ Palindromic (key.query d).found ∧
      (Formatter.ipv4 (key.query d).found).width < len := by
  have hprinted := ipv4MacroText_eq (key.query d).found
  have hne : ipv4MacroText (key.query d).found ≠ [] := by
    rw [hprinted]
    simp [ipv4Text]
  have hzero : 0 ∉ ipv4MacroText (key.query d).found := by
    rw [hprinted]
    exact zero_notMem_ipv4Text _
  rw [PrintsAsMacro, wifiGet_ipv4 w hrc, answerText, if_pos rfl, Option.map_some,
    Option.some.injEq, ipv4Format_eq, formatted_snprintf_iff hne hzero, ipv4Text_eq_macro_iff]
  exact and_congr_right fun _ => by rw [← length_formatterText, Formatter.text]

/-- A driver that has found the address `word`, and nothing else. -/
def onlyAddress (word : Nat) : Netif where
  apInfo := ⟨espFail, []⟩
  hostname := ⟨espFail, none⟩
  channel := ⟨espFail, 0⟩
  mac := ⟨espOk, ⟨[0, 17, 34, 51, 68, 85], rfl⟩⟩
  countryCode := ⟨espFail, []⟩
  ipInfo := ⟨espOk, ⟨word, 0, 0⟩⟩
  dnsMain := ⟨espFail, 0⟩
  dnsBackup := ⟨espFail, 0⟩

theorem printsAsMacro_loopback :
    PrintsAsMacro wifiCreate (onlyAddress 0x7F00007F) .addr true 16 := by
  apply (@printsAsMacro_iff wifiCreate (onlyAddress 0x7F00007F) .addr rfl true 16).mpr
  refine ⟨⟨by decide, by decide⟩, ?_⟩
  rw [← length_formatterText]
  decide

/-- `192.168.0.1` is printed as `1.0.168.192`. -/
theorem address_printed_backwards :
    ¬PrintsAsMacro wifiCreate (onlyAddress 0x0100A8C0) .addr true 16 := by
  decide

/-! ## The outcome of a query -/

def plain (text : List UInt8) : WifiValue := (text.length, text)

/-- The driver query behind a key, if there is one, and the formatted value of what it
finds. The name it finds for the host may be a null pointer. -/
def driverQuery (d : Netif) (live : Bool) : WifiKey → Option (Query (Option WifiValue))
  | .up | .down | .pass | .authmode => none
  | .ssid => if live then some ⟨d.apInfo.rc, some (cstrz (d.apInfo.found.take apSsidSize))⟩ else none
  | .hostname => if live then some ⟨d.hostname.rc, d.hostname.found.map cstrz⟩ else none
  | .channel => if live then some ⟨d.channel.rc, some (plain (decimal d.channel.found))⟩ else none
  | .mac => some ⟨d.mac.rc, some (plain (macText d.mac.found))⟩
  | .country => some ⟨d.countryCode.rc, some (cstrn d.countryCode.found 2)⟩
  | .ipv4Addr => some ⟨d.ipInfo.rc, some (plain (ipv4Text d.ipInfo.found.ip))⟩
  | .ipv4Mask => some ⟨d.ipInfo.rc, some (plain (ipv4Text d.ipInfo.found.netmask))⟩
  | .ipv4Gway => some ⟨d.ipInfo.rc, some (plain (ipv4Text d.ipInfo.found.gw))⟩
  | .ipv4Dns0 => some ⟨d.dnsMain.rc, some (plain (ipv4Text d.dnsMain.found))⟩
  | .ipv4Dns1 => some ⟨d.dnsBackup.rc, some (plain (ipv4Text d.dnsBackup.found))⟩

/-- Room for an SSID of the driver, and for the value that is formatted with its zero. -/
def LargeEnough (len : Nat) (q : Query (Option WifiValue)) : Prop :=
  apSsidSize ≤ len ∧ (q.rc = espOk → ∀ value ∈ q.found, value.1 < len)

/-- The length of the string and its bytes. -/
def shown (value : WifiValue) : Nat × List UInt8 := (value.1, formatted value)

structure PassesOn (q : Query (Option WifiValue)) (answer : Int × Option WifiValue) : Prop where
  success : q.rc = espOk → ∃ value, q.found = some value ∧ answer.1 = espOk ∧
    answer.2.map shown = some (shown value)
  failure : q.rc ≠ espOk → answer.1 = q.rc ∧ answer.2.map Prod.fst = some 0

theorem shown_snprintf {text : List UInt8} {len : Nat} (h : text.length < len) :
    shown (snprintf len text) = shown (plain text) := by
  rw [shown, formatted_snprintf h, shown, plain, formatted, List.take_length]
  rfl

/-- A query whose result is tested the right way round. -/
theorem passesOn_answer {α : Type} (q : Query α) {format : α → Option WifiValue}
    {found : Option WifiValue}
    (hformat : q.rc = espOk → (format q.found).map shown = found.map shown) :
    PassesOn ⟨q.rc, found⟩ (q.answer format) ↔ ¬(q.rc = espOk ∧ found = none) := by
  by_cases hrc : q.rc = espOk
  · have hformat := hformat hrc
    rw [Query.answer, if_pos hrc]
    cases found with
    | none =>
      refine iff_of_false ?_ (not_not_intro ⟨hrc, rfl⟩)
      intro h
      obtain ⟨value, hvalue, -⟩ := h.success hrc
      cases hvalue
    | some value =>
      refine iff_of_true ⟨fun _ => ?_, fun hne => absurd hrc hne⟩ (fun h => by cases h.2)
      cases hprinted : format q.found with
      | none =>
        rw [hprinted] at hformat
        cases hformat
      | some printed =>
        rw [hprinted] at hformat
        exact ⟨value, rfl, hrc, hformat⟩
  · rw [Query.answer, if_neg hrc]
    exact iff_of_true ⟨fun h => absurd h hrc, fun _ => ⟨rfl, rfl⟩⟩ (fun h => hrc h.1)

theorem passesOn_printed {α : Type} (q : Query α) {format : α → WifiValue}
    {text : α → List UInt8} {len : Nat} (hformat : ∀ a, format a = snprintf len (text a))
    (h : q.rc = espOk → (text q.found).length < len) :
    PassesOn ⟨q.rc, some (plain (text q.found))⟩ (q.answer fun a => some (format a)) ↔
      ¬(q.rc = espOk ∧ some (plain (text q.found)) = none) := by
  apply passesOn_answer q
  intro hrc
  rw [hformat]
  exact congrArg some (shown_snprintf (h hrc))

/-- A query whose result is tested the wrong way round. -/
theorem not_passesOn_inverted {q : Query (Option WifiValue)} {value printed : WifiValue}
    (hfound : q.found = some value) (hvalue : value.1 ≠ 0) (hprinted : printed.1 ≠ 0) :
    ¬PassesOn q (q.rc, some (if q.rc ≠ espOk then printed else (0, []))) := by
  intro h
  by_cases hrc : q.rc = espOk
  · obtain ⟨value', hvalue', -, hshown⟩ := h.success hrc
    rw [hfound] at hvalue'
    cases hvalue'
    rw [if_neg (not_not_intro hrc)] at hshown
    exact hvalue (congrArg Prod.fst (Option.some.inj hshown)).symm
  · obtain ⟨-, hempty⟩ := h.failure hrc
    rw [if_pos hrc] at hempty
    exact hprinted (Option.some.inj hempty)

section
variable (w : Wifi) {d : Netif} {key : WifiKey} {live : Bool} {q : Query (Option WifiValue)}
  {len : Nat}

theorem not_passesOn_mac (hq : driverQuery d live .mac = some q) :
    ¬PassesOn q (wifiGet w (some d) .mac live (some len)) := by
  cases hq
  have hprinted : (macFormat d.mac.found len).1 ≠ 0 := by
    rw [macFormat_len]
    decide
  have hvalue : (macText d.mac.found).length ≠ 0 := by
    rw [length_macText]
    decide
  exact not_passesOn_inverted rfl hvalue hprinted

theorem not_passesOn_country (hq : driverQuery d live .country = some q) (hroom : 2 ≤ len) :
    ¬PassesOn q (wifiGet w (some d) .country live (some len)) := by
  cases hq
  rw [wifiGet, wifiGetKey, if_neg (Nat.not_lt.mpr hroom)]
  exact @not_passesOn_inverted ⟨d.countryCode.rc, some (cstrn d.countryCode.found 2)⟩ _
    (cstrn d.countryCode.found 2) rfl (Nat.succ_ne_zero 1) (Nat.succ_ne_zero 1)

variable (hq : driverQuery d live key = some q) (hlen : LargeEnough len q)

include hq hlen

/-- The keys whose result is tested the right way round. -/
theorem passesOn_tested (hmac : key ≠ .mac) (hcountry : key ≠ .country) :
    PassesOn q (wifiGet w (some d) key live (some len)) ↔ ¬(q.rc = espOk ∧ q.found = none) := by
  obtain ⟨hroom, hfits⟩ := hlen
  cases key with
  | up | down | pass | authmode => cases hq
  | mac => exact absurd rfl hmac
  | country => exact absurd rfl hcountry
  | ssid =>
    cases live with
    | false => cases hq
    | true =>
      cases hq
      have hformat : wifiGetSsid d.apInfo.found len =
          some (cstrz (d.apInfo.found.take apSsidSize)) := if_neg (Nat.not_lt.mpr hroom)
      exact @passesOn_answer _ d.apInfo (wifiGetSsid · len) _
        fun _ => congrArg (Option.map shown) hformat
  | hostname =>
    cases live with
    | false => cases hq
    | true =>
      cases hq
      exact passesOn_answer d.hostname fun _ => rfl
  | channel =>
    cases live with
    | false => cases hq
    | true =>
      cases hq
      exact passesOn_printed d.channel (fun _ => rfl) (hfits · _ rfl)
  | ipv4Addr =>
    cases hq
    exact passesOn_printed d.ipInfo (fun info => ipv4Format_eq info.ip len) (hfits · _ rfl)
  | ipv4Mask =>
    cases hq
    exact passesOn_printed d.ipInfo (fun info => ipv4Format_eq info.netmask len) (hfits · _ rfl)
  | ipv4Gway =>
    cases hq
    exact passesOn_printed d.ipInfo (fun info => ipv4Format_eq info.gw len) (hfits · _ rfl)
  | ipv4Dns0 =>
    cases hq
    exact passesOn_printed d.dnsMain (fun addr => ipv4Format_eq addr len) (hfits · _ rfl)
  | ipv4Dns1 =>
    cases hq
    exact passesOn_printed d.dnsBackup (fun addr => ipv4Format_eq addr len) (hfits · _ rfl)

/-- The outcome of the query is passed on, save for the two keys with their test the
wrong way round and for a host without a name. -/
theorem passesOn_iff : PassesOn q (wifiGet w (some d) key live (some len)) ↔
    key ≠ .mac ∧ key ≠ .country ∧ ¬(q.rc = espOk ∧ q.found = none) := by
  by_cases hmac : key = .mac
  · subst hmac
    exact iff_of_false (not_passesOn_mac w hq) fun h => h.1 rfl
  by_cases hcountry : key = .country
  · subst hcountry
    have hroom : 2 ≤ len := Nat.le_trans (by decide) hlen.1
    exact iff_of_false (not_passesOn_country w hq hroom) fun h => h.2.1 rfl
  rw [passesOn_tested w hq hlen hmac hcountry]
  exact ⟨fun h => ⟨hmac, hcountry, h⟩, fun h => h.2.2⟩

end

/-- The address that was found is answered. -/
theorem passesOn_address :
    PassesOn ⟨espOk, some (plain (ipv4Text 0))⟩
      (wifiGet wifiCreate (some (onlyAddress 0)) .ipv4Addr false (some 33)) := by
  have hiff := @passesOn_iff wifiCreate (onlyAddress 0) .ipv4Addr false _ 33 rfl ⟨by decide, by
    intro _ value hvalue
    cases hvalue
    decide⟩
  exact hiff.mpr ⟨by decide, by decide, fun h => by cases h.2⟩

/-- The driver has found the address of the interface, and the answer is empty. -/
theorem mac_found_not_answered :
    ¬PassesOn ⟨espOk, some (plain (macText ⟨[0, 17, 34, 51, 68, 85], rfl⟩))⟩
      (wifiGet wifiCreate (some (onlyAddress 0)) .mac false (some 33)) := by
  intro h
  obtain ⟨value, hvalue, -, hshown⟩ := h.success rfl
  cases hvalue
  have hlength : 0 = 17 := congrArg Prod.fst (Option.some.inj hshown)
  omega

end Wifimodem
