import Wifimodem.Phy.Wireless

/-!
# Setting the authentication mode

`wifi_set` takes the first name of the table that the value begins with, and the
names behind `WPA` begin with it.
-/

namespace Wifimodem

/-- The `WIFI_KEY_` constants, in their order. -/
inductive WifiAuthKey where
  | none
  | wep
  | wpa | wpa12
  | wpa2 | wpa23
  | wpa3
deriving DecidableEq, Repr

namespace WifiAuthKey

def code (key : WifiAuthKey) : Nat := key.ctorIdx

def name (key : WifiAuthKey) : List UInt8 := wifiAuthList.getD key.code []

/-- The names that are found. -/
def found : List WifiAuthKey := [.none, .wep, .wpa]

end WifiAuthKey

/-- The two texts differ in case only. -/
def SameText (s p : List UInt8) : Prop := s.map tolower = p.map tolower

def BeginsWith (s p : List UInt8) : Prop := p.map tolower <+: s.map tolower

instance (s p : List UInt8) : Decidable (SameText s p) := inferInstanceAs (Decidable (_ = _))

instance (s p : List UInt8) : Decidable (BeginsWith s p) := inferInstanceAs (Decidable (_ <+: _))

/-- A name of the table sets its own code, and any other text is refused. -/
structure SetsAuthmode (w : Wifi) (o : Outcome) (val : List UInt8) : Prop where
  named : ∀ key : WifiAuthKey,
    (wifiSet w o .authmode (some val)).2 = espOk ∧
      (wifiSet w o .authmode (some val)).1.config.auth = key.code ↔ SameText val key.name
  other : (∀ key : WifiAuthKey, ¬SameText val key.name) →
    (wifiSet w o .authmode (some val)).2 = espFail ∧
      (wifiSet w o .authmode (some val)).1.config = w.config

section
variable {w : Wifi} {o : Outcome} {val : List UInt8} {key key' : WifiAuthKey}

theorem SameText.beginsWith {p : List UInt8} (h : SameText val p) : BeginsWith val p :=
  ⟨[], (List.append_nil _).trans (Eq.symm h)⟩

theorem BeginsWith.trans {s p q : List UInt8} (hp : BeginsWith s p) (hq : BeginsWith p q) :
    BeginsWith s q := List.IsPrefix.trans hq hp

theorem sameText_name_iff : SameText key.name key'.name ↔ key = key' := by
  constructor
  · intro h
    cases key <;> cases key' <;> first | rfl | exact absurd h (by decide)
  · rintro rfl
    exact rfl

/-- Every name begins with one that is found. -/
theorem exists_found (key : WifiAuthKey) : ∃ k ∈ WifiAuthKey.found, BeginsWith key.name k.name := by
  cases key <;> decide

/-- No name that is found begins with another one. -/
theorem found_apart (hkey : key ∈ WifiAuthKey.found) (hkey' : key' ∈ WifiAuthKey.found)
    (h : BeginsWith key.name key'.name) : key = key' := by
  cases key <;> cases key' <;>
    first | rfl | exact absurd h (by decide) | exact absurd hkey (by decide)

/-- The names behind `WPA` are never reached. -/
theorem strMatchiv_authList (val : List UInt8) :
    strMatchiv val wifiAuthList =
      if BeginsWith val WifiAuthKey.none.name then 0
      else if BeginsWith val WifiAuthKey.wep.name then 1
      else if BeginsWith val WifiAuthKey.wpa.name then 2
      else -1 := by
  have hmatch : ∀ key : WifiAuthKey, strMatchi val key.name = decide (BeginsWith val key.name) := by
    intro key
    rw [Bool.eq_iff_iff, decide_eq_true_iff]
    apply strMatchi_iff
    cases key <;> decide
  have hentry : ∀ key : WifiAuthKey, ∀ i table, key.name.length ≠ 0 →
      strMatchTable strMatchi val i (key.name :: table) =
        if BeginsWith val key.name then (i : Int)
        else strMatchTable strMatchi val (i + 1) table := by
    intro key i table hlen
    rw [strMatchTable, if_neg hlen, hmatch]
    simp only [decide_eq_true_eq]
  have htable : wifiAuthList = WifiAuthKey.none.name :: WifiAuthKey.wep.name ::
      WifiAuthKey.wpa.name :: [WifiAuthKey.wpa12.name, WifiAuthKey.wpa2.name,
        WifiAuthKey.wpa23.name, WifiAuthKey.wpa3.name, []] := rfl
  rw [strMatchiv, htable, hentry .none _ _ (by decide), hentry .wep _ _ (by decide),
    hentry .wpa _ _ (by decide)]
  split
  · rfl
  split
  · rfl
  split
  · rfl
  rename_i hwpa
  have hbehind : ∀ key : WifiAuthKey, BeginsWith key.name WifiAuthKey.wpa.name →
      ¬BeginsWith val key.name := fun key hkey h => hwpa (h.trans hkey)
  rw [hentry .wpa12 _ _ (by decide), if_neg (hbehind _ (by decide)),
    hentry .wpa2 _ _ (by decide), if_neg (hbehind _ (by decide)),
    hentry .wpa23 _ _ (by decide), if_neg (hbehind _ (by decide)),
    hentry .wpa3 _ _ (by decide), if_neg (hbehind _ (by decide))]
  rfl

theorem setsAuthmode_of_code (hauth : strMatchiv val wifiAuthList = key.code) :
    SetsAuthmode w o val ↔ SameText val key.name := by
  have hset : wifiSet w o .authmode (some val) =
      ({ w with config := { w.config with auth := key.code } }, espOk) := by
    simp only [wifiSet, wifiSetKey, hauth]
    rw [if_pos (Int.natCast_nonneg _)]
    rfl
  constructor
  · intro h
    apply (h.named key).mp
    rw [hset]
    exact ⟨rfl, rfl⟩
  · intro hsame
    constructor
    · intro key'
      have hname : SameText val key'.name ↔ key = key' := by
        rw [← sameText_name_iff, SameText, SameText, hsame]
      rw [hset, hname, eq_self, true_and]
      constructor
      · intro hcode
        cases key <;> cases key' <;> first | rfl | cases hcode
      · rintro rfl
        rfl
    · intro hother
      exact absurd hsame (hother key)

theorem setsAuthmode_of_none (hnone : ∀ k ∈ WifiAuthKey.found, ¬BeginsWith val k.name)
    (hauth : strMatchiv val wifiAuthList = -1) : SetsAuthmode w o val := by
  have hset : wifiSet w o .authmode (some val) = (w, espFail) := by
    simp only [wifiSet, wifiSetKey, hauth]
    rfl
  constructor
  · intro key
    rw [hset]
    have hfails : espFail ≠ espOk := by decide
    refine iff_of_false (fun h => hfails h.1) fun hsame => ?_
    obtain ⟨k, hk, hbegins⟩ := exists_found key
    exact hnone k hk (hsame.beginsWith.trans hbegins)
  · intro _
    rw [hset]
    exact ⟨rfl, rfl⟩

/-- What begins with a name that is found is that name itself. -/
theorem found_same_iff (hkey : key ∈ WifiAuthKey.found) (h : BeginsWith val key.name) :
    SameText val key.name ↔
      ∀ k ∈ WifiAuthKey.found, BeginsWith val k.name → SameText val k.name := by
  constructor
  · intro hsame k hk hbegins
    have hname : BeginsWith key.name k.name := by
      rw [BeginsWith, ← hsame]
      exact hbegins
    rw [← found_apart hkey hk hname]
    exact hsame
  · intro hall
    exact hall key hkey h

end

theorem wifi_authmode_iff (w : Wifi) (o : Outcome) (val : List UInt8) :
    SetsAuthmode w o val ↔
      ∀ key ∈ WifiAuthKey.found, BeginsWith val key.name → SameText val key.name := by
  have hauth := strMatchiv_authList val
  split at hauth
  · rename_i hopen
    exact (setsAuthmode_of_code hauth).trans (found_same_iff (by decide) hopen)
  split at hauth
  · rename_i hwep
    exact (setsAuthmode_of_code hauth).trans (found_same_iff (by decide) hwep)
  split at hauth
  · rename_i hwpa
    exact (setsAuthmode_of_code hauth).trans (found_same_iff (by decide) hwpa)
  rename_i hopen hwep hwpa
  have hnone : ∀ key ∈ WifiAuthKey.found, ¬BeginsWith val key.name := by
    simp only [WifiAuthKey.found, List.forall_mem_cons]
    exact ⟨hopen, hwep, hwpa, List.forall_mem_nil _⟩
  exact iff_of_true (setsAuthmode_of_none hnone hauth) fun key hkey h => absurd h (hnone key hkey)

/-- The second name of the four that are not found. -/
theorem wifi_authmode_wpa2 :
    (wifiSet wifiCreate .refused .authmode (some ['W', 'P', 'A', '2'])).2 = espOk ∧
      (wifiSet wifiCreate .refused .authmode (some ['W', 'P', 'A', '2'])).1.config.auth =
        WifiAuthKey.wpa.code ∧
      SameText ['W', 'P', 'A', '2'] WifiAuthKey.wpa2.name ∧
      ¬SetsAuthmode wifiCreate .refused ['W', 'P', 'A', '2'] := by
  refine ⟨by decide, by decide, by decide, ?_⟩
  intro h
  have hauth := ((h.named .wpa2).mpr (by decide)).2
  exact absurd hauth (by decide)

end Wifimodem
