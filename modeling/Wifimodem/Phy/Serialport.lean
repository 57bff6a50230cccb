import Mathlib.Data.List.TakeWhile
import Wifimodem.Core.Str

/-!
# Configuration of the serial port

The text form of a configuration is read by `serialport_set_config` and written
by `serialport_get_config`. The UART driver is not part of the program; here it
is a function from the port number and the configuration to a result code.
-/

namespace Wifimodem

structure SerialSettings where
  baudrate : Int
  databits : Int
  parity : Int
  stopbits : Int
deriving DecidableEq, Repr

structure Serialport extends SerialSettings where
  port : Int
deriving DecidableEq, Repr

inductive UartDataBits where
  | bits5 | bits6 | bits7 | bits8
deriving DecidableEq, Repr

inductive UartParity where
  | disable | odd | even
deriving DecidableEq, Repr

inductive UartStopBits where
  | bits1 | bits2
deriving DecidableEq, Repr

structure UartConfig where
  baudRate : Int
  dataBits : UartDataBits
  parity : UartParity
  stopBits : UartStopBits
deriving DecidableEq, Repr

/-- The reasons for which a configuration is refused, with the value logged. -/
inductive SerialError where
  | baudrate (value : Int)
  | databits (value : Int)
  | parity (value : Int)
  | stopbits (value : Int)
  | hardware (code : Int)
deriving DecidableEq, Repr

def serialBaudrateMin : Int := 100
def serialBaudrateMax : Int := 125000

def uartDataBits (databits : Int) : Except SerialError UartDataBits :=
  if databits = 5 then .ok .bits5
  else if databits = 6 then .ok .bits6
  else if databits = 7 then .ok .bits7
  else if databits = 8 then .ok .bits8
  else .error (.databits databits)

def uartParity (parity : Int) : Except SerialError UartParity :=
  if parity = 0 then .ok .disable
  else if parity = 1 then .ok .odd
  else if parity = 2 then .ok .even
  else .error (.parity parity)

def uartStopBits (stopbits : Int) : Except SerialError UartStopBits :=
  if stopbits = 1 then .ok .bits1
  else if stopbits = 2 then .ok .bits2
  else .error (.stopbits stopbits)

def uartConfig (p : SerialSettings) : Except SerialError UartConfig :=
  if p.baudrate < serialBaudrateMin ∨ p.baudrate > serialBaudrateMax then
    .error (.baudrate p.baudrate)
  else do
    let dataBits ← uartDataBits p.databits
    let parity ← uartParity p.parity
    let stopBits ← uartStopBits p.stopbits
    return ⟨p.baudrate, dataBits, parity, stopBits⟩

section
variable (uart : Int → UartConfig → Int)

def serialportConfigure (p : Serialport) : Except SerialError Unit := do
  let config ← uartConfig p.toSerialSettings
  let rv := uart p.port config
  if rv ≠ 0 then throw (.hardware rv)

def parityTable : List (List UInt8) := [['n'], ['o'], ['e'], []]

/-- The settings a configuration string is read to, from those of the port. -/
def readConfig (p : SerialSettings) (config : List UInt8) : Option SerialSettings :=
  match strReaduint (strLtrim config) with
  | (_, none) => none
  | (tok, some baudrate) =>
    match strAccept (strLtrim tok) [','] with
    | (_, false) => some { p with baudrate := baudrate }
    | (tok, true) =>
      match strReaduint (strLtrim tok) with
      | (_, none) => none
      | (tok, some databits) =>
        -- the letter is looked at but stays in front of the stop bits
        let parity := strMatchiv tok parityTable
        if parity < 0 then none
        else
          match strReaduint tok with
          | (_, none) => none
          | (_, some stopbits) => some ⟨baudrate, databits, parity, stopbits⟩

/-- What was read goes no further: the port is configured as it is. -/
def serialportSetConfig (p : Serialport) (config : List UInt8) : Serialport × Bool :=
  match readConfig p.toSerialSettings config with
  | none => (p, false)
  | some _ => (p, (serialportConfigure uart p).isOk)

def parityLetter (parity : Int) : UInt8 :=
  if parity = 1 then 'o' else if parity = 2 then 'e' else 'n'

def configText (p : SerialSettings) : List UInt8 :=
  decimalInt p.baudrate ++
    (',' : UInt8) :: (decimalInt p.databits ++ parityLetter p.parity :: decimalInt p.stopbits)

/-- The characters of the returned string, and the bytes stored in the buffer. -/
def serialportGetConfig (p : SerialSettings) (len : Nat) : List UInt8 × List UInt8 :=
  let (num, stored) := snprintf len (configText p)
  (stored.take num, stored)

end

/-! ## What a configuration string names -/

inductive Names (old : SerialSettings) : List UInt8 → SerialSettings → Prop where
  | baud (before after : Space) (baud : Digits) : baud.val ≠ [] →
      Names old (before.val ++ (baud.val ++ after.val))
        { old with baudrate := decimalValue baud.val }
  | full (before between after : Space) (baud databits stopbits : Digits) (parity : Int) :
      baud.val ≠ [] → databits.val ≠ [] → stopbits.val ≠ [] → 0 ≤ parity → parity ≤ 2 →
      Names old
        (before.val ++ (baud.val ++ (between.val ++ (',' : UInt8) :: (after.val ++
          (databits.val ++ parityLetter parity :: stopbits.val)))))
        ⟨decimalValue baud.val, decimalValue databits.val, parity, decimalValue stopbits.val⟩

/-- A call that returns true has set what the string names, and one that returns
false has set nothing. -/
def SetsNamed (uart : Int → UartConfig → Int) (p : Serialport) (config : List UInt8) : Prop :=
  match serialportSetConfig uart p config with
  | (p', true) => ∃ named, Names p.toSerialSettings config named ∧
      (serialportConfigure uart { p with toSerialSettings := named }).isOk = true ∧
      p'.toSerialSettings = named
  | (p', false) => p'.toSerialSettings = p.toSerialSettings

def Reproduces (uart : Int → UartConfig → Int) (p : Serialport) (q : SerialSettings)
    (len : Nat) : Prop :=
  ∃ p', serialportSetConfig uart p (serialportGetConfig q len).1 = (p', true) ∧
    p'.toSerialSettings = q

/-- The digits a configuration string starts with, after white space. -/
def numeral (config : List UInt8) : List UInt8 := (strLtrim config).takeWhile isdigit

def afterNumeral (config : List UInt8) : List UInt8 :=
  strLtrim ((strLtrim config).dropWhile isdigit)

/-- A numeral that wraps to a `uint`, with no comma behind it. -/
def BareNumeral (config : List UInt8) : Prop :=
  numeral config ≠ [] ∧ decimalValue (numeral config) % 2 ^ 64 < 2 ^ 32 ∧
    (afterNumeral config).head? ≠ some (',' : UInt8)

instance (config : List UInt8) : Decidable (BareNumeral config) :=
  inferInstanceAs (Decidable (_ ∧ _ ∧ _))

/-! ## What is accepted -/

theorem strAccept_comma (s : List UInt8) :
    strAccept s [','] = if s.head? = some (',' : UInt8) then (s.tail, true) else (s, false) := by
  cases s with
  | nil => rfl
  | cons c s =>
    have hmatch : strMatch (c :: s) [','] = decide (c = ',') := by
      simp [strMatch, strnEq]
    have hhead : (c :: s).head? = some (',' : UInt8) ↔ c = ',' := by simp
    rw [strAccept, hmatch]
    by_cases hc : c = ','
    · rw [if_pos (by simp [hc]), if_pos (hhead.mpr hc)]
      rfl
    · rw [if_neg (by rw [decide_eq_false hc]; decide), if_neg (fun h => hc (hhead.mp h))]

theorem strMatchiv_digit {c : UInt8} (hc : isdigit c = true) (s : List UInt8) :
    strMatchiv (c :: s) parityTable = -1 := by
  have hne : ∀ x : UInt8, isdigit x = false → c ≠ x := by
    rintro x hx rfl
    exact absurd (hc.symm.trans hx) (by decide)
  have hlower : tolower c = c := by
    apply if_neg
    simp only [isdigit, Bool.and_eq_true, decide_eq_true_eq] at hc
    rintro ⟨hA, _⟩
    exact absurd (UInt8.le_trans hA hc.2) (by decide)
  have hmatch : ∀ x : UInt8, isdigit x = false → tolower x = x → strMatchi (c :: s) [x] = false := by
    intro x hx hxlower
    simp [strMatchi, strnEq, hlower, hxlower, hne x hx]
  simp only [strMatchiv, parityTable, strMatchTable]
  rw [hmatch _ (by decide) (by decide), hmatch _ (by decide) (by decide),
    hmatch _ (by decide) (by decide)]
  rfl

/-- After a comma nothing is accepted: the parity letter is still in front when
the stop bits are read. -/
theorem readConfig_eq_none {p : SerialSettings} {config : List UInt8}
    (h : (afterNumeral config).head? = some (',' : UInt8)) : readConfig p config = none := by
  rw [readConfig]
  rw [strReaduint_eq]
  split
  · rfl
  · rename_i tok baudrate hread
    obtain ⟨rfl, _⟩ := Prod.mk.inj hread
    rw [strAccept_comma, ← afterNumeral, if_pos h]
    simp only [strReaduint_eq]
    split
    · rfl
    · rename_i tok databits hdata
      split
      · rfl
      · rename_i hparity
        cases tok with
        | nil => exact absurd (by decide) hparity
        | cons c tok =>
          cases hc : isdigit c with
          | true =>
            rw [strMatchiv_digit hc] at hparity
            exact absurd (by decide) hparity
          | false =>
            rw [List.takeWhile_cons_of_neg (by simp [hc]), if_pos (.inl rfl)]

theorem readConfig_isSome (p : SerialSettings) (config : List UInt8) :
    (readConfig p config).isSome = true ↔ BareNumeral config := by
  rw [BareNumeral]
  by_cases hcomma : (afterNumeral config).head? = some (',' : UInt8)
  · simp [readConfig_eq_none hcomma, hcomma]
  · rw [readConfig]
    rw [strReaduint_eq]
    by_cases hnum : numeral config = [] ∨ 2 ^ 32 ≤ decimalValue (numeral config) % 2 ^ 64
    · rw [← numeral, if_pos hnum]
      simp only [Option.isSome_none, Bool.false_eq_true, false_iff]
      rintro ⟨hne, hlt, _⟩
      cases hnum with
      | inl h =>
        exact hne h
      | inr h =>
        omega
    · rw [← numeral, if_neg hnum]
      simp only
      rw [strAccept_comma, ← afterNumeral, if_neg hcomma]
      simp only [Option.isSome_some, true_iff]
      obtain ⟨hne, hlt⟩ := not_or.mp hnum
      exact ⟨hne, Nat.lt_of_not_le hlt, hcomma⟩

section
variable (uart : Int → UartConfig → Int)

theorem serialportSetConfig_eq (p : Serialport) (config : List UInt8) :
    serialportSetConfig uart p config =
      (p, (readConfig p.toSerialSettings config).isSome && (serialportConfigure uart p).isOk) := by
  rw [serialportSetConfig]
  cases readConfig p.toSerialSettings config <;> rfl

theorem numeral_append (before : Space) (ds : Digits) (hds : ds.val ≠ []) {r : List UInt8}
    (hr : ∀ c ∈ r.head?, isdigit c = false) :
    numeral (before.val ++ (ds.val ++ r)) = ds.val ∧
      afterNumeral (before.val ++ (ds.val ++ r)) = strLtrim r := by
  have htrim : strLtrim (before.val ++ (ds.val ++ r)) = ds.val ++ r := by
    obtain ⟨c, w, hw⟩ := List.exists_cons_of_ne_nil hds
    have hc : isdigit c = true := ds.property c (by rw [hw]; exact List.mem_cons_self)
    rw [strLtrim, List.dropWhile_append_of_pos before.property, hw, List.cons_append,
      List.dropWhile_cons_of_neg (by rw [isspace_of_isdigit hc]; decide)]
  have hstop : r.takeWhile isdigit = [] ∧ r.dropWhile isdigit = r := by
    cases r with
    | nil => exact ⟨rfl, rfl⟩
    | cons c r =>
      have hc : ¬isdigit c = true := by
        rw [hr c (by simp)]
        decide
      exact ⟨List.takeWhile_cons_of_neg hc, List.dropWhile_cons_of_neg hc⟩
  rw [numeral, afterNumeral]
  rw [htrim, List.takeWhile_append_of_pos ds.property, List.dropWhile_append_of_pos ds.property,
    hstop.1, hstop.2, List.append_nil]
  exact ⟨rfl, rfl⟩

theorem head_space (sp : Space) {r : List UInt8} (hr : ∀ c ∈ r.head?, isdigit c = false) :
    ∀ c ∈ (sp.val ++ r).head?, isdigit c = false := by
  obtain ⟨w, hw⟩ := sp
  cases w with
  | nil => exact hr
  | cons x w =>
    intro c hc
    obtain rfl : x = c := by simpa using hc
    exact isdigit_of_isspace (hw x List.mem_cons_self)

theorem names_numeral {old : SerialSettings} {config : List UInt8} (hnum : numeral config ≠ [])
    (hafter : afterNumeral config = []) :
    Names old config { old with baudrate := decimalValue (numeral config) } := by
  have hsplit : config = config.takeWhile isspace ++ (numeral config ++
      (strLtrim config).dropWhile isdigit) := by
    rw [numeral, List.takeWhile_append_dropWhile, strLtrim, List.takeWhile_append_dropWhile]
  have hspace : ∀ c ∈ (strLtrim config).dropWhile isdigit, isspace c = true :=
    List.dropWhile_eq_nil_iff.mp hafter
  have h : Names old _ _ := Names.baud
    ⟨config.takeWhile isspace, fun c hc => List.mem_takeWhile_imp hc⟩
    ⟨(strLtrim config).dropWhile isdigit, hspace⟩
    ⟨numeral config, fun c hc => List.mem_takeWhile_imp hc⟩ hnum
  simp only at h
  rwa [← hsplit] at h

theorem setsNamed_iff (p : Serialport) (config : List UInt8) :
    SetsNamed uart p config ↔
      ¬(BareNumeral config ∧ (serialportConfigure uart p).isOk = true) ∨
        (afterNumeral config = [] ∧ (decimalValue (numeral config) : Int) = p.baudrate) := by
  rw [SetsNamed]
  rw [serialportSetConfig_eq]
  cases hsome : (readConfig p.toSerialSettings config).isSome with
  | false =>
    have hnot : ¬BareNumeral config := by
      rw [← readConfig_isSome p.toSerialSettings, hsome]
      decide
    exact iff_of_true rfl (.inl fun h => hnot h.1)
  | true =>
    have hbare := (readConfig_isSome p.toSerialSettings config).mp hsome
    cases hok : (serialportConfigure uart p).isOk with
    | false => exact iff_of_true rfl (.inl fun h => absurd h.2 (by decide))
    | true =>
      simp only [Bool.and_self, hbare, true_and, not_true_eq_false, false_or]
      obtain ⟨hnum, _, hcomma⟩ := hbare
      constructor
      · rintro ⟨named, hnames, _, hset⟩
        cases hnames with
        | baud before after baud hbaud =>
          have hhead := head_space after (r := []) (fun c hc => by cases hc)
          rw [List.append_nil] at hhead
          obtain ⟨hbaudrate, hafter⟩ := numeral_append before baud hbaud hhead
          have hrest : strLtrim after.val = [] := List.dropWhile_eq_nil_iff.mpr after.property
          rw [hafter, hbaudrate]
          exact ⟨hrest, (congrArg SerialSettings.baudrate hset).symm⟩
        | full before between after baud databits stopbits parity hbaud =>
          obtain ⟨_, hafter⟩ := numeral_append before baud hbaud
            (head_space between (r := (',' : UInt8) :: (after.val ++
              (databits.val ++ parityLetter parity :: stopbits.val))) (fun c hc => by cases hc; rfl))
          rw [hafter, strLtrim_space between.property] at hcomma
          exact absurd rfl hcomma
      · rintro ⟨hafter, hvalue⟩
        refine ⟨p.toSerialSettings, ?_, hok, rfl⟩
        have h : Names p.toSerialSettings config _ := names_numeral hnum hafter
        rwa [hvalue] at h

/-! ## The text that is written -/

theorem serialportGetConfig_large {q : SerialSettings} {len : Nat}
    (hlen : (configText q).length < len) : (serialportGetConfig q len).1 = configText q := by
  have htake : (configText q).take (len - 1) = configText q :=
    List.take_of_length_le (by omega)
  have hpos : len ≠ 0 := by omega
  rw [serialportGetConfig, snprintf, if_neg hpos, htake]
  exact List.take_left

/-- The text has a comma behind its numeral, or a sign in front of it. -/
theorem readConfig_configText (p q : SerialSettings) : readConfig p (configText q) = none := by
  have hsome : ¬(readConfig p (configText q)).isSome = true := by
    rw [readConfig_isSome]
    rintro ⟨hnum, _, hcomma⟩
    cases Decidable.em (q.baudrate < 0) with
    | inl hneg =>
      apply hnum
      rw [configText, decimalInt, if_pos hneg]
      rfl
    | inr hpos =>
      obtain ⟨_, hafter⟩ := numeral_append ⟨[], fun c hc => by cases hc⟩
        ⟨decimal q.baudrate.natAbs, decimal_digits _⟩ (decimal_ne_nil _)
        (r := (',' : UInt8) ::
          (decimalInt q.databits ++ parityLetter q.parity :: decimalInt q.stopbits))
        (fun c hc => by cases hc; rfl)
      apply hcomma
      rw [configText, decimalInt, if_neg hpos, ← List.nil_append (decimal _), List.append_assoc,
        hafter]
      rfl
  exact Option.not_isSome_iff_eq_none.mp hsome

theorem set_config_iff :
    (∀ p config, SetsNamed uart p config ↔
      ¬(BareNumeral config ∧ (serialportConfigure uart p).isOk = true) ∨
        (afterNumeral config = [] ∧ (decimalValue (numeral config) : Int) = p.baudrate)) ∧
    (∀ p q len, (configText q).length < len → ¬Reproduces uart p q len) := by
  constructor
  · exact setsNamed_iff uart
  · rintro p q len hlen ⟨p', hset, _⟩
    rw [serialportGetConfig_large hlen, serialportSetConfig_eq, readConfig_configText] at hset
    cases (Prod.mk.inj hset).2

end

theorem set_config_ignores_baud :
    ¬SetsNamed (fun _ _ => 0) ⟨⟨115200, 8, 0, 1⟩, 1⟩ ['9', '6', '0', '0'] := by
  rw [setsNamed_iff]
  decide

end Wifimodem
