import Wifimodem.Util.JsonInvariant

/-!
# The token buffer of the parser

A string or a number is collected in the buffer, and a zero is put behind it.
What fits is kept; the parser does not look at the result of a put.
-/

namespace Wifimodem

open Json Transducer

/-! ## Puts on a buffer that may be full -/

theorem take_append_take {α : Type} (n : Nat) (l r : List α) :
    (l.take n ++ r).take n = (l ++ r).take n := by
  rw [List.take_append, List.take_append, List.take_take, Nat.min_self, List.length_take]
  rcases Nat.le_total n l.length with h | h
  · rw [Nat.min_eq_left h, Nat.sub_self, Nat.sub_eq_zero_of_le h]
  · rw [Nat.min_eq_right h]

theorem bufferWrite_take {buf : Buffer} (hwf : buf.WellFormed) (src : List UInt8) :
    (bufferWrite buf src).1.contents = (buf.contents ++ src).take buf.cap := by
  have hle := hwf.len_le
  have hall : buf.contents.take buf.cap = buf.contents :=
    List.take_of_length_le (by rw [hwf.length_contents]; exact hle)
  rw [bufferWrite_contents hwf, List.take_append, hall, hwf.length_contents, Buffer.accepts,
    Nat.min_comm, ← List.take_eq_take_min]

theorem bufferWrite_cap {buf : Buffer} (hwf : buf.WellFormed) (src : List UInt8) :
    (bufferWrite buf src).1.cap = buf.cap := by
  rw [bufferWrite_eq hwf]

theorem bufferClear_wellFormed {buf : Buffer} (hwf : buf.WellFormed) : (bufferClear buf).WellFormed :=
  { hwf with pos_le := Nat.le_refl 0, len_le := Nat.zero_le _ }

theorem bufferClear_contents (buf : Buffer) : (bufferClear buf).contents = [] := List.take_zero

/-! ## The token that is being read -/

/-- The states inside a string or a number. -/
def CoState.collects : CoState → Bool
  | quote | stringChar => true
  | numberSign | numberInt | numberPoint | numberFrac => true
  | numberExp | numberExpSign | numberExpDigit => true
  | _ => false

/-- The states that the first character of a number leads to. -/
def CoState.Opens (state : CoState) (ch : UInt8) : Prop :=
  state = .numberSign ∧ (ch = '+' ∨ ch = '-') ∨ state = .numberInt ∧ isdigit ch = true ∨
    state = .numberPoint ∧ ch = '.'

def Json.collecting (jsn : Json) : Bool := jsn.final = .ok && jsn.state.collects

theorem final_of_collecting {jsn : Json} (h : jsn.collecting = true) : jsn.final = .ok :=
  of_decide_eq_true (Bool.and_eq_true_iff.mp h).1

/-- The characters of the string or number that is read after one more call. -/
def jsonToken (jsn : Json) (token : List UInt8) (ch : UInt8) : List UInt8 :=
  let next := (jsonParse jsn ch).1
  if ¬next.collecting then token
  else if jsn.collecting then token ++ [ch]
  else if next.state = .quote then []
  else [ch]

/-- The parser, with the token that is being read beside it. -/
def tokenStep (x : Json × List UInt8) (ch : UInt8) : (Json × List UInt8) × JsonCode :=
  (((jsonParse x.1 ch).1, jsonToken x.1 x.2 ch), (jsonParse x.1 ch).2)

/-- A call inside a container: the buffer is left alone. -/
structure Idle (jsn : Json) (r : Step) : Prop where
  buffer : r.1.buffer = jsn.buffer
  collecting : r.1.collecting = false
  string : r.2 ≠ .string
  number : r.2 ≠ .number
  bool : r.2 ≠ .bool

/-- What a call does to the buffer, given the token before it. -/
structure BufferStep (jsn : Json) (token : List UInt8) (ch : UInt8) (r : Step) : Prop where
  wf : r.1.buffer.WellFormed
  cap : r.1.buffer.cap = jsn.buffer.cap
  content : r.1.collecting = true → r.1.buffer.contents =
    (if jsn.collecting then token ++ [ch] else if r.1.state = .quote then [] else [ch]).take
      jsn.buffer.cap
  starts : jsn.collecting = false → r.1.collecting = true →
    r.1.state = .quote ∨ r.1.state.Opens ch
  delivered : r.2 = .string ∨ r.2 = .number → jsn.collecting = true ∧
    r.1.collecting = false ∧ r.1.buffer.contents = (token ++ [0]).take jsn.buffer.cap
  bool : r.2 = .bool → ∃ digit, r.1.buffer.contents = [digit, 0].take jsn.buffer.cap

section
variable {jsn : Json} {ch : UInt8} {token : List UInt8}

theorem leave_buffer (jsn : Json) : jsn.leave.buffer = jsn.buffer := by
  rw [Json.leave, jsonStackPop]
  cases jsn.stack <;> rfl

theorem leave_collecting (h : StackInv jsn) : jsn.leave.collecting = false := by
  rw [Json.leave, jsonStackPop]
  cases hstack : jsn.stack with
  | nil => exact rfl
  | cons state stack =>
    obtain ⟨frame, rfl⟩ := h.saved state (by simp [hstack])
    cases frame <;> exact Bool.and_false _

theorem terminate_collecting (jsn : Json) : jsn.terminate.collecting = jsn.collecting := rfl

theorem setBool_collecting (jsn : Json) (digit : Char) :
    (jsn.setBool digit).collecting = jsn.collecting := rfl

namespace Idle

theorem yield {state : CoState} {code : JsonCode} (hstate : state.collects = false)
    (hcode : code ≠ .string ∧ code ≠ .number ∧ code ≠ .bool) : Idle jsn (jsn.yield state code) :=
  ⟨rfl, by rw [Json.yield, Json.collecting, hstate, Bool.and_false], hcode.1, hcode.2.1, hcode.2.2⟩

theorem fail : Idle jsn jsn.fail := by
  constructor
  · exact rfl
  · exact rfl
  all_goals
    intro h
    cases h

theorem expect {c : UInt8} {next : Step} (h : Idle jsn next) : Idle jsn (jsn.expect ch c next) := by
  rw [Json.expect]
  split
  · exact h
  · exact fail

theorem leave (h : StackInv jsn) {code : JsonCode}
    (hcode : code ≠ .string ∧ code ≠ .number ∧ code ≠ .bool) : Idle jsn (jsn.leave, code) :=
  ⟨leave_buffer jsn, leave_collecting h, hcode.1, hcode.2.1, hcode.2.2⟩

theorem arrayElement (h : StackInv jsn) : Idle jsn (jsn.arrayElement ch) := by
  rw [Json.arrayElement]
  split
  · exact yield rfl (by decide)
  split
  · exact expect (leave h (by decide))
  · exact yield rfl (by decide)

theorem objectMember (h : StackInv jsn) : Idle jsn (jsn.objectMember ch) := by
  rw [Json.objectMember]
  split
  · exact yield rfl (by decide)
  split
  · exact expect (leave h (by decide))
  · exact yield rfl (by decide)

theorem objectColon : Idle jsn (jsn.objectColon ch) := by
  rw [Json.objectColon]
  split
  · exact yield rfl (by decide)
  · exact expect (yield rfl (by decide))

/-- The call that ends a number is made on a parser that has stopped, or on a
state behind a push. -/
theorem afterNumber (h : StackInv jsn) (hfinal : jsn.final = .ok) :
    (jsonParse jsn.leave.terminate ch).1.buffer = jsn.leave.terminate.buffer ∧
      (jsonParse jsn.leave.terminate ch).1.collecting = false := by
  have hinv := (h.leave hfinal).terminate
  have hquiet : jsn.leave.terminate.collecting = false := by
    rw [terminate_collecting, leave_collecting h]
  have hstate : jsn.leave.terminate.final = .done ∨
      jsn.leave.terminate.final = .ok ∧
        ∃ frame : Frame, jsn.leave.terminate.state = frame.coState := by
    rw [Json.leave, jsonStackPop]
    cases hstack : jsn.stack with
    | nil => exact .inl rfl
    | cons state stack => exact .inr ⟨hfinal, h.saved state (by simp [hstack])⟩
  rw [jsonParse_eq]
  obtain hdone | ⟨hok, frame, hframe⟩ := hstate
  · rw [if_pos (by rw [hdone]; decide)]
    exact ⟨rfl, hquiet⟩
  · have hidle : Idle jsn.leave.terminate (resume jsonParse jsn.leave.terminate ch) := by
      rw [Json.resume, hframe]
      cases frame with
      | element => exact arrayElement hinv
      | key => exact objectColon
      | member => exact objectMember hinv
    rw [if_neg (not_not.mpr hok)]
    exact ⟨hidle.buffer, hidle.collecting⟩

end Idle

namespace BufferStep

theorem of_idle (hwf : jsn.buffer.WellFormed) {r : Step} (h : Idle jsn r) :
    BufferStep jsn token ch r := by
  constructor
  · rw [h.buffer]
    exact hwf
  · rw [h.buffer]
  · intro hcollecting
    rw [h.collecting] at hcollecting
    cases hcollecting
  · intro _ hcollecting
    rw [h.collecting] at hcollecting
    cases hcollecting
  · rintro (hcode | hcode)
    · exact absurd hcode h.string
    · exact absurd hcode h.number
  · intro hcode
    exact absurd hcode h.bool

/-- A new token starts in an empty buffer. -/
theorem start (hwf : jsn.buffer.WellFormed) (hquiet : jsn.collecting = false) {state : CoState}
    (hopens : state.Opens ch) : BufferStep jsn token ch (jsn.clear.accept ch state) := by
  have hclear := bufferClear_wellFormed hwf
  have hstate : state ≠ .quote := by
    rintro rfl
    rcases hopens with ⟨h, _⟩ | ⟨h, _⟩ | ⟨h, _⟩ <;> cases h
  constructor
  · exact bufferWrite_wellFormed hclear _
  · exact bufferWrite_cap hclear _
  · intro _
    have hnext : (jsn.clear.accept ch state).1.state = state := rfl
    rw [hquiet, hnext, if_neg Bool.false_ne_true, if_neg hstate]
    have hwrite := bufferWrite_take hclear [ch]
    rw [bufferClear_contents] at hwrite
    exact hwrite
  · exact fun _ _ => .inr hopens
  · rintro (hcode | hcode) <;> cases hcode
  · intro hcode
    cases hcode

theorem quote (hwf : jsn.buffer.WellFormed) (hquiet : jsn.collecting = false) :
    BufferStep jsn token ch (jsn.clear.advance .quote) := by
  constructor
  · exact bufferClear_wellFormed hwf
  · exact rfl
  · intro _
    have hnext : (jsn.clear.advance .quote).1.state = .quote := rfl
    rw [hquiet, hnext, if_neg Bool.false_ne_true, if_pos rfl, List.take_nil]
    exact bufferClear_contents _
  · exact fun _ _ => .inl rfl
  · rintro (hcode | hcode) <;> cases hcode
  · intro hcode
    cases hcode

theorem setBool (hinv : StackInv jsn) (hwf : jsn.buffer.WellFormed)
    {digit : Char} (hdigit : digit.toUInt8 ≠ 0) :
    BufferStep jsn token ch (jsn.leave.setBool digit, .bool) := by
  have hclear := bufferClear_wellFormed hwf
  have hbuffer : (jsn.leave.setBool digit).buffer =
      (bufferPutsz (bufferClear jsn.buffer) [digit]).1 := by
    rw [Json.setBool, leave_buffer]
  have hleave : (jsn.leave.setBool digit).collecting = false := by
    rw [setBool_collecting, leave_collecting hinv]
  have hcstr : cstr [digit.toUInt8] = [digit.toUInt8] := by
    rw [cstr, List.takeWhile_cons_of_pos (by simpa using hdigit), List.takeWhile_nil]
  constructor
  · rw [hbuffer]
    exact bufferWrite_wellFormed hclear _
  · rw [hbuffer]
    exact bufferWrite_cap hclear _
  · intro hcollecting
    rw [hleave] at hcollecting
    cases hcollecting
  · intro _ hcollecting
    rw [hleave] at hcollecting
    cases hcollecting
  · rintro (hcode | hcode) <;> cases hcode
  · intro _
    refine ⟨digit.toUInt8, ?_⟩
    have hwrite := bufferWrite_take hclear (cstr [digit.toUInt8] ++ [0])
    rw [bufferClear_contents, hcstr] at hwrite
    rw [hbuffer, bufferPutsz, hcstr]
    exact hwrite

theorem recode {r : Step} (h : BufferStep jsn token ch r)
    {code : JsonCode} (hcode : code ≠ .string ∧ code ≠ .number ∧ code ≠ .bool) :
    BufferStep jsn token ch (r.1, code) := by
  constructor
  · exact h.wf
  · exact h.cap
  · exact h.content
  · exact h.starts
  · rintro (hnew | hnew)
    · exact absurd hnew hcode.1
    · exact absurd hnew hcode.2.1
  · intro hnew
    exact absurd hnew hcode.2.2

section Quiet

variable (hwf : jsn.buffer.WellFormed)

include hwf

theorem value {self : Json → UInt8 → Step} (hquiet : jsn.collecting = false) :
    BufferStep jsn token ch (Json.value self jsn ch) := by
  have hyield : ∀ {state : CoState} {code : JsonCode}, state.collects = false →
      code ≠ .string ∧ code ≠ .number ∧ code ≠ .bool →
      BufferStep jsn token ch (jsn.yield state code) :=
    fun hstate hcode => of_idle hwf (Idle.yield hstate hcode)
  rw [Json.value]
  split
  · exact hyield rfl (by decide)
  split
  · exact hyield rfl (by decide)
  split
  · exact hyield rfl (by decide)
  split
  · exact hyield rfl (by decide)
  split
  · exact quote hwf hquiet
  split
  · exact hyield rfl (by decide)
  split
  · exact hyield rfl (by decide)
  split
  · rename_i hnumber
    rw [Json.number, Json.numberInt]
    split
    · exact start hwf hquiet (.inl ⟨rfl, ‹_›⟩)
    split
    · exact start hwf hquiet (.inr (.inl ⟨rfl, ‹_›⟩))
    split
    · exact start hwf hquiet (.inr (.inr ⟨rfl, ‹_›⟩))
    · rename_i hsign hdigit hpoint
      rcases hnumber with h | h | h | h
      · exact absurd (.inl h) hsign
      · exact absurd (.inr h) hsign
      · exact absurd h hpoint
      · exact absurd h hdigit
  · exact of_idle hwf Idle.fail

theorem nested (hquiet : jsn.collecting = false) (hfinal : jsn.final = .ok) (state : CoState) :
    BufferStep jsn token ch (Json.nested jsonParse jsn ch state) := by
  rw [Json.nested, jsonStackPush, jsonParse_eq]
  split
  · have hnew := @value { jsn with state := .reset, stack := state :: jsn.stack } ch token hwf
      jsonParse (Bool.and_false _)
    have hcall : BufferStep jsn token ch
        (Json.value jsonParse { jsn with state := .reset, stack := state :: jsn.stack } ch) := by
      obtain ⟨hwf', hcap, hcontent, hstarts, hdelivered, hbool⟩ := hnew
      have hreset : ({ jsn with state := .reset, stack := state :: jsn.stack } : Json).collecting =
          false := Bool.and_false _
      rw [hreset] at hcontent hdelivered
      constructor
      · exact hwf'
      · exact hcap
      · rw [hquiet]
        exact hcontent
      · exact fun _ => hstarts hreset
      · intro hcode
        cases (hdelivered hcode).1
      · exact hbool
    rw [if_neg (not_not.mpr hfinal)]
    exact hcall
  · apply of_idle hwf
    rw [if_pos (by simp)]
    constructor
    · exact rfl
    · exact rfl
    all_goals
      intro h
      cases h

end Quiet

section Collecting

variable (hwf : jsn.buffer.WellFormed) (hcontent : jsn.buffer.contents = token.take jsn.buffer.cap)

include hwf hcontent

theorem put_contents (c : UInt8) :
    (bufferPutc jsn.buffer c).1.contents = (token ++ [c]).take jsn.buffer.cap := by
  rw [bufferPutc, bufferWrite_take hwf, hcontent, take_append_take]

variable (hcollecting : jsn.collecting = true)

include hcollecting

theorem accept {state : CoState} : BufferStep jsn token ch (jsn.accept ch state) := by
  constructor
  · exact bufferWrite_wellFormed hwf _
  · exact bufferWrite_cap hwf _
  · intro _
    rw [hcollecting, if_pos rfl]
    exact put_contents hwf hcontent ch
  · intro hquiet
    rw [hcollecting] at hquiet
    cases hquiet
  · rintro (hcode | hcode) <;> cases hcode
  · intro hcode
    cases hcode

theorem close {r : Json} {code : JsonCode} (hcode : code = .string ∨ code = .number)
    (hbuffer : r.buffer = (bufferPutc jsn.buffer 0).1) (hquiet : r.collecting = false) :
    BufferStep jsn token ch (r, code) := by
  constructor
  · rw [hbuffer]
    exact bufferWrite_wellFormed hwf _
  · rw [hbuffer]
    exact bufferWrite_cap hwf _
  · intro hnext
    rw [hquiet] at hnext
    cases hnext
  · intro hidle
    rw [hcollecting] at hidle
    cases hidle
  · intro _
    refine ⟨hcollecting, hquiet, ?_⟩
    rw [hbuffer]
    exact put_contents hwf hcontent 0
  · rintro rfl
    rcases hcode with hcode | hcode <;> cases hcode

variable (hinv : StackInv jsn)

include hinv

theorem stringLoop : BufferStep jsn token ch (jsn.stringLoop ch) := by
  rw [Json.stringLoop]
  split
  · exact accept hwf hcontent hcollecting
  · exact close hwf hcontent hcollecting (.inl rfl) (leave_buffer _)
      (leave_collecting hinv.terminate)

theorem numberEnd : BufferStep jsn token ch (Json.numberEnd jsonParse jsn ch) := by
  obtain ⟨hbuffer, hquiet⟩ := @Idle.afterNumber jsn ch hinv (final_of_collecting hcollecting)
  refine close hwf hcontent hcollecting (.inr rfl) ?_ hquiet
  rw [hbuffer, Json.terminate, leave_buffer]

theorem numberExpDigits : BufferStep jsn token ch (Json.numberExpDigits jsonParse jsn ch) := by
  rw [Json.numberExpDigits]
  split
  · exact accept hwf hcontent hcollecting
  · exact numberEnd hwf hcontent hcollecting hinv

theorem numberExp : BufferStep jsn token ch (Json.numberExp jsonParse jsn ch) := by
  rw [Json.numberExp]
  split
  · exact accept hwf hcontent hcollecting
  · exact numberExpDigits hwf hcontent hcollecting hinv

theorem numberFrac : BufferStep jsn token ch (Json.numberFrac jsonParse jsn ch) := by
  rw [Json.numberFrac]
  split
  · exact accept hwf hcontent hcollecting
  split
  · exact accept hwf hcontent hcollecting
  · exact numberEnd hwf hcontent hcollecting hinv

theorem numberInt : BufferStep jsn token ch (Json.numberInt jsonParse jsn ch) := by
  rw [Json.numberInt]
  split
  · exact accept hwf hcontent hcollecting
  split
  · exact accept hwf hcontent hcollecting
  · exact numberEnd hwf hcontent hcollecting hinv

end Collecting

section Container

variable (hwf : jsn.buffer.WellFormed) (hinv : StackInv jsn) (hfinal : jsn.final = .ok)

include hwf hinv hfinal

section
variable (hquiet : jsn.collecting = false)

include hquiet

theorem arrayLoop : BufferStep jsn token ch (Json.arrayLoop jsonParse jsn ch) := by
  rw [Json.arrayLoop]
  split
  · exact nested hwf hquiet hfinal _
  · exact of_idle hwf (Idle.expect (Idle.leave hinv (by decide)))

theorem arrayBegin : BufferStep jsn token ch (Json.arrayBegin jsonParse jsn ch) := by
  rw [Json.arrayBegin]
  split
  · exact of_idle hwf (Idle.yield rfl (by decide))
  · exact arrayLoop hwf hinv hfinal hquiet

omit hinv in
theorem objectKey : BufferStep jsn token ch (Json.objectKey jsonParse jsn ch) := by
  rw [Json.objectKey, Json.expect]
  split
  · exact of_idle hwf (Idle.yield rfl (by decide))
  split
  · exact recode (nested hwf hquiet hfinal _) (by decide)
  · exact of_idle hwf Idle.fail

theorem objectLoop : BufferStep jsn token ch (Json.objectLoop jsonParse jsn ch) := by
  rw [Json.objectLoop]
  split
  · exact objectKey hwf hfinal hquiet
  · exact of_idle hwf (Idle.expect (Idle.leave hinv (by decide)))

theorem objectBegin : BufferStep jsn token ch (Json.objectBegin jsonParse jsn ch) := by
  rw [Json.objectBegin]
  split
  · exact of_idle hwf (Idle.yield rfl (by decide))
  · exact objectLoop hwf hinv hfinal hquiet

end

theorem resume (hcontent : jsn.collecting = true →
    jsn.buffer.contents = token.take jsn.buffer.cap) :
    BufferStep jsn token ch (Json.resume jsonParse jsn ch) := by
  have hquiet : jsn.state.collects = false → jsn.collecting = false := by
    intro h
    rw [Json.collecting, h, Bool.and_false]
  have hcollecting : jsn.state.collects = true → jsn.collecting = true := by
    intro h
    rw [Json.collecting, h, hfinal]
    rfl
  rw [Json.resume]
  cases hstate : jsn.state with
  | reset | valueSpace => exact value hwf (hquiet (by rw [hstate]; rfl))
  | n | nu | t | tr | f | fa | fal =>
    exact of_idle hwf (Idle.expect (Idle.yield rfl (by decide)))
  | nul => exact of_idle hwf (Idle.expect (Idle.leave hinv (by decide)))
  | tru | fals =>
    have hquiet := hquiet (by rw [hstate]; rfl)
    simp only [Json.expect]
    split
    · exact setBool hinv hwf (by decide)
    · exact of_idle hwf Idle.fail
  | quote | stringChar =>
    have hcollecting := hcollecting (by rw [hstate]; rfl)
    exact stringLoop hwf (hcontent hcollecting) hcollecting hinv
  | arrayBegin | arrayBeginSpace => exact arrayBegin hwf hinv hfinal (hquiet (by rw [hstate]; rfl))
  | arrayElement | arrayElementSpace =>
    exact of_idle hwf (Idle.arrayElement hinv)
  | arrayComma => exact arrayLoop hwf hinv hfinal (hquiet (by rw [hstate]; rfl))
  | objectBegin | objectBeginSpace =>
    exact objectBegin hwf hinv hfinal (hquiet (by rw [hstate]; rfl))
  | objectKeySpace => exact objectKey hwf hfinal (hquiet (by rw [hstate]; rfl))
  | objectKey | objectColonSpace => exact of_idle hwf Idle.objectColon
  | objectColon => exact nested hwf (hquiet (by rw [hstate]; rfl)) hfinal _
  | objectMember | objectMemberSpace =>
    exact of_idle hwf (Idle.objectMember hinv)
  | objectComma => exact objectLoop hwf hinv hfinal (hquiet (by rw [hstate]; rfl))
  | numberSign | numberInt =>
    have hcollecting := hcollecting (by rw [hstate]; rfl)
    exact numberInt hwf (hcontent hcollecting) hcollecting hinv
  | numberPoint | numberFrac =>
    have hcollecting := hcollecting (by rw [hstate]; rfl)
    exact numberFrac hwf (hcontent hcollecting) hcollecting hinv
  | numberExp =>
    have hcollecting := hcollecting (by rw [hstate]; rfl)
    exact numberExp hwf (hcontent hcollecting) hcollecting hinv
  | numberExpSign | numberExpDigit =>
    have hcollecting := hcollecting (by rw [hstate]; rfl)
    exact numberExpDigits hwf (hcontent hcollecting) hcollecting hinv

end Container

end BufferStep

end

/-- The character goes on with the string or number that is being read. -/
def Json.continues (jsn : Json) (ch : UInt8) : Bool :=
  match jsn.state with
  | .quote | .stringChar => ch ≠ '"'
  | .numberSign | .numberInt => isdigit ch || ch = '.'
  | .numberPoint | .numberFrac => isdigit ch || ch = 'e' || ch = 'E'
  | .numberExp => isdigit ch || ch = '+' || ch = '-'
  | .numberExpSign | .numberExpDigit => isdigit ch
  | _ => false

/-- The character ends the string or number that is being read. -/
def Json.Closes (jsn : Json) (ch : UInt8) : Prop :=
  jsn.collecting = true ∧ jsn.continues ch = false

instance (jsn : Json) (ch : UInt8) : Decidable (jsn.Closes ch) := inferInstanceAs (Decidable (_ ∧ _))

def CoState.inNumber : CoState → Bool
  | numberSign | numberInt | numberPoint | numberFrac => true
  | numberExp | numberExpSign | numberExpDigit => true
  | _ => false

/-- The state behind a character that goes on with a string or a number. -/
def CoState.goesOn (state : CoState) (ch : UInt8) : CoState :=
  match state with
  | numberSign | numberInt => if isdigit ch then .numberInt else .numberPoint
  | numberPoint | numberFrac => if isdigit ch then .numberFrac else .numberExp
  | numberExp => if isdigit ch then .numberExpDigit else .numberExpSign
  | numberExpSign | numberExpDigit => .numberExpDigit
  | _ => .stringChar

theorem not_sign_of_isdigit {ch : UInt8} (h : isdigit ch = true) : ¬(ch = '+' ∨ ch = '-') := by
  rintro (rfl | rfl) <;> cases h

theorem parse_of_collecting {jsn : Json} (h : jsn.collecting = true) (ch : UInt8) :
    jsonParse jsn ch = resume jsonParse jsn ch ∧ jsn.state.collects = true := by
  rw [jsonParse_eq, if_neg (not_not.mpr (final_of_collecting h))]
  exact ⟨rfl, (Bool.and_eq_true_iff.mp h).2⟩

/-- Inside a token a call takes one more character, -/
theorem parse_of_continues {jsn : Json} {ch : UInt8} (h : jsn.collecting = true)
    (hgoes : jsn.continues ch = true) : jsonParse jsn ch = jsn.accept ch (jsn.state.goesOn ch) := by
  obtain ⟨hparse, hcollects⟩ := parse_of_collecting h ch
  rw [hparse, Json.resume]
  rw [Json.continues] at hgoes
  cases hstate : jsn.state with
  | quote | stringChar =>
    simp only [hstate, decide_eq_true_eq] at hgoes
    exact if_pos hgoes
  | numberSign | numberInt => grind [Json.numberInt, CoState.goesOn]
  | numberPoint | numberFrac => grind [Json.numberFrac, CoState.goesOn]
  | numberExp => grind [Json.numberExp, Json.numberExpDigits, CoState.goesOn, not_sign_of_isdigit]
  | numberExpSign | numberExpDigit => grind [Json.numberExpDigits, CoState.goesOn]
  | _ =>
    rw [hstate] at hcollects
    cases hcollects

/-- or delivers the token. -/
theorem code_of_closes {jsn : Json} {ch : UInt8} (h : jsn.Closes ch) :
    (jsonParse jsn ch).2 = if jsn.state.inNumber then .number else .string := by
  obtain ⟨hcollecting, hends⟩ := h
  obtain ⟨hparse, hcollects⟩ := parse_of_collecting hcollecting ch
  rw [hparse, Json.resume]
  rw [Json.continues] at hends
  cases hstate : jsn.state with
  | quote | stringChar =>
    simp only [hstate, decide_eq_false_iff_not] at hends
    exact congrArg Prod.snd (if_neg hends)
  | numberSign | numberInt => grind [Json.numberInt, Json.numberEnd, CoState.inNumber]
  | numberPoint | numberFrac => grind [Json.numberFrac, Json.numberEnd, CoState.inNumber]
  | numberExp => grind [Json.numberExp, Json.numberExpDigits, Json.numberEnd, CoState.inNumber]
  | numberExpSign | numberExpDigit => grind [Json.numberExpDigits, Json.numberEnd, CoState.inNumber]
  | _ =>
    rw [hstate] at hcollects
    cases hcollects

/-- The buffer holds the part of the token that fits. -/
structure BufferInv (x : Json × List UInt8) : Prop where
  stack : StackInv x.1
  wf : x.1.buffer.WellFormed
  content : x.1.collecting = true → x.1.buffer.contents = x.2.take x.1.buffer.cap

theorem bufferStep_of_inv {x : Json × List UInt8} (h : BufferInv x) (ch : UInt8) :
    BufferStep x.1 x.2 ch (jsonParse x.1 ch) := by
  rw [jsonParse_eq]
  split
  · rename_i hfinal
    have hquiet : x.1.collecting = false := by
      rw [Json.collecting, decide_eq_false hfinal, Bool.false_and]
    apply BufferStep.of_idle h.wf
    have hcode : x.1.final = .error ∨ x.1.final = .done := h.stack.final.resolve_left hfinal
    constructor
    · exact rfl
    · exact hquiet
    all_goals
      intro hnew
      rcases hcode with hcode | hcode <;> cases hcode.symm.trans hnew
  · rename_i hfinal
    exact BufferStep.resume h.wf h.stack (not_not.mp hfinal) h.content

theorem bufferInv_step (x : Json × List UInt8) (ch : UInt8) (h : BufferInv x) :
    BufferInv (tokenStep x ch).1 := by
  have hcall := bufferStep_of_inv h ch
  constructor
  · exact stackInv_step x.1 ch h.stack
  · exact hcall.wf
  · intro hcollecting
    rw [tokenStep] at hcollecting ⊢
    simp only at hcollecting ⊢
    rw [hcall.content hcollecting, hcall.cap, jsonToken]
    simp only [hcollecting, not_true, if_false]

theorem cap_step {x : Json × List UInt8} (h : BufferInv x) (ch : UInt8) :
    (tokenStep x ch).1.1.buffer.cap = x.1.buffer.cap := (bufferStep_of_inv h ch).cap

theorem closes_iff {x : Json × List UInt8} (h : BufferInv x) (ch : UInt8) :
    x.1.Closes ch ↔ (jsonParse x.1 ch).2 = .string ∨ (jsonParse x.1 ch).2 = .number := by
  constructor
  · intro hcloses
    rw [code_of_closes hcloses]
    split
    · exact .inr rfl
    · exact .inl rfl
  · intro hcode
    obtain ⟨hcollecting, _, _⟩ := (bufferStep_of_inv h ch).delivered hcode
    refine ⟨hcollecting, Bool.eq_false_iff.mpr fun hgoes => ?_⟩
    rw [parse_of_continues hcollecting hgoes] at hcode
    rcases hcode with hcode | hcode <;> cases hcode

theorem bufferInv_init {jsn : Json} (hwf : jsn.buffer.WellFormed) : BufferInv (jsonInit jsn, []) :=
  ⟨StackInv.init jsn, hwf, fun h => nomatch h⟩

/-! ## The zero behind a token -/

/-- Whatever is delivered as text has its zero in the buffer, and a token that does
not fit with its zero is an error. -/
structure Terminated (x : Json × List UInt8) (ch : UInt8) : Prop where
  zero_mem : (jsonParse x.1 ch).2 = .string ∨ (jsonParse x.1 ch).2 = .number ∨
    (jsonParse x.1 ch).2 = .bool → 0 ∈ (jsonParse x.1 ch).1.buffer.contents
  tooLong : x.1.Closes ch → x.1.buffer.cap < x.2.length + 1 → (jsonParse x.1 ch).2 = .error

/-- A token that ends here is shorter than the buffer. -/
def TokenFits (x : Json × List UInt8) (ch : UInt8) : Prop :=
  x.1.Closes ch → x.2.length < x.1.buffer.cap

instance (x : Json × List UInt8) (ch : UInt8) : Decidable (TokenFits x ch) :=
  inferInstanceAs (Decidable (_ → _))

theorem length_token_le (x : Json × List UInt8) (ch : UInt8) :
    (tokenStep x ch).1.2.length ≤ x.2.length + 1 := by
  rw [tokenStep, jsonToken]
  split
  · exact Nat.le_succ _
  split
  · exact Nat.le_of_eq List.length_append
  split
  · exact Nat.zero_le _
  · exact Nat.le_add_left _ _

/-- No token outgrows a buffer that is longer than the input. -/
theorem tokenFits_of_length {jsn : Json} (hwf : jsn.buffer.WellFormed) {w : List UInt8}
    (hlen : w.length < jsn.buffer.cap) : Throughout tokenStep TokenFits (jsonInit jsn, []) w := by
  suffices hfits : ∀ (w : List UInt8) (x : Json × List UInt8), BufferInv x →
      x.2.length + w.length < x.1.buffer.cap → Throughout tokenStep TokenFits x w from
    hfits w _ (bufferInv_init hwf) (by rw [List.length_nil, Nat.zero_add]; exact hlen)
  intro w
  induction w with
  | nil => exact fun _ _ _ => trivial
  | cons ch w ih =>
    intro x h hlen
    rw [List.length_cons] at hlen
    refine ⟨fun _ => by omega, ih _ (bufferInv_step x ch h) ?_⟩
    have htoken := length_token_le x ch
    rw [cap_step h]
    omega

theorem delivered_contents {x : Json × List UInt8} {ch : UInt8} (h : BufferInv x)
    (hfits : TokenFits x ch)
    (hcode : (jsonParse x.1 ch).2 = .string ∨ (jsonParse x.1 ch).2 = .number) :
    (jsonParse x.1 ch).1.buffer.contents = x.2 ++ [0] := by
  have hlt := hfits ((closes_iff h ch).mpr hcode)
  rw [((bufferStep_of_inv h ch).delivered hcode).2.2,
    List.take_of_length_le (by rw [List.length_append]; exact hlt)]

theorem terminated_iff_fits {x : Json × List UInt8} (h : BufferInv x) (hcap : 2 ≤ x.1.buffer.cap)
    (ch : UInt8) : Terminated x ch ↔ TokenFits x ch := by
  constructor
  · rintro ⟨_, htooLong⟩ hcloses
    rcases Nat.lt_or_ge x.2.length x.1.buffer.cap with hlt | hge
    · exact hlt
    · have herror := htooLong hcloses (by omega)
      have hcode := (closes_iff h ch).mp hcloses
      rw [herror] at hcode
      rcases hcode with hcode | hcode <;> cases hcode
  · intro hfits
    constructor
    · intro hcode
      have htoken : (jsonParse x.1 ch).2 = .string ∨ (jsonParse x.1 ch).2 = .number →
          0 ∈ (jsonParse x.1 ch).1.buffer.contents := by
        intro hcode
        rw [delivered_contents h hfits hcode]
        exact List.mem_append_right _ List.mem_cons_self
      rcases hcode with hcode | hcode | hcode
      · exact htoken (.inl hcode)
      · exact htoken (.inr hcode)
      · obtain ⟨digit, hcontents⟩ := (bufferStep_of_inv h ch).bool hcode
        rw [hcontents, List.take_of_length_le hcap]
        exact List.mem_cons_of_mem _ List.mem_cons_self
    · intro hcloses hlong
      have hlt := hfits hcloses
      omega

theorem json_terminated_iff (jsn : Json) (hwf : jsn.buffer.WellFormed) (hcap : 2 ≤ jsn.buffer.cap)
    (w : List UInt8) :
    Throughout tokenStep Terminated (jsonInit jsn, []) w ↔
      Throughout tokenStep TokenFits (jsonInit jsn, []) w := by
  apply throughout_iff_of_invariant fun x => BufferInv x ∧ 2 ≤ x.1.buffer.cap
  · rintro x ch ⟨hinv, hcap⟩
    exact terminated_iff_fits hinv hcap ch
  · rintro x ch ⟨hinv, hcap⟩ _
    exact ⟨bufferInv_step x ch hinv, by rw [cap_step hinv]; exact hcap⟩
  · exact ⟨bufferInv_init hwf, hcap⟩

/-- A parser whose token buffer has two bytes. -/
def twoBytes : Json := ⟨bufferInit (Block.ofCells [0, 0]) 2, .reset, [], .ok⟩

theorem wellFormed_twoBytes : twoBytes.buffer.WellFormed :=
  bufferInit_wellFormed (by decide) rfl

theorem json_terminated_one_char :
    Throughout tokenStep Terminated (jsonInit twoBytes, []) ['"', 'a', '"'] := by
  apply (json_terminated_iff twoBytes wellFormed_twoBytes (by decide) ['"', 'a', '"']).mpr
  decide

/-- Two characters fill the buffer, and the string is delivered without its zero. -/
theorem json_unterminated_two_chars :
    ¬Throughout tokenStep Terminated (jsonInit twoBytes, []) ['"', 'a', 'b', '"'] := by
  rintro ⟨_, _, _, ⟨hzero, _⟩, _⟩
  have hmem := hzero (by decide)
  revert hmem
  decide

end Wifimodem
