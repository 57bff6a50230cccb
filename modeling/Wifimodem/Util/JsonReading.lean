import Wifimodem.Util.JsonBuffer
import Wifimodem.Util.JsonText

/-!
# What the parser is reading

Wherever a call does not fail, the parser goes into and out of a string, a number or a
boolean together with the reading of the characters alone, and has the text in its buffer
when it delivers the token.
-/

namespace Wifimodem

open Json Control

/-! ## The position in the buffer -/

section
variable {P : Buffer → Prop} {jsn : Json} {ch : UInt8} {self : Json → UInt8 → Json.Step}

/-- What is kept when the buffer is emptied or written. -/
structure Kept (P : Buffer → Prop) : Prop where
  clear : ∀ buf, P buf → P (bufferClear buf)
  write : ∀ buf src, P buf → P (bufferWrite buf src).1

namespace Kept

theorem leave (h : P jsn.buffer) : P jsn.leave.buffer := by
  rw [leave_buffer]
  exact h

theorem ite {p : Prop} [Decidable p] {r r' : Json.Step} (h : P r.1.buffer)
    (h' : P r'.1.buffer) : P (if p then r else r').1.buffer := by
  split
  · exact h
  · exact h'

theorem expect {c : UInt8} {next : Json.Step} (h : P jsn.buffer) (hnext : P next.1.buffer) :
    P (jsn.expect ch c next).1.buffer := by
  rw [Json.expect]
  split
  · exact hnext
  · exact h

variable (hP : Kept P)

include hP

theorem setBool {digit : Char} (h : P jsn.buffer) : P (jsn.leave.setBool digit).buffer :=
  hP.write _ _ (hP.clear _ (leave h))

theorem stringLoop (h : P jsn.buffer) : P (jsn.stringLoop ch).1.buffer := by
  rw [Json.stringLoop]
  split
  · exact hP.write _ _ h
  · exact @leave P jsn.terminate (hP.write _ _ h)

variable (hself : ∀ jsn, P jsn.buffer → P (self jsn ch).1.buffer) (h : P jsn.buffer)

include hself h

theorem numberEnd : P (Json.numberEnd self jsn ch).1.buffer :=
  hself _ (hP.write _ _ (leave h))

theorem numberExpDigits : P (Json.numberExpDigits self jsn ch).1.buffer := by
  rw [Json.numberExpDigits]
  split
  · exact hP.write _ _ h
  · exact hP.numberEnd hself h

theorem numberExp : P (Json.numberExp self jsn ch).1.buffer := by
  rw [Json.numberExp]
  split
  · exact hP.write _ _ h
  · exact hP.numberExpDigits hself h

theorem numberFrac : P (Json.numberFrac self jsn ch).1.buffer := by
  rw [Json.numberFrac]
  split
  · exact hP.write _ _ h
  split
  · exact hP.write _ _ h
  · exact hP.numberEnd hself h

theorem numberInt : P (Json.numberInt self jsn ch).1.buffer := by
  rw [Json.numberInt]
  split
  · exact hP.write _ _ h
  split
  · exact hP.write _ _ h
  · exact hP.numberEnd hself h

theorem value : P (Json.value self jsn ch).1.buffer := by
  have hclear : P jsn.clear.buffer := hP.clear _ h
  have hnumber : P (Json.number self jsn ch).1.buffer :=
    ite (hP.write _ _ hclear) (hP.numberInt hself hclear)
  rw [Json.value]
  exact ite h (ite h (ite h (ite h (ite hclear (ite h (ite h (ite hnumber h)))))))

omit hP in
theorem nested (state : CoState) : P (Json.nested self jsn ch state).1.buffer := by
  rw [Json.nested, jsonStackPush]
  split <;> exact hself _ h

omit hP in
theorem arrayLoop : P (Json.arrayLoop self jsn ch).1.buffer := by
  rw [Json.arrayLoop]
  split
  · exact nested hself h _
  · exact expect h (leave h)

omit hP in
theorem objectKey : P (Json.objectKey self jsn ch).1.buffer := by
  rw [Json.objectKey]
  split
  · exact h
  · exact expect h (nested hself h _)

omit hP in
theorem objectLoop : P (Json.objectLoop self jsn ch).1.buffer := by
  rw [Json.objectLoop]
  split
  · exact objectKey hself h
  · exact expect h (leave h)

theorem resume : P (Json.resume self jsn ch).1.buffer := by
  rw [Json.resume]
  cases jsn.state with
  | reset | valueSpace => exact hP.value hself h
  | n | nu | t | tr | f | fa | fal => exact expect h h
  | nul => exact expect h (leave h)
  | tru | fals => exact expect h (hP.setBool h)
  | quote | stringChar => exact hP.stringLoop h
  | arrayBegin | arrayBeginSpace =>
    simp only [Json.arrayBegin]
    split
    · exact h
    · exact arrayLoop hself h
  | arrayElement | arrayElementSpace =>
    simp only [Json.arrayElement]
    split_ifs
    · exact h
    · exact expect h (leave h)
    · exact h
  | arrayComma => exact arrayLoop hself h
  | objectBegin | objectBeginSpace =>
    simp only [Json.objectBegin]
    split
    · exact h
    · exact objectLoop hself h
  | objectKeySpace => exact objectKey hself h
  | objectKey | objectColonSpace =>
    simp only [Json.objectColon]
    split
    · exact h
    · exact expect h h
  | objectColon => exact nested hself h _
  | objectMember | objectMemberSpace =>
    simp only [Json.objectMember]
    split_ifs
    · exact h
    · exact expect h (leave h)
    · exact h
  | objectComma => exact objectLoop hself h
  | numberSign | numberInt => exact hP.numberInt hself h
  | numberPoint | numberFrac => exact hP.numberFrac hself h
  | numberExp => exact hP.numberExp hself h
  | numberExpSign | numberExpDigit => exact hP.numberExpDigits hself h

end Kept

theorem kept_fuel (hP : Kept P) (fuel : Nat) : ∀ jsn : Json, P jsn.buffer →
    P (jsonParseFuel fuel jsn ch).1.buffer := by
  induction fuel with
  | zero => exact fun _ h => h
  | succ fuel ih =>
    intro jsn h
    rw [jsonParseFuel]
    split
    · exact h
    · exact hP.resume ih h

end

/-- The parser never moves on in its buffer. -/
theorem pos_step {jsn : Json} (h : jsn.buffer.pos = 0) (ch : UInt8) :
    (jsonParse jsn ch).1.buffer.pos = 0 := by
  have hkept : Kept fun buf => buf.pos = 0 := ⟨fun _ _ => rfl, fun _ _ h => h⟩
  exact kept_fuel hkept _ jsn h

/-! ## What a character starts -/

def Mode.Outside : Mode → Prop
  | .word _ _ | .string | .integer | .fraction | .exponent | .exponentDigits => False
  | _ => True

/-- The mode behind the first character of a text, and any mode between the texts. -/
def Mode.Begun (ch : UInt8) : Mode → Prop
  | .word rest _ =>
    rest = ['u', 'l', 'l'] ∧ Reading.opens ch = .outside ∨
      rest = ['r', 'u', 'e'] ∧ Reading.opens ch = .word true ∨
      rest = ['a', 'l', 's', 'e'] ∧ Reading.opens ch = .word false
  | .string => Reading.opens ch = .string []
  | .integer => Reading.opens ch = .number .integer [ch]
  | .fraction => Reading.opens ch = .number .fraction [ch]
  | .exponent | .exponentDigits => False
  | _ => Reading.opens ch = .outside

theorem begun_of_outside {mode : Mode} (hmode : mode.Outside) {ch : UInt8} (h : Reading.Plain ch) :
    mode.Begun ch := by
  cases mode <;> first | exact h | exact hmode.elim

theorem outside_frame (frame : Frame) : frame.mode.Outside := by
  cases frame <;> trivial

/-- A string, a number or a boolean. -/
def JsonCode.carriesText : JsonCode → Bool
  | .string | .number | .bool => true
  | _ => false

/-- A step between the texts. -/
structure Begins (ch : UInt8) (r : Control.Step) : Prop where
  next : ∀ mode stack, r.1 = .running mode stack → mode.Begun ch
  text : r.2.carriesText = false
  done : r.2 ≠ .done

namespace Begins

variable {ch : UInt8} {mode : Mode} {stack : List Frame} {code : JsonCode}

theorem running (hmode : mode.Begun ch) (hcode : code.carriesText = false ∧ code ≠ .done) :
    Begins ch (.running mode stack, code) := by
  refine ⟨?_, hcode.1, hcode.2⟩
  intro mode' stack' h
  obtain ⟨rfl, -⟩ := Control.running.inj h
  exact hmode

theorem fail : Begins ch Control.fail := by
  refine ⟨?_, rfl, (by decide : JsonCode.error ≠ .done)⟩
  intro mode stack h
  cases h

theorem leave (hch : Reading.Plain ch) (hcode : code.carriesText = false ∧ code ≠ .done) :
    Begins ch (Control.leave stack, code) := by
  cases stack with
  | nil =>
    refine ⟨?_, hcode.1, hcode.2⟩
    intro mode stack' h
    cases h
  | cons frame stack => exact running (begun_of_outside (outside_frame frame) hch) hcode

theorem space (hmode : mode.Outside) (h : isspace ch = true) : Begins ch (stay mode stack) :=
  running (begun_of_outside hmode (Reading.plain_of_delimiter (.inl h))) (by decide)

theorem ite {p : Prop} [Decidable p] {r r' : Control.Step} (h : p → Begins ch r)
    (h' : ¬p → Begins ch r') : Begins ch (if p then r else r') := by
  split
  · exact h ‹_›
  · exact h' ‹_›

/-- The first character of a value says which text it starts, if any. -/
theorem value : Begins ch (Control.value stack ch) := by
  rw [Control.value]
  refine ite (space trivial) fun _ => ite ?n fun _ => ite ?t fun _ => ite ?f fun _ =>
    ite ?quote fun _ => ite ?array fun _ => ite ?object fun _ => ite ?sign fun _ =>
    ite ?digit fun _ => ite ?point fun _ => fail
  case n =>
    rintro rfl
    exact running (.inl ⟨rfl, rfl⟩) (by decide)
  case t =>
    rintro rfl
    exact running (.inr (.inl ⟨rfl, rfl⟩)) (by decide)
  case f =>
    rintro rfl
    exact running (.inr (.inr ⟨rfl, rfl⟩)) (by decide)
  case quote | array | object | point =>
    rintro rfl
    exact running rfl (by decide)
  case sign =>
    rintro (rfl | rfl) <;> exact running rfl (by decide)
  case digit => exact fun hdigit => running (Reading.opens_of_isdigit hdigit) (by decide)

theorem nested (frame : Frame) : Begins ch (Control.nested frame stack ch) := by
  rw [Control.nested]
  split
  · exact value
  · exact fail

theorem arrayNext : Begins ch (Control.arrayNext stack ch) := by
  rw [Control.arrayNext]
  split
  · subst ch
    exact leave (by decide) (by decide)
  · exact nested .element

theorem arrayDone : Begins ch (Control.arrayDone stack ch) := by
  rw [Control.arrayDone]
  split
  · exact space trivial ‹_›
  split
  · subst ch
    exact running rfl (by decide)
  split
  · subst ch
    exact leave (by decide) (by decide)
  · exact fail

theorem objectKey : Begins ch (Control.objectKey stack ch) := by
  rw [Control.objectKey]
  split
  · exact space trivial ‹_›
  split
  · exact ⟨(nested .key).next, rfl, (by decide : JsonCode.objectKey ≠ .done)⟩
  · exact fail

theorem objectNext : Begins ch (Control.objectNext stack ch) := by
  rw [Control.objectNext]
  split
  · subst ch
    exact leave (by decide) (by decide)
  · exact objectKey

theorem keyDone : Begins ch (Control.keyDone stack ch) := by
  rw [Control.keyDone]
  split
  · exact space trivial ‹_›
  split
  · subst ch
    exact running rfl (by decide)
  · exact fail

theorem memberDone : Begins ch (Control.memberDone stack ch) := by
  rw [Control.memberDone]
  split
  · exact space trivial ‹_›
  split
  · subst ch
    exact running rfl (by decide)
  split
  · subst ch
    exact leave (by decide) (by decide)
  · exact fail

theorem step (hmode : mode.Outside) : Begins ch (Control.step (.running mode stack) ch) := by
  cases mode with
  | value => exact value
  | word | string | integer | fraction | exponent | exponentDigits => exact hmode.elim
  | arrayNext => exact arrayNext
  | arrayDone => exact arrayDone
  | objectKey => exact objectKey
  | objectNext => exact objectNext
  | keyDone => exact keyDone
  | objectValue => exact nested .member
  | memberDone => exact memberDone
  | arrayOpen =>
    rw [Control.step, stepMode, arrayOpen]
    split
    · exact space trivial ‹_›
    · exact arrayNext
  | objectOpen =>
    rw [Control.step, stepMode, objectOpen]
    split
    · exact space trivial ‹_›
    · exact objectNext

end Begins

/-! ## What is being read -/

/-- Inside `true` and `false`, a string or a number. -/
def CoState.reading (token : List UInt8) : CoState → Reading
  | .t | .tr | .tru => .word true
  | .f | .fa | .fal | .fals => .word false
  | .quote | .stringChar => .string token
  | .numberSign | .numberInt => .number .integer token
  | .numberPoint | .numberFrac => .number .fraction token
  | .numberExp => .number .exponent token
  | .numberExpSign | .numberExpDigit => .number .exponentDigits token
  | _ => .outside

section
variable {state : CoState} {token : List UInt8} {ch : UInt8}

theorem reading_outside (h : state.mode.Outside) (token : List UInt8) :
    state.reading token = .outside := by
  cases state <;> first | rfl | exact h.elim

theorem reading_idle (h : state.collects = false) (token token' : List UInt8) :
    state.reading token = state.reading token' := by
  cases state <;> first | rfl | cases h

theorem reading_begun (h : state.mode.Begun ch) (hchar : state ≠ .stringChar) :
    state.reading (if state = .quote then [] else [ch]) = Reading.opens ch := by
  cases state <;> first | exact absurd rfl hchar | exact h.symm | exact h.elim | skip
  all_goals
    rcases h with ⟨hrest, h⟩ | ⟨hrest, h⟩ | ⟨hrest, h⟩
  all_goals first | exact h.symm | exact absurd hrest (by decide)

theorem collects_goesOn (state : CoState) (ch : UInt8) : (state.goesOn ch).collects = true := by
  cases state <;> simp only [CoState.goesOn] <;> first | rfl | (split <;> rfl)

theorem step_of_continues {jsn : Json} (h : jsn.collecting = true) (hgoes : jsn.continues ch = true)
    (token : List UInt8) :
    (jsn.state.reading token).step ch =
      ((jsn.state.goesOn ch).reading (token ++ [ch]), none) := by
  obtain ⟨-, hcollects⟩ := parse_of_collecting h ch
  rw [Json.continues] at hgoes
  cases hstate : jsn.state with
  | quote | stringChar =>
    simp only [hstate, decide_eq_true_eq] at hgoes
    exact if_neg hgoes
  | numberSign | numberInt | numberPoint | numberFrac =>
    grind [CoState.reading, Reading.step, Mode.numberNext, CoState.goesOn]
  | numberExp | numberExpSign | numberExpDigit =>
    grind [CoState.reading, Reading.step, Mode.numberNext, CoState.goesOn]
  | _ =>
    rw [hstate] at hcollects
    cases hcollects

theorem step_of_closes {jsn : Json} (h : jsn.Closes ch) (token : List UInt8) :
    (jsn.state.reading token).step ch = (.outside, some token) := by
  obtain ⟨hcollecting, hends⟩ := h
  obtain ⟨-, hcollects⟩ := parse_of_collecting hcollecting ch
  rw [Json.continues] at hends
  cases hstate : jsn.state with
  | quote | stringChar =>
    simp only [hstate, decide_eq_false_iff_not, not_not] at hends
    exact if_pos hends
  | numberSign | numberInt | numberPoint | numberFrac =>
    grind [CoState.reading, Reading.step, Mode.numberNext]
  | numberExp | numberExpSign | numberExpDigit =>
    grind [CoState.reading, Reading.step, Mode.numberNext]
  | _ =>
    rw [hstate] at hcollects
    cases hcollects

end

/-- The mode behind a string or a number. -/
theorem outside_leave {mode : Mode} {stack stack' : List Frame}
    (h : Control.leave stack = .running mode stack') : mode.Outside := by
  cases stack with
  | nil => cases h
  | cons frame stack =>
    obtain ⟨rfl, -⟩ := Control.running.inj h
    exact outside_frame frame

theorem outside_after {frame : Frame} {stack stack' : List Frame} {ch : UInt8} {mode : Mode}
    (h : (after frame stack ch).1 = .running mode stack') : mode.Outside := by
  cases frame
  all_goals
    simp only [after, arrayDone, keyDone, memberDone, stay, Control.fail] at h
    split_ifs at h
  all_goals first
    | exact outside_leave h
    | (obtain ⟨rfl, -⟩ := Control.running.inj h; trivial)

theorem outside_numberEnd {stack stack' : List Frame} {ch : UInt8} {mode : Mode}
    (h : (Control.numberEnd stack ch).1 = .running mode stack') : mode.Outside := by
  cases stack with
  | nil => cases h
  | cons frame stack => exact outside_after h

theorem outside_of_closes {jsn : Json} {ch : UInt8} (h : jsn.Closes ch) {mode : Mode}
    {stack stack' : List Frame}
    (hstep : (Control.step (.running jsn.state.mode stack) ch).1 = .running mode stack') :
    mode.Outside := by
  obtain ⟨hcollecting, hends⟩ := h
  obtain ⟨-, hcollects⟩ := parse_of_collecting hcollecting ch
  rw [Json.continues] at hends
  have hcases : (Control.step (.running jsn.state.mode stack) ch).1 = Control.leave stack ∨
      (Control.step (.running jsn.state.mode stack) ch).1 = (Control.numberEnd stack ch).1 := by
    cases hstate : jsn.state with
    | quote | stringChar =>
      simp only [hstate, decide_eq_false_iff_not, not_not] at hends
      exact .inl (congrArg Prod.fst (if_pos hends))
    | _ =>
      simp only [hstate, Bool.or_eq_false_iff, decide_eq_false_iff_not] at hends hcollects
      first
        | exact absurd hcollects (by decide)
        | right
          simp only [Control.step, CoState.mode, stepMode, Control.integer, Control.fraction,
            Control.exponent, Control.exponentDigits, hends, Bool.false_eq_true, if_false, or_self]
  rcases hcases with hleave | hend
  · exact outside_leave (hleave.symm.trans hstep)
  · exact outside_numberEnd (hend.symm.trans hstep)

/-! ## One call -/

/-- What `json_str` points to, without the zero at its end. -/
def Json.str (jsn : Json) : List UInt8 := jsn.buffer.unread.dropLast

/-- What a call has to do with the reading `s` of the characters before it. -/
structure Tells (x : Json × List UInt8) (ch : UInt8) (s : Reading) : Prop where
  next : (jsonParse x.1 ch).1.final = .ok →
    (jsonParse x.1 ch).1.state.reading (jsonToken x.1 x.2 ch) = (s.step ch).1
  code : (jsonParse x.1 ch).2.carriesText = (s.step ch).2.isSome
  text : ∀ text ∈ (s.step ch).2, text.length < x.1.buffer.cap → (jsonParse x.1 ch).1.str = text
  done : (jsonParse x.1 ch).2 ≠ .done

section
variable {x : Json × List UInt8} {ch : UInt8}

/-- With the position at the start, the contents are what `json_str` points to. -/
theorem str_of_contents {jsn : Json} (hpos : jsn.buffer.pos = 0) {text : List UInt8}
    (h : jsn.buffer.contents = text ++ [0]) : jsn.str = text := by
  rw [Json.str, Buffer.unread, hpos, h, List.drop_zero, List.dropLast_concat]

/-- The parser is not inside a text. -/
theorem tells_outside (h : BufferInv x) {stack : List Frame}
    (hshows : Shows x.1 (.running x.1.state.mode stack)) (hmode : x.1.state.mode.Outside) :
    Tells x ch .outside := by
  obtain ⟨hnext, hcode⟩ := shows_step hshows ch
  have hbegins : Begins ch (Control.step (.running x.1.state.mode stack) ch) := Begins.step hmode
  have hquiet : x.1.collecting = false := by
    have hcollects : x.1.state.collects = false := by
      revert hmode
      cases x.1.state <;> first | exact fun _ => rfl | exact False.elim
    rw [Json.collecting, hcollects, Bool.and_false]
  constructor
  · intro hok
    cases hcontrol : (Control.step (.running x.1.state.mode stack) ch).1 with
    | halted code =>
      rw [hcontrol] at hnext
      exact absurd (hnext.1.symm.trans hok) hnext.2
    | running mode stack' =>
      rw [hcontrol] at hnext
      have hbegun : (jsonParse x.1 ch).1.state.mode.Begun ch := by
        rw [hnext.2.1]
        exact hbegins.next mode stack' hcontrol
      rw [jsonToken]
      split
      · rename_i hidle
        have hidle : (jsonParse x.1 ch).1.state.collects = false := by
          simpa [Json.collecting, hok] using hidle
        rw [reading_idle hidle _ (if (jsonParse x.1 ch).1.state = .quote then [] else [ch])]
        refine reading_begun hbegun ?_
        intro hchar
        rw [hchar] at hidle
        cases hidle
      · rename_i hcollecting
        rw [hquiet, if_neg Bool.false_ne_true]
        refine reading_begun hbegun ?_
        have hstarts := (bufferStep_of_inv h ch).starts hquiet (not_not.mp hcollecting)
        intro hchar
        rw [hchar] at hstarts
        simp [CoState.Opens] at hstarts
  · rw [hcode, hbegins.text]
    rfl
  · exact fun _ h => absurd h (Option.not_mem_none _)
  · rw [hcode]
    exact hbegins.done

/-- The parser is inside a string or a number. -/
theorem tells_collecting (h : BufferInv x) (hpos : x.1.buffer.pos = 0) {stack : List Frame}
    (hshows : Shows x.1 (.running x.1.state.mode stack)) (hcollecting : x.1.collecting = true) :
    Tells x ch (x.1.state.reading x.2) := by
  cases hgoes : x.1.continues ch with
  | true =>
    have hparse := parse_of_continues hcollecting hgoes
    have hstep := step_of_continues hcollecting hgoes x.2
    have hfinal : x.1.final = .ok := final_of_collecting hcollecting
    constructor
    · intro _
      have hnext : (x.1.accept ch (x.1.state.goesOn ch)).1.collecting = true := by
        exact Bool.and_eq_true_iff.mpr ⟨decide_eq_true hfinal, collects_goesOn _ _⟩
      rw [jsonToken, hparse, hnext, hcollecting, hstep]
      rfl
    · rw [hparse, hstep]
      rfl
    · rw [hstep]
      exact fun _ h => absurd h (Option.not_mem_none _)
    · rw [hparse]
      exact (by decide : JsonCode.ok ≠ .done)
  | false =>
    have hcloses : x.1.Closes ch := ⟨hcollecting, hgoes⟩
    have hstep := step_of_closes hcloses x.2
    have hcode := code_of_closes hcloses
    obtain ⟨hshows', -⟩ := shows_step hshows ch
    constructor
    · intro hok
      rw [hstep]
      cases hcontrol : (Control.step (.running x.1.state.mode stack) ch).1 with
      | halted code =>
        rw [hcontrol] at hshows'
        exact absurd (hshows'.1.symm.trans hok) hshows'.2
      | running mode stack' =>
        rw [hcontrol] at hshows'
        apply reading_outside
        rw [hshows'.2.1]
        exact outside_of_closes hcloses hcontrol
    · rw [hcode, hstep]
      split <;> rfl
    · rw [hstep]
      intro text htext hfits
      obtain rfl := Option.some.inj htext
      have hdelivered := (closes_iff h ch).mp hcloses
      exact str_of_contents (pos_step hpos ch) (delivered_contents h (fun _ => hfits) hdelivered)
    · rw [hcode]
      split <;> decide

theorem parse_of_running (hfinal : x.1.final = .ok) :
    jsonParse x.1 ch = Json.resume jsonParse x.1 ch := by
  rw [jsonParse_eq, if_neg (not_not.mpr hfinal)]

theorem parse_of_expect {c : UInt8} {next : Json.Step}
    (hparse : jsonParse x.1 ch = x.1.expect ch c next)
    (hnext : (jsonParse x.1 ch).1.final ≠ .error) : ch = c ∧ jsonParse x.1 ch = next := by
  rw [Json.expect] at hparse
  split at hparse
  · exact ⟨‹_›, hparse⟩
  · rw [hparse] at hnext
    exact absurd rfl hnext

/-- Behind a letter of `null`, `true` or `false` the next one is expected. -/
theorem tells_letter {c : UInt8} {next : CoState} {s : Reading}
    (hparse : jsonParse x.1 ch = x.1.expect ch c (x.1.advance next))
    (hnext : (jsonParse x.1 ch).1.final ≠ .error) (hreading : ∀ token, next.reading token = s)
    (hstep : s.step c = (s, none)) : Tells x ch s := by
  obtain ⟨rfl, hcall⟩ := parse_of_expect hparse hnext
  constructor
  · intro _
    rw [hcall, hstep]
    exact hreading _
  · rw [hcall, hstep]
    rfl
  · rw [hstep]
    exact fun _ h => absurd h (Option.not_mem_none _)
  · rw [hcall]
    exact (by decide : JsonCode.ok ≠ .done)

theorem outside_of_leave (h : BufferInv x) (hok : x.1.leave.final = .ok) (token : List UInt8) :
    x.1.leave.state.reading token = .outside := by
  rw [Json.leave, jsonStackPop] at hok ⊢
  cases hstack : x.1.stack with
  | nil =>
    rw [hstack] at hok
    cases hok
  | cons state stack =>
    obtain ⟨frame, rfl⟩ := h.stack.saved state (by simp [hstack])
    cases frame <;> rfl

theorem tells_null (h : BufferInv x)
    (hparse : jsonParse x.1 ch = x.1.expect ch 'l' (x.1.leave, .null))
    (hnext : (jsonParse x.1 ch).1.final ≠ .error) : Tells x ch .outside := by
  obtain ⟨rfl, hcall⟩ := parse_of_expect hparse hnext
  constructor
  · rw [hcall]
    exact fun hok => outside_of_leave h hok _
  · rw [hcall]
    rfl
  · exact fun _ h => absurd h (Option.not_mem_none _)
  · rw [hcall]
    exact (by decide : JsonCode.null ≠ .done)

theorem setBool_contents (jsn : Json) (hwf : jsn.buffer.WellFormed) {digit : Char}
    (hdigit : digit.toUInt8 ≠ 0) :
    (jsn.leave.setBool digit).buffer.contents = [digit.toUInt8, 0].take jsn.buffer.cap := by
  have hcstr : cstr [digit.toUInt8] = [digit.toUInt8] := by
    rw [cstr, List.takeWhile_cons_of_pos (by simpa using hdigit), List.takeWhile_nil]
  have hwrite := bufferWrite_take (bufferClear_wellFormed hwf) (cstr [digit.toUInt8] ++ [0])
  rw [bufferClear_contents, hcstr] at hwrite
  rw [Json.setBool, leave_buffer, bufferPutsz, hcstr]
  exact hwrite

theorem tells_bool (h : BufferInv x) (hpos : x.1.buffer.pos = 0) {digit : Char} {b : Bool}
    (hparse : jsonParse x.1 ch = x.1.expect ch 'e' (x.1.leave.setBool digit, .bool))
    (hnext : (jsonParse x.1 ch).1.final ≠ .error) (hdigit : digit.toUInt8 ≠ 0)
    (htext : digitText b = [digit.toUInt8]) : Tells x ch (.word b) := by
  have hpos' := pos_step hpos ch
  have hstep : (Reading.word b).step 'e' = (.outside, some (digitText b)) := rfl
  obtain ⟨rfl, hcall⟩ := parse_of_expect hparse hnext
  constructor
  · rw [hcall, hstep]
    exact fun hok => outside_of_leave h hok _
  · rw [hcall, hstep]
    rfl
  · intro text hsome hfits
    rw [hstep] at hsome
    obtain rfl := Option.some.inj hsome
    have hcontents := setBool_contents x.1 h.wf hdigit
    rw [htext] at hfits ⊢
    rw [List.take_of_length_le hfits] at hcontents
    rw [hcall] at hpos' ⊢
    exact str_of_contents hpos' hcontents
  · rw [hcall]
    exact (by decide : JsonCode.bool ≠ .done)

theorem tells (h : BufferInv x) (hpos : x.1.buffer.pos = 0) {mode : Mode} {stack : List Frame}
    (hshows : Shows x.1 (.running mode stack)) (hnext : (jsonParse x.1 ch).1.final ≠ .error) :
    Tells x ch (x.1.state.reading x.2) := by
  obtain ⟨hfinal, rfl, hstack⟩ := hshows
  have hshows : Shows x.1 (.running x.1.state.mode stack) := ⟨hfinal, rfl, hstack⟩
  have hparse := @parse_of_running x ch hfinal
  rw [Json.resume] at hparse
  cases hstate : x.1.state with
  | n | nu =>
    rw [hstate] at hparse
    exact tells_letter hparse hnext (fun _ => rfl) rfl
  | nul =>
    rw [hstate] at hparse
    exact tells_null h hparse hnext
  | t | tr | f | fa | fal =>
    rw [hstate] at hparse
    exact tells_letter hparse hnext (fun _ => rfl) rfl
  | tru =>
    rw [hstate] at hparse
    exact tells_bool h hpos hparse hnext (by decide) rfl
  | fals =>
    rw [hstate] at hparse
    exact tells_bool h hpos hparse hnext (by decide) rfl
  | quote | stringChar | numberSign | numberInt | numberPoint | numberFrac | numberExp
  | numberExpSign | numberExpDigit =>
    have hcollecting : x.1.collecting = true := by
      rw [Json.collecting, hfinal, hstate]
      rfl
    rw [← hstate]
    exact tells_collecting h hpos hshows hcollecting
  | _ =>
    have hmode : x.1.state.mode.Outside := by
      rw [hstate]
      trivial
    exact tells_outside h hshows hmode

end

end Wifimodem
