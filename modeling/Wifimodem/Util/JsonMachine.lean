import Wifimodem.Util.JsonParse
import Wifimodem.Lib.Transducer

/-!
# The parser as a stack machine

Without its buffer the parser is a machine with a stack of frames, one frame
for each container or key whose value is being read. Resumption points that
go on with the same code are one mode. The frames are the only states the
parser ever saves, so the machine needs no recursion to end a number.
-/

namespace Wifimodem

/-- What a nested value is read for. -/
inductive Frame where
  | element | key | member
deriving DecidableEq, Repr

inductive Mode where
  | value
  | word (rest : List UInt8) (code : JsonCode)
  | string
  | arrayOpen | arrayNext | arrayDone
  | objectOpen | objectNext | objectKey | keyDone | objectValue | memberDone
  | integer | fraction | exponent | exponentDigits
deriving DecidableEq, Repr

inductive Control where
  | halted (code : JsonCode)
  | running (mode : Mode) (stack : List Frame)
deriving DecidableEq, Repr

namespace Frame

def coState : Frame → CoState
  | element => .arrayElement
  | key => .objectKey
  | member => .objectMember

def mode : Frame → Mode
  | element => .arrayDone
  | key => .keyDone
  | member => .memberDone

end Frame

def CoState.mode : CoState → Mode
  | reset | valueSpace => .value
  | n => .word ['u', 'l', 'l'] .null
  | nu => .word ['l', 'l'] .null
  | nul => .word ['l'] .null
  | t => .word ['r', 'u', 'e'] .bool
  | tr => .word ['u', 'e'] .bool
  | tru => .word ['e'] .bool
  | f => .word ['a', 'l', 's', 'e'] .bool
  | fa => .word ['l', 's', 'e'] .bool
  | fal => .word ['s', 'e'] .bool
  | fals => .word ['e'] .bool
  | quote | stringChar => .string
  | arrayBegin | arrayBeginSpace => .arrayOpen
  | arrayElement | arrayElementSpace => .arrayDone
  | arrayComma => .arrayNext
  | objectBegin | objectBeginSpace => .objectOpen
  | objectKeySpace => .objectKey
  | objectKey | objectColonSpace => .keyDone
  | objectColon => .objectValue
  | objectMember | objectMemberSpace => .memberDone
  | objectComma => .objectNext
  | numberSign | numberInt => .integer
  | numberPoint | numberFrac => .fraction
  | numberExp => .exponent
  | numberExpSign | numberExpDigit => .exponentDigits

namespace Control

abbrev Step := Control × JsonCode

def fail : Step := (.halted .error, .error)

def stay (mode : Mode) (stack : List Frame) : Step := (.running mode stack, .ok)

def leave : List Frame → Control
  | [] => .halted .done
  | frame :: stack => .running frame.mode stack

def value (stack : List Frame) (c : UInt8) : Step :=
  if isspace c then stay .value stack
  else if c = 'n' then stay (.word ['u', 'l', 'l'] .null) stack
  else if c = 't' then stay (.word ['r', 'u', 'e'] .bool) stack
  else if c = 'f' then stay (.word ['a', 'l', 's', 'e'] .bool) stack
  else if c = '"' then stay .string stack
  else if c = '[' then (.running .arrayOpen stack, .arrayBegin)
  else if c = '{' then (.running .objectOpen stack, .objectBegin)
  else if c = '+' ∨ c = '-' then stay .integer stack
  else if isdigit c then stay .integer stack
  else if c = '.' then stay .fraction stack
  else fail

def nested (frame : Frame) (stack : List Frame) (c : UInt8) : Step :=
  if stack.length < jsonStackSize then value (frame :: stack) c else fail

def word (rest : List UInt8) (code : JsonCode) (stack : List Frame) (c : UInt8) : Step :=
  match rest with
  | [] => fail
  | [r] => if c = r then (leave stack, code) else fail
  | r :: rest => if c = r then stay (.word rest code) stack else fail

def string (stack : List Frame) (c : UInt8) : Step :=
  if c = '"' then (leave stack, .string) else stay .string stack

def arrayNext (stack : List Frame) (c : UInt8) : Step :=
  if c = ']' then (leave stack, .arrayEnd) else nested .element stack c

def arrayOpen (stack : List Frame) (c : UInt8) : Step :=
  if isspace c then stay .arrayOpen stack else arrayNext stack c

def arrayDone (stack : List Frame) (c : UInt8) : Step :=
  if isspace c then stay .arrayDone stack
  else if c = ',' then stay .arrayNext stack
  else if c = ']' then (leave stack, .arrayEnd)
  else fail

def objectKey (stack : List Frame) (c : UInt8) : Step :=
  if isspace c then stay .objectKey stack
  else if c = '"' then ((nested .key stack c).1, .objectKey)
  else fail

def objectNext (stack : List Frame) (c : UInt8) : Step :=
  if c = '}' then (leave stack, .objectEnd) else objectKey stack c

def objectOpen (stack : List Frame) (c : UInt8) : Step :=
  if isspace c then stay .objectOpen stack else objectNext stack c

def keyDone (stack : List Frame) (c : UInt8) : Step :=
  if isspace c then stay .keyDone stack
  else if c = ':' then (.running .objectValue stack, .objectValue)
  else fail

def memberDone (stack : List Frame) (c : UInt8) : Step :=
  if isspace c then stay .memberDone stack
  else if c = ',' then stay .objectNext stack
  else if c = '}' then (leave stack, .objectEnd)
  else fail

/-- The step on the way back into a frame. -/
def after : Frame → List Frame → UInt8 → Step
  | .element => arrayDone
  | .key => keyDone
  | .member => memberDone

/-- The character that ends a number is read again by the frame it returns to,
and what that step reports is lost. -/
def numberEnd (stack : List Frame) (c : UInt8) : Step :=
  match stack with
  | [] => (.halted .done, .number)
  | frame :: stack => ((after frame stack c).1, .number)

def exponentDigits (stack : List Frame) (c : UInt8) : Step :=
  if isdigit c then stay .exponentDigits stack else numberEnd stack c

def exponent (stack : List Frame) (c : UInt8) : Step :=
  if c = '+' ∨ c = '-' then stay .exponentDigits stack else exponentDigits stack c

def fraction (stack : List Frame) (c : UInt8) : Step :=
  if isdigit c then stay .fraction stack
  else if c = 'e' ∨ c = 'E' then stay .exponent stack
  else numberEnd stack c

def integer (stack : List Frame) (c : UInt8) : Step :=
  if isdigit c then stay .integer stack
  else if c = '.' then stay .fraction stack
  else numberEnd stack c

def stepMode : Mode → List Frame → UInt8 → Step
  | .value => value
  | .word rest code => word rest code
  | .string => string
  | .arrayOpen => arrayOpen
  | .arrayNext => arrayNext
  | .arrayDone => arrayDone
  | .objectOpen => objectOpen
  | .objectNext => objectNext
  | .objectKey => objectKey
  | .keyDone => keyDone
  | .objectValue => nested .member
  | .memberDone => memberDone
  | .integer => integer
  | .fraction => fraction
  | .exponent => exponent
  | .exponentDigits => exponentDigits

def step : Control → UInt8 → Step
  | .halted code, _ => (.halted code, code)
  | .running mode stack, c => stepMode mode stack c

theorem stepMode_mode (frame : Frame) : stepMode frame.mode = after frame := by
  cases frame <;> rfl

end Control

/-! ## The parser refines the machine -/

def Shows (jsn : Json) : Control → Prop
  | .halted code => jsn.final = code ∧ code ≠ .ok
  | .running mode stack =>
    jsn.final = .ok ∧ jsn.state.mode = mode ∧ jsn.stack = stack.map Frame.coState

def Agrees (r : Json.Step) (s : Control.Step) : Prop := Shows r.1 s.1 ∧ r.2 = s.2

namespace Agrees

variable {jsn : Json} {stack : List Frame} {ch : UInt8} {self : Json → UInt8 → Json.Step}

theorem ite {p : Prop} [Decidable p] {r r' : Json.Step} {s s' : Control.Step}
    (h : p → Agrees r s) (h' : ¬p → Agrees r' s') :
    Agrees (if p then r else r') (if p then s else s') := by
  split
  · exact h ‹_›
  · exact h' ‹_›

/-- The source tests that the character is another one. -/
theorem iteNe {c : UInt8} {r r' : Json.Step} {s s' : Control.Step} (h : ch = c → Agrees r' s)
    (h' : ch ≠ c → Agrees r s') :
    Agrees (if ch ≠ c then r else r') (if ch = c then s else s') := by
  by_cases hc : ch = c
  · rw [if_neg (not_not.mpr hc), if_pos hc]
    exact h hc
  · rw [if_pos hc, if_neg hc]
    exact h' hc

theorem fail : Agrees jsn.fail Control.fail := ⟨⟨rfl, by decide⟩, rfl⟩

theorem expect {c : UInt8} {r : Json.Step} {s : Control.Step} (h : Agrees r s) :
    Agrees (jsn.expect ch c r) (if ch = c then s else Control.fail) :=
  ite (fun _ => h) (fun _ => fail)

theorem shows_terminate {a : Control} (h : Shows jsn a) : Shows jsn.terminate a := by
  cases a <;> exact h

theorem shows_setBool {a : Control} {digit : Char} (h : Shows jsn a) :
    Shows (jsn.setBool digit) a := by
  cases a <;> exact h

variable (hfinal : jsn.final = .ok) (hstack : jsn.stack = stack.map Frame.coState)

include hfinal hstack

theorem yield {state : CoState} {code : JsonCode} :
    Agrees (jsn.yield state code) (.running state.mode stack, code) :=
  ⟨⟨hfinal, rfl, hstack⟩, rfl⟩

theorem accept {state : CoState} :
    Agrees (jsn.accept ch state) (Control.stay state.mode stack) :=
  ⟨⟨hfinal, rfl, hstack⟩, rfl⟩

theorem leave : Shows jsn.leave (Control.leave stack) := by
  rw [Json.leave, jsonStackPop]
  cases stack with
  | nil =>
    rw [hstack]
    exact ⟨rfl, by decide⟩
  | cons frame stack =>
    rw [hstack]
    exact ⟨hfinal, by cases frame <;> rfl, rfl⟩

theorem value : Agrees (Json.value self jsn ch) (Control.value stack ch) := by
  have hfinal' : jsn.clear.final = .ok := hfinal
  have hstack' : jsn.clear.stack = stack.map Frame.coState := hstack
  rw [Json.value, Control.value]
  refine ite (fun _ => yield hfinal hstack) fun _ => ite (fun _ => yield hfinal hstack) fun _ =>
    ite (fun _ => yield hfinal hstack) fun _ => ite (fun _ => yield hfinal hstack) fun _ =>
    ite (fun _ => yield hfinal' hstack') fun _ => ite (fun _ => yield hfinal hstack) fun _ =>
    ite (fun _ => yield hfinal hstack) fun _ => ?_
  -- a number's first character is accepted in the mode it leads to
  by_cases hsign : ch = '+' ∨ ch = '-'
  · rw [if_pos (hsign.imp_right .inl), if_pos hsign, Json.number, if_pos hsign]
    exact accept hfinal' hstack'
  · rw [if_neg hsign, Json.number, if_neg hsign, Json.numberInt]
    by_cases hdigit : isdigit ch
    · rw [if_pos (.inr (.inr (.inr hdigit))), if_pos hdigit, if_pos hdigit]
      exact accept hfinal' hstack'
    · rw [if_neg hdigit, if_neg hdigit]
      by_cases hpoint : ch = '.'
      · rw [if_pos (.inr (.inr (.inl hpoint))), if_pos hpoint, if_pos hpoint]
        exact accept hfinal' hstack'
      · have hnone : ¬(ch = '+' ∨ ch = '-' ∨ ch = '.' ∨ isdigit ch) := by
          rintro (h | h | h | h)
          · exact hsign (.inl h)
          · exact hsign (.inr h)
          · exact hpoint h
          · exact hdigit h
        rw [if_neg hnone, if_neg hpoint]
        exact fail

theorem nested (frame : Frame) :
    Agrees (Json.nested jsonParse jsn ch frame.coState) (Control.nested frame stack ch) := by
  have hlen : jsn.stack.length = stack.length := by rw [hstack, List.length_map]
  rw [Json.nested, Control.nested, jsonStackPush]
  rw [jsonParse_eq]
  simp only [hlen]
  by_cases hroom : stack.length < jsonStackSize
  · simp only [if_pos hroom, hfinal]
    apply value rfl
    rw [hstack]
    rfl
  · simp only [if_neg hroom]
    exact ⟨⟨rfl, by decide⟩, rfl⟩

theorem arrayDone : Agrees (jsn.arrayElement ch) (Control.arrayDone stack ch) := by
  rw [Json.arrayElement, Control.arrayDone]
  refine ite (fun _ => yield hfinal hstack) fun _ => ?_
  refine iteNe (fun _ => yield hfinal hstack) fun _ => ?_
  exact expect ⟨leave hfinal hstack, rfl⟩

theorem memberDone : Agrees (jsn.objectMember ch) (Control.memberDone stack ch) := by
  rw [Json.objectMember, Control.memberDone]
  refine ite (fun _ => yield hfinal hstack) fun _ => ?_
  refine iteNe (fun _ => yield hfinal hstack) fun _ => ?_
  exact expect ⟨leave hfinal hstack, rfl⟩

theorem keyDone : Agrees (jsn.objectColon ch) (Control.keyDone stack ch) :=
  ite (fun _ => yield hfinal hstack) fun _ => expect (yield hfinal hstack)

theorem arrayNext : Agrees (Json.arrayLoop jsonParse jsn ch) (Control.arrayNext stack ch) := by
  rw [Json.arrayLoop, Control.arrayNext]
  refine iteNe (fun hclose => ?_) fun _ => nested hfinal hstack .element
  rw [Json.arrayClose, Json.expect, if_pos hclose]
  exact ⟨leave hfinal hstack, rfl⟩

theorem objectKey : Agrees (Json.objectKey jsonParse jsn ch) (Control.objectKey stack ch) :=
  ite (fun _ => yield hfinal hstack) fun _ => expect ⟨(nested hfinal hstack .key).1, rfl⟩

theorem objectNext : Agrees (Json.objectLoop jsonParse jsn ch) (Control.objectNext stack ch) := by
  rw [Json.objectLoop, Control.objectNext]
  refine iteNe (fun hclose => ?_) fun _ => objectKey hfinal hstack
  rw [Json.objectClose, Json.expect, if_pos hclose]
  exact ⟨leave hfinal hstack, rfl⟩

theorem string : Agrees (jsn.stringLoop ch) (Control.string stack ch) := by
  rw [Json.stringLoop, Control.string]
  exact iteNe (fun _ => ⟨leave hfinal hstack, rfl⟩) fun _ => accept hfinal hstack

theorem numberEnd : Agrees (Json.numberEnd jsonParse jsn ch) (Control.numberEnd stack ch) := by
  refine ⟨?_, by cases stack <;> rfl⟩
  have hleave := shows_terminate (leave hfinal hstack)
  rw [Json.numberEnd]
  rw [jsonParse_eq]
  cases stack with
  | nil =>
    rw [if_pos (by rw [hleave.1]; decide)]
    exact hleave
  | cons frame stack =>
    have hstate : jsn.leave.terminate.state = frame.coState := by
      rw [Json.leave, jsonStackPop]
      rw [hstack]
      rfl
    obtain ⟨hfinal', _, hstack'⟩ := hleave
    rw [if_neg (not_not.mpr hfinal'), Json.resume, hstate]
    cases frame with
    | element => exact (arrayDone hfinal' hstack').1
    | key => exact (keyDone hfinal' hstack').1
    | member => exact (memberDone hfinal' hstack').1

theorem exponentDigits :
    Agrees (Json.numberExpDigits jsonParse jsn ch) (Control.exponentDigits stack ch) :=
  ite (fun _ => accept hfinal hstack) fun _ => numberEnd hfinal hstack

theorem exponent : Agrees (Json.numberExp jsonParse jsn ch) (Control.exponent stack ch) :=
  ite (fun _ => accept hfinal hstack) fun _ => exponentDigits hfinal hstack

theorem fraction : Agrees (Json.numberFrac jsonParse jsn ch) (Control.fraction stack ch) :=
  ite (fun _ => accept hfinal hstack) fun _ =>
    ite (fun _ => accept hfinal hstack) fun _ => numberEnd hfinal hstack

theorem integer : Agrees (Json.numberInt jsonParse jsn ch) (Control.integer stack ch) :=
  ite (fun _ => accept hfinal hstack) fun _ =>
    ite (fun _ => accept hfinal hstack) fun _ => numberEnd hfinal hstack

theorem resume :
    Agrees (Json.resume jsonParse jsn ch) (Control.stepMode jsn.state.mode stack ch) := by
  rw [Json.resume]
  cases jsn.state with
  | reset | valueSpace => exact value hfinal hstack
  | n | nu | t | tr | f | fa | fal => exact expect (yield hfinal hstack)
  | nul => exact expect ⟨leave hfinal hstack, rfl⟩
  | tru | fals => exact expect ⟨shows_setBool (leave hfinal hstack), rfl⟩
  | quote | stringChar => exact string hfinal hstack
  | arrayBegin | arrayBeginSpace =>
    exact ite (fun _ => yield hfinal hstack) fun _ => arrayNext hfinal hstack
  | arrayElement | arrayElementSpace => exact arrayDone hfinal hstack
  | arrayComma => exact arrayNext hfinal hstack
  | objectBegin | objectBeginSpace =>
    exact ite (fun _ => yield hfinal hstack) fun _ => objectNext hfinal hstack
  | objectKeySpace => exact objectKey hfinal hstack
  | objectKey | objectColonSpace => exact keyDone hfinal hstack
  | objectColon => exact nested hfinal hstack .member
  | objectMember | objectMemberSpace => exact memberDone hfinal hstack
  | objectComma => exact objectNext hfinal hstack
  | numberSign | numberInt => exact integer hfinal hstack
  | numberPoint | numberFrac => exact fraction hfinal hstack
  | numberExp => exact exponent hfinal hstack
  | numberExpSign | numberExpDigit => exact exponentDigits hfinal hstack

end Agrees

theorem shows_init (jsn : Json) : Shows (jsonInit jsn) (.running .value []) := ⟨rfl, rfl, rfl⟩

/-- One call of the parser is one step of the machine. -/
theorem shows_step {jsn : Json} {a : Control} (h : Shows jsn a) (ch : UInt8) :
    Shows (jsonParse jsn ch).1 (a.step ch).1 ∧ (jsonParse jsn ch).2 = (a.step ch).2 := by
  rw [jsonParse_eq]
  cases a with
  | halted code =>
    obtain ⟨hfinal, hcode⟩ := h
    rw [if_pos (by rw [hfinal]; exact hcode)]
    exact ⟨⟨hfinal, hcode⟩, hfinal⟩
  | running mode stack =>
    obtain ⟨hfinal, hmode, hstack⟩ := h
    rw [if_neg (not_not.mpr hfinal), Control.step, ← hmode]
    exact Agrees.resume hfinal hstack

theorem shows_run (jsn : Json) (w : List UInt8) :
    Shows (Transducer.run jsonParse (jsonInit jsn) w)
        (Transducer.run Control.step (.running .value []) w) ∧
      Transducer.outputs jsonParse (jsonInit jsn) w =
        Transducer.outputs Control.step (.running .value []) w :=
  Transducer.simulation (R := Shows) (fun _ _ ch h => shows_step h ch) (shows_init jsn) w

end Wifimodem
