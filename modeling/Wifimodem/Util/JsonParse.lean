import Wifimodem.Util.Buffer

/-!
# The resumable JSON parser

`json_parse` takes one character and returns one code. The body is a coroutine:
each place where it yields is a resumption point, and the definitions below are
the stretches of code between two of them. The calls of `json_parse` to itself
go through the argument `self`.
-/

namespace Wifimodem

inductive JsonCode where
  | error | done | ok
  | bool | number | string | null
  | arrayBegin | arrayEnd
  | objectBegin | objectEnd | objectKey | objectValue
deriving DecidableEq, Repr

/-- The resumption points, named after what was read just before them; `reset`
is the cleared state. A name in `Space` is the yield inside a skip of white
space. -/
inductive CoState where
  | reset | valueSpace
  | n | nu | nul
  | t | tr | tru
  | f | fa | fal | fals
  | quote | stringChar
  | arrayBegin | arrayBeginSpace | arrayElement | arrayElementSpace | arrayComma
  | objectBegin | objectBeginSpace | objectKeySpace
  | objectKey | objectColonSpace | objectColon
  | objectMember | objectMemberSpace | objectComma
  | numberSign | numberInt | numberPoint | numberFrac
  | numberExp | numberExpSign | numberExpDigit
deriving DecidableEq, Repr

/-- `stack` lists the saved states, the most recent first; `top` is its length. -/
structure Json where
  buffer : Buffer
  state : CoState
  stack : List CoState
  final : JsonCode
deriving DecidableEq, Repr

def jsonStackSize : Nat := 8

def jsonInit (jsn : Json) : Json := { jsn with state := .reset, stack := [], final := .ok }

def jsonStackPush (jsn : Json) : Json :=
  if jsn.stack.length < jsonStackSize then
    { jsn with state := .reset, stack := jsn.state :: jsn.stack }
  else { jsn with final := .error }

def jsonStackPop (jsn : Json) : Json × Bool :=
  match jsn.stack with
  | state :: stack => ({ jsn with state := state, stack := stack }, true)
  | [] => (jsn, false)

namespace Json

abbrev Step := Json × JsonCode

def yield (jsn : Json) (state : CoState) (code : JsonCode) : Step :=
  ({ jsn with state := state }, code)

def advance (jsn : Json) (state : CoState) : Step := jsn.yield state .ok

def accept (jsn : Json) (ch : UInt8) (state : CoState) : Step :=
  { jsn with buffer := (bufferPutc jsn.buffer ch).1 }.advance state

def fail (jsn : Json) : Step := ({ jsn with final := .error }, .error)

/-- `EXPECT`: go on with `next` on the character `c`, else fail. -/
def expect (jsn : Json) (ch c : UInt8) (next : Step) : Step := if ch = c then next else jsn.fail

/-- Return to the state saved last; without one the document is complete. -/
def leave (jsn : Json) : Json :=
  match jsonStackPop jsn with
  | (jsn, true) => jsn
  | (jsn, false) => { jsn with final := .done }

def setBool (jsn : Json) (digit : Char) : Json :=
  { jsn with buffer := (bufferPutsz (bufferClear jsn.buffer) [digit]).1 }

def clear (jsn : Json) : Json := { jsn with buffer := bufferClear jsn.buffer }

def terminate (jsn : Json) : Json := { jsn with buffer := (bufferPutc jsn.buffer 0).1 }

def stringLoop (jsn : Json) (ch : UInt8) : Step :=
  if ch ≠ '"' then jsn.accept ch .stringChar
  else (jsn.terminate.leave, .string)

variable (self : Json → UInt8 → Step)

/-- The end of the number branch. The character that ends the number is fed to
the state returned to, and the code of that call is dropped. -/
def numberEnd (jsn : Json) (ch : UInt8) : Step := ((self jsn.leave.terminate ch).1, .number)

def numberExpDigits (jsn : Json) (ch : UInt8) : Step :=
  if isdigit ch then jsn.accept ch .numberExpDigit else numberEnd self jsn ch

def numberExp (jsn : Json) (ch : UInt8) : Step :=
  if ch = '+' ∨ ch = '-' then jsn.accept ch .numberExpSign else numberExpDigits self jsn ch

def numberFrac (jsn : Json) (ch : UInt8) : Step :=
  if isdigit ch then jsn.accept ch .numberFrac
  else if ch = 'e' ∨ ch = 'E' then jsn.accept ch .numberExp
  else numberEnd self jsn ch

def numberInt (jsn : Json) (ch : UInt8) : Step :=
  if isdigit ch then jsn.accept ch .numberInt
  else if ch = '.' then jsn.accept ch .numberPoint
  else numberEnd self jsn ch

def number (jsn : Json) (ch : UInt8) : Step :=
  if ch = '+' ∨ ch = '-' then jsn.clear.accept ch .numberSign else numberInt self jsn.clear ch

/-- Save `state` on the stack and parse a nested value from `ch` on. -/
def nested (jsn : Json) (ch : UInt8) (state : CoState) : Step :=
  self (jsonStackPush { jsn with state := state }) ch

def arrayClose (jsn : Json) (ch : UInt8) : Step :=
  jsn.expect ch ']' (jsn.leave, .arrayEnd)

def arrayLoop (jsn : Json) (ch : UInt8) : Step :=
  if ch ≠ ']' then nested self jsn ch .arrayElement else jsn.arrayClose ch

def arrayBegin (jsn : Json) (ch : UInt8) : Step :=
  if isspace ch then jsn.advance .arrayBeginSpace else arrayLoop self jsn ch

def arrayElement (jsn : Json) (ch : UInt8) : Step :=
  if isspace ch then jsn.advance .arrayElementSpace
  else if ch ≠ ',' then jsn.arrayClose ch
  else jsn.advance .arrayComma

def objectClose (jsn : Json) (ch : UInt8) : Step :=
  jsn.expect ch '}' (jsn.leave, .objectEnd)

def objectKey (jsn : Json) (ch : UInt8) : Step :=
  if isspace ch then jsn.advance .objectKeySpace
  else jsn.expect ch '"' ((nested self jsn ch .objectKey).1, .objectKey)

def objectLoop (jsn : Json) (ch : UInt8) : Step :=
  if ch ≠ '}' then objectKey self jsn ch else jsn.objectClose ch

def objectBegin (jsn : Json) (ch : UInt8) : Step :=
  if isspace ch then jsn.advance .objectBeginSpace else objectLoop self jsn ch

def objectColon (jsn : Json) (ch : UInt8) : Step :=
  if isspace ch then jsn.advance .objectColonSpace
  else jsn.expect ch ':' (jsn.yield .objectColon .objectValue)

def objectMember (jsn : Json) (ch : UInt8) : Step :=
  if isspace ch then jsn.advance .objectMemberSpace
  else if ch ≠ ',' then jsn.objectClose ch
  else jsn.advance .objectComma

def value (jsn : Json) (ch : UInt8) : Step :=
  if isspace ch then jsn.advance .valueSpace
  else if ch = 'n' then jsn.advance .n
  else if ch = 't' then jsn.advance .t
  else if ch = 'f' then jsn.advance .f
  else if ch = '"' then jsn.clear.advance .quote
  else if ch = '[' then jsn.yield .arrayBegin .arrayBegin
  else if ch = '{' then jsn.yield .objectBegin .objectBegin
  else if ch = '+' ∨ ch = '-' ∨ ch = '.' ∨ isdigit ch then number self jsn ch
  else jsn.fail

def resume (jsn : Json) (ch : UInt8) : Step :=
  match jsn.state with
  | .reset | .valueSpace => value self jsn ch
  | .n => jsn.expect ch 'u' (jsn.advance .nu)
  | .nu => jsn.expect ch 'l' (jsn.advance .nul)
  | .nul => jsn.expect ch 'l' (jsn.leave, .null)
  | .t => jsn.expect ch 'r' (jsn.advance .tr)
  | .tr => jsn.expect ch 'u' (jsn.advance .tru)
  | .tru => jsn.expect ch 'e' (jsn.leave.setBool '1', .bool)
  | .f => jsn.expect ch 'a' (jsn.advance .fa)
  | .fa => jsn.expect ch 'l' (jsn.advance .fal)
  | .fal => jsn.expect ch 's' (jsn.advance .fals)
  | .fals => jsn.expect ch 'e' (jsn.leave.setBool '0', .bool)
  | .quote | .stringChar => jsn.stringLoop ch
  | .arrayBegin | .arrayBeginSpace => arrayBegin self jsn ch
  | .arrayElement | .arrayElementSpace => jsn.arrayElement ch
  | .arrayComma => arrayLoop self jsn ch
  | .objectBegin | .objectBeginSpace => objectBegin self jsn ch
  | .objectKeySpace => objectKey self jsn ch
  | .objectKey | .objectColonSpace => jsn.objectColon ch
  | .objectColon => nested self jsn ch .objectMember
  | .objectMember | .objectMemberSpace => jsn.objectMember ch
  | .objectComma => objectLoop self jsn ch
  | .numberSign | .numberInt => numberInt self jsn ch
  | .numberPoint | .numberFrac => numberFrac self jsn ch
  | .numberExp => numberExp self jsn ch
  | .numberExpSign | .numberExpDigit => numberExpDigits self jsn ch

end Json

open Json

/-- `json_parse` with a bound on the depth of its calls to itself. -/
def jsonParseFuel : Nat → Json → UInt8 → Step
  | 0, jsn, _ => (jsn, jsn.final)
  | fuel + 1, jsn, ch =>
    if jsn.final ≠ .ok then (jsn, jsn.final) else resume (jsonParseFuel fuel) jsn ch

/-- A call that ends a number returns into a shorter stack, and a call on a
cleared state makes no further call: the height of the stack bounds the calls. -/
def jsonParse (jsn : Json) (ch : UInt8) : Step := jsonParseFuel (jsn.stack.length + 2) jsn ch

example : (jsonParse (jsonInit ⟨bufferInit (Block.ofCells []) 0, .n, [], .error⟩) '[').2 =
    .arrayBegin := by decide

/-! ## The recursion is bounded -/

/-- The calls that `resume` can make from `jsn`: on a parser that has stopped,
on a cleared state, or on a shorter stack. -/
def Json.Callee (jsn jsn' : Json) : Prop :=
  jsn'.final ≠ .ok ∨ jsn'.state = .reset ∨ jsn'.stack.length < jsn.stack.length

theorem callee_leave (jsn : Json) : jsn.Callee jsn.leave.terminate := by
  rw [leave, jsonStackPop]
  cases hstack : jsn.stack with
  | nil => exact .inl (by simp [terminate])
  | cons state stack => exact .inr (.inr (by simp [terminate, hstack]))

theorem callee_push (jsn : Json) (state : CoState) :
    jsn.Callee (jsonStackPush { jsn with state := state }) := by
  rw [jsonStackPush]
  split
  · exact .inr (.inl rfl)
  · exact .inl (by simp)

section
variable {self self' : Json → UInt8 → Step} {jsn : Json} {ch : UInt8}

theorem numberEnd_congr (h : ∀ jsn', jsn.Callee jsn' → self jsn' ch = self' jsn' ch) :
    numberEnd self jsn ch = numberEnd self' jsn ch := by
  rw [numberEnd, numberEnd, h _ (callee_leave jsn)]

theorem nested_congr (h : ∀ jsn', jsn.Callee jsn' → self jsn' ch = self' jsn' ch)
    (state : CoState) : nested self jsn ch state = nested self' jsn ch state :=
  h _ (callee_push jsn state)

theorem number_congr (h : ch = '+' ∨ ch = '-' ∨ ch = '.' ∨ isdigit ch) :
    number self jsn ch = number self' jsn ch := by
  simp only [number, numberInt]
  rcases h with h | h | h | h <;> simp [h]

/-- On a cleared state no call is made: every number starts with a character
that is accepted. -/
theorem value_congr : value self jsn ch = value self' jsn ch := by
  rw [value, value]
  iterate 7 refine ite_congr rfl (fun _ => rfl) fun _ => ?_
  exact ite_congr rfl number_congr fun _ => rfl

theorem resume_congr (h : ∀ jsn', jsn.Callee jsn' → self jsn' ch = self' jsn' ch) :
    resume self jsn ch = resume self' jsn ch := by
  have hend := numberEnd_congr h
  have hnested := nested_congr h
  simp only [resume]
  split <;> first
    | rfl
    | exact value_congr
    | simp only [arrayBegin, arrayLoop, objectBegin, objectLoop, objectKey, numberInt, numberFrac,
        numberExp, numberExpDigits, hend, hnested]

end

def Json.depth (jsn : Json) : Nat :=
  if jsn.final ≠ .ok ∨ jsn.state = .reset then 1 else jsn.stack.length + 2

theorem depth_of_callee {jsn jsn' : Json} (hcall : jsn.Callee jsn') (hstate : jsn.state ≠ .reset)
    (hfinal : jsn.final = .ok) : jsn'.depth < jsn.depth := by
  have hdepth : jsn.depth = jsn.stack.length + 2 := if_neg (by simp [hstate, hfinal])
  rw [hdepth]
  rcases hcall with h | h | h
  · rw [depth, if_pos (.inl h)]
    omega
  · rw [depth, if_pos (.inr h)]
    omega
  · rw [depth]
    split <;> omega

/-- The body depends on the calls it makes only through shallower parsers. -/
theorem resume_eq_of_shallow {self self' : Json → UInt8 → Step} {jsn : Json} {ch : UInt8}
    (hfinal : jsn.final = .ok) (h : ∀ jsn', jsn'.depth < jsn.depth → self jsn' ch = self' jsn' ch) :
    resume self jsn ch = resume self' jsn ch := by
  by_cases hstate : jsn.state = .reset
  · simp only [resume, hstate]
    exact value_congr
  · apply resume_congr
    intro jsn' hcall
    exact h jsn' (depth_of_callee hcall hstate hfinal)

theorem jsonParseFuel_enough {fuel : Nat} :
    ∀ {jsn : Json} {fuel' : Nat} {ch : UInt8}, jsn.depth ≤ fuel → jsn.depth ≤ fuel' →
      jsonParseFuel fuel jsn ch = jsonParseFuel fuel' jsn ch := by
  have hpos : ∀ jsn : Json, 1 ≤ jsn.depth := by
    intro jsn
    rw [depth]
    split <;> omega
  induction fuel with
  | zero =>
    intro jsn _ _ h
    have := hpos jsn
    omega
  | succ fuel ih =>
    intro jsn fuel' ch h h'
    obtain ⟨fuel', rfl⟩ := Nat.exists_eq_add_of_le' (Nat.le_trans (hpos jsn) h')
    simp only [jsonParseFuel]
    split
    · rfl
    · rename_i hfinal
      apply resume_eq_of_shallow (not_not.mp hfinal)
      intro jsn' hlt
      exact ih (by omega) (by omega)

theorem depth_le (jsn : Json) : jsn.depth ≤ jsn.stack.length + 2 := by
  rw [depth]
  split <;> omega

theorem jsonParse_eq (jsn : Json) (ch : UInt8) :
    jsonParse jsn ch =
      if jsn.final ≠ .ok then (jsn, jsn.final) else resume jsonParse jsn ch := by
  have hdepth := depth_le jsn
  rw [jsonParse, jsonParseFuel]
  split
  · rfl
  · rename_i hfinal
    apply resume_eq_of_shallow (not_not.mp hfinal)
    intro jsn' hlt
    exact jsonParseFuel_enough (by omega) (depth_le jsn')

end Wifimodem
