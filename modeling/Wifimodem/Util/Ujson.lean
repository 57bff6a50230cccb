import Wifimodem.Lib.Coroutine
import Wifimodem.Util.JsonText

/-!
# Consumers of the parser's tokens

The macros `UJSON_*` expand to the statements of a coroutine that is called with each
token. A consumer is what has been written with these macros: it says which values it
takes, and what is run for them.
-/

namespace Wifimodem

open Coroutine

namespace Ujson

/-- What the macros expand to. `matchStr` is `UJSON_MATCH`, `yield` is `CO_YIELD` of
`UJSON_OK` or `UJSON_EMIT`, and `run` is what a consumer has put in the place of the dots;
it may look at the text of the token. `keys` and `items` are the loops over an object and
an array, `once` is a body inside `do ... while (0)`. -/
inductive Stmt (α : Type) where
  | check (t : JsonCode)
  | yield (emit : Bool)
  | matchStr (s : List UInt8) (body : List (Stmt α))
  | keys (body : List (Stmt α))
  | items (body : List (Stmt α))
  | once (body : List (Stmt α))
  | continue_
  | run (a : α) (reads : Bool)

inductive Effect (α : Type) where
  | ran (a : α) (text : Option (List UInt8))
  | emitted
deriving DecidableEq

/-- What is left to be executed, the innermost block first. -/
inductive Scope (α : Type) where
  | block (rest : List (Stmt α))
  | keys (body : List (Stmt α))
  | items (body : List (Stmt α))
  | once

variable {α : Type}

/-- `continue`: leave the blocks of the innermost loop, which tests its condition again. -/
def continueLoop : List (Scope α) → List (Scope α)
  | [] => []
  | .block _ :: k => continueLoop k
  | .once :: k => k
  | k => k

/-- The text in front of the first zero. -/
def cString (s : List UInt8) : List UInt8 := s.takeWhile (· ≠ 0)

def emission (emit : Bool) : List (Effect α) := if emit then [.emitted] else []

/-- One step with the token `tok`. Behind the end of its body the coroutine has nothing
that could fail or pause. -/
def step (tok : JsonToken) : List (Scope α) → Reaction (List (Scope α)) (Effect α)
  | [] => .pause [] []
  | .block [] :: k => .go k []
  | .block (.check t :: rest) :: k => if tok.code ≠ t then .fail else .go (.block rest :: k) []
  | .block (.yield emit :: rest) :: k => .pause (.block rest :: k) (emission emit)
  | .block (.matchStr s body :: rest) :: k =>
    if cString tok.str = cString s then .go (.block body :: .block rest :: k) []
    else .go (.block rest :: k) []
  | .block (.keys body :: rest) :: k => .go (.keys body :: .block rest :: k) []
  | .block (.items body :: rest) :: k => .go (.items body :: .block rest :: k) []
  | .block (.once body :: rest) :: k => .go (.block body :: .once :: .block rest :: k) []
  | .block (.continue_ :: _) :: k => .go (continueLoop k) []
  | .block (.run a reads :: rest) :: k =>
    .go (.block rest :: k) [.ran a (if reads then some tok.str else none)]
  | .keys body :: k =>
    if tok.code = .objectKey then .go (.block body :: .keys body :: k) [] else .go k []
  | .items body :: k =>
    if tok.code ≠ .arrayEnd then .go (.block body :: .items body :: k) [] else .go k []
  | .once :: k => .go k []

/-! ## The macros -/

def ujsonAdvance : List (Stmt α) := [.yield false]

def ujsonExpect (t : JsonCode) : List (Stmt α) := .check t :: ujsonAdvance

def ujsonObjProp (name : List UInt8) (body : List (Stmt α)) : List (Stmt α) :=
  [.matchStr name (ujsonAdvance ++ (ujsonExpect .objectValue ++ [.once body, .continue_]))]

def ujsonObjPropVal (name : List UInt8) (type : JsonCode) (body : List (Stmt α)) :
    List (Stmt α) :=
  ujsonObjProp name (.check type :: .once body :: (ujsonAdvance ++ [.continue_]))

def ujsonObjIter (emit : Bool) (body : List (Stmt α)) : List (Stmt α) :=
  ujsonExpect .objectBegin ++
    [.keys (ujsonAdvance ++ .check .string :: body), .check .objectEnd, .yield emit]

def ujsonArrayIter (body : List (Stmt α)) : List (Stmt α) :=
  ujsonExpect .arrayBegin ++ .items body :: ujsonExpect .arrayEnd

end Ujson

/-! ## Consumers -/

/-- The types of `UJSON_OBJ_PROP_B`, `_I` and `_F`, `_S` and `_N`. -/
inductive ScalarType where
  | bool | number | string | null
deriving DecidableEq

namespace ScalarType

def code : ScalarType → JsonCode
  | .bool => .bool
  | .number => .number
  | .string => .string
  | .null => .null

/-- With `null` nothing has been put in the buffer. -/
def reads (type : ScalarType) : Bool := type ≠ .null

end ScalarType

/-- The values that a consumer takes, with what it runs for them. -/
inductive Shape (α : Type) where
  | scalar (type : ScalarType) (a : α)
  | array (item : Shape α)
  | object (emit : Bool) (props : List (List UInt8 × Shape α))

variable {α : Type}

open Ujson

mutual

def Shape.body : Shape α → List (Stmt α)
  | .scalar type a => .check type.code :: .run a type.reads :: ujsonAdvance
  | .array item => ujsonArrayIter item.body
  | .object emit props => ujsonObjIter emit (propsBody props)

def Shape.propsBody : List (List UInt8 × Shape α) → List (Stmt α)
  | [] => []
  | p :: props => propBody p ++ propsBody props

/-- A property with a scalar is one of `UJSON_OBJ_PROP_B` to `_N`. -/
def Shape.propBody : List UInt8 × Shape α → List (Stmt α)
  | (name, .scalar type a) => ujsonObjPropVal name type.code [.run a type.reads]
  | (name, .array item) => ujsonObjProp name (ujsonArrayIter item.body)
  | (name, .object emit props) => ujsonObjProp name (ujsonObjIter emit (propsBody props))

end

/-! ## What a consumer is for -/

/-- The property of the first name that is equal, as far as its zero. -/
def findProp (props : List (List UInt8 × Shape α)) (name : List UInt8) : Option (Shape α) :=
  (props.find? fun p => cString name = cString p.1).map Prod.snd

def mismatch : Verdict (Effect α) := ⟨[], false⟩

mutual

def Value.decode : Value → Shape α → Verdict (Effect α)
  | .null, .scalar .null a => ⟨[.ran a none], true⟩
  | .bool b, .scalar .bool a => ⟨[.ran a (some (digitText b))], true⟩
  | .number n, .scalar .number a => ⟨[.ran a (some n.text)], true⟩
  | .string s, .scalar .string a => ⟨[.ran a (some s.val)], true⟩
  | .array vs, .array item => arrayDecode vs item
  | .object ms, .object emit props => (objectDecode ms props).andThen ⟨emission emit, true⟩
  | _, _ => mismatch

def Value.arrayDecode : List Value → Shape α → Verdict (Effect α)
  | [], _ => .skip
  | v :: vs, item => (v.decode item).andThen (arrayDecode vs item)

def Value.objectDecode : List (Text × Value) → List (List UInt8 × Shape α) → Verdict (Effect α)
  | [], _ => .skip
  | m :: ms, props => (memberDecode m props).andThen (objectDecode ms props)

/-- A member without a property is an error. -/
def Value.memberDecode : Text × Value → List (List UInt8 × Shape α) → Verdict (Effect α)
  | (key, v), props =>
    match findProp props key.val with
    | some shape => v.decode shape
    | none => mismatch

end

theorem Value.decode_array (vs : List Value) (item : Shape α) :
    (Value.array vs).decode (.array item) = arrayDecode vs item := rfl

theorem Value.decode_object (ms : List (Text × Value)) (emit : Bool)
    (props : List (List UInt8 × Shape α)) :
    (Value.object ms).decode (.object emit props) =
      (objectDecode ms props).andThen ⟨emission emit, true⟩ := rfl

theorem Value.arrayDecode_cons (v : Value) (vs : List Value) (item : Shape α) :
    arrayDecode (v :: vs) item = (v.decode item).andThen (arrayDecode vs item) := rfl

theorem Value.objectDecode_cons (m : Text × Value) (ms : List (Text × Value))
    (props : List (List UInt8 × Shape α)) :
    objectDecode (m :: ms) props = (memberDecode m props).andThen (objectDecode ms props) := rfl

end Wifimodem
