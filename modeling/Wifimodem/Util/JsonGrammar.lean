import Wifimodem.Util.JsonParse

/-!
# JSON values and their layouts

The grammar stated above the parser, as data. A `Value` is what a document
means; a `Doc` is one way to write it down, with the white space at every place
between two tokens. A layout may also put a comma directly before a closing
bracket, which the grammar does not have; `Doc.Strict` excludes it.
-/

namespace Wifimodem

/-- What may stand between the quotes of a string. -/
def Text := {w : List UInt8 // ∀ c ∈ w, c ≠ ('"' : UInt8)}

inductive Sign where
  | none | plus | minus
deriving DecidableEq

def Sign.text : Sign → List UInt8
  | none => []
  | plus => ['+']
  | minus => ['-']

structure Exponent where
  upper : Bool
  sign : Sign
  digits : Digits

structure Fraction where
  digits : Digits
  exponent : Option Exponent

def Exponent.text (e : Exponent) : List UInt8 :=
  (if e.upper then 'E' else 'e') :: (e.sign.text ++ e.digits.val)

def Fraction.text (x : Fraction) : List UInt8 :=
  '.' :: (x.digits.val ++ (x.exponent.elim [] Exponent.text))

/-- A number as the number branch scans it: any of its parts may be empty, but
not all of them. -/
structure Lexeme where
  sign : Sign
  int : Digits
  fraction : Option Fraction
  nonempty : sign ≠ .none ∨ int.val ≠ [] ∨ fraction ≠ none

def Lexeme.text (n : Lexeme) : List UInt8 :=
  n.sign.text ++ (n.int.val ++ n.fraction.elim [] Fraction.text)

/-- The characters that occur in numbers. -/
def isNumeric (c : UInt8) : Bool :=
  isdigit c || c = '+' || c = '-' || c = '.' || c = 'e' || c = 'E'

theorem Sign.numeric (sign : Sign) : ∀ c ∈ sign.text, isNumeric c = true := by
  cases sign with
  | none => exact fun _ h => nomatch h
  | plus | minus => exact List.forall_mem_singleton.mpr rfl

theorem Digits.numeric (ds : Digits) : ∀ c ∈ ds.val, isNumeric c = true := by
  intro c hc
  rw [isNumeric, ds.property c hc]
  rfl

theorem Exponent.numeric (e : Exponent) : ∀ c ∈ e.text, isNumeric c = true := by
  intro c hc
  rcases List.mem_cons.mp hc with rfl | hc
  · cases e.upper <;> rfl
  rcases List.mem_append.mp hc with hc | hc
  · exact e.sign.numeric c hc
  · exact e.digits.numeric c hc

theorem Fraction.numeric (x : Fraction) : ∀ c ∈ x.text, isNumeric c = true := by
  intro c hc
  rcases List.mem_cons.mp hc with rfl | hc
  · rfl
  rcases List.mem_append.mp hc with hc | hc
  · exact x.digits.numeric c hc
  · cases hexponent : x.exponent with
    | none =>
      rw [hexponent] at hc
      cases hc
    | some e =>
      rw [hexponent] at hc
      exact e.numeric c hc

theorem Lexeme.numeric (n : Lexeme) : ∀ c ∈ n.text, isNumeric c = true := by
  intro c hc
  rcases List.mem_append.mp hc with hc | hc
  · exact n.sign.numeric c hc
  rcases List.mem_append.mp hc with hc | hc
  · exact n.int.numeric c hc
  · cases hfraction : n.fraction with
    | none =>
      rw [hfraction] at hc
      cases hc
    | some x =>
      rw [hfraction] at hc
      exact x.numeric c hc

inductive Value where
  | null
  | bool (b : Bool)
  | number (n : Lexeme)
  | string (s : Text)
  | array (vs : List Value)
  | object (ms : List (Text × Value))

mutual

def Value.depth : Value → Nat
  | .array vs => 1 + arrayDepth vs
  | .object ms => 1 + objectDepth ms
  | _ => 1

def Value.arrayDepth : List Value → Nat
  | [] => 0
  | v :: vs => max v.depth (arrayDepth vs)

def Value.objectDepth : List (Text × Value) → Nat
  | [] => 0
  | m :: ms => max (memberDepth m) (objectDepth ms)

def Value.memberDepth : Text × Value → Nat
  | (_, v) => v.depth

end

mutual

def Value.tokens : Value → List JsonCode
  | .null => [.null]
  | .bool _ => [.bool]
  | .number _ => [.number]
  | .string _ => [.string]
  | .array vs => .arrayBegin :: (arrayTokens vs ++ [.arrayEnd])
  | .object ms => .objectBegin :: (objectTokens ms ++ [.objectEnd])

def Value.arrayTokens : List Value → List JsonCode
  | [] => []
  | v :: vs => v.tokens ++ arrayTokens vs

def Value.objectTokens : List (Text × Value) → List JsonCode
  | [] => []
  | m :: ms => memberTokens m ++ objectTokens ms

def Value.memberTokens : Text × Value → List JsonCode
  | (_, v) => .objectKey :: .string :: .objectValue :: v.tokens

end

/-! ## Layouts -/

structure Key where
  before : Space
  name : Text
  beforeColon : Space
  afterColon : Space

def quoted (s : Text) : List UInt8 := '"' :: (s.val ++ [('"' : UInt8)])

def Key.text (k : Key) : List UInt8 :=
  k.before.val ++ (quoted k.name ++ (k.beforeColon.val ++ (':' : UInt8) :: k.afterColon.val))

mutual

inductive Doc where
  | null
  | bool (b : Bool)
  | number (n : Lexeme)
  | string (s : Text)
  | emptyArray (inside : Space)
  | array (items : Items)
  | emptyObject (inside : Space)
  | object (members : Members)

/-- The elements of a non-empty array; `comma` marks a comma directly before
the closing bracket. -/
inductive Items where
  | last (before : Space) (d : Doc) (after : Space) (comma : Bool)
  | cons (before : Space) (d : Doc) (after : Space) (rest : Items)

inductive Members where
  | last (key : Key) (d : Doc) (after : Space) (comma : Bool)
  | cons (key : Key) (d : Doc) (after : Space) (rest : Members)

end

def boolText (b : Bool) : List UInt8 :=
  if b then ['t', 'r', 'u', 'e'] else ['f', 'a', 'l', 's', 'e']

def commaText (comma : Bool) : List UInt8 := if comma then [','] else []

mutual

def Doc.text : Doc → List UInt8
  | .null => ['n', 'u', 'l', 'l']
  | .bool b => boolText b
  | .number n => n.text
  | .string s => quoted s
  | .emptyArray inside => '[' :: (inside.val ++ [(']' : UInt8)])
  | .array items => '[' :: (items.text ++ [(']' : UInt8)])
  | .emptyObject inside => '{' :: (inside.val ++ [('}' : UInt8)])
  | .object members => '{' :: (members.text ++ [('}' : UInt8)])

def Items.text : Items → List UInt8
  | .last before d after comma => before.val ++ (d.text ++ (after.val ++ commaText comma))
  | .cons before d after rest => before.val ++ (d.text ++ (after.val ++ (',' : UInt8) :: rest.text))

def Members.text : Members → List UInt8
  | .last key d after comma => key.text ++ (d.text ++ (after.val ++ commaText comma))
  | .cons key d after rest => key.text ++ (d.text ++ (after.val ++ (',' : UInt8) :: rest.text))

end

mutual

def Doc.value : Doc → Value
  | .null => .null
  | .bool b => .bool b
  | .number n => .number n
  | .string s => .string s
  | .emptyArray _ => .array []
  | .array items => .array items.values
  | .emptyObject _ => .object []
  | .object members => .object members.values

def Items.values : Items → List Value
  | .last _ d _ _ => [d.value]
  | .cons _ d _ rest => d.value :: rest.values

def Members.values : Members → List (Text × Value)
  | .last key d _ _ => [(key.name, d.value)]
  | .cons key d _ rest => (key.name, d.value) :: rest.values

end

mutual

def Doc.strict : Doc → Bool
  | .array items => items.strict
  | .object members => members.strict
  | _ => true

def Items.strict : Items → Bool
  | .last _ d _ comma => d.strict && !comma
  | .cons _ d _ rest => d.strict && rest.strict

def Members.strict : Members → Bool
  | .last _ d _ comma => d.strict && !comma
  | .cons _ d _ rest => d.strict && rest.strict

end

def Doc.Strict (d : Doc) : Prop := d.strict = true

def Doc.isNumber : Doc → Bool
  | .number _ => true
  | _ => false

mutual

/-- Some number is followed directly, without white space, by a closing
bracket. -/
def Doc.numberBeforeClose : Doc → Bool
  | .array items => items.numberBeforeClose
  | .object members => members.numberBeforeClose
  | _ => false

def Items.numberBeforeClose : Items → Bool
  | .last _ d after comma => d.numberBeforeClose || (d.isNumber && (after.val.isEmpty && !comma))
  | .cons _ d _ rest => d.numberBeforeClose || rest.numberBeforeClose

def Members.numberBeforeClose : Members → Bool
  | .last _ d after comma => d.numberBeforeClose || (d.isNumber && (after.val.isEmpty && !comma))
  | .cons _ d _ rest => d.numberBeforeClose || rest.numberBeforeClose

end

end Wifimodem
