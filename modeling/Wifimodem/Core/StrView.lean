import Mathlib.Logic.Function.Basic
import Wifimodem.Core.Str
import Wifimodem.Lib.Traced

/-!
# Counted strings as views

A `str` is an offset into memory and a length. Every read is reported with the
operand through whose pointer it was made: zero for the string itself, `k + 1`
for the pattern `k`. An `int` holds every length, so only the difference of two
lengths is converted.
-/

namespace Wifimodem

structure Str where
  ptr : Nat
  len : Nat
deriving DecidableEq, Repr

structure Access where
  operand : Nat
  addr : Nat
deriving DecidableEq, Repr

/-- A pattern is another view, or a literal of the program text. -/
inductive Pattern where
  | view (operand : Nat) (p : Str)
  | literal (p : List UInt8)
deriving DecidableEq, Repr

def Pattern.len : Pattern → Nat
  | .view _ p => p.len
  | .literal p => p.length

def Pattern.get (mem : Nat → UInt8) : Pattern → Nat → Traced Access UInt8
  | .view operand p, i => .touch ⟨operand, p.ptr + i⟩ (mem (p.ptr + i))
  | .literal p, i => pure (p.getD i 0)

/-- `strchr` finds the closing zero too. -/
def strchr (p : List UInt8) (c : UInt8) : Bool := c = 0 || p.contains c

namespace Str

def left (s : Str) (pos : Nat) : Str :=
  let pos := if pos > s.len then s.len else pos
  ⟨s.ptr, pos⟩

def right (s : Str) (pos : Nat) : Str :=
  let pos := if pos > s.len then s.len else pos
  ⟨s.ptr + s.len - pos, pos⟩

def mid (s : Str) (pos len : Nat) : Str :=
  let pos := if pos > s.len then s.len else pos
  let l := s.len - pos
  ⟨s.ptr + pos, if l > len then len else l⟩

def skip (s : Str) (num : Nat) : Str :=
  let num := if num > s.len then s.len else num
  ⟨s.ptr + num, s.len - num⟩

def chop (s : Str) (num : Nat) : Str :=
  let num := if num > s.len then s.len else num
  ⟨s.ptr, s.len - num⟩

/-- The rest, and the part in front of it. -/
def split (s : Str) (pos : Nat) : Str × Str :=
  let pos := if pos > s.len then s.len else pos
  (⟨s.ptr + pos, s.len - pos⟩, ⟨s.ptr, pos⟩)

section
variable (mem : Nat → UInt8)

def read (addr : Nat) : Traced Access UInt8 := .touch ⟨0, addr⟩ (mem addr)

def ltrimLoop (pred : UInt8 → Bool) : Nat → Nat → Traced Access Str
  | ptr, 0 => pure ⟨ptr, 0⟩
  | ptr, len + 1 => do
    let c ← read mem ptr
    if pred c then ltrimLoop pred (ptr + 1) len else pure ⟨ptr, len + 1⟩

def rtrimLoop (pred : UInt8 → Bool) (ptr : Nat) : Nat → Traced Access Str
  | 0 => pure ⟨ptr, 0⟩
  | len + 1 => do
    let c ← read mem (ptr + (len + 1 - 1))
    if pred c then rtrimLoop pred ptr len else pure ⟨ptr, len + 1⟩

def pltrim (s : Str) (pred : UInt8 → Bool) : Traced Access Str := ltrimLoop mem pred s.ptr s.len

def prtrim (s : Str) (pred : UInt8 → Bool) : Traced Access Str := rtrimLoop mem pred s.ptr s.len

def ltrim (s : Str) : Traced Access Str := ltrimLoop mem isspace s.ptr s.len

def rtrim (s : Str) : Traced Access Str := rtrimLoop mem isspace s.ptr s.len

def ptrim (s : Str) (pred : UInt8 → Bool) : Traced Access Str := do
  let s ← pltrim mem s pred
  prtrim mem s pred

def trim (s : Str) : Traced Access Str := do
  let s ← ltrim mem s
  rtrim mem s

/-- How far the test holds, from `pos` on. -/
def spanLoop (test : UInt8 → Bool) (ptr : Nat) : Nat → Nat → Traced Access Nat
  | 0, pos => pure pos
  | n + 1, pos => do
    let c ← read mem (ptr + pos)
    if test c then spanLoop test ptr n (pos + 1) else pure pos

def spanBy (s : Str) (test : UInt8 → Bool) : Traced Access (Str × Str) := do
  let pos ← spanLoop mem test s.ptr s.len 0
  pure (s.split pos)

def span (s : Str) (p : List UInt8) : Traced Access (Str × Str) := spanBy mem s (strchr p)

def cspan (s : Str) (p : List UInt8) : Traced Access (Str × Str) :=
  spanBy mem s fun c => !strchr p c

def pspan (s : Str) (pred : UInt8 → Bool) : Traced Access (Str × Str) := spanBy mem s pred

def pcspan (s : Str) (pred : UInt8 → Bool) : Traced Access (Str × Str) :=
  spanBy mem s fun c => !pred c

/-- `strncmp`, and `strncasecmp` with the characters folded, from index `i` on. -/
def strncmp (fold : UInt8 → UInt8) (ptr : Nat) (p : Pattern) : Nat → Nat → Traced Access Int
  | 0, _ => pure 0
  | n + 1, i => do
    let a ← read mem (ptr + i)
    let b ← p.get mem i
    if fold a ≠ fold b then pure ((fold a).toNat - (fold b).toNat)
    else if a = 0 then pure 0
    else strncmp fold ptr p n (i + 1)

def cmpBy (fold : UInt8 → UInt8) (a : Str) (b : Pattern) : Traced Access Int := do
  let l := if a.len < b.len then a.len else b.len
  let r ← strncmp mem fold a.ptr b l 0
  if r ≠ 0 then pure r
  else if a.len > b.len then do
    let c ← read mem (a.ptr + b.len)
    pure (fold c).toNat
  else if b.len > a.len then do
    let c ← b.get mem a.len
    pure (-(fold c).toNat)
  else pure 0

def cmp (a : Str) (b : Pattern) : Traced Access Int := cmpBy mem id a b

def cmpi (a : Str) (b : Pattern) : Traced Access Int := cmpBy mem tolower a b

def findLoop (fold : UInt8 → UInt8) (s : Str) (p : Pattern) : Nat → Nat → Traced Access Int
  | 0, _ => pure (-1)
  | n + 1, i => do
    let r ← cmpBy mem fold ⟨s.ptr + i, p.len⟩ p
    if r = 0 then pure i else findLoop fold s p n (i + 1)

/-- `n` is one more than the offset that is tried next. -/
def rfindLoop (fold : UInt8 → UInt8) (s : Str) (p : Pattern) : Nat → Traced Access Int
  | 0 => pure (-1)
  | n + 1 => do
    let r ← cmpBy mem fold ⟨s.ptr + n, p.len⟩ p
    if r = 0 then pure n else rfindLoop fold s p n

/-- The last offset to try, which is negative when the pattern is too long. -/
def lastOffset (s : Str) (p : Pattern) : Int := asInt (usub s.len p.len)

def find (s : Str) (p : Pattern) : Traced Access Int :=
  findLoop mem id s p (lastOffset s p + 1).toNat 0

def findi (s : Str) (p : Pattern) : Traced Access Int :=
  findLoop mem tolower s p (lastOffset s p + 1).toNat 0

def rfind (s : Str) (p : Pattern) : Traced Access Int :=
  rfindLoop mem id s p (lastOffset s p + 1).toNat

def rfindi (s : Str) (p : Pattern) : Traced Access Int :=
  rfindLoop mem tolower s p (lastOffset s p + 1).toNat

def matchBy (fold : UInt8 → UInt8) (s : Str) (p : Pattern) : Traced Access Bool := do
  if p.len > s.len then pure false
  else
    let r ← strncmp mem fold s.ptr p p.len 0
    pure (r = 0)

def strMatch (s : Str) (p : Pattern) : Traced Access Bool := matchBy mem id s p

def strMatchi (s : Str) (p : Pattern) : Traced Access Bool := matchBy mem tolower s p

def matchTable (fold : UInt8 → UInt8) (s : Str) : Nat → List Pattern → Traced Access Int
  | _, [] => pure (-1)
  | i, p :: ps =>
    if p.len = 0 then pure (-1)
    else do
      let found ← matchBy mem fold s p
      if found then pure i else matchTable fold s (i + 1) ps

def matchv (s : Str) (p : List Pattern) : Traced Access Int := matchTable mem id s 0 p

def matchiv (s : Str) (p : List Pattern) : Traced Access Int := matchTable mem tolower s 0 p

def acceptBy (fold : UInt8 → UInt8) (s : Str) (p : Pattern) : Traced Access (Str × Bool) := do
  let found ← matchBy mem fold s p
  if found then pure (s.skip p.len, true) else pure (s, false)

def accept (s : Str) (p : Pattern) : Traced Access (Str × Bool) := acceptBy mem id s p

def accepti (s : Str) (p : Pattern) : Traced Access (Str × Bool) := acceptBy mem tolower s p

def acceptTable (fold : UInt8 → UInt8) (s : Str) (p : List Pattern) :
    Traced Access (Str × Int) := do
  let i ← matchTable mem fold s 0 p
  if i ≥ 0 then pure (s.skip (p.getD i.toNat (.literal [])).len, i) else pure (s, i)

def acceptv (s : Str) (p : List Pattern) : Traced Access (Str × Int) := acceptTable mem id s p

def acceptiv (s : Str) (p : List Pattern) : Traced Access (Str × Int) :=
  acceptTable mem tolower s p

/-- The loop of `str_readu64`: the rest, the value and whether there was a digit. -/
def digitsLoop (radix : Nat) : Nat → Nat → Nat → Bool → Traced Access (Str × Nat × Bool)
  | ptr, 0, value, valid => pure (⟨ptr, 0⟩, value, valid)
  | ptr, len + 1, value, valid => do
    let c ← read mem ptr
    match digitValue c with
    | none => pure (⟨ptr, len + 1⟩, value, valid)
    | some v =>
      if v ≥ radix then pure (⟨ptr, len + 1⟩, value, valid)
      else digitsLoop radix (ptr + 1) len ((value * radix + v) % 2 ^ 64) true

def readu64 (s : Str) (r : Nat) : Traced Access (Str × Nat × Bool) :=
  if r > 36 then pure (s, 0, false)
  else digitsLoop mem (if r > 0 then r else 10) s.ptr s.len 0 false

def readuMax (max : Nat) (s : Str) (r : Nat) : Traced Access (Str × Option Nat) := do
  let (s, x, valid) ← readu64 mem s r
  pure (s, if valid then if x > max then none else some x else none)

def readu8 (s : Str) (r : Nat) : Traced Access (Str × Option Nat) := readuMax mem 0xFF s r
def readu16 (s : Str) (r : Nat) : Traced Access (Str × Option Nat) := readuMax mem 0xFFFF s r
def readu32 (s : Str) (r : Nat) : Traced Access (Str × Option Nat) := readuMax mem 0xFFFFFFFF s r

/-- The sign in front of a number, and whether it is a minus. -/
def readSign (s : Str) : Traced Access (Str × Bool) := do
  let (s, minus) ← accept mem s (.literal ['-'])
  if minus then pure (s, true)
  else
    let (s, _) ← accept mem s (.literal ['+'])
    pure (s, false)

def readi64 (s : Str) (r : Nat) : Traced Access (Str × Option Int) := do
  let (s, minus) ← readSign mem s
  let (s, value, valid) ← readu64 mem s r
  pure (s, if valid then some (asInt64 (if minus then (2 ^ 64 - value) % 2 ^ 64 else value))
    else none)

def readiRange (min max : Int) (s : Str) (r : Nat) : Traced Access (Str × Option Int) := do
  let (s, x) ← readi64 mem s r
  pure (s, x.filter fun x => ¬(x < min ∨ x > max))

def readi8 (s : Str) (r : Nat) : Traced Access (Str × Option Int) :=
  readiRange mem (-2 ^ 7) (2 ^ 7 - 1) s r

def readi16 (s : Str) (r : Nat) : Traced Access (Str × Option Int) :=
  readiRange mem (-2 ^ 15) (2 ^ 15 - 1) s r

def readi32 (s : Str) (r : Nat) : Traced Access (Str × Option Int) :=
  readiRange mem (-2 ^ 31) (2 ^ 31 - 1) s r

end

/-! ## Reading into a buffer -/

def unescape (ch : UInt8) : UInt8 :=
  if ch = 'a' ∨ ch = 'A' then 7
  else if ch = 'b' ∨ ch = 'B' then 8
  else if ch = 'f' ∨ ch = 'F' then 12
  else if ch = 'n' ∨ ch = 'N' then 10
  else if ch = 'r' ∨ ch = 'R' then 13
  else if ch = 't' ∨ ch = 'T' then 9
  else if ch = 'v' ∨ ch = 'V' then 11
  else ch

/-- The memory, the rest and the number of characters stored. -/
def readstrLoop (buf cap : Nat) (delm : List UInt8) :
    (Nat → UInt8) → Nat → Nat → Bool → Nat → Traced Access ((Nat → UInt8) × Str × Nat)
  | mem, ptr, 0, _, num => pure (mem, ⟨ptr, 0⟩, num)
  | mem, ptr, len + 1, esc, num =>
    if num < cap then do
      let ch ← read mem ptr
      if esc then
        readstrLoop buf cap delm (Function.update mem (buf + num) (unescape ch)) (ptr + 1) len
          false (num + 1)
      else if ch = '\\' then readstrLoop buf cap delm mem (ptr + 1) len true num
      else if strchr delm ch then pure (mem, ⟨ptr, len + 1⟩, num)
      else
        readstrLoop buf cap delm (Function.update mem (buf + num) ch) (ptr + 1) len false (num + 1)
    else pure (mem, ⟨ptr, len + 1⟩, num)

/-- The memory, the rest and the text that was stored. -/
def readstr (mem : Nat → UInt8) (s : Str) (buf len : Nat) (delm : Option (List UInt8)) :
    Traced Access ((Nat → UInt8) × Str × Str) := do
  let delm := delm.getD [':', ';', ',', ' ', '\t', '\r', '\n']
  let (mem, rest, num) ← readstrLoop buf len delm mem s.ptr s.len false 0
  pure (mem, rest, ⟨buf, num⟩)

def readQuoted (quote : UInt8) (mem : Nat → UInt8) (s : Str) (buf len : Nat) :
    Traced Access ((Nat → UInt8) × Str × Option Str × Bool) := do
  let (mem, s, v) ← readstr mem s buf len (some [quote])
  let (s, closed) ← accept mem s (.literal [quote])
  pure (mem, s, some v, closed)

/-- No text is stored unless there is an opening quote. -/
def readqstr (mem : Nat → UInt8) (s : Str) (buf len : Nat) :
    Traced Access ((Nat → UInt8) × Str × Option Str × Bool) := do
  let (s, double) ← accept mem s (.literal ['"'])
  if double then readQuoted '"' mem s buf len
  else
    let (s, single) ← accept mem s (.literal ['\''])
    if single then readQuoted '\'' mem s buf len else pure (mem, s, none, false)

end Str

end Wifimodem
