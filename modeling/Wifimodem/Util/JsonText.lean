import Mathlib.Data.List.Forall2
import Mathlib.Data.List.ReduceOption
import Wifimodem.Util.JsonAccept

/-!
# The texts of a document

The strings, numbers and booleans of a document can be read off its characters without
its structure: nothing else has a character that one of them starts with.
-/

namespace Wifimodem

/-- A token and the text that the buffer holds with it. -/
structure JsonToken where
  code : JsonCode
  str : List UInt8
deriving DecidableEq

/-! ## The tokens of a value -/

def digitText (b : Bool) : List UInt8 := [if b then ('1' : UInt8) else ('0' : UInt8)]

mutual

/-- The codes of the tokens, with the text where one has been put in the buffer. -/
def Value.stream : Value → List (JsonCode × Option (List UInt8))
  | .null => [(.null, none)]
  | .bool b => [(.bool, some (digitText b))]
  | .number n => [(.number, some n.text)]
  | .string s => [(.string, some s.val)]
  | .array vs => (.arrayBegin, none) :: (arrayStream vs ++ [(.arrayEnd, none)])
  | .object ms => (.objectBegin, none) :: (objectStream ms ++ [(.objectEnd, none)])

def Value.arrayStream : List Value → List (JsonCode × Option (List UInt8))
  | [] => []
  | v :: vs => v.stream ++ arrayStream vs

def Value.objectStream : List (Text × Value) → List (JsonCode × Option (List UInt8))
  | [] => []
  | m :: ms => memberStream m ++ objectStream ms

def Value.memberStream : Text × Value → List (JsonCode × Option (List UInt8))
  | (key, v) => (.objectKey, none) :: (.string, some key.val) :: (.objectValue, none) :: v.stream

end

theorem Value.stream_array (vs : List Value) :
    (Value.array vs).stream = (.arrayBegin, none) :: (arrayStream vs ++ [(.arrayEnd, none)]) := rfl

theorem Value.stream_object (ms : List (Text × Value)) :
    (Value.object ms).stream = (.objectBegin, none) :: (objectStream ms ++ [(.objectEnd, none)]) :=
  rfl

theorem Value.arrayStream_cons (v : Value) (vs : List Value) :
    arrayStream (v :: vs) = v.stream ++ arrayStream vs := rfl

theorem Value.objectStream_cons (m : Text × Value) (ms : List (Text × Value)) :
    objectStream (m :: ms) = memberStream m ++ objectStream ms := rfl

/-- The token of an entry. Where the entry has no text, the buffer may hold any. -/
structure Carries (x : JsonCode × Option (List UInt8)) (tok : JsonToken) : Prop where
  code : tok.code = x.1
  str : ∀ s ∈ x.2, tok.str = s

def Spells (stream : List (JsonCode × Option (List UInt8))) (toks : List JsonToken) : Prop :=
  List.Forall₂ Carries stream toks

theorem Spells.append {s s' : List (JsonCode × Option (List UInt8))} {toks : List JsonToken}
    (h : Spells (s ++ s') toks) :
    ∃ t t', toks = t ++ t' ∧ Spells s t ∧ Spells s' t' := by
  have h : List.Forall₂ (flip Carries) toks (s ++ s') := List.Forall₂.flip h
  exact ⟨toks.take s.length, toks.drop s.length, (List.take_append_drop _ _).symm,
    (List.forall₂_take_append toks s s' h).flip, (List.forall₂_drop_append toks s s' h).flip⟩

theorem Spells.cons {x : JsonCode × Option (List UInt8)}
    {s : List (JsonCode × Option (List UInt8))} {toks : List JsonToken}
    (h : Spells (x :: s) toks) : ∃ tok t, toks = tok :: t ∧ Carries x tok ∧ Spells s t := by
  cases h with
  | cons hx hs => exact ⟨_, _, rfl, hx, hs⟩

theorem Spells.nil {toks : List JsonToken} (h : Spells [] toks) : toks = [] :=
  List.forall₂_nil_left_iff.mp h

def Value.head : Value → JsonCode
  | .null => .null
  | .bool _ => .bool
  | .number _ => .number
  | .string _ => .string
  | .array _ => .arrayBegin
  | .object _ => .objectBegin

theorem Value.stream_head (v : Value) : ∃ text rest, v.stream = (v.head, text) :: rest := by
  cases v <;> exact ⟨_, _, rfl⟩

theorem Value.head_ne (v : Value) : v.head ≠ .arrayEnd := by
  cases v <;> exact nofun

/-! ## The texts -/

/-- The state behind one more character of a number. -/
def Mode.numberNext : Mode → UInt8 → Option Mode
  | .integer, c => if isdigit c then some .integer else if c = '.' then some .fraction else none
  | .fraction, c =>
    if isdigit c then some .fraction else if c = 'e' ∨ c = 'E' then some .exponent else none
  | .exponent, c => if c = '+' ∨ c = '-' ∨ isdigit c then some .exponentDigits else none
  | .exponentDigits, c => if isdigit c then some .exponentDigits else none
  | _, _ => none

/-- What is being read: a boolean from its first letter on, a string from behind its
quote, a number. -/
inductive Reading where
  | outside
  | word (b : Bool)
  | string (token : List UInt8)
  | number (mode : Mode) (token : List UInt8)
deriving DecidableEq

namespace Reading

def opens (c : UInt8) : Reading :=
  if c = 't' then .word true
  else if c = 'f' then .word false
  else if c = '"' then .string []
  else if c = '+' ∨ c = '-' ∨ isdigit c then .number .integer [c]
  else if c = '.' then .number .fraction [c]
  else .outside

def step : Reading → UInt8 → Reading × Option (List UInt8)
  | .outside, c => (opens c, none)
  | .word b, c => if c = 'e' then (.outside, some (digitText b)) else (.word b, none)
  | .string token, c => if c = '"' then (.outside, some token) else (.string (token ++ [c]), none)
  | .number mode token, c =>
    match mode.numberNext c with
    | some mode => (.number mode (token ++ [c]), none)
    | none => (.outside, some token)

def texts (s : Reading) (w : List UInt8) : List (List UInt8) :=
  (Transducer.outputs step s w).reduceOption

/-- From `s`, the word `w` gives the texts `out` and leads to `s'`, whatever follows. -/
def Reads (s : Reading) (w : List UInt8) (out : List (List UInt8)) (s' : Reading) : Prop :=
  ∀ r, s.texts (w ++ r) = out ++ s'.texts r

namespace Reads

variable {s s' s'' : Reading} {w w' : List UInt8} {out out' : List (List UInt8)} {c : UInt8}

theorem nil (s : Reading) : Reads s [] [] s := fun _ => rfl

theorem append (h : Reads s w out s') (h' : Reads s' w' out' s'') :
    Reads s (w ++ w') (out ++ out') s'' := by
  intro r
  rw [List.append_assoc, h, h', List.append_assoc]

theorem quiet (h : s.step c = (s', none)) : Reads s [c] [] s' := by
  intro r
  rw [List.singleton_append, texts, Transducer.outputs_cons, h, List.reduceOption_cons_of_none]
  rfl

theorem text {token : List UInt8} (h : s.step c = (s', some token)) : Reads s [c] [token] s' := by
  intro r
  rw [List.singleton_append, texts, Transducer.outputs_cons, h, List.reduceOption_cons_of_some]
  rfl

theorem cons (h : s.step c = (s', none)) (h' : Reads s' w out s'') : Reads s (c :: w) out s'' :=
  (quiet h).append h'

end Reads

/-- A character that starts none of the texts. -/
def Plain (c : UInt8) : Prop := opens c = .outside

instance (c : UInt8) : Decidable (Plain c) := inferInstanceAs (Decidable (_ = _))

theorem plain_of_delimiter {c : UInt8} (h : Delimiter c) : Plain c := by
  obtain ⟨hdigit, hpoint, -, hsign⟩ := h.not_lexeme
  have hnumber : ¬(c = '+' ∨ c = '-' ∨ isdigit c = true) := by
    rintro (hc | hc | hc)
    · exact hsign (.inl hc)
    · exact hsign (.inr hc)
    · rw [hdigit] at hc
      cases hc
  have hletter : c ≠ 't' ∧ c ≠ 'f' ∧ c ≠ '"' := by
    rcases h with h | rfl | rfl | rfl
    · refine ⟨?_, ?_, ?_⟩ <;> rintro rfl <;> exact absurd h (by decide)
    all_goals decide
  rw [Plain, opens, if_neg hletter.1, if_neg hletter.2.1, if_neg hletter.2.2, if_neg hnumber,
    if_neg hpoint]

theorem reads_plain {w : List UInt8} (h : ∀ c ∈ w, Plain c) : Reads .outside w [] .outside := by
  induction w with
  | nil => exact .nil _
  | cons c w ih =>
    have hstep : step .outside c = (.outside, none) :=
      congrArg (·, none) (h c List.mem_cons_self)
    exact .cons hstep (ih (List.forall_mem_cons.mp h).2)

theorem reads_space (sp : Space) : Reads .outside sp.val [] .outside :=
  reads_plain fun c hc => plain_of_delimiter (.inl (sp.property c hc))

theorem reads_delimiter {c : UInt8} (hc : Delimiter c) : Reads .outside [c] [] .outside :=
  reads_plain (List.forall_mem_singleton.mpr (plain_of_delimiter hc))

/-! ## Strings and numbers -/

theorem reads_chars {s : List UInt8} (h : ∀ c ∈ s, c ≠ ('"' : UInt8)) (token : List UInt8) :
    Reads (.string token) s [] (.string (token ++ s)) := by
  induction s generalizing token with
  | nil =>
    rw [List.append_nil]
    exact .nil _
  | cons c s ih =>
    have hrest := ih (List.forall_mem_cons.mp h).2 (token ++ [c])
    rw [List.append_assoc] at hrest
    exact .cons (if_neg (h c List.mem_cons_self)) hrest

theorem reads_quoted (s : Text) : Reads .outside (quoted s) [s.val] .outside := by
  have hend : Reads (.string s.val) [('"' : UInt8)] [s.val] .outside := .text rfl
  exact .cons rfl ((reads_chars s.property []).append hend)

/-- The characters `w` go on with a number. -/
def GoesOn (mode : Mode) (w : List UInt8) (mode' : Mode) : Prop :=
  ∀ token, Reads (.number mode token) w [] (.number mode' (token ++ w))

namespace GoesOn

variable {mode mode' mode'' : Mode} {w w' : List UInt8} {c : UInt8}

theorem nil (mode : Mode) : GoesOn mode [] mode := by
  intro token
  rw [List.append_nil]
  exact .nil _

theorem append (h : GoesOn mode w mode') (h' : GoesOn mode' w' mode'') :
    GoesOn mode (w ++ w') mode'' := by
  intro token
  rw [← List.append_assoc]
  exact (h token).append (h' (token ++ w))

theorem cons (hc : mode.numberNext c = some mode') (h : GoesOn mode' w mode'') :
    GoesOn mode (c :: w) mode'' := by
  intro token
  have hstep : step (.number mode token) c = (.number mode' (token ++ [c]), none) := by
    rw [step, hc]
  have hrest := h (token ++ [c])
  rw [List.append_assoc] at hrest
  exact .cons hstep hrest

theorem digits (h : ∀ c, isdigit c = true → mode.numberNext c = some mode) (ds : Digits) :
    GoesOn mode ds.val mode := by
  obtain ⟨w, hw⟩ := ds
  induction w with
  | nil => exact nil _
  | cons c w ih =>
    obtain ⟨hc, hrest⟩ := List.forall_mem_cons.mp hw
    exact cons (h c hc) (ih hrest)

theorem exponent (e : Exponent) : ∃ mode, Mode.Numeric mode ∧ GoesOn .fraction e.text mode := by
  have hupper : Mode.numberNext .fraction (if e.upper then 'E' else 'e') = some .exponent := by
    cases e.upper <;> decide
  have hnext (c : UInt8) (hc : isdigit c = true) :
      Mode.numberNext .exponentDigits c = some .exponentDigits := if_pos hc
  obtain ⟨upper, sign, ds⟩ := e
  cases sign with
  | plus => exact ⟨.exponentDigits, trivial, cons hupper (cons (by decide) (digits hnext ds))⟩
  | minus => exact ⟨.exponentDigits, trivial, cons hupper (cons (by decide) (digits hnext ds))⟩
  | none =>
    obtain ⟨w, hw⟩ := ds
    cases w with
    | nil => exact ⟨.exponent, trivial, cons hupper (nil _)⟩
    | cons d w =>
      obtain ⟨hd, hrest⟩ := List.forall_mem_cons.mp hw
      have hfirst : Mode.numberNext .exponent d = some .exponentDigits := if_pos (.inr (.inr hd))
      exact ⟨.exponentDigits, trivial, cons hupper (cons hfirst (digits hnext ⟨w, hrest⟩))⟩

theorem fraction (x : Fraction) : ∃ mode, Mode.Numeric mode ∧
    GoesOn .fraction (x.digits.val ++ x.exponent.elim [] Exponent.text) mode := by
  have hnext (c : UInt8) (hc : isdigit c = true) :
      Mode.numberNext .fraction c = some .fraction := if_pos hc
  cases x.exponent with
  | none => exact ⟨.fraction, trivial, (digits hnext x.digits).append (nil _)⟩
  | some e =>
    obtain ⟨mode, hmode, he⟩ := exponent e
    exact ⟨mode, hmode, (digits hnext x.digits).append he⟩

theorem integer (ds : Digits) (x : Option Fraction) : ∃ mode, Mode.Numeric mode ∧
    GoesOn .integer (ds.val ++ x.elim [] Fraction.text) mode := by
  have hnext (c : UInt8) (hc : isdigit c = true) :
      Mode.numberNext .integer c = some .integer := if_pos hc
  cases x with
  | none => exact ⟨.integer, trivial, (digits hnext ds).append (nil _)⟩
  | some x =>
    obtain ⟨mode, hmode, hx⟩ := fraction x
    exact ⟨mode, hmode, (digits hnext ds).append (cons (by decide) hx)⟩

end GoesOn

theorem opens_of_isdigit {c : UInt8} (hc : isdigit c = true) : opens c = .number .integer [c] := by
  have hletter : c ≠ 't' ∧ c ≠ 'f' ∧ c ≠ '"' := by
    refine ⟨?_, ?_, ?_⟩ <;> rintro rfl <;> exact absurd hc (by decide)
  rw [opens, if_neg hletter.1, if_neg hletter.2.1, if_neg hletter.2.2, if_pos (.inr (.inr hc))]

/-- A number goes on behind its first character. -/
theorem reads_number {c : UInt8} {w : List UInt8} {first : Mode}
    (hc : opens c = .number first [c]) (h : ∃ mode, Mode.Numeric mode ∧ GoesOn first w mode) :
    ∃ mode, Mode.Numeric mode ∧ Reads .outside (c :: w) [] (.number mode (c :: w)) := by
  obtain ⟨mode, hmode, hw⟩ := h
  exact ⟨mode, hmode, .cons (congrArg (·, none) hc) (hw [c])⟩

theorem reads_lexeme (n : Lexeme) :
    ∃ mode, Mode.Numeric mode ∧ Reads .outside n.text [] (.number mode n.text) := by
  obtain ⟨sign, ⟨int, hint⟩, x, hne⟩ := n
  cases sign with
  | plus => exact reads_number (by decide) (GoesOn.integer ⟨int, hint⟩ x)
  | minus => exact reads_number (by decide) (GoesOn.integer ⟨int, hint⟩ x)
  | none =>
    cases int with
    | cons d ds =>
      obtain ⟨hd, hrest⟩ := List.forall_mem_cons.mp hint
      exact reads_number (opens_of_isdigit hd) (GoesOn.integer ⟨ds, hrest⟩ x)
    | nil =>
      cases x with
      | none => simp at hne
      | some x => exact reads_number (by decide) (GoesOn.fraction x)

theorem numberNext_delimiter {mode : Mode} {c : UInt8} (hc : Delimiter c) :
    mode.numberNext c = none := by
  obtain ⟨hdigit, hpoint, hexponent, hsign⟩ := hc.not_lexeme
  cases mode <;> simp_all [Mode.numberNext]

/-! ## Documents -/

def Delimited (w : List UInt8) : Prop := ∃ c r, w = c :: r ∧ Delimiter c

theorem delimited_cons {c : UInt8} (hc : Delimiter c) (r : List UInt8) : Delimited (c :: r) :=
  ⟨c, r, rfl, hc⟩

theorem Delimited.space {w : List UInt8} (h : Delimited w) (sp : Space) :
    Delimited (sp.val ++ w) := by
  obtain ⟨s, hs⟩ := sp
  cases s with
  | nil => exact h
  | cons c s => exact delimited_cons (.inl (hs c List.mem_cons_self)) _

/-- The end of a number is not a character of a text. -/
theorem texts_lexeme (n : Lexeme) {w : List UInt8} (hw : Delimited w) :
    texts .outside (n.text ++ w) = n.text :: texts .outside w := by
  obtain ⟨mode, -, hn⟩ := reads_lexeme n
  obtain ⟨c, r, rfl, hc⟩ := hw
  have hclose : Reads (.number mode n.text) [c] [n.text] .outside := by
    apply Reads.text
    rw [step, numberNext_delimiter hc]
  have hnumber := hclose r
  have hskip := reads_delimiter hc r
  rw [List.singleton_append] at hnumber hskip
  rw [hn, hnumber, hskip]
  rfl

end Reading

/-- The texts of the tokens, in their order. -/
def streamTexts (stream : List (JsonCode × Option (List UInt8))) : List (List UInt8) :=
  (stream.map Prod.snd).reduceOption

@[simp] theorem streamTexts_nil : streamTexts [] = [] := rfl

@[simp] theorem streamTexts_none (code : JsonCode)
    (stream : List (JsonCode × Option (List UInt8))) :
    streamTexts ((code, none) :: stream) = streamTexts stream := rfl

@[simp] theorem streamTexts_some (code : JsonCode) (text : List UInt8)
    (stream : List (JsonCode × Option (List UInt8))) :
    streamTexts ((code, some text) :: stream) = text :: streamTexts stream := rfl

@[simp] theorem streamTexts_append (stream stream' : List (JsonCode × Option (List UInt8))) :
    streamTexts (stream ++ stream') = streamTexts stream ++ streamTexts stream' := by
  rw [streamTexts, List.map_append, List.reduceOption_append]
  rfl

namespace Reading

theorem texts_plain {u : List UInt8} (h : ∀ c ∈ u, Plain c) (w : List UInt8) :
    texts .outside (u ++ w) = texts .outside w := reads_plain h w

theorem texts_space (sp : Space) (w : List UInt8) :
    texts .outside (sp.val ++ w) = texts .outside w := reads_space sp w

theorem texts_cons {c : UInt8} (hc : Plain c) (w : List UInt8) :
    texts .outside (c :: w) = texts .outside w := texts_plain (List.forall_mem_singleton.mpr hc) w

theorem texts_quoted (s : Text) (w : List UInt8) :
    texts .outside (quoted s ++ w) = s.val :: texts .outside w := reads_quoted s w

theorem texts_key (k : Key) (w : List UInt8) :
    texts .outside (k.text ++ w) = k.name.val :: texts .outside w := by
  rw [Key.text, List.append_assoc, texts_space, List.append_assoc, texts_quoted, List.append_assoc,
    texts_space, List.cons_append, texts_cons (by decide), texts_space]

theorem texts_bool (b : Bool) (w : List UInt8) :
    texts .outside (boolText b ++ w) = digitText b :: texts .outside w := by
  cases b <;> rfl

/-- What stands behind the last element: blanks, perhaps a comma, and the bracket. -/
theorem texts_last (after : Space) (comma : Bool) {c : UInt8} (hc : Delimiter c) (w : List UInt8) :
    Delimited (after.val ++ (commaText comma ++ c :: w)) ∧
      texts .outside (after.val ++ (commaText comma ++ c :: w)) = texts .outside w := by
  have hclose := texts_cons (plain_of_delimiter hc) w
  cases comma with
  | false => exact ⟨(delimited_cons hc w).space after, (texts_space after _).trans hclose⟩
  | true =>
    have hcomma : texts .outside (',' :: c :: w) = texts .outside w :=
      (texts_cons (by decide) _).trans hclose
    exact ⟨(delimited_cons (.inr (.inl rfl)) (c :: w)).space after,
      (texts_space after _).trans hcomma⟩

/-- What stands between two elements. -/
theorem texts_between (after : Space) (w : List UInt8) :
    Delimited (after.val ++ (',' : UInt8) :: w) ∧
      texts .outside (after.val ++ (',' : UInt8) :: w) = texts .outside w :=
  ⟨(delimited_cons (.inr (.inl rfl)) w).space after,
    (texts_space after _).trans (texts_cons (by decide) w)⟩

mutual

theorem texts_doc (d : Doc) {w : List UInt8} (hw : d.isNumber = true → Delimited w) :
    texts .outside (d.text ++ w) = streamTexts d.value.stream ++ texts .outside w := by
  cases d with
  | null => exact texts_plain (by decide +kernel) w
  | bool b => exact texts_bool b w
  | number n => exact texts_lexeme n (hw rfl)
  | string s => exact texts_quoted s w
  | emptyArray inside =>
    rw [Doc.text, List.cons_append, texts_cons (by decide), List.append_assoc, texts_space,
      List.singleton_append, texts_cons (by decide)]
    rfl
  | array items =>
    rw [Doc.text, List.cons_append, texts_cons (by decide), List.append_assoc,
      List.singleton_append, texts_items items w, Doc.value, Value.stream]
    simp
  | emptyObject inside =>
    rw [Doc.text, List.cons_append, texts_cons (by decide), List.append_assoc, texts_space,
      List.singleton_append, texts_cons (by decide)]
    rfl
  | object members =>
    rw [Doc.text, List.cons_append, texts_cons (by decide), List.append_assoc,
      List.singleton_append, texts_members members w, Doc.value, Value.stream]
    simp

theorem texts_items (items : Items) (w : List UInt8) :
    texts .outside (items.text ++ (']' : UInt8) :: w) =
      streamTexts (Value.arrayStream items.values) ++ texts .outside w := by
  cases items with
  | last before d after comma =>
    obtain ⟨hdelimited, hlast⟩ := texts_last after comma (.inr (.inr (.inl rfl))) w
    rw [Items.text, List.append_assoc, texts_space, List.append_assoc, List.append_assoc,
      texts_doc d fun _ => hdelimited, hlast, Items.values]
    simp [Value.arrayStream]
  | cons before d after rest =>
    obtain ⟨hdelimited, hbetween⟩ := texts_between after (rest.text ++ (']' : UInt8) :: w)
    rw [Items.text, List.append_assoc, texts_space, List.append_assoc, List.append_assoc,
      List.cons_append, texts_doc d fun _ => hdelimited, hbetween, texts_items rest w, Items.values]
    simp [Value.arrayStream]

theorem texts_members (members : Members) (w : List UInt8) :
    texts .outside (members.text ++ ('}' : UInt8) :: w) =
      streamTexts (Value.objectStream members.values) ++ texts .outside w := by
  cases members with
  | last key d after comma =>
    obtain ⟨hdelimited, hlast⟩ := texts_last after comma (.inr (.inr (.inr rfl))) w
    rw [Members.text, List.append_assoc, texts_key, List.append_assoc, List.append_assoc,
      texts_doc d fun _ => hdelimited, hlast, Members.values]
    simp [Value.objectStream, Value.memberStream]
  | cons key d after rest =>
    obtain ⟨hdelimited, hbetween⟩ := texts_between after (rest.text ++ ('}' : UInt8) :: w)
    rw [Members.text, List.append_assoc, texts_key, List.append_assoc, List.append_assoc,
      List.cons_append, texts_doc d fun _ => hdelimited, hbetween, texts_members rest w,
      Members.values]
    simp [Value.objectStream, Value.memberStream]

end

end Reading

end Wifimodem
