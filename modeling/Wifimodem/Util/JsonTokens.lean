import Wifimodem.Util.JsonGrammar
import Wifimodem.Util.JsonMachine

/-!
# The tokens a document delivers

Feeding a layout to the stack machine delivers the canonical tokens of its
value, less one token for each number that is followed directly by a closing
bracket.
-/

namespace Wifimodem

/-- The codes other than `ok`, up to the first `done`. -/
def delivered : List JsonCode → List JsonCode
  | [] => []
  | .done :: _ => []
  | .ok :: codes => delivered codes
  | code :: codes => code :: delivered codes

theorem delivered_token {code : JsonCode} (hdone : code ≠ .done) (hok : code ≠ .ok)
    (codes : List JsonCode) : delivered (code :: codes) = code :: delivered codes := by
  cases code <;> first | rfl | contradiction

open Control

/-- The machine stops with `done` exactly at the end of the word. -/
def Ends : Control → List UInt8 → Prop
  | .halted code, w => code = .done ∧ w = []
  | .running _ _, [] => False
  | .running mode stack, c :: w => Ends (step (.running mode stack) c).1 w

theorem ends_halted {code : JsonCode} {w : List UInt8} :
    Ends (.halted code) w ↔ code = .done ∧ w = [] := by
  cases w <;> rfl

theorem ends_cons {a b : Control} {ch : UInt8} {code : JsonCode} (h : step a ch = (b, code))
    (hdone : code ≠ .done) {r : List UInt8} (hr : Ends b r) : Ends a (ch :: r) := by
  cases a with
  | halted code' =>
    obtain ⟨rfl, rfl⟩ := Prod.mk.inj h
    exact absurd (ends_halted.mp hr).1 hdone
  | running mode stack =>
    rw [Ends]
    rwa [h]

/-- From `a`, the word `w` delivers `toks` and leads to `b`, whatever follows. -/
def Feeds (a : Control) (w : List UInt8) (toks : List JsonCode) (b : Control) : Prop :=
  ∀ r, Transducer.run step a (w ++ r) = Transducer.run step b r ∧
    delivered (Transducer.outputs step a (w ++ r)) =
      toks ++ delivered (Transducer.outputs step b r) ∧ (Ends b r → Ends a (w ++ r))

namespace Feeds

variable {a b c : Control}

theorem nil (a : Control) : Feeds a [] [] a := fun _ => ⟨rfl, rfl, id⟩

theorem append {w w' : List UInt8} {toks toks' : List JsonCode} (h : Feeds a w toks b)
    (h' : Feeds b w' toks' c) : Feeds a (w ++ w') (toks ++ toks') c := by
  intro r
  obtain ⟨hrun, htoks, hends⟩ := h (w' ++ r)
  obtain ⟨hrun', htoks', hends'⟩ := h' r
  rw [List.append_assoc, hrun, hrun', htoks, htoks', List.append_assoc]
  exact ⟨rfl, rfl, fun hr => hends (hends' hr)⟩

theorem quiet {ch : UInt8} (h : step a ch = (b, .ok)) : Feeds a [ch] [] b := by
  intro r
  have hends := @ends_cons _ _ _ _ h (by decide) r
  rw [List.singleton_append, Transducer.run_cons, Transducer.outputs_cons, h]
  exact ⟨rfl, rfl, hends⟩

theorem token {ch : UInt8} {code : JsonCode} (h : step a ch = (b, code)) (hdone : code ≠ .done)
    (hok : code ≠ .ok) : Feeds a [ch] [code] b := by
  intro r
  have hends := @ends_cons _ _ _ _ h hdone r
  rw [List.singleton_append, Transducer.run_cons, Transducer.outputs_cons, h,
    delivered_token hdone hok]
  exact ⟨rfl, rfl, hends⟩

theorem cons {ch : UInt8} {w : List UInt8} {toks : List JsonCode} (h : step a ch = (b, .ok))
    (h' : Feeds b w toks c) : Feeds a (ch :: w) toks c := (quiet h).append h'

theorem consToken {ch : UInt8} {code : JsonCode} {w : List UInt8} {toks : List JsonCode}
    (h : step a ch = (b, code)) (hdone : code ≠ .done) (hok : code ≠ .ok)
    (h' : Feeds b w toks c) : Feeds a (ch :: w) (code :: toks) c :=
  (token h hdone hok).append h'

theorem stay {w : List UInt8} (h : ∀ ch ∈ w, step a ch = (a, .ok)) : Feeds a w [] a := by
  induction w with
  | nil => exact nil a
  | cons ch w ih =>
    exact cons (h ch List.mem_cons_self) (ih (List.forall_mem_cons.mp h).2)

end Feeds

/-! ## White space -/

def Mode.Skips : Mode → Prop
  | value | arrayOpen | arrayDone | objectOpen | objectKey | keyDone | memberDone => True
  | _ => False

theorem step_space (mode : Mode) (hmode : mode.Skips) (stack : List Frame) {ch : UInt8}
    (hch : isspace ch = true) :
    step (.running mode stack) ch = (.running mode stack, .ok) := by
  cases mode <;> first | exact hmode.elim | exact if_pos hch

theorem feeds_space (mode : Mode) (hmode : mode.Skips) (stack : List Frame) (sp : Space) :
    Feeds (.running mode stack) sp.val [] (.running mode stack) :=
  Feeds.stay fun ch hch => step_space mode hmode stack (sp.property ch hch)

/-! ## Numbers -/

def Mode.Numeric : Mode → Prop
  | integer | fraction | exponent | exponentDigits => True
  | _ => False

def Delimiter (ch : UInt8) : Prop := isspace ch = true ∨ ch = ',' ∨ ch = ']' ∨ ch = '}'

theorem Delimiter.not_lexeme {ch : UInt8} (h : Delimiter ch) :
    isdigit ch = false ∧ ch ≠ '.' ∧ ¬(ch = 'e' ∨ ch = 'E') ∧ ¬(ch = '+' ∨ ch = '-') := by
  rcases h with h | rfl | rfl | rfl
  · refine ⟨isdigit_of_isspace h, ?_, ?_, ?_⟩
    · rintro rfl
      exact absurd h (by decide)
    · rintro (rfl | rfl) <;> exact absurd h (by decide)
    · rintro (rfl | rfl) <;> exact absurd h (by decide)
  all_goals decide

theorem step_delimiter {mode : Mode} (hmode : mode.Numeric) (stack : List Frame) {ch : UInt8}
    (hch : Delimiter ch) : step (.running mode stack) ch = numberEnd stack ch := by
  obtain ⟨hdigit, hpoint, hexp, hsign⟩ := hch.not_lexeme
  have hdigit : ¬isdigit ch = true := by rw [hdigit]; decide
  cases mode with
  | integer => exact (if_neg hdigit).trans (if_neg hpoint)
  | fraction => exact (if_neg hdigit).trans (if_neg hexp)
  | exponent => exact (if_neg hsign).trans (if_neg hdigit)
  | exponentDigits => exact if_neg hdigit
  | _ => exact hmode.elim

theorem step_value_digit (stack : List Frame) {ch : UInt8} (h : isdigit ch = true) :
    step (.running .value stack) ch = (.running .integer stack, .ok) := by
  have hspace : ¬isspace ch = true := by rw [isspace_of_isdigit h]; decide
  have hne : ∀ c : UInt8, isdigit c = false → ch ≠ c := by
    rintro c hc rfl
    exact absurd (h.symm.trans hc) (by decide)
  have hsign : ¬(ch = '+' ∨ ch = '-') := by
    rintro (rfl | rfl) <;> exact absurd h (by decide)
  simp only [step, stepMode, value]
  rw [if_neg hspace, if_neg (hne _ (by decide)), if_neg (hne _ (by decide)),
    if_neg (hne _ (by decide)), if_neg (hne _ (by decide)), if_neg (hne _ (by decide)),
    if_neg (hne _ (by decide)), if_neg hsign, if_pos h]
  rfl

section
variable (stack : List Frame)

theorem feeds_digits (mode : Mode) (h : ∀ ch, isdigit ch = true →
    step (.running mode stack) ch = (.running mode stack, .ok)) (ds : Digits) :
    Feeds (.running mode stack) ds.val [] (.running mode stack) :=
  Feeds.stay fun ch hch => h ch (ds.property ch hch)

theorem feeds_exponentDigits (ds : Digits) :
    Feeds (.running .exponentDigits stack) ds.val [] (.running .exponentDigits stack) :=
  feeds_digits stack .exponentDigits (fun _ h => if_pos h) ds

theorem feeds_exponent (e : Exponent) :
    ∃ mode, Mode.Numeric mode ∧
      Feeds (.running .fraction stack) e.text [] (.running mode stack) := by
  have hmarker : step (.running .fraction stack) (if e.upper then 'E' else 'e') =
      (.running .exponent stack, .ok) := by
    cases e.upper <;> rfl
  suffices h : ∃ mode, Mode.Numeric mode ∧ Feeds (.running .exponent stack)
      (e.sign.text ++ e.digits.val) [] (.running mode stack) by
    obtain ⟨mode, hmode, hfeeds⟩ := h
    exact ⟨mode, hmode, Feeds.cons hmarker hfeeds⟩
  cases e.sign with
  | plus => exact ⟨.exponentDigits, trivial, Feeds.cons rfl (feeds_exponentDigits stack e.digits)⟩
  | minus => exact ⟨.exponentDigits, trivial, Feeds.cons rfl (feeds_exponentDigits stack e.digits)⟩
  | none =>
    obtain ⟨ds, hds⟩ := e.digits
    cases ds with
    | nil => exact ⟨.exponent, trivial, Feeds.nil _⟩
    | cons d ds =>
      have hd : isdigit d = true := hds d List.mem_cons_self
      have hsign : ¬(d = '+' ∨ d = '-') := by
        rintro (rfl | rfl) <;> exact absurd hd (by decide)
      have hstep : step (.running .exponent stack) d = (.running .exponentDigits stack, .ok) :=
        (if_neg hsign).trans (if_pos hd)
      exact ⟨.exponentDigits, trivial, Feeds.cons hstep (feeds_exponentDigits stack
        ⟨ds, (List.forall_mem_cons.mp hds).2⟩)⟩

theorem feeds_fraction (x : Fraction) {a : Control}
    (ha : step a '.' = (.running .fraction stack, .ok)) :
    ∃ mode, Mode.Numeric mode ∧ Feeds a x.text [] (.running mode stack) := by
  have hdigits := feeds_digits stack .fraction (fun _ h => if_pos h) x.digits
  rw [Fraction.text]
  cases x.exponent with
  | none => exact ⟨.fraction, trivial, Feeds.cons ha (hdigits.append (Feeds.nil _))⟩
  | some e =>
    obtain ⟨mode, hmode, hfeeds⟩ := feeds_exponent stack e
    exact ⟨mode, hmode, Feeds.cons ha (hdigits.append hfeeds)⟩

theorem feeds_integer (int : Digits) (fraction : Option Fraction) :
    ∃ mode, Mode.Numeric mode ∧ Feeds (.running .integer stack)
      (int.val ++ fraction.elim [] Fraction.text) [] (.running mode stack) := by
  have hdigits := feeds_digits stack .integer (fun _ h => if_pos h) int
  cases fraction with
  | none => exact ⟨.integer, trivial, hdigits.append (Feeds.nil _)⟩
  | some x =>
    obtain ⟨mode, hmode, hfeeds⟩ := feeds_fraction stack x (a := .running .integer stack) rfl
    exact ⟨mode, hmode, hdigits.append hfeeds⟩

theorem feeds_lexeme (n : Lexeme) :
    ∃ mode, Mode.Numeric mode ∧
      Feeds (.running .value stack) n.text [] (.running mode stack) := by
  obtain ⟨sign, ⟨int, hint⟩, fraction, hne⟩ := n
  cases sign with
  | plus =>
    obtain ⟨mode, hmode, hfeeds⟩ := feeds_integer stack ⟨int, hint⟩ fraction
    exact ⟨mode, hmode, Feeds.cons rfl hfeeds⟩
  | minus =>
    obtain ⟨mode, hmode, hfeeds⟩ := feeds_integer stack ⟨int, hint⟩ fraction
    exact ⟨mode, hmode, Feeds.cons rfl hfeeds⟩
  | none =>
    cases int with
    | cons d ds =>
      obtain ⟨mode, hmode, hfeeds⟩ := feeds_integer stack
        ⟨ds, (List.forall_mem_cons.mp hint).2⟩ fraction
      exact ⟨mode, hmode, Feeds.cons (step_value_digit stack (hint d List.mem_cons_self)) hfeeds⟩
    | nil =>
      cases fraction with
      | none => simp at hne
      | some x => exact feeds_fraction stack x rfl

end

/-! ## The end of a nested value -/

/-- What the layout of a value leaves undelivered until the next character. -/
def Doc.pending (d : Doc) : List JsonCode := if d.isNumber then [.number] else []

/-- The machine has read all of `d`: a number still waits for its end, any
other value has returned to the frame below. -/
def Doc.Settled (d : Doc) (stack : List Frame) (a : Control) : Prop :=
  if d.isNumber then ∃ mode, Mode.Numeric mode ∧ a = .running mode stack else a = leave stack

theorem step_settled {d : Doc} {frame : Frame} {stack : List Frame} {a : Control}
    (ha : d.Settled (frame :: stack) a) {ch : UInt8} (hch : Delimiter ch) :
    step a ch = ((after frame stack ch).1,
      if d.isNumber then .number else (after frame stack ch).2) := by
  rw [Doc.Settled] at ha
  cases hd : d.isNumber with
  | true =>
    rw [hd, if_pos rfl] at ha
    obtain ⟨mode, hmode, rfl⟩ := ha
    rw [step_delimiter hmode _ hch]
    rfl
  | false =>
    rw [hd, if_neg (by decide)] at ha
    subst ha
    rw [leave, step, stepMode_mode]
    rfl

inductive Container where
  | array | object

namespace Container

def frame : Container → Frame
  | array => .element
  | object => .member

def next : Container → Mode
  | array => .arrayNext
  | object => .objectNext

def close : Container → UInt8
  | array => ']'
  | object => '}'

def endCode : Container → JsonCode
  | array => .arrayEnd
  | object => .objectEnd

end Container

section
variable (k : Container) {d : Doc} {stack : List Frame} {a b : Control}

theorem after_comma : after k.frame stack ',' = (.running k.next stack, .ok) := by
  cases k <;> rfl

theorem after_close : after k.frame stack k.close = (leave stack, k.endCode) := by
  cases k <;> rfl

theorem after_space {ch : UInt8} (h : isspace ch = true) :
    after k.frame stack ch = (.running k.frame.mode stack, .ok) := by
  cases k <;> exact if_pos h

theorem skips_frame : k.frame.mode.Skips := by
  cases k <;> trivial

theorem close_delimiter : Delimiter k.close := by
  cases k
  · exact .inr (.inr (.inl rfl))
  · exact .inr (.inr (.inr rfl))

theorem feeds_settled (ha : d.Settled (k.frame :: stack) a) {ch : UInt8} (hch : Delimiter ch)
    (hafter : after k.frame stack ch = (b, .ok)) : Feeds a [ch] d.pending b := by
  have hstep := step_settled ha hch
  rw [hafter] at hstep
  rw [Doc.pending]
  cases hd : d.isNumber with
  | true =>
    rw [hd, if_pos rfl] at hstep
    exact Feeds.token hstep (by decide) (by decide)
  | false =>
    rw [hd, if_neg (by decide)] at hstep
    exact Feeds.quiet hstep

theorem feeds_comma (ha : d.Settled (k.frame :: stack) a) (sp : Space) :
    Feeds a (sp.val ++ [(',' : UInt8)]) d.pending (.running k.next stack) := by
  obtain ⟨w, hw⟩ := sp
  cases w with
  | nil => exact feeds_settled k ha (.inr (.inl rfl)) (after_comma k)
  | cons ch w =>
    have hch := hw ch List.mem_cons_self
    have hskip := feeds_space _ (skips_frame k) stack
      ⟨w, (List.forall_mem_cons.mp hw).2⟩
    have hcomma : step (.running k.frame.mode stack) ',' = (.running k.next stack, .ok) := by
      cases k <;> rfl
    have h := (feeds_settled k ha (.inl hch) (after_space k hch)).append
      (hskip.append (Feeds.quiet hcomma))
    rwa [List.nil_append, List.append_nil] at h

theorem feeds_close (ha : d.Settled (k.frame :: stack) a) (sp : Space) :
    Feeds a (sp.val ++ [k.close])
      (d.pending ++ if d.isNumber && sp.val.isEmpty then [] else [k.endCode]) (leave stack) := by
  obtain ⟨w, hw⟩ := sp
  have hend : k.endCode ≠ .done ∧ k.endCode ≠ .ok := by cases k <;> decide
  cases w with
  | nil =>
    have hstep := step_settled ha (close_delimiter k)
    rw [after_close] at hstep
    rw [Doc.pending]
    cases hd : d.isNumber with
    | true =>
      rw [hd, if_pos rfl] at hstep
      exact Feeds.token hstep (by decide) (by decide)
    | false =>
      rw [hd, if_neg (by decide)] at hstep
      exact Feeds.token hstep hend.1 hend.2
  | cons ch w =>
    have hch := hw ch List.mem_cons_self
    have hskip := feeds_space _ (skips_frame k) stack
      ⟨w, (List.forall_mem_cons.mp hw).2⟩
    have hclose : step (.running k.frame.mode stack) k.close = (leave stack, k.endCode) := by
      cases k <;> rfl
    have h := (feeds_settled k ha (.inl hch) (after_space k hch)).append
      (hskip.append (Feeds.token hclose hend.1 hend.2))
    simpa only [List.isEmpty_cons, Bool.and_false, Bool.false_eq_true, if_false,
      List.nil_append, List.cons_append] using h

end

/-! ## Documents -/

mutual

/-- The codes delivered by the text of a layout. A number delivers its code only
with the character after it; the closing bracket directly after one is lost. -/
def Doc.heard : Doc → List JsonCode
  | .null => [.null]
  | .bool _ => [.bool]
  | .number _ => []
  | .string _ => [.string]
  | .emptyArray _ => [.arrayBegin, .arrayEnd]
  | .array items => .arrayBegin :: items.heard
  | .emptyObject _ => [.objectBegin, .objectEnd]
  | .object members => .objectBegin :: members.heard

def Items.heard : Items → List JsonCode
  | .last _ d after comma =>
    d.heard ++ (d.pending ++
      if d.isNumber && (after.val.isEmpty && !comma) then [] else [.arrayEnd])
  | .cons _ d _ rest => d.heard ++ (d.pending ++ rest.heard)

def Members.heard : Members → List JsonCode
  | .last _ d after comma =>
    .objectKey :: .string :: .objectValue :: (d.heard ++ (d.pending ++
      if d.isNumber && (after.val.isEmpty && !comma) then [] else [.objectEnd]))
  | .cons _ d _ rest =>
    .objectKey :: .string :: .objectValue :: (d.heard ++ (d.pending ++ rest.heard))

end

theorem Value.depth_pos (v : Value) : 1 ≤ v.depth := by
  cases v <;> simp [Value.depth]

/-- The text of a value starts with a character that is neither white space
nor a closing bracket. -/
def Opens (w : List UInt8) : Prop :=
  ∃ ch rest, w = ch :: rest ∧ isspace ch = false ∧ ch ≠ ']' ∧ ch ≠ '}'

theorem Lexeme.opens (n : Lexeme) : Opens n.text := by
  obtain ⟨sign, ⟨int, hint⟩, fraction, hne⟩ := n
  cases sign with
  | plus => exact ⟨_, _, rfl, by decide⟩
  | minus => exact ⟨_, _, rfl, by decide⟩
  | none =>
    cases int with
    | cons d ds =>
      have hd := hint d List.mem_cons_self
      refine ⟨d, _, rfl, isspace_of_isdigit hd, ?_, ?_⟩
      · rintro rfl
        exact absurd hd (by decide)
      · rintro rfl
        exact absurd hd (by decide)
    | nil =>
      cases fraction with
      | none => simp at hne
      | some x => exact ⟨_, _, rfl, by decide⟩

theorem Doc.opens (d : Doc) : Opens d.text := by
  cases d with
  | number n => exact n.opens
  | bool b => cases b <;> exact ⟨_, _, rfl, by decide⟩
  | _ => exact ⟨_, _, rfl, by decide⟩

theorem Opens.append {w : List UInt8} (h : Opens w) (w' : List UInt8) : Opens (w ++ w') := by
  obtain ⟨ch, rest, rfl, hch⟩ := h
  exact ⟨ch, rest ++ w', rfl, hch⟩

section
variable {stack : List Frame} {w : List UInt8} {toks : List JsonCode} {a b : Control}

theorem Feeds.congr_head {mode mode' : Mode} {stack' : List Frame} {ch : UInt8}
    (hstep : step (.running mode stack) ch = step (.running mode' stack') ch)
    (h : Feeds (.running mode' stack') (ch :: w) toks b) :
    Feeds (.running mode stack) (ch :: w) toks b := by
  intro r
  have hr := h r
  simp only [List.cons_append, Transducer.run_cons, Transducer.outputs_cons, Ends] at hr ⊢
  rw [hstep]
  exact hr

theorem step_nested (frame : Frame) (hroom : stack.length < jsonStackSize) (ch : UInt8) :
    nested frame stack ch = step (.running .value (frame :: stack)) ch := if_pos hroom

theorem feeds_element (hroom : stack.length < jsonStackSize) (sp : Space) (hw : Opens w)
    (ha : a = .running .arrayOpen stack ∨ a = .running .arrayNext stack)
    (h : Feeds (.running .value (.element :: stack)) w toks b) :
    Feeds a (sp.val ++ w) toks b := by
  obtain ⟨ch, rest, rfl, hspace, hclose, _⟩ := hw
  have hnext : ∀ c : UInt8, c ≠ ']' →
      step (.running .arrayNext stack) c = step (.running .value (.element :: stack)) c :=
    fun c hc => (if_neg hc).trans (step_nested .element hroom c)
  rcases ha with rfl | rfl
  · have hopen : step (.running .arrayOpen stack) ch = step (.running .arrayNext stack) ch :=
      if_neg (by rw [hspace]; decide)
    exact (feeds_space .arrayOpen trivial stack sp).append
      (h.congr_head (hopen.trans (hnext ch hclose)))
  · obtain ⟨s, hs⟩ := sp
    cases s with
    | nil => exact h.congr_head (hnext ch hclose)
    | cons c s =>
      have hc := hs c List.mem_cons_self
      have hne : c ≠ ']' := by
        rintro rfl
        exact absurd hc (by decide)
      have hstep := (hnext c hne).trans (step_space .value trivial _ hc)
      exact Feeds.cons hstep ((feeds_space .value trivial _
        ⟨s, (List.forall_mem_cons.mp hs).2⟩).append h)

/-- Up to the opening quote of a key, which is read in a new frame. -/
theorem feeds_key_open (hroom : stack.length < jsonStackSize) (sp : Space)
    (ha : a = .running .objectOpen stack ∨ a = .running .objectNext stack) :
    Feeds a (sp.val ++ [('"' : UInt8)]) [.objectKey] (.running .string (.key :: stack)) := by
  have hnested : (nested .key stack '"').1 = .running .string (.key :: stack) := by
    rw [step_nested .key hroom]
    rfl
  have hstep : ∀ mode, mode = .objectOpen ∨ mode = .objectNext ∨ mode = .objectKey →
      step (.running mode stack) '"' = (.running .string (.key :: stack), .objectKey) := by
    rintro mode (rfl | rfl | rfl) <;> exact congrArg (·, JsonCode.objectKey) hnested
  obtain ⟨s, hs⟩ := sp
  rcases ha with rfl | rfl
  · apply (feeds_space .objectOpen trivial stack ⟨s, hs⟩).append
    exact Feeds.token (hstep _ (.inl rfl)) (by decide) (by decide)
  · cases s with
    | nil => exact Feeds.token (hstep _ (.inr (.inl rfl))) (by decide) (by decide)
    | cons c s =>
      have hc := hs c List.mem_cons_self
      have hne : c ≠ '}' := by
        rintro rfl
        exact absurd hc (by decide)
      have hskip : step (.running .objectNext stack) c = (.running .objectKey stack, .ok) :=
        (if_neg hne).trans (if_pos hc)
      have hrest := feeds_space .objectKey trivial stack ⟨s, (List.forall_mem_cons.mp hs).2⟩
      apply Feeds.cons hskip
      exact hrest.append (Feeds.token (hstep _ (.inr (.inr rfl))) (by decide) (by decide))

/-- The white space in front of a member's value is skipped in the value's frame. -/
theorem feeds_member_value (hroom : stack.length < jsonStackSize) (sp : Space) (hw : Opens w)
    (h : Feeds (.running .value (.member :: stack)) w toks b) :
    Feeds (.running .objectValue stack) (sp.val ++ w) toks b := by
  have hspace := (feeds_space .value trivial (.member :: stack) sp).append h
  cases hsp : sp.val ++ w with
  | nil =>
    obtain ⟨ch, rest, rfl, _⟩ := hw
    simp at hsp
  | cons ch rest =>
    rw [hsp] at hspace
    have hhead : step (.running .objectValue stack) ch =
        step (.running .value (.member :: stack)) ch := step_nested .member hroom ch
    exact hspace.congr_head hhead

theorem feeds_key (hroom : stack.length < jsonStackSize) (k : Key) (hw : Opens w)
    (ha : a = .running .objectOpen stack ∨ a = .running .objectNext stack)
    (h : Feeds (.running .value (.member :: stack)) w toks b) :
    Feeds a (k.text ++ w) (.objectKey :: .string :: .objectValue :: toks) b := by
  have hquote := feeds_key_open hroom k.before ha
  have hname : Feeds (.running .string (.key :: stack)) k.name.val []
      (.running .string (.key :: stack)) :=
    Feeds.stay fun ch hch => if_neg (k.name.property ch hch)
  have hend : Feeds (.running .string (.key :: stack)) [('"' : UInt8)] [.string]
      (.running .keyDone stack) := Feeds.token rfl (by decide) (by decide)
  have hcolon : Feeds (.running .keyDone stack) (k.beforeColon.val ++ [(':' : UInt8)])
      [.objectValue] (.running .objectValue stack) :=
    (feeds_space .keyDone trivial stack k.beforeColon).append
      (Feeds.token rfl (by decide) (by decide))
  have hvalue := feeds_member_value hroom k.afterColon hw h
  have hall := hquote.append (hname.append (hend.append (hcolon.append hvalue)))
  simpa only [Key.text, quoted, List.append_assoc, List.cons_append, List.nil_append] using hall

end

theorem feeds_string (stack : List Frame) (s : Text) :
    Feeds (.running .value stack) (quoted s) [.string] (leave stack) := by
  have hname : Feeds (.running .string stack) s.val [] (.running .string stack) :=
    Feeds.stay fun ch hch => if_neg (s.property ch hch)
  exact Feeds.cons rfl (hname.append (Feeds.token rfl (by decide) (by decide)))

mutual

theorem feeds_doc (d : Doc) (stack : List Frame)
    (hdepth : stack.length + d.value.depth ≤ jsonStackSize + 1) :
    ∃ a, d.Settled stack a ∧ Feeds (.running .value stack) d.text d.heard a := by
  cases d with
  | null =>
    exact ⟨_, rfl, Feeds.cons rfl (Feeds.cons rfl (Feeds.cons rfl
      (Feeds.token rfl (by decide) (by decide))))⟩
  | bool b =>
    cases b with
    | true =>
      exact ⟨_, rfl, Feeds.cons rfl (Feeds.cons rfl (Feeds.cons rfl
        (Feeds.token rfl (by decide) (by decide))))⟩
    | false =>
      exact ⟨_, rfl, Feeds.cons rfl (Feeds.cons rfl (Feeds.cons rfl (Feeds.cons rfl
        (Feeds.token rfl (by decide) (by decide)))))⟩
  | number n =>
    obtain ⟨mode, hmode, hfeeds⟩ := feeds_lexeme stack n
    exact ⟨_, ⟨mode, hmode, rfl⟩, hfeeds⟩
  | string s => exact ⟨_, rfl, feeds_string stack s⟩
  | emptyArray inside =>
    exact ⟨_, rfl, Feeds.consToken rfl (by decide) (by decide)
      ((feeds_space .arrayOpen trivial stack inside).append
        (Feeds.token rfl (by decide) (by decide)))⟩
  | array items =>
    have hitems := feeds_items items stack _ (.inl rfl)
      (by simp only [Doc.value, Value.depth] at hdepth; omega)
    exact ⟨_, rfl, Feeds.consToken rfl (by decide) (by decide) hitems⟩
  | emptyObject inside =>
    exact ⟨_, rfl, Feeds.consToken rfl (by decide) (by decide)
      ((feeds_space .objectOpen trivial stack inside).append
        (Feeds.token rfl (by decide) (by decide)))⟩
  | object members =>
    have hmembers := feeds_members members stack _ (.inl rfl)
      (by simp only [Doc.value, Value.depth] at hdepth; omega)
    exact ⟨_, rfl, Feeds.consToken rfl (by decide) (by decide) hmembers⟩

theorem feeds_items (items : Items) (stack : List Frame) (a : Control)
    (ha : a = .running .arrayOpen stack ∨ a = .running .arrayNext stack)
    (hdepth : stack.length + Value.arrayDepth items.values ≤ jsonStackSize) :
    Feeds a (items.text ++ [(']' : UInt8)]) items.heard (leave stack) := by
  cases items with
  | last before d after comma =>
    have hpos := d.value.depth_pos
    simp only [Items.values, Value.arrayDepth] at hdepth
    obtain ⟨b, hb, hd⟩ := feeds_doc d (.element :: stack) (by rw [List.length_cons]; omega)
    cases comma with
    | true =>
      have hclose : Feeds (.running .arrayNext stack) [(']' : UInt8)] [.arrayEnd] (leave stack) :=
        Feeds.token rfl (by decide) (by decide)
      have h := feeds_element (by omega) before (d.opens.append _) ha
        (hd.append ((feeds_comma .array hb after).append hclose))
      simpa [Items.text, Items.heard, commaText] using h
    | false =>
      have h := feeds_element (by omega) before (d.opens.append _) ha
        (hd.append (feeds_close .array hb after))
      simpa [Items.text, Items.heard, commaText, Container.close, Container.endCode] using h
  | cons before d after rest =>
    have hpos := d.value.depth_pos
    simp only [Items.values, Value.arrayDepth] at hdepth
    obtain ⟨b, hb, hd⟩ := feeds_doc d (.element :: stack) (by rw [List.length_cons]; omega)
    have hrest := feeds_items rest stack _ (.inr rfl) (by omega)
    have h := feeds_element (by omega) before (d.opens.append _) ha
      (hd.append ((feeds_comma .array hb after).append hrest))
    simpa [Items.text, Items.heard] using h

theorem feeds_members (members : Members) (stack : List Frame) (a : Control)
    (ha : a = .running .objectOpen stack ∨ a = .running .objectNext stack)
    (hdepth : stack.length + Value.objectDepth members.values ≤ jsonStackSize) :
    Feeds a (members.text ++ [('}' : UInt8)]) members.heard (leave stack) := by
  cases members with
  | last key d after comma =>
    have hpos := d.value.depth_pos
    simp only [Members.values, Value.objectDepth, Value.memberDepth] at hdepth
    obtain ⟨b, hb, hd⟩ := feeds_doc d (.member :: stack) (by rw [List.length_cons]; omega)
    cases comma with
    | true =>
      have hclose : Feeds (.running .objectNext stack) [('}' : UInt8)] [.objectEnd]
          (leave stack) := Feeds.token rfl (by decide) (by decide)
      have h := feeds_key (by omega) key (d.opens.append _) ha
        (hd.append ((feeds_comma .object hb after).append hclose))
      simpa [Members.text, Members.heard, commaText] using h
    | false =>
      have h := feeds_key (by omega) key (d.opens.append _) ha
        (hd.append (feeds_close .object hb after))
      simpa [Members.text, Members.heard, commaText, Container.close, Container.endCode] using h
  | cons key d after rest =>
    have hpos := d.value.depth_pos
    simp only [Members.values, Value.objectDepth, Value.memberDepth] at hdepth
    obtain ⟨b, hb, hd⟩ := feeds_doc d (.member :: stack) (by rw [List.length_cons]; omega)
    have hrest := feeds_members rest stack _ (.inr rfl) (by omega)
    have h := feeds_key (by omega) key (d.opens.append _) ha
      (hd.append ((feeds_comma .object hb after).append hrest))
    simpa [Members.text, Members.heard] using h

end

/-! ## What is lost -/

mutual

def Doc.lost : Doc → Nat
  | .array items => items.lost
  | .object members => members.lost
  | _ => 0

def Items.lost : Items → Nat
  | .last _ d after comma =>
    d.lost + if d.isNumber && (after.val.isEmpty && !comma) then 1 else 0
  | .cons _ d _ rest => d.lost + rest.lost

def Members.lost : Members → Nat
  | .last _ d after comma =>
    d.lost + if d.isNumber && (after.val.isEmpty && !comma) then 1 else 0
  | .cons _ d _ rest => d.lost + rest.lost

end

mutual

theorem Doc.lost_eq_zero_iff (d : Doc) : d.lost = 0 ↔ d.numberBeforeClose = false := by
  cases d with
  | array items => exact items.lost_eq_zero_iff
  | object members => exact members.lost_eq_zero_iff
  | _ => exact ⟨fun _ => rfl, fun _ => rfl⟩

theorem Items.lost_eq_zero_iff (items : Items) :
    items.lost = 0 ↔ items.numberBeforeClose = false := by
  cases items with
  | last before d after comma =>
    have hd := d.lost_eq_zero_iff
    rw [Items.lost, Items.numberBeforeClose, Bool.or_eq_false_iff, ← hd]
    split <;> simp_all
  | cons before d after rest =>
    rw [Items.lost, Items.numberBeforeClose, Bool.or_eq_false_iff, ← d.lost_eq_zero_iff,
      ← rest.lost_eq_zero_iff]
    omega

theorem Members.lost_eq_zero_iff (members : Members) :
    members.lost = 0 ↔ members.numberBeforeClose = false := by
  cases members with
  | last key d after comma =>
    have hd := d.lost_eq_zero_iff
    rw [Members.lost, Members.numberBeforeClose, Bool.or_eq_false_iff, ← hd]
    split <;> simp_all
  | cons key d after rest =>
    rw [Members.lost, Members.numberBeforeClose, Bool.or_eq_false_iff, ← d.lost_eq_zero_iff,
      ← rest.lost_eq_zero_iff]
    omega

end

mutual

/-- What is delivered is a part of the canonical sequence, shorter by the codes
that are lost. -/
theorem Doc.heard_sublist (d : Doc) : (d.heard ++ d.pending).Sublist d.value.tokens ∧
    (d.heard ++ d.pending).length + d.lost = d.value.tokens.length := by
  cases d with
  | array items =>
    obtain ⟨hsub, hlen⟩ := items.heard_sublist
    simp only [Doc.heard, Doc.pending, Doc.isNumber, Doc.value, Value.tokens, Doc.lost,
      List.length_cons, Bool.false_eq_true, if_false, List.append_nil]
    exact ⟨hsub.cons_cons _, by omega⟩
  | object members =>
    obtain ⟨hsub, hlen⟩ := members.heard_sublist
    simp only [Doc.heard, Doc.pending, Doc.isNumber, Doc.value, Value.tokens, Doc.lost,
      List.length_cons, Bool.false_eq_true, if_false, List.append_nil]
    exact ⟨hsub.cons_cons _, by omega⟩
  | _ => exact ⟨List.Sublist.refl _, rfl⟩

theorem Items.heard_sublist (items : Items) :
    items.heard.Sublist (Value.arrayTokens items.values ++ [.arrayEnd]) ∧
      items.heard.length + items.lost =
        (Value.arrayTokens items.values ++ [JsonCode.arrayEnd]).length := by
  cases items with
  | last before d after comma =>
    obtain ⟨hsub, hlen⟩ := d.heard_sublist
    simp only [Items.heard, Items.values, Value.arrayTokens, Items.lost, List.append_nil,
      ← List.append_assoc] at hlen ⊢
    split
    · refine ⟨by simpa using hsub.append (List.nil_sublist [JsonCode.arrayEnd]), ?_⟩
      simp only [List.length_append, List.length_nil, List.length_cons] at hlen ⊢
      omega
    · refine ⟨hsub.append (List.Sublist.refl _), ?_⟩
      simp only [List.length_append, List.length_cons] at hlen ⊢
      omega
  | cons before d after rest =>
    obtain ⟨hsub, hlen⟩ := d.heard_sublist
    obtain ⟨hsub', hlen'⟩ := rest.heard_sublist
    simp only [Items.heard, Items.values, Value.arrayTokens, Items.lost, List.append_assoc]
      at hlen' ⊢
    rw [← List.append_assoc]
    constructor
    · exact hsub.append hsub'
    · simp only [List.length_append] at hlen hlen' ⊢
      omega

theorem Members.heard_sublist (members : Members) :
    members.heard.Sublist (Value.objectTokens members.values ++ [.objectEnd]) ∧
      members.heard.length + members.lost =
        (Value.objectTokens members.values ++ [JsonCode.objectEnd]).length := by
  cases members with
  | last key d after comma =>
    obtain ⟨hsub, hlen⟩ := d.heard_sublist
    simp only [Members.heard, Members.values, Value.objectTokens, Value.memberTokens,
      Members.lost, List.append_nil, List.cons_append, ← List.append_assoc] at hlen ⊢
    split
    · refine ⟨((?_ : List.Sublist _ _).cons_cons _).cons_cons _ |>.cons_cons _, ?_⟩
      · simpa using hsub.append (List.nil_sublist [JsonCode.objectEnd])
      · simp only [List.length_append, List.length_nil, List.length_cons] at hlen ⊢
        omega
    · refine ⟨((hsub.append (List.Sublist.refl _)).cons_cons _).cons_cons _ |>.cons_cons _, ?_⟩
      simp only [List.length_append, List.length_cons] at hlen ⊢
      omega
  | cons key d after rest =>
    obtain ⟨hsub, hlen⟩ := d.heard_sublist
    obtain ⟨hsub', hlen'⟩ := rest.heard_sublist
    simp only [Members.heard, Members.values, Value.objectTokens, Value.memberTokens,
      Members.lost, List.append_assoc, List.cons_append] at hlen' ⊢
    rw [← List.append_assoc]
    constructor
    · exact ((hsub.append hsub').cons_cons _).cons_cons _ |>.cons_cons _
    · simp only [List.length_append, List.length_cons] at hlen hlen' ⊢
      omega

end

theorem Doc.heard_eq_iff (d : Doc) :
    d.heard ++ d.pending = d.value.tokens ↔ d.numberBeforeClose = false := by
  obtain ⟨hsub, hlen⟩ := d.heard_sublist
  rw [← d.lost_eq_zero_iff]
  constructor
  · intro h
    rw [h] at hlen
    omega
  · intro h
    apply hsub.eq_of_length
    omega

/-- The parser delivers the canonical tokens of a document exactly when no
number in it is directly followed by a closing bracket. -/
theorem json_tokens_iff (jsn : Json) (v : Value) (hdepth : v.depth ≤ 9) (d : Doc)
    (hd : d.value = v) (before after : Space) (hafter : after.val ≠ []) :
    delivered (Transducer.outputs jsonParse (jsonInit jsn)
        (before.val ++ (d.text ++ after.val))) = v.tokens ↔
      d.numberBeforeClose = false := by
  subst hd
  obtain ⟨a, ha, hfeeds⟩ := feeds_doc d [] (by rw [jsonStackSize, List.length_nil]; omega)
  have hall := (((feeds_space .value trivial [] before).append hfeeds) after.val).2.1
  have hend : delivered (Transducer.outputs step a after.val) = d.pending := by
    obtain ⟨w, hw⟩ := after
    cases w with
    | nil => exact absurd rfl hafter
    | cons ch w =>
      rw [Doc.Settled] at ha
      rw [Doc.pending]
      have hdone : ∀ w, delivered (Transducer.outputs step (.halted .done) w) = [] := by
        intro w
        cases w <;> rfl
      cases hnum : d.isNumber with
      | true =>
        rw [hnum, if_pos rfl] at ha
        obtain ⟨mode, hmode, rfl⟩ := ha
        rw [Transducer.outputs_cons, step_delimiter hmode [] (.inl (hw ch List.mem_cons_self))]
        exact congrArg (JsonCode.number :: ·) (hdone w)
      | false =>
        rw [hnum, if_neg (by decide)] at ha
        subst ha
        exact hdone (ch :: w)
  rw [(shows_run jsn _).2, ← List.append_assoc, hall, hend, List.nil_append, d.heard_eq_iff]

def Space.none : Space := ⟨[], fun _ h => nomatch h⟩

def Space.blank : Space := ⟨[32], List.forall_mem_singleton.mpr rfl⟩

def Lexeme.one : Lexeme := ⟨.none, ⟨['1'], List.forall_mem_singleton.mpr rfl⟩, .none, .inr (.inl (by decide))⟩

def Doc.arrayOfOne (after : Space) : Doc := .array (.last .none (.number .one) after false)

theorem json_tokens_blank_before_close :
    delivered (Transducer.outputs jsonParse
        (jsonInit ⟨bufferInit (Block.ofCells (List.replicate 8 0)) 8, .reset, [], .ok⟩)
        ['[', '1', ' ', ']', ' ']) = [.arrayBegin, .number, .arrayEnd] :=
  (json_tokens_iff _ (.array [.number .one]) (by decide) (.arrayOfOne .blank) rfl .none .blank
    (by decide)).mpr (by decide)

theorem json_tokens_lost_close :
    (Doc.arrayOfOne .none).Strict ∧ (Doc.arrayOfOne .none).value.depth ≤ 9 ∧
      (Doc.arrayOfOne .none).text = ['[', '1', ']'] ∧
      (Doc.arrayOfOne .none).value.tokens = [.arrayBegin, .number, .arrayEnd] ∧
      delivered (Transducer.outputs jsonParse
        (jsonInit ⟨bufferInit (Block.ofCells (List.replicate 8 0)) 8, .reset, [], .ok⟩)
        ['[', '1', ']', ' ']) = [.arrayBegin, .number] := by
  exact ⟨rfl, by decide, by decide, by decide, by decide +kernel⟩

end Wifimodem
