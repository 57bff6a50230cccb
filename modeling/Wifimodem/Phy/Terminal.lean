import Wifimodem.Core.Types
import Wifimodem.Lib.Transducer

/-!
# The terminal

What the terminal reads from its io is the list of the results of `io_getc`, with
`none` for the results that carry no byte. What it writes is a list of bytes.
-/

namespace Wifimodem

open Transducer

structure Terminal where
  addCr : Bool
  ignCr : Bool
  crlf : Bool
  echo : Bool
  chrBs : UInt8
  chrCr : UInt8
  chrNl : UInt8
deriving DecidableEq

def terminalSetMsdos (t : Terminal) : Terminal :=
  { t with addCr := true, ignCr := true, crlf := false }

def terminalSetUnix (t : Terminal) : Terminal :=
  { t with addCr := false, ignCr := true, crlf := false }

def terminalSetMac (t : Terminal) : Terminal :=
  { t with addCr := false, ignCr := false, crlf := true }

def terminalInit : Terminal :=
  terminalSetMsdos
    { addCr := false, ignCr := false, crlf := false, echo := false
      chrBs := 8, chrCr := '\r', chrNl := '\n' }

def newline : UInt8 := '\n'

/-- `io_putc` keeps the low byte of the character. -/
def terminalPutc (t : Terminal) (ch : Int) : List UInt8 :=
  if ch = newline.toNat then
    (if t.addCr then [t.chrCr] else []) ++ [if t.crlf then t.chrCr else t.chrNl]
  else [UInt8.ofInt ch]

def terminalWrite (t : Terminal) (buf : List UInt8) : List UInt8 :=
  buf.flatMap fun ch => terminalPutc t ch.toNat

/-- What `terminal_getc` makes of a byte; `none` when it goes on to the next one. -/
def terminalReceive (t : Terminal) (ch : UInt8) : Option UInt8 :=
  if ch = t.chrCr then
    if t.ignCr then none
    else some (if t.crlf then newline else ch)
  else if ch = t.chrNl then some newline
  else some ch

/-- The character, the echo, and what is left of the io. -/
def terminalGetc (t : Terminal) :
    List (Option UInt8) → Option UInt8 × List UInt8 × List (Option UInt8)
  | [] => (none, [], [])
  | none :: io => (none, [], io)
  | some ch :: io =>
    match terminalReceive t ch with
    | none => terminalGetc t io
    | some ch => (some ch, if t.echo then terminalPutc t ch.toNat else [], io)

def terminalRead (t : Terminal) :
    Nat → List (Option UInt8) → List UInt8 × List UInt8 × List (Option UInt8)
  | 0, io => ([], [], io)
  | len + 1, io =>
    match terminalGetc t io with
    | (none, echoed, io) => ([], echoed, io)
    | (some ch, echoed, io) =>
      let (buf, more, io) := terminalRead t len io
      (ch :: buf, echoed ++ more, io)

/-! ## Reading back what was written -/

/-- The terminal is in one of its three modes. -/
def TerminalMode (t : Terminal) : Prop :=
  ∃ t₀, t = terminalSetMsdos t₀ ∨ t = terminalSetUnix t₀ ∨ t = terminalSetMac t₀

/-- A character that no translation touches. -/
def Terminal.Plain (t : Terminal) (ch : UInt8) : Prop :=
  ch ≠ newline → ch ≠ t.chrCr ∧ ch ≠ t.chrNl

variable {t : Terminal} {ch : UInt8} {io : List (Option UInt8)} {text : List UInt8}

theorem ofInt_toNat (ch : UInt8) : UInt8.ofInt (ch.toNat : Int) = ch := by
  have hlt : (ch.toNat : Int) % 2 ^ 8 = ch.toNat := by
    have hch := ch.toNat_lt
    omega
  rw [UInt8.ofInt, hlt, Int.toNat_natCast, UInt8.ofNat_toNat]

theorem terminalPutc_newline (t : Terminal) :
    terminalPutc t newline.toNat =
      (if t.addCr then [t.chrCr] else []) ++ [if t.crlf then t.chrCr else t.chrNl] :=
  if_pos rfl

theorem terminalPutc_of_ne (t : Terminal) (h : ch ≠ newline) : terminalPutc t ch.toNat = [ch] := by
  have hne : (ch.toNat : Int) ≠ newline.toNat := by
    intro heq
    exact h (UInt8.toNat_inj.mp (Int.ofNat_inj.mp heq))
  rw [terminalPutc, if_neg hne, ofInt_toNat]

theorem terminalReceive_plain (h : ch ≠ t.chrCr) (hnl : ch ≠ t.chrNl) :
    terminalReceive t ch = some ch := by
  rw [terminalReceive, if_neg h, if_neg hnl]

theorem terminalReceive_cr (t : Terminal) : terminalReceive t t.chrCr =
    if t.ignCr then none else some (if t.crlf then newline else t.chrCr) := if_pos rfl

theorem terminalReceive_nl (h : t.chrCr ≠ t.chrNl) :
    terminalReceive t t.chrNl = some newline := by
  rw [terminalReceive, if_neg h.symm, if_pos rfl]

theorem terminalGetc_cons {ch' : UInt8} (hecho : t.echo = false)
    (h : terminalReceive t ch = some ch') (io : List (Option UInt8)) :
    terminalGetc t (some ch :: io) = (some ch', [], io) := by
  rw [terminalGetc, h, hecho]
  rfl

theorem terminalGetc_skip (h : terminalReceive t ch = none) (io : List (Option UInt8)) :
    terminalGetc t (some ch :: io) = terminalGetc t io := by
  rw [terminalGetc, h]

/-- What is sent for a character is received as that character. -/
theorem terminalGetc_putc (hmode : TerminalMode t) (hecho : t.echo = false)
    (hcr : t.chrCr ≠ t.chrNl) (hch : t.Plain ch) (io : List (Option UInt8)) :
    terminalGetc t ((terminalPutc t ch.toNat).map some ++ io) = (some ch, [], io) := by
  by_cases hnl : ch = newline
  · subst hnl
    rw [terminalPutc_newline]
    have hreceive := terminalReceive_nl hcr
    obtain ⟨t₀, rfl | rfl | rfl⟩ := hmode
    · -- both characters are sent, and the first one is ignored
      have hskip := terminalGetc_skip (terminalReceive_cr (terminalSetMsdos t₀))
      exact (hskip _).trans (terminalGetc_cons hecho hreceive io)
    · exact terminalGetc_cons hecho hreceive io
    · exact terminalGetc_cons hecho (terminalReceive_cr (terminalSetMac t₀)) io
  · obtain ⟨hneCr, hneNl⟩ := hch hnl
    rw [terminalPutc_of_ne t hnl]
    exact terminalGetc_cons hecho (terminalReceive_plain hneCr hneNl) io

/-- What is written is read back, and nothing of it is left. -/
theorem terminal_reads_what_it_wrote {len : Nat} (hmode : TerminalMode t)
    (hecho : t.echo = false) (hcr : t.chrCr ≠ t.chrNl) (htext : ∀ ch ∈ text, t.Plain ch)
    (hlen : text.length ≤ len) :
    terminalRead t len ((terminalWrite t text).map some) = (text, [], []) := by
  induction text generalizing len with
  | nil =>
    cases len with
    | zero => rfl
    | succ len => rfl
  | cons ch text ih =>
    obtain ⟨len, rfl⟩ := Nat.exists_eq_succ_of_ne_zero (Nat.ne_zero_of_lt hlen)
    have hget := terminalGetc_putc hmode hecho hcr (htext ch List.mem_cons_self)
      ((terminalWrite t text).map some)
    have hrest := ih (fun c hc => htext c (List.mem_cons_of_mem ch hc))
      (Nat.le_of_succ_le_succ hlen)
    rw [terminalWrite, List.flatMap_cons, List.map_append, ← terminalWrite, terminalRead, hget]
    simp only [hrest]
    rfl

theorem terminal_reads_what_it_wrote_msdos :
    let text : List UInt8 := ['a', '\n', 'b']
    terminalWrite terminalInit text = ['a', '\r', '\n', 'b'] ∧
      terminalRead terminalInit 5 ((terminalWrite terminalInit text).map some) = (text, [], []) := by
  intro text
  have hplain : ∀ ch ∈ text, terminalInit.Plain ch := by
    intro ch hch hnl
    simp only [text, List.mem_cons, List.not_mem_nil, or_false] at hch
    rcases hch with rfl | rfl | rfl
    · exact ⟨by decide, by decide⟩
    · exact absurd rfl hnl
    · exact ⟨by decide, by decide⟩
  exact ⟨by decide, terminal_reads_what_it_wrote ⟨_, .inl rfl⟩ rfl (by decide) hplain (by decide)⟩

/-! ## Reading a line -/

/-- The stored characters, and whether the newline has been seen. -/
structure Input where
  buf : List UInt8
  ended : Bool
deriving DecidableEq

/-- The call goes on to read. -/
def Input.Reading (len : Nat) (s : Input) : Prop := s.buf.length < len ∧ s.ended = false

instance (len : Nat) (s : Input) : Decidable (s.Reading len) := inferInstanceAs (Decidable (_ ∧ _))

/-- What is shown instead of a character. -/
def maskChar (hide : Int) (ch : UInt8) : Int := if isprint ch then hide else ch.toNat

def terminalInputChar (t : Terminal) (hide : Int) (s : Input) (ch : UInt8) :
    Input × List UInt8 :=
  let written := if hide > 0 then terminalPutc t (maskChar hide ch) else []
  if ch = t.chrBs then ({ s with buf := s.buf.dropLast }, written)
  else if ch = newline then ({ s with ended := true }, written)
  else ({ s with buf := s.buf ++ [ch] }, written)

/-- One result of `io_getc`, in the loop of `terminal_input`. -/
def terminalInputStep (t : Terminal) (hide : Int) (len : Nat) (s : Input) (x : Option UInt8) :
    Input × List UInt8 :=
  if s.Reading len then
    match x.bind (terminalReceive t) with
    | none => (s, [])
    | some ch =>
      let echoed := if t.echo then terminalPutc t ch.toNat else []
      let (s, written) := terminalInputChar t hide s ch
      (s, echoed ++ written)
  else (s, [])

/-- How far the call has come with these results, and what it has written. The
echo is set for the time of the call. -/
def terminalInput (t : Terminal) (len : Nat) (prompt : Option (List UInt8)) (hide : Int)
    (io : List (Option UInt8)) : Input × List UInt8 :=
  let t := { t with echo := hide < 0 }
  (run (terminalInputStep t hide len) ⟨[], false⟩ io,
    (prompt.map (terminalWrite t)).getD [] ++
      (outputs (terminalInputStep t hide len) ⟨[], false⟩ io).flatten)

variable {hide : Int} {len : Nat} {s s' : Input} {x y : Option UInt8} {a b : UInt8}

theorem inputStep_seen (hread : s.Reading len) (h : x.bind (terminalReceive t) = some ch) :
    terminalInputStep t hide len s x =
      ((terminalInputChar t hide s ch).1,
        (if t.echo then terminalPutc t ch.toNat else []) ++ (terminalInputChar t hide s ch).2) := by
  rw [terminalInputStep, if_pos hread, h]

theorem inputStep_unseen (h : x.bind (terminalReceive t) = none) :
    terminalInputStep t hide len s x = (s, []) := by
  rw [terminalInputStep, h]
  split <;> rfl

theorem inputStep_returned (h : ¬s.Reading len) : terminalInputStep t hide len s x = (s, []) :=
  if_neg h

/-- The loop reads its characters with `terminal_getc`. -/
theorem inputLoop_getc (hread : s.Reading len) {echoed : List UInt8}
    {rest : List (Option UInt8)} (h : terminalGetc t io = (some ch, echoed, rest)) :
    run (terminalInputStep t hide len) s io =
        run (terminalInputStep t hide len) (terminalInputChar t hide s ch).1 rest ∧
      (outputs (terminalInputStep t hide len) s io).flatten =
        echoed ++ (terminalInputChar t hide s ch).2 ++
          (outputs (terminalInputStep t hide len) (terminalInputChar t hide s ch).1
            rest).flatten := by
  induction io with
  | nil => cases h
  | cons x io ih =>
    cases x with
    | none => cases h
    | some b =>
      rw [terminalGetc] at h
      rw [run_cons, outputs_cons, List.flatten_cons]
      cases hb : terminalReceive t b with
      | none =>
        rw [hb] at h
        have hstep : terminalInputStep t hide len s (some b) = (s, []) := inputStep_unseen hb
        rw [hstep]
        exact ih h
      | some c =>
        rw [hb] at h
        cases h
        have hseen : (some b).bind (terminalReceive t) = some ch := hb
        rw [inputStep_seen hread hseen]
        exact ⟨rfl, rfl⟩

/-- When there is none, the loop goes on with what is left. -/
theorem inputLoop_getc_none {echoed : List UInt8} {rest : List (Option UInt8)}
    (h : terminalGetc t io = (none, echoed, rest)) :
    run (terminalInputStep t hide len) s io = run (terminalInputStep t hide len) s rest ∧
      (outputs (terminalInputStep t hide len) s io).flatten =
        (outputs (terminalInputStep t hide len) s rest).flatten := by
  induction io with
  | nil =>
    cases h
    exact ⟨rfl, rfl⟩
  | cons x io ih =>
    rw [run_cons, outputs_cons, List.flatten_cons]
    cases x with
    | none =>
      cases h
      have hstep : terminalInputStep t hide len s none = (s, []) := inputStep_unseen rfl
      rw [hstep]
      exact ⟨rfl, rfl⟩
    | some b =>
      rw [terminalGetc] at h
      cases hb : terminalReceive t b with
      | none =>
        rw [hb] at h
        have hstep : terminalInputStep t hide len s (some b) = (s, []) := inputStep_unseen hb
        rw [hstep]
        exact ih h
      | some c =>
        rw [hb] at h
        cases h

/-! ## What hidden input shows -/

/-- The character is neither the backspace nor the newline. -/
def Terminal.Stored (t : Terminal) (ch : UInt8) : Prop := ch ≠ t.chrBs ∧ ch ≠ newline

/-- The same is seen, or two characters that are stored. -/
def SameKeys (t : Terminal) (x y : Option UInt8) : Prop :=
  x.bind (terminalReceive t) = y.bind (terminalReceive t) ∨
    ∃ a b, x.bind (terminalReceive t) = some a ∧ y.bind (terminalReceive t) = some b ∧
      t.Stored a ∧ t.Stored b

/-- Neither character tells itself apart: both are printable, or they are equal, or
the one that is not printable is just what the other is hidden as. -/
def Masked (t : Terminal) (hide : Int) (a b : UInt8) : Prop :=
  a = b ∨ isprint a = true ∧ isprint b = true ∨
    isprint a = true ∧ isprint b = false ∧ terminalPutc t hide = [b] ∨
    isprint a = false ∧ isprint b = true ∧ terminalPutc t hide = [a]

theorem maskChar_of_print (h : isprint ch = true) (hide : Int) : maskChar hide ch = hide :=
  if_pos h

theorem putc_mask_unprintable (h : isprint ch = false) (hch : ch ≠ newline) :
    terminalPutc t (maskChar hide ch) = [ch] := by
  rw [maskChar, h]
  exact terminalPutc_of_ne t hch

theorem putc_mask_iff (ha : a ≠ newline) (hb : b ≠ newline) :
    terminalPutc t (maskChar hide a) = terminalPutc t (maskChar hide b) ↔
      Masked t hide a b := by
  rw [Masked]
  cases hpa : isprint a with
  | true =>
    cases hpb : isprint b with
    | true => simp [maskChar_of_print hpa, maskChar_of_print hpb]
    | false =>
      have hne : a ≠ b := by
        rintro rfl
        cases hpa.symm.trans hpb
      simp [maskChar_of_print hpa, putc_mask_unprintable hpb hb, hne]
  | false =>
    rw [putc_mask_unprintable hpa ha]
    cases hpb : isprint b with
    | true =>
      have hne : a ≠ b := by
        rintro rfl
        cases hpa.symm.trans hpb
      simp [maskChar_of_print hpb, hne, eq_comm]
    | false => simp [putc_mask_unprintable hpb hb]

/-- If the call still reads, the two characters it gets are masked. -/
def MaskedAt (t : Terminal) (hide : Int) (len : Nat) (s : Input) (x y : Option UInt8) : Prop :=
  s.Reading len → ∀ a b, x.bind (terminalReceive t) = some a →
    y.bind (terminalReceive t) = some b → Masked t hide a b

/-- The two calls have stored as much, and have both ended or not. -/
def SameShape (s s' : Input) : Prop := s.buf.length = s'.buf.length ∧ s.ended = s'.ended

theorem SameShape.reading (h : SameShape s s') : s.Reading len ↔ s'.Reading len := by
  rw [Input.Reading, Input.Reading, h.1, h.2]

theorem inputChar_written (t : Terminal) (hhide : 0 < hide) (s : Input) (ch : UInt8) :
    (terminalInputChar t hide s ch).2 = terminalPutc t (maskChar hide ch) := by
  rw [terminalInputChar, if_pos hhide]
  split
  · rfl
  split <;> rfl

theorem inputChar_stored (h : t.Stored ch) (s : Input) :
    (terminalInputChar t hide s ch).1 = { s with buf := s.buf ++ [ch] } := by
  rw [terminalInputChar, if_neg h.1, if_neg h.2]

theorem inputChar_shape (h : SameShape s s') (ch : UInt8) :
    SameShape (terminalInputChar t hide s ch).1 (terminalInputChar t hide s' ch).1 := by
  obtain ⟨hlen, hended⟩ := h
  rw [terminalInputChar, terminalInputChar]
  split
  · exact ⟨by simp [hlen], hended⟩
  split
  · exact ⟨hlen, rfl⟩
  · exact ⟨by simp [hlen], hended⟩

theorem inputStep_shape (t : Terminal) (hide : Int) (len : Nat) :
    ∀ s s' x y, SameShape s s' → SameKeys t x y →
      SameShape (terminalInputStep t hide len s x).1 (terminalInputStep t hide len s' y).1 := by
  intro s s' x y h hkeys
  by_cases hread : s.Reading len
  · have hread' := h.reading.mp hread
    rcases hkeys with heq | ⟨a, b, ha, hb, hstored, hstored'⟩
    · cases hx : x.bind (terminalReceive t) with
      | none =>
        rw [inputStep_unseen hx, inputStep_unseen (heq.symm.trans hx)]
        exact h
      | some ch =>
        rw [inputStep_seen hread hx, inputStep_seen hread' (heq.symm.trans hx)]
        exact inputChar_shape h ch
    · rw [inputStep_seen hread ha, inputStep_seen hread' hb, inputChar_stored hstored,
        inputChar_stored hstored']
      exact ⟨by simp [h.1], h.2⟩
  · rw [inputStep_returned hread, inputStep_returned (mt h.reading.mpr hread)]
    exact h

/-- What is written tells two characters apart just when they are not masked. -/
theorem inputStep_output (len : Nat) (hhide : 0 < hide) (hecho : t.echo = false) :
    ∀ s s' x y, SameShape s s' → SameKeys t x y →
      ((terminalInputStep t hide len s x).2 = (terminalInputStep t hide len s' y).2 ↔
        MaskedAt t hide len s x y) := by
  intro s s' x y h hkeys
  by_cases hread : s.Reading len
  · have hread' := h.reading.mp hread
    simp only [MaskedAt, hread, forall_const]
    rcases hkeys with heq | ⟨a, b, ha, hb, hstored, hstored'⟩
    · cases hx : x.bind (terminalReceive t) with
      | none =>
        rw [inputStep_unseen hx, inputStep_unseen (heq.symm.trans hx)]
        simp
      | some ch =>
        have hy := heq.symm.trans hx
        rw [inputStep_seen hread hx, inputStep_seen hread' hy, inputChar_written t hhide,
          inputChar_written t hhide, hy]
        refine iff_of_true rfl ?_
        rintro a b ⟨⟩ ⟨⟩
        exact .inl rfl
    · rw [inputStep_seen hread ha, inputStep_seen hread' hb, inputChar_written t hhide,
        inputChar_written t hhide, hecho, ha, hb]
      simp only [Bool.false_eq_true, if_false, List.nil_append]
      rw [putc_mask_iff hstored.2 hstored'.2]
      constructor
      · rintro hmask _ _ ⟨⟩ ⟨⟩
        exact hmask
      · intro hmask
        exact hmask a b rfl rfl
  · rw [inputStep_returned hread, inputStep_returned (mt h.reading.mpr hread)]
    exact iff_of_true rfl fun hreading => absurd hreading hread

theorem length_putc_mask (hone : hide ≠ newline.toNat ∨ t.addCr = false) (h : ch ≠ newline) :
    (terminalPutc t (maskChar hide ch)).length = 1 := by
  cases hprint : isprint ch with
  | false =>
    rw [putc_mask_unprintable hprint h]
    rfl
  | true =>
    rw [maskChar_of_print hprint, terminalPutc]
    split
    · rename_i hnl
      rw [hone.resolve_left fun hne => hne hnl]
      rfl
    · rfl

theorem inputStep_length (len : Nat) (hhide : 0 < hide)
    (hone : hide ≠ newline.toNat ∨ t.addCr = false) (hecho : t.echo = false) :
    ∀ s s' x y, SameShape s s' → SameKeys t x y →
      (terminalInputStep t hide len s x).2.length =
        (terminalInputStep t hide len s' y).2.length := by
  intro s s' x y h hkeys
  rcases hkeys with heq | ⟨a, b, ha, hb, hstored, hstored'⟩
  · have hmasked : MaskedAt t hide len s x y := by
      intro _ a b ha hb
      exact .inl (Option.some.inj (ha.symm.trans (heq.trans hb)))
    rw [(inputStep_output len hhide hecho s s' x y h (.inl heq)).mpr hmasked]
  by_cases hread : s.Reading len
  · rw [inputStep_seen hread ha, inputStep_seen (h.reading.mp hread) hb,
      inputChar_written t hhide, inputChar_written t hhide, hecho]
    simp only [Bool.false_eq_true, if_false, List.nil_append]
    rw [length_putc_mask hone hstored.2, length_putc_mask hone hstored'.2]
  · rw [inputStep_returned hread, inputStep_returned (mt h.reading.mpr hread)]

section
variable {xs ys : List (Option UInt8)}

theorem inputOutputs_iff (len : Nat) (hhide : 0 < hide) (hecho : t.echo = false)
    (hkeys : List.Forall₂ (SameKeys t) xs ys) :
    outputs (terminalInputStep t hide len) ⟨[], false⟩ xs =
        outputs (terminalInputStep t hide len) ⟨[], false⟩ ys ↔
      ∀ n x y, xs[n]? = some x → ys[n]? = some y →
        MaskedAt t hide len (run (terminalInputStep t hide len) ⟨[], false⟩ (xs.take n)) x y := by
  exact twin_outputs_iff (inputStep_shape t hide len) (inputStep_output len hhide hecho)
    ⟨rfl, rfl⟩ hkeys

/-- When each character shows as one byte, no difference is made up for later. -/
theorem inputOutputs_flatten (hhide : 0 < hide) (hecho : t.echo = false)
    (hone : hide ≠ newline.toNat ∨ t.addCr = false) (hkeys : List.Forall₂ (SameKeys t) xs ys) :
    (outputs (terminalInputStep t hide len) ⟨[], false⟩ xs).flatten =
        (outputs (terminalInputStep t hide len) ⟨[], false⟩ ys).flatten ↔
      outputs (terminalInputStep t hide len) ⟨[], false⟩ xs =
        outputs (terminalInputStep t hide len) ⟨[], false⟩ ys := by
  have hlength : List.Forall₂ (fun u v : List UInt8 => u.length = v.length)
      (outputs (terminalInputStep t hide len) ⟨[], false⟩ xs)
      (outputs (terminalInputStep t hide len) ⟨[], false⟩ ys) :=
    twin_outputs (inputStep_shape t hide len) (inputStep_length len hhide hone hecho)
      ⟨rfl, rfl⟩ hkeys
  exact flatten_iff_of_length hlength

/-- Wherever the call still reads, the two characters it gets are masked. -/
def AllMasked (t : Terminal) (len : Nat) (prompt : Option (List UInt8)) (hide : Int)
    (xs ys : List (Option UInt8)) : Prop :=
  ∀ n x y, xs[n]? = some x → ys[n]? = some y →
    MaskedAt t hide len (terminalInput t len prompt hide (xs.take n)).1 x y

/-- The first part is about what has been written by the time any number of bytes
has come in, the second one about the whole of it. Only a newline that is sent as
two bytes can make up later for a difference. -/
theorem hidden_input_iff (prompt : Option (List UInt8)) (hhide : 0 < hide)
    (hkeys : List.Forall₂ (SameKeys t) xs ys) :
    ((∀ n, (terminalInput t len prompt hide (xs.take n)).2 =
        (terminalInput t len prompt hide (ys.take n)).2) ↔ AllMasked t len prompt hide xs ys) ∧
      (hide ≠ newline.toNat ∨ t.addCr = false →
        ((terminalInput t len prompt hide xs).2 = (terminalInput t len prompt hide ys).2 ↔
          AllMasked t len prompt hide xs ys)) := by
  have hecho : { t with echo := decide (hide < 0) }.echo = false :=
    decide_eq_false (Int.not_lt.mpr (Int.le_of_lt hhide))
  have hiff := inputOutputs_iff len hhide hecho hkeys
  constructor
  · refine Iff.trans ?_ hiff
    rw [← flatten_take_iff (by simp [hkeys.length_eq])]
    simp only [terminalInput, List.append_cancel_left_eq, outputs_take]
  · intro hone
    refine Iff.trans ?_ hiff
    rw [← inputOutputs_flatten hhide hecho hone hkeys]
    simp only [terminalInput, List.append_cancel_left_eq]

end

/-- Two passwords of printable characters, hidden as stars. -/
theorem hidden_input_printable :
    AllMasked terminalInit 8 none 42 [some 'a', some 'b', some '\n']
      [some 'x', some 'y', some '\n'] := by
  have hkeys : List.Forall₂ (SameKeys terminalInit) [some 'a', some 'b', some '\n']
      [some 'x', some 'y', some '\n'] := by
    refine .cons (.inr ⟨'a', 'x', rfl, rfl, ?_, ?_⟩) (.cons (.inr ⟨'b', 'y', rfl, rfl, ?_, ?_⟩)
      (.cons (.inl rfl) .nil))
    all_goals exact ⟨by decide, by decide⟩
  exact ((hidden_input_iff none (by decide) hkeys).2 (.inl (by decide))).mp (by decide)

/-- A character above 127 is shown as it is, although the input is hidden as stars. -/
theorem hidden_input_shows_high_byte :
    let xs : List (Option UInt8) := [some 0x80, some '\n']
    let ys : List (Option UInt8) := [some 0x81, some '\n']
    List.Forall₂ (SameKeys terminalInit) xs ys ∧
      (terminalInput terminalInit 8 none 42 xs).2 ≠ (terminalInput terminalInit 8 none 42 ys).2 := by
  intro xs ys
  constructor
  · refine .cons (.inr ⟨0x80, 0x81, rfl, rfl, ?_, ?_⟩) (.cons (.inl rfl) .nil)
    all_goals exact ⟨by decide, by decide⟩
  · decide

end Wifimodem
