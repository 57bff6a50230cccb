import Wifimodem.Lib.Traced
import Wifimodem.Phy.Terminal

/-!
# What `terminal_write` counts

The io answers each write with the number of bytes it has taken, or a negative
number. `terminal_putc` drops the answers, so a count can be right only when
nothing has been refused. Each byte is reported with the answer to it.
-/

namespace Wifimodem

section
variable {σ : Type} (wr : σ → List UInt8 → σ × Int)

def ioWrite (io : σ) (buf : List UInt8) : σ × Int := wr io buf

def ioPutc (io : σ) (ch : Int) : Traced (UInt8 × Int) (σ × Int) :=
  let b := UInt8.ofInt ch
  .touch (b, (ioWrite wr io [b]).2) (ioWrite wr io [b])

def putCr (t : Terminal) (io : σ) : Traced (UInt8 × Int) σ :=
  if t.addCr then do
    let answer ← ioPutc wr io t.chrCr.toNat
    pure answer.1
  else pure io

def terminalPutcTo (t : Terminal) (io : σ) (ch : Int) : Traced (UInt8 × Int) σ :=
  if ch = newline.toNat then do
    let io ← putCr wr t io
    let answer ← ioPutc wr io (if t.crlf then t.chrCr else t.chrNl).toNat
    pure answer.1
  else do
    let answer ← ioPutc wr io ch
    pure answer.1

def writeLoop (t : Terminal) : σ → List UInt8 → Traced (UInt8 × Int) σ
  | io, [] => pure io
  | io, ch :: buf => do
    let io ← terminalPutcTo wr t io ch.toNat
    writeLoop t io buf

/-- The io behind the call, and what is returned. -/
def terminalWriteTo (t : Terminal) (io : σ) (buf : List UInt8) :
    Traced (UInt8 × Int) (σ × Int) := do
  let io ← writeLoop wr t io buf
  pure (io, buf.length)

/-- The io takes these bytes, one after the other. -/
def Takes : σ → List UInt8 → Prop
  | _, [] => True
  | io, b :: bytes => 0 < (ioWrite wr io [b]).2 ∧ Takes (ioWrite wr io [b]).1 bytes

/-- The io behind some bytes, and its answers to them. -/
def sent : σ → List UInt8 → σ
  | io, [] => io
  | io, b :: bytes => sent (ioWrite wr io [b]).1 bytes

def answered : σ → List UInt8 → List (UInt8 × Int)
  | _, [] => []
  | io, b :: bytes => (b, (ioWrite wr io [b]).2) :: answered (ioWrite wr io [b]).1 bytes

end

/-- Of the bytes that were written, those of the first `n` characters have been taken,
and none of the others. -/
def Resumable (t : Terminal) (buf : List UInt8) (log : List (UInt8 × Int)) (n : Int) : Prop :=
  ∃ taken refused, log = taken ++ refused ∧ (∀ e ∈ taken, 0 < e.2) ∧ (∀ e ∈ refused, ¬0 < e.2) ∧
    taken.map Prod.fst = terminalWrite t (buf.take n.toNat)

variable {σ : Type} {wr : σ → List UInt8 → σ × Int}

theorem answered_append (wr : σ → List UInt8 → σ × Int) (io : σ) (a b : List UInt8) :
    answered wr io (a ++ b) = answered wr io a ++ answered wr (sent wr io a) b := by
  induction a generalizing io with
  | nil => rfl
  | cons c a ih => exact congrArg (_ :: ·) (ih _)

theorem sent_append (wr : σ → List UInt8 → σ × Int) (io : σ) (a b : List UInt8) :
    sent wr io (a ++ b) = sent wr (sent wr io a) b := by
  induction a generalizing io with
  | nil => rfl
  | cons c a ih => exact ih _

theorem answered_bytes (wr : σ → List UInt8 → σ × Int) (io : σ) (bytes : List UInt8) :
    (answered wr io bytes).map Prod.fst = bytes := by
  induction bytes generalizing io with
  | nil => rfl
  | cons b bytes ih => exact congrArg (b :: ·) (ih _)

theorem takes_iff (wr : σ → List UInt8 → σ × Int) (io : σ) (bytes : List UInt8) :
    Takes wr io bytes ↔ ∀ e ∈ answered wr io bytes, 0 < e.2 := by
  induction bytes generalizing io with
  | nil => simp [Takes, answered]
  | cons b bytes ih => rw [Takes, answered, List.forall_mem_cons, ih]

theorem ioPutc_eq (wr : σ → List UInt8 → σ × Int) (io : σ) (b : UInt8) :
    ioPutc wr io b.toNat = ⟨ioWrite wr io [b], answered wr io [b]⟩ := by
  rw [ioPutc, ofInt_toNat]
  rfl

theorem putCr_eq (wr : σ → List UInt8 → σ × Int) (t : Terminal) (io : σ) :
    putCr wr t io = ⟨sent wr io (if t.addCr then [t.chrCr] else []),
      answered wr io (if t.addCr then [t.chrCr] else [])⟩ := by
  rw [putCr]
  split
  · rw [ioPutc_eq, Traced.bind_eq]
    rfl
  · rfl

/-- What the io is given for a character is its translation. -/
theorem terminalPutcTo_eq (wr : σ → List UInt8 → σ × Int) (t : Terminal) (io : σ) (ch : Int) :
    terminalPutcTo wr t io ch =
      ⟨sent wr io (terminalPutc t ch), answered wr io (terminalPutc t ch)⟩ := by
  rw [terminalPutcTo, terminalPutc]
  split
  · rw [putCr_eq, sent_append, answered_append, Traced.bind_eq, ioPutc_eq, Traced.bind_eq]
    rfl
  · rfl

theorem writeLoop_eq (wr : σ → List UInt8 → σ × Int) (t : Terminal) (io : σ) (buf : List UInt8) :
    writeLoop wr t io buf =
      ⟨sent wr io (terminalWrite t buf), answered wr io (terminalWrite t buf)⟩ := by
  induction buf generalizing io with
  | nil => rfl
  | cons ch buf ih =>
    rw [writeLoop, terminalPutcTo_eq, Traced.bind_eq, ih, terminalWrite, terminalWrite,
      List.flatMap_cons, sent_append, answered_append]

/-- A count of the whole text leaves nothing that may be refused. -/
theorem Resumable.all_taken {t : Terminal} {buf : List UInt8} {log : List (UInt8 × Int)}
    (h : Resumable t buf log buf.length) (hbytes : log.map Prod.fst = terminalWrite t buf) :
    ∀ e ∈ log, 0 < e.2 := by
  obtain ⟨taken, refused, hsplit, htaken, -, hall⟩ := h
  rw [Int.toNat_natCast, List.take_length] at hall
  have hnone : refused = [] := by
    rw [hsplit, List.map_append, hall] at hbytes
    exact List.map_eq_nil_iff.mp (List.append_right_eq_self.mp hbytes)
  rw [hsplit, hnone, List.append_nil]
  exact htaken

/-- The count is right exactly when the io takes every byte of the translated text. -/
theorem terminalWrite_count_iff (wr : σ → List UInt8 → σ × Int) (t : Terminal) (io : σ)
    (buf : List UInt8) :
    Resumable t buf (terminalWriteTo wr t io buf).log (terminalWriteTo wr t io buf).value.2 ↔
      Takes wr io (terminalWrite t buf) := by
  have hlog : (terminalWriteTo wr t io buf).log = answered wr io (terminalWrite t buf) := by
    rw [terminalWriteTo, writeLoop_eq, Traced.bind_eq]
    exact List.append_nil _
  have hcount : (terminalWriteTo wr t io buf).value.2 = buf.length := rfl
  have hbytes := answered_bytes wr io (terminalWrite t buf)
  rw [takes_iff, hlog, hcount]
  constructor
  · exact fun h => h.all_taken hbytes
  · intro h
    refine ⟨_, [], (List.append_nil _).symm, h, by simp, ?_⟩
    rw [hbytes, Int.toNat_natCast, List.take_length]

/-- An io with room for one byte takes the carriage return, and not the newline. -/
theorem terminalWrite_count_refused :
    ¬∀ (σ : Type) (wr : σ → List UInt8 → σ × Int) (t : Terminal) (io : σ) (buf : List UInt8),
      Resumable t buf (terminalWriteTo wr t io buf).log (terminalWriteTo wr t io buf).value.2 := by
  intro h
  have hcount := h Nat (fun room buf => (room - 1, if room = 0 then -1 else buf.length))
    terminalInit 1 ['\n']
  have hlog : ((10 : UInt8), (-1 : Int)) ∈ [((13 : UInt8), (1 : Int)), (10, -1)] := by simp
  exact absurd (hcount.all_taken rfl _ hlog) (by decide)

end Wifimodem
