import Wifimodem.Core.StrView
import Wifimodem.Lib.Transducer

/-!
# Reads and results of string operations

Every operation reads only inside the views it is given, and gives back views
inside the one it works on. This holds at every step of any sequence of
operations on one string and on the views that come out of it.
-/

namespace Wifimodem

namespace Str

def Has (s : Str) (addr : Nat) : Prop := s.ptr ≤ addr ∧ addr < s.ptr + s.len

def Inside (v s : Str) : Prop := s.ptr ≤ v.ptr ∧ v.ptr + v.len ≤ s.ptr + s.len

theorem Inside.refl (s : Str) : s.Inside s := ⟨Nat.le_refl _, Nat.le_refl _⟩

theorem Inside.trans {u v s : Str} (huv : u.Inside v) (hvs : v.Inside s) : u.Inside s :=
  ⟨Nat.le_trans hvs.1 huv.1, Nat.le_trans huv.2 hvs.2⟩

end Str

/-- The access is made inside the operand through which it is made. -/
def InOperand (s : Str) (ps : List Str) (e : Access) : Prop :=
  match e.operand with
  | 0 => s.Has e.addr
  | k + 1 => ∃ p, ps[k]? = some p ∧ p.Has e.addr

def Pattern.From (ps : List Str) : Pattern → Prop
  | .view 0 _ => False
  | .view (k + 1) p => ps[k]? = some p
  | .literal _ => True

open Traced

section
variable {mem : Nat → UInt8} {s t : Str} {ps : List Str} {p : Pattern} {ptr len pos n i : Nat}

theorem read_only {addr : Nat} (h : s.Has addr) : Only (InOperand s ps) (Str.read mem addr) := by
  apply only_touch
  exact h

theorem get_only (hp : p.From ps) (hi : i < p.len) : Only (InOperand s ps) (p.get mem i) := by
  cases p with
  | literal p => exact only_pure _
  | view operand p =>
    cases operand with
    | zero => cases hp
    | succ k =>
      apply only_touch
      exact ⟨p, hp, Nat.le_add_right _ _, Nat.add_lt_add_left hi _⟩

/-! ## Trimming and splitting -/

theorem skip_inside (s : Str) (num : Nat) : (s.skip num).Inside s := by
  simp only [Str.Inside, Str.skip]
  split <;> omega

theorem chop_inside (s : Str) (num : Nat) : (s.chop num).Inside s := by
  simp only [Str.Inside, Str.chop]
  split <;> omega

theorem left_inside (s : Str) (num : Nat) : (s.left num).Inside s := by
  simp only [Str.Inside, Str.left]
  split <;> omega

theorem right_inside (s : Str) (num : Nat) : (s.right num).Inside s := by
  simp only [Str.Inside, Str.right]
  split <;> omega

theorem mid_inside (s : Str) (pos num : Nat) : (s.mid pos num).Inside s := by
  simp only [Str.Inside, Str.mid]
  split <;> split <;> omega

/-- The part comes right before the rest, and both together are the whole. -/
structure Parts (s : Str) (parted : Str × Str) : Prop where
  start : parted.2.ptr = s.ptr
  seam : parted.2.ptr + parted.2.len = parted.1.ptr
  stop : parted.1.ptr + parted.1.len = s.ptr + s.len

theorem split_parts (s : Str) (pos : Nat) : Parts s (s.split pos) := by
  simp only [Str.split]
  constructor
  · rfl
  · rfl
  · simp only
    split <;> omega

theorem Parts.inside {parted : Str × Str} (h : Parts s parted) :
    parted.1.Inside s ∧ parted.2.Inside s := by
  obtain ⟨hstart, hseam, hstop⟩ := h
  simp only [Str.Inside]
  omega

theorem ltrimLoop_only (pred : UInt8 → Bool) (ht : Str.Inside ⟨ptr, len⟩ s) :
    Only (InOperand s ps) (Str.ltrimLoop mem pred ptr len) := by
  induction len generalizing ptr with
  | zero => exact only_pure _
  | succ len ih =>
    obtain ⟨hlo, hhi⟩ := ht
    simp only at hlo hhi
    apply only_bind (read_only ⟨hlo, by omega⟩)
    split
    · apply ih
      simp only [Str.Inside]
      omega
    · exact only_pure _

theorem ltrimLoop_inside (pred : UInt8 → Bool) (ptr len : Nat) :
    (Str.ltrimLoop mem pred ptr len).value.Inside ⟨ptr, len⟩ := by
  induction len generalizing ptr with
  | zero => exact Str.Inside.refl _
  | succ len ih =>
    rw [Str.ltrimLoop, value_bind]
    split
    · apply (ih (ptr + 1)).trans
      simp only [Str.Inside]
      omega
    · exact Str.Inside.refl _

theorem rtrimLoop_only (pred : UInt8 → Bool) (ht : Str.Inside ⟨ptr, len⟩ s) :
    Only (InOperand s ps) (Str.rtrimLoop mem pred ptr len) := by
  induction len with
  | zero => exact only_pure _
  | succ len ih =>
    obtain ⟨hlo, hhi⟩ := ht
    simp only at hlo hhi
    apply only_bind (read_only ⟨by omega, by omega⟩)
    split
    · apply ih
      simp only [Str.Inside]
      omega
    · exact only_pure _

theorem rtrimLoop_inside (pred : UInt8 → Bool) (ptr len : Nat) :
    (Str.rtrimLoop mem pred ptr len).value.Inside ⟨ptr, len⟩ := by
  induction len with
  | zero => exact Str.Inside.refl _
  | succ len ih =>
    rw [Str.rtrimLoop, value_bind]
    split
    · apply ih.trans
      simp only [Str.Inside]
      omega
    · exact Str.Inside.refl _

theorem spanLoop_only (test : UInt8 → Bool) (ht : Str.Inside ⟨ptr, pos + n⟩ s) :
    Only (InOperand s ps) (Str.spanLoop mem test ptr n pos) := by
  induction n generalizing pos with
  | zero => exact only_pure _
  | succ n ih =>
    obtain ⟨hlo, hhi⟩ := ht
    simp only at hlo hhi
    apply only_bind (read_only ⟨by omega, by omega⟩)
    split
    · apply ih
      simp only [Str.Inside]
      omega
    · exact only_pure _

theorem spanBy_only (test : UInt8 → Bool) (ht : t.Inside s) :
    Only (InOperand s ps) (Str.spanBy mem t test) := by
  apply only_bind
  · apply spanLoop_only
    rwa [Nat.zero_add]
  · exact only_pure _

theorem spanBy_parts (test : UInt8 → Bool) (s : Str) : Parts s (Str.spanBy mem s test).value :=
  split_parts s _

/-! ## Comparing -/

theorem strncmp_only (fold : UInt8 → UInt8) (ht : Str.Inside ⟨ptr, i + n⟩ s) (hp : p.From ps)
    (hlen : i + n ≤ p.len) : Only (InOperand s ps) (Str.strncmp mem fold ptr p n i) := by
  induction n generalizing i with
  | zero => exact only_pure _
  | succ n ih =>
    obtain ⟨hlo, hhi⟩ := ht
    simp only at hlo hhi
    apply only_bind (read_only ⟨by omega, by omega⟩)
    apply only_bind (get_only hp (by omega))
    split
    · exact only_pure _
    split
    · exact only_pure _
    · apply ih
      · simp only [Str.Inside]
        omega
      · omega

theorem cmpBy_only (fold : UInt8 → UInt8) (ht : t.Inside s) (hp : p.From ps) :
    Only (InOperand s ps) (Str.cmpBy mem fold t p) := by
  obtain ⟨hlo, hhi⟩ := ht
  have hl : (if t.len < p.len then t.len else p.len) ≤ t.len ∧
      (if t.len < p.len then t.len else p.len) ≤ p.len := by
    split <;> omega
  simp only [Str.cmpBy]
  generalize (if t.len < p.len then t.len else p.len) = l at hl ⊢
  apply only_bind
  · apply strncmp_only fold _ hp
    · omega
    · simp only [Str.Inside]
      omega
  split
  · exact only_pure _
  split
  · apply only_bind (read_only ⟨by omega, by omega⟩)
    exact only_pure _
  split
  · rename_i hlt
    apply only_bind (get_only hp hlt)
    exact only_pure _
  · exact only_pure _

theorem findLoop_only (fold : UInt8 → UInt8) (hp : p.From ps) (h : n ≠ 0 → i + n + p.len ≤ s.len + 1) :
    Only (InOperand s ps) (Str.findLoop mem fold s p n i) := by
  induction n generalizing i with
  | zero => exact only_pure _
  | succ n ih =>
    have hfit := h (Nat.succ_ne_zero n)
    apply only_bind
    · apply cmpBy_only fold _ hp
      simp only [Str.Inside]
      omega
    split
    · exact only_pure _
    · exact ih fun _ => by omega

theorem rfindLoop_only (fold : UInt8 → UInt8) (hp : p.From ps) (h : n ≠ 0 → n + p.len ≤ s.len + 1) :
    Only (InOperand s ps) (Str.rfindLoop mem fold s p n) := by
  induction n with
  | zero => exact only_pure _
  | succ n ih =>
    have hfit := h (Nat.succ_ne_zero n)
    apply only_bind
    · apply cmpBy_only fold _ hp
      simp only [Str.Inside]
      omega
    split
    · exact only_pure _
    · exact ih fun _ => by omega

/-- The number of offsets to try. The difference of the lengths, wrapped to a `uint`,
is negative as an `int` when the pattern is the longer one. -/
theorem lastOffset_count (hs : s.len < 2 ^ 31) (hp : p.len < 2 ^ 31) :
    (Str.lastOffset s p + 1).toNat = s.len + 1 - p.len := by
  rw [Str.lastOffset]
  cases Nat.lt_or_ge s.len p.len with
  | inl hlt =>
    rw [usub_of_lt hlt, asInt]
    split <;> omega
  | inr hge =>
    rw [usub_of_le hge (by omega), asInt]
    split <;> omega

theorem lastOffset_fits (hs : s.len < 2 ^ 31) (hp : p.len < 2 ^ 31)
    (h : (Str.lastOffset s p + 1).toNat ≠ 0) :
    (Str.lastOffset s p + 1).toNat + p.len ≤ s.len + 1 := by
  rw [lastOffset_count hs hp] at h ⊢
  omega

theorem matchBy_only (fold : UInt8 → UInt8) (ht : t.Inside s) (hp : p.From ps) :
    Only (InOperand s ps) (Str.matchBy mem fold t p) := by
  obtain ⟨hlo, hhi⟩ := ht
  rw [Str.matchBy]
  split
  · exact only_pure _
  · apply only_bind
    · apply strncmp_only fold _ hp
      · omega
      · simp only [Str.Inside]
        omega
    · exact only_pure _

theorem matchTable_only (fold : UInt8 → UInt8) (ht : t.Inside s) {table : List Pattern}
    (htable : ∀ p ∈ table, p.From ps) :
    Only (InOperand s ps) (Str.matchTable mem fold t i table) := by
  induction table generalizing i with
  | nil => exact only_pure _
  | cons p table ih =>
    rw [Str.matchTable]
    split
    · exact only_pure _
    · apply only_bind (matchBy_only fold ht (htable p List.mem_cons_self))
      split
      · exact only_pure _
      · exact ih fun q hq => htable q (List.mem_cons_of_mem p hq)

theorem acceptBy_only (fold : UInt8 → UInt8) (ht : t.Inside s) (hp : p.From ps) :
    Only (InOperand s ps) (Str.acceptBy mem fold t p) := by
  apply only_bind (matchBy_only fold ht hp)
  split
  · exact only_pure _
  · exact only_pure _

theorem acceptBy_value (fold : UInt8 → UInt8) (s : Str) (p : Pattern) :
    (Str.acceptBy mem fold s p).value.1.Inside s ∧
      ((Str.acceptBy mem fold s p).value.2 = false → (Str.acceptBy mem fold s p).value.1 = s) := by
  rw [Str.acceptBy, value_bind]
  split
  · exact ⟨skip_inside s _, fun h => by cases h⟩
  · exact ⟨Str.Inside.refl s, fun _ => rfl⟩

theorem acceptTable_only (fold : UInt8 → UInt8) (ht : t.Inside s) {table : List Pattern}
    (htable : ∀ p ∈ table, p.From ps) :
    Only (InOperand s ps) (Str.acceptTable mem fold t table) := by
  apply only_bind (matchTable_only fold ht htable)
  split
  · exact only_pure _
  · exact only_pure _

theorem acceptTable_value (fold : UInt8 → UInt8) (s : Str) (table : List Pattern) :
    (Str.acceptTable mem fold s table).value.1.Inside s ∧
      ((Str.acceptTable mem fold s table).value.2 < 0 →
        (Str.acceptTable mem fold s table).value.1 = s) := by
  rw [Str.acceptTable, value_bind]
  split
  · rename_i hi
    refine ⟨skip_inside s _, fun h => ?_⟩
    rw [value_pure] at h
    omega
  · exact ⟨Str.Inside.refl s, fun _ => rfl⟩

/-! ## Reading numbers and texts -/

theorem digitsLoop_only (radix value : Nat) (valid : Bool) (ht : Str.Inside ⟨ptr, len⟩ s) :
    Only (InOperand s ps) (Str.digitsLoop mem radix ptr len value valid) := by
  induction len generalizing ptr value valid with
  | zero => exact only_pure _
  | succ len ih =>
    obtain ⟨hlo, hhi⟩ := ht
    simp only at hlo hhi
    apply only_bind (read_only ⟨hlo, by omega⟩)
    split
    · exact only_pure _
    split
    · exact only_pure _
    · apply ih
      simp only [Str.Inside]
      omega

theorem digitsLoop_inside (radix ptr len value : Nat) (valid : Bool) :
    (Str.digitsLoop mem radix ptr len value valid).value.1.Inside ⟨ptr, len⟩ := by
  induction len generalizing ptr value valid with
  | zero => exact Str.Inside.refl _
  | succ len ih =>
    rw [Str.digitsLoop, value_bind]
    split
    · exact Str.Inside.refl _
    split
    · exact Str.Inside.refl _
    · apply (ih _ _ _).trans
      simp only [Str.Inside]
      omega

theorem readu64_only (ht : t.Inside s) (r : Nat) :
    Only (InOperand s ps) (Str.readu64 mem t r) := by
  rw [Str.readu64]
  split
  · exact only_pure _
  · exact digitsLoop_only _ _ _ ht

theorem readu64_inside (s : Str) (r : Nat) : (Str.readu64 mem s r).value.1.Inside s := by
  rw [Str.readu64]
  split
  · exact Str.Inside.refl s
  · exact digitsLoop_inside _ _ _ _ _

theorem readuMax_only (max r : Nat) : Only (InOperand s ps) (Str.readuMax mem max s r) := by
  apply only_bind (readu64_only (Str.Inside.refl s) r)
  exact only_pure _

theorem readuMax_inside (max : Nat) (s : Str) (r : Nat) :
    (Str.readuMax mem max s r).value.1.Inside s := readu64_inside s r

theorem accept_literal (ht : t.Inside s) (c : List UInt8) :
    Only (InOperand s ps) (Str.accept mem t (.literal c)) := acceptBy_only id ht trivial

theorem accept_inside (s : Str) (p : Pattern) : (Str.accept mem s p).value.1.Inside s :=
  (acceptBy_value id s p).1

theorem readSign_only : Only (InOperand s ps) (Str.readSign mem s) := by
  apply only_bind (accept_literal (Str.Inside.refl s) _)
  have hs : (Str.accept mem s (.literal ['-'])).value.1.Inside s := accept_inside s _
  generalize (Str.accept mem s (.literal ['-'])).value = r at hs ⊢
  obtain ⟨t, minus⟩ := r
  cases minus with
  | true => exact only_pure _
  | false =>
    apply only_bind (accept_literal hs _)
    exact only_pure _

theorem readSign_inside (s : Str) : (Str.readSign mem s).value.1.Inside s := by
  have hs : (Str.accept mem s (.literal ['-'])).value.1.Inside s := accept_inside s _
  rw [Str.readSign, value_bind]
  generalize (Str.accept mem s (.literal ['-'])).value = r at hs ⊢
  obtain ⟨t, minus⟩ := r
  cases minus with
  | true => exact hs
  | false => exact (accept_inside t _).trans hs

theorem readi64_only (r : Nat) : Only (InOperand s ps) (Str.readi64 mem s r) := by
  apply only_bind readSign_only
  apply only_bind (readu64_only (readSign_inside s) r)
  exact only_pure _

theorem readi64_inside (s : Str) (r : Nat) : (Str.readi64 mem s r).value.1.Inside s :=
  (readu64_inside _ r).trans (readSign_inside s)

theorem readiRange_only (min max : Int) (r : Nat) :
    Only (InOperand s ps) (Str.readiRange mem min max s r) := by
  apply only_bind (readi64_only r)
  exact only_pure _

theorem readiRange_inside (min max : Int) (s : Str) (r : Nat) :
    (Str.readiRange mem min max s r).value.1.Inside s := readi64_inside s r

theorem readstrLoop_only (buf cap : Nat) (delm : List UInt8) (mem : Nat → UInt8) (esc : Bool)
    (num : Nat) (ht : Str.Inside ⟨ptr, len⟩ s) :
    Only (InOperand s ps) (Str.readstrLoop buf cap delm mem ptr len esc num) := by
  induction len generalizing mem ptr esc num with
  | zero => exact only_pure _
  | succ len ih =>
    obtain ⟨hlo, hhi⟩ := ht
    simp only at hlo hhi
    have hnext : Str.Inside ⟨ptr + 1, len⟩ s := by
      simp only [Str.Inside]
      omega
    rw [Str.readstrLoop]
    split
    · apply only_bind (read_only ⟨hlo, by omega⟩)
      split
      · exact ih _ _ _ hnext
      split
      · exact ih _ _ _ hnext
      split
      · exact only_pure _
      · exact ih _ _ _ hnext
    · exact only_pure _

theorem readstrLoop_inside (buf cap : Nat) (delm : List UInt8) (mem : Nat → UInt8)
    (ptr len : Nat) (esc : Bool) (num : Nat) :
    (Str.readstrLoop buf cap delm mem ptr len esc num).value.2.1.Inside ⟨ptr, len⟩ := by
  induction len generalizing mem ptr esc num with
  | zero => exact Str.Inside.refl _
  | succ len ih =>
    have hnext : Str.Inside ⟨ptr + 1, len⟩ ⟨ptr, len + 1⟩ := by
      simp only [Str.Inside]
      omega
    rw [Str.readstrLoop]
    split
    · rw [value_bind]
      split
      · exact (ih _ _ _ _).trans hnext
      split
      · exact (ih _ _ _ _).trans hnext
      split
      · exact Str.Inside.refl _
      · exact (ih _ _ _ _).trans hnext
    · exact Str.Inside.refl _

theorem readstr_only (mem : Nat → UInt8) (ht : t.Inside s) (buf cap : Nat)
    (delm : Option (List UInt8)) : Only (InOperand s ps) (Str.readstr mem t buf cap delm) := by
  apply only_bind (readstrLoop_only _ _ _ _ _ _ ht)
  exact only_pure _

theorem readstr_inside (mem : Nat → UInt8) (s : Str) (buf cap : Nat)
    (delm : Option (List UInt8)) : (Str.readstr mem s buf cap delm).value.2.1.Inside s :=
  readstrLoop_inside _ _ _ _ _ _ _ _

theorem readQuoted_only (quote : UInt8) (mem : Nat → UInt8) (ht : t.Inside s) (buf cap : Nat) :
    Only (InOperand s ps) (Str.readQuoted quote mem t buf cap) := by
  apply only_bind (readstr_only mem ht _ _ _)
  apply only_bind (accept_literal ((readstr_inside _ _ _ _ _).trans ht) _)
  exact only_pure _

theorem readQuoted_inside (quote : UInt8) (mem : Nat → UInt8) (s : Str) (buf cap : Nat) :
    (Str.readQuoted quote mem s buf cap).value.2.1.Inside s :=
  (accept_inside _ _).trans (readstr_inside mem s buf cap _)

theorem readqstr_only (mem : Nat → UInt8) (buf cap : Nat) :
    Only (InOperand s ps) (Str.readqstr mem s buf cap) := by
  apply only_bind (accept_literal (Str.Inside.refl s) _)
  have hs : (Str.accept mem s (.literal ['"'])).value.1.Inside s := accept_inside s _
  generalize (Str.accept mem s (.literal ['"'])).value = r at hs ⊢
  obtain ⟨t, double⟩ := r
  cases double with
  | true => exact readQuoted_only _ _ hs _ _
  | false =>
    apply only_bind (accept_literal hs _)
    have ht : (Str.accept mem t (.literal ['\''])).value.1.Inside s :=
      (accept_inside t _).trans hs
    generalize (Str.accept mem t (.literal ['\''])).value = r at ht ⊢
    obtain ⟨u, single⟩ := r
    cases single with
    | true => exact readQuoted_only _ _ ht _ _
    | false => exact only_pure _

theorem readqstr_inside (mem : Nat → UInt8) (s : Str) (buf cap : Nat) :
    (Str.readqstr mem s buf cap).value.2.1.Inside s := by
  have hs : (Str.accept mem s (.literal ['"'])).value.1.Inside s := accept_inside s _
  rw [Str.readqstr, value_bind]
  generalize (Str.accept mem s (.literal ['"'])).value = r at hs ⊢
  obtain ⟨t, double⟩ := r
  cases double with
  | true => exact (readQuoted_inside _ _ _ _ _).trans hs
  | false =>
    have ht : (Str.accept mem t (.literal ['\''])).value.1.Inside s :=
      (accept_inside t _).trans hs
    -- the second quote is looked for where the first one was not
    simp only [Bool.false_eq_true, if_false, value_bind]
    generalize (Str.accept mem t (.literal ['\''])).value = r at ht ⊢
    obtain ⟨u, single⟩ := r
    cases single with
    | true => exact (readQuoted_inside _ _ _ _ _).trans ht
    | false => exact ht

end

/-! ## Sequences of operations -/

inductive StrOp where
  | left (pos : Nat) | right (pos : Nat) | mid (pos len : Nat)
  | skip (num : Nat) | chop (num : Nat)
  | ltrim | rtrim | trim
  | pltrim (pred : UInt8 → Bool) | prtrim (pred : UInt8 → Bool) | ptrim (pred : UInt8 → Bool)
  | split (pos : Nat)
  | span (p : List UInt8) | cspan (p : List UInt8)
  | pspan (pred : UInt8 → Bool) | pcspan (pred : UInt8 → Bool)
  | cmp (p : Str) | cmpi (p : Str)
  | find (p : Str) | findi (p : Str) | rfind (p : Str) | rfindi (p : Str)
  | strMatch (p : Str) | strMatchi (p : Str) | matchv (ps : List Str) | matchiv (ps : List Str)
  | accept (p : Str) | accepti (p : Str) | acceptv (ps : List Str) | acceptiv (ps : List Str)
  | readu8 (r : Nat) | readu16 (r : Nat) | readu32 (r : Nat) | readu64 (r : Nat)
  | readi8 (r : Nat) | readi16 (r : Nat) | readi32 (r : Nat) | readi64 (r : Nat)
  | readstr (buf len : Nat) (delm : Option (List UInt8)) | readqstr (buf len : Nat)

/-- What an operation leaves: the string, the view that comes out of it, and the
verdict of an accept. -/
structure StrResult where
  mem : Nat → UInt8
  rest : Str
  part : Option Str
  accepted : Option Bool

def StrOp.patterns : StrOp → List Str
  | .cmp p | .cmpi p | .find p | .findi p | .rfind p | .rfindi p => [p]
  | .strMatch p | .strMatchi p | .accept p | .accepti p => [p]
  | .matchv ps | .matchiv ps | .acceptv ps | .acceptiv ps => ps
  | _ => []

/-- The operations that cut a string in two. -/
def StrOp.parts : StrOp → Bool
  | .split _ | .span _ | .cspan _ | .pspan _ | .pcspan _ => true
  | _ => false

/-- The entries of a table, the first one being the first pattern. -/
def table (ps : List Str) : List Pattern := ps.mapIdx fun i p => .view (i + 1) p

section
variable (mem : Nat → UInt8) (s : Str)

def returned {α : Type} (x : Traced Access α) : Traced Access StrResult := do
  let _ ← x
  pure ⟨mem, s, none, none⟩

def shortened {α : Type} (x : Traced Access (Str × α)) : Traced Access StrResult := do
  let (rest, _) ← x
  pure ⟨mem, rest, none, none⟩

def parted (x : Traced Access (Str × Str)) : Traced Access StrResult := do
  let (rest, part) ← x
  pure ⟨mem, rest, some part, none⟩

def trimmed (x : Traced Access Str) : Traced Access StrResult := do
  let rest ← x
  pure ⟨mem, rest, none, none⟩

def judged {α : Type} (verdict : α → Bool) (x : Traced Access (Str × α)) :
    Traced Access StrResult := do
  let (rest, found) ← x
  pure ⟨mem, rest, none, some (verdict found)⟩

def stored {α : Type} (x : Traced Access ((Nat → UInt8) × Str × α)) : Traced Access StrResult := do
  let (mem, rest, _) ← x
  pure ⟨mem, rest, none, none⟩

def strRun : StrOp → Traced Access StrResult
  | .left pos => pure ⟨mem, s, some (s.left pos), none⟩
  | .right pos => pure ⟨mem, s, some (s.right pos), none⟩
  | .mid pos len => pure ⟨mem, s, some (s.mid pos len), none⟩
  | .skip num => pure ⟨mem, s.skip num, none, none⟩
  | .chop num => pure ⟨mem, s.chop num, none, none⟩
  | .ltrim => trimmed mem (s.ltrim mem)
  | .rtrim => trimmed mem (s.rtrim mem)
  | .trim => trimmed mem (s.trim mem)
  | .pltrim pred => trimmed mem (s.pltrim mem pred)
  | .prtrim pred => trimmed mem (s.prtrim mem pred)
  | .ptrim pred => trimmed mem (s.ptrim mem pred)
  | .split pos => parted mem (pure (s.split pos))
  | .span p => parted mem (s.span mem p)
  | .cspan p => parted mem (s.cspan mem p)
  | .pspan pred => parted mem (s.pspan mem pred)
  | .pcspan pred => parted mem (s.pcspan mem pred)
  | .cmp p => returned mem s (s.cmp mem (.view 1 p))
  | .cmpi p => returned mem s (s.cmpi mem (.view 1 p))
  | .find p => returned mem s (s.find mem (.view 1 p))
  | .findi p => returned mem s (s.findi mem (.view 1 p))
  | .rfind p => returned mem s (s.rfind mem (.view 1 p))
  | .rfindi p => returned mem s (s.rfindi mem (.view 1 p))
  | .strMatch p => returned mem s (s.strMatch mem (.view 1 p))
  | .strMatchi p => returned mem s (s.strMatchi mem (.view 1 p))
  | .matchv ps => returned mem s (s.matchv mem (table ps))
  | .matchiv ps => returned mem s (s.matchiv mem (table ps))
  | .accept p => judged mem id (s.accept mem (.view 1 p))
  | .accepti p => judged mem id (s.accepti mem (.view 1 p))
  | .acceptv ps => judged mem (0 ≤ ·) (s.acceptv mem (table ps))
  | .acceptiv ps => judged mem (0 ≤ ·) (s.acceptiv mem (table ps))
  | .readu8 r => shortened mem (s.readu8 mem r)
  | .readu16 r => shortened mem (s.readu16 mem r)
  | .readu32 r => shortened mem (s.readu32 mem r)
  | .readu64 r => shortened mem (s.readu64 mem r)
  | .readi8 r => shortened mem (s.readi8 mem r)
  | .readi16 r => shortened mem (s.readi16 mem r)
  | .readi32 r => shortened mem (s.readi32 mem r)
  | .readi64 r => shortened mem (s.readi64 mem r)
  | .readstr buf len delm => stored (s.readstr mem buf len delm)
  | .readqstr buf len => stored (s.readqstr mem buf len)

end

/-- The string and every view that came out of it, in the memory of the moment. -/
structure Views where
  mem : Nat → UInt8
  pool : List Str

/-- An operation on one view of the pool, which gives it the view that comes out. -/
def strStep (v : Views) : Nat × StrOp → Views × Option StrResult
  | (i, op) =>
    match v.pool[i]? with
    | none => (v, none)
    | some s =>
      let result := (strRun v.mem s op).value
      (⟨result.mem, v.pool.set i result.rest ++ result.part.toList⟩, some result)

structure StaysInside (mem : Nat → UInt8) (s : Str) (op : StrOp) : Prop where
  reads : Only (InOperand s op.patterns) (strRun mem s op)
  rest : (strRun mem s op).value.rest.Inside s
  part : ∀ v, (strRun mem s op).value.part = some v → v.Inside s
  parted : op.parts = true → ∃ v, (strRun mem s op).value.part = some v ∧
    Parts s ((strRun mem s op).value.rest, v)
  refused : (strRun mem s op).value.accepted = some false → (strRun mem s op).value.rest = s

def StepInside (v : Views) : Nat × StrOp → Prop
  | (i, op) => ∀ s, v.pool[i]? = some s → StaysInside v.mem s op

/-! ## Every operation stays inside -/

section
variable {mem : Nat → UInt8} {s : Str} {ps : List Str} {op : StrOp} {α : Type}

theorem stays_view {v : Str} (hop : strRun mem s op = pure ⟨mem, s, some v, none⟩)
    (hparts : op.parts = false) (hv : v.Inside s) : StaysInside mem s op := by
  constructor
  · rw [hop]
    exact only_pure _
  · rw [hop]
    exact Str.Inside.refl s
  · intro w hw
    rw [hop] at hw
    obtain rfl := Option.some.inj hw
    exact hv
  · intro hp
    rw [hparts] at hp
    cases hp
  · intro _
    rw [hop]
    rfl

theorem stays_returned {x : Traced Access α} (hop : strRun mem s op = returned mem s x)
    (hparts : op.parts = false) (hx : Only (InOperand s op.patterns) x) : StaysInside mem s op := by
  constructor
  · rw [hop]
    exact only_bind hx (only_pure _)
  · rw [hop]
    exact Str.Inside.refl s
  · intro w hw
    rw [hop] at hw
    cases hw
  · intro hp
    rw [hparts] at hp
    cases hp
  · intro _
    rw [hop]
    rfl

theorem stays_rest {rest : Str} (hvalue : (strRun mem s op).value.rest = rest)
    (hpart : (strRun mem s op).value.part = none)
    (haccepted : (strRun mem s op).value.accepted = none) (hparts : op.parts = false)
    (hreads : Only (InOperand s op.patterns) (strRun mem s op)) (hrest : rest.Inside s) :
    StaysInside mem s op := by
  refine ⟨hreads, hvalue ▸ hrest, ?_, ?_, ?_⟩
  · intro w hw
    rw [hpart] at hw
    cases hw
  · intro hp
    rw [hparts] at hp
    cases hp
  · intro hrefused
    rw [haccepted] at hrefused
    cases hrefused

/-- An operation that leaves a rest of what it has computed, and no more. -/
theorem stays_done {x : Traced Access α} {f : α → StrResult}
    (hop : strRun mem s op = x >>= fun a => pure (f a)) (hpart : ∀ a, (f a).part = none)
    (haccepted : ∀ a, (f a).accepted = none) (hparts : op.parts = false)
    (hx : Only (InOperand s op.patterns) x) (hin : (f x.value).rest.Inside s) :
    StaysInside mem s op := by
  refine stays_rest ?_ ?_ ?_ hparts ?_ hin
  · rw [hop]
    rfl
  · rw [hop]
    exact hpart x.value
  · rw [hop]
    exact haccepted x.value
  · rw [hop]
    exact only_bind hx (only_pure _)

theorem stays_trimmed {x : Traced Access Str} (hop : strRun mem s op = trimmed mem x)
    (hparts : op.parts = false) (hx : Only (InOperand s op.patterns) x)
    (hin : x.value.Inside s) : StaysInside mem s op := by
  have hdone : strRun mem s op = x >>= fun rest => pure ⟨mem, rest, none, none⟩ := hop
  exact stays_done hdone (fun _ => rfl) (fun _ => rfl) hparts hx hin

theorem stays_shortened {x : Traced Access (Str × α)} (hop : strRun mem s op = shortened mem x)
    (hparts : op.parts = false) (hx : Only (InOperand s op.patterns) x)
    (hin : x.value.1.Inside s) : StaysInside mem s op := by
  have hdone : strRun mem s op = x >>= fun r => pure ⟨mem, r.1, none, none⟩ := hop
  exact stays_done hdone (fun _ => rfl) (fun _ => rfl) hparts hx hin

theorem stays_stored {x : Traced Access ((Nat → UInt8) × Str × α)}
    (hop : strRun mem s op = stored x) (hparts : op.parts = false)
    (hx : Only (InOperand s op.patterns) x) (hin : x.value.2.1.Inside s) :
    StaysInside mem s op := by
  have hdone : strRun mem s op = x >>= fun r => pure ⟨r.1, r.2.1, none, none⟩ := hop
  exact stays_done hdone (fun _ => rfl) (fun _ => rfl) hparts hx hin

theorem stays_parted {x : Traced Access (Str × Str)} (hop : strRun mem s op = parted mem x)
    (hx : Only (InOperand s op.patterns) x) (hpart : Parts s x.value) :
    StaysInside mem s op := by
  constructor
  · rw [hop]
    exact only_bind hx (only_pure _)
  · rw [hop]
    exact hpart.inside.1
  · intro w hw
    rw [hop] at hw
    obtain rfl := Option.some.inj hw
    exact hpart.inside.2
  · intro _
    rw [hop]
    exact ⟨_, rfl, hpart⟩
  · intro hrefused
    rw [hop] at hrefused
    cases hrefused

theorem stays_judged {verdict : α → Bool} {x : Traced Access (Str × α)}
    (hop : strRun mem s op = judged mem verdict x) (hparts : op.parts = false)
    (hx : Only (InOperand s op.patterns) x) (hin : x.value.1.Inside s)
    (hrefused : verdict x.value.2 = false → x.value.1 = s) : StaysInside mem s op := by
  constructor
  · rw [hop]
    exact only_bind hx (only_pure _)
  · rw [hop]
    exact hin
  · intro w hw
    rw [hop] at hw
    cases hw
  · intro hp
    rw [hparts] at hp
    cases hp
  · intro hverdict
    rw [hop] at hverdict ⊢
    exact hrefused (Option.some.inj hverdict)

theorem table_from (ps : List Str) : ∀ p ∈ table ps, p.From ps := by
  intro p hp
  obtain ⟨k, hk, rfl⟩ := List.mem_mapIdx.mp hp
  exact List.getElem?_eq_getElem hk

theorem view_from (p : Str) : (Pattern.view 1 p).From [p] := rfl

theorem find_only {p : Str} (fold : UInt8 → UInt8) (hs : s.len < 2 ^ 31) (hp : p.len < 2 ^ 31) :
    Only (InOperand s [p])
      (Str.findLoop mem fold s (.view 1 p) (Str.lastOffset s (.view 1 p) + 1).toNat 0) := by
  apply findLoop_only fold (view_from p)
  intro hn
  rw [Nat.zero_add]
  exact lastOffset_fits hs hp hn

theorem rfind_only {p : Str} (fold : UInt8 → UInt8) (hs : s.len < 2 ^ 31) (hp : p.len < 2 ^ 31) :
    Only (InOperand s [p])
      (Str.rfindLoop mem fold s (.view 1 p) (Str.lastOffset s (.view 1 p) + 1).toNat) := by
  apply rfindLoop_only fold (view_from p)
  intro hn
  exact lastOffset_fits hs hp hn

theorem stays_acceptTable {fold : UInt8 → UInt8}
    (hop : strRun mem s op = judged mem (fun i : Int => decide (0 ≤ i))
      (Str.acceptTable mem fold s (table ps)))
    (hparts : op.parts = false) (hps : op.patterns = ps) : StaysInside mem s op := by
  apply stays_judged hop hparts
  · rw [hps]
    exact acceptTable_only fold (Str.Inside.refl s) (table_from ps)
  · exact (acceptTable_value fold s _).1
  · intro hverdict
    exact (acceptTable_value fold s _).2 (Int.not_le.mp (of_decide_eq_false hverdict))

theorem strRun_inside (hs : s.len < 2 ^ 31) (hps : ∀ p ∈ op.patterns, p.len < 2 ^ 31) :
    StaysInside mem s op := by
  have hself := Str.Inside.refl s
  cases op with
  | left pos => exact stays_view rfl rfl (left_inside s pos)
  | right pos => exact stays_view rfl rfl (right_inside s pos)
  | mid pos len => exact stays_view rfl rfl (mid_inside s pos len)
  | skip num => exact stays_rest rfl rfl rfl rfl (only_pure _) (skip_inside s num)
  | chop num => exact stays_rest rfl rfl rfl rfl (only_pure _) (chop_inside s num)
  | ltrim | pltrim pred =>
    exact stays_trimmed rfl rfl (ltrimLoop_only _ hself) (ltrimLoop_inside _ _ _)
  | rtrim | prtrim pred =>
    exact stays_trimmed rfl rfl (rtrimLoop_only _ hself) (rtrimLoop_inside _ _ _)
  | trim | ptrim pred =>
    apply stays_trimmed rfl rfl
    · exact only_bind (ltrimLoop_only _ hself) (rtrimLoop_only _ (ltrimLoop_inside _ _ _))
    · exact (rtrimLoop_inside _ _ _).trans (ltrimLoop_inside _ _ _)
  | split pos => exact stays_parted rfl (only_pure _) (split_parts s pos)
  | span p | cspan p | pspan pred | pcspan pred =>
    exact stays_parted rfl (spanBy_only _ hself) (spanBy_parts _ s)
  | cmp p | cmpi p => exact stays_returned rfl rfl (cmpBy_only _ hself rfl)
  | find p | findi p =>
    exact stays_returned rfl rfl (find_only _ hs (hps p (List.mem_singleton.mpr rfl)))
  | rfind p | rfindi p =>
    exact stays_returned rfl rfl (rfind_only _ hs (hps p (List.mem_singleton.mpr rfl)))
  | strMatch p | strMatchi p => exact stays_returned rfl rfl (matchBy_only _ hself rfl)
  | matchv ps | matchiv ps =>
    exact stays_returned rfl rfl (matchTable_only _ hself (table_from ps))
  | accept p | accepti p =>
    exact stays_judged rfl rfl (acceptBy_only _ hself rfl) (acceptBy_value _ s _).1
      (acceptBy_value _ s _).2
  | acceptv ps | acceptiv ps =>
    exact stays_acceptTable rfl rfl rfl
  | readu8 r | readu16 r | readu32 r =>
    exact stays_shortened rfl rfl (readuMax_only _ r) (readuMax_inside _ s r)
  | readu64 r => exact stays_shortened rfl rfl (readu64_only hself r) (readu64_inside s r)
  | readi8 r | readi16 r | readi32 r =>
    exact stays_shortened rfl rfl (readiRange_only _ _ r) (readiRange_inside _ _ s r)
  | readi64 r => exact stays_shortened rfl rfl (readi64_only r) (readi64_inside s r)
  | readstr buf len delm =>
    exact stays_stored rfl rfl (readstr_only mem hself _ _ _) (readstr_inside mem s _ _ _)
  | readqstr buf len =>
    exact stays_stored rfl rfl (readqstr_only mem _ _) (readqstr_inside mem s _ _)

theorem strStep_pool {v : Views} {op : Nat × StrOp} {s0 : Str} (hv : ∀ s ∈ v.pool, s.Inside s0)
    (hop : StepInside v op) : ∀ s ∈ (strStep v op).1.pool, s.Inside s0 := by
  obtain ⟨i, op⟩ := op
  rw [strStep]
  cases hs : v.pool[i]? with
  | none => exact hv
  | some s =>
    have hs0 := hv s (List.mem_of_getElem? hs)
    have hstays := hop s hs
    intro t ht
    obtain ht | ht := List.mem_append.mp ht
    · obtain ht | rfl := List.mem_or_eq_of_mem_set ht
      · exact hv t ht
      · exact hstays.rest.trans hs0
    · exact (hstays.part t (Option.mem_toList.mp ht)).trans hs0

end

theorem str_ops_stay_inside {size : Nat} (hsize : size < 2 ^ 31) (mem : Nat → UInt8) {s0 : Str}
    (hs0 : s0.ptr + s0.len ≤ size) {ops : List (Nat × StrOp)}
    (hops : ∀ op ∈ ops, ∀ p ∈ op.2.patterns, p.ptr + p.len ≤ size) :
    Transducer.Throughout strStep StepInside ⟨mem, [s0]⟩ ops ∧
      ∀ v ∈ (Transducer.run strStep ⟨mem, [s0]⟩ ops).pool, v.Inside s0 := by
  have hrun : ∀ (v : Views), (∀ s ∈ v.pool, s.Inside s0) →
      Transducer.Throughout strStep StepInside v ops ∧
        ∀ s ∈ (Transducer.run strStep v ops).pool, s.Inside s0 := by
    induction ops with
    | nil => exact fun v hv => ⟨trivial, hv⟩
    | cons op ops ih =>
      intro v hv
      have hop : StepInside v op := by
        intro s hs
        obtain ⟨_, hhi⟩ := hv s (List.mem_of_getElem? hs)
        apply strRun_inside
        · omega
        · intro p hp
          have hfit := hops op List.mem_cons_self p hp
          omega
      obtain ⟨hsteps, hpool⟩ := ih (fun op' hop' => hops op' (List.mem_cons_of_mem op hop'))
        (strStep v op).1 (strStep_pool hv hop)
      exact ⟨⟨hop, hsteps⟩, hpool⟩
  apply hrun
  intro s hs
  rw [List.mem_singleton.mp hs]
  exact Str.Inside.refl s0

theorem str_ops_stay_inside_small :
    Transducer.Throughout strStep StepInside ⟨fun i => UInt8.ofNat i, [⟨40, 20⟩]⟩
        [(0, .cspan ['2']), (0, .find ⟨45, 3⟩), (1, .rtrim), (0, .readqstr 90 5)] ∧
      ∀ v ∈ (Transducer.run strStep ⟨fun i => UInt8.ofNat i, [⟨40, 20⟩]⟩
        [(0, .cspan ['2']), (0, .find ⟨45, 3⟩), (1, .rtrim), (0, .readqstr 90 5)]).pool,
        v.Inside ⟨40, 20⟩ :=
  str_ops_stay_inside (by decide : 60 < 2 ^ 31) _ (by decide) (by decide)

end Wifimodem
