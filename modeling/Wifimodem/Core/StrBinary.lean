import Wifimodem.Core.StrFind

/-!
# Strings of arbitrary bytes

The comparisons stop at a zero that both strings hold, and `strchr` finds a zero
in every set. So the operations see all bytes of a string unless such a zero hides
a difference, or stands where a span should end or go on.
-/

namespace Wifimodem

/-- Equal up to and including a zero. -/
def SharedZero (s p : List UInt8) : Prop := ∃ w, w ++ [0] <+: s ∧ w ++ [0] <+: p

/-- No difference in front of a shared zero, and a zero behind the shorter text. -/
def LookAlike (s p : List UInt8) : Prop :=
  (SharedZero s p ∨ s <+: p ∨ p <+: s) ∧ s.getD p.length 0 = 0 ∧ p.getD s.length 0 = 0

variable {s p w : List UInt8} {a b : UInt8}

theorem sharedZero_cons (hab : a = b) (ha : a ≠ 0) :
    SharedZero (a :: s) (b :: p) ↔ SharedZero s p := by
  subst hab
  constructor
  · rintro ⟨w, hs, hp⟩
    cases w with
    | nil => exact absurd (List.cons_prefix_cons.mp hs).1.symm ha
    | cons c w => exact ⟨w, (List.cons_prefix_cons.mp hs).2, (List.cons_prefix_cons.mp hp).2⟩
  · rintro ⟨w, hs, hp⟩
    exact ⟨a :: w, List.cons_prefix_cons.mpr ⟨rfl, hs⟩, List.cons_prefix_cons.mpr ⟨rfl, hp⟩⟩

theorem strnDiff_eq_zero (s p : List UInt8) :
    strnDiff id s p = 0 ↔ SharedZero s p ∨ s <+: p ∨ p <+: s := by
  induction s generalizing p with
  | nil => exact iff_of_true rfl (.inr (.inl List.nil_prefix))
  | cons a s ih =>
    cases p with
    | nil => exact iff_of_true rfl (.inr (.inr List.nil_prefix))
    | cons b p =>
      cases Decidable.em (a = b) with
      | inr hab =>
        refine iff_of_false (strnDiff_ne hab).2 ?_
        rintro (⟨w, hs, hp⟩ | hsp | hps)
        · cases w with
          | nil =>
            exact hab ((List.cons_prefix_cons.mp hs).1.symm.trans (List.cons_prefix_cons.mp hp).1)
          | cons c w =>
            exact hab ((List.cons_prefix_cons.mp hs).1.symm.trans (List.cons_prefix_cons.mp hp).1)
        · exact hab (List.cons_prefix_cons.mp hsp).1
        · exact hab (List.cons_prefix_cons.mp hps).1.symm
      | inl hab =>
        cases Decidable.em (a = 0) with
        | inl ha =>
          subst ha hab
          have hzero (t : List UInt8) : [] ++ [0] <+: (0 : UInt8) :: t :=
            List.cons_prefix_cons.mpr ⟨rfl, List.nil_prefix⟩
          exact iff_of_true (strnDiff_zero rfl) (.inl ⟨[], hzero s, hzero p⟩)
        | inr ha =>
          have hfirst : id a = id b := hab
          rw [strnDiff_cons hfirst ha, ih, sharedZero_cons hab ha, List.cons_prefix_cons,
            List.cons_prefix_cons, and_iff_right hab, and_iff_right hab.symm]

theorem tieBreak_eq_zero (s p : List UInt8) :
    tieBreak id s p = 0 ↔ s.getD p.length 0 = 0 ∧ p.getD s.length 0 = 0 := by
  have hchar : ∀ c : UInt8, (c.toNat : Int) = 0 ↔ c = 0 := by
    intro c
    rw [← UInt8.toNat_inj]
    exact Int.natCast_eq_zero
  rw [tieBreak]
  split
  · rename_i hlt
    rw [id, hchar, and_iff_left]
    exact List.getD_eq_default p 0 (Nat.le_of_lt hlt)
  split
  · rename_i hlt
    rw [Int.neg_eq_zero, id, hchar, and_iff_right]
    exact List.getD_eq_default s 0 (Nat.le_of_lt hlt)
  · rename_i hge hle
    refine iff_of_true rfl ⟨List.getD_eq_default s 0 ?_, List.getD_eq_default p 0 ?_⟩ <;> omega

theorem strDiff_eq_zero (s p : List UInt8) : strDiff id s p = 0 ↔ LookAlike s p := by
  rw [strDiff, LookAlike, ← strnDiff_eq_zero, ← tieBreak_eq_zero]
  split
  · rename_i hne
    exact iff_of_false hne fun h => hne h.1
  · rename_i hzero
    rw [not_not.mp hzero, and_iff_right rfl]

theorem lookAlike_refl (s : List UInt8) : LookAlike s s :=
  ⟨.inr (.inl List.prefix_rfl), List.getD_eq_default s 0 (Nat.le_refl _),
    List.getD_eq_default s 0 (Nat.le_refl _)⟩

/-! ## Longest prefixes -/

section
variable {q r : UInt8 → Bool}

/-- A weaker test goes no further when it fails where the stronger one does. -/
theorem takeWhile_weaker (hqr : ∀ c, q c = true → r c = true) (w : List UInt8) :
    w.takeWhile r = w.takeWhile q ↔ ∀ c ∈ (w.dropWhile q).head?, r c = false := by
  induction w with
  | nil => simp
  | cons c w ih =>
    rw [List.takeWhile_cons, List.takeWhile_cons, List.dropWhile_cons]
    cases hq : q c with
    | true => rw [hqr c hq, if_pos rfl, if_pos rfl, if_pos rfl, List.cons_inj_right, ih]
    | false => cases hr : r c <;> simp [hr]

/-- A stronger test goes as far when it holds wherever the weaker one has passed. -/
theorem takeWhile_stronger (hqr : ∀ c, q c = true → r c = true) (w : List UInt8) :
    w.takeWhile q = w.takeWhile r ↔ ∀ c ∈ w.takeWhile r, q c = true := by
  induction w with
  | nil => simp
  | cons c w ih =>
    rw [List.takeWhile_cons, List.takeWhile_cons]
    cases hq : q c with
    | true => rw [hqr c hq, if_pos rfl, if_pos rfl, List.cons_inj_right, ih, List.forall_mem_cons,
        and_iff_right hq]
    | false => cases hr : r c <;> simp [hq]

theorem dropWhile_of_takeWhile (h : w.takeWhile q = w.takeWhile r) :
    w.dropWhile q = w.dropWhile r := by
  have hq := List.takeWhile_append_dropWhile (p := q) (l := w)
  have hr := List.takeWhile_append_dropWhile (p := r) (l := w)
  rw [h] at hq
  exact List.append_cancel_left (hq.trans hr.symm)

end

/-! ## The operations -/

/-- The characters of a C string, which a zero ends. -/
abbrev CString := {c : List UInt8 // 0 ∉ c}

inductive ByteOp where
  | strMatch (s : Str) (p : Pattern)
  | cmp (a : Str) (b : Pattern)
  | find (s : Str) (p : Pattern)
  | span (s : Str) (c : CString)
  | cspan (s : Str) (c : CString)

namespace ByteOp

variable {mem : Nat → UInt8}

/-- An `int` holds the lengths. -/
def IntSized : ByteOp → Prop
  | strMatch s p => s.len < 2 ^ 31 ∧ p.len < 2 ^ 31
  | cmp a b => a.len < 2 ^ 31 ∧ b.len < 2 ^ 31
  | find s p => s.len < 2 ^ 31 ∧ p.len < 2 ^ 31
  | span s _ => s.len < 2 ^ 31
  | cspan s _ => s.len < 2 ^ 31

/-- The operation is right about the bytes of its operands. -/
def BinarySafe (mem : Nat → UInt8) : ByteOp → Prop
  | strMatch s p => (s.strMatch mem p).value = true ↔ p.text mem <+: s.text mem
  | cmp a b => (a.cmp mem b).value = 0 ↔ a.text mem = b.text mem
  | find s p => 0 ≤ (s.find mem p).value ↔ ∃ i, OccursAt (s.text mem) (p.text mem) i
  | span s c =>
    (s.span mem c.val).value.1.text mem = (s.text mem).dropWhile c.val.contains ∧
      (s.span mem c.val).value.2.text mem = (s.text mem).takeWhile c.val.contains
  | cspan s c =>
    (s.cspan mem c.val).value.1.text mem = (s.text mem).dropWhile (fun x => !c.val.contains x) ∧
      (s.cspan mem c.val).value.2.text mem = (s.text mem).takeWhile fun x => !c.val.contains x

/-- No zero hides a difference, ends a comparison that should go on, or is taken for
an element of a set. -/
def NoZeroHides (mem : Nat → UInt8) : ByteOp → Prop
  | strMatch s p =>
    p.len ≤ s.len → SharedZero (s.text mem) (p.text mem) → p.text mem <+: s.text mem
  | cmp a b => LookAlike (a.text mem) (b.text mem) → a.text mem = b.text mem
  | find s p =>
    (∃ i, i + p.len ≤ s.len ∧ SharedZero (((s.text mem).drop i).take p.len) (p.text mem)) →
      ∃ i, OccursAt (s.text mem) (p.text mem) i
  | span s c => ((s.text mem).dropWhile c.val.contains).head? ≠ some 0
  | cspan s c => 0 ∉ (s.text mem).takeWhile fun x => !c.val.contains x

theorem strMatch_value (s : Str) (p : Pattern) :
    (s.strMatch mem p).value = true ↔
      p.len ≤ s.len ∧ (SharedZero (s.text mem) (p.text mem) ∨ p.text mem <+: s.text mem) := by
  rw [Str.strMatch, Str.matchBy]
  split
  · rename_i hlong
    refine iff_of_false (fun h => by cases h) fun h => ?_
    exact Nat.not_le.mpr hlong h.1
  · rename_i hfit
    have hfit := Nat.not_lt.mp hfit
    have hdiff : (Str.strncmp mem id s.ptr p p.len 0).value =
        strnDiff id (s.text mem) (p.text mem) := by
      rw [Str.strncmp_value mem id p (by omega), List.drop_zero, Nat.add_zero,
        (Str.textFrom_split mem s.ptr hfit).1, ← Str.text]
      apply strnDiff_take
      rw [Str.length_pattern]
      exact Nat.min_le_right _ _
    have hshort : s.text mem <+: p.text mem → p.text mem <+: s.text mem := by
      intro h
      have heq : s.text mem = p.text mem := by
        apply h.eq_of_length_le
        rwa [Str.length_text, Str.length_pattern]
      rw [heq]
    rw [Traced.value_bind, Traced.value_pure, hdiff, decide_eq_true_eq, strnDiff_eq_zero,
      and_iff_right hfit]
    refine or_congr_right ⟨fun h => h.elim hshort id, .inr⟩

theorem strMatch_safe_iff (s : Str) (p : Pattern) :
    BinarySafe mem (strMatch s p) ↔ NoZeroHides mem (strMatch s p) := by
  have hlen : p.text mem <+: s.text mem → p.len ≤ s.len := by
    intro h
    have hle := h.length_le
    rwa [Str.length_text, Str.length_pattern] at hle
  rw [BinarySafe, NoZeroHides, strMatch_value]
  constructor
  · exact fun h hle hzero => h.mp ⟨hle, .inl hzero⟩
  · intro h
    constructor
    · rintro ⟨hle, hzero | hlead⟩
      · exact h hle hzero
      · exact hlead
    · exact fun hlead => ⟨hlen hlead, .inr hlead⟩

theorem cmp_safe_iff (a : Str) (b : Pattern) :
    BinarySafe mem (cmp a b) ↔ NoZeroHides mem (cmp a b) := by
  rw [BinarySafe, NoZeroHides, Str.cmp, Str.cmpBy_value, strDiff_eq_zero]
  constructor
  · exact Iff.mp
  · exact fun h => ⟨h, fun heq => heq ▸ lookAlike_refl _⟩

theorem hit_value {s : Str} {p : Pattern} {i : Nat} :
    Str.Hit mem id s p i ↔
      (i + p.len ≤ s.len ∧ SharedZero (((s.text mem).drop i).take p.len) (p.text mem)) ∨
        OccursAt (s.text mem) (p.text mem) i := by
  rw [OccursAt, Str.length_text, Str.length_pattern, ← and_or_left]
  have hkey (hi : i + p.len ≤ s.len) : Str.Hit mem id s p i ↔
      SharedZero (((s.text mem).drop i).take p.len) (p.text mem) ∨
        ((s.text mem).drop i).take p.len = p.text mem := by
    have hlen : (((s.text mem).drop i).take p.len).length = (p.text mem).length := by
      rw [List.length_take, List.length_drop, Str.length_text, Str.length_pattern]
      omega
    rw [Str.hit_iff hi, strDiff_same hlen, strnDiff_eq_zero]
    apply or_congr_right
    constructor
    · rintro (h | h)
      · exact h.eq_of_length hlen
      · exact (h.eq_of_length hlen.symm).symm
    · exact fun h => .inl (h ▸ List.prefix_rfl)
  exact ⟨fun h => ⟨h.1, (hkey h.1).mp h⟩, fun h => (hkey h.1).mpr h.2⟩

theorem find_safe_iff (s : Str) (p : Pattern) (h : IntSized (find s p)) :
    BinarySafe mem (find s p) ↔ NoZeroHides mem (find s p) := by
  have hfirst := Str.find_first mem id h.1 h.2
  have hvalue : 0 ≤ (s.find mem p).value ↔ ∃ i, Str.Hit mem id s p i := by
    rw [← not_iff_not, not_exists, ← hfirst.none_iff]
    obtain ⟨i, hr, -⟩ | ⟨hr, -⟩ := hfirst <;> rw [Str.find, hr] <;> omega
  rw [BinarySafe, NoZeroHides, hvalue]
  simp only [hit_value, exists_or]
  constructor
  · exact fun h hzero => h.mp (.inl hzero)
  · exact fun h => ⟨fun hit => hit.elim h id, .inr⟩

theorem span_safe_iff (s : Str) (c : CString) :
    BinarySafe mem (span s c) ↔ NoZeroHides mem (span s c) := by
  obtain ⟨hrest, hpart⟩ := Str.spanBy_eq mem s (strchr c.val)
  have hrest := (congrArg (Str.text mem) hrest).trans (Str.text_after (List.dropWhile_suffix _))
  have hweaker : ∀ x, c.val.contains x = true → strchr c.val x = true := by
    intro x hx
    rw [strchr, hx, Bool.or_true]
  have hhead : (∀ x ∈ ((s.text mem).dropWhile c.val.contains).head?, strchr c.val x = false) ↔
      NoZeroHides mem (span s c) := by
    have hstop := List.head?_dropWhile_not c.val.contains (s.text mem)
    rw [NoZeroHides]
    cases hx : ((s.text mem).dropWhile c.val.contains).head? with
    | none => simp
    | some x =>
      rw [hx] at hstop
      have hout : x ∉ c.val := by simpa using hstop
      simp [strchr, hout]
  rw [BinarySafe, Str.span, hrest, hpart, ← hhead, ← takeWhile_weaker hweaker]
  exact ⟨And.right, fun h => ⟨dropWhile_of_takeWhile h, h⟩⟩

theorem cspan_safe_iff (s : Str) (c : CString) :
    BinarySafe mem (cspan s c) ↔ NoZeroHides mem (cspan s c) := by
  obtain ⟨hrest, hpart⟩ := Str.spanBy_eq mem s fun x => !strchr c.val x
  have hrest := (congrArg (Str.text mem) hrest).trans (Str.text_after (List.dropWhile_suffix _))
  have hstronger : ∀ x, (!strchr c.val x) = true → (!c.val.contains x) = true := by
    intro x hx
    rw [strchr, Bool.not_or, Bool.and_eq_true] at hx
    exact hx.2
  have hzero : (∀ x ∈ (s.text mem).takeWhile (fun x => !c.val.contains x),
      (!strchr c.val x) = true) ↔ NoZeroHides mem (cspan s c) := by
    rw [NoZeroHides]
    constructor
    · intro h hmem
      cases h 0 hmem
    · intro h x hx
      have hx0 : x ≠ 0 := fun h0 => h (h0 ▸ hx)
      have hout := List.mem_takeWhile_imp hx
      rw [strchr, decide_eq_false hx0, Bool.false_or]
      exact hout
  rw [BinarySafe, Str.cspan, hrest, hpart, ← hzero, ← takeWhile_stronger hstronger]
  exact ⟨And.right, fun h => ⟨dropWhile_of_takeWhile h, h⟩⟩

/-- An operation is right about all bytes exactly when no zero gets in its way. -/
theorem binarySafe_iff (mem : Nat → UInt8) (op : ByteOp) (h : op.IntSized) :
    op.BinarySafe mem ↔ op.NoZeroHides mem := by
  cases op with
  | strMatch s p => exact strMatch_safe_iff s p
  | cmp a b => exact cmp_safe_iff a b
  | find s p => exact find_safe_iff s p h
  | span s c => exact span_safe_iff s c
  | cspan s c => exact cspan_safe_iff s c

/-- `a` and `b` in front of the zero, so both are found equal to what differs behind it. -/
theorem binarySafe_fails :
    ¬∀ (mem : Nat → UInt8) (op : ByteOp), op.IntSized → op.BinarySafe mem := by
  intro h
  have hmatch := h (fun addr => ([97, 0, 98] : List UInt8).getD addr 0)
    (strMatch ⟨0, 3⟩ (.literal [97, 0, 99])) ⟨by decide, by decide⟩
  rw [BinarySafe] at hmatch
  revert hmatch
  decide

theorem binarySafe_iff_zero :
    let mem := fun addr => ([97, 0, 98] : List UInt8).getD addr 0
    let op := strMatch ⟨0, 3⟩ (.literal [97, 0, 98])
    op.IntSized ∧ op.BinarySafe mem := by
  intro mem op
  have hsized : op.IntSized := ⟨by decide, by decide⟩
  exact ⟨hsized, (binarySafe_iff mem op hsized).mpr fun _ _ => by decide⟩

end ByteOp

end Wifimodem
