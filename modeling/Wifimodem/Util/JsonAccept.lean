import Wifimodem.Util.JsonTokens

/-!
# Which documents are accepted

A word on which the machine stops with `done` is the text of a layout, read back
loop by loop. The layouts include those with a comma directly before a closing
bracket, so the parser accepts more than its grammar, and exactly those.
-/

namespace Wifimodem

open Control

/-! ## Loops, read backwards -/

section
variable {mode : Mode} {stack : List Frame} {w : List UInt8}

theorem ends_running (h : Ends (.running mode stack) w) :
    ∃ c r, w = c :: r ∧ Ends (step (.running mode stack) c).1 r := by
  cases w with
  | nil => exact h.elim
  | cons c r => exact ⟨c, r, rfl, h⟩

theorem ends_loop {p : UInt8 → Bool} (h : Ends (.running mode stack) w)
    (hstay : ∀ c, p c = true → step (.running mode stack) c = (.running mode stack, .ok)) :
    ∃ u c r, w = u ++ c :: r ∧ (∀ x ∈ u, p x = true) ∧ p c = false ∧
      Ends (step (.running mode stack) c).1 r := by
  induction w with
  | nil => exact h.elim
  | cons c w ih =>
    cases hc : p c with
    | false => exact ⟨[], c, w, rfl, fun x hx => absurd hx List.not_mem_nil, hc, h⟩
    | true =>
      rw [Ends] at h
      rw [hstay c hc] at h
      obtain ⟨u, c', r, rfl, hu, hc', hr⟩ := ih h
      refine ⟨c :: u, c', r, rfl, ?_, hc', hr⟩
      intro x hx
      rcases List.mem_cons.mp hx with rfl | hx
      · exact hc
      · exact hu x hx

theorem ends_space (h : Ends (.running mode stack) w) (hmode : mode.Skips) :
    ∃ (sp : Space) (c : UInt8) (r : List UInt8), w = sp.val ++ c :: r ∧ ¬isspace c = true ∧
      Ends (step (.running mode stack) c).1 r := by
  obtain ⟨u, c, r, rfl, hu, hc, hr⟩ := ends_loop h fun _ hc => step_space mode hmode stack hc
  exact ⟨⟨u, hu⟩, c, r, rfl, by rw [hc]; decide, hr⟩

theorem ends_digits (h : Ends (.running mode stack) w)
    (hstay : ∀ c, isdigit c = true → step (.running mode stack) c = (.running mode stack, .ok)) :
    ∃ (ds : Digits) (c : UInt8) (r : List UInt8), w = ds.val ++ c :: r ∧ ¬isdigit c = true ∧
      Ends (step (.running mode stack) c).1 r := by
  obtain ⟨u, c, r, rfl, hu, hc, hr⟩ := ends_loop h hstay
  exact ⟨⟨u, hu⟩, c, r, rfl, by rw [hc]; decide, hr⟩

theorem ends_fail {r : List UInt8} (h : Ends fail.1 r) : False := by
  rw [fail, ends_halted] at h
  exact absurd h.1 (by decide)

theorem ends_nested {frame : Frame} {c : UInt8} {r : List UInt8}
    (h : Ends (nested frame stack c).1 r) :
    stack.length < jsonStackSize ∧ Ends (.running .value (frame :: stack)) (c :: r) := by
  rw [nested] at h
  split at h
  · exact ⟨‹_›, h⟩
  · exact (ends_fail h).elim

theorem ends_word {code : JsonCode} {u : List UInt8} (hu : u ≠ [])
    (h : Ends (.running (.word u code) stack) w) :
    ∃ r, w = u ++ r ∧ Ends (leave stack) r := by
  induction u generalizing w with
  | nil => exact absurd rfl hu
  | cons x u ih =>
    obtain ⟨c, r, rfl, hr⟩ := ends_running h
    simp only [step, stepMode, word] at hr
    cases u with
    | nil =>
      simp only at hr
      split at hr
      · subst x
        exact ⟨r, rfl, hr⟩
      · exact (ends_fail hr).elim
    | cons y u =>
      simp only at hr
      split at hr
      · subst x
        obtain ⟨r', rfl, hr'⟩ := ih (by simp) hr
        exact ⟨r', rfl, hr'⟩
      · exact (ends_fail hr).elim

theorem ends_string (h : Ends (.running .string stack) w) :
    ∃ (s : Text) (r : List UInt8), w = s.val ++ (('"' : UInt8) :: r) ∧ Ends (leave stack) r := by
  obtain ⟨u, c, r, rfl, hu, hc, hr⟩ := ends_loop (p := (· != '"')) h
    fun c hc => if_neg (by simpa using hc)
  obtain rfl : c = '"' := by simpa using hc
  exact ⟨⟨u, fun x hx => by simpa using hu x hx⟩, r, rfl, hr⟩

/-! ## Numbers -/

/-- A word that goes on with the end of a number. -/
def EndsNumber (stack : List Frame) (w : List UInt8) : Prop :=
  ∃ c r, w = c :: r ∧ Ends (numberEnd stack c).1 r

theorem ends_exponentDigits (h : Ends (.running .exponentDigits stack) w) :
    ∃ (ds : Digits) (r : List UInt8), w = ds.val ++ r ∧ EndsNumber stack r := by
  obtain ⟨ds, c, r, rfl, hc, hr⟩ := ends_digits h fun _ hc => if_pos hc
  have hstep : step (.running .exponentDigits stack) c = numberEnd stack c := if_neg hc
  rw [hstep] at hr
  exact ⟨ds, _, rfl, c, r, rfl, hr⟩

theorem ends_exponent (h : Ends (.running .exponent stack) w) :
    ∃ (sign : Sign) (ds : Digits) (r : List UInt8),
      w = sign.text ++ (ds.val ++ r) ∧ EndsNumber stack r := by
  obtain ⟨c, r, rfl, hr⟩ := ends_running h
  by_cases hsign : c = '+' ∨ c = '-'
  · have hstep : step (.running .exponent stack) c = (.running .exponentDigits stack, .ok) :=
      if_pos hsign
    rw [hstep] at hr
    obtain ⟨ds, r', rfl, hr'⟩ := ends_exponentDigits hr
    rcases hsign with rfl | rfl
    · exact ⟨.plus, ds, r', rfl, hr'⟩
    · exact ⟨.minus, ds, r', rfl, hr'⟩
  · have hstep : step (.running .exponent stack) c = step (.running .exponentDigits stack) c :=
      if_neg hsign
    rw [hstep] at hr
    have hr : Ends (.running .exponentDigits stack) (c :: r) := hr
    obtain ⟨ds, r', hw, hr'⟩ := ends_exponentDigits hr
    exact ⟨.none, ds, r', hw, hr'⟩

theorem ends_fraction (h : Ends (.running .fraction stack) w) :
    ∃ (x : Fraction) (r : List UInt8), ('.' : UInt8) :: w = x.text ++ r ∧ EndsNumber stack r := by
  obtain ⟨ds, c, r, rfl, hc, hr⟩ := ends_digits h fun _ hc => if_pos hc
  by_cases hexp : c = 'e' ∨ c = 'E'
  · have hstep : step (.running .fraction stack) c = (.running .exponent stack, .ok) :=
      (if_neg hc).trans (if_pos hexp)
    rw [hstep] at hr
    obtain ⟨sign, ds', r', rfl, hr'⟩ := ends_exponent hr
    refine ⟨⟨ds, some ⟨c == 'E', sign, ds'⟩⟩, r', ?_, hr'⟩
    have hmarker : (if (c == 'E') = true then 'E' else 'e' : UInt8) = c := by
      rcases hexp with rfl | rfl <;> rfl
    simp only [Fraction.text, Exponent.text, Option.elim, hmarker, List.cons_append,
      List.append_assoc]
  · have hstep : step (.running .fraction stack) c = numberEnd stack c :=
      (if_neg hc).trans (if_neg hexp)
    rw [hstep] at hr
    exact ⟨⟨ds, none⟩, _, by simp [Fraction.text], c, r, rfl, hr⟩

theorem ends_integer (h : Ends (.running .integer stack) w) :
    ∃ (ds : Digits) (x : Option Fraction) (r : List UInt8),
      w = ds.val ++ (x.elim [] Fraction.text ++ r) ∧ EndsNumber stack r := by
  obtain ⟨ds, c, r, rfl, hc, hr⟩ := ends_digits h fun _ hc => if_pos hc
  by_cases hpoint : c = '.'
  · have hstep : step (.running .integer stack) c = (.running .fraction stack, .ok) :=
      (if_neg hc).trans (if_pos hpoint)
    rw [hstep] at hr
    obtain ⟨x, r', hx, hr'⟩ := ends_fraction hr
    subst hpoint
    exact ⟨ds, some x, r', by rw [hx, Option.elim], hr'⟩
  · have hstep : step (.running .integer stack) c = numberEnd stack c :=
      (if_neg hc).trans (if_neg hpoint)
    rw [hstep] at hr
    exact ⟨ds, none, _, rfl, c, r, rfl, hr⟩

end

/-! ## Values and containers -/

def Doc.Rest (d : Doc) (stack : List Frame) (r : List UInt8) : Prop :=
  if d.isNumber then EndsNumber stack r else Ends (leave stack) r

/-- The character that ends a nested number is left to the frame below. -/
theorem Doc.Rest.leave {d : Doc} {frame : Frame} {stack : List Frame} {r : List UInt8}
    (h : d.Rest (frame :: stack) r) : Ends (.running frame.mode stack) r := by
  rw [Doc.Rest] at h
  split at h
  · obtain ⟨c, r, rfl, hr⟩ := h
    rw [Ends]
    rwa [step, stepMode_mode]
  · exact h

def ReadsValue (stack : List Frame) (w : List UInt8) : Prop :=
  ∃ (sp : Space) (d : Doc) (r : List UInt8), w = sp.val ++ (d.text ++ r) ∧
    stack.length + d.value.depth ≤ jsonStackSize + 1 ∧ d.Rest stack r

theorem ends_after (k : Container) {stack : List Frame} {w : List UInt8}
    (h : Ends (.running k.frame.mode stack) w) :
    ∃ (sp : Space) (r : List UInt8), (w = sp.val ++ k.close :: r ∧ Ends (leave stack) r) ∨
      (w = sp.val ++ (',' : UInt8) :: r ∧ Ends (.running k.next stack) r) := by
  obtain ⟨sp, c, r, rfl, hspace, hr⟩ := ends_space h (skips_frame k)
  refine ⟨sp, r, ?_⟩
  by_cases hcomma : c = ','
  · subst hcomma
    rw [step, stepMode_mode, after_comma] at hr
    exact .inr ⟨rfl, hr⟩
  · by_cases hclose : c = k.close
    · subst hclose
      rw [step, stepMode_mode, after_close] at hr
      exact .inl ⟨rfl, hr⟩
    · have hfail : step (.running k.frame.mode stack) c = fail := by
        cases k <;> exact (if_neg hspace).trans ((if_neg hcomma).trans (if_neg hclose))
      rw [hfail] at hr
      exact (ends_fail hr).elim

theorem ends_key {stack : List Frame} {w : List UInt8} (h : Ends (.running .objectKey stack) w) :
    stack.length < jsonStackSize ∧ ∃ (before : Space) (name : Text) (beforeColon : Space)
      (r : List UInt8), w = before.val ++ (quoted name ++ (beforeColon.val ++ (':' : UInt8) :: r)) ∧
        Ends (.running .value (.member :: stack)) r := by
  obtain ⟨before, c, r, rfl, hspace, hquote⟩ := ends_space h trivial
  simp only [step, stepMode, objectKey, if_neg hspace] at hquote
  split at hquote
  · subst c
    obtain ⟨hroom, hstring⟩ := ends_nested hquote
    have hstring : Ends (.running .string (.key :: stack)) r := hstring
    obtain ⟨name, r, rfl, hdone⟩ := ends_string hstring
    have hdone : Ends (.running .keyDone stack) r := hdone
    obtain ⟨beforeColon, c, r, rfl, hspace, hcolon⟩ := ends_space hdone trivial
    simp only [step, stepMode, keyDone, if_neg hspace] at hcolon
    split at hcolon
    · subst c
      obtain ⟨c, r, rfl, hmember⟩ := ends_running hcolon
      obtain ⟨_, hvalue⟩ := ends_nested hmember
      exact ⟨hroom, before, name, beforeColon, c :: r, by simp [quoted], hvalue⟩
    · exact (ends_fail hcolon).elim
  · exact (ends_fail hquote).elim

def Space.append (sp sp' : Space) : Space :=
  ⟨sp.val ++ sp'.val, fun c hc => (List.mem_append.mp hc).elim (sp.property c) (sp'.property c)⟩

def Items.indent (sp : Space) : Items → Items
  | .last before d after comma => .last (sp.append before) d after comma
  | .cons before d after rest => .cons (sp.append before) d after rest

def Members.indent (sp : Space) : Members → Members
  | .last key d after comma => .last { key with before := sp.append key.before } d after comma
  | .cons key d after rest => .cons { key with before := sp.append key.before } d after rest

theorem Items.text_indent (sp : Space) (items : Items) :
    (items.indent sp).text = sp.val ++ items.text := by
  cases items <;> simp [indent, text, Space.append]

theorem Items.values_indent (sp : Space) (items : Items) :
    (items.indent sp).values = items.values := by
  cases items <;> rfl

theorem Members.text_indent (sp : Space) (members : Members) :
    (members.indent sp).text = sp.val ++ members.text := by
  cases members <;> simp [indent, text, Key.text, Space.append]

theorem Members.values_indent (sp : Space) (members : Members) :
    (members.indent sp).values = members.values := by
  cases members <;> rfl

section
variable {n : Nat} (hvalue : ∀ (stack : List Frame) (w : List UInt8),
  stack.length ≤ jsonStackSize → w.length ≤ n → Ends (.running .value stack) w →
    ReadsValue stack w)

include hvalue

theorem ends_items (m : Nat) : ∀ (stack : List Frame) (w : List UInt8), w.length ≤ m → m ≤ n →
    stack.length < jsonStackSize → Ends (.running .value (.element :: stack)) w →
    ∃ (items : Items) (r : List UInt8), w = items.text ++ (']' : UInt8) :: r ∧
      stack.length + Value.arrayDepth items.values ≤ jsonStackSize ∧ Ends (leave stack) r := by
  induction m with
  | zero =>
    intro stack w hw _ _ h
    rw [List.length_eq_zero_iff.mp (Nat.le_zero.mp hw)] at h
    exact h.elim
  | succ m ih =>
    intro stack w hw hm hroom h
    obtain ⟨before, d, r, rfl, hdepth, hrest⟩ :=
      hvalue (.element :: stack) w hroom (Nat.le_trans hw hm) h
    rw [List.length_cons] at hdepth
    obtain ⟨after, r, ⟨rfl, hr⟩ | ⟨rfl, hnext⟩⟩ := ends_after .array hrest.leave
    · refine ⟨.last before d after false, r, by simp [Items.text, commaText, Container.close], ?_,
        hr⟩
      simp only [Items.values, Value.arrayDepth]
      omega
    · obtain ⟨c, r, rfl, hr⟩ := ends_running hnext
      simp only [step, stepMode, Container.next, arrayNext] at hr
      split at hr
      · subst c
        refine ⟨.last before d after true, r, by simp [Items.text, commaText], ?_, hr⟩
        simp only [Items.values, Value.arrayDepth]
        omega
      · obtain ⟨_, hr⟩ := ends_nested hr
        simp only [List.length_append, List.length_cons] at hw
        obtain ⟨items, r', hw', hdepth', hr'⟩ := ih stack (c :: r)
          (by rw [List.length_cons]; omega) (by omega) hroom hr
        refine ⟨.cons before d after items, r', by simp [Items.text, hw'], ?_, hr'⟩
        simp only [Items.values, Value.arrayDepth]
        omega

theorem ends_members (m : Nat) : ∀ (stack : List Frame) (w : List UInt8), w.length ≤ m → m ≤ n →
    Ends (.running .objectKey stack) w →
    ∃ (members : Members) (r : List UInt8), w = members.text ++ ('}' : UInt8) :: r ∧
      stack.length + Value.objectDepth members.values ≤ jsonStackSize ∧
      Ends (leave stack) r := by
  induction m with
  | zero =>
    intro stack w hw _ h
    rw [List.length_eq_zero_iff.mp (Nat.le_zero.mp hw)] at h
    exact h.elim
  | succ m ih =>
    intro stack w hw hm h
    obtain ⟨hroom, before, name, beforeColon, r, rfl, hmember⟩ := ends_key h
    simp only [List.length_append, List.length_cons] at hw
    obtain ⟨afterColon, d, r, rfl, hdepth, hrest⟩ :=
      hvalue (.member :: stack) r hroom (by omega) hmember
    rw [List.length_cons] at hdepth
    have hlast : ∀ comma, stack.length + Value.objectDepth
        (Members.last ⟨before, name, beforeColon, afterColon⟩ d afterColon comma).values ≤
          jsonStackSize := by
      intro comma
      simp only [Members.values, Value.objectDepth, Value.memberDepth]
      omega
    obtain ⟨after, r, ⟨rfl, hr⟩ | ⟨rfl, hnext⟩⟩ := ends_after .object hrest.leave
    · exact ⟨.last ⟨before, name, beforeColon, afterColon⟩ d after false, r,
        by simp [Members.text, Key.text, commaText, Container.close], hlast false, hr⟩
    · obtain ⟨c, r, rfl, hr⟩ := ends_running hnext
      simp only [step, stepMode, Container.next, objectNext] at hr
      split at hr
      · subst c
        exact ⟨.last ⟨before, name, beforeColon, afterColon⟩ d after true, r,
          by simp [Members.text, Key.text, commaText], hlast true, hr⟩
      · have hr : Ends (.running .objectKey stack) (c :: r) := hr
        simp only [List.length_append, List.length_cons] at hw
        obtain ⟨members, r', hw', hdepth', hr'⟩ := ih stack (c :: r)
          (by rw [List.length_cons]; omega) (by omega) hr
        refine ⟨.cons ⟨before, name, beforeColon, afterColon⟩ d after members, r',
          by simp [Members.text, Key.text, hw'], ?_, hr'⟩
        simp only [Members.values, Value.objectDepth, Value.memberDepth]
        omega

theorem ends_array {stack : List Frame} {w : List UInt8} (hw : w.length ≤ n)
    (h : Ends (.running .arrayOpen stack) w) (hstack : stack.length ≤ jsonStackSize) :
    ∃ (d : Doc) (r : List UInt8), ('[' : UInt8) :: w = d.text ++ r ∧
      stack.length + d.value.depth ≤ jsonStackSize + 1 ∧ d.Rest stack r := by
  obtain ⟨inside, c, r, rfl, hspace, hnext⟩ := ends_space h trivial
  simp only [step, stepMode, arrayOpen, if_neg hspace, arrayNext] at hnext
  split at hnext
  · subst c
    refine ⟨.emptyArray inside, r, by simp [Doc.text], ?_, hnext⟩
    simp only [Doc.value, Value.depth, Value.arrayDepth]
    omega
  · obtain ⟨hroom, helement⟩ := ends_nested hnext
    -- the space before the first element is skipped by the array
    simp only [List.length_append] at hw
    obtain ⟨items, r', hitems, hdepth, hr⟩ :=
      ends_items hvalue n stack (c :: r) (by omega) (Nat.le_refl n) hroom helement
    refine ⟨.array (items.indent inside), r', ?_, ?_, hr⟩
    · simp [Doc.text, Items.text_indent, hitems]
    · simp only [Doc.value, Items.values_indent, Value.depth]
      omega

theorem ends_object {stack : List Frame} {w : List UInt8} (hw : w.length ≤ n)
    (h : Ends (.running .objectOpen stack) w) (hstack : stack.length ≤ jsonStackSize) :
    ∃ (d : Doc) (r : List UInt8), ('{' : UInt8) :: w = d.text ++ r ∧
      stack.length + d.value.depth ≤ jsonStackSize + 1 ∧ d.Rest stack r := by
  obtain ⟨inside, c, r, rfl, hspace, hnext⟩ := ends_space h trivial
  simp only [step, stepMode, objectOpen, if_neg hspace, objectNext] at hnext
  split at hnext
  · subst c
    refine ⟨.emptyObject inside, r, by simp [Doc.text], ?_, hnext⟩
    simp only [Doc.value, Value.depth, Value.objectDepth]
    omega
  · have hkey : Ends (.running .objectKey stack) (c :: r) := hnext
    simp only [List.length_append] at hw
    obtain ⟨members, r', hmembers, hdepth, hr⟩ :=
      ends_members hvalue n stack (c :: r) (by omega) (Nat.le_refl n) hkey
    refine ⟨.object (members.indent inside), r', ?_, ?_, hr⟩
    · simp [Doc.text, Members.text_indent, hmembers]
    · simp only [Doc.value, Members.values_indent, Value.depth]
      omega

end

theorem ends_signed {stack : List Frame} {c : UInt8} {w : List UInt8} (hc : c = '+' ∨ c = '-')
    (h : Ends (.running .integer stack) w) :
    ∃ (n : Lexeme) (r : List UInt8), c :: w = n.text ++ r ∧ EndsNumber stack r := by
  obtain ⟨ds, x, r, rfl, hrest⟩ := ends_integer h
  rcases hc with rfl | rfl
  · exact ⟨⟨.plus, ds, x, .inl (by decide)⟩, r, by simp [Lexeme.text, Sign.text], hrest⟩
  · exact ⟨⟨.minus, ds, x, .inl (by decide)⟩, r, by simp [Lexeme.text, Sign.text], hrest⟩

theorem ends_unsigned {stack : List Frame} {c : UInt8} {w : List UInt8} (hc : isdigit c = true)
    (h : Ends (.running .integer stack) w) :
    ∃ (n : Lexeme) (r : List UInt8), c :: w = n.text ++ r ∧ EndsNumber stack r := by
  obtain ⟨⟨ds, hds⟩, x, r, rfl, hrest⟩ := ends_integer h
  have hcons : ∀ y ∈ c :: ds, isdigit y = true := List.forall_mem_cons.mpr ⟨hc, hds⟩
  exact ⟨⟨.none, ⟨c :: ds, hcons⟩, x, .inr (.inl (by simp))⟩, r,
    by simp [Lexeme.text, Sign.text], hrest⟩

theorem ends_point {stack : List Frame} {w : List UInt8} (h : Ends (.running .fraction stack) w) :
    ∃ (n : Lexeme) (r : List UInt8), ('.' : UInt8) :: w = n.text ++ r ∧ EndsNumber stack r := by
  obtain ⟨x, r, hx, hrest⟩ := ends_fraction h
  exact ⟨⟨.none, ⟨[], by simp⟩, some x, .inr (.inr (by simp))⟩, r,
    by simpa [Lexeme.text, Sign.text] using hx, hrest⟩

theorem ends_ite {p : Prop} [Decidable p] {a b : Step} {w : List UInt8}
    (h : Ends (if p then a else b).1 w) : p ∧ Ends a.1 w ∨ ¬p ∧ Ends b.1 w := by
  split at h
  · exact .inl ⟨‹_›, h⟩
  · exact .inr ⟨‹_›, h⟩

/-- Every word that is accepted from the start of a value begins with a layout. -/
theorem ends_value (n : Nat) : ∀ (stack : List Frame) (w : List UInt8),
    stack.length ≤ jsonStackSize → w.length ≤ n → Ends (.running .value stack) w →
      ReadsValue stack w := by
  induction n with
  | zero =>
    intro stack w _ hw h
    rw [List.length_eq_zero_iff.mp (Nat.le_zero.mp hw)] at h
    exact h.elim
  | succ n ih =>
    intro stack w hstack hw h
    obtain ⟨sp, c, r, rfl, hspace, hr⟩ := ends_space h trivial
    simp only [List.length_append, List.length_cons] at hw
    have hlen : r.length ≤ n := by omega
    suffices hdoc : ∃ (d : Doc) (r' : List UInt8), c :: r = d.text ++ r' ∧
        stack.length + d.value.depth ≤ jsonStackSize + 1 ∧ d.Rest stack r' by
      obtain ⟨d, r', hd, hrest⟩ := hdoc
      exact ⟨sp, d, r', by rw [hd], hrest⟩
    have hscalar : ∀ v : Value, v.depth = 1 → stack.length + v.depth ≤ jsonStackSize + 1 := by
      intro v hv
      omega
    simp only [step, stepMode, value, if_neg hspace] at hr
    rcases ends_ite hr with ⟨rfl, hr⟩ | ⟨_, hr⟩
    · obtain ⟨r, rfl, hrest⟩ := ends_word (by simp) hr
      exact ⟨.null, r, rfl, hscalar _ rfl, hrest⟩
    rcases ends_ite hr with ⟨rfl, hr⟩ | ⟨_, hr⟩
    · obtain ⟨r, rfl, hrest⟩ := ends_word (by simp) hr
      exact ⟨.bool true, r, rfl, hscalar _ rfl, hrest⟩
    rcases ends_ite hr with ⟨rfl, hr⟩ | ⟨_, hr⟩
    · obtain ⟨r, rfl, hrest⟩ := ends_word (by simp) hr
      exact ⟨.bool false, r, rfl, hscalar _ rfl, hrest⟩
    rcases ends_ite hr with ⟨rfl, hr⟩ | ⟨_, hr⟩
    · obtain ⟨s, r, rfl, hrest⟩ := ends_string hr
      exact ⟨.string s, r, by simp [Doc.text, quoted], hscalar _ rfl, hrest⟩
    rcases ends_ite hr with ⟨rfl, hr⟩ | ⟨_, hr⟩
    · exact ends_array ih hlen hr hstack
    rcases ends_ite hr with ⟨rfl, hr⟩ | ⟨_, hr⟩
    · exact ends_object ih hlen hr hstack
    rcases ends_ite hr with ⟨hsign, hr⟩ | ⟨_, hr⟩
    · obtain ⟨n, r, hn, hrest⟩ := ends_signed hsign hr
      exact ⟨.number n, r, hn, hscalar _ rfl, hrest⟩
    rcases ends_ite hr with ⟨hdigit, hr⟩ | ⟨_, hr⟩
    · obtain ⟨n, r, hn, hrest⟩ := ends_unsigned hdigit hr
      exact ⟨.number n, r, hn, hscalar _ rfl, hrest⟩
    rcases ends_ite hr with ⟨rfl, hr⟩ | ⟨_, hr⟩
    · obtain ⟨n, r, hn, hrest⟩ := ends_point hr
      exact ⟨.number n, r, hn, hscalar _ rfl, hrest⟩
    · exact (ends_fail hr).elim

/-! ## Commas before closing brackets

Whether a layout is strict can be read off its text: outside of strings, no
comma is directly followed by a closing bracket.
-/

structure Scan where
  inString : Bool
  afterComma : Bool
  found : Bool

def Scan.step (s : Scan) (c : UInt8) : Scan :=
  if s.inString then { s with inString := c != '"' }
  else ⟨c == '"', c == ',', s.found || (s.afterComma && (c == ']' || c == '}'))⟩

def Scan.read (s : Scan) (w : List UInt8) : Scan := w.foldl step s

namespace Scan

def outside (comma found : Bool) : Scan := ⟨false, comma, found⟩

theorem read_append (s : Scan) (w w' : List UInt8) :
    s.read (w ++ w') = (s.read w).read w' := List.foldl_append

theorem read_cons (s : Scan) (c : UInt8) (w : List UInt8) :
    s.read (c :: w) = (s.step c).read w := rfl

theorem read_nil (s : Scan) : s.read [] = s := rfl

def Plain (c : UInt8) : Prop := c ≠ '"' ∧ c ≠ ',' ∧ c ≠ ']' ∧ c ≠ '}'

variable {p f : Bool}

theorem step_plain {c : UInt8} (h : Plain c) : (outside p f).step c = outside false f := by
  obtain ⟨hquote, hcomma, hclose, hclose'⟩ := h
  rw [step, if_neg (by simp [outside]), beq_eq_false_iff_ne.mpr hquote,
    beq_eq_false_iff_ne.mpr hcomma, beq_eq_false_iff_ne.mpr hclose,
    beq_eq_false_iff_ne.mpr hclose']
  simp [outside]

theorem read_plain {w : List UInt8} (h : ∀ c ∈ w, Plain c) :
    (outside p f).read w = outside (p && w.isEmpty) f := by
  induction w generalizing p with
  | nil => simp [read_nil]
  | cons c w ih =>
    rw [read_cons, step_plain (h c List.mem_cons_self),
      ih (List.forall_mem_cons.mp h).2]
    simp

theorem plain_of_isspace {c : UInt8} (h : isspace c = true) : Plain c := by
  refine ⟨?_, ?_, ?_, ?_⟩ <;> rintro rfl <;> exact absurd h (by decide)

theorem read_space (sp : Space) : (outside p f).read sp.val = outside (p && sp.val.isEmpty) f :=
  read_plain fun c hc => plain_of_isspace (sp.property c hc)

theorem plain_of_isNumeric {c : UInt8} (h : isNumeric c = true) : Plain c := by
  refine ⟨?_, ?_, ?_, ?_⟩ <;> rintro rfl <;> exact absurd h (by decide)

theorem plain_lexeme (n : Lexeme) : ∀ c ∈ n.text, Plain c :=
  fun c hc => plain_of_isNumeric (n.numeric c hc)

theorem read_lexeme (n : Lexeme) : (outside p f).read n.text = outside false f := by
  obtain ⟨c, r, hn, _⟩ := n.opens
  rw [read_plain (plain_lexeme n), hn]
  simp

theorem read_text {s : List UInt8} (h : ∀ c ∈ s, c ≠ ('"' : UInt8)) :
    Scan.read ⟨true, p, f⟩ s = ⟨true, p, f⟩ := by
  induction s with
  | nil => rfl
  | cons c s ih =>
    have hc := h c List.mem_cons_self
    rw [read_cons, step, if_pos rfl]
    simp only [bne_iff_ne.mpr hc]
    exact ih (List.forall_mem_cons.mp h).2

theorem read_quoted (s : Text) : (outside p f).read (quoted s) = outside false f := by
  have hopen : (outside p f).step '"' = ⟨true, false, f⟩ := by simp [step, outside]
  rw [quoted, read_cons, hopen, read_append, read_text s.property]
  rfl

theorem read_key (k : Key) : (outside p f).read k.text = outside false f := by
  have hcolon : Plain ':' := ⟨by decide, by decide, by decide, by decide⟩
  rw [Key.text, read_append, read_space, read_append, read_quoted, read_append, read_space,
    read_cons, Bool.false_and, step_plain hcolon, read_space, Bool.false_and]

theorem read_comma (comma : Bool) :
    (outside false f).read (commaText comma) = outside comma f := by
  cases comma
  · rfl
  · simp [commaText, read, step, outside]

theorem step_close (k : Container) :
    (outside p f).step k.close = outside false (f || p) := by
  cases k <;> simp [step, outside, Container.close]

mutual

theorem read_doc (d : Doc) (p f : Bool) :
    (outside p f).read d.text = outside false (f || !d.strict) := by
  cases d with
  | null => simp [Doc.text, read, step, outside, Doc.strict]
  | bool b => cases b <;> simp [Doc.text, boolText, read, step, outside, Doc.strict]
  | number n => simpa [Doc.text, Doc.strict] using read_lexeme n
  | string s => simpa [Doc.text, Doc.strict] using read_quoted s
  | emptyArray inside =>
    have hopen : Plain '[' := ⟨by decide, by decide, by decide, by decide⟩
    rw [Doc.text, read_cons, step_plain hopen, read_append, read_space, Bool.false_and]
    apply (step_close .array).trans
    simp [Doc.strict]
  | array items =>
    have hopen : Plain '[' := ⟨by decide, by decide, by decide, by decide⟩
    rw [Doc.text, read_cons, step_plain hopen]
    exact read_items items false f
  | emptyObject inside =>
    have hopen : Plain '{' := ⟨by decide, by decide, by decide, by decide⟩
    rw [Doc.text, read_cons, step_plain hopen, read_append, read_space, Bool.false_and]
    apply (step_close .object).trans
    simp [Doc.strict]
  | object members =>
    have hopen : Plain '{' := ⟨by decide, by decide, by decide, by decide⟩
    rw [Doc.text, read_cons, step_plain hopen]
    exact read_members members false f

theorem read_items (items : Items) (p f : Bool) :
    (outside p f).read (items.text ++ [(']' : UInt8)]) = outside false (f || !items.strict) := by
  cases items with
  | last before d after comma =>
    rw [Items.text, read_append, read_append, read_space, read_append, read_doc, read_append,
      read_space, Bool.false_and, read_comma]
    apply (step_close .array).trans
    simp [Items.strict, Bool.or_assoc]
  | cons before d after rest =>
    have hcomma : ∀ f, (outside false f).step ',' = outside true f := by simp [step, outside]
    rw [Items.text, List.append_assoc, List.append_assoc, List.append_assoc, read_append,
      read_space, read_append, read_doc, read_append, read_space, Bool.false_and,
      List.cons_append, read_cons, hcomma, read_items rest]
    simp [Items.strict, Bool.or_assoc]

theorem read_members (members : Members) (p f : Bool) :
    (outside p f).read (members.text ++ [('}' : UInt8)]) =
      outside false (f || !members.strict) := by
  cases members with
  | last key d after comma =>
    rw [Members.text, read_append, read_append, read_key, read_append, read_doc, read_append,
      read_space, Bool.false_and, read_comma]
    apply (step_close .object).trans
    simp [Members.strict, Bool.or_assoc]
  | cons key d after rest =>
    have hcomma : ∀ f, (outside false f).step ',' = outside true f := by simp [step, outside]
    rw [Members.text, List.append_assoc, List.append_assoc, List.append_assoc, read_append,
      read_key, read_append, read_doc, read_append, read_space, Bool.false_and,
      List.cons_append, read_cons, hcomma, read_members rest]
    simp [Members.strict, Bool.or_assoc]

end

end Scan

theorem strict_unique {sp sp' : Space} {d d' : Doc}
    (h : sp.val ++ d.text = sp'.val ++ d'.text) : d.strict = d'.strict := by
  have hread := congrArg (Scan.outside false false).read h
  simp only [Scan.read_append, Scan.read_space, Scan.read_doc, Bool.false_and, Bool.false_or]
    at hread
  have hfound := congrArg Scan.found hread
  simpa [Scan.outside] using hfound

/-! ## Acceptance -/

def jsonFinal (jsn : Json) (w : List UInt8) : JsonCode :=
  (Transducer.run jsonParse (jsonInit jsn) w).final

/-- The last character of the word is the one that sets `final` to `done`. -/
def Finishes (jsn : Json) (w : List UInt8) : Prop :=
  ∃ u c, w = u ++ [c] ∧ jsonFinal jsn u = .ok ∧ jsonFinal jsn w = .done

def startsNumber (w : List UInt8) : Bool :=
  match w.dropWhile isspace with
  | [] => false
  | c :: _ => c == '+' || c == '-' || c == '.' || isdigit c

/-- A number at the top needs one more character to end it. -/
def Accepts (jsn : Json) (w : List UInt8) : Prop :=
  if startsNumber w then ∀ c, isspace c = true → Finishes jsn (w ++ [c]) else Finishes jsn w

def Document (w : List UInt8) : Prop :=
  ∃ (sp : Space) (d : Doc), d.Strict ∧ d.value.depth ≤ 9 ∧ w = sp.val ++ d.text

/-- The word would be a document but for a comma directly before a closing bracket. -/
def TrailingComma (w : List UInt8) : Prop :=
  ∃ (sp : Space) (d : Doc), ¬d.Strict ∧ d.value.depth ≤ 9 ∧ w = sp.val ++ d.text

theorem run_halted (code : JsonCode) (w : List UInt8) :
    Transducer.run step (.halted code) w = .halted code := by
  induction w with
  | nil => rfl
  | cons c w ih => exact ih

theorem ends_nil {a : Control} : Ends a [] ↔ a = .halted .done := by
  cases a with
  | halted code => simp [ends_halted]
  | running mode stack => simp [Ends]

theorem ends_append {u v : List UInt8} (hv : v ≠ []) {a : Control} :
    Ends a (u ++ v) ↔
      (∃ mode stack, Transducer.run step a u = .running mode stack) ∧
        Ends (Transducer.run step a u) v := by
  have hhalted : ∀ code, ¬Ends (.halted code) v := fun code h => hv (ends_halted.mp h).2
  induction u generalizing a with
  | nil =>
    cases a with
    | halted code => exact iff_of_false (hhalted code) fun h => hhalted code h.2
    | running mode stack => exact (and_iff_right ⟨mode, stack, rfl⟩).symm
  | cons c u ih =>
    cases a with
    | halted code =>
      rw [run_halted]
      exact iff_of_false (fun h => absurd (ends_halted.mp h).2 (by simp))
        fun h => hhalted code h.2
    | running mode stack => exact ih

theorem jsonFinal_ok_iff (jsn : Json) (w : List UInt8) : jsonFinal jsn w = .ok ↔
    ∃ mode stack, Transducer.run step (.running .value []) w = .running mode stack := by
  have hshows := (shows_run jsn w).1
  rw [jsonFinal]
  cases hrun : Transducer.run step (.running .value []) w with
  | halted code =>
    rw [hrun] at hshows
    simp [hshows.1, hshows.2]
  | running mode stack =>
    rw [hrun] at hshows
    simp [hshows.1]

theorem jsonFinal_done_iff (jsn : Json) (w : List UInt8) : jsonFinal jsn w = .done ↔
    Transducer.run step (.running .value []) w = .halted .done := by
  have hshows := (shows_run jsn w).1
  rw [jsonFinal]
  cases hrun : Transducer.run step (.running .value []) w with
  | halted code =>
    rw [hrun] at hshows
    simp [hshows.1]
  | running mode stack =>
    rw [hrun] at hshows
    simp [hshows.1]

theorem finishes_iff (jsn : Json) (w : List UInt8) :
    Finishes jsn w ↔ Ends (.running .value []) w := by
  have hsnoc : ∀ u c, Ends (.running .value []) (u ++ [c]) ↔
      jsonFinal jsn u = .ok ∧ jsonFinal jsn (u ++ [c]) = .done := by
    intro u c
    rw [ends_append (by simp), jsonFinal_ok_iff, jsonFinal_done_iff, Transducer.run_append]
    apply and_congr_right
    rintro ⟨mode, stack, hrun⟩
    rw [hrun]
    exact ends_nil
  constructor
  · rintro ⟨u, c, rfl, h⟩
    exact (hsnoc u c).mpr h
  · intro h
    rcases List.eq_nil_or_concat w with rfl | ⟨u, c, rfl⟩
    · exact h.elim
    · rw [List.concat_eq_append] at h ⊢
      exact ⟨u, c, rfl, (hsnoc u c).mp h⟩

theorem startsNumber_text (sp : Space) (d : Doc) (r : List UInt8) :
    startsNumber (sp.val ++ (d.text ++ r)) = d.isNumber := by
  have hskip : (sp.val ++ (d.text ++ r)).dropWhile isspace = d.text ++ r := by
    obtain ⟨c, w, hd, hspace, _⟩ := d.opens
    rw [List.dropWhile_append_of_pos sp.property, hd, List.cons_append, List.dropWhile_cons,
      if_neg (by rw [hspace]; decide)]
  rw [startsNumber]
  rw [hskip]
  cases d with
  | bool b => cases b <;> rfl
  | number n =>
    obtain ⟨sign, ⟨int, hint⟩, fraction, hne⟩ := n
    cases sign with
    | plus => rfl
    | minus => rfl
    | none =>
      cases int with
      | cons c ds =>
        have hc := hint c List.mem_cons_self
        simp [Doc.text, Lexeme.text, Sign.text, hc, Doc.isNumber]
      | nil =>
        cases fraction with
        | none => simp at hne
        | some x => rfl
  | _ => rfl

theorem startsNumber_append {w : List UInt8} (h : startsNumber w = true) (v : List UInt8) :
    startsNumber (w ++ v) = true := by
  rw [startsNumber] at h ⊢
  rw [List.dropWhile_append]
  cases hw : w.dropWhile isspace with
  | nil =>
    rw [hw] at h
    exact absurd h (by decide)
  | cons c r =>
    rw [hw] at h
    exact h

theorem layout_of_finishes {jsn : Json} {w : List UInt8} (h : Finishes jsn w) :
    ∃ (sp : Space) (d : Doc) (r : List UInt8),
      w = sp.val ++ (d.text ++ r) ∧ d.value.depth ≤ 9 ∧ d.Rest [] r := by
  obtain ⟨sp, d, r, hw, hdepth, hrest⟩ :=
    ends_value w.length [] w (Nat.zero_le _) (Nat.le_refl _) ((finishes_iff jsn w).mp h)
  rw [List.length_nil, Nat.zero_add] at hdepth
  exact ⟨sp, d, r, hw, hdepth, hrest⟩

theorem layout_of_accepts {jsn : Json} {w : List UInt8} (h : Accepts jsn w) :
    ∃ (sp : Space) (d : Doc), d.value.depth ≤ 9 ∧ w = sp.val ++ d.text := by
  rw [Accepts] at h
  split at h
  · rename_i hnum
    -- the blank that ends the number is all that is left after it
    obtain ⟨sp, d, r, hw, hdepth, hrest⟩ := layout_of_finishes (h 32 rfl)
    have hisNumber := startsNumber_append hnum [32]
    rw [hw, startsNumber_text] at hisNumber
    rw [Doc.Rest, if_pos hisNumber] at hrest
    obtain ⟨c, r, rfl, hr⟩ := hrest
    obtain ⟨_, rfl⟩ := ends_halted.mp hr
    rw [← List.append_assoc] at hw
    exact ⟨sp, d, hdepth, (List.append_inj' hw rfl).1⟩
  · rename_i hnum
    obtain ⟨sp, d, r, rfl, hdepth, hrest⟩ := layout_of_finishes h
    rw [startsNumber_text] at hnum
    rw [Doc.Rest, if_neg hnum] at hrest
    obtain ⟨_, rfl⟩ := ends_halted.mp hrest
    exact ⟨sp, d, hdepth, by rw [List.append_nil]⟩

theorem accepts_layout (jsn : Json) (sp : Space) (d : Doc) (hdepth : d.value.depth ≤ 9) :
    Accepts jsn (sp.val ++ d.text) := by
  obtain ⟨a, ha, hfeeds⟩ := feeds_doc d [] (by rw [jsonStackSize, List.length_nil]; omega)
  have hends := fun r => (((feeds_space .value trivial [] sp).append hfeeds) r).2.2
  have hstarts := startsNumber_text sp d []
  rw [List.append_nil] at hstarts
  rw [Accepts, hstarts]
  rw [Doc.Settled] at ha
  split
  · rename_i hnum
    rw [if_pos hnum] at ha
    obtain ⟨mode, hmode, rfl⟩ := ha
    intro c hc
    apply (finishes_iff jsn _).mpr
    apply hends [c]
    rw [Ends, step_delimiter hmode [] (.inl hc)]
    exact ends_nil.mpr rfl
  · rename_i hnum
    rw [if_neg hnum] at ha
    subst ha
    apply (finishes_iff jsn _).mpr
    have h := hends [] (ends_nil.mpr rfl)
    rwa [List.append_nil] at h

theorem accepts_iff_layout (jsn : Json) (w : List UInt8) :
    Accepts jsn w ↔
      ∃ (sp : Space) (d : Doc), d.value.depth ≤ 9 ∧ w = sp.val ++ d.text := by
  constructor
  · exact layout_of_accepts
  · rintro ⟨sp, d, hdepth, rfl⟩
    exact accepts_layout jsn sp d hdepth

/-- The parser accepts what its grammar says, except for the words with a comma
directly before a closing bracket, all of which it accepts as well. -/
theorem json_accepts_iff (jsn : Json) (w : List UInt8) :
    (Accepts jsn w ↔ Document w) ↔ ¬TrailingComma w := by
  constructor
  · rintro h ⟨sp, d, hstrict, hdepth, rfl⟩
    obtain ⟨sp', d', hstrict', _, hw⟩ :=
      h.mp ((accepts_iff_layout jsn _).mpr ⟨sp, d, hdepth, rfl⟩)
    exact hstrict ((strict_unique hw).trans hstrict')
  · intro h
    rw [accepts_iff_layout]
    constructor
    · rintro ⟨sp, d, hdepth, rfl⟩
      cases hstrict : d.strict with
      | true => exact ⟨sp, d, hstrict, hdepth, rfl⟩
      | false =>
        have hnot : ¬d.Strict := by
          rw [Doc.Strict, hstrict]
          decide
        exact absurd ⟨sp, d, hnot, hdepth, rfl⟩ h
    · rintro ⟨sp, d, _, hdepth, rfl⟩
      exact ⟨sp, d, hdepth, rfl⟩

theorem json_accepts_trailing_comma :
    ¬(Accepts ⟨bufferInit (Block.ofCells (List.replicate 8 0)) 8, .reset, [], .ok⟩
        ['[', '1', ',', ']'] ↔ Document ['[', '1', ',', ']']) := by
  intro h
  have haccepts : Accepts ⟨bufferInit (Block.ofCells (List.replicate 8 0)) 8, .reset, [], .ok⟩
      ['[', '1', ',', ']'] :=
    ⟨['[', '1', ','], ']', rfl, by decide +kernel, by decide +kernel⟩
  obtain ⟨sp, d, hstrict, _, hw⟩ := h.mp haccepts
  have hrelaxed : Space.none.val ++ (Doc.array (.last .none (.number .one) .none true)).text =
      sp.val ++ d.text := hw
  exact absurd ((strict_unique hrelaxed).trans hstrict) (by decide)

end Wifimodem
