import Mathlib.Data.List.Forall2

/-!
# Deterministic machines with one output per input

A machine is a step function. Its run over an input word, the outputs of the
run, the invariant rule and the simulation rule are stated once here, for
arbitrary states, inputs and outputs.
-/

namespace Transducer

variable {σ τ α β : Type*}

def run (step : σ → α → σ × β) : σ → List α → σ
  | s, [] => s
  | s, a :: as => run step (step s a).1 as

def outputs (step : σ → α → σ × β) : σ → List α → List β
  | _, [] => []
  | s, a :: as => (step s a).2 :: outputs step (step s a).1 as

@[simp] theorem run_nil (step : σ → α → σ × β) (s : σ) : run step s [] = s := rfl

@[simp] theorem run_cons (step : σ → α → σ × β) (s : σ) (a : α) (as : List α) :
    run step s (a :: as) = run step (step s a).1 as := rfl

@[simp] theorem outputs_nil (step : σ → α → σ × β) (s : σ) : outputs step s [] = [] := rfl

@[simp] theorem outputs_cons (step : σ → α → σ × β) (s : σ) (a : α) (as : List α) :
    outputs step s (a :: as) = (step s a).2 :: outputs step (step s a).1 as := rfl

theorem run_append (step : σ → α → σ × β) (s : σ) (as bs : List α) :
    run step s (as ++ bs) = run step (run step s as) bs := by
  induction as generalizing s with
  | nil => rfl
  | cons a as ih => exact ih (step s a).1

theorem outputs_append (step : σ → α → σ × β) (s : σ) (as bs : List α) :
    outputs step s (as ++ bs) = outputs step s as ++ outputs step (run step s as) bs := by
  induction as generalizing s with
  | nil => rfl
  | cons a as ih => exact congrArg _ (ih (step s a).1)

theorem run_eq_foldl (step : σ → α → σ × β) (s : σ) (as : List α) :
    run step s as = as.foldl (fun s a => (step s a).1) s := by
  induction as generalizing s with
  | nil => rfl
  | cons a as ih => exact ih (step s a).1

theorem run_invariant {step : σ → α → σ × β} (Inv : σ → Prop)
    (hstep : ∀ s a, Inv s → Inv (step s a).1) {s : σ} (hs : Inv s) (as : List α) :
    Inv (run step s as) := by
  induction as generalizing s with
  | nil => exact hs
  | cons a as ih => exact ih (hstep s a hs)

/-- Two machines whose related states step to related states with equal
outputs have equal outputs on every word, and end in related states. -/
theorem simulation {step : σ → α → σ × β} {step' : τ → α → τ × β} {R : σ → τ → Prop}
    (hstep : ∀ s t a, R s t → R (step s a).1 (step' t a).1 ∧ (step s a).2 = (step' t a).2)
    {s : σ} {t : τ} (hst : R s t) (as : List α) :
    R (run step s as) (run step' t as) ∧ outputs step s as = outputs step' t as := by
  induction as generalizing s t with
  | nil => exact ⟨hst, rfl⟩
  | cons a as ih =>
    obtain ⟨hR, hout⟩ := hstep s t a hst
    obtain ⟨hrun, houts⟩ := ih hR
    constructor
    · exact hrun
    · rw [outputs_cons, outputs_cons, hout, houts]

/-- `P` holds at every step of the run, of the state before the step and its input. -/
def Throughout (step : σ → α → σ × β) (P : σ → α → Prop) : σ → List α → Prop
  | _, [] => True
  | s, a :: as => P s a ∧ Throughout step P (step s a).1 as

instance decidableThroughout (step : σ → α → σ × β) (P : σ → α → Prop)
    [∀ s a, Decidable (P s a)] : ∀ s as, Decidable (Throughout step P s as)
  | _, [] => .isTrue trivial
  | s, a :: as =>
    have := decidableThroughout step P (step s a).1 as
    inferInstanceAs (Decidable (P s a ∧ _))

theorem run_throughout {step : σ → α → σ × β} {P : σ → α → Prop} (Inv : σ → Prop)
    (hstep : ∀ s a, Inv s → P s a → Inv (step s a).1) {s : σ} (hs : Inv s) {as : List α}
    (h : Throughout step P s as) : Inv (run step s as) := by
  induction as generalizing s with
  | nil => exact hs
  | cons a as ih => exact ih (hstep s a hs h.1) h.2

/-- The simulation rule where only the steps with `P` are taken. -/
theorem simulation_throughout {step : σ → α → σ × β} {step' : τ → α → τ × β} {R : σ → τ → Prop}
    {P : τ → α → Prop} (hstep : ∀ s t a, R s t → P t a →
      R (step s a).1 (step' t a).1 ∧ (step s a).2 = (step' t a).2)
    {s : σ} {t : τ} (hst : R s t) {as : List α} (hP : Throughout step' P t as) :
    R (run step s as) (run step' t as) ∧ outputs step s as = outputs step' t as := by
  induction as generalizing s t with
  | nil => exact ⟨hst, rfl⟩
  | cons a as ih =>
    obtain ⟨ha, htail⟩ := hP
    obtain ⟨hR, hout⟩ := hstep s t a hst ha
    obtain ⟨hrun, houts⟩ := ih hR htail
    constructor
    · exact hrun
    · rw [outputs_cons, outputs_cons, hout, houts]

/-- What holds of every step from related states holds throughout the run. -/
theorem throughout_simulation {γ : Type*} {step : σ → α → σ × β} {step' : τ → α → τ × γ}
    {R : σ → τ → Prop} {P : τ → α → Prop} {Q : σ → α → Prop} (hstep : ∀ s t a, R s t → P t a →
      R (step s a).1 (step' t a).1 ∧ Q s a)
    {s : σ} {t : τ} (hst : R s t) {as : List α} (hP : Throughout step' P t as) :
    Throughout step Q s as := by
  induction as generalizing s t with
  | nil => trivial
  | cons a as ih =>
    obtain ⟨hR, hQ⟩ := hstep s t a hst hP.1
    exact ⟨hQ, ih hR hP.2⟩

theorem throughout_iff_forall {step : σ → α → σ × β} {P : σ → α → Prop} {s : σ} {as : List α} :
    Throughout step P s as ↔
      ∀ past a rest, as = past ++ a :: rest → P (run step s past) a := by
  induction as generalizing s with
  | nil =>
    refine iff_of_true trivial ?_
    intro past a rest h
    cases List.append_ne_nil_of_right_ne_nil past (List.cons_ne_nil a rest) h.symm
  | cons b as ih =>
    constructor
    · rintro ⟨hb, htail⟩ past a rest h
      cases past with
      | nil =>
        obtain ⟨rfl, _⟩ := List.cons.inj h
        exact hb
      | cons c past =>
        obtain ⟨rfl, htl⟩ := List.cons.inj h
        exact ih.mp htail past a rest htl
    · intro h
      refine ⟨h [] b as rfl, ih.mpr ?_⟩
      rintro past a rest rfl
      exact h (b :: past) a rest rfl

/-- The rule for exact conditions: a relation that every good step preserves, and
under which the steps of one machine are good when those of the other are. -/
theorem throughout_iff {γ : Type*} {step : σ → α → σ × β} {step' : τ → α → τ × γ}
    {P : σ → α → Prop} {Q : τ → α → Prop} (R : σ → τ → Prop)
    (hiff : ∀ s t a, R s t → (P s a ↔ Q t a))
    (hstep : ∀ s t a, R s t → P s a → R (step s a).1 (step' t a).1)
    {s : σ} {t : τ} (hst : R s t) (as : List α) :
    Throughout step P s as ↔ Throughout step' Q t as := by
  induction as generalizing s t with
  | nil => exact Iff.rfl
  | cons a as ih =>
    constructor
    · rintro ⟨ha, htail⟩
      exact ⟨(hiff s t a hst).mp ha, (ih (hstep s t a hst ha)).mp htail⟩
    · rintro ⟨ha, htail⟩
      have hP := (hiff s t a hst).mpr ha
      exact ⟨hP, (ih (hstep s t a hst hP)).mpr htail⟩

theorem throughout_iff_of_invariant {step : σ → α → σ × β} {P Q : σ → α → Prop} (Inv : σ → Prop)
    (hiff : ∀ s a, Inv s → (P s a ↔ Q s a)) (hstep : ∀ s a, Inv s → P s a → Inv (step s a).1)
    {s : σ} (hs : Inv s) (as : List α) : Throughout step P s as ↔ Throughout step Q s as := by
  apply throughout_iff (fun s t => s = t ∧ Inv s)
  · rintro s _ a ⟨rfl, h⟩
    exact hiff s a h
  · rintro s _ a ⟨rfl, h⟩ hP
    exact ⟨rfl, hstep s a h hP⟩
  · exact ⟨rfl, hs⟩

theorem throughout_and {step : σ → α → σ × β} {P Q : σ → α → Prop} {s : σ} {as : List α} :
    Throughout step (fun s a => P s a ∧ Q s a) s as ↔
      Throughout step P s as ∧ Throughout step Q s as := by
  induction as generalizing s with
  | nil => exact ⟨fun _ => ⟨trivial, trivial⟩, fun _ => trivial⟩
  | cons a as ih =>
    constructor
    · rintro ⟨⟨hP, hQ⟩, htail⟩
      obtain ⟨hPs, hQs⟩ := ih.mp htail
      exact ⟨⟨hP, hPs⟩, hQ, hQs⟩
    · rintro ⟨⟨hP, hPs⟩, hQ, hQs⟩
      exact ⟨⟨hP, hQ⟩, ih.mpr ⟨hPs, hQs⟩⟩

/-- The rule for exact conditions on the runs whose steps all have `G`. -/
theorem throughout_iff_within {step : σ → α → σ × β} {G P Q : σ → α → Prop} (Inv : σ → Prop)
    (hiff : ∀ s a, Inv s → G s a → (P s a ↔ Q s a))
    (hstep : ∀ s a, Inv s → G s a → P s a → Inv (step s a).1) {s : σ} (hs : Inv s)
    {as : List α} (hG : Throughout step G s as) :
    Throughout step P s as ↔ Throughout step Q s as := by
  have hboth : Throughout step (fun s a => G s a ∧ P s a) s as ↔
      Throughout step (fun s a => G s a ∧ Q s a) s as := by
    refine throughout_iff_of_invariant Inv ?_ ?_ hs as
    · exact fun s a h => and_congr_right (hiff s a h)
    · exact fun s a h hGP => hstep s a h hGP.1 hGP.2
  rw [throughout_and, throughout_and] at hboth
  exact ⟨fun h => (hboth.mp ⟨hG, h⟩).2, fun h => (hboth.mpr ⟨hG, h⟩).2⟩

/-! ## Two runs -/

@[simp] theorem length_outputs (step : σ → α → σ × β) (s : σ) (as : List α) :
    (outputs step s as).length = as.length := by
  induction as generalizing s with
  | nil => rfl
  | cons a as ih => exact congrArg (· + 1) (ih (step s a).1)

theorem outputs_take (step : σ → α → σ × β) (s : σ) (as : List α) (n : Nat) :
    outputs step s (as.take n) = (outputs step s as).take n := by
  induction as generalizing s n with
  | nil => rw [List.take_nil, outputs_nil, List.take_nil]
  | cons a as ih =>
    cases n with
    | zero => rfl
    | succ n => exact congrArg _ (ih (step s a).1 n)

section
variable {γ : Type*} {step : σ → α → σ × β} {step' : τ → γ → τ × β} {R : σ → τ → Prop}
  {Q : α → γ → Prop}

/-- Inputs that are related one by one keep the states related, and with them
whatever holds of two outputs of related states. -/
theorem twin_outputs {O : β → β → Prop}
    (hstep : ∀ s t a b, R s t → Q a b → R (step s a).1 (step' t b).1)
    (hout : ∀ s t a b, R s t → Q a b → O (step s a).2 (step' t b).2) {s : σ} {t : τ}
    (hst : R s t) {as : List α} {bs : List γ} (h : List.Forall₂ Q as bs) :
    List.Forall₂ O (outputs step s as) (outputs step' t bs) := by
  induction h generalizing s t with
  | nil => exact .nil
  | cons hab _ ih => exact .cons (hout _ _ _ _ hst hab) (ih (hstep _ _ _ _ hst hab))

/-- The rule for exact conditions on two runs: the outputs are equal when `C` holds
of every state that is reached and the two inputs it gets. -/
theorem twin_outputs_iff {C : σ → α → γ → Prop}
    (hstep : ∀ s t a b, R s t → Q a b → R (step s a).1 (step' t b).1)
    (hout : ∀ s t a b, R s t → Q a b → ((step s a).2 = (step' t b).2 ↔ C s a b)) {s : σ} {t : τ}
    (hst : R s t) {as : List α} {bs : List γ} (h : List.Forall₂ Q as bs) :
    outputs step s as = outputs step' t bs ↔
      ∀ n a b, as[n]? = some a → bs[n]? = some b → C (run step s (as.take n)) a b := by
  induction h generalizing s t with
  | nil => simp
  | @cons a b as bs hab _ ih =>
    rw [outputs_cons, outputs_cons, List.cons.injEq, hout s t a b hst hab,
      ih (hstep s t a b hst hab)]
    constructor
    · rintro ⟨hC, hrest⟩ n a' b' ha hb
      cases n with
      | zero =>
        obtain rfl := Option.some.inj ha
        obtain rfl := Option.some.inj hb
        exact hC
      | succ n => exact hrest n a' b' ha hb
    · intro hall
      exact ⟨hall 0 a b rfl rfl, fun n a' b' ha hb => hall (n + 1) a' b' ha hb⟩

end

theorem flatten_iff_of_length {xs ys : List (List β)}
    (h : List.Forall₂ (fun x y => x.length = y.length) xs ys) :
    xs.flatten = ys.flatten ↔ xs = ys := by
  have hmap : xs.map List.length = ys.map List.length := by
    rw [← List.forall₂_eq_eq_eq, List.forall₂_map_left_iff, List.forall₂_map_right_iff]
    exact h
  rw [List.eq_iff_flatten_eq]
  exact ⟨fun hflat => ⟨hflat, hmap⟩, fun hboth => hboth.1⟩

theorem flatten_take_iff {xs ys : List (List β)} (hlen : xs.length = ys.length) :
    (∀ n, (xs.take n).flatten = (ys.take n).flatten) ↔ xs = ys := by
  constructor
  · intro h
    induction xs generalizing ys with
    | nil => exact (List.length_eq_zero_iff.mp hlen.symm).symm
    | cons x xs ih =>
      cases ys with
      | nil => cases hlen
      | cons y ys =>
        have hxy : x = y := by simpa using h 1
        subst hxy
        have hrest : ∀ n, (xs.take n).flatten = (ys.take n).flatten := by
          intro n
          have hn := h (n + 1)
          rw [List.take_succ_cons, List.take_succ_cons, List.flatten_cons, List.flatten_cons] at hn
          exact List.append_cancel_left hn
        rw [ih (Nat.succ.inj hlen) hrest]
  · rintro rfl n
    rfl

end Transducer
