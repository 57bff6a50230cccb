import Mathlib.Data.List.Basic

/-!
# Computations that report what they touch

A result together with the accesses made on the way to it, in their order.
-/

structure Traced (ε α : Type) where
  value : α
  log : List ε

namespace Traced

variable {ε α β : Type}

instance tracedMonad : Monad (Traced ε) where
  pure a := ⟨a, []⟩
  bind x f := ⟨(f x.value).value, x.log ++ (f x.value).log⟩

def touch (e : ε) (a : α) : Traced ε α := ⟨a, [e]⟩

/-- All accesses satisfy `P`. -/
def Only (P : ε → Prop) (x : Traced ε α) : Prop := ∀ e ∈ x.log, P e

variable {P Q : ε → Prop} {x : Traced ε α} {f : α → Traced ε β}

@[simp] theorem value_pure (a : α) : (pure a : Traced ε α).value = a := rfl

@[simp] theorem value_bind (x : Traced ε α) (f : α → Traced ε β) :
    (x >>= f).value = (f x.value).value := rfl

@[simp] theorem value_touch (e : ε) (a : α) : (touch e a).value = a := rfl

theorem log_pure (a : α) : (pure a : Traced ε α).log = [] := rfl

theorem log_bind (x : Traced ε α) (f : α → Traced ε β) :
    (x >>= f).log = x.log ++ (f x.value).log := rfl

theorem bind_eq (x : Traced ε α) (f : α → Traced ε β) :
    x >>= f = ⟨(f x.value).value, x.log ++ (f x.value).log⟩ := rfl

/-- The second computation runs if the first one succeeds. -/
def andThen (x y : Traced ε Bool) : Traced ε Bool := do
  let ok ← x
  if ok then y else pure false

theorem value_andThen (x y : Traced ε Bool) : (andThen x y).value = (x.value && y.value) := by
  rw [andThen, value_bind]
  cases x.value <;> rfl

theorem mem_log_andThen {x y : Traced ε Bool} {e : ε} :
    e ∈ (andThen x y).log ↔ e ∈ x.log ∨ x.value = true ∧ e ∈ y.log := by
  rw [andThen, log_bind, List.mem_append]
  cases x.value with
  | false => simp [log_pure]
  | true => simp

theorem only_pure (a : α) : Only P (pure a : Traced ε α) := fun _ he => absurd he List.not_mem_nil

theorem only_touch {e : ε} (he : P e) (a : α) : Only P (touch e a) := by
  intro e' he'
  rw [List.mem_singleton.mp he']
  exact he

theorem only_bind (hx : Only P x) (hf : Only P (f x.value)) : Only P (x >>= f) := by
  intro e he
  obtain he | he := List.mem_append.mp he
  · exact hx e he
  · exact hf e he

theorem Only.mono (h : Only P x) (hPQ : ∀ e, P e → Q e) : Only Q x := fun e he => hPQ e (h e he)

end Traced
