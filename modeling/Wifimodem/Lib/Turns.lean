import Mathlib.Data.List.Basic

/-!
# Parties that take turns

A system of several parties takes one turn at a time, in any order. A turn is
`none` where its party is blocked, or where the program may not take it.
-/

namespace Turns

variable {σ τ : Type*}

def run (turn : σ → τ → Option σ) (s : σ) (turns : List τ) : Option σ := turns.foldlM turn s

@[simp] theorem run_nil (turn : σ → τ → Option σ) (s : σ) : run turn s [] = some s := rfl

@[simp] theorem run_cons (turn : σ → τ → Option σ) (s : σ) (t : τ) (ts : List τ) :
    run turn s (t :: ts) = (turn s t).bind fun s' => run turn s' ts := rfl

theorem run_append (turn : σ → τ → Option σ) (s : σ) (ts us : List τ) :
    run turn s (ts ++ us) = (run turn s ts).bind fun s' => run turn s' us :=
  List.foldlM_append

/-- What every turn preserves holds after every order of turns. -/
theorem run_invariant {turn : σ → τ → Option σ} (Inv : σ → Prop)
    (hturn : ∀ s t s', Inv s → turn s t = some s' → Inv s') {s s' : σ} {ts : List τ}
    (hs : Inv s) (hrun : run turn s ts = some s') : Inv s' := by
  induction ts generalizing s with
  | nil => exact Option.some.inj hrun ▸ hs
  | cons t ts ih =>
    obtain ⟨u, hu, hrest⟩ := Option.bind_eq_some_iff.mp hrun
    exact ih (hturn s t u hs hu) hrest

end Turns
