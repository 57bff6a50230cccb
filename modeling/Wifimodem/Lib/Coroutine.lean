import Mathlib.Data.List.Basic

/-!
# Coroutines that are resumed with a token

A coroutine goes on while its token stays the same, pauses until the next one, or fails.
A call takes it from one pause to the next.
-/

namespace Coroutine

variable {σ τ ε : Type*}

inductive Reaction (σ ε : Type*) where
  | go (s : σ) (out : List ε)
  | pause (s : σ) (out : List ε)
  | fail

/-- What has been put out, and whether there has been no failure. -/
structure Verdict (ε : Type*) where
  out : List ε
  ok : Bool
deriving DecidableEq

namespace Verdict

def skip : Verdict ε := ⟨[], true⟩

def put (out : List ε) (r : Verdict ε) : Verdict ε := ⟨out ++ r.out, r.ok⟩

/-- After a failure nothing more is put out. -/
def andThen (r r' : Verdict ε) : Verdict ε := if r.ok then r'.put r.out else r

@[simp] theorem put_nil (r : Verdict ε) : r.put [] = r := rfl

@[simp] theorem skip_andThen (r : Verdict ε) : skip.andThen r = r := rfl

@[simp] theorem andThen_skip (r : Verdict ε) : r.andThen skip = r := by
  obtain ⟨out, ok⟩ := r
  cases ok with
  | true => simp [andThen, put, skip]
  | false => rfl

theorem put_andThen (out : List ε) (r r' : Verdict ε) :
    (r.put out).andThen r' = (r.andThen r').put out := by
  obtain ⟨mid, ok⟩ := r
  cases ok with
  | true => simp [andThen, put, List.append_assoc]
  | false => rfl

end Verdict

variable (step : τ → σ → Reaction σ ε)

/-- One call with the token `t`, and where it has stopped. -/
def call (t : τ) : Nat → σ → Option (Verdict ε × σ)
  | 0, _ => none
  | fuel + 1, s =>
    match step t s with
    | .go s' out => (call t fuel s').map fun r => (r.1.put out, r.2)
    | .pause s' out => some (⟨out, true⟩, s')
    | .fail => some (⟨[], false⟩, s)

/-- A call for each token, up to the first failure; it leaves the coroutine where the call
has found it. -/
def feed (fuel : Nat) : σ → List τ → Option (Verdict ε × σ)
  | s, [] => some (.skip, s)
  | s, t :: ts => do
    let r ← call step t fuel s
    if r.1.ok then
      let r' ← feed fuel r.2 ts
      some (r.1.andThen r'.1, r'.2)
    else some (r.1, s)

/-- From `s`, with the next token at hand, the tokens lead to `s'` with `ts'` left; a
failure leads anywhere. -/
inductive Runs : σ → List τ → Verdict ε → σ → List τ → Prop
  | done (s : σ) (ts : List τ) : Runs s ts .skip s ts
  | go {s s' s'' : σ} {t : τ} {ts ts'' : List τ} {out : List ε} {r : Verdict ε}
      (h : step t s = .go s' out) (h' : Runs s' (t :: ts) r s'' ts'') :
      Runs s (t :: ts) (r.put out) s'' ts''
  | pause {s s' s'' : σ} {t : τ} {ts ts'' : List τ} {out : List ε} {r : Verdict ε}
      (h : step t s = .pause s' out) (h' : Runs s' ts r s'' ts'') :
      Runs s (t :: ts) (r.put out) s'' ts''
  | fail {s : σ} {t : τ} (ts : List τ) (h : step t s = .fail) (s' : σ) (ts' : List τ) :
      Runs s (t :: ts) ⟨[], false⟩ s' ts'

variable {step} {s s' s'' : σ} {t : τ} {ts ts' ts'' : List τ} {r r' : Verdict ε}

namespace Runs

theorem andThen (h : Runs step s ts r s' ts') (h' : Runs step s' ts' r' s'' ts'') :
    Runs step s ts (r.andThen r') s'' ts'' := by
  induction h with
  | done s ts => exact h'
  | go hstep _ ih =>
    rw [Verdict.put_andThen]
    exact .go hstep (ih h')
  | pause hstep _ ih =>
    rw [Verdict.put_andThen]
    exact .pause hstep (ih h')
  | fail ts hstep => exact .fail ts hstep _ _

theorem goes (h : step t s = .go s' []) (h' : Runs step s' (t :: ts) r s'' ts'') :
    Runs step s (t :: ts) r s'' ts'' := .go h h'

/-- The next token does not matter. -/
theorem always (h : ∀ t, step t s = .go s' []) (hts : ts ≠ []) (h' : Runs step s' ts r s'' ts'') :
    Runs step s ts r s'' ts'' := by
  cases ts with
  | nil => exact absurd rfl hts
  | cons t ts => exact .goes (h t) h'

theorem pauses (h : step t s = .pause s' []) (h' : Runs step s' ts r s'' ts'') :
    Runs step s (t :: ts) r s'' ts'' := .pause h h'

end Runs

/-! ## Runs as calls -/

theorem call_mono {x : Verdict ε × σ} {fuel : Nat} (h : call step t fuel s = some x) {more : Nat}
    (hmore : fuel ≤ more) : call step t more s = some x := by
  induction fuel generalizing s x more with
  | zero => cases h
  | succ fuel ih =>
    obtain ⟨more, rfl⟩ := Nat.exists_eq_succ_of_ne_zero (Nat.ne_zero_of_lt hmore)
    rw [call] at h ⊢
    cases hstep : step t s with
    | go s' out =>
      simp only [hstep, Option.map_eq_some_iff] at h ⊢
      obtain ⟨y, hy, hx⟩ := h
      exact ⟨y, ih hy (Nat.le_of_succ_le_succ hmore), hx⟩
    | pause s' out =>
      simp only [hstep] at h ⊢
      exact h
    | fail =>
      simp only [hstep] at h ⊢
      exact h

/-- A call that goes on is the call of what it goes on with. -/
theorem feed_go {out : List ε} {fuel : Nat} {x : Verdict ε × σ} (hstep : step t s = .go s' out)
    (hfuel : feed step fuel s' (t :: ts) = some x)
    (hmore : feed step (fuel + 1) s' (t :: ts) = some (r, s'')) :
    ∃ s₁, feed step (fuel + 1) s (t :: ts) = some (r.put out, s₁) ∧ (r.ok = true → s₁ = s'') := by
  rw [feed, Option.bind_eq_bind, Option.bind_eq_some_iff] at hfuel hmore
  obtain ⟨⟨r₁, s₁⟩, hcall, -⟩ := hfuel
  obtain ⟨⟨r₂, s₂⟩, hcall', hrest⟩ := hmore
  -- the two calls of what it goes on with come to the same
  obtain ⟨rfl, rfl⟩ := Prod.mk.inj (Option.some.inj
    ((call_mono hcall (Nat.le_succ fuel)).symm.trans hcall'))
  have hhead : call step t (fuel + 1) s = some (r₁.put out, s₁) := by
    rw [call]
    simp only [hstep, hcall, Option.map_some]
  rw [feed, hhead, Option.bind_eq_bind, Option.bind_some]
  obtain ⟨mid, ok⟩ := r₁
  cases ok with
  | true =>
    simp only [if_true, Option.bind_eq_some_iff] at hrest
    obtain ⟨⟨r₃, s₃⟩, hfeed, hr⟩ := hrest
    obtain ⟨rfl, rfl⟩ := Prod.mk.inj (Option.some.inj hr)
    refine ⟨s₃, ?_, fun _ => rfl⟩
    simp only [Verdict.put, if_true, hfeed, Option.bind_some, Verdict.andThen, List.append_assoc]
  | false =>
    simp only [Bool.false_eq_true, if_false] at hrest
    obtain ⟨rfl, rfl⟩ := Prod.mk.inj (Option.some.inj hrest)
    exact ⟨s, rfl, fun h => nomatch h⟩

/-- With enough fuel, the calls put out what the run puts out, and end where it ends or
fail. -/
theorem feed_of_runs (h : Runs step s ts r s' []) :
    ∃ n, ∀ fuel ≥ n, ∃ s₁, feed step fuel s ts = some (r, s₁) ∧ (r.ok = true → s₁ = s') := by
  generalize hend : ([] : List τ) = ts' at h
  induction h with
  | done s ts =>
    subst hend
    exact ⟨0, fun fuel _ => ⟨s, rfl, fun _ => rfl⟩⟩
  | go hstep _ ih =>
    obtain ⟨n, hrun⟩ := ih hend
    refine ⟨n + 1, fun fuel hfuel => ?_⟩
    obtain ⟨fuel, rfl⟩ := Nat.exists_eq_succ_of_ne_zero (Nat.ne_zero_of_lt hfuel)
    obtain ⟨_, hless, -⟩ := hrun fuel (by omega)
    obtain ⟨s₁, hmore, hs₁⟩ := hrun (fuel + 1) (by omega)
    obtain ⟨s₂, hfeed, hs₂⟩ := feed_go hstep hless hmore
    exact ⟨s₂, hfeed, fun hok => (hs₂ hok).trans (hs₁ hok)⟩
  | pause hstep _ ih =>
    obtain ⟨n, hrun⟩ := ih hend
    refine ⟨n + 1, fun fuel hfuel => ?_⟩
    obtain ⟨fuel, rfl⟩ := Nat.exists_eq_succ_of_ne_zero (Nat.ne_zero_of_lt hfuel)
    obtain ⟨s₁, hfeed, hs₁⟩ := hrun (fuel + 1) (by omega)
    refine ⟨s₁, ?_, hs₁⟩
    rw [feed, call]
    simp [hstep, hfeed, Verdict.andThen]
  | @fail s t ts hstep s' ts' =>
    refine ⟨1, fun fuel hfuel => ⟨s, ?_, fun hok => nomatch hok⟩⟩
    obtain ⟨fuel, rfl⟩ := Nat.exists_eq_succ_of_ne_zero (Nat.ne_zero_of_lt hfuel)
    rw [feed, call]
    simp [hstep]

end Coroutine
