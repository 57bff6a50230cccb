import Mathlib.Data.List.TakeWhile
import Mathlib.Logic.Function.Basic

/-!
# Regular expressions with groups

The results of an expression on a text are listed in the order in which a
backtracking matcher finds them: a run is tried from the longest one down, and an
optional part is tried before it is left out. The match is the first result.
-/

namespace Regex

variable {α : Type}

abbrev Captures (α : Type) := Nat → Option (List α)

end Regex

inductive Regex (α : Type) where
  | one (p : α → Bool)
  | run (p : α → Bool) (least : Nat)
  | seq (a b : Regex α)
  | opt (a : Regex α)
  | group (n : Nat) (a : Regex α)

namespace Regex

variable {α : Type}

/-- What is left after each run of at least so many characters, longest run first. -/
def runEnds (p : α → Bool) : Nat → List α → List (List α)
  | 0, [] => [[]]
  | _ + 1, [] => []
  | 0, c :: w => if p c then runEnds p 0 w ++ [c :: w] else [c :: w]
  | n + 1, c :: w => if p c then runEnds p n w else []

def results : Regex α → Captures α → List α → List (Captures α × List α)
  | .one _, _, [] => []
  | .one p, g, c :: w => if p c then [(g, w)] else []
  | .run p least, g, w => (runEnds p least w).map fun rest => (g, rest)
  | .seq a b, g, w => (a.results g w).flatMap fun r => b.results r.1 r.2
  | .opt a, g, w => a.results g w ++ [(g, w)]
  | .group n a, g, w => (a.results g w).map fun r =>
      (Function.update r.1 n (some (w.take (w.length - r.2.length))), r.2)

/-- The groups of the match, if there is one. -/
def exec (r : Regex α) (w : List α) : Option (Captures α) :=
  ((r.results (fun _ => none) w).head?).map fun out => out.1

def First (r : Regex α) (g : Captures α) (w : List α) (g' : Captures α) (rest : List α) : Prop :=
  (r.results g w).head? = some (g', rest)

def Fails (r : Regex α) (g : Captures α) (w : List α) : Prop := r.results g w = []

variable {p : α → Bool} {a b : Regex α} {g g' g'' : Captures α} {w w' w'' : List α} {c : α} {n : Nat}

theorem runEnds_zero_cons (p : α → Bool) (c : α) (w : List α) :
    runEnds p 0 (c :: w) = if p c then runEnds p 0 w ++ [c :: w] else [c :: w] := rfl

theorem runEnds_succ_cons (p : α → Bool) (n : Nat) (c : α) (w : List α) :
    runEnds p (n + 1) (c :: w) = if p c then runEnds p n w else [] := rfl

theorem results_one_cons (p : α → Bool) (g : Captures α) (c : α) (w : List α) :
    (one p).results g (c :: w) = if p c then [(g, w)] else [] := rfl

theorem results_run (p : α → Bool) (n : Nat) (g : Captures α) (w : List α) :
    (run p n).results g w = (runEnds p n w).map fun rest => (g, rest) := rfl

theorem results_seq (a b : Regex α) (g : Captures α) (w : List α) :
    (seq a b).results g w = (a.results g w).flatMap fun r => b.results r.1 r.2 := rfl

theorem results_opt (a : Regex α) (g : Captures α) (w : List α) :
    (opt a).results g w = a.results g w ++ [(g, w)] := rfl

theorem results_group (n : Nat) (a : Regex α) (g : Captures α) (w : List α) :
    (group n a).results g w = (a.results g w).map fun r =>
      (Function.update r.1 n (some (w.take (w.length - r.2.length))), r.2) := rfl

theorem first_iff : First a g w g' w' ↔ (a.results g w).head? = some (g', w') := Iff.rfl

theorem fails_iff : Fails a g w ↔ a.results g w = [] := Iff.rfl

theorem exec_of_first (h : First a (fun _ => none) w g' w') : a.exec w = some g' := by
  rw [first_iff] at h
  exact congrArg (Option.map fun out => out.1) h

theorem first_one (h : p c = true) : First (.one p) g (c :: w) g w := by
  rw [first_iff, results_one_cons, if_pos h]
  rfl

theorem fails_one (h : ∀ c ∈ w.head?, p c = false) : Fails (.one p) g w := by
  cases w with
  | nil => rfl
  | cons c w =>
    have hc : p c = false := h c rfl
    rw [fails_iff, results_one_cons, hc]
    rfl

theorem runEnds_head (p : α → Bool) (n : Nat) (w : List α) (h : n ≤ (w.takeWhile p).length) :
    (runEnds p n w).head? = some (w.dropWhile p) := by
  induction w generalizing n with
  | nil =>
    cases n with
    | zero => rfl
    | succ n => cases h
  | cons c w ih =>
    cases hc : p c with
    | true =>
      rw [List.takeWhile_cons_of_pos hc, List.length_cons] at h
      rw [List.dropWhile_cons_of_pos hc]
      cases n with
      | zero =>
        rw [runEnds_zero_cons, if_pos hc, List.head?_append, ih 0 (Nat.zero_le _)]
        rfl
      | succ n =>
        rw [runEnds_succ_cons, if_pos hc]
        exact ih n (Nat.le_of_succ_le_succ h)
    | false =>
      have hneg : ¬p c = true := by simp [hc]
      rw [List.takeWhile_cons_of_neg hneg] at h
      rw [List.dropWhile_cons_of_neg hneg]
      obtain rfl := Nat.le_zero.mp h
      rw [runEnds_zero_cons, if_neg hneg]
      rfl

/-- A run that is not the longest one is followed by another of its characters. -/
theorem runEnds_next (p : α → Bool) (n : Nat) (w rest : List α) (h : rest ∈ runEnds p n w) :
    rest = w.dropWhile p ∨ ∃ c ∈ rest.head?, p c = true := by
  induction w generalizing n with
  | nil =>
    cases n with
    | zero => exact .inl (List.mem_singleton.mp h)
    | succ n => cases h
  | cons c w ih =>
    cases hc : p c with
    | true =>
      rw [List.dropWhile_cons_of_pos hc]
      cases n with
      | zero =>
        rw [runEnds_zero_cons, if_pos hc] at h
        rcases List.mem_append.mp h with h | h
        · exact ih 0 h
        · rw [List.mem_singleton.mp h]
          exact .inr ⟨c, rfl, hc⟩
      | succ n =>
        rw [runEnds_succ_cons, if_pos hc] at h
        exact ih n h
    | false =>
      have hneg : ¬p c = true := by simp [hc]
      rw [List.dropWhile_cons_of_neg hneg]
      cases n with
      | zero =>
        rw [runEnds_zero_cons, if_neg hneg] at h
        exact .inl (List.mem_singleton.mp h)
      | succ n =>
        rw [runEnds_succ_cons, if_neg hneg] at h
        cases h

theorem runEnds_nil (p : α → Bool) (n : Nat) (w : List α) (h : (w.takeWhile p).length < n) :
    runEnds p n w = [] := by
  induction w generalizing n with
  | nil =>
    obtain ⟨n, rfl⟩ := Nat.exists_eq_succ_of_ne_zero (Nat.ne_zero_of_lt h)
    rfl
  | cons c w ih =>
    obtain ⟨n, rfl⟩ := Nat.exists_eq_succ_of_ne_zero (Nat.ne_zero_of_lt h)
    rw [runEnds_succ_cons]
    split
    · rename_i hc
      rw [List.takeWhile_cons_of_pos hc] at h
      exact ih n (Nat.lt_of_succ_lt_succ h)
    · rfl

theorem first_run (h : n ≤ (w.takeWhile p).length) : First (.run p n) g w g (w.dropWhile p) := by
  rw [first_iff, results_run, List.head?_map, runEnds_head p n w h]
  rfl

theorem first_seq (ha : First a g w g' w') (hb : First b g' w' g'' w'') :
    First (.seq a b) g w g'' w'' := by
  rw [first_iff] at ha hb
  rw [first_iff, results_seq]
  cases hres : a.results g w with
  | nil =>
    rw [hres] at ha
    cases ha
  | cons r rs =>
    rw [hres] at ha
    cases ha
    rw [List.flatMap_cons, List.head?_append, hb]
    rfl

theorem fails_seq (h : ∀ r ∈ a.results g w, Fails b r.1 r.2) : Fails (.seq a b) g w := by
  rw [fails_iff, results_seq, List.flatMap_eq_nil_iff]
  exact h

theorem fails_seq_left (h : Fails a g w) : Fails (.seq a b) g w := by
  apply fails_seq
  rw [h]
  intro r hr
  cases hr

/-- A run that some character has to follow, which is not one of the run. -/
theorem fails_run_one {q : α → Bool} (k : Nat) (hpq : ∀ c, p c = true → q c = false)
    (h : (w.takeWhile p).length < n ∨ ∀ c ∈ (w.dropWhile p).head?, q c = false) :
    Fails (.seq (.group k (.run p n)) (.one q)) g w := by
  apply fails_seq
  intro r hr
  obtain ⟨r, hrun, rfl⟩ := List.mem_map.mp hr
  obtain ⟨rest, hrest, rfl⟩ := List.mem_map.mp hrun
  rcases h with h | h
  · rw [runEnds_nil p n w h] at hrest
    cases hrest
  · apply fails_one
    rcases runEnds_next p n w rest hrest with rfl | ⟨c, hc, hpc⟩
    · exact h
    · intro d hd
      obtain rfl := Option.mem_unique hc hd
      exact hpq c hpc

theorem first_group (n : Nat) (h : First a g w g' w') :
    First (.group n a) g w
      (Function.update g' n (some (w.take (w.length - w'.length)))) w' := by
  rw [first_iff] at h
  rw [first_iff, results_group, List.head?_map, h]
  rfl

theorem fails_group (h : Fails a g w) : Fails (.group n a) g w := by
  rw [fails_iff] at h
  rw [fails_iff, results_group, h]
  rfl

theorem first_opt (h : First a g w g' w') : First (.opt a) g w g' w' := by
  rw [first_iff] at h
  rw [first_iff, results_opt, List.head?_append, h]
  rfl

theorem first_opt_skip (h : Fails a g w) : First (.opt a) g w g w := by
  rw [fails_iff] at h
  rw [first_iff, results_opt, h]
  rfl

/-- A group around a run holds the run. -/
theorem first_group_run (h : n ≤ (w.takeWhile p).length) (k : Nat) :
    First (.group k (.run p n)) g w (Function.update g k (some (w.takeWhile p)))
      (w.dropWhile p) := by
  have hfirst := first_group k (first_run h : First (.run p n) g w g (w.dropWhile p))
  have hlen := congrArg List.length (@List.takeWhile_append_dropWhile α p w)
  rw [List.length_append] at hlen
  have htake : w.length - (w.dropWhile p).length = (w.takeWhile p).length := by omega
  rwa [htake, ← List.prefix_iff_eq_take.mp (List.takeWhile_prefix p)] at hfirst

end Regex
