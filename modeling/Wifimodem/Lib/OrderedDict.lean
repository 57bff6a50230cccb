import Mathlib.Data.List.Basic

/-!
# Dictionaries that keep their order

An entry stands where its key was first put; the value is the one put last.
-/

namespace OrderedDict

variable {κ ν : Type} [DecidableEq κ]

def put (d : List (κ × ν)) (key : κ) (value : ν) : List (κ × ν) :=
  match d with
  | [] => [(key, value)]
  | e :: d => if e.1 = key then (key, value) :: d else e :: put d key value

def get? (d : List (κ × ν)) (key : κ) : Option ν :=
  (d.find? fun e => e.1 = key).map Prod.snd

variable {d : List (κ × ν)} {key : κ} {value : ν} {e : κ × ν}

theorem put_cons (e : κ × ν) (d : List (κ × ν)) (key : κ) (value : ν) :
    put (e :: d) key value = if e.1 = key then (key, value) :: d else e :: put d key value := rfl

theorem mem_put_self (d : List (κ × ν)) (key : κ) (value : ν) : (key, value) ∈ put d key value := by
  induction d with
  | nil => exact List.mem_singleton_self _
  | cons e d ih =>
    rw [put_cons]
    split
    · exact List.mem_cons_self
    · exact List.mem_cons_of_mem e ih

theorem mem_put_of_ne (he : e ∈ d) (hne : e.1 ≠ key) (value : ν) : e ∈ put d key value := by
  induction d with
  | nil => cases he
  | cons f d ih =>
    rw [put_cons]
    split
    · rename_i hf
      cases List.mem_cons.mp he with
      | inl heq => exact absurd (heq ▸ hf) hne
      | inr he => exact List.mem_cons_of_mem _ he
    · cases List.mem_cons.mp he with
      | inl heq => exact heq ▸ List.mem_cons_self
      | inr he => exact List.mem_cons_of_mem f (ih he)

theorem eq_or_mem_of_mem_put (h : e ∈ put d key value) : e = (key, value) ∨ e ∈ d := by
  induction d with
  | nil => exact .inl (List.mem_singleton.mp h)
  | cons f d ih =>
    rw [put_cons] at h
    split at h
    · exact (List.mem_cons.mp h).imp_right (List.mem_cons_of_mem f)
    · cases List.mem_cons.mp h with
      | inl heq => exact .inr (heq ▸ List.mem_cons_self)
      | inr h => exact (ih h).imp_right (List.mem_cons_of_mem f)

theorem get?_of_mem (h : (key, value) ∈ d) : ∃ v, get? d key = some v ∧ (key, v) ∈ d := by
  have hsome : (d.find? fun e => e.1 = key).isSome := List.find?_isSome.mpr ⟨_, h, by simp⟩
  obtain ⟨⟨key', v⟩, hfind⟩ := Option.isSome_iff_exists.mp hsome
  have hkey := List.find?_some hfind
  obtain rfl : key' = key := of_decide_eq_true hkey
  refine ⟨v, ?_, List.mem_of_find?_eq_some hfind⟩
  rw [get?, hfind]
  rfl

end OrderedDict
