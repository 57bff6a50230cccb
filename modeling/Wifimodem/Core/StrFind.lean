import Wifimodem.Core.StrOrder
import Wifimodem.Core.StrSafe

/-!
# Searching a string

The offsets are tried upwards or downwards, so the first one that compares equal
is the least or the greatest of all.
-/

namespace Wifimodem

/-- The pattern stands in the text at offset `i`. -/
def OccursAt (s p : List UInt8) (i : Nat) : Prop :=
  i + p.length ≤ s.length ∧ (s.drop i).take p.length = p

/-- `r` is the least offset with the property, or minus one without any. -/
def IsFirst (hit : Nat → Prop) (r : Int) : Prop :=
  (∃ i : Nat, r = i ∧ hit i ∧ ∀ k < i, ¬hit k) ∨ r = -1 ∧ ∀ k, ¬hit k

def IsLast (hit : Nat → Prop) (r : Int) : Prop :=
  (∃ i : Nat, r = i ∧ hit i ∧ ∀ k > i, ¬hit k) ∨ r = -1 ∧ ∀ k, ¬hit k

variable {hit : Nat → Prop} {r : Int}

theorem IsFirst.none_iff (h : IsFirst hit r) : r = -1 ↔ ∀ k, ¬hit k := by
  obtain ⟨i, hr, hi, -⟩ | ⟨hr, hnone⟩ := h
  · exact iff_of_false (by omega) fun hnone => hnone i hi
  · exact iff_of_true hr hnone

theorem IsLast.none_iff (h : IsLast hit r) : r = -1 ↔ ∀ k, ¬hit k := by
  obtain ⟨i, hr, hi, -⟩ | ⟨hr, hnone⟩ := h
  · exact iff_of_false (by omega) fun hnone => hnone i hi
  · exact iff_of_true hr hnone

theorem IsFirst.congr {hit' : Nat → Prop} (h : IsFirst hit r) (heq : ∀ i, hit i ↔ hit' i) :
    IsFirst hit' r := by
  rwa [← funext fun i => propext (heq i)]

theorem IsLast.congr {hit' : Nat → Prop} (h : IsLast hit r) (heq : ∀ i, hit i ↔ hit' i) :
    IsLast hit' r := by
  rwa [← funext fun i => propext (heq i)]

namespace Str

open Traced

variable {mem : Nat → UInt8} {fold : UInt8 → UInt8} {s : Str} {p : Pattern} {n i : Nat}

/-- The comparison that a search makes at offset `i`, and its range. -/
def Hit (mem : Nat → UInt8) (fold : UInt8 → UInt8) (s : Str) (p : Pattern) (i : Nat) : Prop :=
  i + p.len ≤ s.len ∧ (cmpBy mem fold ⟨s.ptr + i, p.len⟩ p).value = 0

theorem hit_iff (hi : i + p.len ≤ s.len) :
    Hit mem fold s p i ↔
      strDiff fold (((s.text mem).drop i).take p.len) (p.text mem) = 0 := by
  rw [Hit, and_iff_right hi, cmpBy_value, text_window mem s p.len hi]

theorem findLoop_first (hn : i + n + p.len = s.len + 1 ∨ n = 0 ∧ s.len < i + p.len)
    (hbelow : ∀ k < i, ¬Hit mem fold s p k) :
    IsFirst (Hit mem fold s p) (findLoop mem fold s p n i).value := by
  induction n generalizing i with
  | zero =>
    refine .inr ⟨rfl, fun k hk => ?_⟩
    have hki : k < i := by
      have hfit := hk.1
      omega
    exact hbelow k hki hk
  | succ n ih =>
    rw [findLoop, value_bind]
    split
    · rename_i hzero
      have hfit : i + p.len ≤ s.len := by omega
      exact .inl ⟨i, rfl, ⟨hfit, hzero⟩, hbelow⟩
    · rename_i hne
      apply ih (by omega)
      intro k hk hhit
      cases Nat.lt_succ_iff_lt_or_eq.mp hk with
      | inl hlt => exact hbelow k hlt hhit
      | inr heq =>
        subst heq
        exact hne hhit.2

theorem rfindLoop_last (hn : n ≠ 0 → n + p.len ≤ s.len + 1)
    (habove : ∀ k ≥ n, ¬Hit mem fold s p k) :
    IsLast (Hit mem fold s p) (rfindLoop mem fold s p n).value := by
  induction n with
  | zero => exact .inr ⟨rfl, fun k => habove k (Nat.zero_le k)⟩
  | succ n ih =>
    have hfit := hn (Nat.succ_ne_zero n)
    rw [rfindLoop, value_bind]
    split
    · rename_i hzero
      exact .inl ⟨n, rfl, ⟨by omega, hzero⟩, fun k hk => habove k hk⟩
    · rename_i hne
      apply ih fun _ => by omega
      intro k hk hhit
      cases Nat.eq_or_lt_of_le hk with
      | inl heq =>
        subst heq
        exact hne hhit.2
      | inr hlt => exact habove k hlt hhit

theorem find_first (mem : Nat → UInt8) (fold : UInt8 → UInt8) (hs : s.len < 2 ^ 31)
    (hp : p.len < 2 ^ 31) :
    IsFirst (Hit mem fold s p)
      (findLoop mem fold s p (lastOffset s p + 1).toNat 0).value := by
  rw [lastOffset_count hs hp]
  apply findLoop_first
  · omega
  · intro k hk
    omega

theorem rfind_last (mem : Nat → UInt8) (fold : UInt8 → UInt8) (hs : s.len < 2 ^ 31)
    (hp : p.len < 2 ^ 31) :
    IsLast (Hit mem fold s p) (rfindLoop mem fold s p (lastOffset s p + 1).toNat).value := by
  rw [lastOffset_count hs hp]
  apply rfindLoop_last
  · omega
  · intro k hk hhit
    have hfit := hhit.1
    omega

end Str

variable {mem : Nat → UInt8} {fold : UInt8 → UInt8}

/-- Without zeros, a comparison is zero where the pattern stands. -/
theorem hit_iff_occurs (hfold : ∀ c, fold c = 0 ↔ c = 0) (s p : CleanStr mem) (i : Nat) :
    Str.Hit mem fold s.toStr (.view 1 p.toStr) i ↔
      OccursAt (s.text.map fold) (p.text.map fold) i := by
  have hslen : (s.text.map fold).length = s.len := by
    rw [List.length_map]
    exact Str.length_text mem s.toStr
  have hplen : (p.text.map fold).length = p.len := by
    rw [List.length_map]
    exact Str.length_text mem p.toStr
  rw [OccursAt, hslen, hplen]
  refine and_congr_right fun hi => ?_
  have hfit : i + (Pattern.view 1 p.toStr).len ≤ s.toStr.len := hi
  have hwindow : 0 ∉ ((s.text.drop i).take p.len) := fun h =>
    s.clean (List.mem_of_mem_drop (List.mem_of_mem_take h))
  have hsigns := strDiff_signs (clean_map hfold hwindow) (clean_map hfold p.clean)
  rw [strDiff_map hfold] at hsigns
  rw [Str.cmpBy_value, Str.text_window mem s.toStr _ hfit]
  rw [← List.map_drop, ← List.map_take]
  exact hsigns.eq

/-- `find` gives the first occurrence and `rfind` the last one, both minus one when
there is none; `findi` and `rfindi` do so up to case. -/
theorem str_find_extreme {mem : Nat → UInt8} (s p : CleanStr mem) (hs : s.len < 2 ^ 31)
    (hp : p.len < 2 ^ 31) :
    IsFirst (OccursAt s.text p.text) (s.toStr.find mem (.view 1 p.toStr)).value ∧
    IsLast (OccursAt s.text p.text) (s.toStr.rfind mem (.view 1 p.toStr)).value ∧
    IsFirst (OccursAt (s.text.map tolower) (p.text.map tolower))
      (s.toStr.findi mem (.view 1 p.toStr)).value ∧
    IsLast (OccursAt (s.text.map tolower) (p.text.map tolower))
      (s.toStr.rfindi mem (.view 1 p.toStr)).value ∧
    ((s.toStr.find mem (.view 1 p.toStr)).value = -1 ↔
      (s.toStr.rfind mem (.view 1 p.toStr)).value = -1) ∧
    ((s.toStr.findi mem (.view 1 p.toStr)).value = -1 ↔
      (s.toStr.rfindi mem (.view 1 p.toStr)).value = -1) := by
  have hid := fun i => hit_iff_occurs (fun c => Iff.rfl : ∀ c : UInt8, id c = 0 ↔ c = 0) s p i
  have hlower := fun i => hit_iff_occurs tolower_eq_zero s p i
  simp only [List.map_id] at hid
  have hp : (Pattern.view 1 p.toStr).len < 2 ^ 31 := hp
  have hfind := (Str.find_first mem id hs hp).congr hid
  have hrfind := (Str.rfind_last mem id hs hp).congr hid
  have hfindi := (Str.find_first mem tolower hs hp).congr hlower
  have hrfindi := (Str.rfind_last mem tolower hs hp).congr hlower
  exact ⟨hfind, hrfind, hfindi, hrfindi, hfind.none_iff.trans hrfind.none_iff.symm,
    hfindi.none_iff.trans hrfindi.none_iff.symm⟩

/-- `ab` in `AbaBab`, where the cases agree at the end only. -/
theorem str_find_extreme_case :
    let mem := fun addr => ([65, 98, 97, 66, 97, 98] : List UInt8).getD addr 0
    let s : CleanStr mem := ⟨⟨0, 6⟩, by decide⟩
    let p : CleanStr mem := ⟨⟨4, 2⟩, by decide⟩
    (s.toStr.find mem (.view 1 p.toStr)).value = 4 ∧
      (s.toStr.findi mem (.view 1 p.toStr)).value = 0 ∧
      IsFirst (OccursAt s.text p.text) (s.toStr.find mem (.view 1 p.toStr)).value :=
  ⟨by decide, by decide, (str_find_extreme _ _ (by decide) (by decide)).1⟩

end Wifimodem
