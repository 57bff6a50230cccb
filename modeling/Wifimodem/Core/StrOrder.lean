import Mathlib.Data.List.GetD
import Wifimodem.Core.StrCompare
import Wifimodem.Lib.Comparator

/-!
# The order of strings

Between strings without a zero, `str_cmp` is the lexicographic order, and
`str_cmpi` is that order after `tolower`.
-/

namespace Wifimodem

variable {fold : UInt8 → UInt8} {s p : List UInt8}

theorem strnDiff_map (hfold : ∀ c, fold c = 0 ↔ c = 0) (s p : List UInt8) :
    strnDiff id (s.map fold) (p.map fold) = strnDiff fold s p := by
  induction s generalizing p with
  | nil => rfl
  | cons a s ih =>
    cases p with
    | nil => rfl
    | cons b p =>
      rw [List.map_cons, List.map_cons, strnDiff, strnDiff, ih p]
      simp only [id, hfold]

/-- To fold the characters is to compare the folded texts. -/
theorem strDiff_map (hfold : ∀ c, fold c = 0 ↔ c = 0) (s p : List UInt8) :
    strDiff id (s.map fold) (p.map fold) = strDiff fold s p := by
  have hzero : fold 0 = 0 := (hfold 0).mpr rfl
  have hchar : ∀ (t : List UInt8) (n : Nat), (t.map fold).getD n 0 = fold (t.getD n 0) := by
    intro t n
    nth_rewrite 1 [← hzero]
    exact List.getD_map t 0 fold
  rw [strDiff, strDiff, strnDiff_map hfold, tieBreak, tieBreak, List.length_map, List.length_map,
    hchar, hchar]
  rfl

/-- How the sign is read. -/
structure Signs (r : Int) (s p : List UInt8) : Prop where
  lt : r < 0 ↔ s < p
  eq : r = 0 ↔ s = p
  gt : 0 < r ↔ p < s

theorem toNat_ne_zero {c : UInt8} (hc : c ≠ 0) : c.toNat ≠ 0 := fun h =>
  hc (UInt8.toNat_inj.mp h)

theorem signs_nil_cons {b : UInt8} (hb : b ≠ 0) (p : List UInt8) :
    Signs (strDiff id [] (b :: p)) [] (b :: p) := by
  have hpos := toNat_ne_zero hb
  rw [strDiff_nil_cons, id]
  constructor
  · exact iff_of_true (by omega) (List.nil_lt_cons b p)
  · exact iff_of_false (by omega) (List.cons_ne_nil b p).symm
  · exact iff_of_false (by omega) (List.not_lt_nil _)

theorem signs_cons_nil {a : UInt8} (ha : a ≠ 0) (s : List UInt8) :
    Signs (strDiff id (a :: s) []) (a :: s) [] := by
  have hpos := toNat_ne_zero ha
  rw [strDiff_cons_nil, id]
  constructor
  · exact iff_of_false (by omega) (List.not_lt_nil _)
  · exact iff_of_false (by omega) (List.cons_ne_nil a s)
  · exact iff_of_true (by omega) (List.nil_lt_cons a s)

/-- A common character decides nothing. -/
theorem Signs.cons (h : Signs (strDiff id s p) s p) {a : UInt8} (ha : a ≠ 0) :
    Signs (strDiff id (a :: s) (a :: p)) (a :: s) (a :: p) := by
  obtain ⟨hlt, heq, hgt⟩ := h
  rw [strDiff_cons rfl ha]
  constructor
  · rw [hlt, List.cons_lt_cons_iff]
    simp
  · rw [heq, List.cons_inj_right]
  · rw [hgt, List.cons_lt_cons_iff]
    simp

/-- The first difference decides. -/
theorem signs_cons_ne {a b : UInt8} (hab : a ≠ b) (s p : List UInt8) :
    Signs (strDiff id (a :: s) (b :: p)) (a :: s) (b :: p) := by
  have hne : a.toNat ≠ b.toNat := fun h => hab (UInt8.toNat_inj.mp h)
  rw [strDiff_ne hab, id, id]
  constructor
  · rw [List.cons_lt_cons_iff, UInt8.lt_iff_toNat_lt]
    simp only [hab, false_and, or_false]
    omega
  · exact iff_of_false (by omega) fun h => hab (List.cons.inj h).1
  · rw [List.cons_lt_cons_iff, UInt8.lt_iff_toNat_lt]
    simp only [Ne.symm hab, false_and, or_false]
    omega

theorem strDiff_signs (hs : 0 ∉ s) (hp : 0 ∉ p) : Signs (strDiff id s p) s p := by
  induction s generalizing p with
  | nil =>
    cases p with
    | nil =>
      have hsame : strDiff id [] [] = 0 := rfl
      constructor <;> simp [hsame]
    | cons b p => exact signs_nil_cons (fun hb => hp (hb ▸ List.mem_cons_self)) p
  | cons a s ih =>
    have ha : a ≠ 0 := fun ha => hs (ha ▸ List.mem_cons_self)
    cases p with
    | nil => exact signs_cons_nil ha s
    | cons b p =>
      cases Decidable.em (a = b) with
      | inr hab => exact signs_cons_ne hab s p
      | inl hab =>
        subst hab
        have hs' : 0 ∉ s := fun h => hs (List.mem_cons_of_mem a h)
        have hp' : 0 ∉ p := fun h => hp (List.mem_cons_of_mem a h)
        exact (ih hs' hp').cons ha

theorem clean_map (hfold : ∀ c, fold c = 0 ↔ c = 0) (hs : 0 ∉ s) : 0 ∉ s.map fold := by
  intro hmem
  obtain ⟨c, hc, hzero⟩ := List.mem_map.mp hmem
  exact hs ((hfold c).mp hzero ▸ hc)

/-- A string of memory without a zero in it. -/
structure CleanStr (mem : Nat → UInt8) extends Str where
  clean : 0 ∉ toStr.text mem

namespace CleanStr

variable {mem : Nat → UInt8}

def text (a : CleanStr mem) : List UInt8 := a.toStr.text mem

def cmp (a b : CleanStr mem) : Int := (a.toStr.cmp mem (.view 1 b.toStr)).value

def cmpi (a b : CleanStr mem) : Int := (a.toStr.cmpi mem (.view 1 b.toStr)).value

theorem cmp_eq (a b : CleanStr mem) : a.cmp b = strDiff id a.text b.text :=
  Str.cmpBy_value mem id a.toStr (.view 1 b.toStr)

theorem cmpi_eq (a b : CleanStr mem) :
    a.cmpi b = strDiff id (a.text.map tolower) (b.text.map tolower) := by
  rw [strDiff_map tolower_eq_zero]
  exact Str.cmpBy_value mem tolower a.toStr (.view 1 b.toStr)

theorem cmp_signs (a b : CleanStr mem) : Signs (a.cmp b) a.text b.text := by
  rw [cmp_eq]
  exact strDiff_signs a.clean b.clean

theorem cmpi_signs (a b : CleanStr mem) :
    Signs (a.cmpi b) (a.text.map tolower) (b.text.map tolower) := by
  rw [cmpi_eq]
  exact strDiff_signs (clean_map tolower_eq_zero a.clean) (clean_map tolower_eq_zero b.clean)

/-- A comparison that reads its signs off the texts of its arguments orders them. -/
theorem preorder_of_signs {α : Type} {cmp : α → α → Int} (key : α → List UInt8)
    (h : ∀ a b, Signs (cmp a b) (key a) (key b)) : TotalPreorder cmp where
  flip a b := (h a b).gt.trans (h b a).lt.symm
  trans a b c hab hbc := by
    have hle : ∀ a b, cmp a b ≤ 0 ↔ key a ≤ key b := by
      intro a b
      rw [← Int.not_lt, (h a b).gt]
      rfl
    exact (hle a c).mpr (List.le_trans ((hle a b).mp hab) ((hle b c).mp hbc))

theorem cmp_preorder (mem : Nat → UInt8) : TotalPreorder (@cmp mem) :=
  preorder_of_signs text cmp_signs

theorem cmpi_preorder (mem : Nat → UInt8) : TotalPreorder (@cmpi mem) :=
  preorder_of_signs (fun a => a.text.map tolower) cmpi_signs

end CleanStr

namespace Str

theorem textFrom_map (mem : Nat → UInt8) (fold : UInt8 → UInt8) (ptr len : Nat) :
    textFrom (fun addr => fold (mem addr)) ptr len = (textFrom mem ptr len).map fold := by
  induction len generalizing ptr with
  | zero => rfl
  | succ len ih => rw [textFrom, textFrom, List.map_cons, ih]

end Str

open CleanStr in
/-- `str_cmp` orders strings lexicographically, with a proper prefix first, and is
zero for equal strings only; `str_cmpi` does the same in a memory of lower case. -/
theorem str_cmp_orders (mem : Nat → UInt8) :
    (∀ a b : CleanStr mem, (a.cmp b < 0 ↔ a.text < b.text) ∧ (a.cmp b = 0 ↔ a.text = b.text) ∧
      (0 < a.cmp b ↔ b.text < a.text)) ∧
    (∀ a b : CleanStr mem, a.cmp b ≤ 0 → b.cmp a ≤ 0 → a.text = b.text) ∧
    TotalPreorder (@cmp mem) ∧
    (∀ a b : CleanStr mem, (a.cmpi b).sign =
      (a.toStr.cmp (fun addr => tolower (mem addr)) (.view 1 b.toStr)).value.sign) ∧
    TotalPreorder (@cmpi mem) := by
  refine ⟨fun a b => ?_, fun a b hab hba => ?_, cmp_preorder mem, fun a b => ?_,
    cmpi_preorder mem⟩
  · obtain ⟨hlt, heq, hgt⟩ := cmp_signs a b
    exact ⟨hlt, heq, hgt⟩
  · have hflip := (cmp_preorder mem).flip b a
    exact (cmp_signs a b).eq.mp (by omega)
  · have htext : ∀ t : Str, t.text (fun addr => tolower (mem addr)) = (t.text mem).map tolower :=
      fun t => Str.textFrom_map mem tolower t.ptr t.len
    rw [cmpi_eq, Str.cmp, Str.cmpBy_value, Pattern.text, htext, htext]
    rfl

end Wifimodem
