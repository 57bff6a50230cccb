import Wifimodem.Lib.Regex
import Wifimodem.Util.Uri

/-!
# The generic decomposition of a URI

The expression is `^(([^:/?#]+):)?(//([^/?#]*))?([^?#]*)(\?([^#]*))?(#(.*))?`, with
its groups numbered by their opening brackets. A dot stands for any character.
-/

namespace Wifimodem

open Regex Str

def notIn (stop : List UInt8) (c : UInt8) : Bool := !stop.contains c

def char (c : UInt8) : Regex UInt8 := .one fun d => d == c

def schemeRegex : Regex UInt8 :=
  .opt (.group 1 (.seq (.group 2 (.run (notIn [':', '/', '?', '#']) 1)) (char ':')))

/-- An optional part behind `lead`, in group `k`, and its text in the next group. -/
def partRegex (k : Nat) (lead : Regex UInt8) (stop : List UInt8) : Regex UInt8 :=
  .opt (.group k (.seq lead (.group (k + 1) (.run (notIn stop) 0))))

def uriRegex : Regex UInt8 :=
  .seq schemeRegex
    (.seq (partRegex 3 (.seq (char '/') (char '/')) ['/', '?', '#'])
      (.seq (.group 5 (.run (notIn ['?', '#']) 0))
        (.seq (partRegex 6 (char '?') ['#']) (partRegex 8 (char '#') []))))

def uriDecomposition (w : List UInt8) : Option UriParts :=
  (uriRegex.exec w).map fun g => ⟨g 2, g 4, (g 5).getD [], g 7, g 9⟩

/-! ## What the expression finds -/

def genericScheme (w : List UInt8) : Option (List UInt8) × List UInt8 :=
  if w.head? = some (':' : UInt8) then (none, w) else schemeChars w

def genericChars (w : List UInt8) : UriParts :=
  let (scheme, w) := genericScheme w
  let (authority, w) := partChars ['/', '/'] ['/', '?', '#'] w
  tailChars scheme authority w

variable {w rest : List UInt8} {g : Captures UInt8} {k n : Nat}

theorem outside_eq_notIn (stop : List UInt8) (h : 0 ∉ w) :
    w.takeWhile (outside stop) = w.takeWhile (notIn stop) ∧
      w.dropWhile (outside stop) = w.dropWhile (notIn stop) := by
  induction w with
  | nil => exact ⟨rfl, rfl⟩
  | cons c w ih =>
    have hc : c ≠ 0 := fun hc => h (hc ▸ List.mem_cons_self)
    obtain ⟨htake, hdrop⟩ := ih fun hw => h (List.mem_cons_of_mem c hw)
    have hsame : outside stop c = notIn stop c := outside_eq stop hc
    rw [List.takeWhile_cons, List.takeWhile_cons, List.dropWhile_cons, List.dropWhile_cons, hsame,
      htake, hdrop]
    exact ⟨rfl, rfl⟩

theorem first_char (c : UInt8) (w : List UInt8) (g : Captures UInt8) :
    First (char c) g (c :: w) g w := first_one (beq_self_eq_true c)

theorem fails_char {c : UInt8} (h : ¬[c] <+: w) (g : Captures UInt8) : Fails (char c) g w := by
  apply fails_one
  intro d hd
  cases w with
  | nil => cases hd
  | cons e w =>
    obtain rfl := Option.some.inj hd
    rw [beq_eq_false_iff_ne]
    rintro rfl
    exact h ⟨w, rfl⟩

/-- A stage fills group `n` and leaves alone every group but `k` and `n`. -/
structure Fills (r : Regex UInt8) (k n : Nat) (w rest : List UInt8) (t : Option (List UInt8)) :
    Prop where
  first : ∀ g : Captures UInt8, g n = none → ∃ g', First r g w g' rest ∧ g' n = t ∧
    ∀ i, i ≠ k → i ≠ n → g' i = g i

theorem fails_scheme (h : (w.takeWhile (notIn [':', '/', '?', '#'])).length < 1 ∨
    ¬[(':' : UInt8)] <+: w.dropWhile (notIn [':', '/', '?', '#'])) :
    Fails (.seq (.group 2 (.run (notIn [':', '/', '?', '#']) 1)) (char ':')) g w := by
  apply fails_run_one
  · intro c hc
    rw [beq_eq_false_iff_ne]
    rintro rfl
    cases hc
  · refine h.imp_right fun hcolon c hc => ?_
    rw [beq_eq_false_iff_ne]
    rintro rfl
    obtain ⟨rest, hrest⟩ := List.head?_eq_some_iff.mp hc
    exact hcolon ⟨rest, hrest.symm⟩

theorem fills_scheme (h : 0 ∉ w) :
    Fills schemeRegex 1 2 w (genericScheme w).2 (genericScheme w).1 := by
  constructor
  intro g hg
  obtain ⟨htake, hdrop⟩ := outside_eq_notIn [':', '/', '?', '#'] h
  have hsplit := @List.takeWhile_append_dropWhile _ (notIn [':', '/', '?', '#']) w
  have hskip : (w.takeWhile (notIn [':', '/', '?', '#'])).length < 1 ∨
      ¬[(':' : UInt8)] <+: w.dropWhile (notIn [':', '/', '?', '#']) →
      genericScheme w = (none, w) →
      ∃ g', First schemeRegex g w g' (genericScheme w).2 ∧ g' 2 = (genericScheme w).1 ∧
        ∀ i, i ≠ 1 → i ≠ 2 → g' i = g i := by
    intro hfails hnone
    rw [hnone]
    exact ⟨g, first_opt_skip (fails_group (fails_scheme hfails)), hg, fun _ _ _ => rfl⟩
  by_cases hhead : w.head? = some (':' : UInt8)
  · apply hskip
    · left
      cases w with
      | nil => cases hhead
      | cons c w =>
        obtain rfl := Option.some.inj hhead
        rw [List.takeWhile_cons_of_neg (by decide)]
        exact Nat.zero_lt_one
    · rw [genericScheme, if_pos hhead]
  have hscheme : genericScheme w = schemeChars w := by rw [genericScheme, if_neg hhead]
  by_cases hcolon : [(':' : UInt8)] <+: w.dropWhile (notIn [':', '/', '?', '#'])
  · obtain ⟨rest, hrest⟩ := hcolon
    have hne : 1 ≤ (w.takeWhile (notIn [':', '/', '?', '#'])).length := by
      apply Nat.pos_of_ne_zero
      intro hzero
      rw [List.length_eq_zero_iff.mp hzero, ← hrest] at hsplit
      exact hhead (by rw [← hsplit]; rfl)
    have hvalue : schemeChars w =
        (some (w.takeWhile (notIn [':', '/', '?', '#'])), rest) := by
      rw [schemeChars, htake, hdrop, ← hrest, strAccept_append (by decide)]
    rw [hscheme, hvalue]
    have hrun := first_group_run (g := g) hne 2
    rw [← hrest] at hrun
    refine ⟨_, first_opt (first_group 1 (first_seq hrun (first_char ':' rest _))), ?_, ?_⟩
    · rw [Function.update_of_ne (by decide), Function.update_self]
    · intro i hik hin
      rw [Function.update_of_ne hik, Function.update_of_ne hin]
  · apply hskip (.inr hcolon)
    rw [hscheme, schemeChars, hdrop, strAccept_false (by decide) hcolon]

theorem fills_part {lead : Regex UInt8} {chars : List UInt8} (hchars : 0 ∉ chars)
    (hfirst : ∀ g rest, First lead g (chars ++ rest) g rest)
    (hfails : ∀ g w, ¬chars <+: w → Fails lead g w) (k : Nat) (stop : List UInt8) (h : 0 ∉ w) :
    Fills (partRegex k lead stop) k (k + 1) w (partChars chars stop w).2
      (partChars chars stop w).1 := by
  constructor
  intro g hg
  by_cases hw : chars <+: w
  · obtain ⟨rest, rfl⟩ := hw
    obtain ⟨htake, hdrop⟩ :=
      outside_eq_notIn stop (fun hrest => h (List.mem_append_right chars hrest))
    rw [partChars_append hchars, htake, hdrop]
    refine ⟨_, first_opt (first_group k (first_seq (hfirst g rest)
      (first_group_run (Nat.zero_le _) (k + 1)))), ?_, ?_⟩
    · rw [Function.update_of_ne (Nat.succ_ne_self k), Function.update_self]
    · intro i hik hin
      rw [Function.update_of_ne hik, Function.update_of_ne hin]
  · rw [partChars_none hchars stop hw]
    exact ⟨g, first_opt_skip (fails_group (fails_seq_left (hfails g w hw))), hg, fun _ _ _ => rfl⟩

theorem fills_one (c : UInt8) (hc : c ≠ 0) (k : Nat) (stop : List UInt8) (h : 0 ∉ w) :
    Fills (partRegex k (char c) stop) k (k + 1) w (partChars [c] stop w).2
      (partChars [c] stop w).1 := by
  apply fills_part
  · intro hmem
    exact hc (List.mem_singleton.mp hmem).symm
  · exact fun g rest => first_char c rest g
  · exact fun g w hw => fails_char hw g
  · exact h

theorem fills_authority (stop : List UInt8) (h : 0 ∉ w) :
    Fills (partRegex 3 (.seq (char '/') (char '/')) stop) 3 4 w
      (partChars ['/', '/'] stop w).2 (partChars ['/', '/'] stop w).1 := by
  apply fills_part
  · decide
  · exact fun g rest => first_seq (first_char '/' ('/' :: rest) g) (first_char '/' rest g)
  · intro g w hw
    by_cases hslash : [('/' : UInt8)] <+: w
    · obtain ⟨rest, rfl⟩ := hslash
      apply fails_seq
      intro r hr
      obtain rfl := List.mem_singleton.mp hr
      apply fails_char
      rintro ⟨rest, rfl⟩
      exact hw ⟨rest, rfl⟩
    · exact fails_seq_left (fails_char hslash g)
  · exact h

theorem fills_path (stop : List UInt8) (h : 0 ∉ w) :
    Fills (.group 5 (.run (notIn stop) 0)) 5 5 w (w.dropWhile (outside stop))
      (some (w.takeWhile (outside stop))) := by
  constructor
  intro g _
  obtain ⟨htake, hdrop⟩ := outside_eq_notIn stop h
  rw [htake, hdrop]
  refine ⟨_, first_group_run (Nat.zero_le _) 5, Function.update_self _ _ _, ?_⟩
  intro i hi _
  rw [Function.update_of_ne hi]

theorem fragmentChars_eq (h : 0 ∉ w) : (partChars ['#'] [] w).1 = fragmentChars w := by
  by_cases hw : [('#' : UInt8)] <+: w
  · obtain ⟨rest, rfl⟩ := hw
    have hall : rest.takeWhile (outside []) = rest := by
      rw [List.takeWhile_eq_self_iff]
      intro c hc
      have hne : c ≠ 0 := fun hz => h (hz ▸ List.mem_append_right _ hc)
      exact outside_eq [] hne
    rw [partChars_append (by decide), List.singleton_append, fragmentChars_cons, hall]
  · rw [partChars_none (by decide) [] hw, fragmentChars, strAccept_false (by decide) hw]

/-- The path, the query and the fragment, behind what leaves their groups empty. -/
theorem first_tail (h : 0 ∉ w) (hnone : ∀ i, 5 ≤ i → g i = none) :
    ∃ g' rest, First (.seq (.group 5 (.run (notIn ['?', '#']) 0))
        (.seq (partRegex 6 (char '?') ['#']) (partRegex 8 (char '#') []))) g w g' rest ∧
      (∀ scheme authority, (⟨scheme, authority, (g' 5).getD [], g' 7, g' 9⟩ : UriParts) =
        tailChars scheme authority w) ∧
      ∀ i, i < 5 → g' i = g i := by
  have hzero : 0 ∉ w.dropWhile (outside ['?', '#']) :=
    fun hmem => h ((List.dropWhile_suffix _).mem hmem)
  obtain ⟨g₁, hfirst₁, hg₁, hframe₁⟩ :=
    (fills_path ['?', '#'] h).first g (hnone 5 (Nat.le_refl 5))
  simp only [tailChars]
  generalize w.dropWhile (outside ['?', '#']) = rest at hzero hfirst₁ ⊢
  have hquery := @partChars_text ['?'] (by decide) ['#'] rest
  have hnone₇ : g₁ 7 = none := (hframe₁ 7 (by decide) (by decide)).trans (hnone 7 (by decide))
  obtain ⟨g₂, hfirst₂, hg₂, hframe₂⟩ := (fills_one '?' (by decide) 6 ['#'] hzero).first g₁ hnone₇
  generalize partChars ['?'] ['#'] rest = r at hquery hfirst₂ hg₂ ⊢
  obtain ⟨query, rest'⟩ := r
  have hzero' : 0 ∉ rest' := fun hmem => hzero (hquery ▸ List.mem_append_right _ hmem)
  have hnone₉ : g₂ 9 = none := by
    rw [hframe₂ 9 (by decide) (by decide), hframe₁ 9 (by decide) (by decide), hnone 9 (by decide)]
  obtain ⟨g₃, hfirst₃, hg₃, hframe₃⟩ := (fills_one '#' (by decide) 8 [] hzero').first g₂ hnone₉
  refine ⟨g₃, _, first_seq hfirst₁ (first_seq hfirst₂ hfirst₃), ?_, ?_⟩
  · intro scheme authority
    have h₇ : g₃ 7 = query := (hframe₃ 7 (by decide) (by decide)).trans hg₂
    have h₅ : g₃ 5 = some (w.takeWhile (outside ['?', '#'])) := by
      rw [hframe₃ 5 (by decide) (by decide), hframe₂ 5 (by decide) (by decide), hg₁]
    rw [h₅, h₇, hg₃, fragmentChars_eq hzero']
    rfl
  · intro i hi
    rw [hframe₃ i (by omega) (by omega), hframe₂ i (by omega) (by omega),
      hframe₁ i (by omega) (by omega)]

theorem uriDecomposition_eq (h : 0 ∉ w) : uriDecomposition w = some (genericChars w) := by
  have hscheme : schemeText (genericScheme w).1 ++ (genericScheme w).2 = w := by
    rw [genericScheme]
    split
    · rfl
    · exact schemeChars_text w
  obtain ⟨g₁, hfirst₁, hg₁, hframe₁⟩ := (fills_scheme h).first (fun _ => none) rfl
  rw [uriDecomposition, genericChars]
  generalize genericScheme w = r at hscheme hfirst₁ hg₁ ⊢
  obtain ⟨scheme, w₁⟩ := r
  have hzero₁ : 0 ∉ w₁ := fun hmem => h (hscheme ▸ List.mem_append_right _ hmem)
  have hauthority := @partChars_text ['/', '/'] (by decide) ['/', '?', '#'] w₁
  obtain ⟨g₂, hfirst₂, hg₂, hframe₂⟩ :=
    (fills_authority ['/', '?', '#'] hzero₁).first g₁ (hframe₁ 4 (by decide) (by decide))
  simp only at hfirst₁ hg₁ ⊢
  generalize partChars ['/', '/'] ['/', '?', '#'] w₁ = r at hauthority hfirst₂ hg₂ ⊢
  obtain ⟨authority, w₂⟩ := r
  have hzero₂ : 0 ∉ w₂ := fun hmem => hzero₁ (hauthority ▸ List.mem_append_right _ hmem)
  have hnone : ∀ i, 5 ≤ i → g₂ i = none := by
    intro i hi
    rw [hframe₂ i (by omega) (by omega), hframe₁ i (by omega) (by omega)]
  obtain ⟨g₃, rest, hfirst₃, htail, hframe₃⟩ := first_tail hzero₂ hnone
  have hexec := exec_of_first (first_seq hfirst₁ (first_seq hfirst₂ hfirst₃))
  have h₄ : g₃ 4 = authority := (hframe₃ 4 (by decide)).trans hg₂
  have h₂ : g₃ 2 = scheme := by
    rw [hframe₃ 2 (by decide), hframe₂ 2 (by decide) (by decide), hg₁]
  rw [uriRegex, hexec, Option.map_some, h₂, h₄, htail]

/-! ## Where the parser and the expression differ -/

theorem takeWhile_eq_iff {α : Type} {f g : α → Bool} (hfg : ∀ c, f c = true → g c = true)
    (w : List α) :
    w.takeWhile g = w.takeWhile f ↔ ∀ c ∈ (w.dropWhile f).head?, g c = false := by
  induction w with
  | nil => simp
  | cons c w ih =>
    cases hf : f c with
    | true =>
      rw [List.takeWhile_cons_of_pos hf, List.takeWhile_cons_of_pos (hfg c hf),
        List.dropWhile_cons_of_pos hf, List.cons.injEq, ih]
      exact ⟨fun h => h.2, fun h => ⟨rfl, h⟩⟩
    | false =>
      rw [List.takeWhile_cons, List.takeWhile_cons, List.dropWhile_cons, hf]
      cases hg : g c <;> simp [hg]

/-- The authority ends where a query or a fragment begins. -/
def UriParts.authorityCut (p : UriParts) : Prop :=
  p.authority.isSome ∧ p.path = [] ∧ (p.query.isSome ∨ p.fragment.isSome)

instance (p : UriParts) : Decidable p.authorityCut := inferInstanceAs (Decidable (_ ∧ _ ∧ _))

/-- What follows an authority decides on the cut. -/
theorem authorityCut_iff (scheme : Option (List UInt8)) (name : List UInt8) {v : List UInt8}
    (hv : ∀ c ∈ v.head?, c ∈ [('/' : UInt8), '?', '#']) :
    (tailChars scheme (some name) v).authorityCut ↔ ¬∀ c ∈ v.head?, outside ['/'] c = false := by
  cases v with
  | nil =>
    constructor
    · rintro ⟨-, -, h | h⟩ <;> cases h
    · intro h
      exact absurd (by simp) h
  | cons c v =>
    have hc := hv c rfl
    rcases List.mem_cons.mp hc with rfl | hc
    · constructor
      · rintro ⟨-, h, -⟩
        cases h
      · intro h
        refine absurd ?_ h
        intro c hc
        obtain rfl := Option.some.inj hc
        rfl
    rcases List.mem_cons.mp hc with rfl | hc
    · have hquery : partChars ['?'] ['#'] ('?' :: v) = (some _, _) :=
        partChars_append (by decide) ['#'] v
      refine iff_of_true ⟨rfl, rfl, .inl ?_⟩ fun h => absurd (h '?' rfl) (by decide)
      rw [tailChars, List.dropWhile_cons_of_neg (by decide), hquery]
      rfl
    · obtain rfl := List.mem_singleton.mp hc
      have hlead : ¬[('?' : UInt8)] <+: '#' :: v := by
        rintro ⟨rest, hrest⟩
        cases (List.cons.inj hrest).1
      have hquery : partChars ['?'] ['#'] ('#' :: v) = (none, ('#' : UInt8) :: v) :=
        partChars_none (by decide) ['#'] hlead
      refine iff_of_true ⟨rfl, rfl, .inr ?_⟩ fun h => absurd (h '#' rfl) (by decide)
      rw [tailChars, List.dropWhile_cons_of_neg (by decide), hquery]
      simp only [fragmentChars_cons]
      rfl

theorem uriChars_colon (v : List UInt8) : (uriChars (':' :: v)).scheme = some [] := by
  have haccept : strAccept (':' :: v) [':'] = (v, true) := strAccept_append (by decide) v
  rw [uriChars, schemeChars, List.dropWhile_cons_of_neg (by decide), haccept,
    List.takeWhile_cons_of_neg (by decide)]
  rfl

theorem uriChars_eq_iff (h : 0 ∉ w) :
    uriChars w = genericChars w ↔
      w.head? ≠ some (':' : UInt8) ∧ ¬(genericChars w).authorityCut := by
  by_cases hhead : w.head? = some (':' : UInt8)
  · obtain ⟨v, rfl⟩ := List.head?_eq_some_iff.mp hhead
    refine iff_of_false (fun heq => ?_) fun hcond => hcond.1 hhead
    have hscheme := (congrArg UriParts.scheme heq).symm.trans (uriChars_colon v)
    rw [genericChars, genericScheme, if_pos hhead] at hscheme
    cases hscheme
  have hscheme : genericScheme w = schemeChars w := by rw [genericScheme, if_neg hhead]
  have htext := schemeChars_text w
  rw [uriChars, genericChars, hscheme]
  generalize schemeChars w = r at htext ⊢
  obtain ⟨scheme, w₁⟩ := r
  have hzero : 0 ∉ w₁ := fun hmem => h (htext ▸ List.mem_append_right _ hmem)
  simp only [hhead, ne_eq, not_false_eq_true, true_and]
  by_cases hw : [('/' : UInt8), '/'] <+: w₁
  · obtain ⟨v, rfl⟩ := hw
    have hzero' : 0 ∉ v := fun hmem => hzero (List.mem_append_right _ hmem)
    have hstop := dropWhile_outside ['/', '?', '#'] hzero'
    have hsub : ∀ c, outside ['/', '?', '#'] c = true → outside ['/'] c = true := by
      intro c hc
      simp only [outside, strchr, Bool.not_eq_true', Bool.or_eq_false_iff] at hc ⊢
      simp only [List.contains_cons, Bool.or_eq_false_iff] at hc ⊢
      exact ⟨hc.1, hc.2.1, rfl⟩
    rw [partChars_append (by decide), partChars_append (by decide)]
    simp only
    rw [authorityCut_iff _ _ hstop, not_not, ← takeWhile_eq_iff hsub v]
    constructor
    · intro heq
      exact Option.some.inj (congrArg UriParts.authority heq)
    · intro heq
      have hslash := @List.takeWhile_append_dropWhile _ (outside ['/']) v
      have hall := @List.takeWhile_append_dropWhile _ (outside ['/', '?', '#']) v
      rw [heq] at hslash ⊢
      rw [List.append_cancel_left (hslash.trans hall.symm)]
  · rw [partChars_none (by decide) _ hw, partChars_none (by decide) _ hw]
    exact iff_of_true rfl fun hcut => by cases hcut.1

theorem Uri.HasParts.unique {mem : Nat → UInt8} {u : Uri} {p q : UriParts}
    (hp : u.HasParts mem p) (hq : u.HasParts mem q) : p = q := by
  have hopt : ∀ {a b : Option (List UInt8)}, a.isSome = b.isSome → a.getD [] = b.getD [] → a = b := by
    rintro (_ | a) (_ | b) hsome hget
    · rfl
    · cases hsome
    · cases hsome
    · exact congrArg some hget
  rw [UriParts.mk.injEq]
  exact ⟨hopt (hp.haveScheme.symm.trans hq.haveScheme) (hp.scheme.symm.trans hq.scheme),
    hopt (hp.haveAuthority.symm.trans hq.haveAuthority) (hp.authority.symm.trans hq.authority),
    hp.path.symm.trans hq.path,
    hopt (hp.haveQuery.symm.trans hq.haveQuery) (hp.query.symm.trans hq.query),
    hopt (hp.haveFragment.symm.trans hq.haveFragment) (hp.fragment.symm.trans hq.fragment)⟩

/-- The parser agrees with the expression unless the scheme would be empty or the
authority runs into a query or a fragment. -/
theorem uri_generic_iff {mem : Nat → UInt8} {s : Str} (h : 0 ∉ s.text mem) :
    (∃ p, uriDecomposition (s.text mem) = some p ∧ (uriParse mem s).value.HasParts mem p) ↔
      (s.text mem).head? ≠ some (':' : UInt8) ∧
        ∀ p, uriDecomposition (s.text mem) = some p → ¬p.authorityCut := by
  have hparts := uriParse_parts mem s
  have hiff := uriChars_eq_iff h
  rw [uriDecomposition_eq h]
  constructor
  · rintro ⟨p, hp, hu⟩
    obtain rfl := Option.some.inj hp
    obtain ⟨hhead, hcut⟩ := hiff.mp (hparts.unique hu)
    refine ⟨hhead, ?_⟩
    rintro p hp
    obtain rfl := Option.some.inj hp
    exact hcut
  · rintro ⟨hhead, hcut⟩
    refine ⟨_, rfl, ?_⟩
    rwa [← hiff.mpr ⟨hhead, hcut _ rfl⟩]

/-- The text is `s://h/p?q#f`. -/
theorem uri_generic_full :
    let text : List UInt8 := ['s', ':', '/', '/', 'h', '/', 'p', '?', 'q', '#', 'f']
    let mem : Nat → UInt8 := fun a => text.getD a 0
    (uriParse mem ⟨0, 11⟩).value.HasParts mem
      ⟨some ['s'], some ['h'], ['/', 'p'], some ['q'], some ['f']⟩ := by
  intro text mem
  have hvalue : uriDecomposition (Str.text mem ⟨0, 11⟩) =
      some ⟨some ['s'], some ['h'], ['/', 'p'], some ['q'], some ['f']⟩ := by decide
  obtain ⟨p, hp, hu⟩ := (@uri_generic_iff mem ⟨0, 11⟩ (by decide)).mpr
    ⟨by decide, by rw [hvalue]; rintro p ⟨⟩; decide⟩
  rw [hvalue] at hp
  obtain rfl := Option.some.inj hp
  exact hu

/-- In `//h?q` the query becomes a part of the authority. -/
theorem uri_authority_takes_query :
    let text : List UInt8 := ['/', '/', 'h', '?', 'q']
    let mem : Nat → UInt8 := fun a => text.getD a 0
    0 ∉ Str.text mem ⟨0, 5⟩ ∧
      ¬∃ p, uriDecomposition (Str.text mem ⟨0, 5⟩) = some p ∧
        (uriParse mem ⟨0, 5⟩).value.HasParts mem p := by
  intro text mem
  refine ⟨by decide, ?_⟩
  rintro ⟨p, hp, hu⟩
  have hvalue : uriDecomposition (Str.text mem ⟨0, 5⟩) =
      some ⟨none, some ['h'], [], some ['q'], none⟩ := by decide
  rw [hvalue] at hp
  obtain rfl := Option.some.inj hp
  have hauthority := hu.authority
  revert hauthority
  decide

end Wifimodem
