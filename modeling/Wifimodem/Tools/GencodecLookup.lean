import Mathlib.Data.List.Find
import Wifimodem.Lib.Blocks
import Wifimodem.Lib.Pool
import Wifimodem.Tools.Gencodec

/-!
# Looking a code up

The symbol table is made of the distinct groups of the codepages that share it, and
the group table of a codepage has the place of each of its groups. A group keeps its
place when other codepages add theirs.
-/

namespace Wifimodem

open Blocks Pool

/-- The symbol of a code, by its group and its place in the group. -/
def lookupSymbol {α : Type} (grptable : List Nat) (symtable : List α) (group code : Nat) :
    Option α := do
  let index ← grptable[code >>> group]?
  symtable[(index <<< group) + (code &&& ((1 <<< group) - 1))]?

/-- The same with the tables of a codepage by name. -/
def Pages.lookup {α : Type} [DecidableEq α] (pages : Pages α) (codepage : String) (code : Nat) :
    Option α := do
  let page ← OrderedDict.get? pages.codepages codepage
  lookupSymbol page.grptable (pages.symbolTable page) pages.group code

/-! ## The symbols of a codepage -/

/-- The symbol of a code is the first byte that stands for it. -/
def symbolOf (decode : UInt8 → Nat) (undefined code : Nat) : Nat :=
  if code = 0xfffd then undefined
  else ((List.range 256).find? fun ch => decode (UInt8.ofNat ch) = code).getD undefined

theorem find?_codepoint (decode : UInt8 → Nat) (code : Nat) :
    (List.range 256).find? (fun ch => decode (UInt8.ofNat ch) = code) =
      if code ∈ (List.range 256).map (fun ch => decode (UInt8.ofNat ch)) then
        some (((List.range 256).map fun ch => decode (UInt8.ofNat ch)).idxOf code)
      else none := by
  refine Eq.trans ?_ (find?_place _ code)
  rw [List.length_map, List.length_range]
  refine List.find?_congr fun ch hch => ?_
  rw [List.getElem?_map, List.getElem?_range (List.mem_range.mp hch)]
  simp

theorem generateSymbols_eq (decode : String → UInt8 → Nat) (codepage : String) (undefined : Nat) :
    (generateSymbols decode codepage undefined).2.val =
      (List.range 65536).map (symbolOf (decode codepage) undefined) := by
  apply List.ext_getElem?
  intro code
  simp only [generateSymbols]
  rw [List.getElem?_set, List.getElem?_map, List.getElem?_map, List.length_map, List.length_range]
  split
  · rename_i hcode
    subst hcode
    rw [if_pos (by decide), List.getElem?_range (by decide), Option.map_some, symbolOf, if_pos rfl]
  · rename_i hcode
    cases Nat.lt_or_ge code 65536 with
    | inl hlt =>
      rw [List.getElem?_range hlt, Option.map_some, Option.map_some, symbolOf,
        if_neg (Ne.symm hcode), find?_codepoint]
      split <;> rfl
    | inr hge =>
      rw [List.getElem?_eq_none (by rwa [List.length_range])]
      rfl

section
variable {α : Type} {symbols syms : List α} {pool : List (List α)} {group k : Nat}

/-- The groups of a codepage, in the order of their codes. -/
def groups (symbols : List α) (group : Nat) : List (List α) :=
  blocks symbols (2 ^ group) (65536 / 2 ^ group)

theorem groups_mul (hgroup : group ≤ 16) : 65536 / 2 ^ group * 2 ^ group = 65536 :=
  Nat.div_mul_cancel (Nat.pow_dvd_pow 2 hgroup)

theorem uniform_groups (hgroup : group ≤ 16) (symbols : Symbols α) :
    Uniform (2 ^ group) (groups symbols.val group) :=
  uniform_blocks (symbols.property.trans (groups_mul hgroup).symm)

theorem flatten_groups (hgroup : group ≤ 16) (symbols : Symbols α) :
    (groups symbols.val group).flatten = symbols.val :=
  flatten_blocks (symbols.property.trans (groups_mul hgroup).symm)

theorem steps_flatten (hk : 0 < k) (hpool : Uniform k pool) :
    steps pool.flatten.length k = (List.range pool.length).map (· * k) := by
  have hcount : (pool.length * k + k - 1) / k = pool.length := by
    have hrest : pool.length * k + k - 1 = (k - 1) + k * pool.length := by
      rw [Nat.mul_comm]
      omega
    rw [hrest, Nat.add_mul_div_left _ _ hk, Nat.div_eq_of_lt (by omega), Nat.zero_add]
  rw [steps, length_flatten hpool, hcount]

variable [DecidableEq α]

/-! ## One group -/

theorem zip_all_eq {a b : List α} (h : a.length = b.length) :
    (a.zip b).all (fun (x, y) => x = y) = decide (a = b) := by
  induction a generalizing b with
  | nil =>
    obtain rfl := List.eq_nil_of_length_eq_zero h.symm
    rfl
  | cons x a ih =>
    cases b with
    | nil => cases h
    | cons y b =>
      rw [List.zip_cons_cons, List.all_cons, ih (Nat.succ.inj h), ← Bool.decide_and]
      simp

/-- A group is looked for at the places of groups only. -/
theorem findGroup_flatten (hk : 0 < k) (hpool : Uniform k pool) (hsyms : syms.length = k) :
    findGroup syms pool.flatten = if syms ∈ pool then some (place pool syms * k) else none := by
  have hsame : ∀ i ∈ List.range pool.length,
      ((syms.zip (pool.flatten.extract (i * k) (i * k + k))).all fun (a, b) => a = b) =
        decide (pool[i]? = some syms) := by
    intro i hi
    have hlt := List.mem_range.mp hi
    have hget := List.getElem?_eq_getElem hlt
    have hlen : syms.length = pool[i].length := hsyms.trans (hpool _ (List.getElem_mem hlt)).symm
    rw [extract_flatten hpool hget, zip_all_eq hlen, hget]
    simp [eq_comm]
  have hfind := (List.find?_congr hsame).trans (find?_place pool syms)
  rw [findGroup, hsyms, steps_flatten hk hpool, List.find?_map]
  refine (congrArg (Option.map (· * k)) hfind).trans ?_
  split <;> rfl

/-- A group gets the place that it has in the pool from then on. -/
theorem condenseLoop_cons (n : Nat) (ns indices : List Nat) (hpool : Uniform (2 ^ group) pool)
    (hsyms : symbols.extract (n <<< group) ((n + 1) <<< group) = syms)
    (hlen : syms.length = 2 ^ group) :
    condenseLoop symbols group (n :: ns) indices pool.flatten =
      condenseLoop symbols group ns (indices ++ [place (add pool syms) syms])
        (add pool syms).flatten := by
  have hpos := Nat.two_pow_pos group
  have hshift (i : Nat) : (i * 2 ^ group) >>> group = i := by
    rw [Nat.shiftRight_eq_div_pow, Nat.mul_div_cancel i hpos]
  rw [condenseLoop, hsyms, findGroup_flatten hpos hpool hlen]
  cases Decidable.em (syms ∈ pool) with
  | inl hmem => simp only [if_pos hmem, hshift, add_of_mem hmem]
  | inr hnew =>
    rw [place_add_self hnew, add_of_not_mem hnew]
    simp only [if_neg hnew, length_flatten hpool, hshift, List.flatten_append,
      List.flatten_singleton]

theorem condenseLoop_eq (ns indices : List Nat) (hpool : Uniform (2 ^ group) pool)
    {gs : List (List α)} (hgs : Uniform (2 ^ group) gs)
    (hns : ns.map (fun n => symbols.extract (n <<< group) ((n + 1) <<< group)) = gs) :
    condenseLoop symbols group ns indices pool.flatten =
      (indices ++ gs.map (place (addAll pool gs)), (addAll pool gs).flatten) := by
  induction ns generalizing indices pool gs with
  | nil =>
    subst hns
    exact congrArg (·, _) (List.append_nil indices).symm
  | cons n ns ih =>
    subst hns
    rw [List.map_cons] at hgs ⊢
    generalize hsyms : symbols.extract (n <<< group) ((n + 1) <<< group) = syms at hgs ⊢
    have hlen : syms.length = 2 ^ group := hgs syms List.mem_cons_self
    have hadd : Uniform (2 ^ group) (add pool syms) := by
      intro b hb
      exact (mem_add.mp hb).elim (hpool b) fun heq => heq ▸ hlen
    have hkeep (more : List (List α)) :
        place (addAll (add pool syms) more) syms = place (add pool syms) syms :=
      place_of_prefix (prefix_addAll _ more) (mem_add.mpr (.inr rfl))
    rw [condenseLoop_cons n ns indices hpool hsyms hlen, ih _ hadd hgs.tail rfl, addAll_cons,
      List.map_cons, hkeep, List.append_assoc, List.singleton_append]

theorem condenseCodepoints_eq (hgroup : group ≤ 16) (symbols : Symbols α)
    (hpool : Uniform (2 ^ group) pool) :
    condenseCodepoints symbols.val group pool.flatten =
      ((groups symbols.val group).map (place (addAll pool (groups symbols.val group))),
        (addAll pool (groups symbols.val group)).flatten) := by
  rw [condenseCodepoints]
  refine condenseLoop_eq _ [] hpool (uniform_groups hgroup symbols) ?_
  rw [groups, blocks, Nat.shiftRight_eq_div_pow]
  simp only [Nat.shiftLeft_eq]

/-! ## One codepage after another -/

section
variable (symbolsOf : String → Nat → List Nat × Symbols α) (group undefined : Nat) (unify : Bool)

def pageGroups (codepage : String) : List (List α) :=
  groups (symbolsOf codepage undefined).2.val group

/-- The groups of some codepages, each of them once. -/
def poolOf (codepages : List String) : List (List α) :=
  addAll [] (codepages.flatMap (pageGroups symbolsOf group undefined))

/-- The codepages that have the symbol table in common with one of them. -/
def sharing (codepages : List String) (codepage : String) : List String :=
  if unify then codepages else [codepage]

/-- A page as it stands after the codepages of `before`. -/
structure PageBuilt (before : List String) (s : Compiler α) (e : String × Page) : Prop where
  mem : e.1 ∈ before
  own : e.2.symtable.isSome = !unify
  grptable : e.2.grptable = (pageGroups symbolsOf group undefined e.1).map
    (place (poolOf symbolsOf group undefined (sharing unify before e.1)))
  symtable : s.lists[e.2.symtable.getD s.symtable]? =
    some (poolOf symbolsOf group undefined (sharing unify before e.1)).flatten

structure Built (before : List String) (s : Compiler α) : Prop where
  shared : unify = true →
    s.lists[s.symtable]? = some (poolOf symbolsOf group undefined before).flatten
  pages : ∀ e ∈ s.pages, PageBuilt symbolsOf group undefined unify before s e
  all : ∀ codepage ∈ before, ∃ page, (codepage, page) ∈ s.pages

end

variable {symbolsOf : String → Nat → List Nat × Symbols α} {undefined : Nat} {unify : Bool}
  {before codepages : List String} {codepage : String} {s : Compiler α} {e : String × Page}

theorem mem_poolOf {g : List α} :
    g ∈ poolOf symbolsOf group undefined codepages ↔
      ∃ codepage ∈ codepages, g ∈ pageGroups symbolsOf group undefined codepage := by
  rw [poolOf, mem_addAll, List.mem_flatMap]
  exact or_iff_right List.not_mem_nil

theorem nodup_poolOf (codepages : List String) :
    (poolOf symbolsOf group undefined codepages).Nodup := nodup_addAll List.nodup_nil _

theorem uniform_poolOf (hgroup : group ≤ 16) (codepages : List String) :
    Uniform (2 ^ group) (poolOf symbolsOf group undefined codepages) := by
  intro g hg
  obtain ⟨codepage, -, hg⟩ := mem_poolOf.mp hg
  exact uniform_groups hgroup _ g hg

theorem poolOf_append (before : List String) (codepage : String) :
    poolOf symbolsOf group undefined (before ++ [codepage]) =
      addAll (poolOf symbolsOf group undefined before)
        (pageGroups symbolsOf group undefined codepage) := by
  rw [poolOf, List.flatMap_append, addAll_append, List.flatMap_singleton, poolOf]

theorem poolOf_singleton (codepage : String) :
    poolOf symbolsOf group undefined [codepage] =
      addAll [] (pageGroups symbolsOf group undefined codepage) := by
  rw [poolOf, List.flatMap_singleton]

/-- More codepages leave the groups of a codepage in their places. -/
theorem place_poolOf_append (hmem : codepage ∈ before) (more : String) :
    (pageGroups symbolsOf group undefined codepage).map
        (place (poolOf symbolsOf group undefined (before ++ [more]))) =
      (pageGroups symbolsOf group undefined codepage).map
        (place (poolOf symbolsOf group undefined before)) := by
  refine List.map_congr_left fun g hg => ?_
  rw [poolOf_append]
  exact place_of_prefix (prefix_addAll _ _) (mem_poolOf.mpr ⟨codepage, hmem, hg⟩)

/-- The shared list grows by the groups that it has not got. -/
theorem compilePage_shared (hgroup : group ≤ 16)
    (hlist : s.lists[s.symtable]? = some (poolOf symbolsOf group undefined before).flatten)
    (codepage : String) :
    compilePage symbolsOf group undefined true s codepage =
      { lists := s.lists.set s.symtable
          (poolOf symbolsOf group undefined (before ++ [codepage])).flatten
        symtable := s.symtable
        pages := OrderedDict.put s.pages codepage
          { cname := cname codepage
            codepoints := (symbolsOf codepage undefined).1
            grptable := (pageGroups symbolsOf group undefined codepage).map
              (place (poolOf symbolsOf group undefined (before ++ [codepage])))
            symtable := none } } := by
  have hpool : Uniform (2 ^ group) (poolOf symbolsOf group undefined before) :=
    uniform_poolOf hgroup before
  have hcondense := condenseCodepoints_eq hgroup (symbolsOf codepage undefined).2 hpool
  rw [← pageGroups, ← poolOf_append] at hcondense
  simp only [compilePage, if_true, hlist, Option.getD_some, hcondense]

/-- A codepage of its own begins a new list. -/
theorem compilePage_own (hgroup : group ≤ 16) (s : Compiler α) (codepage : String) :
    compilePage symbolsOf group undefined false s codepage =
      { lists := s.lists ++ [(poolOf symbolsOf group undefined [codepage]).flatten]
        symtable := s.lists.length
        pages := OrderedDict.put s.pages codepage
          { cname := cname codepage
            codepoints := (symbolsOf codepage undefined).1
            grptable := (pageGroups symbolsOf group undefined codepage).map
              (place (poolOf symbolsOf group undefined [codepage]))
            symtable := some s.lists.length } } := by
  have hnone : Uniform (2 ^ group) ([] : List (List α)) := List.forall_mem_nil _
  have hcondense := condenseCodepoints_eq hgroup (symbolsOf codepage undefined).2 hnone
  rw [List.flatten_nil, ← pageGroups, ← poolOf_singleton] at hcondense
  have hlist : (s.lists ++ [[]])[s.lists.length]? = some [] := by simp
  have hset (grown : List α) : (s.lists ++ [[]]).set s.lists.length grown = s.lists ++ [grown] := by
    rw [List.set_append_right _ _ (Nat.le_refl _), Nat.sub_self]
    rfl
  simp only [compilePage, Bool.false_eq_true, if_false, hlist, Option.getD_some, hcondense, hset]

theorem mem_before_append {page : Page} {pages : List (String × Page)} {name : String}
    (hall : ∀ name ∈ before, ∃ page, (name, page) ∈ pages) (hname : name ∈ before ++ [codepage]) :
    ∃ page', (name, page') ∈ OrderedDict.put pages codepage page := by
  cases Decidable.em (name = codepage) with
  | inl heq => exact ⟨page, heq ▸ OrderedDict.mem_put_self pages codepage page⟩
  | inr hne =>
    obtain hmem | hmem := List.mem_append.mp hname
    · obtain ⟨page', hpage⟩ := hall name hmem
      exact ⟨page', OrderedDict.mem_put_of_ne hpage hne page⟩
    · exact absurd (List.mem_singleton.mp hmem) hne

theorem built_shared (hgroup : group ≤ 16) (h : Built symbolsOf group undefined true before s)
    (codepage : String) :
    Built symbolsOf group undefined true (before ++ [codepage])
      (compilePage symbolsOf group undefined true s codepage) := by
  have hlist := h.shared rfl
  obtain ⟨hlt, -⟩ := List.getElem?_eq_some_iff.mp hlist
  have hgrown (grown : List α) : (s.lists.set s.symtable grown)[s.symtable]? = some grown :=
    List.getElem?_set_self hlt
  rw [compilePage_shared hgroup hlist]
  refine ⟨fun _ => hgrown _, fun e he => ?_, fun name hname => mem_before_append h.all hname⟩
  obtain rfl | hold := OrderedDict.eq_or_mem_of_mem_put he
  · exact ⟨List.mem_append_right _ (List.mem_singleton_self _), rfl, rfl, hgrown _⟩
  · obtain ⟨hmem, hown, hgrptable, -⟩ := h.pages e hold
    have hnone : e.2.symtable = none :=
      Option.isNone_iff_eq_none.mp (Option.isSome_eq_false_iff.mp hown)
    refine ⟨List.mem_append_left _ hmem, hown, ?_, ?_⟩
    · rw [hgrptable]
      exact (place_poolOf_append hmem codepage).symm
    · rw [hnone]
      exact hgrown _

theorem built_own (hgroup : group ≤ 16) (h : Built symbolsOf group undefined false before s)
    (codepage : String) :
    Built symbolsOf group undefined false (before ++ [codepage])
      (compilePage symbolsOf group undefined false s codepage) := by
  rw [compilePage_own hgroup]
  refine ⟨fun hshared => ?_, fun e he => ?_, fun name hname => mem_before_append h.all hname⟩
  · cases hshared
  obtain rfl | hold := OrderedDict.eq_or_mem_of_mem_put he
  · refine ⟨List.mem_append_right _ (List.mem_singleton_self _), rfl, rfl, ?_⟩
    simp [sharing]
  · obtain ⟨hmem, hown, hgrptable, hlist⟩ := h.pages e hold
    obtain ⟨addr, haddr⟩ := Option.isSome_iff_exists.mp hown
    refine ⟨List.mem_append_left _ hmem, hown, hgrptable, ?_⟩
    rw [haddr] at hlist ⊢
    -- The lists of the codepages before it stay where they are.
    have hlt := (List.getElem?_eq_some_iff.mp hlist).1
    exact (List.getElem?_append_left hlt).trans hlist

theorem built_fold (hgroup : group ≤ 16) (codepages : List String)
    (h : Built symbolsOf group undefined unify before s) :
    Built symbolsOf group undefined unify (before ++ codepages)
      (codepages.foldl (compilePage symbolsOf group undefined unify) s) := by
  induction codepages generalizing before s with
  | nil => rwa [List.append_nil]
  | cons codepage codepages ih =>
    have hstep : Built symbolsOf group undefined unify (before ++ [codepage])
        (compilePage symbolsOf group undefined unify s codepage) := by
      cases unify with
      | true => exact built_shared hgroup h codepage
      | false => exact built_own hgroup h codepage
    have hrest := ih hstep
    rwa [List.append_assoc] at hrest

/-! ## The tables as they are in the end -/

theorem poolOf_ne_nil (hgroup : group ≤ 16) (codepage : String) :
    (poolOf symbolsOf group undefined [codepage]).flatten ≠ [] := by
  intro hnil
  have hgroups : ∀ g ∈ groups (symbolsOf codepage undefined).2.val group, g = [] := by
    intro g hg
    have hmem : g ∈ poolOf symbolsOf group undefined [codepage] :=
      mem_poolOf.mpr ⟨codepage, List.mem_singleton_self codepage, hg⟩
    exact List.flatten_eq_nil_iff.mp hnil g hmem
  have hflat := flatten_groups hgroup (symbolsOf codepage undefined).2
  rw [List.flatten_eq_nil_iff.mpr hgroups] at hflat
  have hlen := (symbolsOf codepage undefined).2.property
  rw [← hflat] at hlen
  cases hlen

theorem built_tables (hgroup : group ≤ 16) (codepages : List String) :
    Built symbolsOf group undefined unify codepages
      (codepages.foldl (compilePage symbolsOf group undefined unify) ⟨[[]], 0, []⟩) :=
  built_fold hgroup codepages
    ⟨fun _ => rfl, List.forall_mem_nil _, List.forall_mem_nil _⟩

/-- The tables of a codepage: the places of its groups, and the groups of all that
share the symbol table. -/
theorem compileTables_page (hgroup : group ≤ 16) {codepages : List String}
    (he : e ∈ (compileTables symbolsOf codepages group undefined unify).codepages) :
    e.1 ∈ codepages ∧
      e.2.grptable = (pageGroups symbolsOf group undefined e.1).map
        (place (poolOf symbolsOf group undefined (sharing unify codepages e.1))) ∧
      (compileTables symbolsOf codepages group undefined unify).symbolTable e.2 =
        (poolOf symbolsOf group undefined (sharing unify codepages e.1)).flatten := by
  obtain ⟨hmem, hown, hgrptable, hlist⟩ := (built_tables hgroup codepages).pages e he
  refine ⟨hmem, hgrptable, ?_⟩
  rw [Pages.symbolTable, Pages.table, Pages.table, compileTables]
  generalize codepages.foldl (compilePage symbolsOf group undefined unify) ⟨[[]], 0, []⟩ = s
    at hlist ⊢
  cases unify with
  | true =>
    have hnone : e.2.symtable = none :=
      Option.isNone_iff_eq_none.mp (Option.isSome_eq_false_iff.mp hown)
    rw [hnone, Option.getD_none] at hlist
    simp [hnone, hlist]
  | false =>
    obtain ⟨addr, haddr⟩ := Option.isSome_iff_exists.mp hown
    rw [haddr, Option.getD_some] at hlist
    have htable : (e.2.symtable.bind fun addr => s.lists[addr]?).getD [] =
        (poolOf symbolsOf group undefined [e.1]).flatten := by
      rw [haddr, Option.bind_some, hlist]
      rfl
    simp only [htable]
    exact if_pos (poolOf_ne_nil hgroup e.1)

theorem compileTables_all (hgroup : group ≤ 16) (hmem : codepage ∈ codepages) :
    ∃ page, (codepage, page) ∈
      (compileTables symbolsOf codepages group undefined unify).codepages :=
  (built_tables hgroup codepages).all codepage hmem

theorem lookupSymbol_pool (hgroup : group ≤ 16) (symbols : Symbols α)
    (hpool : Uniform (2 ^ group) pool) (hmem : ∀ g ∈ groups symbols.val group, g ∈ pool)
    (code : Nat) :
    lookupSymbol ((groups symbols.val group).map (place pool)) pool.flatten group code =
      symbols.val[code]? := by
  have hlookup := getElem?_pool (Nat.two_pow_pos group) hpool (uniform_groups hgroup symbols)
    (fun g hg => getElem?_place (hmem g hg)) code
  rw [flatten_groups hgroup] at hlookup
  rw [lookupSymbol, ← hlookup]
  simp only [Nat.shiftRight_eq_div_pow, Nat.shiftLeft_eq, Nat.one_mul,
    Nat.and_two_pow_sub_one_eq_mod]
  rfl

/-- In the final tables every code of every codepage has its symbol. -/
theorem compileTables_lossless (symbolsOf : String → Nat → List Nat × Symbols α)
    (undefined : Nat) (unify : Bool) (hgroup : group ≤ 15) (hmem : codepage ∈ codepages)
    (code : Nat) :
    (compileTables symbolsOf codepages group undefined unify).lookup codepage code =
      (symbolsOf codepage undefined).2.val[code]? := by
  have hgroup : group ≤ 16 := Nat.le_succ_of_le hgroup
  have hlisted : ∃ page, (codepage, page) ∈
      (compileTables symbolsOf codepages group undefined unify).codepages :=
    compileTables_all hgroup hmem
  obtain ⟨_, hlisted⟩ := hlisted
  obtain ⟨page, hpage, he⟩ := OrderedDict.get?_of_mem hlisted
  obtain ⟨-, hgrptable, htable⟩ := compileTables_page hgroup he
  have hpool : Uniform (2 ^ group)
      (poolOf symbolsOf group undefined (sharing unify codepages codepage)) :=
    uniform_poolOf hgroup _
  rw [Pages.lookup, hpage, Option.bind_eq_bind, Option.bind_some, hgrptable, htable]
  refine lookupSymbol_pool hgroup _ hpool (fun g hg => ?_) code
  refine mem_poolOf.mpr ⟨codepage, ?_, hg⟩
  rw [sharing]
  split
  · exact hmem
  · exact List.mem_singleton_self codepage

/-- A letter of the second of two codepages with one symbol table. -/
theorem compileTables_lossless_shared :
    let decode : String → UInt8 → Nat := fun codepage ch =>
      if codepage = "ascii" ∧ 128 ≤ ch.toNat then 0xfffd else ch.toNat
    (compileTables (generateSymbols decode) ["ascii", "iso-8859-1"] 4 255 true).lookup
      "iso-8859-1" 0xe9 = some 0xe9 := by
  intro decode
  refine (compileTables_lossless (generateSymbols decode) 255 true (by decide) (by decide)
    0xe9).trans ?_
  rw [generateSymbols_eq, List.getElem?_map, List.getElem?_range (by decide)]
  decide +kernel

end

end Wifimodem
