import Wifimodem.Tools.GencodecLookup

/-!
# The group tables as they are printed

The elements of a group table are printed as `const u8`, and the places of the
groups go up to the number of groups that differ. Nothing keeps that number within
a byte when the groups are small and many codepages share a symbol table.
-/

namespace Wifimodem

open Blocks Pool

/-- What is printed of the group tables has the indices that were computed. -/
def Pages.GroupTablesHold (pages : Pages Nat) : Prop :=
  ∀ cc ∈ pages.codepages,
    cc.2.groupTable.lines <:+: generateOutput pages ∧
      (∀ index ∈ cc.2.groupTable.table, index < cc.2.groupTable.datatype.bound) ∧
      cc.2.groupTable.stored = cc.2.grptable

/-- Some consecutive symbols of a codepage. -/
def groupAt (decode : UInt8 → Nat) (undefined group n : Nat) : List Nat :=
  (List.range (2 ^ group)).map fun i => symbolOf decode undefined (n * 2 ^ group + i)

/-- The groups that occur in some codepages. -/
def differentGroups (decode : String → UInt8 → Nat) (undefined group : Nat)
    (codepages : List String) : Finset (List Nat) :=
  (codepages.flatMap fun codepage =>
    (List.range (65536 / 2 ^ group)).map (groupAt (decode codepage) undefined group)).toFinset

/-- The codepages that share a symbol table have no more groups than a byte can count. -/
def Options.FewGroups (argv : Options) (decode : String → UInt8 → Nat) : Prop :=
  ∀ codepage ∈ argv.codepages,
    (differentGroups decode argv.undefined argv.group
      (sharing argv.unify argv.codepages codepage)).card ≤ 256

/-! ## What is printed -/

theorem CTable.d_eq_lines {t : CTable} (h : t.table ≠ []) : t.d = t.lines := if_neg h

theorem groupTable_infix_pageLines (pages : Pages Nat) {pp : Page} (h : pp.grptable ≠ []) :
    pp.groupTable.lines <:+: pageLines pages pp := by
  rw [← CTable.d_eq_lines (t := pp.groupTable) h, pageLines]
  exact List.infix_append _ _ _

theorem pageLines_infix_output {pages : Pages Nat} {cc : String × Page}
    (hcc : cc ∈ pages.codepages) : pageLines pages cc.2 <:+: generateOutput pages := by
  have hpages : pageLines pages cc.2 <:+: pages.codepages.flatMap fun cc => pageLines pages cc.2 :=
    List.infix_of_mem_flatten (List.mem_map_of_mem hcc)
  rw [generateOutput]
  -- The struct, the list of codepages and the end of the file come after the pages.
  refine List.infix_append_of_infix_left (List.infix_append_of_infix_left
    (List.infix_append_of_infix_left ?_))
  exact List.infix_append_of_infix_right hpages

theorem CTable.stored_eq {t : CTable} (h : ∀ c ∈ t.table, c < t.datatype.bound) :
    t.stored = t.table := by
  refine (List.map_congr_left fun c hc => ?_).trans (List.map_id t.table)
  exact Nat.mod_eq_of_lt (h c hc)

/-! ## The number of groups -/

section
variable {unify : Bool} {codepages : List String} {codepage codepage' : String}

theorem mem_sharing_self (h : codepage ∈ codepages) :
    codepage ∈ sharing unify codepages codepage := by
  rw [sharing]
  split
  · exact h
  · exact List.mem_singleton_self codepage

/-- The codepages that share a table are those that share it with any of them. -/
theorem sharing_of_mem (h : codepage' ∈ sharing unify codepages codepage) :
    sharing unify codepages codepage' = sharing unify codepages codepage := by
  cases unify with
  | true => rfl
  | false =>
    obtain rfl := List.mem_singleton.mp h
    rfl

theorem mem_of_mem_sharing (h : codepage ∈ codepages)
    (h' : codepage' ∈ sharing unify codepages codepage) : codepage' ∈ codepages := by
  cases unify with
  | true => exact h'
  | false => exact List.mem_singleton.mp h' ▸ h

variable (decode : String → UInt8 → Nat) (argv : Options)

theorem pageGroups_eq {group : Nat} (hgroup : group ≤ 16) (undefined : Nat) (codepage : String) :
    pageGroups (generateSymbols decode) group undefined codepage =
      (List.range (65536 / 2 ^ group)).map (groupAt (decode codepage) undefined group) := by
  have hblocks := blocks_map_range (symbolOf (decode codepage) undefined) (2 ^ group)
    (65536 / 2 ^ group)
  rw [groups_mul hgroup] at hblocks
  rw [pageGroups, generateSymbols_eq, groups, hblocks]
  rfl

theorem length_poolOf {group : Nat} (hgroup : group ≤ 16) (undefined : Nat)
    (codepages : List String) :
    (poolOf (generateSymbols decode) group undefined codepages).length =
      (differentGroups decode undefined group codepages).card := by
  have hpages : pageGroups (generateSymbols decode) group undefined = fun codepage =>
      (List.range (65536 / 2 ^ group)).map (groupAt (decode codepage) undefined group) :=
    funext (pageGroups_eq decode hgroup undefined)
  rw [poolOf, length_addAll, hpages, differentGroups]

/-- The entries are the places of the groups in the shared pool. -/
theorem entries_lt_iff (n : Nat) :
    (∀ cc ∈ (gencodec decode argv).codepages, ∀ index ∈ cc.2.grptable, index < n) ↔
      ∀ codepage ∈ argv.codepages,
        (differentGroups decode argv.undefined argv.group
          (sharing argv.unify argv.codepages codepage)).card ≤ n := by
  have hgroup : argv.group ≤ 16 := Nat.le_succ_of_le argv.group_le
  simp only [← length_poolOf decode hgroup]
  constructor
  · intro h codepage hcodepage
    refine (place_lt_iff (nodup_poolOf _) n).mp fun g hg => ?_
    obtain ⟨codepage', hsharing, hpage⟩ := mem_poolOf.mp hg
    have hlisted : ∃ page, (codepage', page) ∈ (gencodec decode argv).codepages :=
      compileTables_all hgroup (mem_of_mem_sharing hcodepage hsharing)
    obtain ⟨page, hcc⟩ := hlisted
    obtain ⟨-, hgrptable, -⟩ := compileTables_page hgroup hcc
    have hentries := h _ hcc
    rw [hgrptable, sharing_of_mem hsharing] at hentries
    exact hentries _ (List.mem_map_of_mem hpage)
  · intro h cc hcc index hindex
    obtain ⟨hmem, hgrptable, -⟩ := compileTables_page hgroup hcc
    rw [hgrptable] at hindex
    obtain ⟨g, hg, rfl⟩ := List.mem_map.mp hindex
    refine (place_lt_iff (nodup_poolOf _) n).mpr (h cc.1 hmem) g ?_
    exact mem_poolOf.mpr ⟨cc.1, mem_sharing_self hmem, hg⟩

theorem grptable_ne_nil {cc : String × Page} (hcc : cc ∈ (gencodec decode argv).codepages) :
    cc.2.grptable ≠ [] := by
  have hgroup : argv.group ≤ 16 := Nat.le_succ_of_le argv.group_le
  obtain ⟨-, hgrptable, -⟩ := compileTables_page hgroup hcc
  have hpos : 65536 / 2 ^ argv.group ≠ 0 := by
    intro hzero
    have hmul := groups_mul hgroup
    rw [hzero, Nat.zero_mul] at hmul
    cases hmul
  rw [hgrptable, pageGroups_eq decode hgroup]
  simpa using hpos

theorem groupTablesHold_iff_lt :
    (gencodec decode argv).GroupTablesHold ↔
      ∀ cc ∈ (gencodec decode argv).codepages, ∀ index ∈ cc.2.grptable, index < 256 := by
  constructor
  · exact fun h cc hcc => (h cc hcc).2.1
  · intro h cc hcc
    have hlines := groupTable_infix_pageLines (gencodec decode argv)
      (grptable_ne_nil decode argv hcc)
    exact ⟨hlines.trans (pageLines_infix_output hcc), h cc hcc, CTable.stored_eq (h cc hcc)⟩

/-- The printed group tables are right exactly when the groups are few. -/
theorem groupTablesHold_iff_fewGroups :
    (gencodec decode argv).GroupTablesHold ↔ argv.FewGroups decode := by
  rw [groupTablesHold_iff_lt]
  exact entries_lt_iff decode argv 256

theorem card_differentGroups_le (undefined group : Nat) (codepages : List String) :
    (differentGroups decode undefined group codepages).card ≤
      codepages.length * (65536 / 2 ^ group) := by
  refine (List.toFinset_card_le _).trans (Nat.le_of_eq ?_)
  simp [List.length_flatMap]

/-- A codepage of its own has no more groups than a byte can count, unless they are
smaller than by default. -/
theorem groupTablesHold_own (hunify : argv.unify = false) (hgroup : 8 ≤ argv.group) :
    (gencodec decode argv).GroupTablesHold := by
  refine (groupTablesHold_iff_lt decode argv).mpr ((entries_lt_iff decode argv 256).mpr ?_)
  intro codepage _
  calc
    _ ≤ 1 * (65536 / 2 ^ argv.group) := by
      rw [hunify]
      exact card_differentGroups_le decode argv.undefined argv.group [codepage]
    _ ≤ 65536 / 2 ^ 8 := by
      rw [Nat.one_mul]
      exact Nat.div_le_div_left (Nat.pow_le_pow_right (by decide) hgroup) (by decide)

end

/-! ## Two codepages with too many groups -/

/-- The code points of the bytes of cp037. -/
def cp037 : List Nat := [
  0, 1, 2, 3, 156, 9, 134, 127, 151, 141, 142, 11, 12, 13, 14, 15, 16, 17, 18, 19, 157, 133, 8,
  135, 24, 25, 146, 143, 28, 29, 30, 31, 128, 129, 130, 131, 132, 10, 23, 27, 136, 137, 138, 139,
  140, 5, 6, 7, 144, 145, 22, 147, 148, 149, 150, 4, 152, 153, 154, 155, 20, 21, 158, 26, 32,
  160, 226, 228, 224, 225, 227, 229, 231, 241, 162, 46, 60, 40, 43, 124, 38, 233, 234, 235, 232,
  237, 238, 239, 236, 223, 33, 36, 42, 41, 59, 172, 45, 47, 194, 196, 192, 193, 195, 197, 199,
  209, 166, 44, 37, 95, 62, 63, 248, 201, 202, 203, 200, 205, 206, 207, 204, 96, 58, 35, 64, 39,
  61, 34, 216, 97, 98, 99, 100, 101, 102, 103, 104, 105, 171, 187, 240, 253, 254, 177, 176, 106,
  107, 108, 109, 110, 111, 112, 113, 114, 170, 186, 230, 184, 198, 164, 181, 126, 115, 116, 117,
  118, 119, 120, 121, 122, 161, 191, 208, 221, 222, 174, 94, 163, 165, 183, 169, 167, 182, 188,
  189, 190, 91, 93, 175, 168, 180, 215, 123, 65, 66, 67, 68, 69, 70, 71, 72, 73, 173, 244, 246,
  242, 243, 245, 125, 74, 75, 76, 77, 78, 79, 80, 81, 82, 185, 251, 252, 249, 250, 255, 92, 247,
  83, 84, 85, 86, 87, 88, 89, 90, 178, 212, 214, 210, 211, 213, 48, 49, 50, 51, 52, 53, 54, 55,
  56, 57, 179, 219, 220, 217, 218, 159]

/-- The code points of the bytes of cp852 that ASCII has not got. -/
def cp852Upper : List Nat := [
  199, 252, 233, 226, 228, 367, 263, 231, 322, 235, 336, 337, 238, 377, 196, 262, 201, 313, 314,
  244, 246, 317, 318, 346, 347, 214, 220, 356, 357, 321, 215, 269, 225, 237, 243, 250, 260, 261,
  381, 382, 280, 281, 172, 378, 268, 351, 171, 187, 9617, 9618, 9619, 9474, 9508, 193, 194, 282,
  350, 9571, 9553, 9559, 9565, 379, 380, 9488, 9492, 9524, 9516, 9500, 9472, 9532, 258, 259,
  9562, 9556, 9577, 9574, 9568, 9552, 9580, 164, 273, 272, 270, 203, 271, 327, 205, 206, 283,
  9496, 9484, 9608, 9604, 354, 366, 9600, 211, 223, 212, 323, 324, 328, 352, 353, 340, 218, 341,
  368, 253, 221, 355, 180, 173, 733, 731, 711, 728, 167, 247, 184, 176, 168, 729, 369, 344, 345,
  9632, 160]

def cp852 : List Nat := List.range 128 ++ cp852Upper

def codePoint (table : List Nat) (ch : UInt8) : Nat := table.getD ch.toNat 0xfffd

/-- What a byte stands for in the two codepages. -/
def decodeByte (codepage : String) : UInt8 → Nat :=
  codePoint (if codepage = "cp037" then cp037 else cp852)

/-- The first place of a code in a table, from `ch` on. -/
def firstByte (undefined code : Nat) : Nat → List Nat → Nat
  | _, [] => undefined
  | ch, c :: table => if c = code then ch else firstByte undefined code (ch + 1) table

theorem firstByte_eq (undefined code ch : Nat) (table : List Nat) :
    firstByte undefined code ch table =
      if code ∈ table then ch + table.idxOf code else undefined := by
  induction table generalizing ch with
  | nil => rfl
  | cons c table ih =>
    rw [firstByte, ih]
    cases Decidable.em (c = code) with
    | inl heq =>
      subst heq
      simp
    | inr hne => simp [hne, Ne.symm hne, Nat.add_assoc, Nat.add_comm 1]

/-- A table of 256 code points is searched instead of the bytes. -/
theorem symbolOf_codePoint {table : List Nat} (hlen : table.length = 256)
    (hundefined : 0xfffd ∉ table) (undefined code : Nat) :
    symbolOf (codePoint table) undefined code = firstByte undefined code 0 table := by
  have htable : (List.range 256).map (fun ch => codePoint table (UInt8.ofNat ch)) = table := by
    refine List.ext_getElem (by simp [hlen]) fun ch hch _ => ?_
    rw [List.length_map, List.length_range] at hch
    simp [codePoint, Nat.mod_eq_of_lt hch, hlen, hch]
  rw [symbolOf, firstByte_eq, find?_codepoint, htable, Nat.zero_add]
  split
  · rename_i hcode
    subst hcode
    rw [if_neg hundefined]
  · split <;> rfl

theorem firstByte_append {lower : List Nat} {code : Nat} (h : code ∉ lower) (undefined ch : Nat)
    (upper : List Nat) :
    firstByte undefined code ch (lower ++ upper) =
      firstByte undefined code (ch + lower.length) upper := by
  induction lower generalizing ch with
  | nil => rfl
  | cons c lower ih =>
    rw [List.mem_cons, not_or] at h
    obtain ⟨hc, hlower⟩ := h
    rw [List.cons_append, firstByte, if_neg (Ne.symm hc), ih hlower, List.length_cons,
      Nat.add_assoc, Nat.add_comm 1]

/-- A group of two symbols, searched in a table from the byte `ch` on. -/
def pairAt (ch : Nat) (table : List Nat) (n : Nat) : List Nat :=
  [firstByte 255 (n * 2) ch table, firstByte 255 (n * 2 + 1) ch table]

theorem groupAt_codePoint {table : List Nat} (hlen : table.length = 256)
    (hundefined : 0xfffd ∉ table) : groupAt (codePoint table) 255 1 = pairAt 0 table := by
  funext n
  simp [groupAt, pairAt, List.range_succ, symbolOf_codePoint hlen hundefined]

theorem pairAt_upper {n : Nat} (h : 64 ≤ n) : pairAt 0 cp852 n = pairAt 128 cp852Upper n := by
  have hfirst : n * 2 ∉ List.range 128 := by
    rw [List.mem_range]
    omega
  have hsecond : n * 2 + 1 ∉ List.range 128 := by
    rw [List.mem_range]
    omega
  rw [pairAt, pairAt, cp852, firstByte_append hfirst, firstByte_append hsecond,
    List.length_range, Nat.zero_add]

/-- Groups of the two codepages: the codes of cp037, ASCII, and what else cp852 has. -/
def manyPairs : List (List Nat) :=
  (List.range 128).map (pairAt 0 cp037) ++ (List.range 64).map (pairAt 0 cp852) ++
    (cp852Upper.map (· / 2)).map (pairAt 128 cp852Upper)

theorem manyPairs_subset :
    manyPairs.toFinset ⊆ differentGroups decodeByte 255 1 ["cp037", "cp852"] := by
  have h037 : groupAt (decodeByte "cp037") 255 1 = pairAt 0 cp037 :=
    groupAt_codePoint (by decide +kernel) (by decide +kernel)
  have h852 : groupAt (decodeByte "cp852") 255 1 = pairAt 0 cp852 :=
    groupAt_codePoint (by decide +kernel) (by decide +kernel)
  have hupper : ∀ c ∈ cp852Upper, 128 ≤ c ∧ c < 65536 := by decide +kernel
  have hrange {n : Nat} (h : n < 32768) : n ∈ List.range (65536 / 2 ^ 1) := List.mem_range.mpr h
  intro g hg
  rw [differentGroups, List.mem_toFinset, List.flatMap_cons, List.flatMap_singleton, h037, h852,
    List.mem_append]
  rw [List.mem_toFinset, manyPairs, List.mem_append, List.mem_append] at hg
  obtain (hg | hg) | hg := hg
  · obtain ⟨n, hn, rfl⟩ := List.mem_map.mp hg
    exact .inl (List.mem_map_of_mem (hrange (Nat.lt_trans (List.mem_range.mp hn) (by decide))))
  · obtain ⟨n, hn, rfl⟩ := List.mem_map.mp hg
    exact .inr (List.mem_map_of_mem (hrange (Nat.lt_trans (List.mem_range.mp hn) (by decide))))
  · rw [List.map_map] at hg
    obtain ⟨c, hc, rfl⟩ := List.mem_map.mp hg
    obtain ⟨hge, hlt⟩ := hupper c hc
    have hn : 64 ≤ c / 2 := by omega
    rw [Function.comp_apply, ← pairAt_upper hn]
    exact .inr (List.mem_map_of_mem (hrange (by omega)))

/-- A group of symbols as a number. -/
def groupCode (g : List Nat) : Nat := g.foldl (fun code symbol => code * 256 + symbol) 0

theorem card_cp037_cp852 :
    256 < (differentGroups decodeByte 255 1 ["cp037", "cp852"]).card := by
  have hcodes : (manyPairs.map groupCode).toFinset = manyPairs.toFinset.image groupCode := by
    ext code
    simp
  calc
    256 < countNew 0 (manyPairs.map groupCode) := by decide +kernel
    _ = (manyPairs.toFinset.image groupCode).card := by rw [countNew_eq_card, hcodes]
    _ ≤ manyPairs.toFinset.card := Finset.card_image_le
    _ ≤ _ := Finset.card_le_card manyPairs_subset

/-- Some places of the groups of cp037 and cp852 are not bytes. -/
theorem groupTables_overflow :
    ∃ argv, parseCommandLine ⟨false, none, some 1, none, true, false, ["cp037", "cp852"]⟩ =
        .ok argv ∧
      (∃ cc ∈ (gencodec decodeByte argv).codepages, ∃ index ∈ cc.2.grptable, 256 ≤ index) ∧
      ¬ (gencodec decodeByte argv).GroupTablesHold := by
  obtain ⟨argv, hargv, hcodepages, hgroup, hundefined, hunify⟩ :
      ∃ argv, parseCommandLine ⟨false, none, some 1, none, true, false, ["cp037", "cp852"]⟩ =
        .ok argv ∧ argv.codepages = ["cp037", "cp852"] ∧ argv.group = 1 ∧
        argv.undefined = 255 ∧ argv.unify = true := ⟨_, rfl, rfl, rfl, rfl, rfl⟩
  have hover : ¬ ∀ cc ∈ (gencodec decodeByte argv).codepages,
      ∀ index ∈ cc.2.grptable, index < 256 := by
    rw [entries_lt_iff, hcodepages, hgroup, hundefined, hunify]
    intro h
    exact Nat.not_lt.mpr (h "cp037" List.mem_cons_self) card_cp037_cp852
  refine ⟨argv, hargv, ?_, (groupTablesHold_iff_lt decodeByte argv).not.mpr hover⟩
  push Not at hover
  exact hover

end Wifimodem
