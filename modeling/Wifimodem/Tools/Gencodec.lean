import Mathlib.Algebra.Group.Nat.Defs
import Mathlib.Data.String.Defs
import Wifimodem.Lib.OrderedDict

/-!
# Codepage tables

The generator of `tools/gencodec.py`. The symbols of a codepage are cut into groups
of `2 ^ group` codes; a group that the symbol table holds already is not stored
again, and the group table says where each one stands.
-/

namespace Wifimodem

/-! ## The command line -/

/-- What the parser of the options hands over. -/
structure Args where
  benchmark : Bool
  output : Option String
  group : Option Int
  undefined : Option Int
  unify : Bool
  verbose : Bool
  codepages : List String

/-- Arguments that are in range. -/
structure Options where
  benchmark : Bool
  output : String
  group : Nat
  undefined : Nat
  unify : Bool
  verbose : Bool
  codepages : List String
  codepages_ne : codepages ≠ []
  group_pos : 0 < group
  group_le : group ≤ 15
  undefined_pos : 0 < undefined
  undefined_le : undefined ≤ 255

/-- An argument that is missing or zero has the default. -/
def argOr (arg : Option Int) (default : Int) : Int :=
  if arg.getD 0 = 0 then default else arg.getD 0

theorem argOr_ne_zero {default : Int} (h : default ≠ 0) (arg : Option Int) :
    argOr arg default ≠ 0 := by
  rw [argOr]
  split
  · exact h
  · assumption

def parseCommandLine (argv : Args) : Except String Options :=
  let output := if argv.output.getD "" = "" then "-" else argv.output.getD ""
  let group := argOr argv.group 8
  let undefined := argOr argv.undefined 255
  if hcodepages : argv.codepages = [] then .error "No codepages to process"
  else if hgroup : group < 0 ∨ group > 15 then
    .error ("Group size " ++ toString group ++ " out of range (0-15)")
  else if hundefined : undefined < 0 ∨ undefined > 255 then
    .error ("Undefined character " ++ toString undefined ++ " out of range (0-255)")
  else
    have hgroup_ne : group ≠ 0 := argOr_ne_zero (by decide) argv.group
    have hundefined_ne : undefined ≠ 0 := argOr_ne_zero (by decide) argv.undefined
    .ok {
      benchmark := argv.benchmark
      output := output
      group := group.toNat
      undefined := undefined.toNat
      unify := argv.unify
      verbose := argv.verbose
      codepages := argv.codepages
      codepages_ne := hcodepages
      group_pos := by omega
      group_le := by omega
      undefined_pos := by omega
      undefined_le := by omega }

/-! ## The symbols of a codepage -/

/-- A symbol for each code. -/
abbrev Symbols (α : Type) := {symbols : List α // symbols.length = 65536}

/-- `decode` gives the code point of a byte in a codepage. -/
def generateSymbols (decode : String → UInt8 → Nat) (codepage : String) (undefined : Nat) :
    List Nat × Symbols Nat :=
  let codepoints := (List.range 256).map fun ch => decode codepage (UInt8.ofNat ch)
  let symbols := (List.range 65536).map fun code =>
    if code ∈ codepoints then codepoints.idxOf code else undefined
  (codepoints, ⟨symbols.set 0xfffd undefined, by simp [symbols]⟩)

/-! ## The tables -/

section
variable {α : Type} [DecidableEq α]

/-- `range(0, stop, step)`. -/
def steps (stop step : Nat) : List Nat := (List.range ((stop + step - 1) / step)).map (· * step)

/-- The first place in the table with the symbols of a group. -/
def findGroup (syms symtable : List α) : Option Nat :=
  (steps symtable.length syms.length).find? fun m =>
    (syms.zip (symtable.extract m (m + syms.length))).all fun (a, b) => a = b

def condenseLoop (symbols : List α) (group : Nat) :
    List Nat → List Nat → List α → List Nat × List α
  | [], indices, symtable => (indices, symtable)
  | n :: ns, indices, symtable =>
    let syms := symbols.extract (n <<< group) ((n + 1) <<< group)
    match findGroup syms symtable with
    | some index => condenseLoop symbols group ns (indices ++ [index >>> group]) symtable
    | none =>
      condenseLoop symbols group ns (indices ++ [symtable.length >>> group]) (symtable ++ syms)

/-- The group table, and the symbol table with the groups it did not have. -/
def condenseCodepoints (symbols : List α) (group : Nat) (symtable : List α) :
    List Nat × List α :=
  condenseLoop symbols group (List.range (65536 >>> group)) [] symtable

/-- What is known of a codepage; a symbol table is where it stands among the lists. -/
structure Page where
  cname : String
  codepoints : List Nat
  grptable : List Nat
  symtable : Option Nat

structure Pages (α : Type) where
  codepages : List (String × Page)
  symtable : Option Nat
  group : Nat
  undefined : Nat
  lists : List (List α)

/-- A character that a name in C cannot have, and `W`, is an underscore. -/
def cname (codepage : String) : String :=
  codepage.map fun c =>
    if c ∈ "0123456789ABCDEFGHIJKLMNOPQRSTUVXYZabcdefghijklmnopqrstuvwxyz".toList then c else '_'

/-- The lists that have been made, which of them is `symtable`, and the pages. -/
structure Compiler (α : Type) where
  lists : List (List α)
  symtable : Nat
  pages : List (String × Page)

variable (symbolsOf : String → Nat → List Nat × Symbols α)

/-- A codepage goes on with the list of the one before it, or begins a new one. The
list grows in place. -/
def compilePage (group undefined : Nat) (unify : Bool) (s : Compiler α) (codepage : String) :
    Compiler α :=
  let s := if unify then s else { s with lists := s.lists ++ [[]], symtable := s.lists.length }
  let (codepoints, symbols) := symbolsOf codepage undefined
  let (grptable, grown) :=
    condenseCodepoints symbols.val group (s.lists[s.symtable]?.getD [])
  { lists := s.lists.set s.symtable grown
    symtable := s.symtable
    pages := OrderedDict.put s.pages codepage {
      cname := cname codepage
      codepoints := codepoints
      grptable := grptable
      symtable := if unify then none else some s.symtable } }

def compileTables (codepages : List String) (group undefined : Nat) (unify : Bool) : Pages α :=
  let s := codepages.foldl (compilePage symbolsOf group undefined unify) ⟨[[]], 0, []⟩
  { codepages := s.pages
    symtable := if unify then some s.symtable else none
    group := group
    undefined := undefined
    lists := s.lists }

/-- No list is like an empty one. -/
def Pages.table (pages : Pages α) (symtable : Option Nat) : List α :=
  (symtable.bind fun addr => pages.lists[addr]?).getD []

/-- The symbol table that goes with a page, its own or the one of all pages. -/
def Pages.symbolTable (pages : Pages α) (page : Page) : List α :=
  if pages.table page.symtable ≠ [] then pages.table page.symtable else pages.table pages.symtable

end

/-! ## The output -/

/-- The types of the elements of a table. -/
inductive CType where
  | u8
  | u16

def CType.text : CType → String
  | u8 => "const u8"
  | u16 => "const u16"

/-- The values of the type are less than this. -/
def CType.bound : CType → Nat
  | u8 => 2 ^ 8
  | u16 => 2 ^ 16

/-- A table of the output; `width` is that of its format. -/
structure CTable where
  datatype : CType
  width : Nat
  name : String
  table : List Nat

namespace CTable

/-- Sixteen entries stand in a line. -/
def rows (t : CTable) : List String :=
  (steps t.table.length 16).map fun r =>
    "\t" ++ ", ".intercalate
      ((t.table.extract r (r + 16)).map fun c => String.leftpad t.width ' ' (toString c))

def lines (t : CTable) : List String :=
  ["static " ++ t.datatype.text ++ " " ++ t.name ++ "[" ++ toString t.table.length ++ "]=\x7b",
    ",\n".intercalate t.rows, "\x7d;", ""]

/-- What is printed for a table. -/
def d (t : CTable) : List String := if t.table = [] then [] else t.lines

/-- What the compiler makes of the entries: an initializer that is too large for an
unsigned type is reduced. -/
def stored (t : CTable) : List Nat := t.table.map (· % t.datatype.bound)

end CTable

def Page.codepointsTable (pp : Page) : CTable :=
  ⟨.u16, 5, "codec_" ++ pp.cname ++ "_codepoints", pp.codepoints⟩

def Page.groupTable (pp : Page) : CTable :=
  ⟨.u8, 3, "codec_" ++ pp.cname ++ "_group_table", pp.grptable⟩

def Page.symbolTable (pages : Pages Nat) (pp : Page) : CTable :=
  ⟨.u8, 3, "codec_" ++ pp.cname ++ "_symbol_table", pages.table pp.symtable⟩

def Pages.globalTable (pages : Pages Nat) : CTable :=
  ⟨.u8, 3, "codec_global_symbol_table", pages.table pages.symtable⟩

def pageLines (pages : Pages Nat) (pp : Page) : List String :=
  [""] ++ pp.codepointsTable.d ++ pp.groupTable.d ++ (pp.symbolTable pages).d

def entryLine (pages : Pages Nat) (pp : Page) : String :=
  let st :=
    if pages.table pp.symtable ≠ [] then (pp.symbolTable pages).name else pages.globalTable.name
  "\t\x7b \"" ++ pp.cname ++ "\", " ++ pp.codepointsTable.name ++ ", " ++ pp.groupTable.name ++
    ", " ++ st ++ " \x7d,"

/-- The lines in the order in which they are printed. -/
def generateOutput (pages : Pages Nat) : List String :=
  let symShift := 0
  let grpShift := pages.group
  let symMask := (1 <<< grpShift) - 1
  let grpMask := (65536 >>> grpShift) - 1
  ["", "", "#ifndef CODEC_PAGETABLES_H", "#define CODEC_PAGETABLES_H", "", "", "enum \x7b",
    "\tCODEC_SYMBOL_SHIFT = " ++ toString symShift ++ ",",
    "\tCODEC_SYMBOL_MASK  = " ++ toString symMask ++ ",",
    "\tCODEC_GROUP_SHIFT  = " ++ toString grpShift ++ ",",
    "\tCODEC_GROUP_MASK   = " ++ toString grpMask ++ ",",
    "\tCODEC_UNDEF_CHAR   = " ++ toString pages.undefined,
    "\x7d;", "", ""] ++
  pages.globalTable.d ++
  pages.codepages.flatMap (fun cc => pageLines pages cc.2) ++
  ["", "struct codec_table_entry \x7b", "\tconst char *name;", "\tconst u16  *codepoints;",
    "\tconst u16  *group_table;", "\tconst u8   *symbol_table;", "\x7d;", "", "",
    "static const codec_table_entry codec_table[] = \x7b"] ++
  pages.codepages.map (fun cc => entryLine pages cc.2) ++
  ["\t\x7b NULL, NULL, NULL, NULL \x7d", "\x7d;", "", "", "#endif", "", ""]

/-- What a run of the generator computes before it prints. -/
def gencodec (decode : String → UInt8 → Nat) (argv : Options) : Pages Nat :=
  compileTables (generateSymbols decode) argv.codepages argv.group argv.undefined argv.unify

end Wifimodem
