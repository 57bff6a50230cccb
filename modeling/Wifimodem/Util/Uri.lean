import Wifimodem.Core.StrText

/-!
# Parsing a URI

Each part is a view into the text. A part that is missing is empty, and a flag
tells it from one that is there without a character.
-/

namespace Wifimodem

open Str Traced

/-- `str_zero` points to an empty string of the program text. -/
def strZero : Str := ⟨0, 0⟩

structure Uri where
  orig : Str
  scheme : Str
  authority : Str
  user : Str
  pass : Str
  host : Str
  port : Int
  path : Str
  query : Str
  fragment : Str
  haveScheme : Bool
  haveAuthority : Bool
  haveQuery : Bool
  haveFragment : Bool

def uriClear : Uri where
  orig := strZero
  scheme := strZero
  authority := strZero
  user := strZero
  pass := strZero
  host := strZero
  port := -1
  path := strZero
  query := strZero
  fragment := strZero
  haveScheme := false
  haveAuthority := false
  haveQuery := false
  haveFragment := false

section
variable (mem : Nat → UInt8)

def uriScheme (u : Uri) (s : Str) : Traced Access (Uri × Str) := do
  let (tok, part) ← s.cspan mem [':', '/', '?', '#']
  let (tok, found) ← tok.accept mem (.literal [':'])
  if found then pure ({ u with scheme := part, haveScheme := true }, tok) else pure (u, s)

/-- The user and the password, and what is in front of the host. -/
def uriUserinfo (u : Uri) (s : Str) : Traced Access (Uri × Str) := do
  let (tmp, part) ← s.cspan mem ['@']
  let (tmp, found) ← tmp.accept mem (.literal ['@'])
  if found then
    let (part, user) ← part.cspan mem [':']
    let (part, found) ← part.accept mem (.literal [':'])
    pure ({ u with user := user, pass := if found then part else u.pass }, tmp)
  else pure (u, part)

def uriHost (u : Uri) (tmp : Str) : Traced Access (Uri × Str) := do
  let (tmp, found) ← tmp.accept mem (.literal ['['])
  if found then
    let (tmp, host) ← tmp.cspan mem [']']
    let (tmp, _) ← tmp.accept mem (.literal [']'])
    pure ({ u with host := host }, tmp)
  else
    let (tmp, host) ← tmp.cspan mem [':']
    pure ({ u with host := host }, tmp)

/-- The port is left alone when there is no number. -/
def uriPort (u : Uri) (tmp : Str) : Traced Access Uri := do
  let (tmp, found) ← tmp.accept mem (.literal [':'])
  if found then
    let (_, port) ← tmp.readu32 mem 0
    pure { u with port := (port.map asInt).getD u.port }
  else pure u

def uriAuthority (u : Uri) (tok : Str) : Traced Access (Uri × Str) := do
  let (tok, found) ← tok.accept mem (.literal ['/', '/'])
  if found then
    let (tok, authority) ← tok.cspan mem ['/']
    let (u, tmp) ← uriUserinfo mem { u with authority := authority, haveAuthority := true } authority
    let (u, tmp) ← uriHost mem u tmp
    let u ← uriPort mem u tmp
    pure (u, tok)
  else pure (u, tok)

def uriPath (u : Uri) (tok : Str) : Traced Access (Uri × Str) := do
  let (tok, path) ← tok.cspan mem ['?', '#']
  pure ({ u with path := path }, tok)

def uriQuery (u : Uri) (tok : Str) : Traced Access (Uri × Str) := do
  let (tok, found) ← tok.accept mem (.literal ['?'])
  if found then
    let (tok, query) ← tok.cspan mem ['#']
    pure ({ u with haveQuery := true, query := query }, tok)
  else pure (u, tok)

def uriFragment (u : Uri) (tok : Str) : Traced Access Uri := do
  let (tok, found) ← tok.accept mem (.literal ['#'])
  if found then pure { u with haveFragment := true, fragment := tok } else pure u

def uriParse (s : Str) : Traced Access Uri := do
  let (u, tok) ← uriScheme mem { uriClear with orig := s } s
  let (u, tok) ← uriAuthority mem u tok
  let (u, tok) ← uriPath mem u tok
  let (u, tok) ← uriQuery mem u tok
  uriFragment mem u tok

end

/-! ## The parts as texts -/

structure UriParts where
  scheme : Option (List UInt8)
  authority : Option (List UInt8)
  path : List UInt8
  query : Option (List UInt8)
  fragment : Option (List UInt8)
deriving DecidableEq

structure Uri.HasParts (mem : Nat → UInt8) (u : Uri) (p : UriParts) : Prop where
  haveScheme : u.haveScheme = p.scheme.isSome
  scheme : u.scheme.text mem = p.scheme.getD []
  haveAuthority : u.haveAuthority = p.authority.isSome
  authority : u.authority.text mem = p.authority.getD []
  path : u.path.text mem = p.path
  haveQuery : u.haveQuery = p.query.isSome
  query : u.query.text mem = p.query.getD []
  haveFragment : u.haveFragment = p.fragment.isSome
  fragment : u.fragment.text mem = p.fragment.getD []

def schemeChars (w : List UInt8) : Option (List UInt8) × List UInt8 :=
  match strAccept (w.dropWhile (outside [':', '/', '?', '#'])) [':'] with
  | (rest, true) => (some (w.takeWhile (outside [':', '/', '?', '#'])), rest)
  | (_, false) => (none, w)

/-- A part behind `lead`, up to one of `stop`. -/
def partChars (lead stop w : List UInt8) : Option (List UInt8) × List UInt8 :=
  match strAccept w lead with
  | (rest, true) => (some (rest.takeWhile (outside stop)), rest.dropWhile (outside stop))
  | (_, false) => (none, w)

def fragmentChars (w : List UInt8) : Option (List UInt8) :=
  match strAccept w ['#'] with
  | (rest, true) => some rest
  | (_, false) => none

/-- What follows the authority. -/
def tailChars (scheme authority : Option (List UInt8)) (w : List UInt8) : UriParts :=
  let (query, rest) := partChars ['?'] ['#'] (w.dropWhile (outside ['?', '#']))
  ⟨scheme, authority, w.takeWhile (outside ['?', '#']), query, fragmentChars rest⟩

def uriChars (w : List UInt8) : UriParts :=
  let (scheme, w) := schemeChars w
  let (authority, w) := partChars ['/', '/'] ['/'] w
  tailChars scheme authority w

variable {mem : Nat → UInt8} {u : Uri} {p q : UriParts} {s tok : Str} {w : List UInt8}

theorem uriScheme_parts (s : Str) (h : u.HasParts mem p) (hp : p.scheme = none) :
    ∃ u' tok, (uriScheme mem u s).value = (u', tok) ∧
      u'.HasParts mem { p with scheme := (schemeChars (s.text mem)).1 } ∧
      tok.text mem = (schemeChars (s.text mem)).2 := by
  obtain ⟨tok, part, hspan, htok, hpart⟩ := cspan_texts mem s [':', '/', '?', '#']
  rw [uriScheme, value_bind, hspan, schemeChars, ← htok, ← hpart]
  rcases accept_texts mem tok [':'] with ⟨rest, hvalue, htext⟩ | ⟨rest, hvalue, -, htext⟩
  · rw [value_bind, hvalue, htext]
    exact ⟨_, _, rfl, { h with haveScheme := rfl, scheme := rfl }, rfl⟩
  · rw [value_bind, hvalue, htext]
    have hsame : u.HasParts mem { p with scheme := none } := by
      rw [← hp]
      exact h
    exact ⟨_, _, rfl, hsame, rfl⟩

theorem uriQuery_parts (tok : Str) (h : u.HasParts mem p) (hp : p.query = none) :
    ∃ u' rest, (uriQuery mem u tok).value = (u', rest) ∧
      u'.HasParts mem { p with query := (partChars ['?'] ['#'] (tok.text mem)).1 } ∧
      rest.text mem = (partChars ['?'] ['#'] (tok.text mem)).2 := by
  rw [uriQuery, value_bind, partChars]
  rcases accept_texts mem tok ['?'] with ⟨rest, hvalue, htext⟩ | ⟨rest, hvalue, hrest, htext⟩
  · obtain ⟨tok', part, hspan, htok, hpart⟩ := cspan_texts mem rest ['#']
    rw [hvalue, htext]
    simp only [if_true, value_bind, hspan]
    rw [← htok, ← hpart]
    exact ⟨_, _, rfl, { h with haveQuery := rfl, query := rfl }, rfl⟩
  · rw [hvalue, htext]
    have hsame : u.HasParts mem { p with query := none } := by
      rw [← hp]
      exact h
    exact ⟨_, _, rfl, hsame, hrest⟩

theorem uriFragment_parts (tok : Str) (h : u.HasParts mem p) (hp : p.fragment = none) :
    (uriFragment mem u tok).value.HasParts mem
      { p with fragment := fragmentChars (tok.text mem) } := by
  rw [uriFragment, value_bind, fragmentChars]
  rcases accept_texts mem tok ['#'] with ⟨rest, hvalue, htext⟩ | ⟨rest, hvalue, -, htext⟩
  · rw [hvalue, htext]
    exact { h with haveFragment := rfl, fragment := rfl }
  · rw [hvalue, htext]
    have hsame : u.HasParts mem { p with fragment := none } := by
      rw [← hp]
      exact h
    exact hsame

theorem uriPath_parts (tok : Str) (h : u.HasParts mem p) :
    ∃ u' rest, (uriPath mem u tok).value = (u', rest) ∧
      u'.HasParts mem { p with path := (tok.text mem).takeWhile (outside ['?', '#']) } ∧
      rest.text mem = (tok.text mem).dropWhile (outside ['?', '#']) := by
  obtain ⟨tok', part, hspan, htok, hpart⟩ := cspan_texts mem tok ['?', '#']
  rw [uriPath, value_bind, hspan, ← htok, ← hpart]
  exact ⟨_, _, rfl, { h with path := rfl }, rfl⟩

/-! What is inside the authority leaves the five parts alone. -/

theorem uriUserinfo_parts (s : Str) (h : u.HasParts mem p) :
    (uriUserinfo mem u s).value.1.HasParts mem p := by
  obtain ⟨tmp, part, hspan, -, -⟩ := cspan_texts mem s ['@']
  rw [uriUserinfo, value_bind, hspan, value_bind]
  rcases accept_texts mem tmp ['@'] with ⟨rest, hvalue, -⟩ | ⟨rest, hvalue, -⟩
  · rw [hvalue]
    exact { h with }
  · rw [hvalue]
    exact h

theorem uriHost_parts (s : Str) (h : u.HasParts mem p) :
    (uriHost mem u s).value.1.HasParts mem p := by
  rw [uriHost, value_bind]
  rcases accept_texts mem s ['['] with ⟨rest, hvalue, -⟩ | ⟨rest, hvalue, -⟩
  · rw [hvalue]
    exact { h with }
  · rw [hvalue]
    exact { h with }

theorem uriPort_parts (s : Str) (h : u.HasParts mem p) :
    (uriPort mem u s).value.HasParts mem p := by
  rw [uriPort, value_bind]
  rcases accept_texts mem s [':'] with ⟨rest, hvalue, -⟩ | ⟨rest, hvalue, -⟩
  · rw [hvalue]
    exact { h with }
  · rw [hvalue]
    exact h

theorem uriAuthority_parts (tok : Str) (h : u.HasParts mem p) (hp : p.authority = none) :
    ∃ u' rest, (uriAuthority mem u tok).value = (u', rest) ∧
      u'.HasParts mem { p with authority := (partChars ['/', '/'] ['/'] (tok.text mem)).1 } ∧
      rest.text mem = (partChars ['/', '/'] ['/'] (tok.text mem)).2 := by
  rw [uriAuthority, value_bind, partChars]
  rcases accept_texts mem tok ['/', '/'] with ⟨rest, hvalue, htext⟩ | ⟨rest, hvalue, hrest, htext⟩
  · obtain ⟨tok', part, hspan, htok, hpart⟩ := cspan_texts mem rest ['/']
    rw [hvalue, htext]
    simp only [if_true, value_bind, hspan]
    rw [← htok, ← hpart]
    have hset : { u with authority := part, haveAuthority := true }.HasParts mem
        { p with authority := some (part.text mem) } :=
      { h with haveAuthority := rfl, authority := rfl }
    exact ⟨_, _, rfl, uriPort_parts _ (uriHost_parts _ (uriUserinfo_parts _ hset)), rfl⟩
  · rw [hvalue, htext]
    have hsame : u.HasParts mem { p with authority := none } := by
      rw [← hp]
      exact h
    exact ⟨_, _, rfl, hsame, hrest⟩

theorem uriClear_parts (mem : Nat → UInt8) (s : Str) :
    { uriClear with orig := s }.HasParts mem ⟨none, none, [], none, none⟩ where
  haveScheme := rfl
  scheme := rfl
  haveAuthority := rfl
  authority := rfl
  path := rfl
  haveQuery := rfl
  query := rfl
  haveFragment := rfl
  fragment := rfl

theorem uriParse_parts (mem : Nat → UInt8) (s : Str) :
    (uriParse mem s).value.HasParts mem (uriChars (s.text mem)) := by
  obtain ⟨u₁, tok₁, hscheme, h₁, htok₁⟩ := uriScheme_parts s (uriClear_parts mem s) rfl
  obtain ⟨u₂, tok₂, hauthority, h₂, htok₂⟩ := uriAuthority_parts tok₁ h₁ rfl
  obtain ⟨u₃, tok₃, hpath, h₃, htok₃⟩ := uriPath_parts tok₂ h₂
  obtain ⟨u₄, tok₄, hquery, h₄, htok₄⟩ := uriQuery_parts tok₃ h₃ rfl
  have h₅ := uriFragment_parts tok₄ h₄ rfl
  simp only [uriParse, value_bind, hscheme, hauthority, hpath, hquery]
  rw [htok₄, htok₃, htok₂, htok₁] at h₅
  simp only [uriChars, tailChars]
  exact h₅

/-! ## Putting the parts together again -/

def Uri.recompose (mem : Nat → UInt8) (u : Uri) : List UInt8 :=
  (if u.haveScheme then u.scheme.text mem ++ [(':' : UInt8)] else []) ++
    (if u.haveAuthority then ('/' : UInt8) :: '/' :: u.authority.text mem else []) ++
    u.path.text mem ++
    (if u.haveQuery then ('?' : UInt8) :: u.query.text mem else []) ++
    (if u.haveFragment then ('#' : UInt8) :: u.fragment.text mem else [])

def schemeText : Option (List UInt8) → List UInt8
  | none => []
  | some t => t ++ [(':' : UInt8)]

def partText (lead : List UInt8) : Option (List UInt8) → List UInt8
  | none => []
  | some t => lead ++ t

theorem Uri.HasParts.recompose (h : u.HasParts mem p) :
    u.recompose mem = schemeText p.scheme ++ partText ['/', '/'] p.authority ++ p.path ++
      partText ['?'] p.query ++ partText ['#'] p.fragment := by
  obtain ⟨scheme, authority, path, query, fragment⟩ := p
  rw [Uri.recompose, h.haveScheme, h.scheme, h.haveAuthority, h.authority, h.path, h.haveQuery,
    h.query, h.haveFragment, h.fragment]
  cases scheme <;> cases authority <;> cases query <;> cases fragment <;> rfl

theorem schemeChars_text (w : List UInt8) :
    schemeText (schemeChars w).1 ++ (schemeChars w).2 = w := by
  have hsplit := @List.takeWhile_append_dropWhile _ (outside [':', '/', '?', '#']) w
  rw [schemeChars]
  generalize w.dropWhile (outside [':', '/', '?', '#']) = rest at hsplit ⊢
  by_cases hcolon : [(':' : UInt8)] <+: rest
  · obtain ⟨rest, rfl⟩ := hcolon
    rw [strAccept_append (by decide)]
    simpa [schemeText] using hsplit
  · rw [strAccept_false (by decide) hcolon]
    rfl

theorem partChars_append {lead : List UInt8} (hlead : 0 ∉ lead) (stop v : List UInt8) :
    partChars lead stop (lead ++ v) =
      (some (v.takeWhile (outside stop)), v.dropWhile (outside stop)) := by
  rw [partChars, strAccept_append hlead]

theorem partChars_none {lead : List UInt8} (hlead : 0 ∉ lead) (stop : List UInt8)
    (h : ¬lead <+: w) : partChars lead stop w = (none, w) := by
  rw [partChars, strAccept_false hlead h]

theorem fragmentChars_cons (v : List UInt8) : fragmentChars ('#' :: v) = some v := by
  have haccept : strAccept ('#' :: v) ['#'] = (v, true) := strAccept_append (by decide) v
  rw [fragmentChars, haccept]

theorem partChars_text {lead : List UInt8} (hlead : 0 ∉ lead) (stop w : List UInt8) :
    partText lead (partChars lead stop w).1 ++ (partChars lead stop w).2 = w := by
  by_cases hw : lead <+: w
  · obtain ⟨v, rfl⟩ := hw
    rw [partChars_append hlead]
    simp only [partText, List.append_assoc, List.takeWhile_append_dropWhile]
  · rw [partChars_none hlead stop hw]
    rfl

theorem fragmentChars_text (h : ∀ c ∈ w.head?, c = '#') : partText ['#'] (fragmentChars w) = w := by
  cases w with
  | nil => rfl
  | cons c w =>
    obtain rfl : c = '#' := h c rfl
    rw [fragmentChars_cons]
    rfl

/-- What is left when the query has been read is a fragment. -/
theorem partChars_query (h : ∀ c ∈ w.head?, c ∈ [('?' : UInt8), '#']) (hw : 0 ∉ w) :
    ∀ c ∈ (partChars ['?'] ['#'] w).2.head?, c = '#' := by
  by_cases hlead : [('?' : UInt8)] <+: w
  · obtain ⟨v, rfl⟩ := hlead
    rw [partChars_append (by decide)]
    intro c hc
    have hv : 0 ∉ v := fun hmem => hw (List.mem_append_right _ hmem)
    exact List.mem_singleton.mp (dropWhile_outside ['#'] hv c hc)
  · rw [partChars_none (by decide) ['#'] hlead]
    intro c hc
    have hmem := h c hc
    cases w with
    | nil => cases hc
    | cons d w =>
      obtain rfl := Option.some.inj hc
      rcases List.mem_cons.mp hmem with rfl | hmem
      · exact absurd ⟨w, rfl⟩ hlead
      · exact List.mem_singleton.mp hmem

theorem uriChars_text (h : 0 ∉ w) :
    schemeText (uriChars w).scheme ++ partText ['/', '/'] (uriChars w).authority ++
      (uriChars w).path ++ partText ['?'] (uriChars w).query ++
      partText ['#'] (uriChars w).fragment = w := by
  have hscheme := schemeChars_text w
  rw [uriChars]
  generalize schemeChars w = r at hscheme ⊢
  obtain ⟨scheme, w₁⟩ := r
  have hauthority := @partChars_text ['/', '/'] (by decide) ['/'] w₁
  simp only at hscheme ⊢
  generalize partChars ['/', '/'] ['/'] w₁ = r at hauthority ⊢
  obtain ⟨authority, w₂⟩ := r
  simp only at hauthority ⊢
  have hpath := @List.takeWhile_append_dropWhile _ (outside ['?', '#']) w₂
  have hzero₂ : 0 ∉ w₂ := by
    intro hmem
    rw [← hscheme, ← hauthority] at h
    exact h (List.mem_append_right _ (List.mem_append_right _ hmem))
  have hstart := dropWhile_outside ['?', '#'] hzero₂
  have hzero₃ : 0 ∉ w₂.dropWhile (outside ['?', '#']) :=
    fun hmem => hzero₂ ((List.dropWhile_suffix _).mem hmem)
  have hquery := @partChars_text ['?'] (by decide) ['#']
    (w₂.dropWhile (outside ['?', '#']))
  have hfragment := fragmentChars_text (partChars_query hstart hzero₃)
  simp only [tailChars, List.append_assoc]
  rw [hfragment, hquery, hpath, hauthority, hscheme]

/-- Nothing of a text without a zero is lost. -/
theorem uri_recompose {mem : Nat → UInt8} {s : Str} (h : 0 ∉ s.text mem) :
    (uriParse mem s).value.recompose mem = s.text mem := by
  rw [(uriParse_parts mem s).recompose, uriChars_text h]

/-- The text is `a:?b#`, with a scheme, a query and an empty fragment. -/
theorem uri_recompose_query :
    let text : List UInt8 := ['a', ':', '?', 'b', '#']
    let mem : Nat → UInt8 := fun a => text.getD a 0
    (uriParse mem ⟨0, 5⟩).value.recompose mem = text ∧
      (uriParse mem ⟨0, 5⟩).value.haveFragment = true := by
  intro text mem
  have htext : Str.text mem ⟨0, 5⟩ = text := by decide
  constructor
  · rw [uri_recompose (by rw [htext]; decide), htext]
  · decide

end Wifimodem
