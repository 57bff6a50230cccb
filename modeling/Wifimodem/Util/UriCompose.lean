import Wifimodem.Core.StrNumber
import Wifimodem.Util.UriPort

/-!
# URIs that are put together and parsed

The parts of a URI that can be told apart again are those of a structure, and parsing the
text that is put together from them gives back each of them.
-/

namespace Wifimodem

open Str Traced

/-! ## The parts -/

/-- What is in front of the host, with the characters that end its two parts left out. -/
structure Userinfo where
  user : List UInt8
  pass : Option (List UInt8)
  user_ends : ('@' : UInt8) ∉ user ∧ (':' : UInt8) ∉ user
  pass_ends : ∀ p ∈ pass, ('@' : UInt8) ∉ p

def Userinfo.text (i : Userinfo) : List UInt8 :=
  i.user ++ (i.pass.elim [] fun p => (':' : UInt8) :: p)

structure HostName where
  bracketed : Bool
  name : List UInt8
  name_ends : if bracketed then (']' : UInt8) ∉ name
    else (':' : UInt8) ∉ name ∧ name.head? ≠ some ('[' : UInt8)

def HostName.text (h : HostName) : List UInt8 :=
  if h.bracketed then ('[' : UInt8) :: (h.name ++ [(']' : UInt8)]) else h.name

structure Authority where
  info : Option Userinfo
  host : HostName
  port : Option (Fin 65536)
  host_plain : info = none → ('@' : UInt8) ∉ host.name

def portText (port : Option (Fin 65536)) : List UInt8 :=
  port.elim [] fun n => (':' : UInt8) :: decimal n

def Authority.text (a : Authority) : List UInt8 :=
  (a.info.elim [] fun i => i.text ++ [('@' : UInt8)]) ++ (a.host.text ++ portText a.port)

/-- A path without an authority in front may not look like one, nor like a scheme, and the
authority ends at a path or with the text. -/
structure UriShape where
  scheme : Option (List UInt8)
  authority : Option Authority
  path : List UInt8
  query : Option (List UInt8)
  fragment : Option (List UInt8)
  scheme_ends : ∀ t ∈ scheme, ∀ c ∈ t, notIn [':', '/', '?', '#'] c = true
  authority_ends : ∀ a ∈ authority, ('/' : UInt8) ∉ a.text
  path_ends : ∀ c ∈ path, notIn ['?', '#'] c = true
  query_ends : ∀ t ∈ query, ('#' : UInt8) ∉ t
  path_behind : authority.isSome → path.head? = some ('/' : UInt8) ∨
    path = [] ∧ query = none ∧ fragment = none
  path_alone : authority = none → ¬[('/' : UInt8), '/'] <+: path ∧
    (scheme = none → (':' : UInt8) ∉ path.takeWhile (notIn ['/']))

namespace UriShape

def parts (u : UriShape) : UriParts :=
  ⟨u.scheme, u.authority.map Authority.text, u.path, u.query, u.fragment⟩

def text (u : UriShape) : List UInt8 :=
  schemeText u.scheme ++ (partText ['/', '/'] (u.authority.map Authority.text) ++
    (u.path ++ (partText ['?'] u.query ++ partText ['#'] u.fragment)))

def user (u : UriShape) : List UInt8 :=
  ((u.authority.bind Authority.info).map Userinfo.user).getD []

def pass (u : UriShape) : List UInt8 :=
  ((u.authority.bind Authority.info).bind Userinfo.pass).getD []

def host (u : UriShape) : List UInt8 := (u.authority.map fun a => a.host.name).getD []

def port (u : UriShape) : Int := (u.authority.bind Authority.port).elim (-1) fun n => n.val

end UriShape

/-! ## Up to a character -/

section
variable {stop x rest : List UInt8} {d : UInt8}

theorem takeWhile_notIn_cons (hx : ∀ c ∈ x, notIn stop c = true) (hd : notIn stop d = false) :
    (x ++ d :: rest).takeWhile (notIn stop) = x ∧
      (x ++ d :: rest).dropWhile (notIn stop) = d :: rest := by
  rw [List.takeWhile_append_of_pos hx, List.dropWhile_append_of_pos hx,
    List.takeWhile_cons_of_neg (by simp [hd]), List.dropWhile_cons_of_neg (by simp [hd]),
    List.append_nil]
  exact ⟨rfl, rfl⟩

theorem notIn_one {c : UInt8} (h : c ∉ x) : ∀ d ∈ x, notIn [c] d = true := by
  intro d hd
  have hne : d ≠ c := fun heq => h (heq ▸ hd)
  simp [notIn, hne]

end

/-! ## The login -/

/-- The part in front of the first `@`. -/
def userinfoChars (authority : List UInt8) : List UInt8 :=
  if ('@' : UInt8) ∈ authority then authority.takeWhile (notIn ['@']) else []

def userChars (authority : List UInt8) : List UInt8 :=
  (userinfoChars authority).takeWhile (notIn [':'])

def passChars (authority : List UInt8) : List UInt8 :=
  ((userinfoChars authority).dropWhile (notIn [':'])).tail

def hostChars (w : List UInt8) : List UInt8 :=
  if w.head? = some ('[' : UInt8) then w.tail.takeWhile (notIn [']']) else w.takeWhile (notIn [':'])

theorem notMem_portText {c : UInt8} (hc : isdigit c = false) (hcolon : c ≠ ':')
    (port : Option (Fin 65536)) : c ∉ portText port := by
  cases port with
  | none => exact List.not_mem_nil
  | some n =>
    intro hmem
    rcases List.mem_cons.mp hmem with heq | hmem
    · exact hcolon heq
    · exact notMem_decimal hc n hmem

theorem notMem_hostText {h : HostName} {c : UInt8} (hname : c ∉ h.name) (hopen : c ≠ '[')
    (hclose : c ≠ ']') : c ∉ h.text := by
  rw [HostName.text]
  split
  · intro hmem
    rcases List.mem_cons.mp hmem with heq | hmem
    · exact hopen heq
    rcases List.mem_append.mp hmem with hmem | hmem
    · exact hname hmem
    · exact hclose (List.mem_singleton.mp hmem)
  · exact hname

theorem notMem_userinfo (i : Userinfo) : ('@' : UInt8) ∉ i.text := by
  intro hmem
  rcases List.mem_append.mp hmem with hmem | hmem
  · exact i.user_ends.1 hmem
  · cases hpass : i.pass with
    | none =>
      rw [hpass] at hmem
      cases hmem
    | some p =>
      rw [hpass] at hmem
      rcases List.mem_cons.mp hmem with heq | hmem
      · exact absurd heq (by decide)
      · exact i.pass_ends p hpass hmem

theorem userinfo_text (a : Authority) :
    userinfoChars a.text = (a.info.map Userinfo.text).getD [] ∧
      hostAndPort a.text = a.host.text ++ portText a.port := by
  have hport := notMem_portText (c := '@') rfl (by decide) a.port
  rw [userinfoChars, hostAndPort]
  cases hinfo : a.info with
  | none =>
    have htext : a.text = a.host.text ++ portText a.port := by
      rw [Authority.text, hinfo]
      rfl
    have hhost := notMem_hostText (c := '@') (a.host_plain hinfo) (by decide) (by decide)
    have hat : ('@' : UInt8) ∉ a.host.text ++ portText a.port :=
      fun h => (List.mem_append.mp h).elim hhost hport
    rw [htext, if_neg hat, if_neg hat]
    exact ⟨rfl, rfl⟩
  | some i =>
    have htext : a.text = i.text ++ ('@' : UInt8) :: (a.host.text ++ portText a.port) := by
      rw [Authority.text, hinfo, Option.elim_some, List.append_assoc]
      rfl
    have hsplit := @takeWhile_notIn_cons ['@'] i.text (a.host.text ++ portText a.port) '@'
      (notIn_one (notMem_userinfo i)) rfl
    have hat : ('@' : UInt8) ∈ i.text ++ ('@' : UInt8) :: (a.host.text ++ portText a.port) :=
      List.mem_append_right _ List.mem_cons_self
    rw [htext, if_pos hat, if_pos hat, hsplit.1, hsplit.2]
    exact ⟨rfl, rfl⟩

theorem userinfo_parts (i : Userinfo) :
    i.text.takeWhile (notIn [':']) = i.user ∧
      (i.text.dropWhile (notIn [':'])).tail = i.pass.getD [] := by
  rw [Userinfo.text]
  cases i.pass with
  | none =>
    rw [Option.elim_none, List.append_nil, takeWhile_notIn_of_notMem i.user_ends.2,
      dropWhile_notIn_of_notMem i.user_ends.2]
    exact ⟨rfl, rfl⟩
  | some p =>
    have hsplit := @takeWhile_notIn_cons [':'] i.user p ':' (notIn_one i.user_ends.2) rfl
    rw [Option.elim_some, hsplit.1, hsplit.2]
    exact ⟨rfl, rfl⟩

theorem host_text (h : HostName) (port : Option (Fin 65536)) :
    hostChars (h.text ++ portText port) = h.name ∧
      behindHost (h.text ++ portText port) = portText port := by
  have hends := h.name_ends
  rw [hostChars, behindHost, HostName.text]
  cases hbracketed : h.bracketed with
  | true =>
    rw [hbracketed, if_pos rfl] at hends
    have hsplit := @takeWhile_notIn_cons [']'] h.name (portText port) ']' (notIn_one hends) rfl
    simp only [if_true, List.cons_append, List.head?_cons, List.tail_cons, List.append_assoc,
      List.nil_append, hsplit.1, hsplit.2]
    exact ⟨trivial, trivial⟩
  | false =>
    rw [hbracketed, if_neg Bool.false_ne_true] at hends
    have hhead : (h.name ++ portText port).head? ≠ some ('[' : UInt8) := by
      cases hname : h.name with
      | nil =>
        cases port with
        | none => simp [portText]
        | some n => simp [portText]
      | cons c name =>
        rw [List.cons_append, List.head?_cons, ← List.head?_cons (l := name), ← hname]
        exact hends.2
    simp only [Bool.false_eq_true, if_false, if_neg hhead]
    cases port with
    | none =>
      rw [portText, Option.elim_none, List.append_nil, takeWhile_notIn_of_notMem hends.1,
        dropWhile_notIn_of_notMem hends.1]
      exact ⟨rfl, rfl⟩
    | some n =>
      exact @takeWhile_notIn_cons [':'] h.name (decimal n) ':' (notIn_one hends.1) rfl

theorem portDigits_text (a : Authority) : portDigits a.text = a.port.elim [] fun n => decimal n := by
  rw [portDigits, (userinfo_text a).2, (host_text a.host a.port).2, portText]
  cases a.port with
  | none => rfl
  | some n =>
    have hall : (decimal n).takeWhile isdigit = decimal n :=
      List.takeWhile_eq_self_iff.mpr (decimal_digits n)
    simp only [Option.elim_some, List.head?_cons, List.tail_cons, if_true, hall]

/-! ## What the parser stores -/

structure Uri.HasLogin (mem : Nat → UInt8) (u : Uri) (user pass host : List UInt8) : Prop where
  user : u.user.text mem = user
  pass : u.pass.text mem = pass
  host : u.host.text mem = host

section
variable {mem : Nat → UInt8} {u : Uri} {s tok : Str} {user pass host : List UInt8}

theorem uriUserinfo_login (h : u.HasLogin mem [] [] host) (hs : 0 ∉ s.text mem) :
    ∃ u' tmp, (uriUserinfo mem u s).value = (u', tmp) ∧ tmp.text mem = hostAndPort (s.text mem) ∧
      u'.HasLogin mem (userChars (s.text mem)) (passChars (s.text mem)) host := by
  obtain ⟨rest, part, hspan, hrest, hpart⟩ := cspan_notIn mem s ['@'] hs
  obtain ⟨tmp, haccept, htmp⟩ := accept_char mem rest (show ('@' : UInt8) ≠ 0 by decide)
  have hmem := mem_iff_head_dropWhile '@' (s.text mem)
  rw [uriUserinfo, value_bind, hspan]
  simp only [value_bind, haccept]
  rw [hrest] at htmp ⊢
  rw [userChars, passChars, userinfoChars, hostAndPort]
  by_cases hat : ('@' : UInt8) ∈ s.text mem
  · rw [if_pos (hmem.mp hat)] at htmp
    rw [decide_eq_true (hmem.mp hat), if_pos hat, if_pos hat]
    have hzero : 0 ∉ part.text mem := by
      rw [hpart]
      exact fun hin => hs ((List.takeWhile_prefix _).mem hin)
    obtain ⟨rest', user', hspan', hrest', huser⟩ := cspan_notIn mem part [':'] hzero
    obtain ⟨pass', haccept', hpass⟩ := accept_char mem rest' (show (':' : UInt8) ≠ 0 by decide)
    rw [hpart] at hrest' huser
    simp only [if_true, value_bind, hspan', haccept', value_pure]
    refine ⟨_, tmp, rfl, htmp, huser, ?_, h.host⟩
    -- without a colon nothing is left, and the password stays empty
    by_cases hcolon : (rest'.text mem).head? = some (':' : UInt8)
    · rw [if_pos hcolon, hrest'] at hpass
      simp only [decide_eq_true hcolon, if_true]
      exact hpass
    · have hin := mt (mem_iff_head_dropWhile ':' _).mp (hrest' ▸ hcolon)
      simp only [decide_eq_false hcolon, Bool.false_eq_true, if_false]
      rw [dropWhile_notIn_of_notMem hin]
      exact h.pass
  · rw [decide_eq_false (mt hmem.mpr hat), if_neg hat, if_neg hat]
    exact ⟨u, part, rfl, hpart.trans (takeWhile_notIn_of_notMem hat), h⟩

theorem uriHost_login (h : u.HasLogin mem user pass []) (hs : 0 ∉ s.text mem) :
    (uriHost mem u s).value.1.HasLogin mem user pass (hostChars (s.text mem)) := by
  obtain ⟨tmp, hopen, htmp⟩ := accept_char mem s (show ('[' : UInt8) ≠ 0 by decide)
  rw [uriHost, value_bind, hopen, hostChars]
  by_cases hhead : (s.text mem).head? = some ('[' : UInt8)
  · rw [if_pos hhead] at htmp
    rw [decide_eq_true hhead, if_pos hhead]
    have hzero : 0 ∉ tmp.text mem := by
      rw [htmp]
      exact fun hmem => hs (List.mem_of_mem_tail hmem)
    obtain ⟨rest, host, hspan, -, hhost⟩ := cspan_notIn mem tmp [']'] hzero
    simp only [if_true, value_bind, hspan, value_pure]
    exact ⟨h.user, h.pass, hhost.trans (congrArg _ htmp)⟩
  · rw [if_neg hhead] at htmp
    rw [decide_eq_false hhead, if_neg hhead]
    obtain ⟨rest, host, hspan, -, hhost⟩ := cspan_notIn mem tmp [':'] (htmp ▸ hs)
    simp only [Bool.false_eq_true, if_false, value_bind, hspan, value_pure]
    exact ⟨h.user, h.pass, hhost.trans (congrArg _ htmp)⟩

theorem uriPort_login (h : u.HasLogin mem user pass host) (s : Str) :
    (uriPort mem u s).value.HasLogin mem user pass host := by
  rw [uriPort, value_bind]
  generalize (accept mem s (.literal [':'])).value = outcome
  obtain ⟨rest, found⟩ := outcome
  cases found
  · exact h
  · exact ⟨h.user, h.pass, h.host⟩

theorem uriScheme_login (h : u.HasLogin mem user pass host) (s : Str) :
    (uriScheme mem u s).value.1.HasLogin mem user pass host := by
  obtain ⟨tok, part, hspan, -, -⟩ := cspan_texts mem s [':', '/', '?', '#']
  rw [uriScheme, value_bind, hspan, value_bind]
  generalize (accept mem tok (.literal [':'])).value = outcome
  obtain ⟨rest, found⟩ := outcome
  cases found
  · exact h
  · exact ⟨h.user, h.pass, h.host⟩

theorem uriQuery_login (h : u.HasLogin mem user pass host) (tok : Str) :
    (uriQuery mem u tok).value.1.HasLogin mem user pass host := by
  rw [uriQuery, value_bind]
  generalize (accept mem tok (.literal ['?'])).value = outcome
  obtain ⟨rest, found⟩ := outcome
  cases found
  · exact h
  · exact ⟨h.user, h.pass, h.host⟩

theorem uriFragment_login (h : u.HasLogin mem user pass host) (tok : Str) :
    (uriFragment mem u tok).value.HasLogin mem user pass host := by
  rw [uriFragment, value_bind]
  generalize (accept mem tok (.literal ['#'])).value = outcome
  obtain ⟨rest, found⟩ := outcome
  cases found
  · exact h
  · exact ⟨h.user, h.pass, h.host⟩

theorem uriPath_login (h : u.HasLogin mem user pass host) (tok : Str) :
    (uriPath mem u tok).value.1.HasLogin mem user pass host := by
  rw [uriPath, value_bind]
  exact ⟨h.user, h.pass, h.host⟩

/-- The login of an authority, and of a text without one. -/
theorem uriAuthority_login (h : u.HasLogin mem [] [] []) (hs : 0 ∉ tok.text mem) :
    (uriAuthority mem u tok).value.1.HasLogin mem
      (((partChars ['/', '/'] ['/'] (tok.text mem)).1.map userChars).getD [])
      (((partChars ['/', '/'] ['/'] (tok.text mem)).1.map passChars).getD [])
      (((partChars ['/', '/'] ['/'] (tok.text mem)).1.map fun a =>
        hostChars (hostAndPort a)).getD []) := by
  rw [uriAuthority, value_bind, partChars]
  rcases accept_texts mem tok ['/', '/'] with ⟨rest, hvalue, htext⟩ | ⟨rest, hvalue, -, htext⟩
  · have hsuffix := strAccept_suffix (tok.text mem) ['/', '/']
    rw [htext] at hsuffix
    have hrest : 0 ∉ rest.text mem := fun hmem => hs (hsuffix.mem hmem)
    obtain ⟨tok', part, hspan, -, hpart⟩ := cspan_texts mem rest ['/']
    have hzero : 0 ∉ part.text mem := by
      rw [hpart]
      exact fun hmem => hrest ((List.takeWhile_prefix _).mem hmem)
    have hset : { u with authority := part, haveAuthority := true }.HasLogin mem [] [] [] :=
      ⟨h.user, h.pass, h.host⟩
    obtain ⟨u₁, tmp₁, huser, htmp₁, h₁⟩ := uriUserinfo_login hset hzero
    have h₂ := uriHost_login h₁ (htmp₁ ▸ zero_notMem_hostAndPort hzero)
    rw [hvalue, htext]
    simp only [if_true, value_bind, value_pure, hspan, huser, Option.map_some, Option.getD_some]
    rw [← hpart, ← htmp₁]
    exact uriPort_login h₂ _
  · rw [hvalue, htext]
    exact h

/-- The whole text, by its authority. -/
theorem uriParse_login (h : 0 ∉ s.text mem) :
    (uriParse mem s).value.HasLogin mem
      (((uriChars (s.text mem)).authority.map userChars).getD [])
      (((uriChars (s.text mem)).authority.map passChars).getD [])
      (((uriChars (s.text mem)).authority.map fun a => hostChars (hostAndPort a)).getD []) := by
  obtain ⟨u₁, tok₁, hscheme, -, htok₁⟩ := uriScheme_parts s (uriClear_parts mem s) rfl
  have hclear : { uriClear with orig := s }.HasLogin mem [] [] [] := ⟨rfl, rfl, rfl⟩
  have h₁ := uriScheme_login hclear s
  rw [hscheme] at h₁
  have hzero : 0 ∉ tok₁.text mem := by
    rw [htok₁]
    have htext := schemeChars_text (s.text mem)
    exact fun hmem => h (htext ▸ List.mem_append_right _ hmem)
  have h₂ := uriAuthority_login h₁ hzero
  have hchars : (uriChars (s.text mem)).authority =
      (partChars ['/', '/'] ['/'] (schemeChars (s.text mem)).2).1 := rfl
  rw [hchars, ← htok₁]
  simp only [uriParse, value_bind, hscheme]
  generalize (uriAuthority mem u₁ tok₁).value = r₂ at h₂ ⊢
  obtain ⟨u₂, tok₂⟩ := r₂
  have h₃ := uriPath_login h₂ tok₂
  generalize (uriPath mem u₂ tok₂).value = r₃ at h₃ ⊢
  obtain ⟨u₃, tok₃⟩ := r₃
  have h₄ := uriQuery_login h₃ tok₃
  generalize (uriQuery mem u₃ tok₃).value = r₄ at h₄ ⊢
  obtain ⟨u₄, tok₄⟩ := r₄
  exact uriFragment_login h₄ tok₄

end

/-! ## The parts of the text -/

section
variable {stop x rest w : List UInt8}

/-- A part ends with the text, or where a character stops it. -/
theorem span_outside (hx : ∀ c ∈ x, notIn stop c = true) (hrest : ∀ c ∈ rest.head?, c ∈ stop)
    (hzero : 0 ∉ x ++ rest) :
    (x ++ rest).takeWhile (outside stop) = x ∧ (x ++ rest).dropWhile (outside stop) = rest := by
  obtain ⟨htake, hdrop⟩ := outside_eq_notIn stop hzero
  rw [htake, hdrop]
  cases rest with
  | nil =>
    rw [List.append_nil, List.takeWhile_eq_self_iff.mpr hx, List.dropWhile_eq_nil_iff.mpr hx]
    exact ⟨rfl, rfl⟩
  | cons d rest =>
    have hd : notIn stop d = false := by simpa [notIn] using hrest d rfl
    exact takeWhile_notIn_cons hx hd

theorem head_partText (c : UInt8) (part : Option (List UInt8)) :
    ∀ d ∈ (partText [c] part).head?, d = c := by
  cases part with
  | none =>
    intro d hd
    cases hd
  | some t =>
    intro d hd
    exact (Option.some.inj hd).symm

/-- What follows the path. -/
theorem head_tail (query fragment : Option (List UInt8)) :
    ∀ d ∈ (partText ['?'] query ++ partText ['#'] fragment).head?, d ∈ [('?' : UInt8), '#'] := by
  cases query with
  | none =>
    intro d hd
    rw [head_partText '#' fragment d hd]
    exact List.mem_cons_of_mem _ List.mem_cons_self
  | some t =>
    intro d hd
    rw [← Option.some.inj hd]
    exact List.mem_cons_self

end

namespace UriShape

variable (u : UriShape)

def tail : List UInt8 := u.path ++ (partText ['?'] u.query ++ partText ['#'] u.fragment)

theorem tail_parts (scheme authority : Option (List UInt8)) (h : 0 ∉ u.tail) :
    tailChars scheme authority u.tail = ⟨scheme, authority, u.path, u.query, u.fragment⟩ := by
  have hpath := span_outside u.path_ends (head_tail u.query u.fragment) h
  have hzero : 0 ∉ partText ['?'] u.query ++ partText ['#'] u.fragment :=
    fun hmem => h (List.mem_append_right _ hmem)
  have hfragment : fragmentChars (partText ['#'] u.fragment) = u.fragment := by
    cases u.fragment with
    | none => decide
    | some t => exact fragmentChars_cons t
  have hquery : partChars ['?'] ['#'] (partText ['?'] u.query ++ partText ['#'] u.fragment) =
      (u.query, partText ['#'] u.fragment) := by
    have hends := u.query_ends
    cases hq : u.query with
    | none =>
      apply partChars_none (by decide)
      rintro ⟨v, hv⟩
      have hhead := head_partText '#' u.fragment '?'
      simp only [partText, List.nil_append] at hv hhead
      rw [← hv] at hhead
      exact absurd (hhead rfl) (by decide)
    | some t =>
      rw [hq] at hzero
      have hspan := span_outside (notIn_one (hends t hq))
        (fun d hd => List.mem_singleton.mpr (head_partText '#' u.fragment d hd))
        (fun hmem => hzero (List.mem_cons_of_mem _ hmem))
      have hlead := @partChars_append ['?'] (by decide) ['#'] (t ++ partText ['#'] u.fragment)
      rw [hspan.1, hspan.2] at hlead
      exact hlead
  rw [tailChars, tail, hpath.1, hpath.2, hquery]
  simp only [hfragment]

theorem authority_parts (h : 0 ∉ partText ['/', '/'] (u.authority.map Authority.text) ++ u.tail) :
    partChars ['/', '/'] ['/'] (partText ['/', '/'] (u.authority.map Authority.text) ++ u.tail) =
      (u.authority.map Authority.text, u.tail) := by
  cases hauthority : u.authority with
  | none =>
    apply partChars_none (by decide)
    rw [Option.map_none, partText, List.nil_append]
    rintro ⟨v, hv⟩
    have halone := (u.path_alone hauthority).1
    have hhead := head_tail u.query u.fragment
    rw [tail] at hv
    -- the path is not long enough to hold the two slashes
    rcases hpath : u.path with _ | ⟨c, _ | ⟨d, path⟩⟩
    · rw [hpath, List.nil_append] at hv
      rw [← hv] at hhead
      exact absurd (hhead '/' rfl) (by decide)
    · rw [hpath] at hv
      obtain ⟨-, hv⟩ := List.cons.inj hv
      have hstart : ('/' : UInt8) :: v = partText ['?'] u.query ++ partText ['#'] u.fragment := hv
      rw [← hstart] at hhead
      exact absurd (hhead '/' rfl) (by decide)
    · rw [hpath] at hv halone
      obtain ⟨hc, hv⟩ := List.cons.inj hv
      obtain ⟨hd, -⟩ := List.cons.inj hv
      exact halone ⟨path, by rw [← hc, ← hd]; rfl⟩
  | some a =>
    rw [hauthority] at h
    have hstart : ∀ c ∈ u.tail.head?, c ∈ [('/' : UInt8)] := by
      rcases u.path_behind (by rw [hauthority]; rfl) with hslash | ⟨hpath, hquery, hfragment⟩
      · cases hpath : u.path with
        | nil =>
          rw [hpath] at hslash
          cases hslash
        | cons c path =>
          rw [hpath] at hslash
          intro d hd
          rw [tail, hpath] at hd
          obtain rfl := Option.some.inj hslash
          obtain rfl := Option.some.inj hd
          exact List.mem_singleton_self _
      · intro d hd
        rw [tail, hpath, hquery, hfragment] at hd
        cases hd
    have hspan := span_outside (notIn_one (u.authority_ends a hauthority)) hstart
      (fun hmem => h (List.mem_cons_of_mem _ (List.mem_cons_of_mem _ hmem)))
    have hlead := @partChars_append ['/', '/'] (by decide) ['/'] (a.text ++ u.tail)
    rw [hspan.1, hspan.2] at hlead
    exact hlead

/-- A path that stands alone is no scheme. -/
theorem tail_no_scheme (hscheme : u.scheme = none) (hauthority : u.authority = none) :
    ¬[(':' : UInt8)] <+: u.tail.dropWhile (notIn [':', '/', '?', '#']) := by
  have hcolon := (u.path_alone hauthority).2 hscheme
  have hhead := head_tail u.query u.fragment
  rw [tail, List.dropWhile_append]
  generalize partText ['?'] u.query ++ partText ['#'] u.fragment = rest at hhead
  split
  · rintro ⟨v, hv⟩
    cases rest with
    | nil => cases hv
    | cons d rest =>
      have hd : notIn [':', '/', '?', '#'] d = false := by
        have hmem := hhead d rfl
        simp only [List.mem_cons, List.not_mem_nil, or_false] at hmem
        rcases hmem with rfl | rfl <;> rfl
      rw [List.dropWhile_cons_of_neg (by rw [hd]; exact Bool.false_ne_true)] at hv
      have heq := hhead d rfl
      rw [← (List.cons.inj hv).1] at heq
      exact absurd heq (by decide)
  · rename_i hsome
    rintro ⟨v, hv⟩
    have hsplit := @List.takeWhile_append_dropWhile _ (notIn [':', '/', '?', '#']) u.path
    generalize hfront : u.path.takeWhile (notIn [':', '/', '?', '#']) = front at hsplit
    have hslash : ∀ c ∈ front, notIn ['/'] c = true := by
      intro c hc
      rw [← hfront] at hc
      have hout := List.mem_takeWhile_imp hc
      simp only [notIn, List.contains_cons, Bool.not_eq_true', Bool.or_eq_false_iff] at hout ⊢
      exact ⟨hout.2.1, rfl⟩
    cases hdrop : u.path.dropWhile (notIn [':', '/', '?', '#']) with
    | nil =>
      rw [hdrop] at hsome
      exact absurd rfl hsome
    | cons d back =>
      rw [hdrop] at hv hsplit
      obtain rfl := (List.cons.inj hv).1
      apply hcolon
      rw [← hsplit, List.takeWhile_append_of_pos hslash, List.takeWhile_cons_of_pos (by decide)]
      exact List.mem_append_right _ List.mem_cons_self

theorem scheme_parts (h : 0 ∉ u.text) :
    schemeChars u.text =
      (u.scheme, partText ['/', '/'] (u.authority.map Authority.text) ++ u.tail) := by
  have htext : u.text = schemeText u.scheme ++
      (partText ['/', '/'] (u.authority.map Authority.text) ++ u.tail) := rfl
  cases hscheme : u.scheme with
  | some t =>
    rw [hscheme, schemeText, List.append_assoc] at htext
    rw [htext] at h ⊢
    have hspan := span_outside (u.scheme_ends t hscheme) (fun d hd => by
      rw [← Option.some.inj hd]
      exact List.mem_cons_self) h
    rw [schemeChars, hspan.1, hspan.2, strAccept_append (by decide)]
  | none =>
    rw [hscheme, schemeText, List.nil_append] at htext
    have hnone : ¬[(':' : UInt8)] <+: u.text.dropWhile (outside [':', '/', '?', '#']) := by
      rw [(outside_eq_notIn _ h).2, htext]
      cases hauthority : u.authority with
      | none => exact u.tail_no_scheme hscheme hauthority
      | some a =>
        rintro ⟨v, hv⟩
        have hslash : (partText ['/', '/'] (some a.text) ++ u.tail).dropWhile
            (notIn [':', '/', '?', '#']) = partText ['/', '/'] (some a.text) ++ u.tail :=
          List.dropWhile_cons_of_neg (by decide)
        rw [Option.map_some, hslash] at hv
        exact absurd (List.cons.inj hv).1 (by decide)
    rw [schemeChars, strAccept_false (by decide) hnone, htext]

theorem uriChars_shape (h : 0 ∉ u.text) : uriChars u.text = u.parts := by
  have hauthority : 0 ∉ partText ['/', '/'] (u.authority.map Authority.text) ++ u.tail :=
    fun hmem => h (List.mem_append_right _ hmem)
  have htail : 0 ∉ u.tail := fun hmem => hauthority (List.mem_append_right _ hmem)
  rw [uriChars, u.scheme_parts h]
  simp only
  rw [u.authority_parts hauthority]
  exact u.tail_parts _ _ htail

end UriShape

/-- Each part of a URI that is put together is found again, with the login and the port
inside the authority. -/
theorem uri_compose_parse (shape : UriShape) {mem : Nat → UInt8} {s : Str}
    (htext : s.text mem = shape.text) (hzero : 0 ∉ shape.text) :
    (uriParse mem s).value.HasParts mem shape.parts ∧
      (uriParse mem s).value.HasLogin mem shape.user shape.pass shape.host ∧
      (uriParse mem s).value.port = shape.port := by
  have hchars := shape.uriChars_shape hzero
  have hparts := uriParse_parts mem s
  have hplain : 0 ∉ s.text mem := htext ▸ hzero
  have hlogin := uriParse_login hplain
  have hport := uriParse_port hplain
  rw [htext, hchars] at hparts hlogin
  rw [htext, writtenPort, hchars] at hport
  refine ⟨hparts, ?_, ?_⟩
  · rw [UriShape.user, UriShape.pass, UriShape.host]
    cases hauthority : shape.authority with
    | none =>
      simp only [UriShape.parts, hauthority] at hlogin
      exact hlogin
    | some a =>
      have hinfo := userinfo_text a
      have hhost := (host_text a.host a.port).1
      simp only [UriShape.parts, hauthority, Option.map_some, Option.getD_some, userChars,
        passChars, hinfo.1, hinfo.2, hhost] at hlogin
      simp only [Option.bind_some, Option.map_some, Option.getD_some]
      cases hi : a.info with
      | none =>
        rw [hi] at hlogin
        exact hlogin
      | some i =>
        rw [hi] at hlogin
        simp only [Option.map_some, Option.getD_some, (userinfo_parts i).1,
          (userinfo_parts i).2] at hlogin
        exact hlogin
  · rw [hport, UriShape.port]
    cases hauthority : shape.authority with
    | none =>
      simp only [UriShape.parts, hauthority]
      rfl
    | some a =>
      simp only [UriShape.parts, hauthority, Option.map_some, Option.bind_some, portDigits_text a]
      cases a.port with
      | none => rfl
      | some n =>
        simp only [Option.elim_some, if_neg (decimal_ne_nil n.val), decimalValue_decimal]
        have hn := n.isLt
        rw [storedPort, asInt]
        split
        · omega
        split
        · omega
        · omega

/-- `tcp://a:b:c@[::1]:23/x?/#` -/
def bracketedUri : UriShape where
  scheme := some ['t', 'c', 'p']
  authority := some
    { info := some
        { user := ['a']
          pass := some ['b', ':', 'c']
          user_ends := by decide +kernel
          pass_ends := by decide +kernel }
      host := ⟨true, [':', ':', '1'], by decide +kernel⟩
      port := some 23
      host_plain := by decide +kernel }
  path := ['/', 'x']
  query := some ['/']
  fragment := some []
  scheme_ends := by decide +kernel
  authority_ends := by decide +kernel
  path_ends := by decide +kernel
  query_ends := by decide +kernel
  path_behind := fun _ => .inl rfl
  path_alone := fun h => by cases h

theorem uri_compose_parse_bracketed :
    (uriParse (fun a => bracketedUri.text.getD a 0) ⟨0, 25⟩).value.port = 23 ∧
      (uriParse (fun a => bracketedUri.text.getD a 0) ⟨0, 25⟩).value.HasLogin
        (fun a => bracketedUri.text.getD a 0) ['a'] ['b', ':', 'c'] [':', ':', '1'] := by
  have htext : Str.text (fun a => bracketedUri.text.getD a 0) ⟨0, 25⟩ = bracketedUri.text := by
    decide +kernel
  obtain ⟨-, hlogin, hport⟩ := uri_compose_parse bracketedUri htext (by decide +kernel)
  exact ⟨hport, hlogin⟩

end Wifimodem
