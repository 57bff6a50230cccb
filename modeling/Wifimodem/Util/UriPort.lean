import Wifimodem.Util.UriGrammar

/-!
# The port in the authority

The number is read as 32 bits into a field that is an `int`, where `-1` stands
for no port. It is compared here with the digits that are written behind the host.
-/

namespace Wifimodem

open Str Traced

/-! ## The port that is written -/

/-- The authority without what is in front of the first `@`. -/
def hostAndPort (authority : List UInt8) : List UInt8 :=
  if ('@' : UInt8) ∈ authority then (authority.dropWhile (notIn ['@'])).tail else authority

/-- What follows the host, which may be in brackets. -/
def behindHost (w : List UInt8) : List UInt8 :=
  if w.head? = some ('[' : UInt8) then (w.tail.dropWhile (notIn [']'])).tail
  else w.dropWhile (notIn [':'])

def portDigits (authority : List UInt8) : List UInt8 :=
  if (behindHost (hostAndPort authority)).head? = some (':' : UInt8) then
    (behindHost (hostAndPort authority)).tail.takeWhile isdigit
  else []

/-- The value of the digits behind the host and its colon, if there are any. -/
def writtenPort (w : List UInt8) : Option Nat :=
  (uriChars w).authority.bind fun authority =>
    if portDigits authority = [] then none else some (decimalValue (portDigits authority))

structure PortRight (w : List UInt8) (port : Int) : Prop where
  range : port = -1 ∨ 0 ≤ port ∧ port ≤ 65535
  valid : ∀ v, writtenPort w = some v → v ≤ 65535 → port = v
  invalid : (∀ v, writtenPort w = some v → 65535 < v) → port = -1

/-! ## The port that is stored -/

/-- What becomes of the written number in 64 bits, 32 bits and an `int`. -/
def storedPort : Option Nat → Int
  | none => -1
  | some v => if 2 ^ 32 ≤ v % 2 ^ 64 then -1 else asInt (v % 2 ^ 64)

theorem portRight_iff (w : List UInt8) : PortRight w (storedPort (writtenPort w)) ↔
    ∀ v, writtenPort w = some v → v ≤ 65535 ∨ 2 ^ 32 - 1 ≤ v % 2 ^ 64 := by
  cases hw : writtenPort w with
  | none =>
    refine iff_of_true ⟨.inl rfl, ?_, fun _ => rfl⟩ ?_
    · intro v hv
      rw [hw] at hv
      cases hv
    · intro v hv
      cases hv
  | some v =>
    have hport : storedPort (some v) =
        if 2 ^ 32 ≤ v % 2 ^ 64 then -1 else asInt (v % 2 ^ 64) := rfl
    rw [hport]
    constructor
    · rintro ⟨hrange, hvalid, hinvalid⟩ _ ⟨⟩
      by_contra hbad
      obtain ⟨hlarge, hwrapped⟩ := not_or.mp hbad
      have hnone := hinvalid fun v' hv' => by
        rw [hw] at hv'
        cases hv'
        exact Nat.not_le.mp hlarge
      rw [if_neg (by omega), asInt] at hnone
      split at hnone <;> omega
    · intro hgood
      have hcase := hgood v rfl
      constructor
      · rw [asInt]
        split
        · exact .inl rfl
        · split <;> omega
      · intro v' hv' hle
        rw [hw] at hv'
        cases hv'
        rw [if_neg (by omega), asInt, if_pos (by omega)]
        omega
      · intro hlarge
        have hv := hlarge v hw
        rw [asInt]
        split
        · exact rfl
        · split <;> omega

variable {mem : Nat → UInt8} {u : Uri} {s tok : Str} {w : List UInt8}

theorem accept_char (mem : Nat → UInt8) (s : Str) {c : UInt8} (hc : c ≠ 0) :
    ∃ rest, (s.accept mem (.literal [c])).value =
        (rest, decide ((s.text mem).head? = some c)) ∧
      rest.text mem = if (s.text mem).head? = some c then (s.text mem).tail else s.text mem := by
  have hstep : strAccept (s.text mem) [c] =
      if (s.text mem).head? = some c then ((s.text mem).tail, true) else (s.text mem, false) := by
    cases s.text mem with
    | nil =>
      have hnil : ¬[c] <+: [] := fun h => List.cons_ne_nil c [] (List.prefix_nil.mp h)
      exact strAccept_false (by simpa using hc.symm) hnil
    | cons d w =>
      rw [strAccept_char hc]
      simp only [List.head?_cons, Option.some.injEq, List.tail_cons]
  rcases accept_texts mem s [c] with ⟨rest, hvalue, htext⟩ | ⟨rest, hvalue, hrest, htext⟩
  · rw [hstep] at htext
    split at htext
    · rename_i hhead
      rw [if_pos hhead]
      exact ⟨rest, by rw [hvalue, decide_eq_true hhead], (Prod.mk.inj htext).1.symm⟩
    · exact absurd (Prod.mk.inj htext).2 Bool.false_ne_true
  · rw [hstep] at htext
    split at htext
    · exact absurd (Prod.mk.inj htext).2.symm Bool.false_ne_true
    · rename_i hhead
      rw [if_neg hhead]
      exact ⟨rest, by rw [hvalue, decide_eq_false hhead], hrest⟩

theorem cspan_notIn (mem : Nat → UInt8) (s : Str) (stop : List UInt8) (h : 0 ∉ s.text mem) :
    ∃ rest part, (s.cspan mem stop).value = (rest, part) ∧
      rest.text mem = (s.text mem).dropWhile (notIn stop) ∧
      part.text mem = (s.text mem).takeWhile (notIn stop) := by
  obtain ⟨rest, part, hvalue, hrest, hpart⟩ := cspan_texts mem s stop
  obtain ⟨htake, hdrop⟩ := outside_eq_notIn stop h
  exact ⟨rest, part, hvalue, hrest.trans hdrop, hpart.trans htake⟩

theorem mem_iff_head_dropWhile (c : UInt8) (w : List UInt8) :
    c ∈ w ↔ (w.dropWhile (notIn [c])).head? = some c := by
  induction w with
  | nil => simp
  | cons d w ih =>
    rw [List.mem_cons, List.dropWhile_cons]
    by_cases hd : d = c
    · subst hd
      simp [notIn]
    · have hout : notIn [c] d = true := by simp [notIn, hd]
      rw [if_pos hout, ← ih]
      exact or_iff_right (Ne.symm hd)

theorem takeWhile_notIn_of_notMem {c : UInt8} (h : c ∉ w) : w.takeWhile (notIn [c]) = w := by
  apply List.takeWhile_eq_self_iff.mpr
  intro d hd
  have hne : d ≠ c := by
    rintro rfl
    exact h hd
  simp [notIn, hne]

theorem dropWhile_notIn_of_notMem {c : UInt8} (h : c ∉ w) : w.dropWhile (notIn [c]) = [] := by
  have hsplit := @List.takeWhile_append_dropWhile _ (notIn [c]) w
  rwa [takeWhile_notIn_of_notMem h, List.append_right_eq_self] at hsplit

theorem uriUserinfo_text (u : Uri) (s : Str) (h : 0 ∉ s.text mem) :
    ∃ u' tmp, (uriUserinfo mem u s).value = (u', tmp) ∧ u'.port = u.port ∧
      tmp.text mem = hostAndPort (s.text mem) := by
  obtain ⟨rest, part, hspan, hrest, hpart⟩ := cspan_notIn mem s ['@'] h
  obtain ⟨tmp, haccept, htmp⟩ := accept_char mem rest (show ('@' : UInt8) ≠ 0 by decide)
  have hmem := mem_iff_head_dropWhile '@' (s.text mem)
  rw [uriUserinfo, value_bind, hspan]
  simp only [value_bind, haccept]
  rw [hrest] at htmp ⊢
  by_cases hat : ('@' : UInt8) ∈ s.text mem
  · rw [if_pos (hmem.mp hat)] at htmp
    rw [decide_eq_true (hmem.mp hat), hostAndPort, if_pos hat]
    exact ⟨_, tmp, rfl, rfl, htmp⟩
  · rw [decide_eq_false (mt hmem.mpr hat), hostAndPort, if_neg hat]
    exact ⟨u, part, rfl, rfl, hpart.trans (takeWhile_notIn_of_notMem hat)⟩

theorem uriHost_text (u : Uri) (s : Str) (h : 0 ∉ s.text mem) :
    ∃ u' tmp, (uriHost mem u s).value = (u', tmp) ∧ u'.port = u.port ∧
      tmp.text mem = behindHost (s.text mem) := by
  obtain ⟨tmp, hopen, htmp⟩ := accept_char mem s (show ('[' : UInt8) ≠ 0 by decide)
  rw [uriHost, value_bind, hopen, behindHost]
  by_cases hhead : (s.text mem).head? = some ('[' : UInt8)
  · rw [if_pos hhead] at htmp
    rw [decide_eq_true hhead, if_pos hhead]
    have hzero : 0 ∉ tmp.text mem := by
      rw [htmp]
      exact fun hmem => h (List.mem_of_mem_tail hmem)
    obtain ⟨rest, host, hspan, hrest, -⟩ := cspan_notIn mem tmp [']'] hzero
    obtain ⟨tmp', hclose, htmp'⟩ := accept_char mem rest (show (']' : UInt8) ≠ 0 by decide)
    simp only [if_true, value_bind, hspan, hclose]
    refine ⟨_, tmp', rfl, rfl, ?_⟩
    rw [htmp', hrest, htmp]
    -- the bracket is missing only at the end
    split
    · exact rfl
    · rename_i hend
      have hmem := mt (mem_iff_head_dropWhile ']' (s.text mem).tail).mp hend
      rw [dropWhile_notIn_of_notMem hmem]
      rfl
  · rw [if_neg hhead] at htmp
    rw [decide_eq_false hhead, if_neg hhead]
    obtain ⟨rest, host, hspan, hrest, -⟩ := cspan_notIn mem tmp [':'] (htmp ▸ h)
    simp only [Bool.false_eq_true, if_false, value_bind, hspan]
    exact ⟨_, rest, rfl, rfl, hrest.trans (congrArg _ htmp)⟩

/-- The digits that follow a colon. -/
theorem uriPort_eq (u : Uri) (s : Str) (hport : u.port = -1) :
    (uriPort mem u s).value.port = storedPort
      (if (s.text mem).head? = some (':' : UInt8) then
        if (s.text mem).tail.takeWhile isdigit = [] then none
        else some (decimalValue ((s.text mem).tail.takeWhile isdigit)) else none) := by
  obtain ⟨tmp, haccept, htmp⟩ := accept_char mem s (show (':' : UInt8) ≠ 0 by decide)
  rw [uriPort, value_bind, haccept]
  by_cases hhead : (s.text mem).head? = some (':' : UInt8)
  · rw [if_pos hhead] at htmp
    have hread : (strReadu32 (s.text mem).tail 0).2 = _ := congrArg Prod.snd (strReaduint_eq _)
    rw [decide_eq_true hhead, if_pos hhead]
    simp only [if_true, value_bind, readu32_eq, value_pure, htmp, hread]
    generalize (s.text mem).tail.takeWhile isdigit = ds
    by_cases hds : ds = []
    · rw [if_pos (.inl hds), if_pos hds]
      exact hport
    · rw [if_neg hds, storedPort]
      simp only [hds, false_or]
      split
      · exact hport
      · exact rfl
  · rw [decide_eq_false hhead, if_neg hhead]
    exact hport

/-! ## The whole parse -/

theorem zero_notMem_hostAndPort (h : 0 ∉ w) : 0 ∉ hostAndPort w := by
  rw [hostAndPort]
  split
  · exact fun hmem => h ((List.dropWhile_suffix _).mem (List.mem_of_mem_tail hmem))
  · exact h

theorem uriAuthority_port (u : Uri) (tok : Str) (hport : u.port = -1) (h : 0 ∉ tok.text mem) :
    (uriAuthority mem u tok).value.1.port =
      storedPort ((partChars ['/', '/'] ['/'] (tok.text mem)).1.bind fun authority =>
        if portDigits authority = [] then none
        else some (decimalValue (portDigits authority))) := by
  rw [uriAuthority, value_bind, partChars]
  rcases accept_texts mem tok ['/', '/'] with ⟨rest, hvalue, htext⟩ | ⟨rest, hvalue, -, htext⟩
  · have hsuffix := strAccept_suffix (tok.text mem) ['/', '/']
    rw [htext] at hsuffix
    have hrest : 0 ∉ rest.text mem := fun hmem => h (hsuffix.mem hmem)
    obtain ⟨tok', part, hspan, -, hpart⟩ := cspan_texts mem rest ['/']
    have hzero : 0 ∉ part.text mem := by
      rw [hpart]
      exact fun hmem => hrest ((List.takeWhile_prefix _).mem hmem)
    obtain ⟨u₁, tmp₁, huser, hport₁, htmp₁⟩ := uriUserinfo_text
      { u with authority := part, haveAuthority := true } part hzero
    obtain ⟨u₂, tmp₂, hhost, hport₂, htmp₂⟩ := uriHost_text u₁ tmp₁
      (htmp₁ ▸ zero_notMem_hostAndPort hzero)
    have hstored := @uriPort_eq mem u₂ tmp₂ (hport₂.trans (hport₁.trans hport))
    rw [hvalue, htext]
    simp only [if_true, value_bind, value_pure, hspan, huser, hhost, Option.bind_some]
    rw [hstored, htmp₂, htmp₁, ← hpart]
    congr 1
    rw [portDigits]
    split
    · exact rfl
    · exact (if_pos rfl).symm
  · rw [hvalue, htext]
    exact hport

theorem uriScheme_port (u : Uri) (s : Str) : (uriScheme mem u s).value.1.port = u.port := by
  obtain ⟨tok, part, hspan, -, -⟩ := cspan_texts mem s [':', '/', '?', '#']
  rw [uriScheme, value_bind, hspan, value_bind]
  generalize (accept mem tok (.literal [':'])).value = outcome
  obtain ⟨rest, found⟩ := outcome
  cases found <;> rfl

theorem uriQuery_port (u : Uri) (tok : Str) : (uriQuery mem u tok).value.1.port = u.port := by
  rw [uriQuery, value_bind]
  generalize (accept mem tok (.literal ['?'])).value = outcome
  obtain ⟨rest, found⟩ := outcome
  cases found <;> rfl

theorem uriFragment_port (u : Uri) (tok : Str) : (uriFragment mem u tok).value.port = u.port := by
  rw [uriFragment, value_bind]
  generalize (accept mem tok (.literal ['#'])).value = outcome
  obtain ⟨rest, found⟩ := outcome
  cases found <;> rfl

theorem uriParse_port {s : Str} (h : 0 ∉ s.text mem) :
    (uriParse mem s).value.port = storedPort (writtenPort (s.text mem)) := by
  obtain ⟨u₁, tok₁, hscheme, -, htok₁⟩ := uriScheme_parts s (uriClear_parts mem s) rfl
  have hport₁ : u₁.port = -1 := by
    have hkept := @uriScheme_port mem { uriClear with orig := s } s
    rwa [hscheme] at hkept
  have hzero : 0 ∉ tok₁.text mem := by
    rw [htok₁]
    have htext := schemeChars_text (s.text mem)
    exact fun hmem => h (htext ▸ List.mem_append_right _ hmem)
  have hauthority := uriAuthority_port u₁ tok₁ hport₁ hzero
  simp only [uriParse, value_bind, hscheme, uriFragment_port, uriQuery_port]
  refine Eq.trans ?_ (hauthority.trans ?_)
  · rfl
  · rw [htok₁]
    rfl

/-- The port is right unless the number, cut to 64 bits, is one that an `int` holds as
something else than a port. -/
theorem uri_port_iff {mem : Nat → UInt8} {s : Str} (h : 0 ∉ s.text mem) :
    PortRight (s.text mem) (uriParse mem s).value.port ↔
      ∀ v, writtenPort (s.text mem) = some v → v ≤ 65535 ∨ 2 ^ 32 - 1 ≤ v % 2 ^ 64 := by
  rw [uriParse_port h]
  exact portRight_iff (s.text mem)

/-- The authority is `u@[h]:80`. -/
theorem uri_port_eighty :
    let w : List UInt8 := ['/', '/', 'u', '@', '[', 'h', ']', ':', '8', '0', '/']
    let mem : Nat → UInt8 := fun a => w.getD a 0
    PortRight w (uriParse mem ⟨0, 11⟩).value.port ∧ writtenPort w = some 80 := by
  intro w mem
  have htext : Str.text mem ⟨0, 11⟩ = w := by decide
  have hwritten : writtenPort w = some 80 := by decide
  refine ⟨?_, hwritten⟩
  have hright := (@uri_port_iff mem ⟨0, 11⟩ (by rw [htext]; decide)).mpr
  rw [htext] at hright
  apply hright
  intro v hv
  rw [hwritten] at hv
  cases hv
  exact .inl (by decide)

/-- The authority is `h:70000`. -/
theorem uri_port_above_range :
    let w : List UInt8 := ['/', '/', 'h', ':', '7', '0', '0', '0', '0']
    let mem : Nat → UInt8 := fun a => w.getD a 0
    ¬PortRight w (uriParse mem ⟨0, 9⟩).value.port := by
  intro w mem hright
  have hport : (uriParse mem ⟨0, 9⟩).value.port = 70000 := by decide
  have hrange := hright.range
  rw [hport] at hrange
  omega

end Wifimodem
