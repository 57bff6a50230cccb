import Wifimodem.Util.JsonBuffer
import Wifimodem.Util.JsonGrammar

/-!
# The text of a number

Each digit run of a number is read by a loop that may stop before its first
digit. The state tells which parts of the text are there, and which of them may
still be empty.
-/

namespace Wifimodem

open Json Transducer

/-- `[+-]?[0-9]+` or `[+-]?[0-9]*[.][0-9]+([eE][+-]?[0-9]+)?` -/
def Lexeme.Complete (n : Lexeme) : Prop :=
  match n.fraction with
  | none => n.int.val ≠ []
  | some x => x.digits.val ≠ [] ∧ ∀ e ∈ x.exponent, e.digits.val ≠ []

def IsNumber (w : List UInt8) : Prop := ∃ n : Lexeme, n.Complete ∧ n.text = w

/-- The parts of a number that are there in a state of the number branch. -/
def Lexeme.At (n : Lexeme) : CoState → Prop
  | .numberSign => n.fraction = none ∧ n.int.val = []
  | .numberInt => n.fraction = none ∧ n.int.val ≠ []
  | .numberPoint => ∃ x, n.fraction = some x ∧ x.exponent = none ∧ x.digits.val = []
  | .numberFrac => ∃ x, n.fraction = some x ∧ x.exponent = none ∧ x.digits.val ≠ []
  | .numberExp => ∃ x e, n.fraction = some x ∧ x.digits.val ≠ [] ∧ x.exponent = some e ∧
      e.sign = .none ∧ e.digits.val = []
  | .numberExpSign => ∃ x e, n.fraction = some x ∧ x.digits.val ≠ [] ∧ x.exponent = some e ∧
      e.sign ≠ .none ∧ e.digits.val = []
  | .numberExpDigit => ∃ x e, n.fraction = some x ∧ x.digits.val ≠ [] ∧ x.exponent = some e ∧
      e.digits.val ≠ []
  | _ => False

/-- The states behind a digit. -/
def CoState.mayEnd : CoState → Bool
  | numberInt | numberFrac | numberExpDigit => true
  | _ => false

/-- The character is not what a sign, a point or an exponent marker needs behind it. -/
def Json.dangles (jsn : Json) (ch : UInt8) : Bool :=
  jsn.final = .ok && match jsn.state with
    | .numberSign => !(isdigit ch || ch = '.')
    | .numberPoint | .numberExpSign => !isdigit ch
    | .numberExp => !(isdigit ch || ch = '+' || ch = '-')
    | _ => false

/-! ## One more character -/

def Digits.snoc (ds : Digits) (c : UInt8) (hc : isdigit c = true) : Digits :=
  ⟨ds.val ++ [c], by
    intro d hd
    rcases List.mem_append.mp hd with hd | hd
    · exact ds.property d hd
    · obtain rfl := List.mem_singleton.mp hd
      exact hc⟩

theorem Digits.snoc_ne_nil {ds : Digits} {c : UInt8} (hc : isdigit c = true) :
    (ds.snoc c hc).val ≠ [] := List.append_ne_nil_of_right_ne_nil _ (List.cons_ne_nil c [])

def noDigits : Digits := ⟨[], fun _ h => (List.not_mem_nil h).elim⟩

def Lexeme.fractional (sign : Sign) (int : Digits) (x : Fraction) : Lexeme :=
  ⟨sign, int, some x, .inr (.inr (Option.some_ne_none x))⟩

theorem exists_sign {ch : UInt8} (h : ch = '+' ∨ ch = '-') :
    ∃ sign : Sign, sign ≠ .none ∧ sign.text = [ch] := by
  rcases h with rfl | rfl
  · exact ⟨.plus, by decide, rfl⟩
  · exact ⟨.minus, by decide, rfl⟩

theorem exists_marker {ch : UInt8} (h : ch = 'e' ∨ ch = 'E') :
    ∃ upper : Bool, (if upper then ('E' : UInt8) else 'e') = ch := by
  rcases h with rfl | rfl
  · exact ⟨false, rfl⟩
  · exact ⟨true, rfl⟩

/-- The first character of a number. -/
theorem at_of_opens {state : CoState} {ch : UInt8} (h : state.Opens ch) :
    ∃ n : Lexeme, n.At state ∧ n.text = [ch] := by
  rcases h with ⟨rfl, hsign⟩ | ⟨rfl, hdigit⟩ | ⟨rfl, rfl⟩
  · obtain ⟨sign, hne, htext⟩ := exists_sign hsign
    refine ⟨⟨sign, noDigits, none, .inl hne⟩, ⟨rfl, rfl⟩, ?_⟩
    rw [Lexeme.text, htext]
    rfl
  · exact ⟨⟨.none, noDigits.snoc ch hdigit, none, .inr (.inl (Digits.snoc_ne_nil hdigit))⟩,
      ⟨rfl, Digits.snoc_ne_nil hdigit⟩, rfl⟩
  · exact ⟨.fractional .none noDigits ⟨noDigits, none⟩, ⟨_, rfl, rfl, rfl⟩, rfl⟩

section
variable {n : Lexeme} {state : CoState} {ch : UInt8}

theorem at_digit (h : n.At state) (hdigit : isdigit ch = true) :
    ∃ n' : Lexeme, n'.At (state.goesOn ch) ∧ n'.text = n.text ++ [ch] := by
  obtain ⟨sign, int, fraction, hne⟩ := n
  cases state with
  | numberSign | numberInt =>
    obtain ⟨rfl, _⟩ := h
    rw [CoState.goesOn, if_pos hdigit]
    refine ⟨⟨sign, int.snoc ch hdigit, none, .inr (.inl (Digits.snoc_ne_nil hdigit))⟩,
      ⟨rfl, Digits.snoc_ne_nil hdigit⟩, ?_⟩
    simp [Lexeme.text, Digits.snoc]
  | numberPoint | numberFrac =>
    obtain ⟨⟨digits, exponent⟩, rfl, rfl, _⟩ := h
    rw [CoState.goesOn, if_pos hdigit]
    refine ⟨.fractional sign int ⟨digits.snoc ch hdigit, none⟩,
      ⟨_, rfl, rfl, Digits.snoc_ne_nil hdigit⟩, ?_⟩
    simp [Lexeme.fractional, Lexeme.text, Fraction.text, Digits.snoc]
  | numberExp | numberExpSign | numberExpDigit =>
    obtain ⟨⟨digits, _⟩, ⟨upper, esign, edigits⟩, rfl, hdigits, rfl, _⟩ := h
    simp only [CoState.goesOn, if_pos hdigit]
    refine ⟨.fractional sign int ⟨digits, some ⟨upper, esign, edigits.snoc ch hdigit⟩⟩,
      ⟨_, _, rfl, hdigits, rfl, Digits.snoc_ne_nil hdigit⟩, ?_⟩
    simp [Lexeme.fractional, Lexeme.text, Fraction.text, Exponent.text, Digits.snoc]
  | _ => cases h

/-- A character that goes on with a number, and has behind it what it needs. -/
theorem at_continues {jsn : Json} (hfinal : jsn.final = .ok) (h : n.At jsn.state)
    (hgoes : jsn.continues ch = true) (hright : jsn.dangles ch = false) :
    ∃ n' : Lexeme, n'.At (jsn.state.goesOn ch) ∧ n'.text = n.text ++ [ch] := by
  cases hdigit : isdigit ch with
  | true => exact at_digit h hdigit
  | false =>
    obtain ⟨sign, int, fraction, hne⟩ := n
    cases hstate : jsn.state with
    | numberSign | numberInt =>
      rw [hstate] at h
      obtain ⟨rfl, _⟩ := h
      obtain rfl : ch = '.' := by simpa [Json.continues, hstate, hdigit] using hgoes
      refine ⟨.fractional sign int ⟨noDigits, none⟩, ⟨_, rfl, rfl, rfl⟩, ?_⟩
      simp [Lexeme.fractional, Lexeme.text, Fraction.text, noDigits]
    | numberPoint => simp [Json.dangles, hfinal, hstate, hdigit] at hright
    | numberFrac =>
      rw [hstate] at h
      obtain ⟨⟨digits, exponent⟩, rfl, rfl, hdigits⟩ := h
      obtain ⟨upper, hupper⟩ : ∃ upper : Bool, (if upper then ('E' : UInt8) else 'e') = ch :=
        exists_marker (by simpa [Json.continues, hstate, hdigit] using hgoes)
      rw [CoState.goesOn, hdigit]
      refine ⟨.fractional sign int ⟨digits, some ⟨upper, .none, noDigits⟩⟩,
        ⟨_, _, rfl, hdigits, rfl, rfl, rfl⟩, ?_⟩
      simp only [Lexeme.fractional, Lexeme.text, Fraction.text, Exponent.text, Sign.text, noDigits,
        Option.elim, List.append_assoc, List.cons_append, List.append_nil, hupper]
    | numberExp =>
      rw [hstate] at h
      obtain ⟨⟨digits, _⟩, ⟨upper, _, edigits⟩, rfl, hdigits, rfl, rfl, hempty⟩ := h
      obtain ⟨esign, hsign, htext⟩ : ∃ sign : Sign, sign ≠ .none ∧ sign.text = [ch] :=
        exists_sign (by simpa [Json.continues, hstate, hdigit] using hgoes)
      rw [CoState.goesOn, hdigit]
      refine ⟨.fractional sign int ⟨digits, some ⟨upper, esign, edigits⟩⟩,
        ⟨_, _, rfl, hdigits, rfl, hsign, hempty⟩, ?_⟩
      have hempty : edigits.val = [] := hempty
      have hnone : Sign.none.text = [] := rfl
      simp only [Lexeme.fractional, Lexeme.text, Fraction.text, Exponent.text, Option.elim,
        List.append_assoc, List.cons_append, List.append_nil, List.nil_append, htext, hnone, hempty]
    | numberExpSign | numberExpDigit => simp [Json.continues, hstate, hdigit] at hgoes
    | _ =>
      rw [hstate] at h
      cases h

/-! ## What the text needs -/

theorem complete_of_at (h : n.At state) (hend : state.mayEnd = true) : n.Complete := by
  rw [Lexeme.Complete]
  cases state with
  | numberInt =>
    obtain ⟨hfraction, hint⟩ := h
    rw [hfraction]
    exact hint
  | numberFrac =>
    obtain ⟨x, hfraction, hexponent, hdigits⟩ := h
    rw [hfraction]
    refine ⟨hdigits, fun e he => ?_⟩
    rw [hexponent] at he
    cases he
  | numberExpDigit =>
    obtain ⟨x, e, hfraction, hdigits, hexponent, hedigits⟩ := h
    rw [hfraction]
    refine ⟨hdigits, fun e' he => ?_⟩
    obtain rfl : e = e' := Option.some.inj (hexponent.symm.trans he)
    exact hedigits
  | _ => cases hend

theorem mayEnd_goesOn (h : n.At state) (hdigit : isdigit ch = true) :
    (state.goesOn ch).mayEnd = true := by
  cases state with
  | numberSign | numberInt | numberPoint | numberFrac | numberExp =>
    rw [CoState.goesOn, if_pos hdigit]
    rfl
  | numberExpSign | numberExpDigit => rfl
  | _ => cases h

theorem isNumber_digit (h : n.At state) (hdigit : isdigit ch = true) :
    IsNumber (n.text ++ [ch]) := by
  obtain ⟨n', hat, htext⟩ := at_digit h hdigit
  exact ⟨n', complete_of_at hat (mayEnd_goesOn h hdigit), htext⟩

theorem IsNumber.ends {w : List UInt8} (h : IsNumber w) :
    ∃ (u : List UInt8) (ds : Digits), ds.val ≠ [] ∧ w = u ++ ds.val := by
  obtain ⟨⟨sign, int, fraction, _⟩, hcomplete, rfl⟩ := h
  cases fraction with
  | none => exact ⟨sign.text, int, hcomplete, by simp [Lexeme.text]⟩
  | some x =>
    obtain ⟨digits, exponent⟩ := x
    obtain ⟨hdigits, hexponent⟩ := hcomplete
    cases exponent with
    | none =>
      exact ⟨sign.text ++ (int.val ++ [('.' : UInt8)]), digits, hdigits,
        by simp [Lexeme.text, Fraction.text]⟩
    | some e =>
      have hmarker : e.text = ((if e.upper then ('E' : UInt8) else 'e') :: e.sign.text) ++
          e.digits.val := rfl
      exact ⟨_, e.digits, hexponent e rfl, by
        rw [Lexeme.text, Option.elim, Fraction.text, Option.elim, hmarker, ← List.append_assoc,
          ← List.append_assoc, ← List.cons_append, ← List.append_assoc]⟩

/-- A number ends in a digit. -/
theorem not_isNumber {u : List UInt8} {c : UInt8} (hc : isdigit c = false) :
    ¬IsNumber (u ++ [c]) := by
  intro h
  obtain ⟨v, ds, hds, hw⟩ := h.ends
  have hlast : c = ds.val.getLast hds := by
    have hget := congrArg List.getLast? hw
    rw [List.getLast?_concat, List.getLast?_append_of_ne_nil _ hds,
      List.getLast?_eq_getLast_of_ne_nil hds] at hget
    exact Option.some.inj hget
  have hdigit := ds.property _ (List.getLast_mem hds)
  rw [← hlast, hc] at hdigit
  cases hdigit

theorem not_isNumber_of_at (h : n.At state) (hend : state.mayEnd = false) : ¬IsNumber n.text := by
  obtain ⟨sign, int, fraction, hne⟩ := n
  cases state with
  | numberSign =>
    obtain ⟨rfl, hint⟩ := h
    have hint : int.val = [] := hint
    rw [Lexeme.text, hint]
    cases sign with
    | none => exact absurd hint (by simpa using hne)
    | plus | minus => exact not_isNumber (u := []) rfl
  | numberPoint =>
    obtain ⟨⟨digits, _⟩, rfl, rfl, hdigits⟩ := h
    have hdigits : digits.val = [] := hdigits
    rw [Lexeme.text, Option.elim, Fraction.text, hdigits, ← List.append_assoc]
    exact not_isNumber rfl
  | numberExp =>
    obtain ⟨⟨digits, _⟩, ⟨upper, _, edigits⟩, rfl, _, rfl, rfl, hedigits⟩ := h
    have hedigits : edigits.val = [] := hedigits
    have htext : Exponent.text ⟨upper, .none, edigits⟩ = [if upper then ('E' : UInt8) else 'e'] := by
      rw [Exponent.text, hedigits]
      rfl
    rw [Lexeme.text, Option.elim, Fraction.text, Option.elim, htext, ← List.append_assoc,
      ← List.cons_append, ← List.append_assoc]
    exact not_isNumber (by cases upper <;> rfl)
  | numberExpSign =>
    obtain ⟨⟨digits, _⟩, ⟨upper, esign, edigits⟩, rfl, _, rfl, hsign, hedigits⟩ := h
    have hedigits : edigits.val = [] := hedigits
    obtain ⟨c, hc, hc'⟩ : ∃ c, isdigit c = false ∧ esign.text = [c] := by
      cases esign with
      | none => exact absurd rfl hsign
      | plus | minus => exact ⟨_, rfl, rfl⟩
    have htext : Exponent.text ⟨upper, esign, edigits⟩ =
        [if upper then ('E' : UInt8) else 'e'] ++ [c] := by
      rw [Exponent.text, hedigits, List.append_nil, hc']
      rfl
    rw [Lexeme.text, Option.elim, Fraction.text, Option.elim, htext, ← List.append_assoc,
      ← List.append_assoc, ← List.cons_append, ← List.append_assoc]
    exact not_isNumber hc
  | numberInt | numberFrac | numberExpDigit => cases hend
  | _ => cases h

/-- What follows the sign and the digits before the point. -/
theorem dropWhile_text (n : Lexeme) :
    n.text.dropWhile (· ≠ ('.' : UInt8)) = n.fraction.elim [] Fraction.text := by
  have hhead : ∀ c ∈ n.sign.text ++ n.int.val, decide (c ≠ ('.' : UInt8)) = true := by
    intro c hc
    apply decide_eq_true
    rintro rfl
    rcases List.mem_append.mp hc with hc | hc
    · revert hc
      cases n.sign <;> decide
    · exact absurd (n.int.property _ hc) (by decide)
  rw [Lexeme.text, ← List.append_assoc, List.dropWhile_append_of_pos hhead]
  cases n.fraction with
  | none => rfl
  | some x => exact List.dropWhile_cons_of_neg (by simp)

/-- Behind a point without digits a number cannot be had any more. -/
theorem not_isNumber_point (h : n.At .numberPoint) (hch : isdigit ch = false) (w : List UInt8) :
    ¬IsNumber (n.text ++ ch :: w) := by
  rintro ⟨m, hcomplete, htext⟩
  obtain ⟨x, hfraction, hexponent, hdigits⟩ := h
  have hdrop : m.text.dropWhile (· ≠ ('.' : UInt8)) = ('.' : UInt8) :: ch :: w := by
    have hn := dropWhile_text n
    rw [hfraction, Option.elim, Fraction.text, hexponent, hdigits] at hn
    rw [htext, List.dropWhile_append, hn]
    rfl
  rw [dropWhile_text] at hdrop
  rw [Lexeme.Complete] at hcomplete
  cases hm : m.fraction with
  | none =>
    rw [hm] at hdrop
    cases hdrop
  | some y =>
    rw [hm] at hdrop hcomplete
    obtain ⟨d, ds, hds⟩ := List.exists_cons_of_ne_nil hcomplete.1
    rw [Option.elim, Fraction.text, hds] at hdrop
    obtain ⟨rfl, _⟩ := List.cons.inj (List.cons.inj hdrop).2
    have hdigit := y.digits.property d (by rw [hds]; exact List.mem_cons_self)
    rw [hch] at hdigit
    cases hdigit

end

/-! ## The number that is being read -/

/-- The token shows which parts of its number are there. -/
structure NumberInv (x : Json × List UInt8) : Prop where
  buffer : BufferInv x
  spelled : x.1.collecting = true → x.1.state.inNumber = true →
    ∃ n : Lexeme, n.At x.1.state ∧ n.text = x.2

/-- A delivered number has one of the two forms, and a character after which none
can be had any more is an error. -/
structure NumberRight (x : Json × List UInt8) (ch : UInt8) : Prop where
  form : (jsonParse x.1 ch).2 = .number →
    ∃ text, (jsonParse x.1 ch).1.buffer.contents = text ++ [0] ∧ IsNumber text
  rejects : x.1.collecting = true → x.1.state.inNumber = true → ¬IsNumber x.2 →
    (∀ w, ¬IsNumber (x.2 ++ ch :: w)) → (jsonParse x.1 ch).2 = .error

theorem numberInv_init {jsn : Json} (hwf : jsn.buffer.WellFormed) : NumberInv (jsonInit jsn, []) :=
  ⟨bufferInv_init hwf, fun h => nomatch h⟩

section
variable {x : Json × List UInt8} {ch : UInt8}

/-- Either the character takes the number on, or the number may end before it. -/
theorem of_not_dangles {jsn : Json} (hfinal : jsn.final = .ok) (hin : jsn.state.inNumber = true)
    (h : jsn.dangles ch = false) : jsn.continues ch = true ∨ jsn.state.mayEnd = true := by
  rw [Json.dangles, hfinal] at h
  rw [Json.continues]
  cases hstate : jsn.state with
  | numberInt | numberFrac | numberExpDigit => exact .inr rfl
  | numberSign | numberPoint | numberExp | numberExpSign =>
    simp only [hstate, decide_true, Bool.true_and, Bool.not_eq_false'] at h
    exact .inl (by simp only [h, Bool.true_or])
  | _ =>
    rw [hstate] at hin
    cases hin

theorem of_dangles {jsn : Json} (h : jsn.dangles ch = true) :
    jsn.collecting = true ∧ jsn.state.inNumber = true ∧ jsn.state.mayEnd = false ∧
      (jsn.continues ch = true → jsn.state = .numberPoint ∧ isdigit ch = false) := by
  rw [Json.dangles] at h
  obtain ⟨hfinal, hneeds⟩ := Bool.and_eq_true_iff.mp h
  rw [Json.collecting, hfinal, Json.continues]
  cases hstate : jsn.state with
  | numberSign | numberPoint | numberExp | numberExpSign =>
    simp only [hstate] at hneeds
    simp_all [CoState.collects, CoState.inNumber, CoState.mayEnd]
  | _ =>
    rw [hstate] at hneeds
    cases hneeds

theorem jsonToken_of_continues (hcollecting : x.1.collecting = true)
    (hnext : (jsonParse x.1 ch).1.collecting = true) : (tokenStep x ch).1.2 = x.2 ++ [ch] := by
  rw [tokenStep, jsonToken, if_neg (not_not.mpr hnext), if_pos hcollecting]

theorem inNumber_of_goesOn {state : CoState} (h : (state.goesOn ch).inNumber = true) :
    state.inNumber = true := by
  cases state <;> first | rfl | cases h

theorem numberInv_step (h : NumberInv x) (hright : x.1.dangles ch = false) :
    NumberInv (tokenStep x ch).1 := by
  refine ⟨bufferInv_step x ch h.buffer, fun hnext hin => ?_⟩
  have hcall := bufferStep_of_inv h.buffer ch
  cases hcollecting : x.1.collecting with
  | false =>
    have htoken : (tokenStep x ch).1.2 =
        if (jsonParse x.1 ch).1.state = .quote then [] else [ch] := by
      have hnext : (jsonParse x.1 ch).1.collecting = true := hnext
      rw [tokenStep, jsonToken, if_neg (not_not.mpr hnext), hcollecting, if_neg Bool.false_ne_true]
    rcases hcall.starts hcollecting hnext with hquote | hopens
    · have hin : (jsonParse x.1 ch).1.state.inNumber = true := hin
      rw [hquote] at hin
      cases hin
    · obtain ⟨n, hat, htext⟩ := at_of_opens hopens
      refine ⟨n, hat, ?_⟩
      rw [htext, htoken, if_neg]
      intro hquote
      rw [hquote] at hat
      cases hat
  | true =>
    cases hgoes : x.1.continues ch with
    | false =>
      have hcode := (closes_iff h.buffer ch).mp ⟨hcollecting, hgoes⟩
      rw [tokenStep, (hcall.delivered hcode).2.1] at hnext
      cases hnext
    | true =>
      have hparse := parse_of_continues hcollecting hgoes
      have hstate : (tokenStep x ch).1.1.state = x.1.state.goesOn ch := by
        rw [tokenStep, hparse]
        rfl
      rw [hstate] at hin ⊢
      obtain ⟨n, hat, htext⟩ := h.spelled hcollecting (inNumber_of_goesOn hin)
      rw [jsonToken_of_continues hcollecting hnext, ← htext]
      exact at_continues (final_of_collecting hcollecting) hat hgoes hright

theorem numberRight_iff (h : NumberInv x) (hfits : TokenFits x ch) :
    NumberRight x ch ↔ x.1.dangles ch = false := by
  constructor
  · rintro ⟨hform, hrejects⟩
    rw [Bool.eq_false_iff]
    intro hdangles
    obtain ⟨hcollecting, hin, hneeds, hpoint⟩ := of_dangles hdangles
    obtain ⟨n, hat, htext⟩ := h.spelled hcollecting hin
    have hnot : ¬IsNumber x.2 := htext ▸ not_isNumber_of_at hat hneeds
    cases hgoes : x.1.continues ch with
    | false =>
      have hcode : (jsonParse x.1 ch).2 = .number := by
        rw [code_of_closes ⟨hcollecting, hgoes⟩, if_pos hin]
      obtain ⟨text, hcontents, hnumber⟩ := hform hcode
      rw [delivered_contents h.buffer hfits (.inr hcode)] at hcontents
      rw [List.append_cancel_right hcontents] at hnot
      exact hnot hnumber
    | true =>
      obtain ⟨hstate, hdigit⟩ := hpoint hgoes
      rw [hstate] at hat
      have herror := hrejects hcollecting hin hnot (htext ▸ not_isNumber_point hat hdigit)
      rw [parse_of_continues hcollecting hgoes] at herror
      cases herror
  · intro hright
    constructor
    · intro hcode
      have hcloses : x.1.Closes ch := (closes_iff h.buffer ch).mpr (.inr hcode)
      have hin : x.1.state.inNumber = true := by
        rw [code_of_closes hcloses] at hcode
        exact by_contra fun hin => by simp [hin] at hcode
      obtain ⟨n, hat, htext⟩ := h.spelled hcloses.1 hin
      refine ⟨x.2, delivered_contents h.buffer hfits (.inr hcode), ?_⟩
      rcases of_not_dangles (final_of_collecting hcloses.1) hin hright with hgoes | hend
      · rw [hcloses.2] at hgoes
        cases hgoes
      · exact ⟨n, complete_of_at hat hend, htext⟩
    · intro hcollecting hin hnot hnone
      have hfinal := final_of_collecting hcollecting
      obtain ⟨n, hat, htext⟩ := h.spelled hcollecting hin
      rcases of_not_dangles hfinal hin hright with hgoes | hend
      · obtain ⟨n', hat', htext'⟩ := at_continues hfinal hat hgoes hright
        have hdigit : IsNumber (n'.text ++ [('0' : UInt8)]) := isNumber_digit hat' rfl
        rw [htext', htext, List.append_assoc] at hdigit
        exact absurd hdigit (hnone ['0'])
      · exact absurd ⟨n, complete_of_at hat hend, htext⟩ hnot

end

theorem json_number_iff (jsn : Json) (hwf : jsn.buffer.WellFormed) (w : List UInt8)
    (hfits : Throughout tokenStep TokenFits (jsonInit jsn, []) w) :
    Throughout tokenStep NumberRight (jsonInit jsn, []) w ↔
      Throughout tokenStep (fun x ch => x.1.dangles ch = false) (jsonInit jsn, []) w := by
  refine throughout_iff_within NumberInv ?_ ?_ (numberInv_init hwf) hfits
  · exact fun x ch h hfits => numberRight_iff h hfits
  · exact fun x ch h hfits hright => numberInv_step h ((numberRight_iff h hfits).mp hright)

/-- A parser whose token buffer has sixteen bytes. -/
def sixteenBytes : Json := ⟨bufferInit (Block.ofCells (List.replicate 16 0)) 16, .reset, [], .ok⟩

theorem wellFormed_sixteenBytes : sixteenBytes.buffer.WellFormed :=
  bufferInit_wellFormed (by decide) rfl

theorem json_number_signed_exponent :
    Throughout tokenStep NumberRight (jsonInit sixteenBytes, [])
      ['[', '-', '.', '5', 'e', '+', '3', ']'] := by
  have hfits : Throughout tokenStep TokenFits (jsonInit sixteenBytes, [])
      ['[', '-', '.', '5', 'e', '+', '3', ']'] :=
    tokenFits_of_length wellFormed_sixteenBytes (by decide)
  apply (json_number_iff sixteenBytes wellFormed_sixteenBytes _ hfits).mpr
  decide

/-- A lone sign is delivered as a number. -/
theorem json_number_lone_sign :
    Throughout tokenStep TokenFits (jsonInit sixteenBytes, []) ['[', '-', ']'] ∧
      ¬Throughout tokenStep NumberRight (jsonInit sixteenBytes, []) ['[', '-', ']'] := by
  refine ⟨by decide, ?_⟩
  rintro ⟨_, _, ⟨hform, _⟩, _⟩
  obtain ⟨text, hcontents, hnumber⟩ := hform (by decide)
  have hcontents : [('-' : UInt8), 0] = text ++ [0] := Eq.trans (by decide) hcontents
  obtain rfl : [('-' : UInt8)] = text := List.append_cancel_right hcontents
  exact not_isNumber (u := []) rfl hnumber

end Wifimodem
