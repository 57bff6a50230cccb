import Wifimodem.Util.JsonReading

/-!
# The tokens with their texts

A document is delivered as the tokens of its value, and at each string, number and boolean
`json_str` points to its text.
-/

namespace Wifimodem

open Json Control

/-- One call, and what a consumer has after it. -/
def jsonHear (jsn : Json) (ch : UInt8) : Json × JsonToken :=
  ((jsonParse jsn ch).1, ⟨(jsonParse jsn ch).2, (jsonParse jsn ch).1.str⟩)

/-- The tokens that a consumer is called with, up to the end of the document. -/
def heard : List JsonToken → List JsonToken
  | [] => []
  | tok :: toks =>
    if tok.code = .done then []
    else if tok.code = .ok then heard toks
    else tok :: heard toks

theorem heard_cons (tok : JsonToken) (toks : List JsonToken) :
    heard (tok :: toks) =
      if tok.code = .done then [] else if tok.code = .ok then heard toks else tok :: heard toks :=
  rfl

/-! ## The whole document -/

/-- A token and what the reading has at its place. -/
structure Told (cap : Nat) (tok : JsonToken) (text : Option (List UInt8)) : Prop where
  code : tok.code.carriesText = text.isSome
  str : ∀ s ∈ text, s.length < cap → tok.str = s
  done : tok.code ≠ .done

/-- Along a word at whose end the parser stops, by induction on the word. -/
theorem told_ends {w : List UInt8} : ∀ {x : Json × List UInt8} {a : Control}, BufferInv x →
    x.1.buffer.pos = 0 → Shows x.1 a → Ends a w →
    List.Forall₂ (Told x.1.buffer.cap) (Transducer.outputs jsonHear x.1 w)
      (Transducer.outputs Reading.step (x.1.state.reading x.2) w) := by
  induction w with
  | nil => exact fun _ _ _ _ => .nil
  | cons ch w ih =>
    intro x a h hpos hshows hends
    cases a with
    | halted code => exact absurd (ends_halted.mp hends).2 (List.cons_ne_nil _ _)
    | running mode stack =>
      obtain ⟨hshows', -⟩ := shows_step hshows ch
      rw [Ends] at hends
      cases hcontrol : (Control.step (.running mode stack) ch).1 with
      | halted code =>
        rw [hcontrol] at hshows' hends
        obtain ⟨rfl, rfl⟩ := ends_halted.mp hends
        have htells := tells h hpos hshows (hshows'.1.trans_ne (by decide))
        exact .cons ⟨htells.code, htells.text, htells.done⟩ .nil
      | running mode' stack' =>
        rw [hcontrol] at hshows' hends
        have htells := tells h hpos hshows (hshows'.1.trans_ne (by decide))
        have hrest := ih (bufferInv_step x ch h) (pos_step hpos ch) hshows' hends
        rw [cap_step h] at hrest
        simp only [tokenStep, htells.next hshows'.1] at hrest
        exact .cons ⟨htells.code, htells.text, htells.done⟩ hrest

section
variable {cap : Nat} {toks : List JsonToken} {texts : List (Option (List UInt8))}

theorem told_done (h : List.Forall₂ (Told cap) toks texts) : ∀ tok ∈ toks, tok.code ≠ .done := by
  induction h with
  | nil => exact nofun
  | cons htold _ ih => exact List.forall_mem_cons.mpr ⟨htold.done, ih⟩

theorem heard_append (h : ∀ tok ∈ toks, tok.code ≠ .done) (toks' : List JsonToken) :
    heard (toks ++ toks') = heard toks ++ heard toks' := by
  induction toks with
  | nil => rfl
  | cons tok toks ih =>
    have hrest := ih (List.forall_mem_cons.mp h).2
    rw [List.cons_append, heard_cons, heard_cons, if_neg (h tok List.mem_cons_self),
      if_neg (h tok List.mem_cons_self), hrest]
    split <;> rfl

theorem heard_codes (toks : List JsonToken) :
    (heard toks).map JsonToken.code = delivered (toks.map JsonToken.code) := by
  induction toks with
  | nil => rfl
  | cons tok toks ih =>
    rw [heard_cons, List.map_cons]
    split
    · rename_i hdone
      rw [hdone]
      rfl
    split
    · rename_i hok
      rw [hok]
      exact ih
    · rename_i hdone hok
      rw [delivered_token hdone hok, List.map_cons, ih]

/-- What a consumer has is what the reading has, as far as the tokens have texts. -/
theorem heard_texts (h : List.Forall₂ (Told cap) toks texts)
    (hfits : ∀ s ∈ texts.reduceOption, s.length < cap) :
    ((heard toks).filter (·.code.carriesText)).map JsonToken.str = texts.reduceOption := by
  induction h with
  | nil => rfl
  | @cons tok text toks texts htold _ ih =>
    obtain ⟨hcode, hstr, hdone⟩ := htold
    rw [heard_cons, if_neg hdone]
    cases text with
    | none =>
      have hrest := ih hfits
      split
      · exact hrest
      · rw [List.filter_cons_of_neg (by simp [hcode])]
        exact hrest
    | some s =>
      rw [List.reduceOption_cons_of_some] at hfits ⊢
      obtain ⟨hs, hrest⟩ := List.forall_mem_cons.mp hfits
      have hok : tok.code ≠ .ok := by
        intro hok
        rw [hok] at hcode
        cases hcode
      rw [if_neg hok, List.filter_cons_of_pos (by simp [hcode]), List.map_cons,
        hstr s rfl hs, ih hrest]

end

/-- The codes of the entries, each with a text when it is to have one. -/
structure Coded (stream : List (JsonCode × Option (List UInt8))) (codes : List JsonCode) :
    Prop where
  codes : stream.map Prod.fst = codes
  carries : ∀ x ∈ stream, x.1.carriesText = x.2.isSome

namespace Coded

variable {stream stream' : List (JsonCode × Option (List UInt8))} {codes codes' : List JsonCode}

theorem nil : Coded [] [] := ⟨rfl, nofun⟩

theorem append (h : Coded stream codes) (h' : Coded stream' codes') :
    Coded (stream ++ stream') (codes ++ codes') := by
  constructor
  · rw [List.map_append, h.codes, h'.codes]
  · exact List.forall_mem_append.mpr ⟨h.carries, h'.carries⟩

theorem cons {code : JsonCode} {text : Option (List UInt8)} (hcode : code.carriesText = text.isSome)
    (h : Coded stream codes) : Coded ((code, text) :: stream) (code :: codes) := by
  constructor
  · rw [List.map_cons, h.codes]
  · exact List.forall_mem_cons.mpr ⟨hcode, h.carries⟩

end Coded

mutual

theorem coded : (v : Value) → Coded v.stream v.tokens
  | .null => .cons rfl .nil
  | .bool _ => .cons rfl .nil
  | .number _ => .cons rfl .nil
  | .string _ => .cons rfl .nil
  | .array vs => by
    rw [Value.stream_array, Value.tokens]
    exact .cons rfl ((coded_array vs).append (.cons rfl .nil))
  | .object ms => by
    rw [Value.stream_object, Value.tokens]
    exact .cons rfl ((coded_object ms).append (.cons rfl .nil))

theorem coded_array : (vs : List Value) → Coded (Value.arrayStream vs) (Value.arrayTokens vs)
  | [] => .nil
  | v :: vs => by
    rw [Value.arrayStream_cons, Value.arrayTokens]
    exact (coded v).append (coded_array vs)

theorem coded_object : (ms : List (Text × Value)) →
    Coded (Value.objectStream ms) (Value.objectTokens ms)
  | [] => .nil
  | m :: ms => by
    rw [Value.objectStream_cons, Value.objectTokens]
    exact (coded_member m).append (coded_object ms)

theorem coded_member : (m : Text × Value) → Coded (Value.memberStream m) (Value.memberTokens m)
  | (key, v) => by
    rw [Value.memberStream, Value.memberTokens]
    exact .cons rfl (.cons rfl (.cons rfl (coded v)))

end

/-- Tokens with the right codes, and the right texts where there are texts. -/
theorem spells_of_texts {stream : List (JsonCode × Option (List UInt8))} {codes : List JsonCode}
    (h : Coded stream codes) {toks : List JsonToken} (hcodes : toks.map JsonToken.code = codes)
    (htexts : (toks.filter (·.code.carriesText)).map JsonToken.str = streamTexts stream) :
    Spells stream toks := by
  obtain ⟨rfl, hstream⟩ := h
  induction stream generalizing toks with
  | nil =>
    obtain rfl := List.map_eq_nil_iff.mp hcodes
    exact List.Forall₂.nil
  | cons x stream ih =>
    obtain ⟨code, text⟩ := x
    obtain ⟨hx, hrest⟩ := List.forall_mem_cons.mp hstream
    cases toks with
    | nil => cases hcodes
    | cons tok toks =>
      obtain ⟨rfl, hcodes'⟩ := List.cons.inj hcodes
      cases text with
      | none =>
        rw [List.filter_cons_of_neg (by simp [hx])] at htexts
        exact List.Forall₂.cons ⟨rfl, nofun⟩ (ih htexts hrest hcodes')
      | some s =>
        rw [List.filter_cons_of_pos (by simp [hx]), List.map_cons] at htexts
        obtain ⟨rfl, htexts'⟩ := List.cons.inj htexts
        exact List.Forall₂.cons ⟨rfl, fun _ h => Option.some.inj h⟩ (ih htexts' hrest hcodes')

/-! ## Layouts -/

theorem outputs_codes (jsn : Json) (w : List UInt8) :
    (Transducer.outputs jsonHear jsn w).map JsonToken.code =
      Transducer.outputs jsonParse jsn w := by
  induction w generalizing jsn with
  | nil => rfl
  | cons ch w ih => exact congrArg _ (ih (jsonParse jsn ch).1)

theorem run_hear (jsn : Json) (w : List UInt8) :
    Transducer.run jsonHear jsn w = Transducer.run jsonParse jsn w := by
  rw [Transducer.run_eq_foldl, Transducer.run_eq_foldl]
  rfl

/-- The document ends in front of what is left of the blanks behind it. -/
theorem ends_layout (d : Doc) (hdepth : d.value.depth ≤ 9) (before after : Space)
    (hafter : after.val ≠ []) :
    ∃ u v, before.val ++ (d.text ++ after.val) = u ++ v ∧ Ends (.running .value []) u ∧
      Reading.texts .outside u = streamTexts d.value.stream ∧
      delivered (Transducer.outputs Control.step (.running .value []) u) =
        d.heard ++ d.pending := by
  obtain ⟨a, ha, hfeeds⟩ := feeds_doc d [] (by rw [jsonStackSize, List.length_nil]; omega)
  have hall := fun r => (((feeds_space .value trivial [] before).append hfeeds) r).2
  rw [Doc.Settled] at ha
  cases hnum : d.isNumber with
  | true =>
    rw [hnum, if_pos rfl] at ha
    obtain ⟨mode, hmode, rfl⟩ := ha
    obtain ⟨w, hw⟩ := after
    cases w with
    | nil => exact absurd rfl hafter
    | cons c w =>
      have hc := hw c List.mem_cons_self
      obtain ⟨hcodes, hends⟩ := hall [c]
      have hend : Ends (.running mode []) [c] := by
        rw [Ends, step_delimiter hmode [] (.inl hc)]
        exact ends_nil.mpr rfl
      refine ⟨before.val ++ d.text ++ [c], w, by simp, hends hend, ?_, ?_⟩
      · rw [List.append_assoc, Reading.texts_space,
          Reading.texts_doc d fun _ => Reading.delimited_cons (.inl hc) [],
          Reading.texts_cons (Reading.plain_of_delimiter (.inl hc))]
        exact List.append_nil _
      · rw [hcodes, Doc.pending, hnum, Transducer.outputs_cons,
          step_delimiter hmode [] (.inl hc)]
        rfl
  | false =>
    rw [hnum, if_neg Bool.false_ne_true] at ha
    subst ha
    obtain ⟨hcodes, hends⟩ := hall []
    rw [List.append_nil] at hcodes hends
    refine ⟨before.val ++ d.text, after.val, by simp, hends (ends_nil.mpr rfl), ?_, ?_⟩
    · have htexts := Reading.texts_doc d (w := []) (by simp [hnum])
      rw [List.append_nil] at htexts
      rw [Reading.texts_space, htexts]
      exact List.append_nil _
    · rw [hcodes, Doc.pending, hnum]
      rfl

theorem heard_done {jsn : Json} (h : jsn.final = .done) (w : List UInt8) :
    heard (Transducer.outputs jsonHear jsn w) = [] := by
  cases w with
  | nil => rfl
  | cons ch w =>
    have hcode : (jsonParse jsn ch).2 = .done := by
      rw [jsonParse_eq, if_pos (by rw [h]; decide)]
      exact h
    rw [Transducer.outputs_cons, heard_cons]
    exact if_pos hcode

/-- The parser delivers the texts of a document with its tokens, as far as no number in it is
directly in front of a closing bracket and each text fits in the buffer with its zero. -/
theorem spells_layout (jsn : Json) (hwf : jsn.buffer.WellFormed) (hpos : jsn.buffer.pos = 0)
    (d : Doc) (hdepth : d.value.depth ≤ 9) (hclose : d.numberBeforeClose = false)
    (hfits : ∀ s ∈ streamTexts d.value.stream, s.length < jsn.buffer.cap)
    (before after : Space) (hafter : after.val ≠ []) :
    Spells d.value.stream (heard (Transducer.outputs jsonHear (jsonInit jsn)
      (before.val ++ (d.text ++ after.val)))) := by
  obtain ⟨u, v, hw, hends, htexts, hcodes⟩ := ends_layout d hdepth before after hafter
  have hinv : BufferInv (jsonInit jsn, []) := bufferInv_init hwf
  have htold := told_ends hinv hpos (shows_init jsn) hends
  have hdone : (Transducer.run jsonHear (jsonInit jsn) u).final = .done := by
    obtain ⟨_, _, _, _, hfinal⟩ := (finishes_iff jsn u).mpr hends
    rw [run_hear]
    exact hfinal
  rw [hw, Transducer.outputs_append, heard_append (told_done htold), heard_done hdone,
    List.append_nil]
  apply spells_of_texts (coded d.value)
  · rw [heard_codes, outputs_codes, (shows_run jsn u).2, hcodes]
    exact d.heard_eq_iff.mpr hclose
  · rw [← htexts] at hfits ⊢
    exact heard_texts htold hfits

end Wifimodem
