import Wifimodem.Util.JsonHeard
import Wifimodem.Util.Ujson

/-!
# What a consumer takes

Fed with the tokens of a value, a consumer runs what its shape says for that value, up to
the first token that does not fit.
-/

namespace Wifimodem

open Coroutine Ujson

variable {α : Type}

def Shape.head : Shape α → JsonCode
  | .scalar type _ => type.code
  | .array _ => .arrayBegin
  | .object _ _ => .objectBegin

theorem Shape.body_scalar (type : ScalarType) (a : α) :
    (Shape.scalar type a).body = .check type.code :: .run a type.reads :: ujsonAdvance := rfl

theorem Shape.body_array (item : Shape α) : (Shape.array item).body = ujsonArrayIter item.body :=
  rfl

theorem Shape.body_object (emit : Bool) (props : List (List UInt8 × Shape α)) :
    (Shape.object emit props).body = ujsonObjIter emit (propsBody props) := rfl

theorem Shape.of_head_array {shape : Shape α} (h : shape.head = .arrayBegin) :
    ∃ item, shape = .array item := by
  cases shape with
  | scalar type a => cases type <;> cases h
  | array item => exact ⟨item, rfl⟩
  | object emit props => cases h

theorem Shape.of_head_object {shape : Shape α} (h : shape.head = .objectBegin) :
    ∃ emit props, shape = .object emit props := by
  cases shape with
  | scalar type a => cases type <;> cases h
  | array item => cases h
  | object emit props => exact ⟨emit, props, rfl⟩

theorem decode_mismatch {v : Value} {shape : Shape α} (h : v.head ≠ shape.head) :
    v.decode shape = mismatch := by
  cases shape with
  | scalar type a => cases v <;> cases type <;> first | rfl | exact absurd rfl h
  | array item => cases v <;> first | rfl | exact absurd rfl h
  | object emit props => cases v <;> first | rfl | exact absurd rfl h

/-! ## Steps -/

section
variable {k : List (Scope α)} {tok : JsonToken} {toks : List JsonToken} {rest : List (Stmt α)}

theorem runs_check {t : JsonCode} {s' : List (Scope α)} {ts' : List JsonToken}
    {r : Verdict (Effect α)} (ht : tok.code = t)
    (h : Runs step (.block rest :: k) (tok :: toks) r s' ts') :
    Runs step (.block (.check t :: rest) :: k) (tok :: toks) r s' ts' :=
  .goes (if_neg (not_not_intro ht)) h

theorem runs_check_fail {t : JsonCode} (ht : tok.code ≠ t) (s' : List (Scope α))
    (ts' : List JsonToken) :
    Runs step (.block (.check t :: rest) :: k) (tok :: toks) mismatch s' ts' :=
  .fail toks (if_pos ht) s' ts'

theorem runs_expect {t : JsonCode} {s' : List (Scope α)} {ts' : List JsonToken}
    {r : Verdict (Effect α)} (ht : tok.code = t) (h : Runs step (.block rest :: k) toks r s' ts') :
    Runs step (.block (ujsonExpect t ++ rest) :: k) (tok :: toks) r s' ts' :=
  runs_check ht (.pauses rfl h)

/-- `mid` runs `a` in the place where the token has been checked. -/
def RunsScalar (type : ScalarType) (a : α) (mid rest : List (Stmt α)) (k : List (Scope α)) :
    Prop :=
  ∀ tok toks, Runs step (.block (mid ++ rest) :: k) (tok :: toks)
    ⟨[.ran a (if type.reads then some tok.str else none)], true⟩ (.block rest :: k) (tok :: toks)

theorem runsScalar_run (type : ScalarType) (a : α) (rest : List (Stmt α)) (k : List (Scope α)) :
    RunsScalar type a [.run a type.reads] rest k := by
  intro tok toks
  have hstep : step tok (.block (.run a type.reads :: rest) :: k) =
      .go (.block rest :: k) [.ran a (if type.reads then some tok.str else none)] := rfl
  exact .go hstep (.done _ _)

theorem runsScalar_once (type : ScalarType) (a : α) (rest : List (Stmt α)) (k : List (Scope α)) :
    RunsScalar type a [.once [.run a type.reads]] rest k := by
  intro tok toks
  have hinside := runsScalar_run type a [] (.once :: .block rest :: k) tok toks
  have hout : Runs step (.block [] :: .once :: .block rest :: k) (tok :: toks) .skip
      (.block rest :: k) (tok :: toks) := .goes rfl (.goes rfl (.done _ _))
  exact .goes rfl (hinside.andThen hout)

theorem scalar_stream {v : Value} {type : ScalarType} (h : v.head = type.code) (a : α) :
    ∃ text, v.stream = [(type.code, text)] ∧ ∀ tok, Carries (type.code, text) tok →
      v.decode (.scalar type a) =
        ⟨[.ran a (if type.reads then some tok.str else none)], true⟩ := by
  cases v <;> cases type <;> try cases h
  case null => exact ⟨none, rfl, fun _ _ => rfl⟩
  all_goals
    refine ⟨_, rfl, fun tok htok => ?_⟩
    rw [htok.str _ rfl]
    rfl

theorem runs_scalar {type : ScalarType} {a : α} {mid : List (Stmt α)}
    (hmid : RunsScalar type a mid (.yield false :: rest) k) {v : Value} {ts : List JsonToken}
    (htoks : Spells v.stream toks) :
    Runs step (.block (.check type.code :: (mid ++ .yield false :: rest)) :: k) (toks ++ ts)
      (v.decode (.scalar type a)) (.block rest :: k) ts := by
  cases Decidable.em (v.head = type.code) with
  | inl hhead =>
    obtain ⟨text, hstream, hdecode⟩ := scalar_stream hhead a
    rw [hstream] at htoks
    obtain ⟨tok, t, rfl, htok, ht⟩ := htoks.cons
    obtain rfl := ht.nil
    rw [hdecode tok htok]
    have hpause : Runs step (.block (.yield false :: rest) :: k) (tok :: ts) .skip
        (.block rest :: k) ts := .pauses rfl (.done _ _)
    exact runs_check htok.code ((hmid tok ts).andThen hpause)
  | inr hhead =>
    obtain ⟨text, more, hstream⟩ := v.stream_head
    rw [hstream] at htoks
    obtain ⟨tok, t, rfl, htok, -⟩ := htoks.cons
    rw [decode_mismatch hhead]
    exact runs_check_fail (fun hcode => hhead (htok.code.symm.trans hcode)) _ _

/-- A body that starts with the wrong check. -/
theorem runs_mismatch {shape : Shape α} {v : Value} (hhead : v.head ≠ shape.head)
    (htoks : Spells v.stream toks) (s' : List (Scope α)) (ts ts' : List JsonToken) :
    Runs step (.block (.check shape.head :: rest) :: k) (toks ++ ts) (v.decode shape) s' ts' := by
  obtain ⟨text, more, hstream⟩ := v.stream_head
  rw [hstream] at htoks
  obtain ⟨tok, t, rfl, htok, -⟩ := htoks.cons
  rw [decode_mismatch hhead]
  exact runs_check_fail (fun hcode => hhead (htok.code.symm.trans hcode)) _ _

end

/-! ## Values -/

/-- What stands inside `do ... while (0)` for a property. -/
def Shape.propInside : Shape α → List (Stmt α)
  | .scalar type a =>
    .check type.code :: .once [.run a type.reads] :: (ujsonAdvance ++ [.continue_])
  | .array item => ujsonArrayIter item.body
  | .object emit props => ujsonObjIter emit (propsBody props)

theorem propBody_eq (name : List UInt8) (shape : Shape α) :
    Shape.propBody (name, shape) = ujsonObjProp name shape.propInside := by
  cases shape <;> rfl

section
variable {k : List (Scope α)} {toks ts : List JsonToken} {tok : JsonToken}

/-- The consumer of a value, with whatever stands behind it. -/
def Decodes (v : Value) : Prop :=
  ∀ (shape : Shape α) (rest : List (Stmt α)) (k : List (Scope α)) (toks ts : List JsonToken),
    Spells v.stream toks →
      Runs step (.block (shape.body ++ rest) :: k) (toks ++ ts) (v.decode shape)
        (.block rest :: k) ts

/-- Both ways out of the body of a property lead back to the loop. -/
theorem runs_inside {v : Value} (hv : Decodes (α := α) v) (shape : Shape α)
    (rest rest' body : List (Stmt α)) (htoks : Spells v.stream toks) :
    Runs step
      (.block shape.propInside :: .once :: .block (.continue_ :: rest) :: .block rest' ::
        .keys body :: k)
      (toks ++ tok :: ts) (v.decode shape) (.keys body :: k) (tok :: ts) := by
  have hout : Runs step
      (.block [] :: .once :: .block (.continue_ :: rest) :: .block rest' :: .keys body :: k)
      (tok :: ts) .skip (.keys body :: k) (tok :: ts) :=
    .goes rfl (.goes rfl (.goes rfl (.done _ _)))
  have hnested (h : shape.propInside = shape.body) : Runs step
      (.block shape.propInside :: .once :: .block (.continue_ :: rest) :: .block rest' ::
        .keys body :: k)
      (toks ++ tok :: ts) (v.decode shape) (.keys body :: k) (tok :: ts) := by
    rw [h, ← List.append_nil shape.body, ← Verdict.andThen_skip (v.decode shape)]
    exact Runs.andThen (hv shape [] _ toks (tok :: ts) htoks) hout
  cases shape with
  | scalar type a =>
    have hcontinue : Runs step
        (.block [.continue_] :: .once :: .block (.continue_ :: rest) :: .block rest' ::
          .keys body :: k)
        (tok :: ts) .skip (.keys body :: k) (tok :: ts) :=
      .goes rfl (.goes rfl (.done _ _))
    rw [← Verdict.andThen_skip (v.decode (.scalar type a))]
    exact Runs.andThen (runs_scalar (runsScalar_once type a _ _) htoks) hcontinue
  | array item => exact hnested rfl
  | object emit props => exact hnested rfl

/-- The loop over the members, and the check behind it. -/
def keysLoop (props : List (List UInt8 × Shape α)) (rest : List (Stmt α)) (k : List (Scope α)) :
    List (Scope α) :=
  .keys (ujsonAdvance ++ .check .string :: Shape.propsBody props) ::
    .block (.check .objectEnd :: rest) :: k

/-- The properties are tried from the first one on. When none has matched, the loop ends at
a string, where the end of the object is expected. -/
theorem runs_props {key : Text} {v : Value} (hv : Decodes (α := α) v) {name value : JsonToken}
    (hname : Carries (.string, some key.val) name) (hvalue : Carries (.objectValue, none) value)
    (htoks : Spells v.stream toks) (all : List (List UInt8 × Shape α)) (rest : List (Stmt α))
    (props : List (List UInt8 × Shape α)) :
    Runs step (.block (Shape.propsBody props) :: keysLoop all rest k)
      (name :: value :: (toks ++ tok :: ts))
      (match findProp props key.val with
        | some shape => v.decode shape
        | none => mismatch)
      (keysLoop all rest k) (tok :: ts) := by
  have hstr : name.str = key.val := hname.str _ rfl
  induction props with
  | nil =>
    have hstring : name.code ≠ .objectKey := hname.code.trans_ne nofun
    have hend : name.code ≠ .objectEnd := hname.code.trans_ne nofun
    rw [Shape.propsBody]
    exact .goes rfl (.goes (if_neg hstring) (runs_check_fail hend _ _))
  | cons p props ih =>
    obtain ⟨prop, shape⟩ := p
    rw [Shape.propsBody, propBody_eq, findProp, List.find?_cons]
    cases Decidable.em (cString key.val = cString prop) with
    | inl hmatch =>
      simp only [hmatch, decide_true, Option.map_some]
      have hfound : cString name.str = cString prop := hstr ▸ hmatch
      refine .goes (if_pos hfound) (.pauses rfl (runs_expect hvalue.code ?_))
      exact .always (fun _ => rfl) (List.append_ne_nil_of_right_ne_nil _ (List.cons_ne_nil _ _))
        (runs_inside hv shape [] _ _ htoks)
    | inr hmiss =>
      simp only [hmiss, decide_false]
      have hpassed : cString name.str ≠ cString prop := hstr ▸ hmiss
      exact .goes (if_neg hpassed) ih

theorem runs_member {key : Text} {v : Value} (hv : Decodes (α := α) v)
    (htoks : Spells (Value.memberStream (key, v)) toks) (props : List (List UInt8 × Shape α))
    (rest : List (Stmt α)) :
    Runs step (keysLoop props rest k) (toks ++ tok :: ts) (Value.memberDecode (key, v) props)
      (keysLoop props rest k) (tok :: ts) := by
  rw [Value.memberStream] at htoks
  obtain ⟨start, t, rfl, hstart, htoks⟩ := htoks.cons
  obtain ⟨name, t, rfl, hname, htoks⟩ := htoks.cons
  obtain ⟨value, t, rfl, hvalue, htoks⟩ := htoks.cons
  rw [Value.memberDecode]
  exact .goes (if_pos hstart.code) (.pauses rfl (runs_check hname.code
    (runs_props hv hname hvalue htoks props rest props)))

/-! ## One lemma for each kind of value -/

def ItemsDecode (vs : List Value) : Prop :=
  ∀ (item : Shape α) (k : List (Scope α)) (toks ts : List JsonToken) (tok : JsonToken),
    Spells (Value.arrayStream vs) toks →
      Runs step (.items item.body :: k) (toks ++ tok :: ts) (Value.arrayDecode vs item)
        (.items item.body :: k) (tok :: ts)

def MembersDecode (ms : List (Text × Value)) : Prop :=
  ∀ (props : List (List UInt8 × Shape α)) (rest : List (Stmt α)) (k : List (Scope α))
    (toks ts : List JsonToken) (tok : JsonToken), Spells (Value.objectStream ms) toks →
      Runs step (keysLoop props rest k) (toks ++ tok :: ts) (Value.objectDecode ms props)
        (keysLoop props rest k) (tok :: ts)

theorem body_head (shape : Shape α) : ∃ rest, shape.body = .check shape.head :: rest := by
  cases shape <;> exact ⟨_, rfl⟩

theorem decodes_mismatch {v : Value} {shape : Shape α} (hhead : v.head ≠ shape.head)
    (rest : List (Stmt α)) (k : List (Scope α)) (ts : List JsonToken)
    (htoks : Spells v.stream toks) :
    Runs step (.block (shape.body ++ rest) :: k) (toks ++ ts) (v.decode shape)
      (.block rest :: k) ts := by
  obtain ⟨more, hbody⟩ := body_head shape
  rw [hbody]
  exact runs_mismatch hhead htoks _ _ _

theorem decodes_scalar {v : Value} (harray : v.head ≠ .arrayBegin)
    (hobject : v.head ≠ .objectBegin) : Decodes (α := α) v := by
  intro shape rest k toks ts htoks
  cases shape with
  | scalar type a =>
    rw [Shape.body_scalar]
    exact runs_scalar (runsScalar_run type a _ _) htoks
  | array item => exact decodes_mismatch harray rest k ts htoks
  | object emit props => exact decodes_mismatch hobject rest k ts htoks

theorem decodes_array {vs : List Value} (hvs : ItemsDecode (α := α) vs) :
    Decodes (α := α) (.array vs) := by
  intro shape rest k toks ts htoks
  cases Decidable.em ((Value.array vs).head = shape.head) with
  | inr hhead => exact decodes_mismatch hhead rest k ts htoks
  | inl hhead =>
    obtain ⟨item, rfl⟩ := Shape.of_head_array hhead.symm
    rw [Value.stream_array] at htoks
    obtain ⟨first, u, rfl, hfirst, hrest⟩ := htoks.cons
    obtain ⟨t, u, rfl, ht, hclose⟩ := hrest.append
    obtain ⟨last, u, rfl, hlast, hnone⟩ := hclose.cons
    obtain rfl := hnone.nil
    have htokens : first :: (t ++ [last]) ++ ts = first :: (t ++ last :: ts) := by simp
    have hitems := hvs item (.block (ujsonExpect .arrayEnd ++ rest) :: k) t ts last ht
    have hend : Runs step (.items item.body :: .block (ujsonExpect .arrayEnd ++ rest) :: k)
        (last :: ts) .skip (.block rest :: k) ts :=
      .goes (if_neg (not_not_intro hlast.code)) (runs_expect hlast.code (.done _ _))
    rw [Shape.body_array, ujsonArrayIter, List.append_assoc, Value.decode_array, htokens,
      ← Verdict.andThen_skip (Value.arrayDecode vs item)]
    refine runs_expect hfirst.code (.always (fun _ => rfl) ?_ (hitems.andThen hend))
    exact List.append_ne_nil_of_right_ne_nil _ (List.cons_ne_nil _ _)

theorem decodes_object {ms : List (Text × Value)} (hms : MembersDecode (α := α) ms) :
    Decodes (α := α) (.object ms) := by
  intro shape rest k toks ts htoks
  cases Decidable.em ((Value.object ms).head = shape.head) with
  | inr hhead => exact decodes_mismatch hhead rest k ts htoks
  | inl hhead =>
    obtain ⟨emit, props, rfl⟩ := Shape.of_head_object hhead.symm
    rw [Value.stream_object] at htoks
    obtain ⟨first, u, rfl, hfirst, hrest⟩ := htoks.cons
    obtain ⟨t, u, rfl, ht, hclose⟩ := hrest.append
    obtain ⟨last, u, rfl, hlast, hnone⟩ := hclose.cons
    obtain rfl := hnone.nil
    have htokens : first :: (t ++ [last]) ++ ts = first :: (t ++ last :: ts) := by simp
    have hmembers := hms props (.yield emit :: rest) k t ts last ht
    have hkey : last.code ≠ .objectKey := hlast.code.trans_ne nofun
    have hend : Runs step (keysLoop props (.yield emit :: rest) k) (last :: ts)
        ⟨emission emit, true⟩ (.block rest :: k) ts := by
      have hyield : Runs step (.block (.yield emit :: rest) :: k) (last :: ts)
          (Verdict.put (emission emit) .skip) (.block rest :: k) ts := .pause rfl (.done _ _)
      rw [Verdict.put, Verdict.skip, List.append_nil] at hyield
      exact .goes (if_neg hkey) (runs_check hlast.code hyield)
    rw [Shape.body_object, ujsonObjIter, List.append_assoc, Value.decode_object, htokens]
    refine runs_expect hfirst.code (.always (fun _ => rfl) ?_ (hmembers.andThen hend))
    exact List.append_ne_nil_of_right_ne_nil _ (List.cons_ne_nil _ _)

theorem itemsDecode_nil : ItemsDecode (α := α) [] := by
  intro item k toks ts tok htoks
  obtain rfl := Spells.nil htoks
  exact .done _ _

theorem itemsDecode_cons {v : Value} {vs : List Value} (hv : Decodes (α := α) v)
    (hvs : ItemsDecode (α := α) vs) : ItemsDecode (α := α) (v :: vs) := by
  intro item k toks ts tok htoks
  rw [Value.arrayStream_cons] at htoks
  obtain ⟨t, t', rfl, ht, ht'⟩ := htoks.append
  have hitem := hv item [] (.items item.body :: k) t (t' ++ tok :: ts) ht
  have hrest := hvs item k t' ts tok ht'
  obtain ⟨text, more, hstream⟩ := v.stream_head
  obtain ⟨first, u, rfl, hfirst, -⟩ := (hstream ▸ ht).cons
  have hstart : first.code ≠ .arrayEnd := hfirst.code.trans_ne v.head_ne
  have hpop : Runs step (.block [] :: .items item.body :: k) (t' ++ tok :: ts) .skip
      (.items item.body :: k) (t' ++ tok :: ts) :=
    .always (fun _ => rfl) (List.append_ne_nil_of_right_ne_nil _ (List.cons_ne_nil _ _))
      (.done _ _)
  have hloop : Runs step (.items item.body :: k) (first :: u ++ (t' ++ tok :: ts))
      (v.decode item) (.items item.body :: k) (t' ++ tok :: ts) := by
    rw [List.append_nil] at hitem
    rw [← Verdict.andThen_skip (v.decode item)]
    exact .goes (if_pos hstart) (hitem.andThen hpop)
  rw [Value.arrayDecode_cons, List.append_assoc]
  exact hloop.andThen hrest

theorem membersDecode_nil : MembersDecode (α := α) [] := by
  intro props rest k toks ts tok htoks
  obtain rfl := Spells.nil htoks
  exact .done _ _

theorem membersDecode_cons {key : Text} {v : Value} {ms : List (Text × Value)}
    (hv : Decodes (α := α) v) (hms : MembersDecode (α := α) ms) :
    MembersDecode (α := α) ((key, v) :: ms) := by
  intro props rest k toks ts tok htoks
  rw [Value.objectStream_cons] at htoks
  obtain ⟨t, t', rfl, ht, ht'⟩ := htoks.append
  have hrest := hms props rest k t' ts tok ht'
  obtain ⟨next, u, hnext⟩ := List.exists_cons_of_ne_nil
    (List.append_ne_nil_of_right_ne_nil t' (List.cons_ne_nil tok ts))
  rw [Value.objectDecode_cons, List.append_assoc]
  rw [hnext] at hrest ⊢
  exact (runs_member hv ht props rest).andThen hrest

mutual

theorem decodes : (v : Value) → Decodes (α := α) v
  | .null => decodes_scalar nofun nofun
  | .bool _ => decodes_scalar nofun nofun
  | .number _ => decodes_scalar nofun nofun
  | .string _ => decodes_scalar nofun nofun
  | .array vs => decodes_array (itemsDecode vs)
  | .object ms => decodes_object (membersDecode ms)

theorem itemsDecode : (vs : List Value) → ItemsDecode (α := α) vs
  | [] => itemsDecode_nil
  | v :: vs => itemsDecode_cons (decodes v) (itemsDecode vs)

theorem membersDecode : (ms : List (Text × Value)) → MembersDecode (α := α) ms
  | [] => membersDecode_nil
  | m :: ms => membersDecode_cons (memberDecode m) (membersDecode ms)

theorem memberDecode : (m : Text × Value) → Decodes (α := α) m.2
  | (_, v) => decodes v

end

end

/-! ## The calls of a consumer -/

/-- A consumer of `{"id": <number>}` that emits. -/
def idShape : Shape Nat := .object true [(['i', 'd'], .scalar .number 7)]

def idKey : Text := ⟨['i', 'd'], by decide +kernel⟩

/-- The document `{"id":1 }`. -/
def idDoc : Doc := .object (.last ⟨.none, idKey, .none, .none⟩ (.number .one) .blank false)

/-- A parser whose token buffer has eight bytes. -/
def eightBytes : Json := ⟨bufferInit (Block.ofCells (List.replicate 8 0)) 8, .reset, [], .ok⟩

end Wifimodem
