import Wifimodem.Util.JsonMachine

/-!
# What holds between two calls of the parser

The saved states are those behind a push, the stack never outgrows its array,
and a finished document has an empty stack. A call nests at most one call, and
that one none.
-/

namespace Wifimodem

open Json

structure StackInv (jsn : Json) : Prop where
  top_le : jsn.stack.length ≤ jsonStackSize
  saved : ∀ state ∈ jsn.stack, ∃ frame : Frame, state = frame.coState
  done : jsn.final = .done → jsn.stack = []
  final : jsn.final = .ok ∨ jsn.final = .error ∨ jsn.final = .done

namespace StackInv

variable {jsn jsn' : Json} {ch : UInt8} {self : Json → UInt8 → Step}

theorem of_running (h : StackInv jsn) (hstack : jsn'.stack = jsn.stack)
    (hfinal : jsn'.final = .ok ∨ jsn'.final = .error) : StackInv jsn' := by
  constructor
  · rw [hstack]
    exact h.top_le
  · rw [hstack]
    exact h.saved
  · intro hdone
    rw [hdone] at hfinal
    rcases hfinal with hfinal | hfinal <;> cases hfinal
  · exact hfinal.imp_right .inl

theorem init (jsn : Json) : StackInv (jsonInit jsn) :=
  ⟨Nat.zero_le _, fun _ h => (List.not_mem_nil h).elim, fun _ => rfl, .inl rfl⟩

variable (h : StackInv jsn)

include h

theorem terminate : StackInv jsn.terminate := ⟨h.top_le, h.saved, h.done, h.final⟩

theorem setBool {digit : Char} : StackInv (jsn.setBool digit) := ⟨h.top_le, h.saved, h.done, h.final⟩

theorem fail : StackInv jsn.fail.1 := h.of_running rfl (.inr rfl)

theorem expect {c : UInt8} {next : Step} (hnext : StackInv next.1) :
    StackInv (jsn.expect ch c next).1 := by
  rw [Json.expect]
  split
  · exact hnext
  · exact h.fail

variable (hfinal : jsn.final = .ok)

include hfinal

theorem yield {state : CoState} {code : JsonCode} : StackInv (jsn.yield state code).1 :=
  h.of_running rfl (.inl hfinal)

theorem accept {state : CoState} : StackInv (jsn.accept ch state).1 :=
  h.of_running rfl (.inl hfinal)

theorem leave : StackInv jsn.leave := by
  rw [Json.leave, jsonStackPop]
  cases hstack : jsn.stack with
  | nil => exact ⟨by simp [hstack], by simp [hstack], fun _ => hstack, .inr (.inr rfl)⟩
  | cons state stack =>
    obtain ⟨hle, hsaved, _, _⟩ := h
    rw [hstack] at hle hsaved
    constructor
    · exact Nat.le_of_succ_le hle
    · exact fun state hmem => hsaved state (List.mem_cons_of_mem _ hmem)
    · intro hdone
      rw [hfinal] at hdone
      cases hdone
    · exact .inl hfinal

theorem push {frame : Frame} : StackInv (jsonStackPush { jsn with state := frame.coState }) := by
  rw [jsonStackPush]
  split
  · rename_i hroom
    constructor
    · exact hroom
    · intro state hmem
      obtain rfl | hmem := List.mem_cons.mp hmem
      · exact ⟨frame, rfl⟩
      · exact h.saved state hmem
    · intro hdone
      rw [hfinal] at hdone
      cases hdone
    · exact .inl hfinal
  · exact h.of_running rfl (.inr rfl)

theorem clear : StackInv jsn.clear := h.of_running rfl (.inl hfinal)

theorem stringLoop : StackInv (jsn.stringLoop ch).1 := by
  rw [Json.stringLoop]
  split
  · exact h.accept hfinal
  · exact h.terminate.leave hfinal

theorem arrayClose : StackInv (jsn.arrayClose ch).1 := h.expect (h.leave hfinal)

theorem objectClose : StackInv (jsn.objectClose ch).1 := h.expect (h.leave hfinal)

theorem arrayElement : StackInv (jsn.arrayElement ch).1 := by
  rw [Json.arrayElement]
  split
  · exact h.yield hfinal
  split
  · exact h.arrayClose hfinal
  · exact h.yield hfinal

theorem objectColon : StackInv (jsn.objectColon ch).1 := by
  rw [Json.objectColon]
  split
  · exact h.yield hfinal
  · exact h.expect (h.yield hfinal)

theorem objectMember : StackInv (jsn.objectMember ch).1 := by
  rw [Json.objectMember]
  split
  · exact h.yield hfinal
  split
  · exact h.objectClose hfinal
  · exact h.yield hfinal

variable (hself : ∀ jsn' ch, StackInv jsn' → StackInv (self jsn' ch).1)

include hself

theorem numberEnd : StackInv (Json.numberEnd self jsn ch).1 := hself _ _ (h.leave hfinal).terminate

theorem numberExpDigits : StackInv (Json.numberExpDigits self jsn ch).1 := by
  rw [Json.numberExpDigits]
  split
  · exact h.accept hfinal
  · exact h.numberEnd hfinal hself

theorem numberExp : StackInv (Json.numberExp self jsn ch).1 := by
  rw [Json.numberExp]
  split
  · exact h.accept hfinal
  · exact h.numberExpDigits hfinal hself

theorem numberFrac : StackInv (Json.numberFrac self jsn ch).1 := by
  rw [Json.numberFrac]
  split
  · exact h.accept hfinal
  split
  · exact h.accept hfinal
  · exact h.numberEnd hfinal hself

theorem numberInt : StackInv (Json.numberInt self jsn ch).1 := by
  rw [Json.numberInt]
  split
  · exact h.accept hfinal
  split
  · exact h.accept hfinal
  · exact h.numberEnd hfinal hself

theorem number : StackInv (Json.number self jsn ch).1 := by
  rw [Json.number]
  split
  · exact (h.clear hfinal).accept hfinal
  · exact (h.clear hfinal).numberInt hfinal hself

theorem nested (frame : Frame) : StackInv (Json.nested self jsn ch frame.coState).1 :=
  hself _ _ (h.push hfinal)

theorem arrayLoop : StackInv (Json.arrayLoop self jsn ch).1 := by
  rw [Json.arrayLoop]
  split
  · exact h.nested hfinal hself .element
  · exact h.arrayClose hfinal

theorem arrayBegin : StackInv (Json.arrayBegin self jsn ch).1 := by
  rw [Json.arrayBegin]
  split
  · exact h.yield hfinal
  · exact h.arrayLoop hfinal hself

theorem objectKey : StackInv (Json.objectKey self jsn ch).1 := by
  rw [Json.objectKey]
  split
  · exact h.yield hfinal
  · exact h.expect (h.nested hfinal hself .key)

theorem objectLoop : StackInv (Json.objectLoop self jsn ch).1 := by
  rw [Json.objectLoop]
  split
  · exact h.objectKey hfinal hself
  · exact h.objectClose hfinal

theorem objectBegin : StackInv (Json.objectBegin self jsn ch).1 := by
  rw [Json.objectBegin]
  split
  · exact h.yield hfinal
  · exact h.objectLoop hfinal hself

theorem value : StackInv (Json.value self jsn ch).1 := by
  rw [Json.value]
  split
  · exact h.yield hfinal
  split
  · exact h.yield hfinal
  split
  · exact h.yield hfinal
  split
  · exact h.yield hfinal
  split
  · exact (h.clear hfinal).yield hfinal
  split
  · exact h.yield hfinal
  split
  · exact h.yield hfinal
  split
  · exact h.number hfinal hself
  · exact h.fail

theorem resume : StackInv (Json.resume self jsn ch).1 := by
  rw [Json.resume]
  cases jsn.state with
  | reset | valueSpace => exact h.value hfinal hself
  | n | nu | t | tr | f | fa | fal => exact h.expect (h.yield hfinal)
  | nul => exact h.expect (h.leave hfinal)
  | tru | fals => exact h.expect (h.leave hfinal).setBool
  | quote | stringChar => exact h.stringLoop hfinal
  | arrayBegin | arrayBeginSpace => exact h.arrayBegin hfinal hself
  | arrayElement | arrayElementSpace => exact h.arrayElement hfinal
  | arrayComma => exact h.arrayLoop hfinal hself
  | objectBegin | objectBeginSpace => exact h.objectBegin hfinal hself
  | objectKeySpace => exact h.objectKey hfinal hself
  | objectKey | objectColonSpace => exact h.objectColon hfinal
  | objectColon => exact h.nested hfinal hself .member
  | objectMember | objectMemberSpace => exact h.objectMember hfinal
  | objectComma => exact h.objectLoop hfinal hself
  | numberSign | numberInt => exact h.numberInt hfinal hself
  | numberPoint | numberFrac => exact h.numberFrac hfinal hself
  | numberExp => exact h.numberExp hfinal hself
  | numberExpSign | numberExpDigit => exact h.numberExpDigits hfinal hself

end StackInv

theorem stackInv_fuel (fuel : Nat) : ∀ (jsn : Json) (ch : UInt8), StackInv jsn →
    StackInv (jsonParseFuel fuel jsn ch).1 := by
  induction fuel with
  | zero => exact fun _ _ h => h
  | succ fuel ih =>
    intro jsn ch h
    rw [jsonParseFuel]
    split
    · exact h
    · rename_i hfinal
      exact h.resume (not_not.mp hfinal) ih

theorem stackInv_step (jsn : Json) (ch : UInt8) (h : StackInv jsn) : StackInv (jsonParse jsn ch).1 :=
  stackInv_fuel _ jsn ch h

/-! ## The calls of one call -/

/-- One call of `json_parse`, with the calls it makes left open. -/
def jsonBody (self : Json → UInt8 → Step) (jsn : Json) (ch : UInt8) : Step :=
  if jsn.final ≠ .ok then (jsn, jsn.final) else resume self jsn ch

abbrev Body := (Json → UInt8 → Step) → Step

def NoCall (body : Body) : Prop := ∃ r, ∀ self, body self = r

/-- At most one call is made, on the same character, and that one makes none. -/
def OneCall (ch : UInt8) (body : Body) : Prop :=
  NoCall body ∨ ∃ (jsn : Json) (f : Step → Step),
    (∀ self, body self = f (self jsn ch)) ∧ NoCall (jsonBody · jsn ch)

theorem noCall_value (jsn : Json) (ch : UInt8) : NoCall (Json.value · jsn ch) :=
  ⟨Json.value (fun jsn _ => (jsn, .ok)) jsn ch, fun _ => value_congr⟩

namespace OneCall

variable {jsn : Json} {ch : UInt8}

theorem const (r : Step) : OneCall ch fun _ => r := .inl ⟨r, fun _ => rfl⟩

theorem ite {p : Prop} [Decidable p] {body body' : Body} (h : OneCall ch body)
    (h' : OneCall ch body') : OneCall ch fun self => if p then body self else body' self := by
  split
  · exact h
  · exact h'

theorem nested (frame : Frame) : OneCall ch (Json.nested · jsn ch frame.coState) := by
  refine .inr ⟨jsonStackPush { jsn with state := frame.coState }, id, fun _ => rfl, ?_⟩
  rw [jsonStackPush]
  split
  · cases hfinal : jsn.final with
    | ok =>
      obtain ⟨r, hr⟩ := noCall_value
        { jsn with state := .reset, stack := frame.coState :: jsn.stack } ch
      rw [hfinal] at hr
      exact ⟨r, fun self => (if_neg (by simp)).trans (hr self)⟩
    | _ => exact ⟨_, fun self => if_pos (by simp)⟩
  · exact ⟨_, fun self => if_pos (by simp)⟩

theorem objectKey : OneCall ch (Json.objectKey · jsn ch) := by
  refine ite (const _) (ite ?_ (const _))
  obtain ⟨r, hr⟩ | ⟨jsn', f, hf, hnone⟩ := @nested jsn ch .key
  · exact .inl ⟨(r.1, .objectKey),
      fun self => congrArg (fun r : Step => (r.1, JsonCode.objectKey)) (hr self)⟩
  · exact .inr ⟨jsn', fun r => ((f r).1, .objectKey),
      fun self => congrArg (fun r : Step => (r.1, JsonCode.objectKey)) (hf self), hnone⟩

theorem arrayLoop : OneCall ch (Json.arrayLoop · jsn ch) := ite (nested .element) (const _)

theorem objectLoop : OneCall ch (Json.objectLoop · jsn ch) := ite objectKey (const _)

variable (h : StackInv jsn) (hfinal : jsn.final = .ok)

include h hfinal

/-- The state returned to after a number is behind a push, and there the
character is read without a further call. -/
theorem numberEnd : OneCall ch (Json.numberEnd · jsn ch) := by
  refine .inr ⟨jsn.leave.terminate, fun r => (r.1, .number), fun _ => rfl, ?_⟩
  rw [Json.leave, jsonStackPop]
  cases hstack : jsn.stack with
  | nil => exact ⟨_, fun self => if_pos (by simp [Json.terminate])⟩
  | cons state stack =>
    obtain ⟨frame, rfl⟩ := h.saved state (by simp [hstack])
    have hbody : ∀ self, jsonBody self
        { jsn with state := frame.coState, stack := stack : Json }.terminate ch =
        resume self { jsn with state := frame.coState, stack := stack : Json }.terminate ch := by
      intro self
      exact if_neg (by simp [Json.terminate, hfinal])
    cases frame <;> exact ⟨_, hbody⟩

theorem numberExpDigits : OneCall ch (Json.numberExpDigits · jsn ch) :=
  ite (const _) (numberEnd h hfinal)

theorem numberExp : OneCall ch (Json.numberExp · jsn ch) :=
  ite (const _) (numberExpDigits h hfinal)

theorem numberFrac : OneCall ch (Json.numberFrac · jsn ch) :=
  ite (const _) (ite (const _) (numberEnd h hfinal))

theorem numberInt : OneCall ch (Json.numberInt · jsn ch) :=
  ite (const _) (ite (const _) (numberEnd h hfinal))

theorem resume : OneCall ch (Json.resume · jsn ch) := by
  unfold Json.resume
  cases jsn.state with
  | reset | valueSpace => exact .inl (noCall_value jsn ch)
  | n | nu | nul | t | tr | tru | f | fa | fal | fals => exact const _
  | quote | stringChar => exact const _
  | arrayBegin | arrayBeginSpace => exact ite (const _) arrayLoop
  | arrayElement | arrayElementSpace => exact const _
  | arrayComma => exact arrayLoop
  | objectBegin | objectBeginSpace => exact ite (const _) objectLoop
  | objectKeySpace => exact objectKey
  | objectKey | objectColonSpace => exact const _
  | objectColon => exact nested .member
  | objectMember | objectMemberSpace => exact const _
  | objectComma => exact objectLoop
  | numberSign | numberInt => exact numberInt h hfinal
  | numberPoint | numberFrac => exact numberFrac h hfinal
  | numberExp => exact numberExp h hfinal
  | numberExpSign | numberExpDigit => exact numberExpDigits h hfinal

omit hfinal in
theorem body : OneCall ch (jsonBody · jsn ch) := by
  unfold jsonBody
  split
  · exact const _
  · rename_i hfinal
    exact resume h (not_not.mp hfinal)

end OneCall

/-- Two levels of calls are all there are, whatever a third one would do. -/
theorem jsonParse_eq_body {jsn : Json} {ch : UInt8} (h : OneCall ch (jsonBody · jsn ch))
    (self : Json → UInt8 → Step) : jsonParse jsn ch = jsonBody (jsonBody self) jsn ch := by
  have hparse : ∀ jsn, jsonParse jsn ch = jsonBody jsonParse jsn ch := fun jsn => jsonParse_eq jsn ch
  rw [hparse]
  obtain ⟨r, hr⟩ | ⟨jsn', f, hf, r, hr⟩ := h
  · exact (hr jsonParse).trans (hr (jsonBody self)).symm
  · have hnested : jsonParse jsn' ch = jsonBody self jsn' ch := by
      rw [hparse]
      exact (hr jsonParse).trans (hr self).symm
    exact (hf jsonParse).trans ((congrArg f hnested).trans (hf (jsonBody self)).symm)

/-- What holds between two calls. -/
structure Settled (jsn : Json) : Prop where
  top : jsn.stack.length ≤ 8
  saved : ∀ state ∈ jsn.stack,
    state = .arrayElement ∨ state = .objectKey ∨ state = .objectMember
  calls : ∀ ch, OneCall ch (jsonBody · jsn ch)
  terminates : ∀ ch self, jsonParse jsn ch = jsonBody (jsonBody self) jsn ch
  done : jsn.final = .done → jsn.stack = []
  final : ∀ ch, jsn.final = .done ∨ jsn.final = .error → jsonParse jsn ch = (jsn, jsn.final)

theorem settled_run (jsn : Json) (w : List UInt8) :
    Settled (Transducer.run jsonParse (jsonInit jsn) w) := by
  have h : StackInv (Transducer.run jsonParse (jsonInit jsn) w) :=
    Transducer.run_invariant StackInv stackInv_step (StackInv.init jsn) w
  constructor
  · exact h.top_le
  · intro state hmem
    obtain ⟨frame, rfl⟩ := h.saved state hmem
    cases frame
    · exact .inl rfl
    · exact .inr (.inl rfl)
    · exact .inr (.inr rfl)
  · exact fun ch => OneCall.body h
  · exact fun ch self => jsonParse_eq_body (OneCall.body h) self
  · exact h.done
  · intro ch hfinal
    rw [jsonParse_eq, if_pos]
    obtain hfinal | hfinal := hfinal
    · rw [hfinal]
      decide
    · rw [hfinal]
      decide

end Wifimodem
