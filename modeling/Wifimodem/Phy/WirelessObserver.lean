import Wifimodem.Core.ListEnds

/-!
# Observers and the events raised to them

An observer is on the list through its node, and `node` gives the address of
that node. A callback may delete its own observer, and may decide so by the
event and by the calls made before.
-/

namespace Wifimodem.Observers

section
variable {α β : Type*} [DecidableEq α]

def wifiObserverInit (node : β → α) (heap : α → ListNode α (Option β)) (wo : β) :
    α → ListNode α (Option β) := listInit heap (node wo) (some wo)

def wifiObserverAdd (node : β → α) (list : α) (heap : α → ListNode α (Option β)) (wo : β) :
    α → ListNode α (Option β) := listAppend heap list (node wo)

def wifiObserverDel (node : β → α) (heap : α → ListNode α (Option β)) (wo : β) :
    α → ListNode α (Option β) := listRemove heap (node wo)

/-- Whether the callback of this observer deletes it, after these calls. -/
abbrev Procs (β : Type*) := Int → List β → β → Bool

/-- The loop of `raise_event` for as many turns as there is fuel, with the calls
made; without a structure behind the node it has no result. -/
def raiseLoop (node : β → α) (proc : Procs β) (list : α) (ev : Int) :
    Nat → (α → ListNode α (Option β)) → α → List β → Option ((α → ListNode α (Option β)) × List β)
  | 0, _, _, _ => none
  | fuel + 1, heap, it, calls =>
    if it = listEnd list then some (heap, calls)
    else
      match (heap it).ptr with
      | none => none
      | some wo =>
        let heap := if proc ev calls wo then wifiObserverDel node heap wo else heap
        raiseLoop node proc list ev fuel heap (heap it).next (calls ++ [wo])

def raiseEvent (node : β → α) (proc : Procs β) (list : α) (ev : Int) (fuel : Nat)
    (heap : α → ListNode α (Option β)) : Option ((α → ListNode α (Option β)) × List β) :=
  raiseLoop node proc list ev fuel heap (listBegin heap list) []

/-! ## The observers that are registered -/

/-- The nodes of these observers are the list, each with its observer behind it. -/
structure Registered (node : β → α) (list : α) (heap : α → ListNode α (Option β))
    (obs : List β) : Prop where
  ring : (links heap).Ring list (obs.map node)
  own : ∀ wo ∈ obs, (heap (node wo)).ptr = some wo

variable {node : β → α} {list : α} {heap : α → ListNode α (Option β)} {obs : List β} {wo : β}

theorem registered_init (node : β → α) (list : α) (heap : α → ListNode α (Option β)) :
    Registered node list (listInit heap list none) [] where
  ring := Links.ring_nil.mpr ⟨by simp [links, listInit], by simp [links, listInit]⟩
  own := List.forall_mem_nil _

theorem registered_add (h : Registered node list heap obs) (hnew : node wo ∉ list :: obs.map node) :
    Registered node list (wifiObserverAdd node list (wifiObserverInit node heap wo) wo)
      (obs ++ [wo]) := by
  have hkeep : ∀ n ∈ list :: obs.map node, wifiObserverInit node heap wo n = heap n :=
    fun n hn => Function.update_of_ne (ne_of_mem_of_not_mem hn hnew) _ _
  have hring : (links (wifiObserverInit node heap wo)).Ring list (obs.map node) := by
    apply Links.ring_congr h.ring
    · exact fun n hn => congrArg ListNode.next (hkeep n hn)
    · exact fun n hn => congrArg ListNode.prev (hkeep n hn)
  constructor
  · rw [List.map_append]
    exact ring_linkInFront hring hnew
  · intro w hw
    rw [wifiObserverAdd, listAppend, linkInFront_ptr]
    rcases List.mem_append.mp hw with hw | hw
    · rw [hkeep _ (List.mem_cons_of_mem list (List.mem_map_of_mem hw))]
      exact h.own w hw
    · rw [List.mem_singleton.mp hw, wifiObserverInit, listInit, Function.update_self]

/-! ## One raise -/

variable {proc : Procs β} {ev : Int} {calls before after : List β}

/-- A node that is off the list leads to itself, and its callback is called again. -/
theorem raiseLoop_stays (hself : (links heap).Ring (node wo) [])
    (hptr : (heap (node wo)).ptr = some wo)
    (hlist : node wo ≠ list) (fuel : Nat) (calls : List β) :
    raiseLoop node proc list ev fuel heap (node wo) calls = none := by
  induction fuel generalizing calls with
  | zero => rfl
  | succ fuel ih =>
    have hnext : (heap (node wo)).next = node wo := (Links.ring_nil.mp hself).1
    have hdel : wifiObserverDel node heap wo = heap := unlink_of_selfLinked hself
    rw [raiseLoop, listEnd, if_neg hlist, hptr]
    simp only [hdel, ite_self, hnext]
    exact ih (calls ++ [wo])

theorem raiseLoop_deleted (hptr : (heap (node wo)).ptr = some wo) (hlist : node wo ≠ list)
    (hproc : proc ev calls wo = true) (fuel : Nat) :
    raiseLoop node proc list ev fuel heap (node wo) calls = none := by
  cases fuel with
  | zero => rfl
  | succ fuel =>
    have hself : (links (wifiObserverDel node heap wo)).Ring (node wo) [] := by
      rw [wifiObserverDel, listRemove, links_unlink]
      exact Links.remove_self _ _
    have hnext : (wifiObserverDel node heap wo (node wo)).next = node wo :=
      (Links.ring_nil.mp hself).1
    rw [raiseLoop, listEnd, if_neg hlist, hptr]
    simp only [if_pos hproc, hnext]
    exact raiseLoop_stays hself (unlink_ptr.trans hptr) hlist fuel _

/-- A callback that keeps its observer lets the loop go on. -/
theorem raiseLoop_kept (hptr : (heap (node wo)).ptr = some wo) (hlist : node wo ≠ list)
    (hproc : proc ev calls wo = false) (fuel : Nat) :
    raiseLoop node proc list ev (fuel + 1) heap (node wo) calls =
      raiseLoop node proc list ev fuel heap (heap (node wo)).next (calls ++ [wo]) := by
  rw [raiseLoop, listEnd, if_neg hlist, hptr]
  simp only [hproc, Bool.false_eq_true, if_false]

/-- The nodes still to come, from the one after `m` on. -/
structure Ahead (node : β → α) (list : α) (heap : α → ListNode α (Option β)) (m : α)
    (after : List β) : Prop where
  linked : (links heap).Linked (m :: (after.map node ++ [list]))
  outside : list ∉ after.map node
  own : ∀ wo ∈ after, (heap (node wo)).ptr = some wo

omit [DecidableEq α] in
theorem Ahead.first {m : α} (h : Ahead node list heap m (wo :: after)) :
    (heap m).next = node wo ∧ node wo ≠ list ∧ (heap (node wo)).ptr = some wo ∧
      Ahead node list heap (node wo) after := by
  obtain ⟨hlinked, houtside, hown⟩ := h
  rw [List.map_cons, List.cons_append] at hlinked
  rw [List.map_cons] at houtside
  obtain ⟨⟨hnext, _⟩, hrest⟩ := List.isChain_cons_cons.mp hlinked
  exact ⟨hnext, (List.ne_of_not_mem_cons houtside).symm, hown wo List.mem_cons_self, hrest,
    List.not_mem_of_not_mem_cons houtside, fun w hw => hown w (List.mem_cons_of_mem wo hw)⟩

theorem raiseLoop_run {m : α} (h : Ahead node list heap m after)
    (hproc : ∀ past wo rest, after = past ++ wo :: rest → proc ev (before ++ past) wo = false)
    {fuel : Nat} (hfuel : after.length < fuel) :
    raiseLoop node proc list ev fuel heap (heap m).next before = some (heap, before ++ after) := by
  obtain ⟨fuel, rfl⟩ := Nat.exists_eq_succ_of_ne_zero (Nat.ne_of_gt (Nat.zero_lt_of_lt hfuel))
  induction after generalizing m before fuel with
  | nil =>
    have hnext : (heap m).next = list := (List.isChain_cons_cons.mp h.linked).1.1
    rw [hnext, raiseLoop, listEnd, if_pos rfl, List.append_nil]
  | cons wo after ih =>
    obtain ⟨hnext, hlist, hptr, hrest⟩ := h.first
    have hkeeps : proc ev before wo = false := by
      have hfirst := hproc [] wo after rfl
      rwa [List.append_nil] at hfirst
    obtain ⟨fuel, rfl⟩ := Nat.exists_eq_succ_of_ne_zero
      (Nat.ne_of_gt (Nat.zero_lt_of_lt (Nat.lt_of_succ_lt_succ hfuel)))
    rw [hnext, raiseLoop_kept hptr hlist hkeeps,
      ih hrest _ fuel (Nat.lt_of_succ_lt_succ hfuel), List.append_assoc, List.singleton_append]
    rintro past w rest rfl
    have hw := hproc (wo :: past) w rest rfl
    rwa [← List.singleton_append, ← List.append_assoc] at hw

theorem raiseLoop_hangs {m : α} (h : Ahead node list heap m after) {past rest : List β}
    (hsplit : after = past ++ wo :: rest) (hproc : proc ev (before ++ past) wo = true)
    (fuel : Nat) : raiseLoop node proc list ev fuel heap (heap m).next before = none := by
  induction past generalizing m before after fuel with
  | nil =>
    subst hsplit
    obtain ⟨hnext, hlist, hptr, _⟩ := h.first
    rw [List.append_nil] at hproc
    rw [hnext]
    exact raiseLoop_deleted hptr hlist hproc fuel
  | cons w past ih =>
    subst hsplit
    obtain ⟨hnext, hlist, hptr, hrest⟩ := h.first
    rw [hnext]
    cases hw : proc ev before w with
    | true => exact raiseLoop_deleted hptr hlist hw fuel
    | false =>
      cases fuel with
      | zero => rfl
      | succ fuel =>
        rw [raiseLoop_kept hptr hlist hw]
        apply ih hrest rfl
        rwa [List.append_assoc, List.singleton_append]

omit [DecidableEq α] in
theorem Registered.ahead (h : Registered node list heap obs) : Ahead node list heap list obs :=
  ⟨h.ring.2, (List.nodup_cons.mp h.ring.1).1, h.own⟩

/-- An event that makes an observer delete itself never returns. -/
theorem raiseEvent_hangs (h : Registered node list heap obs) (hsplit : obs = before ++ wo :: after)
    (hproc : proc ev before wo = true) (fuel : Nat) :
    raiseEvent node proc list ev fuel heap = none :=
  raiseLoop_hangs h.ahead hsplit hproc fuel

theorem raiseEvent_once_iff (h : Registered node list heap obs) (proc : Procs β) (ev : Int) :
    (∃ fuel heap', raiseEvent node proc list ev fuel heap = some (heap', obs)) ↔
      ∀ before wo after, obs = before ++ wo :: after → proc ev before wo = false := by
  constructor
  · rintro ⟨fuel, heap', hraise⟩ before wo after hsplit
    cases hproc : proc ev before wo with
    | false => rfl
    | true =>
      rw [raiseEvent_hangs h hsplit hproc] at hraise
      cases hraise
  · intro hproc
    exact ⟨obs.length + 1, heap, raiseLoop_run h.ahead hproc (Nat.lt_succ_self _)⟩

end

/-- Observers 1 and 2 on the list at 0. -/
def twoObservers : Nat → ListNode Nat (Option Nat) :=
  let heap := listInit (fun n => ⟨n, n, none⟩) 0 none
  let heap := wifiObserverAdd id 0 (wifiObserverInit id heap 1) 1
  wifiObserverAdd id 0 (wifiObserverInit id heap 2) 2

theorem twoObservers_registered : Registered id 0 twoObservers [1, 2] :=
  registered_add (registered_add (registered_init id 0 _) (by decide)) (by decide)

theorem raiseEvent_once_iff_kept :
    Registered id 0 twoObservers [1, 2] ∧
      ∃ fuel heap', raiseEvent id (fun _ _ _ => false) 0 3 fuel twoObservers =
        some (heap', [1, 2]) :=
  ⟨twoObservers_registered,
    (raiseEvent_once_iff twoObservers_registered _ 3).mpr fun _ _ _ _ => rfl⟩

/-- The first of two observers is done after its first event. -/
theorem raiseEvent_self_delete :
    Registered id 0 twoObservers [1, 2] ∧
      ¬∃ fuel heap' calls, raiseEvent id (fun _ _ wo => wo == 1) 0 3 fuel twoObservers =
        some (heap', calls) := by
  refine ⟨twoObservers_registered, ?_⟩
  rintro ⟨fuel, heap', calls, hraise⟩
  have hsplit : [1, 2] = [] ++ 1 :: [2] := rfl
  rw [raiseEvent_hangs twoObservers_registered hsplit rfl] at hraise
  cases hraise

end Wifimodem.Observers
