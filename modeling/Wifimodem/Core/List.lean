import Wifimodem.Lib.LinkedRing
import Wifimodem.Lib.Transducer

/-!
# Intrusive lists

A list is a node that heads a ring, and its sequence is what the ring holds
after the head. The heap gives every node its two links and the pointer to the
structure it is part of.
-/

namespace Wifimodem

structure ListNode (α β : Type*) where
  prev : α
  next : α
  ptr : β

section
variable {α β : Type*} [DecidableEq α]

def setPrev (heap : α → ListNode α β) (n v : α) : α → ListNode α β :=
  Function.update heap n { heap n with prev := v }

def setNext (heap : α → ListNode α β) (n v : α) : α → ListNode α β :=
  Function.update heap n { heap n with next := v }

def listInit (heap : α → ListNode α β) (self : α) (ptr : β) : α → ListNode α β :=
  Function.update heap self ⟨self, self, ptr⟩

/-- `_list_append`: the item comes behind `self`. -/
def linkBehind (heap : α → ListNode α β) (self item : α) : α → ListNode α β :=
  let heap := setPrev heap item self
  let heap := setNext heap item (heap self).next
  let heap := setPrev heap (heap self).next item
  setNext heap self item

/-- `_list_prepend`: the item comes in front of `self`. -/
def linkInFront (heap : α → ListNode α β) (self item : α) : α → ListNode α β :=
  let heap := setPrev heap item (heap self).prev
  let heap := setNext heap item self
  let heap := setNext heap (heap self).prev item
  setPrev heap self item

/-- `_list_remove` -/
def unlink (heap : α → ListNode α β) (self : α) : α → ListNode α β :=
  let heap := setNext heap (heap self).prev (heap self).next
  let heap := setPrev heap (heap self).next (heap self).prev
  let heap := setPrev heap self self
  setNext heap self self

/-- The loop of `_list_count`, for as many turns as there is fuel. -/
def countLoop (heap : α → ListNode α β) (self : α) : Nat → α → Nat → Option Nat
  | 0, _, _ => none
  | fuel + 1, it, n => if it = self then some n else countLoop heap self fuel (heap it).next (n + 1)

def listAppend (heap : α → ListNode α β) (self item : α) := linkInFront heap self item

def listPrepend (heap : α → ListNode α β) (self item : α) := linkBehind heap self item

def listInsert (heap : α → ListNode α β) (self item : α) := linkInFront heap self item

def listRemove (heap : α → ListNode α β) (self : α) := unlink heap self

def listShift (heap : α → ListNode α β) (self : α) : (α → ListNode α β) × α :=
  let item := (heap self).next
  (unlink heap (heap self).next, item)

def listPop (heap : α → ListNode α β) (self : α) : (α → ListNode α β) × α :=
  let item := (heap self).prev
  (unlink heap (heap self).prev, item)

def listBegin (heap : α → ListNode α β) (self : α) : α := (heap self).next
def listEnd (self : α) : α := self
def listRbegin (heap : α → ListNode α β) (self : α) : α := (heap self).prev
def listRend (self : α) : α := self

def listEmpty (heap : α → ListNode α β) (self : α) : Bool := (heap self).prev = self

def listSize (heap : α → ListNode α β) (fuel : Nat) (self : α) : Option Nat :=
  countLoop heap self fuel (heap self).next 0

/-- `for (it = list_begin(self); it != list_end(self); it = it->next)` -/
def listForward (heap : α → ListNode α β) (fuel : Nat) (self : α) : Option (List α) :=
  Links.walk (fun it => (heap it).next) (listEnd self) fuel (listBegin heap self)

/-- `for (it = list_rbegin(self); it != list_rend(self); it = it->prev)` -/
def listBackward (heap : α → ListNode α β) (fuel : Nat) (self : α) : Option (List α) :=
  Links.walk (fun it => (heap it).prev) (listRend self) fuel (listRbegin heap self)

inductive ListOp (α : Type*) where
  | append (self item : α)
  | prepend (self item : α)
  | insert (self item : α)
  | remove (self : α)
  | shift (self : α)
  | pop (self : α)

def listStep (heap : α → ListNode α β) : ListOp α → (α → ListNode α β) × Option α
  | .append self item => (listAppend heap self item, none)
  | .prepend self item => (listPrepend heap self item, none)
  | .insert self item => (listInsert heap self item, none)
  | .remove self => (listRemove heap self, none)
  | .shift self =>
    let (heap, item) := listShift heap self
    (heap, some item)
  | .pop self =>
    let (heap, item) := listPop heap self
    (heap, some item)

/-! ## Sequences -/

/-- The same operations on the sequences of all nodes. -/
def seqStep (lists : α → List α) : ListOp α → (α → List α) × Option α
  | .append self item => (Links.seqInsertBefore self item lists, none)
  | .prepend self item => (Links.seqInsertAfter self item lists, none)
  | .insert self item => (Links.seqInsertBefore self item lists, none)
  | .remove self => (Links.seqRemove self lists, none)
  | .shift self =>
    match (lists self).head? with
    | none => (lists, none)
    | some item => (Links.seqRemove item lists, some item)
  | .pop self =>
    match (lists self).getLast? with
    | none => (lists, none)
    | some item => (Links.seqRemove item lists, some item)

/-- Only detached nodes are linked in, and only lists with items are taken from. -/
def Legal (lists : α → List α) : ListOp α → Prop
  | .append self item | .prepend self item | .insert self item => item ≠ self ∧ lists item = []
  | .remove _ => True
  | .shift self | .pop self => lists self ≠ []

def links (heap : α → ListNode α β) : Links α := ⟨fun n => (heap n).prev, fun n => (heap n).next⟩

/-- What the heap shows of the sequences. -/
structure HeapShows (heap : α → ListNode α β) (lists : α → List α) : Prop where
  inverse : ∀ n, (heap (heap n).next).prev = n ∧ (heap (heap n).prev).next = n
  forward : ∀ n fuel, (lists n).length < fuel → listForward heap fuel n = some (lists n)
  backward : ∀ n fuel, (lists n).length < fuel → listBackward heap fuel n = some (lists n).reverse
  size : ∀ n fuel, (lists n).length < fuel → listSize heap fuel n = some (lists n).length
  empty : ∀ n, listEmpty heap n = true ↔ lists n = []
  removed : ∀ n, lists n = [] → listRemove heap n = heap
  selfLinked : ∀ n, lists n = [] → (heap n).next = n ∧ (heap n).prev = n

/-! ## What the surgery does to the links -/

variable {heap : α → ListNode α β} {self item : α} {lists : α → List α}

theorem links_setPrev (n v : α) :
    links (setPrev heap n v) = ⟨Function.update (links heap).prev n v, (links heap).next⟩ := by
  rw [links]
  congr 1
  · funext m
    simp only [setPrev, links, Function.update_apply]
    split <;> rfl
  · funext m
    simp only [setPrev, links, Function.update_apply]
    split
    · rename_i hm
      rw [hm]
    · rfl

theorem links_setNext (n v : α) :
    links (setNext heap n v) = ⟨(links heap).prev, Function.update (links heap).next n v⟩ := by
  rw [links]
  congr 1
  · funext m
    simp only [setNext, links, Function.update_apply]
    split
    · rename_i hm
      rw [hm]
    · rfl
  · funext m
    simp only [setNext, links, Function.update_apply]
    split <;> rfl

omit [DecidableEq α] in
theorem next_eq (heap : α → ListNode α β) (n : α) : (heap n).next = (links heap).next n := rfl

omit [DecidableEq α] in
theorem prev_eq (heap : α → ListNode α β) (n : α) : (heap n).prev = (links heap).prev n := rfl

theorem links_linkInFront (hne : item ≠ self) :
    links (linkInFront heap self item) = (links heap).insertBefore self item := by
  simp only [linkInFront, prev_eq, links_setPrev, links_setNext, Links.insertBefore,
    Function.update_of_ne hne.symm]
  congr 1
  · funext n
    simp only [Function.update_apply]
  · funext n
    simp only [Function.update_apply]

theorem links_linkBehind (hne : item ≠ self) :
    links (linkBehind heap self item) = ((links heap).flip.insertBefore self item).flip := by
  simp only [linkBehind, next_eq, links_setPrev, links_setNext, Links.insertBefore,
    Links.flip, Function.update_of_ne hne.symm]
  congr 1
  · funext n
    simp only [Function.update_apply]
    rfl
  · funext n
    simp only [Function.update_apply]

theorem links_unlink (self : α) : links (unlink heap self) = (links heap).remove self := by
  simp only [unlink, next_eq, prev_eq, links_setPrev, links_setNext, Links.remove]
  congr 1
  · funext n
    grind [Function.update_apply]
  · funext n
    grind [Function.update_apply]

theorem unlink_of_selfLinked {n : α} (h : (links heap).Ring n []) : unlink heap n = heap := by
  obtain ⟨hnext, hprev⟩ := Links.ring_nil.mp h
  have hnext' : setNext heap n n = heap := by
    have hself : (heap n).next = n := hnext
    apply Function.update_eq_self_iff.mpr
    calc ({ heap n with next := n } : ListNode α β)
        = ⟨(heap n).prev, (heap n).next, (heap n).ptr⟩ := by rw [hself]
      _ = heap n := rfl
  have hprev' : setPrev heap n n = heap := by
    have hself : (heap n).prev = n := hprev
    apply Function.update_eq_self_iff.mpr
    calc ({ heap n with prev := n } : ListNode α β)
        = ⟨(heap n).prev, (heap n).next, (heap n).ptr⟩ := by rw [hself]
      _ = heap n := rfl
  simp only [unlink, next_eq, prev_eq, hnext, hprev, hnext', hprev']

/-! ## Sequences are refined -/

theorem reads_linkInFront (hs : (links heap).Reads lists) (hne : item ≠ self)
    (hitem : lists item = []) :
    (links (linkInFront heap self item)).Reads (Links.seqInsertBefore self item lists) := by
  rw [links_linkInFront hne]
  exact Links.reads_insertBefore hs hne hitem

theorem reads_linkBehind (hs : (links heap).Reads lists) (hne : item ≠ self)
    (hitem : lists item = []) :
    (links (linkBehind heap self item)).Reads (Links.seqInsertAfter self item lists) := by
  rw [links_linkBehind hne]
  exact Links.reads_insertAfter hs hne hitem

theorem reads_unlink (hs : (links heap).Reads lists) (self : α) :
    (links (unlink heap self)).Reads (Links.seqRemove self lists) := by
  rw [links_unlink]
  exact Links.reads_remove hs self

theorem listStep_reads {op : ListOp α} (hs : (links heap).Reads lists) (hop : Legal lists op) :
    (links (listStep heap op).1).Reads (seqStep lists op).1 ∧
      (listStep heap op).2 = (seqStep lists op).2 := by
  cases op with
  | append self item | insert self item =>
    obtain ⟨hne, hitem⟩ := hop
    exact ⟨reads_linkInFront hs hne hitem, rfl⟩
  | prepend self item =>
    obtain ⟨hne, hitem⟩ := hop
    exact ⟨reads_linkBehind hs hne hitem, rfl⟩
  | remove self => exact ⟨reads_unlink hs self, rfl⟩
  | shift self =>
    obtain ⟨item, rest, hlist⟩ := List.exists_cons_of_ne_nil hop
    have hr := hs self
    rw [hlist] at hr
    have hitem : (heap self).next = item := (Links.ring_cons hr).1
    rw [listStep, seqStep, listShift, hitem, hlist]
    exact ⟨reads_unlink hs item, rfl⟩
  | pop self =>
    obtain ⟨front, item, hlist⟩ : ∃ front item, lists self = front ++ [item] := by
      obtain hnil | h' := List.eq_nil_or_concat' (lists self)
      · exact absurd hnil hop
      · exact h'
    have hr := hs self
    rw [hlist] at hr
    have hitem : (heap self).prev = item := (Links.ring_append_singleton hr).2
    rw [listStep, seqStep, listPop, hitem, hlist, List.getLast?_concat]
    exact ⟨reads_unlink hs item, rfl⟩

omit [DecidableEq α] in
theorem countLoop_eq [DecidableEq α] (heap : α → ListNode α β) (self : α) (fuel : Nat) (it : α)
    (n : Nat) : countLoop heap self fuel it n =
      (Links.walk (links heap).next self fuel it).map fun xs => n + xs.length := by
  induction fuel generalizing it n with
  | zero => rfl
  | succ fuel ih =>
    rw [countLoop, Links.walk]
    split
    · rfl
    · rw [ih, Option.map_map]
      have hnext : (heap it).next = (links heap).next it := rfl
      rw [hnext]
      congr 1
      funext xs
      simp only [Function.comp_apply, List.length_cons]
      omega

theorem heapShows_of_reads (hs : (links heap).Reads lists) : HeapShows heap lists where
  inverse n := Links.ring_inverse (hs n)
  forward n _ hfuel := Links.walk_next (hs n) hfuel
  backward n _ hfuel := Links.walk_prev (hs n) hfuel
  size n fuel hfuel := by
    have hwalk := Links.walk_next (hs n) hfuel
    have hcount := countLoop_eq heap n fuel ((links heap).next n) 0
    rw [hwalk, Option.map_some, Nat.zero_add] at hcount
    exact hcount
  empty n := by
    rw [listEmpty, decide_eq_true_eq]
    constructor
    · intro hself
      obtain hnil | ⟨front, item, hlist⟩ := List.eq_nil_or_concat' (lists n)
      · exact hnil
      · have hr := hs n
        rw [hlist] at hr
        have hitem : (heap n).prev = item := (Links.ring_append_singleton hr).2
        rw [hself] at hitem
        rw [← hitem] at hr
        exact absurd (List.mem_append_right front List.mem_cons_self) (List.nodup_cons.mp hr.1).1
    · intro hnil
      have hr := hs n
      rw [hnil] at hr
      exact (Links.ring_nil.mp hr).2
  removed n hnil := by
    have hr := hs n
    rw [hnil] at hr
    exact unlink_of_selfLinked hr
  selfLinked n hnil := by
    have hr := hs n
    rw [hnil] at hr
    exact Links.ring_nil.mp hr

theorem list_refines_sequences (hs : (links heap).Reads lists) {ops : List (ListOp α)}
    (hops : Transducer.Throughout seqStep Legal lists ops) :
    HeapShows (Transducer.run listStep heap ops) (Transducer.run seqStep lists ops) ∧
      Transducer.outputs listStep heap ops = Transducer.outputs seqStep lists ops := by
  have hstep : ∀ (heap : α → ListNode α β) lists op, (links heap).Reads lists → Legal lists op →
      (links (listStep heap op).1).Reads (seqStep lists op).1 ∧
        (listStep heap op).2 = (seqStep lists op).2 :=
    fun _ _ _ hs hop => listStep_reads hs hop
  obtain ⟨hrun, houts⟩ := Transducer.simulation_throughout hstep hs hops
  exact ⟨heapShows_of_reads hrun, houts⟩

end

theorem list_refines_sequences_small :
    HeapShows
        (Transducer.run listStep (fun n : Nat => (⟨n, n, ()⟩ : ListNode Nat Unit))
          [.append 0 1, .prepend 0 2, .insert 1 3, .remove 2, .shift 0])
        (Transducer.run seqStep (fun _ : Nat => [])
          [.append 0 1, .prepend 0 2, .insert 1 3, .remove 2, .shift 0]) ∧
      Transducer.outputs listStep (fun n : Nat => (⟨n, n, ()⟩ : ListNode Nat Unit))
          [.append 0 1, .prepend 0 2, .insert 1 3, .remove 2, .shift 0] =
        Transducer.outputs seqStep (fun _ : Nat => [])
          [.append 0 1, .prepend 0 2, .insert 1 3, .remove 2, .shift 0] := by
  apply list_refines_sequences
  · exact fun n => Links.ring_nil.mpr ⟨rfl, rfl⟩
  · exact ⟨⟨by decide, rfl⟩, ⟨by decide, rfl⟩, ⟨by decide, rfl⟩, trivial, List.cons_ne_nil 3 [1], trivial⟩

end Wifimodem
