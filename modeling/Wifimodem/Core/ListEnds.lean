import Wifimodem.Core.List

/-!
# The ends of a list

Pushing and unshifting link an item in next to the head, on one side each, and
popping and shifting take one away.
-/

namespace Wifimodem

section
variable {α β : Type*} [DecidableEq α]

def listPush (heap : α → ListNode α β) (self item : α) := linkBehind heap self item

def listUnshift (heap : α → ListNode α β) (self item : α) := linkInFront heap self item

/-- The item comes back and every other node is as it was. -/
def Undoes (heap : α → ListNode α β) (item : α) (r : (α → ListNode α β) × α) : Prop :=
  r.2 = item ∧ ∀ n, n ≠ item → r.1 n = heap n

def PopUndoesPush (heap : α → ListNode α β) (self item : α) : Prop :=
  Undoes heap item (listPop (listPush heap self item) self)

def ShiftUndoesUnshift (heap : α → ListNode α β) (self item : α) : Prop :=
  Undoes heap item (listShift (listUnshift heap self item) self)

/-! ## Linking in and taking out -/

variable {heap : α → ListNode α β} {self item n : α} {xs : List α}

theorem setPrev_ptr (m v : α) : (setPrev heap m v n).ptr = (heap n).ptr := by
  rw [setPrev, Function.update_apply]
  split
  · rename_i hn
    rw [hn]
  · rfl

theorem setNext_ptr (m v : α) : (setNext heap m v n).ptr = (heap n).ptr := by
  rw [setNext, Function.update_apply]
  split
  · rename_i hn
    rw [hn]
  · rfl

theorem linkInFront_ptr : (linkInFront heap self item n).ptr = (heap n).ptr := by
  simp only [linkInFront, setPrev_ptr, setNext_ptr]

theorem linkBehind_ptr : (linkBehind heap self item n).ptr = (heap n).ptr := by
  simp only [linkBehind, setPrev_ptr, setNext_ptr]

theorem unlink_ptr : (unlink heap self n).ptr = (heap n).ptr := by
  simp only [unlink, setPrev_ptr, setNext_ptr]

omit [DecidableEq α] in
theorem node_ext {heap' : α → ListNode α β} (hptr : (heap' n).ptr = (heap n).ptr)
    (hlinks : (links heap').prev n = (links heap).prev n ∧
      (links heap').next n = (links heap).next n) : heap' n = heap n := by
  obtain ⟨hprev, hnext⟩ := hlinks
  change (heap' n).prev = (heap n).prev at hprev
  change (heap' n).next = (heap n).next at hnext
  cases hnode : heap n
  cases hnode' : heap' n
  rw [hnode, hnode'] at hptr hprev hnext
  rw [ListNode.mk.injEq]
  exact ⟨hprev, hnext, hptr⟩

theorem unlink_linkInFront (hr : (links heap).Ring self xs) (hitem : item ∉ self :: xs)
    (hn : n ≠ item) : unlink (linkInFront heap self item) item n = heap n := by
  have hself : item ≠ self := List.ne_of_not_mem_cons hitem
  have hprev : item ≠ (links heap).prev self :=
    fun he => hitem (he ▸ (Links.ring_closed hr List.mem_cons_self).2)
  apply node_ext
  · rw [unlink_ptr, linkInFront_ptr]
  · rw [links_unlink, links_linkInFront hself]
    exact Links.remove_insertBefore (Links.ring_inverse hr).2 hself hprev hn

theorem unlink_linkBehind (hr : (links heap).Ring self xs) (hitem : item ∉ self :: xs)
    (hn : n ≠ item) : unlink (linkBehind heap self item) item n = heap n := by
  have hself : item ≠ self := List.ne_of_not_mem_cons hitem
  have hnext : item ≠ (links heap).next self :=
    fun he => hitem (he ▸ (Links.ring_closed hr List.mem_cons_self).1)
  apply node_ext
  · rw [unlink_ptr, linkBehind_ptr]
  · rw [links_unlink, links_linkBehind hself, Links.remove_flip]
    exact (Links.remove_insertBefore (Links.ring_inverse hr).1 hself hnext hn).symm

theorem ring_linkInFront (hr : (links heap).Ring self xs) (hitem : item ∉ self :: xs) :
    (links (linkInFront heap self item)).Ring self (xs ++ [item]) := by
  rw [links_linkInFront (List.ne_of_not_mem_cons hitem)]
  exact Links.ring_insert hr hitem

theorem ring_linkBehind (hr : (links heap).Ring self xs) (hitem : item ∉ self :: xs) :
    (links (linkBehind heap self item)).Ring self (item :: xs) := by
  have hitem' : item ∉ self :: xs.reverse := by simpa using hitem
  have hins := Links.ring_flip (Links.ring_insert (Links.ring_flip hr) hitem')
  rw [links_linkBehind (List.ne_of_not_mem_cons hitem)]
  simpa using hins

/-! ## Which pairs undo each other -/

/-- A push is undone by a shift: both work next to the first item. -/
theorem shift_undoes_push (hr : (links heap).Ring self xs) (hitem : item ∉ self :: xs) :
    Undoes heap item (listShift (listPush heap self item) self) := by
  have hfirst : (linkBehind heap self item self).next = item :=
    (Links.ring_cons (ring_linkBehind hr hitem)).1
  rw [listShift, listPush, hfirst]
  exact ⟨rfl, fun n hn => unlink_linkBehind hr hitem hn⟩

/-- An unshift is undone by a pop: both work next to the last item. -/
theorem pop_undoes_unshift (hr : (links heap).Ring self xs) (hitem : item ∉ self :: xs) :
    Undoes heap item (listPop (listUnshift heap self item) self) := by
  have hlast : (linkInFront heap self item self).prev = item :=
    (Links.ring_append_singleton (ring_linkInFront hr hitem)).2
  rw [listPop, listUnshift, hlast]
  exact ⟨rfl, fun n hn => unlink_linkInFront hr hitem hn⟩

theorem popUndoesPush_iff (hr : (links heap).Ring self xs) (hitem : item ∉ self :: xs) :
    PopUndoesPush heap self item ↔ xs = [] := by
  have hpush := ring_linkBehind hr hitem
  constructor
  · rintro ⟨hpop, _⟩
    rcases List.eq_nil_or_concat' xs with hnil | ⟨front, last, rfl⟩
    · exact hnil
    · rw [← List.cons_append] at hpush
      have hlast : (linkBehind heap self item self).prev = last :=
        (Links.ring_append_singleton hpush).2
      refine absurd (List.mem_cons_of_mem self (List.mem_append_right front ?_)) hitem
      rw [← hpop, listPop, listPush, hlast]
      exact List.mem_cons_self
  · rintro rfl
    obtain ⟨hshift, hrest⟩ := shift_undoes_push hr hitem
    have hlone : (links (linkBehind heap self item)).Ring self ([] ++ [item]) := hpush
    have hends : (linkBehind heap self item self).prev = (linkBehind heap self item self).next :=
      (Links.ring_append_singleton hlone).2.trans (Links.ring_cons hpush).1.symm
    rw [PopUndoesPush, listPop, listPush, hends]
    exact ⟨hshift, hrest⟩

theorem shiftUndoesUnshift_iff (hr : (links heap).Ring self xs) (hitem : item ∉ self :: xs) :
    ShiftUndoesUnshift heap self item ↔ xs = [] := by
  have hunshift := ring_linkInFront hr hitem
  constructor
  · rintro ⟨hshift, _⟩
    cases xs with
    | nil => rfl
    | cons first rest =>
      have hfirst : (linkInFront heap self item self).next = first :=
        (Links.ring_cons hunshift).1
      refine absurd (List.mem_cons_of_mem self ?_) hitem
      rw [← hshift, listShift, listUnshift, hfirst]
      exact List.mem_cons_self
  · rintro rfl
    obtain ⟨hpop, hrest⟩ := pop_undoes_unshift hr hitem
    have hends : (linkInFront heap self item self).next = (linkInFront heap self item self).prev :=
      (Links.ring_cons hunshift).1.trans (Links.ring_append_singleton hunshift).2.symm
    rw [ShiftUndoesUnshift, listShift, listUnshift, hends]
    exact ⟨hpop, hrest⟩

theorem list_ends_undo_iff (hr : (links heap).Ring self xs) (hitem : item ∉ self :: xs) :
    (PopUndoesPush heap self item ↔ xs = []) ∧ (ShiftUndoesUnshift heap self item ↔ xs = []) :=
  ⟨popUndoesPush_iff hr hitem, shiftUndoesUnshift_iff hr hitem⟩

end

/-- A list headed by 0 that holds 1. -/
def oneItem : Nat → ListNode Nat Unit :=
  listAppend (fun n => ⟨n, n, ()⟩) 0 1

theorem list_ends_undo_iff_empty :
    (links fun n : Nat => (⟨n, n, ()⟩ : ListNode Nat Unit)).Ring 0 [] ∧ 1 ∉ [0] ∧
      PopUndoesPush (fun n : Nat => (⟨n, n, ()⟩ : ListNode Nat Unit)) 0 1 ∧
      ShiftUndoesUnshift (fun n : Nat => (⟨n, n, ()⟩ : ListNode Nat Unit)) 0 1 := by
  have hr : (links fun n : Nat => (⟨n, n, ()⟩ : ListNode Nat Unit)).Ring 0 [] :=
    Links.ring_nil.mpr ⟨rfl, rfl⟩
  have hitem : 1 ∉ [0] := by decide
  obtain ⟨hpush, hunshift⟩ := list_ends_undo_iff hr hitem
  exact ⟨hr, hitem, hpush.mpr rfl, hunshift.mpr rfl⟩

theorem list_ends_one_item :
    (links oneItem).Ring 0 [1] ∧ ¬PopUndoesPush oneItem 0 2 ∧ ¬ShiftUndoesUnshift oneItem 0 2 := by
  refine ⟨ring_linkInFront (Links.ring_nil.mpr ⟨rfl, rfl⟩) (by decide), ?_, ?_⟩
  · rintro ⟨hitem, _⟩
    have hpop : (1 : Nat) = 2 := hitem
    exact absurd hpop (by decide)
  · rintro ⟨hitem, _⟩
    have hshift : (1 : Nat) = 2 := hitem
    exact absurd hshift (by decide)

end Wifimodem
