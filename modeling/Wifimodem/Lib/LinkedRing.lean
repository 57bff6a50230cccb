import Mathlib.Data.List.Chain
import Mathlib.Data.List.Nodup

/-!
# Doubly linked rings

Every node has a link forwards and a link backwards. A ring is read off from
one of its nodes on, and the same ring read from another node is a rotation.
-/

structure Links (α : Type*) where
  prev : α → α
  next : α → α

namespace Links

variable {α : Type*}

/-- The same nodes with the two directions exchanged. -/
def flip (h : Links α) : Links α := ⟨h.next, h.prev⟩

def Linked (h : Links α) (l : List α) : Prop := l.IsChain fun a b => h.next a = b ∧ h.prev b = a

/-- `xs` are the nodes that follow `n` until `n` comes again. -/
def Ring (h : Links α) (n : α) (xs : List α) : Prop :=
  (n :: xs).Nodup ∧ h.Linked (n :: (xs ++ [n]))

variable {h h' : Links α} {l : List α} {n m x : α} {xs ys zs : List α}

@[simp] theorem flip_flip (h : Links α) : h.flip.flip = h := rfl

theorem linked_congr (hl : h.Linked l) (hnext : ∀ a ∈ l.dropLast, h'.next a = h.next a)
    (hprev : ∀ b ∈ l.tail, h'.prev b = h.prev b) : h'.Linked l := by
  induction l with
  | nil => exact List.isChain_nil
  | cons a l ih =>
    cases l with
    | nil => exact List.isChain_singleton a
    | cons b l =>
      obtain ⟨⟨hab, hba⟩, htail⟩ := List.isChain_cons_cons.mp hl
      refine List.isChain_cons_cons.mpr ⟨⟨?_, ?_⟩, ?_⟩
      · rw [hnext a List.mem_cons_self, hab]
      · rw [hprev b List.mem_cons_self, hba]
      · apply ih htail
        · intro c hc
          exact hnext c (List.mem_cons_of_mem a hc)
        · intro c hc
          exact hprev c (List.mem_cons_of_mem b hc)

theorem linked_flip : h.flip.Linked l.reverse ↔ h.Linked l := by
  rw [Linked, List.isChain_reverse]
  apply List.IsChain.iff
  intro a b
  exact and_comm

theorem ring_nil : h.Ring n [] ↔ h.next n = n ∧ h.prev n = n := by
  simp [Ring, Linked]

theorem ring_flip (hr : h.Ring n xs) : h.flip.Ring n xs.reverse := by
  obtain ⟨hnd, hl⟩ := hr
  constructor
  · rw [List.nodup_cons, List.mem_reverse, List.nodup_reverse]
    exact List.nodup_cons.mp hnd
  · have hrev := linked_flip.mpr hl
    simpa using hrev

theorem ring_rotate (hr : h.Ring n (xs ++ m :: ys)) : h.Ring m (ys ++ n :: xs) := by
  obtain ⟨hnd, hl⟩ := hr
  constructor
  · rw [← List.cons_append] at hnd
    exact (List.perm_append_comm.nodup_iff).mp hnd
  · have hl' : h.Linked ((n :: xs) ++ m :: (ys ++ [n])) := by simpa using hl
    obtain ⟨hleft, hright⟩ := List.isChain_split.mp hl'
    have hjoin : h.Linked ((m :: ys) ++ n :: (xs ++ [m])) :=
      List.isChain_split.mpr ⟨hright, hleft⟩
    simpa using hjoin

theorem ring_cons (hr : h.Ring n (m :: xs)) : h.next n = m ∧ h.prev m = n := by
  obtain ⟨_, hl⟩ := hr
  exact (List.isChain_cons_cons.mp hl).1

theorem ring_append_singleton (hr : h.Ring n (xs ++ [m])) : h.next m = n ∧ h.prev n = m := by
  have hrot := ring_rotate hr
  exact ring_cons hrot

/-- Both directions undo each other on a ring. -/
theorem ring_inverse (hr : h.Ring n xs) : h.prev (h.next n) = n ∧ h.next (h.prev n) = n := by
  constructor
  · cases xs with
    | nil => rw [(ring_nil.mp hr).1, (ring_nil.mp hr).2]
    | cons m xs => rw [(ring_cons hr).1, (ring_cons hr).2]
  · obtain rfl | ⟨xs, m, rfl⟩ := List.eq_nil_or_concat' xs
    · rw [(ring_nil.mp hr).2, (ring_nil.mp hr).1]
    · rw [(ring_append_singleton hr).2, (ring_append_singleton hr).1]

theorem linked_unique (hx : h.Linked (m :: (xs ++ [n]))) (hy : h.Linked (m :: (ys ++ [n])))
    (hxs : n ∉ xs) (hys : n ∉ ys) : xs = ys := by
  induction xs generalizing m ys with
  | nil =>
    cases ys with
    | nil => rfl
    | cons y ys =>
      have hn := (List.isChain_cons_cons.mp hx).1.1
      have hmy := (List.isChain_cons_cons.mp hy).1.1
      exact absurd (hmy.symm.trans hn ▸ List.mem_cons_self) hys
  | cons x xs ih =>
    obtain ⟨⟨hmx, _⟩, hx'⟩ := List.isChain_cons_cons.mp hx
    cases ys with
    | nil =>
      have hn := (List.isChain_cons_cons.mp hy).1.1
      exact absurd (hmx.symm.trans hn ▸ List.mem_cons_self) hxs
    | cons y ys =>
      obtain ⟨⟨hmy, _⟩, hy'⟩ := List.isChain_cons_cons.mp hy
      obtain rfl := hmx.symm.trans hmy
      rw [ih hx' hy' (fun hmem => hxs (List.mem_cons_of_mem _ hmem))
        (fun hmem => hys (List.mem_cons_of_mem _ hmem))]

theorem ring_unique (hx : h.Ring n xs) (hy : h.Ring n ys) : xs = ys :=
  linked_unique hx.2 hy.2 (List.nodup_cons.mp hx.1).1 (List.nodup_cons.mp hy.1).1

/-- A ring that does not pass through the changed links is still there. -/
theorem ring_congr (hr : h.Ring n xs) (hnext : ∀ a ∈ n :: xs, h'.next a = h.next a)
    (hprev : ∀ a ∈ n :: xs, h'.prev a = h.prev a) : h'.Ring n xs := by
  refine ⟨hr.1, linked_congr hr.2 ?_ ?_⟩
  · intro a ha
    rw [← List.cons_append, List.dropLast_concat] at ha
    exact hnext a ha
  · intro a ha
    rw [List.tail_cons, List.mem_append, List.mem_singleton] at ha
    exact hprev a (List.mem_cons.mpr ha.symm)

theorem ring_closed (hr : h.Ring n xs) {a : α} (ha : a ∈ n :: xs) :
    h.next a ∈ n :: xs ∧ h.prev a ∈ n :: xs := by
  obtain ⟨ys, hys, hperm⟩ : ∃ ys, h.Ring a ys ∧ ∀ b, b ∈ a :: ys → b ∈ n :: xs := by
    obtain rfl | hmem := List.mem_cons.mp ha
    · exact ⟨xs, hr, fun b hb => hb⟩
    · obtain ⟨ys, zs, rfl⟩ := List.append_of_mem hmem
      refine ⟨zs ++ n :: ys, ring_rotate hr, ?_⟩
      intro b hb
      rw [← List.cons_append] at hb
      exact (List.perm_append_comm.mem_iff).mp hb
  constructor
  · apply hperm
    cases ys with
    | nil => exact List.mem_cons.mpr (.inl (ring_nil.mp hys).1)
    | cons y ys =>
      rw [(ring_cons hys).1]
      exact List.mem_cons_of_mem a List.mem_cons_self
  · apply hperm
    obtain rfl | ⟨ys, y, rfl⟩ := List.eq_nil_or_concat' ys
    · exact List.mem_cons.mpr (.inl (ring_nil.mp hys).2)
    · rw [(ring_append_singleton hys).2]
      exact List.mem_cons_of_mem a (List.mem_append_right ys List.mem_cons_self)

/-! ## All rings at once -/

/-- `seqs n` are the nodes that follow `n`, for every node. -/
def Reads (h : Links α) (seqs : α → List α) : Prop := ∀ n, h.Ring n (seqs n)

variable {seqs : α → List α}

theorem reads_mem (hs : h.Reads seqs) (hm : m ∈ seqs n) :
    ∃ ys zs, seqs n = ys ++ m :: zs ∧ seqs m = zs ++ n :: ys := by
  obtain ⟨ys, zs, hsplit⟩ := List.append_of_mem hm
  refine ⟨ys, zs, hsplit, ?_⟩
  have hr := hs n
  rw [hsplit] at hr
  exact ring_unique (hs m) (ring_rotate hr)

theorem reads_mem_symm (hs : h.Reads seqs) (hm : m ∈ seqs n) : n ∈ seqs m := by
  obtain ⟨ys, zs, _, hseq⟩ := reads_mem hs hm
  rw [hseq]
  exact List.mem_append_right zs List.mem_cons_self

theorem reads_flip (hs : h.Reads seqs) : h.flip.Reads fun n => (seqs n).reverse :=
  fun n => ring_flip (hs n)

/-- Following one direction until the ring closes, for at most `fuel` nodes. -/
def walk [DecidableEq α] (step : α → α) (stop : α) : Nat → α → Option (List α)
  | 0, _ => none
  | fuel + 1, it => if it = stop then some [] else (walk step stop fuel (step it)).map (it :: ·)

theorem walk_linked [DecidableEq α] (hl : h.Linked (m :: (xs ++ [n]))) (hn : n ∉ xs) {fuel : Nat}
    (hfuel : xs.length < fuel) : walk h.next n fuel (h.next m) = some xs := by
  induction xs generalizing m fuel with
  | nil =>
    obtain ⟨fuel, rfl⟩ := Nat.exists_eq_succ_of_ne_zero (Nat.ne_of_gt hfuel)
    have hnext := (List.isChain_cons_cons.mp hl).1.1
    rw [hnext, walk, if_pos rfl]
  | cons x xs ih =>
    obtain ⟨fuel, rfl⟩ := Nat.exists_eq_succ_of_ne_zero (Nat.ne_of_gt (Nat.zero_lt_of_lt hfuel))
    obtain ⟨⟨hnext, _⟩, hl'⟩ := List.isChain_cons_cons.mp hl
    obtain ⟨hxn, hn'⟩ := not_or.mp (mt List.mem_cons.mpr hn)
    rw [hnext, walk, if_neg (Ne.symm hxn), ih hl' hn' (Nat.lt_of_succ_lt_succ hfuel)]
    rfl

theorem walk_next [DecidableEq α] (hr : h.Ring n xs) {fuel : Nat} (hfuel : xs.length < fuel) :
    walk h.next n fuel (h.next n) = some xs :=
  walk_linked hr.2 (List.nodup_cons.mp hr.1).1 hfuel

theorem walk_prev [DecidableEq α] (hr : h.Ring n xs) {fuel : Nat} (hfuel : xs.length < fuel) :
    walk h.prev n fuel (h.prev n) = some xs.reverse := by
  apply walk_next (ring_flip hr)
  rwa [List.length_reverse]

/-- A ring without the link that closes it, from `n` to its last node `p`. -/
theorem linked_congr_open {p : α} (hnd : (n :: xs).Nodup) (hp : n :: xs = ys ++ [p])
    (hl : h.Linked (ys ++ [p])) (hnext : ∀ a ∈ n :: xs, a ≠ p → h'.next a = h.next a)
    (hprev : ∀ b ∈ n :: xs, b ≠ n → h'.prev b = h.prev b) : h'.Linked (ys ++ [p]) := by
  apply linked_congr hl
  · intro a ha
    rw [List.dropLast_concat] at ha
    apply hnext
    · rw [hp]
      exact List.mem_append_left _ ha
    · rintro rfl
      rw [hp] at hnd
      exact (List.nodup_append.mp hnd).2.2 a ha a List.mem_cons_self rfl
  · intro b hb
    rw [← hp, List.tail_cons] at hb
    apply hprev b (List.mem_cons_of_mem n hb)
    rintro rfl
    exact (List.nodup_cons.mp hnd).1 hb

/-! ## Linking a node in -/

variable [DecidableEq α] {node item : α}

def insertBefore (h : Links α) (node item : α) : Links α where
  prev n := if n = node then item else if n = item then h.prev node else h.prev n
  next n := if n = h.prev node then item else if n = item then node else h.next n

theorem ring_insert (hr : h.Ring node xs) (hitem : item ∉ node :: xs) :
    (h.insertBefore node item).Ring node (xs ++ [item]) := by
  obtain ⟨hnd, hl⟩ := hr
  constructor
  · rw [← List.cons_append]
    exact hnd.append (List.nodup_singleton item) (List.disjoint_singleton.mpr hitem)
  · have hne : item ≠ node := fun he => hitem (he ▸ List.mem_cons_self)
    obtain ⟨ys, p, hp⟩ : ∃ ys p, node :: xs = ys ++ [p] := by
      obtain hnil | h' := List.eq_nil_or_concat' (node :: xs)
      · cases hnil
      · exact h'
    have hl' : h.Linked (ys ++ p :: [node]) := by
      rw [← List.cons_append, hp] at hl
      simpa using hl
    obtain ⟨hfront, hlast⟩ := List.isChain_split.mp hl'
    obtain ⟨_, hprev⟩ := (List.isChain_cons_cons.mp hlast).1
    have hitemp : item ≠ p := by
      rintro rfl
      apply hitem
      rw [hp]
      exact List.mem_append_right ys List.mem_cons_self
    have hjoin : (h.insertBefore node item).Linked (ys ++ p :: [item, node]) := by
      refine List.isChain_split.mpr ⟨linked_congr_open hnd hp hfront ?_ ?_, ?_⟩
      · intro a ha hap
        simp only [insertBefore, hprev]
        rw [if_neg hap, if_neg (ne_of_mem_of_not_mem ha hitem)]
      · intro b hb hbn
        simp only [insertBefore]
        rw [if_neg hbn, if_neg (ne_of_mem_of_not_mem hb hitem)]
      · simp [insertBefore, hprev, hne, hitemp]
    have hshape : node :: (xs ++ [item] ++ [node]) = ys ++ p :: [item, node] := by
      rw [List.append_assoc, ← List.cons_append, hp]
      simp
    rw [hshape]
    exact hjoin

theorem ring_insert_frame (hr : h.Ring n xs) (hnode : node ∉ n :: xs) (hitem : item ∉ n :: xs)
    (hinv : h.next (h.prev node) = node) : (h.insertBefore node item).Ring n xs := by
  have hprev : h.prev node ∉ n :: xs := by
    intro hmem
    have hnext := (ring_closed hr hmem).1
    rw [hinv] at hnext
    exact hnode hnext
  apply ring_congr hr
  · intro a ha
    simp only [insertBefore]
    rw [if_neg (ne_of_mem_of_not_mem ha hprev), if_neg (ne_of_mem_of_not_mem ha hitem)]
  · intro a ha
    simp only [insertBefore]
    rw [if_neg (ne_of_mem_of_not_mem ha hnode), if_neg (ne_of_mem_of_not_mem ha hitem)]

/-! ## Taking a node out -/

def remove (h : Links α) (node : α) : Links α where
  prev n := if n = node then node else if n = h.next node then h.prev node else h.prev n
  next n := if n = node then node else if n = h.prev node then h.next node else h.next n

theorem remove_self (h : Links α) (node : α) : (h.remove node).Ring node [] := by
  simp [ring_nil, remove]

theorem ring_remove (hr : h.Ring node (n :: xs)) : (h.remove node).Ring n xs := by
  obtain ⟨hnext, _⟩ := ring_cons hr
  obtain ⟨hnd, hl⟩ := hr
  obtain ⟨hnode, hnd'⟩ := List.nodup_cons.mp hnd
  refine ⟨hnd', ?_⟩
  obtain ⟨ys, p, hp⟩ : ∃ ys p, n :: xs = ys ++ [p] := by
    obtain hnil | h' := List.eq_nil_or_concat' (n :: xs)
    · cases hnil
    · exact h'
  have hl' : h.Linked (ys ++ p :: [node]) := by
    have htail : h.Linked ((n :: xs) ++ [node]) := (List.isChain_cons_cons.mp hl).2
    rw [hp] at htail
    simpa using htail
  obtain ⟨hfront, hlast⟩ := List.isChain_split.mp hl'
  obtain ⟨_, hprev⟩ := (List.isChain_cons_cons.mp hlast).1
  have hmem : p ∈ n :: xs := by
    rw [hp]
    exact List.mem_append_right ys List.mem_cons_self
  have hjoin : (h.remove node).Linked (ys ++ p :: [n]) := by
    refine List.isChain_split.mpr ⟨linked_congr_open hnd' hp hfront ?_ ?_, ?_⟩
    · intro a ha hap
      simp only [remove, hprev]
      rw [if_neg (ne_of_mem_of_not_mem ha hnode), if_neg hap]
    · intro b hb hbn
      simp only [remove, hnext]
      rw [if_neg (ne_of_mem_of_not_mem hb hnode), if_neg hbn]
    · have hpn : p ≠ node := fun he => hnode (he ▸ hmem)
      have hfn : n ≠ node := fun he => hnode (he ▸ List.mem_cons_self)
      simp [remove, hnext, hprev, hpn, hfn]
  have hshape : n :: (xs ++ [n]) = ys ++ p :: [n] := by
    rw [← List.cons_append, hp]
    simp
  rw [hshape]
  exact hjoin

theorem ring_remove_frame (hr : h.Ring n xs) (hnode : node ∉ n :: xs)
    (hinv : h.prev (h.next node) = node ∧ h.next (h.prev node) = node) :
    (h.remove node).Ring n xs := by
  obtain ⟨hprevnext, hnextprev⟩ := hinv
  have hprev : h.prev node ∉ n :: xs := by
    intro hmem
    have hback := (ring_closed hr hmem).1
    rw [hnextprev] at hback
    exact hnode hback
  have hnext : h.next node ∉ n :: xs := by
    intro hmem
    have hback := (ring_closed hr hmem).2
    rw [hprevnext] at hback
    exact hnode hback
  apply ring_congr hr
  · intro a ha
    simp only [remove]
    rw [if_neg (ne_of_mem_of_not_mem ha hnode), if_neg (ne_of_mem_of_not_mem ha hprev)]
  · intro a ha
    simp only [remove]
    rw [if_neg (ne_of_mem_of_not_mem ha hnode), if_neg (ne_of_mem_of_not_mem ha hnext)]

/-- Taking out the node that was linked in last undoes the link. -/
theorem remove_insertBefore (hinv : h.next (h.prev node) = node) (hnode : item ≠ node)
    (hprev : item ≠ h.prev node) (hn : n ≠ item) :
    ((h.insertBefore node item).remove item).prev n = h.prev n ∧
      ((h.insertBefore node item).remove item).next n = h.next n := by
  simp only [remove, insertBefore, if_neg hnode, if_neg hprev, if_neg hn, if_true]
  constructor
  · split
    · rename_i hnn
      rw [hnn]
    · rfl
  · split
    · rename_i hnp
      rw [hnp, hinv]
    · rfl

theorem remove_flip (h : Links α) (node : α) : h.flip.remove node = (h.remove node).flip := rfl

/-! ## The sequences after each edit -/

variable {seqs : α → List α}

def seqInsertBefore (node item : α) (seqs : α → List α) (n : α) : List α :=
  if n = item then node :: seqs node
  else if n = node then seqs node ++ [item]
  else (seqs n).flatMap fun m => if m = node then [item, node] else [m]

def seqInsertAfter (node item : α) (seqs : α → List α) (n : α) : List α :=
  if n = item then seqs node ++ [node]
  else if n = node then item :: seqs node
  else (seqs n).flatMap fun m => if m = node then [node, item] else [m]

def seqRemove (node : α) (seqs : α → List α) (n : α) : List α :=
  if n = node then [] else (seqs n).erase node

theorem flatMap_of_not_mem {rs : List α} (hl : node ∉ l) :
    (l.flatMap fun m => if m = node then rs else [m]) = l := by
  induction l with
  | nil => rfl
  | cons a l ih =>
    obtain ⟨ha, hl'⟩ := not_or.mp (mt List.mem_cons.mpr hl)
    rw [List.flatMap_cons, if_neg (Ne.symm ha), ih hl']
    rfl

theorem flatMap_of_mem {rs : List α} (hx : node ∉ xs) (hy : node ∉ ys) :
    ((xs ++ node :: ys).flatMap fun m => if m = node then rs else [m]) = xs ++ (rs ++ ys) := by
  rw [List.flatMap_append, List.flatMap_cons, if_pos rfl, flatMap_of_not_mem hx,
    flatMap_of_not_mem hy]

theorem reads_insertBefore (hs : h.Reads seqs) (hne : item ≠ node) (hitem : seqs item = []) :
    (h.insertBefore node item).Reads (seqInsertBefore node item seqs) := by
  have hout : ∀ n, item ∉ seqs n := by
    intro n hmem
    have hback := reads_mem_symm hs hmem
    rw [hitem] at hback
    cases hback
  have hnode : (h.insertBefore node item).Ring node (seqs node ++ [item]) :=
    ring_insert (hs node) fun hmem => (List.mem_cons.mp hmem).elim hne (hout node)
  intro n
  rw [seqInsertBefore]
  split
  · rename_i hn
    rw [hn]
    exact ring_rotate hnode
  split
  · rename_i hn
    rw [hn]
    exact hnode
  · rename_i hni hnn
    cases Decidable.em (node ∈ seqs n) with
    | inl hmem =>
      obtain ⟨ys, zs, hn, hseq⟩ := reads_mem hs hmem
      have hnd := (List.nodup_cons.mp (hs n).1).2
      rw [hn] at hnd
      obtain ⟨_, hcons, hdisj⟩ := List.nodup_append.mp hnd
      have hys : node ∉ ys := fun hy => hdisj node hy node List.mem_cons_self rfl
      rw [hn, flatMap_of_mem hys (List.nodup_cons.mp hcons).1]
      rw [hseq, List.append_assoc] at hnode
      have hrot := ring_rotate hnode
      simpa using hrot
    | inr hmem =>
      rw [flatMap_of_not_mem hmem]
      apply ring_insert_frame (hs n)
      · exact fun hc => (List.mem_cons.mp hc).elim (fun he => hnn he.symm) hmem
      · exact fun hc => (List.mem_cons.mp hc).elim (fun he => hni he.symm) (hout n)
      · exact (ring_inverse (hs node)).2

theorem reads_insertAfter (hs : h.Reads seqs) (hne : item ≠ node) (hitem : seqs item = []) :
    (h.flip.insertBefore node item).flip.Reads (seqInsertAfter node item seqs) := by
  have hflip := reads_flip (reads_insertBefore (reads_flip hs) hne (by rw [hitem]; rfl))
  intro n
  have hseq : seqInsertAfter node item seqs n =
      (seqInsertBefore node item (fun n => (seqs n).reverse) n).reverse := by
    rw [seqInsertAfter, seqInsertBefore]
    split
    · simp
    split
    · simp
    · rw [List.reverse_flatMap, List.reverse_reverse]
      congr 1
      funext m
      simp only [Function.comp_apply]
      split <;> rfl
  rw [hseq]
  exact hflip n

theorem reads_remove (hs : h.Reads seqs) (node : α) :
    (h.remove node).Reads (seqRemove node seqs) := by
  intro n
  rw [seqRemove]
  split
  · rename_i hn
    rw [hn]
    exact remove_self h node
  · rename_i hn
    cases Decidable.em (node ∈ seqs n) with
    | inl hmem =>
      obtain ⟨ys, zs, hseq, hnode⟩ := reads_mem hs hmem
      have hys : node ∉ ys := by
        have hnd := (List.nodup_cons.mp (hs n).1).2
        rw [hseq] at hnd
        exact fun hy => (List.nodup_append.mp hnd).2.2 node hy node List.mem_cons_self rfl
      rw [hseq, List.erase_append_right _ hys, List.erase_cons_head]
      have hr := hs node
      rw [hnode] at hr
      cases zs with
      | nil =>
        rw [List.append_nil]
        exact ring_remove hr
      | cons z zs =>
        have hrot := ring_rotate (ring_remove hr)
        exact hrot
    | inr hmem =>
      rw [List.erase_of_not_mem hmem]
      apply ring_remove_frame (hs n)
      · exact fun hc => (List.mem_cons.mp hc).elim (fun he => hn he.symm) hmem
      · exact ring_inverse (hs node)

end Links
