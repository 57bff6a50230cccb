import Mathlib.Data.List.FinRange
import Mathlib.Data.Nat.Bitwise
import Mathlib.Logic.Function.Basic
import Wifimodem.Core.Types
import Wifimodem.Lib.Transducer

/-!
# Blinking patterns

A timer steps through the 32 bits of each channel's pattern and sets the level of
the pin that the channel is attached to. The calls of the drivers are kept in their
order; `out` is the signal that connects a pin to its own output register.
-/

namespace Wifimodem

open Transducer Function

def ledcontrolNum : Nat := 4

inductive LedCall where
  | newTimer (res : Nat) (rc : Int)
  | registerCallbacks
  | setAlarm (count : Nat)
  | enable (rc : Int)
  | start (rc : Int)
  | stop
  | disable
  | delTimer
  | resetPin (gpio : Int)
  | matrixOut (gpio signal : Int) (invert : Bool)
  | setOutput (gpio : Int)
  | setLevel (gpio : Int) (level : Bool)
deriving DecidableEq, Repr

/-- A channel without a pin, or a pin without another signal, has `-1` there. -/
structure Ledcontrol where
  timer : Bool
  count : UInt32
  gpio : Fin ledcontrolNum → Int
  link : Fin ledcontrolNum → Int
  pattern : Fin ledcontrolNum → UInt32
  calls : List LedCall

def Ledcontrol.call (l : Ledcontrol) (c : LedCall) : Ledcontrol := { l with calls := l.calls ++ [c] }

/-- The timer is created with the result `rv`, and `hz` is not zero. -/
def ledcontrolInit (res hz : Nat) (rv : Int) : Ledcontrol :=
  let l : Ledcontrol :=
    { timer := false
      count := 0
      gpio := fun _ => -1
      link := fun _ => -1
      pattern := fun _ => 0
      calls := [.newTimer res rv] }
  if rv ≠ 0 then l
  else (({ l with timer := true }.call .registerCallbacks).call (.setAlarm (res / hz)))

def ledcontrolStart (l : Ledcontrol) (rc rv : Int) : Ledcontrol × Int :=
  if ¬l.timer then (l, -1)
  else
    let l := l.call (.enable rc)
    if rc ≠ 0 then (l, rc) else (l.call (.start rv), rv)

def ledcontrolStop (l : Ledcontrol) : Ledcontrol :=
  if ¬l.timer then l else (l.call .stop).call .disable

def ledChannel (ch : Int) : Option (Fin ledcontrolNum) :=
  if h : 0 ≤ ch ∧ ch.toNat < ledcontrolNum then some ⟨ch.toNat, h.2⟩ else none

section
variable (out : Int)

def releaseChannel (l : Ledcontrol) (i : Fin ledcontrolNum) : Ledcontrol :=
  if l.gpio i < 0 then l
  else
    let l' := (l.call (.resetPin (l.gpio i))).call (.matrixOut (l.gpio i) out false)
    { l' with gpio := update l.gpio i (-1), link := update l.link i (-1) }

def ledcontrolDetach (l : Ledcontrol) (ch : Int) : Ledcontrol :=
  match ledChannel ch with
  | none => l
  | some i => releaseChannel out l i

def occupyChannel (l : Ledcontrol) (i : Fin ledcontrolNum) (gpio link : Int) : Ledcontrol :=
  let l' := (((l.call (.resetPin gpio)).call (.matrixOut gpio out false)).call
    (.setOutput gpio)).call (.setLevel gpio false)
  { l' with gpio := update l.gpio i gpio, link := update l.link i link }

def ledcontrolAttach (l : Ledcontrol) (ch gpio link : Int) : Ledcontrol :=
  let l := ledcontrolDetach out l ch
  match ledChannel ch with
  | none => l
  | some i => if gpio < 0 then l else occupyChannel out l i gpio link

def ledcontrolShadow (l : Ledcontrol) (ch : Int) (shadow : Bool) : Ledcontrol :=
  match ledChannel ch with
  | none => l
  | some i =>
    if l.gpio i < 0 ∨ l.link i < 0 then l
    else l.call (.matrixOut (l.gpio i) (if shadow then l.link i else out) true)

def ledcontrolDel (l : Ledcontrol) : Ledcontrol :=
  let l := (List.range ledcontrolNum).foldl (fun l i => ledcontrolDetach out l i) l
  let l := ledcontrolStop l
  if l.timer then l.call .delTimer else l

def ledLevel (mask : UInt32) (l : Ledcontrol) (i : Fin ledcontrolNum) : Ledcontrol :=
  if l.gpio i ≥ 0 then l.call (.setLevel (l.gpio i) (l.pattern i &&& mask != 0)) else l

/-- The callback of the timer. -/
def ledCallback (l : Ledcontrol) : Ledcontrol :=
  let mask := 1 <<< l.count
  let l := { l with count := (l.count + 1) &&& 31 }
  (List.finRange ledcontrolNum).foldl (ledLevel mask) l

inductive LedOp where
  | attach (ch gpio link : Int)
  | detach (ch : Int)
  | shadow (ch : Int) (shadow : Bool)
  | pattern (i : Fin ledcontrolNum) (bits : UInt32)
  | start (rc rv : Int)
  | stop
  | tick
deriving DecidableEq, Repr

/-- The pattern is set by the caller, who writes to its field. -/
def ledStep (l : Ledcontrol) : LedOp → Ledcontrol × Option Int
  | .attach ch gpio link => (ledcontrolAttach out l ch gpio link, none)
  | .detach ch => (ledcontrolDetach out l ch, none)
  | .shadow ch shadow => (ledcontrolShadow out l ch shadow, none)
  | .pattern i bits => ({ l with pattern := update l.pattern i bits }, none)
  | .start rc rv =>
    let (l, rc) := ledcontrolStart l rc rv
    (l, some rc)
  | .stop => (ledcontrolStop l, none)
  | .tick => (ledCallback l, none)

end

/-! ## What the calls do to a pin -/

def LedCall.drives (g : Int) (driven : Bool) : LedCall → Bool
  | .setOutput g' => if g' = g then true else driven
  | .resetPin g' => if g' = g then false else driven
  | _ => driven

def LedCall.routes (g : Int) (signal : Option (Int × Bool)) : LedCall → Option (Int × Bool)
  | .matrixOut g' s invert => if g' = g then some (s, invert) else signal
  | _ => signal

/-- The pin is an output. -/
def driven (g : Int) (calls : List LedCall) : Bool := calls.foldl (LedCall.drives g) false

/-- The signal that was last put on the pin, and whether it is inverted. -/
def routed (g : Int) (calls : List LedCall) : Option (Int × Bool) :=
  calls.foldl (LedCall.routes g) none

/-- The pin is as it was before it was used. -/
def Released (out g : Int) (calls : List LedCall) : Prop :=
  driven g calls = false ∧ (routed g calls = none ∨ routed g calls = some (out, false))

/-- No pin is used that is not the pin of a channel. -/
def OthersReleased (out : Int) (l : Ledcontrol) : Prop :=
  ∀ g, 0 ≤ g → (∀ i, l.gpio i ≠ g) → Released out g l.calls

/-- Each channel has a pin of its own, and drives it. -/
structure OwnPins (l : Ledcontrol) : Prop where
  own : ∀ i j, 0 ≤ l.gpio i → l.gpio i = l.gpio j → i = j
  drives : ∀ i, 0 ≤ l.gpio i → driven (l.gpio i) l.calls = true

/-- The pin is not that of another channel. -/
def Unshared (l : Ledcontrol) : LedOp → Prop
  | .attach ch gpio _ => ∀ i ∈ ledChannel ch, ∀ j, j ≠ i → l.gpio j ≠ gpio
  | _ => True

@[simp] theorem driven_call (l : Ledcontrol) (c : LedCall) (g : Int) :
    driven g (l.call c).calls = c.drives g (driven g l.calls) := by
  simp [driven, Ledcontrol.call, List.foldl_append]

@[simp] theorem routed_call (l : Ledcontrol) (c : LedCall) (g : Int) :
    routed g (l.call c).calls = c.routes g (routed g l.calls) := by
  simp [routed, Ledcontrol.call, List.foldl_append]

@[simp] theorem gpio_call (l : Ledcontrol) (c : LedCall) : (l.call c).gpio = l.gpio := rfl

variable {out : Int} {l : Ledcontrol}

/-! ## One call -/

theorem release_others (h : OthersReleased out l) (i : Fin ledcontrolNum) :
    OthersReleased out (releaseChannel out l i) := by
  rw [releaseChannel]
  split
  · exact h
  · intro g hg hfree
    simp only at hfree
    rw [Released]
    simp only [driven_call, routed_call, LedCall.drives, LedCall.routes]
    by_cases hpin : l.gpio i = g
    · simp [hpin]
    · simp only [if_neg hpin]
      apply h g hg
      intro j
      by_cases hj : j = i
      · exact hj ▸ hpin
      · have hother := hfree j
        rwa [update_of_ne hj] at hother

theorem release_gpio (l : Ledcontrol) (i : Fin ledcontrolNum) :
    (releaseChannel out l i).gpio i < 0 := by
  rw [releaseChannel]
  split
  · rename_i hfree
    exact hfree
  · simp

theorem release_gpio_other (l : Ledcontrol) {i j : Fin ledcontrolNum} (hj : j ≠ i) :
    (releaseChannel out l i).gpio j = l.gpio j := by
  rw [releaseChannel]
  split
  · rfl
  · exact update_of_ne hj _ _

theorem release_own (h : OwnPins l) (i : Fin ledcontrolNum) :
    OwnPins (releaseChannel out l i) := by
  have hgone : ∀ {j}, 0 ≤ (releaseChannel out l i).gpio j → j ≠ i := by
    rintro j hj rfl
    have hfree := @release_gpio out l j
    omega
  refine ⟨fun j k hj heq => ?_, fun j hj => ?_⟩
  · have hji := hgone hj
    have hki := hgone (heq ▸ hj)
    rw [release_gpio_other l hji, release_gpio_other l hki] at heq
    rw [release_gpio_other l hji] at hj
    exact h.own j k hj heq
  · have hji := hgone hj
    rw [release_gpio_other l hji] at hj ⊢
    rw [releaseChannel]
    split
    · exact h.drives j hj
    · have hne : l.gpio i ≠ l.gpio j := fun heq => hji (h.own j i hj heq.symm)
      simp only [driven_call, LedCall.drives, if_neg hne]
      exact h.drives j hj

theorem occupy_others (h : OthersReleased out l) {i : Fin ledcontrolNum} (hfree : l.gpio i < 0)
    (gpio link : Int) : OthersReleased out (occupyChannel out l i gpio link) := by
  intro g hg hothers
  have hpin : gpio ≠ g := by
    have hi := hothers i
    simp only [occupyChannel] at hi
    rwa [update_self] at hi
  have hold : Released out g l.calls := by
    apply h g hg
    intro j
    by_cases hj : j = i
    · rw [hj]
      omega
    · have hother := hothers j
      simp only [occupyChannel] at hother
      rwa [update_of_ne hj] at hother
  rw [Released]
  simp only [occupyChannel, driven_call, routed_call, LedCall.drives, LedCall.routes, if_neg hpin]
  exact hold

theorem occupy_own (h : OwnPins l) {i : Fin ledcontrolNum} {gpio : Int}
    (hfresh : ∀ j, j ≠ i → l.gpio j ≠ gpio) (link : Int) :
    OwnPins (occupyChannel out l i gpio link) := by
  have hgpio : (occupyChannel out l i gpio link).gpio = update l.gpio i gpio := rfl
  refine ⟨fun j k hj heq => ?_, fun j hj => ?_⟩
  · rw [hgpio] at hj heq
    by_cases hji : j = i
    · by_cases hki : k = i
      · rw [hji, hki]
      · rw [hji, update_self, update_of_ne hki] at heq
        exact absurd heq.symm (hfresh k hki)
    · rw [update_of_ne hji] at hj heq
      by_cases hki : k = i
      · rw [hki, update_self] at heq
        exact absurd heq (hfresh j hji)
      · rw [update_of_ne hki] at heq
        exact h.own j k hj heq
  · rw [hgpio] at hj ⊢
    by_cases hji : j = i
    · rw [hji, update_self]
      simp [occupyChannel, LedCall.drives]
    · rw [update_of_ne hji] at hj ⊢
      have hne : gpio ≠ l.gpio j := (hfresh j hji).symm
      simp only [occupyChannel, driven_call, LedCall.drives, if_neg hne]
      exact h.drives j hj

/-- The call neither resets a pin nor makes it an output nor puts a signal on it. -/
def Quiet (l l' : Ledcontrol) : Prop :=
  l'.gpio = l.gpio ∧ ∀ g, driven g l'.calls = driven g l.calls ∧ routed g l'.calls = routed g l.calls

theorem Quiet.trans {l' l'' : Ledcontrol} (h : Quiet l l') (h' : Quiet l' l'') : Quiet l l'' :=
  ⟨h'.1.trans h.1, fun g => ⟨(h'.2 g).1.trans (h.2 g).1, (h'.2 g).2.trans (h.2 g).2⟩⟩

theorem quiet_level (mask : UInt32) (l : Ledcontrol) (i : Fin ledcontrolNum) :
    Quiet l (ledLevel mask l i) := by
  rw [ledLevel]
  split
  · exact ⟨rfl, fun g => ⟨driven_call l _ g, routed_call l _ g⟩⟩
  · exact ⟨rfl, fun g => ⟨rfl, rfl⟩⟩

theorem quiet_levels (mask : UInt32) (l : Ledcontrol) (channels : List (Fin ledcontrolNum)) :
    Quiet l (channels.foldl (ledLevel mask) l) := by
  induction channels generalizing l with
  | nil => exact ⟨rfl, fun g => ⟨rfl, rfl⟩⟩
  | cons i channels ih => exact (quiet_level mask l i).trans (ih _)

theorem quiet_stop (l : Ledcontrol) : Quiet l (ledcontrolStop l) := by
  rw [ledcontrolStop]
  split
  · exact ⟨rfl, fun g => ⟨rfl, rfl⟩⟩
  · refine ⟨rfl, fun g => ?_⟩
    rw [driven_call, driven_call, routed_call, routed_call]
    exact ⟨rfl, rfl⟩

theorem quiet_start (l : Ledcontrol) (rc rv : Int) : Quiet l (ledcontrolStart l rc rv).1 := by
  have henable : Quiet l (l.call (.enable rc)) :=
    ⟨rfl, fun g => ⟨driven_call l _ g, routed_call l _ g⟩⟩
  rw [ledcontrolStart]
  split
  · exact ⟨rfl, fun g => ⟨rfl, rfl⟩⟩
  · simp only
    split
    · exact henable
    · exact henable.trans ⟨rfl, fun g => ⟨driven_call _ _ g, routed_call _ _ g⟩⟩

theorem Quiet.others {l' : Ledcontrol} (hquiet : Quiet l l') (h : OthersReleased out l) :
    OthersReleased out l' := by
  intro g hg hfree
  rw [Released, (hquiet.2 g).1, (hquiet.2 g).2]
  exact h g hg (hquiet.1 ▸ hfree)

theorem Quiet.own {l' : Ledcontrol} (hquiet : Quiet l l') (h : OwnPins l) : OwnPins l' := by
  refine ⟨hquiet.1 ▸ h.own, fun i hi => ?_⟩
  rw [(hquiet.2 _).1]
  rw [hquiet.1] at hi ⊢
  exact h.drives i hi

theorem detach_channel {ch : Int} {i : Fin ledcontrolNum} (hch : ledChannel ch = some i)
    (l : Ledcontrol) : ledcontrolDetach out l ch = releaseChannel out l i := by
  rw [ledcontrolDetach, hch]

/-- What is not a channel is not detached. -/
theorem detach_cases (out : Int) (l : Ledcontrol) (ch : Int) :
    ledcontrolDetach out l ch = l ∨ ∃ i, ledcontrolDetach out l ch = releaseChannel out l i := by
  cases hch : ledChannel ch with
  | none =>
    rw [ledcontrolDetach, hch]
    exact .inl rfl
  | some i => exact .inr ⟨i, detach_channel hch l⟩

theorem attach_cases (out : Int) (l : Ledcontrol) (ch gpio link : Int) :
    ledcontrolAttach out l ch gpio link = ledcontrolDetach out l ch ∨
      ∃ i ∈ ledChannel ch, ledcontrolAttach out l ch gpio link =
        occupyChannel out (releaseChannel out l i) i gpio link := by
  rw [ledcontrolAttach]
  cases hch : ledChannel ch with
  | none => exact .inl rfl
  | some i =>
    simp only
    split
    · exact .inl rfl
    · rw [detach_channel hch]
      exact .inr ⟨i, rfl, rfl⟩

theorem shadow_cases (out : Int) (l : Ledcontrol) (ch : Int) (shadow : Bool) :
    ledcontrolShadow out l ch shadow = l ∨
      ∃ i s, ledcontrolShadow out l ch shadow = l.call (.matrixOut (l.gpio i) s true) := by
  rw [ledcontrolShadow]
  split
  · exact .inl rfl
  split
  · exact .inl rfl
  · exact .inr ⟨_, _, rfl⟩

theorem detach_others (h : OthersReleased out l) (ch : Int) :
    OthersReleased out (ledcontrolDetach out l ch) := by
  rcases detach_cases out l ch with hnone | ⟨i, hrelease⟩
  · rw [hnone]
    exact h
  · rw [hrelease]
    exact release_others h i

theorem detach_own (h : OwnPins l) (ch : Int) : OwnPins (ledcontrolDetach out l ch) := by
  rcases detach_cases out l ch with hnone | ⟨i, hrelease⟩
  · rw [hnone]
    exact h
  · rw [hrelease]
    exact release_own h i

theorem shadow_others (h : OthersReleased out l) (ch : Int) (shadow : Bool) :
    OthersReleased out (ledcontrolShadow out l ch shadow) := by
  rcases shadow_cases out l ch shadow with hnone | ⟨i, s, hmatrix⟩
  · rw [hnone]
    exact h
  · rw [hmatrix]
    intro g hg hfree
    have hne : l.gpio i ≠ g := hfree i
    rw [Released]
    simp only [driven_call, routed_call, LedCall.drives, LedCall.routes, if_neg hne]
    exact h g hg hfree

theorem shadow_own (h : OwnPins l) (ch : Int) (shadow : Bool) :
    OwnPins (ledcontrolShadow out l ch shadow) := by
  rcases shadow_cases out l ch shadow with hnone | ⟨i, s, hmatrix⟩
  · rw [hnone]
    exact h
  · rw [hmatrix]
    exact ⟨h.own, fun j hj => (driven_call l _ _).trans (h.drives j hj)⟩

theorem attach_others (h : OthersReleased out l) (ch gpio link : Int) :
    OthersReleased out (ledcontrolAttach out l ch gpio link) := by
  rcases attach_cases out l ch gpio link with hdetach | ⟨i, -, hoccupy⟩
  · rw [hdetach]
    exact detach_others h ch
  · rw [hoccupy]
    exact occupy_others (release_others h i) (release_gpio l i) gpio link

theorem attach_own (h : OwnPins l) {ch gpio link : Int}
    (hfresh : Unshared l (.attach ch gpio link)) : OwnPins (ledcontrolAttach out l ch gpio link) := by
  rcases attach_cases out l ch gpio link with hdetach | ⟨i, hch, hoccupy⟩
  · rw [hdetach]
    exact detach_own h ch
  · rw [hoccupy]
    apply occupy_own (release_own h i)
    intro j hj
    rw [release_gpio_other l hj]
    exact hfresh i hch j hj

theorem step_others (h : OthersReleased out l) (op : LedOp) :
    OthersReleased out (ledStep out l op).1 := by
  cases op with
  | attach ch gpio link => exact attach_others h ch gpio link
  | detach ch => exact detach_others h ch
  | shadow ch shadow => exact shadow_others h ch shadow
  | pattern i bits => exact h
  | start rc rv => exact (quiet_start l rc rv).others h
  | stop => exact (quiet_stop l).others h
  | tick => exact (quiet_levels _ { l with count := (l.count + 1) &&& 31 } _).others h

theorem step_own (h : OwnPins l) {op : LedOp} (hop : Unshared l op) :
    OwnPins (ledStep out l op).1 := by
  cases op with
  | attach ch gpio link => exact attach_own h hop
  | detach ch => exact detach_own h ch
  | shadow ch shadow => exact shadow_own h ch shadow
  | pattern i bits => exact ⟨h.own, h.drives⟩
  | start rc rv => exact (quiet_start l rc rv).own h
  | stop => exact (quiet_stop l).own h
  | tick =>
    have hcounted : OwnPins { l with count := (l.count + 1) &&& 31 } := ⟨h.own, h.drives⟩
    exact (quiet_levels _ _ _).own hcounted

/-! ## Whole runs -/

theorem init_calls (out : Int) (res hz : Nat) (rv : Int) :
    (ledcontrolInit res hz rv).gpio = (fun _ => -1) ∧
      ∀ g, Released out g (ledcontrolInit res hz rv).calls := by
  rw [ledcontrolInit]
  simp only
  split
  · exact ⟨rfl, fun g => ⟨rfl, .inl rfl⟩⟩
  · exact ⟨rfl, fun g => ⟨rfl, .inl rfl⟩⟩

theorem run_others (res hz : Nat) (rv : Int) (ops : List LedOp) :
    OthersReleased out (run (ledStep out) (ledcontrolInit res hz rv) ops) :=
  run_invariant (OthersReleased out) (fun _ op h => step_others h op)
    (fun g _ _ => (init_calls out res hz rv).2 g) ops

theorem ledChannel_val (i : Fin ledcontrolNum) : ledChannel (i.val : Int) = some i := by
  have hi : 0 ≤ (i.val : Int) ∧ (i.val : Int).toNat < ledcontrolNum :=
    ⟨Int.natCast_nonneg _, i.isLt⟩
  rw [ledChannel, dif_pos hi]
  rfl

/-- The channels are detached in turn. -/
theorem detach_all (h : OthersReleased out l) (n : Nat) (hn : n ≤ ledcontrolNum) :
    OthersReleased out ((List.range n).foldl (fun l (i : Nat) => ledcontrolDetach out l i) l) ∧
      ∀ i : Fin ledcontrolNum, i.val < n →
        ((List.range n).foldl (fun l (i : Nat) => ledcontrolDetach out l i) l).gpio i < 0 := by
  induction n with
  | zero => exact ⟨h, fun i hi => absurd hi (Nat.not_lt_zero _)⟩
  | succ n ih =>
    obtain ⟨hothers, hdone⟩ := ih (Nat.le_of_succ_le hn)
    rw [List.range_succ, List.foldl_append, List.foldl_cons, List.foldl_nil]
    have hch := ledChannel_val ⟨n, hn⟩
    simp only at hch
    refine ⟨detach_others hothers n, fun i hi => ?_⟩
    rw [detach_channel hch]
    by_cases hin : i = ⟨n, hn⟩
    · rw [hin]
      exact release_gpio _ _
    · rw [release_gpio_other _ hin]
      apply hdone
      have hne : i.val ≠ n := fun heq => hin (Fin.ext heq)
      omega

theorem quiet_del (out : Int) (l : Ledcontrol) :
    Quiet ((List.range ledcontrolNum).foldl (fun l (i : Nat) => ledcontrolDetach out l i) l)
      (ledcontrolDel out l) := by
  apply (quiet_stop _).trans
  rw [ledcontrolDel]
  split
  · exact ⟨rfl, fun g => ⟨driven_call _ _ g, routed_call _ _ g⟩⟩
  · exact ⟨rfl, fun g => ⟨rfl, rfl⟩⟩

theorem levels_calls (mask : UInt32) (l : Ledcontrol) (channels : List (Fin ledcontrolNum)) :
    (channels.foldl (ledLevel mask) l).calls =
      l.calls ++ (channels.filter fun i => decide (0 ≤ l.gpio i)).map fun i =>
        .setLevel (l.gpio i) (l.pattern i &&& mask != 0) := by
  induction channels generalizing l with
  | nil => simp
  | cons i channels ih =>
    rw [List.foldl_cons, ih]
    by_cases hi : 0 ≤ l.gpio i
    · rw [ledLevel, if_pos hi, List.filter_cons_of_pos (by simpa using hi)]
      simp only [Ledcontrol.call, List.map_cons, List.append_assoc, List.singleton_append]
      rfl
    · rw [ledLevel, if_neg hi, List.filter_cons_of_neg (by simpa using hi)]

theorem levels_count (mask : UInt32) (l : Ledcontrol) (channels : List (Fin ledcontrolNum)) :
    (channels.foldl (ledLevel mask) l).count = l.count := by
  induction channels generalizing l with
  | nil => rfl
  | cons i channels ih =>
    rw [List.foldl_cons, ih, ledLevel]
    split <;> rfl

theorem release_count (l : Ledcontrol) (i : Fin ledcontrolNum) :
    (releaseChannel out l i).count = l.count := by
  rw [releaseChannel]
  split <;> rfl

theorem detach_count (l : Ledcontrol) (ch : Int) :
    (ledcontrolDetach out l ch).count = l.count := by
  rcases detach_cases out l ch with hnone | ⟨i, hrelease⟩
  · rw [hnone]
  · rw [hrelease]
    exact release_count l i

/-- Only the timer counts. -/
theorem step_count (out : Int) (l : Ledcontrol) (op : LedOp) :
    (ledStep out l op).1.count = if op = .tick then (l.count + 1) &&& 31 else l.count := by
  cases op with
  | attach ch gpio link =>
    rw [if_neg (by simp), ledStep]
    rcases attach_cases out l ch gpio link with hdetach | ⟨i, -, hoccupy⟩
    · rw [hdetach]
      exact detach_count l ch
    · rw [hoccupy]
      exact release_count l i
  | detach ch => exact detach_count l ch
  | shadow ch shadow =>
    rw [if_neg (by simp), ledStep]
    rcases shadow_cases out l ch shadow with hnone | ⟨i, s, hmatrix⟩
    · rw [hnone]
    · rw [hmatrix]
      rfl
  | pattern i bits => rfl
  | start rc rv =>
    rw [if_neg (by simp)]
    change (ledcontrolStart l rc rv).1.count = _
    rw [ledcontrolStart]
    split
    · rfl
    simp only
    split <;> rfl
  | stop =>
    rw [if_neg (by simp), ledStep, ledcontrolStop]
    simp only
    split <;> rfl
  | tick =>
    rw [if_pos rfl]
    exact levels_count _ _ _

theorem toNat_next (c : UInt32) : ((c + 1) &&& 31).toNat = (c.toNat + 1) % 32 := by
  have hlt := c.toNat_lt
  rw [UInt32.toNat_and, UInt32.toNat_add]
  exact (Nat.and_two_pow_sub_one_eq_mod _ 5).trans (Nat.mod_mod_of_dvd _ (by decide))

theorem run_count (out : Int) (hl : l.count.toNat < 32) (ops : List LedOp) :
    (run (ledStep out) l ops).count.toNat = (l.count.toNat + ops.count .tick) % 32 := by
  induction ops generalizing l with
  | nil => exact (Nat.mod_eq_of_lt hl).symm
  | cons op ops ih =>
    have hstep := step_count out l op
    by_cases hop : op = .tick
    · rw [if_pos hop] at hstep
      have hnext := toNat_next l.count
      rw [← hstep] at hnext
      rw [run_cons, ih (by omega), hnext, hop, List.count_cons_self]
      omega
    · rw [if_neg hop] at hstep
      rw [run_cons, ih (hstep ▸ hl), hstep, List.count_cons_of_ne hop]

theorem and_bit (bits c : UInt32) (hc : c.toNat < 32) :
    (bits &&& 1 <<< c != 0) = bits.toNat.testBit c.toNat := by
  have hmask : (1 <<< c : UInt32).toNat = 2 ^ c.toNat := by
    have hpow : 2 ^ c.toNat < 2 ^ 32 := Nat.pow_lt_pow_right (by decide) hc
    rw [UInt32.toNat_shiftLeft, Nat.mod_eq_of_lt hc, UInt32.toNat_one, Nat.one_shiftLeft,
      Nat.mod_eq_of_lt hpow]
  have hand : (bits &&& 1 <<< c).toNat = (bits.toNat.testBit c.toNat).toNat * 2 ^ c.toNat := by
    rw [UInt32.toNat_and, hmask, Nat.and_two_pow]
  have hpos : 2 ^ c.toNat ≠ 0 := (Nat.two_pow_pos _).ne'
  rw [bne, Bool.eq_iff_iff]
  simp only [Bool.not_eq_true', beq_eq_false_iff_ne, ne_eq, ← UInt32.toNat_inj, hand,
    UInt32.toNat_zero, Nat.mul_eq_zero, hpos, or_false]
  cases bits.toNat.testBit c.toNat <;> simp

theorem init_count (res hz : Nat) (rv : Int) : (ledcontrolInit res hz rv).count = 0 := by
  rw [ledcontrolInit]
  simp only
  split <;> rfl

/-- Whatever has been called before, the timer sets the pins of the attached channels,
in their order, to the bit of their pattern that the number of its alarms selects. -/
theorem led_levels (out : Int) (res hz : Nat) (rv : Int) (past : List LedOp) :
    (ledStep out (run (ledStep out) (ledcontrolInit res hz rv) past) .tick).1.calls =
      (run (ledStep out) (ledcontrolInit res hz rv) past).calls ++
        ((List.finRange ledcontrolNum).filter fun i =>
          decide (0 ≤ (run (ledStep out) (ledcontrolInit res hz rv) past).gpio i)).map fun i =>
            .setLevel ((run (ledStep out) (ledcontrolInit res hz rv) past).gpio i)
              (((run (ledStep out) (ledcontrolInit res hz rv) past).pattern i).toNat.testBit
                (past.count .tick % 32)) := by
  have hinit := init_count res hz rv
  have hstart : (ledcontrolInit res hz rv).count.toNat < 32 := by
    rw [hinit]
    exact Nat.succ_pos _
  have hticks := run_count out hstart past
  rw [hinit, UInt32.toNat_zero, Nat.zero_add] at hticks
  generalize run (ledStep out) (ledcontrolInit res hz rv) past = l at hticks ⊢
  have hlt : l.count.toNat < 32 := by
    rw [hticks]
    exact Nat.mod_lt _ (Nat.succ_pos _)
  rw [← hticks]
  refine (levels_calls _ { l with count := (l.count + 1) &&& 31 } _).trans ?_
  simp only [and_bit _ _ hlt]

end Wifimodem
