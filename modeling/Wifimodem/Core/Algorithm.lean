import Mathlib.Algebra.Ring.Int.Defs
import Wifimodem.Lib.Cells

/-!
# Sorting and searching

The functions that the macros generate for a comparator. An array is indexed
within its bounds or not at all, and a loop whose turns are not counted has some
fuel: without a result, one of them has failed.
-/

namespace Wifimodem

open Cells

section
variable {α : Type} (cmp : α → α → Int)

/-- Greater elements move up by the gap until there is a place for `temp`: the array,
and the final `j`. -/
def shiftLoop (gap : Int) (temp : α) : Nat → List α → Int → Option (List α × Int)
  | 0, _, _ => none
  | fuel + 1, array, j =>
    if j ≥ 0 then do
      let v ← load array j
      if cmp v temp > 0 then do
        let array ← store array (j + gap) v
        shiftLoop gap temp fuel array (j - gap)
      else some (array, j)
    else some (array, j)

def insertOne (fuel : Nat) (gap : Int) (array : List α) (i : Int) : Option (List α) := do
  let temp ← load array i
  let moved ← shiftLoop cmp gap temp fuel array (i - gap)
  store moved.1 (moved.2 + gap) temp

/-- `n` elements are left, the next of them at `i`. -/
def passLoop (fuel : Nat) (gap : Int) : Nat → List α → Int → Option (List α)
  | 0, array, _ => some array
  | n + 1, array, i => do
    let array ← insertOne cmp fuel gap array i
    passLoop fuel gap n array (i + 1)

def gapPass (fuel : Nat) (gap : Int) (array : List α) : Option (List α) :=
  passLoop cmp fuel gap (array.length - gap).toNat array gap

def insertionSort (fuel : Nat) (array : List α) : Option (List α) := gapPass cmp fuel 1 array

def minLoop (array : List α) : Nat → Int → Int → Option Int
  | 0, _, k => some k
  | n + 1, j, k => do
    let v ← load array k
    let w ← load array j
    minLoop array n (j + 1) (if cmp v w > 0 then j else k)

def selectLoop : Nat → List α → Int → Option (List α)
  | 0, array, _ => some array
  | n + 1, array, i => do
    let k ← minLoop cmp array (array.length - (i + 1)).toNat (i + 1) i
    let temp ← load array i
    let v ← load array k
    let array ← store array i v
    let array ← store array k temp
    selectLoop n array (i + 1)

def selectionSort (array : List α) : Option (List α) :=
  selectLoop cmp ((array.length : Int) - 1).toNat array 0

/-- An `int` that leaves its range is an error. -/
def inInt (x : Int) : Option Int := if -2 ^ 31 ≤ x ∧ x < 2 ^ 31 then some x else none

def growGap (num : Int) : Nat → Int → Option Int
  | 0, _ => none
  | fuel + 1, k =>
    if k < num then do
      let k ← inInt (3 * k + 1)
      growGap num fuel k
    else some k

def gapLoop (fuel : Nat) : Nat → Int → List α → Option (List α)
  | 0, _, _ => none
  | n + 1, k, array =>
    if k > 0 then do
      let k := k.tdiv 3
      let array ← gapPass cmp fuel k array
      gapLoop fuel n k array
    else some array

def shellSort (fuel : Nat) (array : List α) : Option (List α) := do
  let k ← growGap array.length fuel 1
  gapLoop cmp fuel fuel k array

end

section
variable {α κ : Type}

/-- The search over `count` elements from `first` on, and where it ends. -/
def boundLoop (below : α → Bool) (array : List α) (first count : Nat) : Option Nat :=
  if count = 0 then some first
  else do
    let step := count / 2
    let v ← load array (first + step : Nat)
    if below v then boundLoop below array (first + step + 1) (count - (step + 1))
    else boundLoop below array first step
termination_by count

def lowerBound (cmp : α → κ → Int) (array : List α) (key : κ) : Option Nat :=
  boundLoop (fun v => cmp v key < 0) array 0 array.length

def upperBound (cmp : α → κ → Int) (array : List α) (key : κ) : Option Nat :=
  boundLoop (fun v => cmp v key ≤ 0) array 0 array.length

end

end Wifimodem
