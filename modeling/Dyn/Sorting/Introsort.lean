import Dyn.Mem.Arena

/-!
# std/sort: introsort and binary search

Slices are lists that are read and written by index; an index that is out of range is a panic.  A slice of
a slice is sorted by itself and put back.  Loops that only the order of the elements could keep running are
given a number of turns, and fail where it runs out.
-/

namespace Dyn.Sorting

open Mem (Panic)

structure SearchResult where
  index : Nat
  found : Bool
deriving DecidableEq, Repr

section Code

variable {α : Type}

/-- `values[i]` -/
def load (values : List α) (i : Nat) : Except Panic α :=
  match values[i]? with
  | some value => .ok value
  | none => .error "index out of bounds"

/-- `values[i] = value` -/
def store (values : List α) (i : Nat) (value : α) : Except Panic (List α) :=
  if i < values.length then .ok (values.set i value) else .error "index out of bounds"

/-- The exchange of two elements through a temporary one. -/
def swap (values : List α) (i j : Nat) : Except Panic (List α) := do
  let temporary ← load values i
  let values' ← store values i (← load values j)
  store values' j temporary

def endless {β : Type} : Except Panic β := .error "no turns left"

variable (lt : α → α → Bool)

def largerChild (values : List α) (root length : Nat) : Except Panic Nat := do
  let child := root * 2 + 1
  if child + 1 < length then
    if lt (← load values child) (← load values (child + 1)) then return child + 1 else return child
  else return child

def sift : Nat → List α → Nat → Nat → Except Panic (List α)
  | 0, _, _, _ => endless
  | turns + 1, values, root, length =>
      if root < length / 2 then do
        let child ← largerChild lt values root length
        if !lt (← load values root) (← load values child) then return values
        else sift turns (← swap values root child) child length
      else .ok values

/-- The loop that moves larger elements up by one: the values, and where the hole ends. -/
def shift : Nat → List α → α → Except Panic (List α × Nat)
  | 0, values, _ => .ok (values, 0)
  | j + 1, values, value => do
      let before ← load values j
      if lt value before then shift j (← store values (j + 1) before) value else return (values, j + 1)

/-- The loop of `insertion` from `i` on. -/
def insertionLoop : Nat → List α → Nat → Except Panic (List α)
  | 0, values, _ => .ok values
  | turns + 1, values, i => do
      let value ← load values i
      let (values, j) ← shift lt i values value
      insertionLoop turns (← store values j value) (i + 1)

def insertion (values : List α) : Except Panic (List α) := insertionLoop lt (values.length - 1) values 1

/-- The loop of `heap` that makes a heap, from `parent` down. -/
def heapLoop (length : Nat) : Nat → List α → Except Panic (List α)
  | 0, values => .ok values
  | parent + 1, values => do heapLoop length parent (← sift lt (length + 1) values parent length)

/-- The loop of `heap` that takes the heap apart. -/
def drainLoop : Nat → List α → Except Panic (List α)
  | 0, values => .ok values
  | stop + 1, values =>
      if stop + 1 > 1 then do drainLoop stop (← sift lt (stop + 1) (← swap values 0 stop) 0 stop)
      else .ok values

def heap (values : List α) : Except Panic (List α) := do
  drainLoop lt values.length (← heapLoop lt values.length (values.length / 2) values)

/-- `if values[j] < values[i]`, exchange them. -/
def swapIfLess (values : List α) (i j : Nat) : Except Panic (List α) := do
  if lt (← load values j) (← load values i) then swap values i j else return values

structure Partition (α : Type) where
  values : List α
  lower : Nat
  upper : Nat

/-- The loop of the three-way partition: `[0, lower)` is below the pivot, `[lower, cursor)` is equivalent,
and from `upper` on it is above. -/
def partitionLoop (pivot : α) : Nat → List α → Nat → Nat → Nat → Except Panic (Partition α)
  | 0, _, _, _, _ => endless
  | turns + 1, values, lower, cursor, upper =>
      if cursor < upper then do
        let value ← load values cursor
        if lt value pivot then partitionLoop pivot turns (← swap values lower cursor) (lower + 1) (cursor + 1) upper
        else if lt pivot value then
          partitionLoop pivot turns (← swap values (upper - 1) cursor) lower cursor (upper - 1)
        else partitionLoop pivot turns values lower (cursor + 1) upper
      else .ok ⟨values, lower, upper⟩

def partition (values : List α) : Except Panic (Partition α) := do
  let last := values.length - 1
  let middle := values.length / 2
  let values ← swapIfLess lt values 0 middle
  let values ← swapIfLess lt values middle last
  let values ← swapIfLess lt values 0 middle
  let pivot ← load values middle
  partitionLoop lt pivot (values.length + 1) values 0 0 values.length

/-- The sorted values, and how many calls were open at once. -/
structure Sorted (α : Type) where
  values : List α
  frames : Nat
deriving DecidableEq, Repr

/-- `introsort`, by its depth; the side that is not recursed into is the rest of the loop. -/
def introsort : Nat → List α → Except Panic (Sorted α)
  | 0, values => do
      if values.length ≥ 16 then return ⟨← heap lt values, 1⟩ else return ⟨← insertion lt values, 1⟩
  | depth + 1, values => do
      if values.length ≥ 16 then
        let ⟨values, lower, upper⟩ ← partition lt values
        let below := values.take lower
        let equal := (values.take upper).drop lower
        let above := values.drop upper
        if lower < values.length - upper then
          let small ← introsort depth below
          let rest ← introsort depth above
          return ⟨small.values ++ equal ++ rest.values, max (small.frames + 1) rest.frames⟩
        else
          let small ← introsort depth above
          let rest ← introsort depth below
          return ⟨rest.values ++ equal ++ small.values, max (small.frames + 1) rest.frames⟩
      else return ⟨← insertion lt values, 1⟩

/-- The scan of `sort`: whether the values ascend and descend, until both are disproved. -/
def monotone : List α → Bool → Bool → Bool × Bool
  | before :: value :: rest, ascending, descending =>
      let ascending := ascending && !lt value before
      let descending := descending && !lt before value
      if !ascending && !descending then (ascending, descending) else monotone (value :: rest) ascending descending
  | _, ascending, descending => (ascending, descending)

/-- The loop of `sort` that turns the values around. -/
def reverseLoop : Nat → List α → Nat → Nat → Except Panic (List α)
  | 0, _, _, _ => endless
  | turns + 1, values, left, right =>
      if left < right then
        if left ≥ right - 1 then .ok values
        else do reverseLoop turns (← swap values left (right - 1)) (left + 1) (right - 1)
      else .ok values

/-- The loop of `sort` that finds the depth. -/
def depthLoop : Nat → Nat → Nat → Nat
  | 0, _, depth => depth
  | turns + 1, remaining, depth => if remaining > 1 then depthLoop turns (remaining / 2) (depth + 2) else depth

/-- The sorted values, and how many calls of `introsort` were open at once. -/
def sort (values : List α) : Except Panic (Sorted α) :=
  let (ascending, descending) := monotone lt values true true
  if ascending then .ok ⟨values, 0⟩
  else if descending then do return ⟨← reverseLoop (values.length + 1) values 0 values.length, 0⟩
  else introsort lt (depthLoop values.length values.length 0) values

/-- The loop of `search`. -/
def searchLoop (values : List α) (target : α) : Nat → Nat → Nat → Except Panic Nat
  | 0, _, _ => endless
  | turns + 1, low, high =>
      if low < high then do
        let middle := low + (high - low) / 2
        if lt (← load values middle) target then searchLoop values target turns (middle + 1) high
        else searchLoop values target turns low middle
      else .ok low

def search (eq : α → α → Bool) (values : List α) (target : α) : Except Panic SearchResult := do
  let low ← searchLoop lt values target (values.length + 1) 0 values.length
  if low < values.length then
    if eq (← load values low) target then return ⟨low, true⟩ else return ⟨values.length, false⟩
  else return ⟨values.length, false⟩

end Code

end Dyn.Sorting
