import Dyn.Lib.LinkedSegment
import Mathlib.Tactic

/-!
# std/container/hash: intrusive hash chains

Tables are the callers' slot slices, with nodes of one heap that chain through their own fields.  A walk
along a chain is given a number of turns; there is nothing else that would end it.
-/

namespace Dyn.Container

open Function
open Lib (Chained)

/-- The fields of nodes on the heap, and the slots of each table. -/
structure Chains (τ ν : Type) where
  key : ν → List UInt8
  hash : ν → UInt64
  hashNext : ν → Option ν
  slots : τ → List (Option ν)

/-- A place that holds a pointer: a slot, or the link of a node. -/
inductive Link (ν : Type) where
  | slot (i : Nat)
  | next (node : ν)
deriving DecidableEq, Repr

section Code

variable {τ ν : Type} [DecidableEq τ] [DecidableEq ν]

/-- The loop of `bytes_equal` over the bytes of both. -/
def bytesLoop : List (UInt8 × UInt8) → Bool
  | [] => true
  | (left, right) :: rest => if left ≠ right then false else bytesLoop rest

def bytesEqual (left right : List UInt8) : Bool :=
  if left.length ≠ right.length then false else bytesLoop (left.zip right)

namespace Chains

def slotOf (m : Chains τ ν) (t : τ) (hash : UInt64) : Nat := hash.toNat % (m.slots t).length

/-- What a slot holds, which is in range of a table with slots. -/
def head (m : Chains τ ν) (t : τ) (i : Nat) : Option ν := (m.slots t).getD i none

def setSlot (m : Chains τ ν) (t : τ) (i : Nat) (link : Option ν) : Chains τ ν :=
  { m with slots := update m.slots t ((m.slots t).set i link) }
def setHashNext (m : Chains τ ν) (node : ν) (link : Option ν) : Chains τ ν :=
  { m with hashNext := update m.hashNext node link }

/-- `node.hash = hash` and `node.key = key`, which the caller does before it inserts the node. -/
def setKey (m : Chains τ ν) (node : ν) (hash : UInt64) (key : List UInt8) : Chains τ ν :=
  { m with hash := update m.hash node hash, key := update m.key node key }

/-- The loop of `find`: nothing where the turns run out, else the node, or the stub. -/
def findLoop (m : Chains τ ν) (hash : UInt64) (key : List UInt8) (stub : ν) : Nat → Option ν → Option ν
  | 0, _ => none
  | _ + 1, none => some stub
  | turns + 1, some node =>
      if m.hash node = hash ∧ bytesEqual (m.key node) key then some node
      else m.findLoop hash key stub turns (m.hashNext node)

def find (m : Chains τ ν) (turns : Nat) (t : τ) (hash : UInt64) (key : List UInt8) (stub : ν) : Option ν :=
  m.findLoop hash key stub turns (m.head t (m.slotOf t hash))

def insert (m : Chains τ ν) (t : τ) (node : ν) : Chains τ ν :=
  let slot := m.slotOf t (m.hash node)
  let m := m.setHashNext node (m.head t slot)
  m.setSlot t slot (some node)

/-- `link.*` -/
def read (m : Chains τ ν) (t : τ) : Link ν → Option ν
  | .slot i => m.head t i
  | .next node => m.hashNext node

/-- `link.* = value` -/
def write (m : Chains τ ν) (t : τ) : Link ν → Option ν → Chains τ ν
  | .slot i, value => m.setSlot t i value
  | .next node, value => m.setHashNext node value

/-- The loop of `remove`. -/
def removeLoop (m : Chains τ ν) (t : τ) (node : ν) : Nat → Link ν → Option (Chains τ ν × Bool)
  | 0, _ => none
  | turns + 1, link =>
      match m.read t link with
      | none => some (m, false)
      | some n =>
          if n = node then
            let m := m.write t link (m.hashNext node)
            some (m.setHashNext node none, true)
          else m.removeLoop t node turns (.next n)

def remove (m : Chains τ ν) (turns : Nat) (t : τ) (node : ν) : Option (Chains τ ν × Bool) :=
  m.removeLoop t node turns (.slot (m.slotOf t (m.hash node)))

end Chains

end Code

theorem bytesEqual_iff (left right : List UInt8) : bytesEqual left right = true ↔ left = right := by
  rw [bytesEqual]
  by_cases hlength : left.length = right.length
  · rw [if_neg (not_not.2 hlength)]
    induction left generalizing right with
    | nil =>
      rw [List.length_eq_zero_iff.1 hlength.symm]
      exact iff_of_true rfl rfl
    | cons a left ih =>
      cases right with
      | nil => cases hlength
      | cons b right =>
        rw [List.zip_cons_cons, bytesLoop]
        by_cases hab : a = b
        · rw [if_neg (not_not.2 hab), ih right (Nat.succ.inj hlength), hab, List.cons.injEq]
          exact (and_iff_right rfl).symm
        · rw [if_pos hab]
          exact iff_of_false Bool.false_ne_true fun h => hab (List.cons.inj h).1
  · rw [if_pos hlength]
    exact iff_of_false Bool.false_ne_true fun h => hlength (congrArg List.length h)

end Dyn.Container
