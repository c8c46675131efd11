import Dyn.Lib.LinkedSegment
import Mathlib.Tactic

/-!
# std/container/list: doubly linked lists and trees

Nodes live on one heap and carry their own links.  An owner is a list struct or a parent node and has the two
ends of its list; the functions write one link after another.  What the links describe is one list for each
owner.
-/

namespace Dyn.Container

open Function
open Lib (Segment)

/-- Who has a list: a list struct, or a node as the parent of its children. -/
inductive Owner (κ ν : Type) where
  | list (l : κ)
  | node (n : ν)
deriving DecidableEq, Repr

/-- The links on the heap; `none` is nil. -/
structure Links (κ ν : Type) where
  next : ν → Option ν
  prev : ν → Option ν
  parent : ν → Option ν
  first : Owner κ ν → Option ν
  last : Owner κ ν → Option ν

section Code

variable {κ ν : Type} [DecidableEq κ] [DecidableEq ν]

namespace Links

def empty : Links κ ν := ⟨fun _ => none, fun _ => none, fun _ => none, fun _ => none, fun _ => none⟩

def setNext (m : Links κ ν) (n : ν) (link : Option ν) : Links κ ν := { m with next := update m.next n link }
def setPrev (m : Links κ ν) (n : ν) (link : Option ν) : Links κ ν := { m with prev := update m.prev n link }
def setParent (m : Links κ ν) (n : ν) (link : Option ν) : Links κ ν :=
  { m with parent := update m.parent n link }
def setFirst (m : Links κ ν) (o : Owner κ ν) (link : Option ν) : Links κ ν :=
  { m with first := update m.first o link }
def setLast (m : Links κ ν) (o : Owner κ ν) (link : Option ν) : Links κ ν :=
  { m with last := update m.last o link }

def dllPushBack (m : Links κ ν) (o : Owner κ ν) (node : ν) : Links κ ν :=
  let m := m.setNext node none
  let m := m.setPrev node (m.last o)
  let m :=
    match m.last o with
    | none => m.setFirst o (some node)
    | some last => m.setNext last (some node)
  m.setLast o (some node)

def dllPushFront (m : Links κ ν) (o : Owner κ ν) (node : ν) : Links κ ν :=
  let m := m.setPrev node none
  let m := m.setNext node (m.first o)
  let m :=
    match m.first o with
    | none => m.setLast o (some node)
    | some first => m.setPrev first (some node)
  m.setFirst o (some node)

def dllInsertAfter (m : Links κ ν) (o : Owner κ ν) (after node : ν) : Links κ ν :=
  let m := m.setPrev node (some after)
  let m := m.setNext node (m.next after)
  let m :=
    match m.next after with
    | none => m.setLast o (some node)
    | some behind => m.setPrev behind (some node)
  let m := m.setNext after (some node)
  if m.first o = none then m.setFirst o (some node) else m

def dllRemove (m : Links κ ν) (o : Owner κ ν) (node : ν) : Links κ ν :=
  let m :=
    match m.prev node with
    | none => m.setFirst o (m.next node)
    | some before => m.setNext before (m.next node)
  let m :=
    match m.next node with
    | none => m.setLast o (m.prev node)
    | some behind => m.setPrev behind (m.prev node)
  let m := m.setNext node none
  m.setPrev node none

def treePushChild (m : Links κ ν) (parent node : ν) : Links κ ν :=
  let m := m.setParent node (some parent)
  m.dllPushBack (.node parent) node

def treeRemove (m : Links κ ν) (node : ν) : Links κ ν :=
  let m :=
    match m.parent node with
    | none => m
    | some parent => m.dllRemove (.node parent) node
  m.setParent node none

variable (m : Links κ ν) (o : Owner κ ν)

variable (node : ν)

theorem dllPushBack_next (n : ν) :
    (m.dllPushBack o node).next n =
      if m.last o = some n then some node else if n = node then none else m.next n := by
  cases hlast : m.last o with
  | none => simp [dllPushBack, setNext, setPrev, setFirst, setLast, hlast, update_apply]
  | some last =>
    simp only [dllPushBack, setNext, setPrev, setLast, hlast, update_apply, Option.some.injEq]
    simp only [eq_comm (a := n) (b := last)]

theorem dllPushBack_fields :
    (∀ n, (m.dllPushBack o node).prev n = if n = node then m.last o else m.prev n) ∧
      (∀ o', (m.dllPushBack o node).first o' = if o' = o ∧ m.last o = none then some node else m.first o') ∧
      (∀ o', (m.dllPushBack o node).last o' = if o' = o then some node else m.last o') ∧
      (m.dllPushBack o node).parent = m.parent := by
  cases hlast : m.last o with
  | none => simp [dllPushBack, setNext, setPrev, setFirst, setLast, hlast, update_apply]
  | some last => simp [dllPushBack, setNext, setPrev, setLast, hlast, update_apply]

theorem dllPushFront_prev (n : ν) :
    (m.dllPushFront o node).prev n =
      if m.first o = some n then some node else if n = node then none else m.prev n := by
  cases hfirst : m.first o with
  | none => simp [dllPushFront, setNext, setPrev, setFirst, setLast, hfirst, update_apply]
  | some first =>
    simp only [dllPushFront, setNext, setPrev, setFirst, hfirst, update_apply, Option.some.injEq]
    simp only [eq_comm (a := n) (b := first)]

theorem dllPushFront_fields :
    (∀ n, (m.dllPushFront o node).next n = if n = node then m.first o else m.next n) ∧
      (∀ o', (m.dllPushFront o node).first o' = if o' = o then some node else m.first o') ∧
      (∀ o', (m.dllPushFront o node).last o' = if o' = o ∧ m.first o = none then some node else m.last o') ∧
      (m.dllPushFront o node).parent = m.parent := by
  cases hfirst : m.first o with
  | none => simp [dllPushFront, setNext, setPrev, setFirst, setLast, hfirst, update_apply]
  | some first => simp [dllPushFront, setNext, setPrev, setFirst, hfirst, update_apply]

theorem dllInsertAfter_fields {o : Owner κ ν} {after node : ν} (hne : after ≠ node)
    (hfirst : m.first o ≠ none) :
    (∀ n, (m.dllInsertAfter o after node).next n =
        if n = after then some node else if n = node then m.next after else m.next n) ∧
      (∀ n, (m.dllInsertAfter o after node).prev n =
        if m.next after = some n then some node else if n = node then some after else m.prev n) ∧
      (∀ o', (m.dllInsertAfter o after node).first o' = m.first o') ∧
      (∀ o', (m.dllInsertAfter o after node).last o' = if o' = o ∧ m.next after = none then some node else m.last o') ∧
      (m.dllInsertAfter o after node).parent = m.parent := by
  cases hnext : m.next after with
  | none =>
    simp [dllInsertAfter, setNext, setPrev, setLast, hnext, hfirst, update_apply, hne]
  | some behind =>
    simp [dllInsertAfter, setNext, setPrev, hnext, hfirst, update_apply, hne, eq_comm]

theorem dllRemove_fields {node : ν} (hprev : m.prev node ≠ some node) :
    (∀ n, (m.dllRemove o node).next n =
        if n = node then none else if m.prev node = some n then m.next node else m.next n) ∧
      (∀ n, (m.dllRemove o node).prev n =
        if n = node then none else if m.next node = some n then m.prev node else m.prev n) ∧
      (∀ o', (m.dllRemove o node).first o' = if o' = o ∧ m.prev node = none then m.next node else m.first o') ∧
      (∀ o', (m.dllRemove o node).last o' = if o' = o ∧ m.next node = none then m.prev node else m.last o') ∧
      (m.dllRemove o node).parent = m.parent := by
  cases hp : m.prev node with
  | none =>
    cases hn : m.next node with
    | none => simp [dllRemove, setNext, setPrev, setFirst, setLast, hp, hn, update_apply]
    | some behind =>
      simp [dllRemove, setNext, setPrev, setFirst, hp, hn, update_apply, eq_comm]
  | some before =>
    rw [hp, ne_eq, Option.some.injEq] at hprev
    cases hn : m.next node with
    | none =>
      simp [dllRemove, setNext, setPrev, setLast, hp, hn, update_apply, Ne.symm hprev, eq_comm]
    | some behind =>
      simp [dllRemove, setNext, setPrev, hp, hn, update_apply, Ne.symm hprev, eq_comm]

end Links

end Code

end Dyn.Container
