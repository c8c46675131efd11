import Dyn.Backend.Definitions
import Dyn.Lib.FlowGraph

/-!
# backend/ssa: constructing a function

A function is constructed by a sequence of calls, in any order that describes a control-flow
graph.  Calls name the values by the number of the result that emitted or read them.  Beside the
state of the construction a log is kept of what each block does to variables.
-/

namespace Dyn.Backend

open Lib Lib.Flow

inductive BuildCall where
  | block
  | enter (block : Option Nat)
  | emit (op : SsaOp) (cls : SsaClass) (a b c : Option Nat) (aux aux2 : BitVec 64)
  | write (var handle : Nat)
  | read (var block : Nat) (cls : SsaClass)
  | edge (u v : Nat)
  | sealBlock (block : Nat)
deriving DecidableEq, Repr

/-- What a block does, with the numbers of the values. -/
inductive BuildEvent where
  | define (id : Nat)
  | write (var id : Nat)
  | read (var id : Nat)
deriving DecidableEq, Repr

structure Build where
  ssa : Ssa := {}
  handles : List Nat := []
  log : List (Nat × BuildEvent) := []
deriving DecidableEq, Repr

def buildStep (t : Build) : BuildCall → Option Build
  | .block => some { t with ssa := (ssaBlock t.ssa).1 }
  | .enter b => some { t with ssa := { t.ssa with current := b } }
  | .emit op cls a b c aux aux2 =>
      let id := fun handle : Option Nat => handle.map fun h => t.handles.getD h 0
      let (s, v) := ssaEmit t.ssa op cls (id a) (id b) (id c) aux aux2
      some { ssa := s, handles := t.handles ++ [v], log := t.log ++ [(t.ssa.current.getD 0, .define v)] }
  | .write var handle =>
      let v := t.handles.getD handle 0
      match t.ssa.current with
      | none => some t
      | some b => some { t with ssa := ssaWrite t.ssa var v, log := t.log ++ [(b, .write var v)] }
  | .read var block cls => do
      let (s, v) ← ssaRead t.ssa var block cls
      some { ssa := s, handles := t.handles ++ [v], log := t.log ++ [(block, .read var v)] }
  | .edge u v => some { t with ssa := ssaEdge t.ssa u v }
  | .sealBlock block => do
      let s ← ssaSeal t.ssa block
      some { t with ssa := s }

def buildFrom (t : Build) (calls : List BuildCall) : Option Build := calls.foldlM buildStep t

def build (calls : List BuildCall) : Option Build := buildFrom {} calls

def blockLog (log : List (Nat × BuildEvent)) (b : Nat) : List BuildEvent :=
  (log.filter fun e => e.1 = b).map Prod.snd

/-- The value last written to a variable. -/
def lastWrite (x : Nat) (events : List BuildEvent) : Option Nat :=
  (events.filterMap fun e =>
    match e with
    | .write y id => if y = x then some id else none
    | _ => none).getLast?

/-- The graph that calls describe, and what they write in its blocks. -/
structure Plan where
  preds : List (List Nat) := []
  sealed : List Nat := []
  current : Option Nat := none
  homes : List Nat := []
  written : List (Nat × Nat) := []
deriving DecidableEq, Repr

namespace Plan

def step (p : Plan) : BuildCall → Plan
  | .block => { p with preds := p.preds ++ [[]] }
  | .enter b => { p with current := b }
  | .emit .. => { p with homes := p.homes ++ [p.current.getD 0] }
  | .write var _ => { p with written := p.written ++ p.current.toList.map fun b => (b, var) }
  | .read _ block _ => { p with homes := p.homes ++ [block] }
  | .edge u v => { p with preds := p.preds.modify v (· ++ [u]) }
  | .sealBlock block => { p with sealed := p.sealed ++ [block] }

def predsOf (p : Plan) (b : Nat) : List Nat := p.preds.getD b []

def Edge (p : Plan) (u v : Nat) : Prop := u ∈ p.predsOf v

def Reached (p : Plan) (b : Nat) : Prop := Flow.Reached p.Edge 0 b

def Dominates (p : Plan) (a b : Nat) : Prop := Flow.Dominates p.Edge 0 a b

/-- Every way into the block has written the variable before. -/
def Needed (p : Plan) (x b : Nat) : Prop :=
  ∀ before, Trail p.Edge 0 (b :: before) b → ∃ c ∈ before, (c, x) ∈ p.written

end Plan

def plan (calls : List BuildCall) : Plan := calls.foldl Plan.step {}

/-- What a call may do, where `final` is the finished graph and `now` the part so far.  A block is
sealed once its predecessors are all there; a variable is read where every way from the entry has
written it; no block writes once control has left it, and it writes values it has. -/
def Allowed (final now : Plan) : BuildCall → Prop
  | .block => True
  | .enter block => ∀ b, block = some b → b < now.preds.length
  | .emit op .. => op ≠ .phi ∧ op ≠ .copy ∧ now.current ≠ none
  | .write _ handle => ∀ b, now.current = some b →
      (∃ home, now.homes[handle]? = some home ∧ final.Dominates home b) ∧ ∀ v, ¬ now.Edge b v
  | .read var block _ => block < now.preds.length ∧ ((block, var) ∈ now.written ∨ final.Needed var block)
  | .edge u v => u < now.preds.length ∧ v < now.preds.length
  | .sealBlock block => block < now.preds.length ∧ final.predsOf block = now.predsOf block

/-- The calls describe a control-flow graph and finish it. -/
structure Describes (calls : List BuildCall) : Prop where
  allowed : ∀ before call after, calls = before ++ call :: after → Allowed (plan calls) (plan before) call
  sealed : ∀ b < (plan calls).preds.length, b ∈ (plan calls).sealed
  room : (plan calls).preds.length < 2 ^ 32

end Dyn.Backend
