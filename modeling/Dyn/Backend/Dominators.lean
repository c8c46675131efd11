import Dyn.Backend.Ssa
import Dyn.Lib.FlowGraph

/-!
# backend/ssa: block order and dominators

Blocks are ordered in reverse postorder of a search from the entry, which is block 0.  Dominators
are computed over that order, and the tree they form is numbered depth first.  A loop that the
source leaves open takes a bound here; a result that is `none` has run into it, or has read an
entry that is not there.
-/

namespace Dyn.Backend

open Lib

/-- The largest 32-bit number, the source's mark for what is not there. -/
def UINT32_MAX : Nat := 4294967295

def ssaSuccessors (s : Ssa) (b : SsaBlock) : Nat :=
  match b.kind with
  | .plain => 1
  | .branch | .call => 2
  | .switch => 1 + s.lists.getD (b.table + 1) 0
  | .ret | .exit => 0

def ssaSuccessor (s : Ssa) (b : SsaBlock) (i : Nat) : Option Nat :=
  match b.kind with
  | .switch => some (s.lists.getD (b.table + 2 + i) 0)
  | _ => if i = 0 then b.succ0 else b.succ1

/-- The search, its stack with the top first and the blocks it has left, the last one first. -/
structure OrderState where
  s : Ssa
  stack : List (Nat × Nat) := []
  post : List Nat := []

/-- The successor that is visited next; the exit of a loop comes before its body. -/
def orderPick (s : Ssa) (block : SsaBlock) (next : Nat) : Nat :=
  if ssaSuccessors s block = 2 ∧ block.kind = .branch then
    match ssaSuccessor s block 0, ssaSuccessor s block 1 with
    | some first, some second =>
        if (s.block first).loopDepth > (s.block second).loopDepth then 1 - next else next
    | _, _ => next
  else next

def orderStep (st : OrderState) : OrderState :=
  match st.stack with
  | [] => st
  | (b, next) :: below =>
      let block := st.s.block b
      if next < ssaSuccessors st.s block then
        match ssaSuccessor st.s block (orderPick st.s block next) with
        | none => { st with stack := (b, next + 1) :: below }
        | some succ =>
            if (st.s.block succ).reachable then { st with stack := (b, next + 1) :: below }
            else
              { st with
                s := st.s.updateBlock succ ({ · with reachable := true })
                stack := (succ, 0) :: (b, next + 1) :: below }
      else { st with stack := below, post := b :: st.post }

def orderLoop : Nat → OrderState → Option OrderState
  | 0, _ => none
  | fuel + 1, st => if st.stack = [] then some st else orderLoop fuel (orderStep st)

def orderFuel (s : Ssa) : Nat :=
  ((List.range s.blocks.length).map fun b => ssaSuccessors s (s.block b) + 1).sum + 1

/-- Gives the blocks their places in the order. -/
def placeBlocks : Nat → List Nat → Ssa → Ssa
  | _, [], s => s
  | n, b :: order, s => placeBlocks (n + 1) order (s.updateBlock b ({ · with order := n }))

def leadingPhis (s : Ssa) (b : SsaBlock) : List Nat :=
  b.values.takeWhile fun id => (s.value id).op = .phi

/-- Moves operand `p` of the phis to place `kept`. -/
def keepOperands (phis : List Nat) (kept p : Nat) (s : Ssa) : Ssa :=
  phis.foldl (fun s id =>
    { s with lists := s.lists.set ((s.value id).list + kept) (s.lists.getD ((s.value id).list + p) 0) }) s

/-- The reachable predecessors, with the operands of the phis moved along. -/
def prunePreds (phis : List Nat) : Nat → Nat → List Nat → Ssa → Ssa × List Nat
  | _, _, [], s => (s, [])
  | kept, p, pred :: preds, s =>
      if (s.block pred).reachable then
        let rest := prunePreds phis (kept + 1) (p + 1) preds (keepOperands phis kept p s)
        (rest.1, pred :: rest.2)
      else prunePreds phis kept (p + 1) preds s

/-- Removes unreachable predecessors together with their operands. -/
def pruneBlock (s : Ssa) (b : Nat) : Ssa :=
  let phis := leadingPhis s (s.block b)
  let (s, preds) := prunePreds phis 0 0 (s.block b).preds s
  let values := phis.foldl (fun values id => values.modify id ({ · with count := preds.length })) s.values
  { s with values := values }.updateBlock b ({ · with preds := preds })

/-- Reverse postorder of the reachable blocks. -/
def ssaOrder (s : Ssa) : Option (Ssa × List Nat) := do
  let blocks : List SsaBlock := s.blocks.map ({ · with reachable := false, order := UINT32_MAX })
  let s := { s with blocks := blocks }.updateBlock 0 ({ · with reachable := true })
  let st ← orderLoop (orderFuel s) { s := s, stack := [(0, 0)] }
  let order := st.post
  some (order.foldl pruneBlock (placeBlocks 0 order st.s), order)

/-- Follows the table up from `x` while it comes after `y`. -/
def climb (s : Ssa) : Nat → Nat → Nat → Option Nat
  | 0, _, _ => none
  | fuel + 1, x, y =>
      if (s.block x).order > (s.block y).order then
        match (s.block x).idom with
        | none => none
        | some above => climb s fuel above y
      else some x

def intersect (s : Ssa) : Nat → Nat → Nat → Option Nat
  | 0, _, _ => none
  | fuel + 1, x, y =>
      if x = y then some x
      else do
        let x ← climb s (s.blocks.length + 1) x y
        let y ← climb s (s.blocks.length + 1) y x
        intersect s fuel x y

/-- The intersection over the predecessors that have an entry. -/
def meetPreds (s : Ssa) : List Nat → Option Nat → Option (Option Nat)
  | [], idom => some idom
  | pred :: preds, idom =>
      match (s.block pred).idom, idom with
      | none, _ => meetPreds s preds idom
      | some _, none => meetPreds s preds (some pred)
      | some _, some y => do
          let x ← intersect s (s.blocks.length + 1) pred y
          meetPreds s preds (some x)

def dominatorTurn (p : Ssa × Bool) (b : Nat) : Option (Ssa × Bool) := do
  let idom ← meetPreds p.1 (p.1.block b).preds none
  if idom = (p.1.block b).idom then some p
  else some (p.1.updateBlock b ({ · with idom := idom }), true)

def dominatorPass (order : List Nat) (s : Ssa) : Option (Ssa × Bool) :=
  order.tail.foldlM dominatorTurn (s, false)

def dominatorLoop (order : List Nat) : Nat → Ssa → Option Ssa
  | 0, _ => none
  | fuel + 1, s => do
      let (s, changed) ← dominatorPass order s
      if changed then dominatorLoop order fuel s else some s

/-- The depth of a block is one more than that of its dominator. -/
def depthTurn (s : Ssa) (b : Nat) : Option Ssa := do
  let idom ← (s.block b).idom
  some (s.updateBlock b ({ · with depth := (s.block idom).depth + 1 }))

/-- Cooper, Harvey and Kennedy's iterative dominators over the order. -/
def ssaDominators (s : Ssa) (order : List Nat) : Option Ssa := do
  let entry := order.headD 0
  let s := order.foldl (fun s b => s.updateBlock b ({ · with idom := none })) s
  let s := s.updateBlock entry ({ · with idom := some entry })
  let s ← dominatorLoop order (order.length * order.length + 1) s
  order.tail.foldlM depthTurn (s.updateBlock entry ({ · with depth := 0 }))

def dominatesLoop (s : Ssa) (a : Nat) : Nat → Nat → Option Bool
  | 0, _ => none
  | fuel + 1, b =>
      if (s.block b).depth > (s.block a).depth then do
        let above ← (s.block b).idom
        dominatesLoop s a fuel above
      else some (a = b)

def ssaDominates (s : Ssa) (a b : Nat) : Option Bool := dominatesLoop s a (s.blocks.length + 1) b

/-- The numbers and the rest of the search: what is left of the lists of children, and the stack. -/
structure Numbering where
  enter : List Nat
  leave : List Nat
  child : List (Option Nat)
  stack : List Nat
  clock : Nat

/-- Puts a block in front of the children of its dominator; the links are the second part. -/
def linkChild (s : Ssa) (b : Nat) (links : List (Option Nat) × List (Option Nat)) :
    List (Option Nat) × List (Option Nat) :=
  match (s.block b).idom with
  | none => links
  | some parent =>
      if parent ≥ s.blocks.length then links
      else (links.1.set parent (some b), links.2.set b (links.1.getD parent none))

def numberStep (sibling : List (Option Nat)) (st : Numbering) : Numbering :=
  match st.stack with
  | [] => st
  | b :: below =>
      match st.child.getD b none with
      | some next =>
          { enter := st.enter.set next st.clock
            leave := st.leave
            child := st.child.set b (sibling.getD next none)
            stack := next :: b :: below
            clock := st.clock + 1 }
      | none => { st with leave := st.leave.set b st.clock, stack := below, clock := st.clock + 1 }

def numberLoop (sibling : List (Option Nat)) : Nat → Numbering → Option Numbering
  | 0, _ => none
  | fuel + 1, st => if st.stack = [] then some st else numberLoop sibling fuel (numberStep sibling st)

def ssaDominatorNumbers (s : Ssa) (order : List Nat) : Option Numbering :=
  let entry := order.headD 0
  let none : List (Option Nat) := List.replicate s.blocks.length none
  let links := order.tail.foldr (linkChild s) (none, none)
  numberLoop links.2 (2 * order.length + 1)
    { enter := (List.replicate s.blocks.length UINT32_MAX).set entry 0
      leave := List.replicate s.blocks.length 0
      child := links.1
      stack := [entry]
      clock := 1 }

end Dyn.Backend
