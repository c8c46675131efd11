import Dyn.Backend.Intervals

/-!
# backend/ssa: linear scan

`ssaAllocate` goes through the values in the order in which their intervals start and gives each a
register that is free and not clobbered inside of the interval, or takes it from a value whose
interval ends later or that is used less.  Values without a register get a slot of their own.
-/

namespace Dyn.Backend

def ssaGpOrder (ctx : BackendContext) : List Nat :=
  if ctx.a64 then
    let order := [0, 1, 2, 3, 4, 5, 6, 7, 8, 9, 10, 11, 12, 13, 19, 20, 21, 22, 23, 24, 25, 26, 27, 28]
    if ctx.winarm64 then order.take 14 else order
  else if ctx.rv64 then [10, 11, 12, 13, 14, 15, 16, 17, 9, 18, 19, 20, 21, 22, 23, 24, 25, 26, 27]
  else if ctx.win64 then [xRax, xRcx, xRdx, xR8, xR9, xRsi, xRdi, xRbx, xR12]
  else [xRax, xRcx, xRdx, xRsi, xRdi, xR8, xR9, xRbx, xR12, 13, 14, 15]

def ssaFpOrder (ctx : BackendContext) : List Nat :=
  let order :=
    if ctx.a64 then [0, 1, 2, 3, 4, 5, 6, 7, 16, 17, 18, 19, 20, 21, 22, 23, 24, 25, 26, 27, 28]
    else if ctx.rv64 then [0, 1, 2, 3, 4, 5, 6, 7, 10, 11, 12, 13, 14, 15, 16, 17, 28]
    else List.range (if ctx.win64 then 3 else 13)
  order.map (xXmm0 + ·)

/-- Whether the allocator may assign a register on this target. -/
def ssaAllocatable (ctx : BackendContext) (reg : Nat) : Bool :=
  if xXmm0 ≤ reg then (ssaFpOrder ctx).contains reg else (ssaGpOrder ctx).contains reg

def a64CalleeSaved : BitVec 64 := 0x1ff80000

def rvCalleeSaved : BitVec 64 := 0x0ffc0200

/-- Whether a function that uses a register has to preserve it. -/
def calleeSaved (ctx : BackendContext) (reg : Nat) : Bool :=
  if ctx.a64 then a64CalleeSaved.getLsbD reg
  else if ctx.rv64 then rvCalleeSaved.getLsbD reg
  else if ctx.win64 then reg = xRsi ∨ reg = xRdi ∨ reg = xRbx ∨ reg = xR12
  else reg = xRbx ∨ (xR12 ≤ reg ∧ reg ≤ 15)

/-- Whether `id` is used in a block at or after a point. -/
def ssaUsedFrom (a : SsaAlloc) (block position id : Nat) : Bool :=
  let b := a.s.block block
  (controls b).contains id ||
    b.values.any fun user =>
      let u := a.s.value user
      ¬ (u.dead ∨ u.start < position) && (ssaOperands a.s user ssaMaxOperands).contains id

/-- Whether a register is clobbered strictly inside of an interval.  A clobber in an exit block, which
never continues, matters only where the value is still used there. -/
def ssaClobbered (a : SsaAlloc) (reg start stop id : Nat) : Bool :=
  let low := Lib.lowerBound (fun c : SsaClobber => c.position ≤ start) a.clobbers
  ((a.clobbers.drop low).takeWhile fun c => c.position < stop).any fun c =>
    c.mask.getLsbD reg &&
      !((a.s.block c.block).kind = .exit && !ssaUsedFrom a c.block c.position id)

/-- The uses of each value, those in loops with more weight. -/
def ssaWeights (a : SsaAlloc) : List Nat :=
  a.order.foldl (fun weight b =>
    let block := a.s.block b
    let cost := 2 ^ (2 * min block.loopDepth 5)
    let weight := match block.control with
      | some control => weight.modify control (· + cost)
      | none => weight
    block.values.foldl (fun weight id =>
      if (a.s.value id).dead then weight
      else (ssaOperands a.s id ssaMaxOperands).foldl (fun weight op => weight.modify op (· + cost)) weight) weight)
    (List.replicate a.s.values.length 0)

/-- Values in the order in which their intervals start. -/
def startsBefore (a : SsaAlloc) (x y : Nat) : Bool :=
  let v := a.s.value x
  let w := a.s.value y
  v.start < w.start ∨ (v.start = w.start ∧ x ≤ y)

/-- The state of the scan: the registers of the values, the values that hold one, and the value that
each register is held by. -/
structure Scan where
  regs : List (Option Nat)
  active : List Nat := []
  owner : List (Option Nat)
deriving DecidableEq, Repr

def Scan.reg (st : Scan) (id : Nat) : Option Nat := st.regs.getD id none

def Scan.free (st : Scan) (reg : Nat) : Bool := st.owner.getD reg none == none

/-- An interval is over where another one starts. -/
def expired (w v : SsaValue) : Bool := w.stop < v.start ∨ (w.stop = v.start ∧ v.op ≠ .phi)

/-- Expires the intervals that ended before one starts. -/
def expire (a : SsaAlloc) (st : Scan) (v : SsaValue) : Scan :=
  { st with
    active := st.active.filter fun id => !expired (a.s.value id) v
    owner := (st.active.filter fun id => expired (a.s.value id) v).foldl (fun owner id =>
      match st.reg id with
      | some reg => owner.set reg none
      | none => owner) st.owner }

/-- A register that is free and suits a value: the one that its hint wants, or the first one. -/
def candidate (ctx : BackendContext) (a : SsaAlloc) (hint : SsaHint) (st : Scan) (id : Nat) : Option Nat :=
  let v := a.s.value id
  let floating := v.cls == .f64 || v.cls == .f32
  let suits := fun reg => st.free reg && !ssaClobbered a reg v.start v.stop id
  let want := match hint with
    | .value other => st.reg other
    | .register reg => some reg
    | .none => none
  match want.filter fun reg => ssaAllocatable ctx reg && (decide (xXmm0 ≤ reg) == floating) && suits reg with
  | some reg => some reg
  | none => (if floating then ssaFpOrder ctx else ssaGpOrder ctx).find? suits

/-- An active value whose register can be taken: its index among the active ones, and its number. -/
abbrev Victim := Option (Nat × Nat)

/-- Whether the interval of a value ends behind that of the victim, if there is one. -/
def endsLater (a : SsaAlloc) (w : SsaValue) : Victim → Bool
  | none => true
  | some (_, victim) => (a.s.value victim).stop < w.stop

/-- The loop over the active values for a victim, and for one that is used much less. -/
def victims (a : SsaAlloc) (weight : List Nat) (st : Scan) (id : Nat) : Victim × Victim :=
  let v := a.s.value id
  let floating := v.cls == .f64 || v.cls == .f32
  st.active.zipIdx.foldl (fun (found : Victim × Victim) (other, j) =>
    let w := a.s.value other
    match st.reg other with
    | none => found
    | some reg =>
        if decide (xXmm0 ≤ reg) ≠ floating ∨ ssaClobbered a reg v.start v.stop id then found
        else if weight.getD other 0 > 4 * weight.getD id 0 then found
        else
          let victim := if endsLater a w found.1 then some (j, other) else found.1
          let hot :=
            if weight.getD id 0 ≠ 0 ∧ weight.getD other 0 ≤ (weight.getD id 0 - 1) / 4 ∧ endsLater a w found.2
            then some (j, other) else found.2
          (victim, hot)) (none, none)

/-- The victim that is evicted, if any: the one that ends last, or else one that is used much less. -/
def chooseVictim (a : SsaAlloc) (weight : List Nat) (st : Scan) (id : Nat) : Victim :=
  let stop := (a.s.value id).stop
  let (victim, hot) := victims a weight st id
  let sooner := match victim with
    | none => true
    | some (_, other) => decide ((a.s.value other).stop ≤ stop)
  match if sooner && hot.isSome then hot else victim with
  | some (j, other) => if stop < (a.s.value other).stop ∨ some (j, other) = hot then some (j, other) else none
  | none => none

/-- The last active value takes the place of the `j`-th one. -/
def dropActive (active : List Nat) (j : Nat) : List Nat :=
  match active.getLast? with
  | some last => (active.set j last).dropLast
  | none => []

def Scan.take (st : Scan) (id reg : Nat) : Scan :=
  { regs := st.regs.set id (some reg), active := st.active ++ [id], owner := st.owner.set reg (some id) }

def Scan.evict (st : Scan) (j other : Nat) : Scan :=
  { st with regs := st.regs.set other none, active := dropActive st.active j }

def scanValue (ctx : BackendContext) (hints : Nat → SsaHint) (a : SsaAlloc) (weight : List Nat) (st : Scan)
    (id : Nat) : Scan :=
  let st := expire a st (a.s.value id)
  match candidate ctx a (hints id) st id with
  | some reg => st.take id reg
  | none =>
      match chooseVictim a weight st id with
      | some (j, other) =>
          match st.reg other with
          | some reg => (st.evict j other).take id reg
          | none => st
      | none => st

/-- The values that are allocated, in the order of the scan. -/
def scanned (a : SsaAlloc) : List Nat :=
  ((valuesOf a.s a.order).filter fun id => ssaLocated (a.s.value id)).mergeSort (startsBefore a)

/-- The register or slot of a value, from the registers of the scan. -/
def settle (ctx : BackendContext) (regs : List (Option Nat)) (a : SsaAlloc) (id : Nat) : SsaAlloc :=
  match regs.getD id none with
  | some reg =>
      { a with
        s := a.s.modify id fun v => { v with reg := some reg }
        usedCallee := if calleeSaved ctx reg then a.usedCallee ||| 1#64 <<< reg else a.usedCallee }
  | none =>
      if (a.s.value id).op = .const ∧ (a.s.value id).retainConstant = true then
        { a with s := a.s.modify id fun v => { v with retainConstant := false } }
      else
        { a with s := a.s.modify id fun v => { v with slot := some a.spillSlots }, spillSlots := a.spillSlots + 1 }

def resetValues (a : SsaAlloc) : SsaAlloc :=
  { a with
    s := (valuesOf a.s a.order).foldl (fun s id => s.modify id fun v => { v with reg := none, slot := none }) a.s }

/-- **The linear scan.**  The hints are those of `ssa_hints`; the registers of the values are in a table
of their own until all are known. -/
def ssaAllocate (ctx : BackendContext) (hints : Nat → SsaHint) (a : SsaAlloc) : SsaAlloc :=
  let a := resetValues a
  let st := (scanned a).foldl (scanValue ctx hints a (ssaWeights a))
    { regs := List.replicate a.s.values.length none, owner := List.replicate 64 none }
  (scanned a).foldl (settle ctx st.regs) a

end Dyn.Backend
