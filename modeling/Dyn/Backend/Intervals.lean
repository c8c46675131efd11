import Dyn.Lib.BinarySearch
import Dyn.Lib.Worklist
import Dyn.Backend.Transfers

/-!
# backend/ssa: live intervals

`ssaIntervals` numbers the points of a function in the order of its blocks and gives each value the
interval from its definition to its last use, widened to the end of every block that it is live out
of.  A block begins and ends at a point of its own; phis are defined where their block begins.
-/

namespace Dyn.Backend

/-- The operand slots that a pass has room for. -/
def ssaMaxOperands : Nat := 1600

/-- The operands of a value, including the entries of lists. -/
def operandList (s : Ssa) (id : Nat) : List Nat :=
  let v := s.value id
  if v.op = .const ∨ v.op = .param ∨ v.op = .frame ∨ v.op = .symbol then []
  else if v.op = .phi ∨ v.op = .find then (List.range v.count).map fun i => s.lists.getD (v.list + i) 0
  else if v.op = .call then (List.range v.count).map fun i => s.lists.getD (v.list + 3 * i) 0
  else v.a.toList ++ v.b.toList ++ v.c.toList

/-- As many of the operands as there is room for. -/
def ssaOperands (s : Ssa) (id capacity : Nat) : List Nat := (operandList s id).take capacity

def counted (s : Ssa) (id : Nat) : List Nat := ssaOperands s id ssaMaxOperands

/-- Whether a value occupies a register or slot. -/
def ssaLocated (v : SsaValue) : Bool :=
  let constant := v.op = .const ∧ v.cls = .int ∧ ¬ v.retainConstant
  ¬ v.dead ∧ v.cls ≠ .none ∧ ¬ constant ∧ v.op ≠ .frame ∧ ¬ v.fused

def xRax : Nat := 0
def xRcx : Nat := 1
def xRdx : Nat := 2
def xRbx : Nat := 3
def xRsi : Nat := 6
def xRdi : Nat := 7
def xR8 : Nat := 8
def xR9 : Nat := 9
def xR12 : Nat := 12

def regMask (regs : List Nat) : BitVec 64 := regs.foldl (fun mask r => mask ||| 1#64 <<< r) 0

def ssaCallerSaved : BitVec 64 := regMask [xRax, xRcx, xRdx, xRsi, xRdi, xR8, xR9, xR10, xR11] ||| 0xffff <<< xXmm0

def a64CallerSaved : BitVec 64 := 0x7ffff ||| 0xff <<< xXmm0 ||| 0xffff0000 <<< xXmm0

def win64CallerSaved : BitVec 64 := regMask [xRax, xRcx, xRdx, xR8, xR9, xR10, xR11] ||| 0x3f <<< xXmm0

def rvCallerSaved : BitVec 64 := 0xf003fce2 ||| 0xf003fcff <<< xXmm0

/-- The registers that a value overwrites besides its own. -/
def ssaClobbers (ctx : BackendContext) (s : Ssa) (v : SsaValue) : BitVec 64 :=
  if (ctx.a64 ∨ ctx.rv64) ∧ v.op ≠ .call ∧ v.op ≠ .panic then 0
  else
    match v.op with
    | .call | .panic =>
        if ctx.a64 then a64CallerSaved else if ctx.rv64 then rvCallerSaved
        else if ctx.win64 then win64CallerSaved else ssaCallerSaved
    | .div | .rem | .mulh => regMask [xRax, xRdx]
    | .mulo => if v.aux2 ≠ 0 then 0 else regMask [xRax, xRdx]
    | .shl | .shr | .sar => if (ssaIsConst s v.b).isSome ∨ ctx.bmi2 then 0 else regMask [xRcx]
    | .copymem => if v.aux.toInt > 64 then regMask [xRcx, xRsi, xRdi] else regMask [xRcx]
    | .zeromem => if v.aux.toInt > 64 then regMask [xRax, xRcx, xRdi] else 0
    | .fillmem => regMask [xRax, xRcx, xRdi]
    | .find => regMask [xRax, xRcx, xRdx, xR8, xR9, xR10, xR11]
    | .jsonAsciiPrefix => regMask [xRax, xRcx, xRdx, xR10, xR11]
    | .byteCount => regMask [xRax, xRcx, xRdx, xR10, xR11]
    | .findByte => regMask [xRax, xRcx, xR10, xR11]
    | _ => 0

structure SsaClobber where
  position : Nat
  mask : BitVec 64
  block : Nat
deriving DecidableEq, Repr

/-- The allocation of a function.  Its blocks are in the order of `order`; the registers and slots
are in the values. -/
structure SsaAlloc where
  s : Ssa
  order : List Nat
  blockStart : List Nat
  blockEnd : List Nat
  clobbers : List SsaClobber := []
  position : Nat := 0
  usedCallee : BitVec 64 := 0
  spillSlots : Nat := 0
deriving DecidableEq, Repr

def Ssa.modify (s : Ssa) (id : Nat) (f : SsaValue → SsaValue) : Ssa :=
  { s with values := s.values.modify id f }

def SsaAlloc.startOf (a : SsaAlloc) (b : Nat) : Nat := a.blockStart.getD b 0

def SsaAlloc.endOf (a : SsaAlloc) (b : Nat) : Nat := a.blockEnd.getD b 0

/-- The point of a value of the block `b`. -/
def numberValue (ctx : BackendContext) (b : Nat) (a : SsaAlloc) (id : Nat) : SsaAlloc :=
  let v := a.s.value id
  if v.op = .phi then
    { a with s := a.s.modify id fun v => { v with start := a.startOf b, stop := a.startOf b } }
  else
    let mask := ssaClobbers ctx a.s v
    { a with
      s := a.s.modify id fun v => { v with start := a.position, stop := a.position }
      clobbers := if mask = 0 then a.clobbers else a.clobbers ++ [⟨a.position, mask, b⟩]
      position := a.position + 2 }

def numberBlock (ctx : BackendContext) (a : SsaAlloc) (b : Nat) : SsaAlloc :=
  let a := { a with blockStart := a.blockStart.set b a.position, position := a.position + 2 }
  let a := (a.s.block b).values.foldl (numberValue ctx b) a
  { a with blockEnd := a.blockEnd.set b a.position, position := a.position + 2 }

def SsaAlloc.unnumbered (s : Ssa) (order : List Nat) : SsaAlloc :=
  { s := s, order := order, blockStart := List.replicate s.blocks.length 0
    blockEnd := List.replicate s.blocks.length 0 }

/-- The first loop of `ssa_intervals`: the points of the function, in order. -/
def ssaNumber (ctx : BackendContext) (s : Ssa) (order : List Nat) : SsaAlloc :=
  order.foldl (numberBlock ctx) (.unnumbered s order)

/-- Where a value that is no phi uses its operands.  A protected call links its frame before its
arguments are moved, and a fused comparison is part of the branch that ends its block. -/
def usePoint (a : SsaAlloc) (b : Nat) (v : SsaValue) : Nat :=
  if v.fused then a.endOf b
  else if (v.op = .call ∨ v.op = .panic) ∧ v.cond ≠ 0 then v.start + 1
  else v.start

/-- A use of a value: the block and the point where it happens. -/
structure SsaUse where
  value : Nat
  block : Nat
  point : Nat
deriving DecidableEq, Repr

def controls (block : SsaBlock) : List Nat :=
  block.control.toList ++ block.control2.toList ++ block.control3.toList ++ block.control4.toList

/-- The controls that the end of a block uses. -/
def usedControls (block : SsaBlock) : List Nat :=
  if block.kind = .branch ∨ block.kind = .ret ∨ block.kind = .switch then controls block else []

/-- The uses by a value of the block `b` with the given operands.  Those of a phi happen at the ends
of the predecessors. -/
def usesBy (a : SsaAlloc) (operands : List Nat) (b id : Nat) : List SsaUse :=
  let v := a.s.value id
  if v.op = .phi then
    operands.zipIdx.map fun (op, j) =>
      let pred := (a.s.block b).preds.getD j 0
      ⟨op, pred, a.endOf pred⟩
  else operands.map fun op => ⟨op, b, usePoint a b v⟩

/-- The uses in a block, where `operands` are those of each value. -/
def usesIn (a : SsaAlloc) (operands : Nat → List Nat) (b : Nat) : List SsaUse :=
  (a.s.block b).values.flatMap (fun id => usesBy a (operands id) b id) ++
    (usedControls (a.s.block b)).map fun op => ⟨op, b, a.endOf b⟩

/-- Extends the interval of what is used, and notes a use in another block than the definition's. -/
def useValue (st : SsaAlloc × List (Nat × Nat)) (use : SsaUse) : SsaAlloc × List (Nat × Nat) :=
  let (a, live) := st
  let o := a.s.value use.value
  ({ a with s := a.s.modify use.value fun o => { o with stop := max o.stop use.point } },
    if use.block = o.block then live else live ++ [(use.value, use.block)])

/-- Walks the predecessors of the blocks that a value is live into, back to its definition. -/
def walkValue (live : List (Nat × Nat)) (st : SsaAlloc × List Nat) (id : Nat) : SsaAlloc × List Nat :=
  let (a, stamps) := st
  let o := a.s.value id
  let starts := (live.filter fun use => use.1 = id).map (·.2)
  let walked := starts.foldl
    (Lib.Worklist.walk (fun x => (a.s.block x).preds) (fun x => x == o.block) a.endOf (id + 1))
    { stamps := stamps, best := o.stop }
  ({ a with s := a.s.modify id fun o => { o with stop := walked.best } }, walked.stamps)

/-- **The live intervals.**  The walks take the uses of one value after those of another one. -/
def ssaIntervals (ctx : BackendContext) (s : Ssa) (order : List Nat) : SsaAlloc :=
  let a := ssaNumber ctx s order
  let uses := order.flatMap (usesIn a fun id => ssaOperands a.s id ssaMaxOperands)
  let (a, live) := uses.foldl useValue (a, [])
  ((List.range s.values.length).foldl (walkValue live) (a, List.replicate s.blocks.length 0)).1

/-- A value is live into a block: a path from its beginning reaches a use before the definition. -/
inductive LiveIn (a : SsaAlloc) (operands : Nat → List Nat) (id : Nat) : Nat → Prop
  | use {use : SsaUse} {b : Nat} (hb : b ∈ a.order) (h : use ∈ usesIn a operands b) (value : use.value = id)
      (elsewhere : use.block ≠ (a.s.value id).block) : LiveIn a operands id use.block
  | back {x p : Nat} (h : LiveIn a operands id x) (hp : p ∈ (a.s.block x).preds)
      (elsewhere : p ≠ (a.s.value id).block) : LiveIn a operands id p

/-- **A value is live at a point of a block:** some path from there reaches a use of it. -/
structure LiveAt (a : SsaAlloc) (operands : Nat → List Nat) (id b q : Nat) : Prop where
  inside : a.startOf b ≤ q ∧ q ≤ a.endOf b
  defined : (a.s.value id).block = b → (a.s.value id).start ≤ q
  used : (∃ c ∈ a.order, ∃ use ∈ usesIn a operands c, use.value = id ∧ use.block = b ∧ q ≤ use.point) ∨
    ∃ x, LiveIn a operands id x ∧ b ∈ (a.s.block x).preds

def valuesOf (s : Ssa) (bs : List Nat) : List Nat := bs.flatMap fun b => (s.block b).values

/-- **The form in which the allocator receives a function.**  Each value is in one block, and no path
from the first block reaches a use before the definition.  Every other block follows one of its
predecessors, as it does in a reverse postorder.  The argument lists of calls are bounded when they
are built; a phi has an operand for each predecessor, of which there are any number.  A comparison is
fused with the branch of its block, and constants that are retained are integers. -/
structure AllocatorForm (s : Ssa) (order : List Nat) : Prop where
  nodup : order.Nodup
  block_lt : ∀ b ∈ order, b < s.blocks.length
  values_nodup : (valuesOf s order).Nodup
  values_lt : ∀ id ∈ valuesOf s order, id < s.values.length
  inBlock : ∀ b ∈ order, ∀ id ∈ (s.block b).values, (s.value id).block = b
  preds_mem : ∀ b ∈ order, ∀ p ∈ (s.block b).preds, p ∈ order
  phis : ∀ b ∈ order, ∀ id ∈ (s.block b).values, (s.value id).op = .phi →
    (s.value id).count = (s.block b).preds.length
  operands : ∀ id ∈ valuesOf s order, (s.value id).op ≠ .phi → (operandList s id).length ≤ ssaMaxOperands
  fused : ∀ b ∈ order, ∀ id ∈ (s.block b).values, (s.value id).fused = true → (s.block b).kind = .branch
  retained : ∀ id ∈ valuesOf s order, (s.value id).op = .const → (s.value id).retainConstant = true →
    (s.value id).cls = .int
  behind : ∀ before b after, order = before ++ b :: after → before ≠ [] → ∃ p ∈ (s.block b).preds, p ∈ before
  strict : ∀ id ∈ valuesOf s order, ∀ b, order.head? = some b →
    ¬ LiveIn (.unnumbered s order) (operandList s) id b

end Dyn.Backend
