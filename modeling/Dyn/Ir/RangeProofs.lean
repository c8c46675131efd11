import Dyn.Ir.Nodes

/-!
# ir: range proofs

`proveUnsignedRanges` looks for checks that never fail.  It carries facts about the locals of a
function through the simple statements of its body and forgets them at every other statement; a loop
that counts a local up to a bound is then examined with the facts that hold where it begins.  An
index into an array and an addition whose check is proved to hold are marked in their `boolean`.
-/

namespace Dyn.Ir

structure UIntRange where
  valid : Bool := false
  exact : Bool := false
  max : Nat := 0
  value : Nat := 0
deriving DecidableEq, Repr, Inhabited

/-- What is known of the locals `start`, `start + 1`, … of a function. -/
structure RangeLocals where
  values : List UIntRange
  start : Nat
deriving DecidableEq, Repr

def rangeHasLocal (locals : RangeLocals) (id : Nat) : Bool :=
  locals.start ≤ id ∧ id - locals.start < locals.values.length

namespace RangeLocals

def get (locals : RangeLocals) (id : Nat) : UIntRange := locals.values.getD (id - locals.start) {}

def set (locals : RangeLocals) (id : Nat) (range : UIntRange) : RangeLocals :=
  { locals with values := locals.values.set (id - locals.start) range }

def clear (locals : RangeLocals) : RangeLocals :=
  { locals with values := List.replicate locals.values.length {} }

end RangeLocals

/-- The range of a conversion to an unsigned type whose largest value is `limit`. -/
def convertRange (limit : Nat) (source : UIntRange) : UIntRange :=
  if ¬ source.valid ∨ limit < source.max then ⟨true, false, limit, 0⟩
  else
    let source := { source with max := if source.max < limit then source.max else limit }
    if source.exact ∧ limit < source.value then { source with exact := false } else source

def binaryRange (op : Operator) (left right : UIntRange) : UIntRange :=
  if ¬ left.valid ∨ ¬ right.valid then {}
  else if op = .bitAnd then
    let max := if left.max < right.max then left.max else right.max
    let max := if right.exact ∧ right.value < max then right.value else max
    let max := if left.exact ∧ left.value < max then left.value else max
    ⟨true, left.exact && right.exact, max, left.value &&& right.value⟩
  else if op = .add ∧ right.max ≤ uint64Max - left.max then
    ⟨true, left.exact && right.exact, left.max + right.max, (left.value + right.value) % 2 ^ 64⟩
  else if op = .mul ∧ (left.max = 0 ∨ right.max ≤ uint64Max / left.max) then
    ⟨true, left.exact && right.exact, left.max * right.max, (left.value * right.value) % 2 ^ 64⟩
  else {}

/-- What is known of the value of an expression.  The fuel is the depth that is left. -/
def uintRange (ir : DynIrProgram) (locals : RangeLocals) (pointerBytes : Nat) : Nat → Nat → UIntRange
  | 0, _ => {}
  | fuel + 1, id =>
      if ¬ ir.hasExpr id then {}
      else
        let e := ir.expr id
        if e.kind = .bool then ⟨true, true, e.boolean.toNat, e.boolean.toNat⟩
        else if e.kind = .int ∨ e.kind = .char then ⟨true, true, e.integer.toNat, e.integer.toNat⟩
        else if e.kind = .name ∧ rangeHasLocal locals e.integer.toNat then locals.get e.integer.toNat
        else if e.kind = .convert ∨ e.kind = .cast then
          if ¬ unsignedType e.type then {}
          else convertRange (unsignedMax e.type pointerBytes) (uintRange ir locals pointerBytes fuel e.left)
        else if e.kind = .index ∧ unsignedType e.type then ⟨true, false, unsignedMax e.type pointerBytes, 0⟩
        else if e.kind ≠ .binary ∨ e.wrap then {}
        else
          binaryRange e.op (uintRange ir locals pointerBytes fuel e.left)
            (uintRange ir locals pointerBytes fuel e.right)

namespace DynIrProgram

/-- The depth that an expression is followed to. -/
def depth (ir : DynIrProgram) : Nat := ir.expressions.length + 1

def rangeOf (ir : DynIrProgram) (locals : RangeLocals) (pointerBytes id : Nat) : UIntRange :=
  uintRange ir locals pointerBytes ir.depth id

end DynIrProgram

/-- Whether the evaluation of an expression writes nothing. -/
def rangePure (ir : DynIrProgram) : Nat → Nat → Bool
  | 0, _ => false
  | fuel + 1, id =>
      if ¬ ir.hasExpr id then false
      else
        let e := ir.expr id
        if e.kind = .int ∨ e.kind = .char ∨ e.kind = .bool ∨ e.kind = .name ∨ e.kind = .global then true
        else if e.kind = .convert ∨ e.kind = .cast then rangePure ir fuel e.left
        else if e.kind = .index ∨ e.kind = .binary then rangePure ir fuel e.left && rangePure ir fuel e.right
        else false

def simpleLoopBody (ir : DynIrProgram) (loop : Nat) : Bool :=
  (ir.body loop).all fun id =>
    let st := ir.stmt id
    if st.kind = .localStmt then rangePure ir ir.depth st.expression
    else if st.kind = .assignStmt then st.target = noExpr && rangePure ir ir.depth st.expression
    else false

/-- Marks the indexes below an expression that the facts keep below the length of their array. -/
def proveArrayBounds (locals : RangeLocals) (pointerBytes : Nat) : Nat → DynIrProgram → Nat → DynIrProgram
  | 0, ir, _ => ir
  | fuel + 1, ir, id =>
      if ¬ ir.hasExpr id then ir
      else
        let e := ir.expr id
        let ir := proveArrayBounds locals pointerBytes fuel ir e.left
        let ir := proveArrayBounds locals pointerBytes fuel ir e.right
        let ir := (List.range e.itemCount).foldl
          (fun ir i => proveArrayBounds locals pointerBytes fuel ir (ir.item (e.itemStart + i))) ir
        if e.kind ≠ .index ∨ ¬ (ir.expr e.left).type.isArray then ir
        else
          let index := ir.rangeOf locals pointerBytes e.right
          if index.valid ∧ index.max < ir.arrayLength (ir.expr e.left).type then ir.mark id else ir

/-- The number of assignments to a local in a list of statements. -/
def writes (ir : DynIrProgram) (body : List Nat) (id : Nat) : Nat :=
  body.countP fun s => (ir.stmt s).kind = .assignStmt ∧ (ir.stmt s).localId = id

/-- Forgets the locals that the statements write. -/
def forgetWritten (ir : DynIrProgram) (outer : RangeLocals) (body : List Nat) : RangeLocals :=
  body.foldl
    (fun inside s => if rangeHasLocal inside (ir.stmt s).localId then inside.set (ir.stmt s).localId {} else inside)
    outer

/-- Whether an expression adds something to the local. -/
def addsTo (ir : DynIrProgram) (id x : Nat) : Bool :=
  let e := ir.expr id
  e.kind = .binary && e.op = .add && (ir.expr e.left).kind = .name && (ir.expr e.left).integer.toNat = x

/-- What is settled about a loop before its body is examined: how often the body is run at most, and
what holds where it begins. -/
structure LoopFacts where
  iterations : Nat
  inside : RangeLocals
deriving DecidableEq, Repr

/-- The checks on a loop: it counts a local from a known value up to a known bound, in steps of one
that are taken by the last statement of its body. -/
def loopFacts (ir : DynIrProgram) (loop : Nat) (outer : RangeLocals) (pointerBytes : Nat) : Option LoopFacts :=
  let st := ir.stmt loop
  if st.forRange ∨ st.expression = noExpr ∨ ¬ simpleLoopBody ir loop then none
  else
    let condition := ir.expr st.expression
    if condition.kind ≠ .binary ∨ (condition.op ≠ .lt ∧ condition.op ≠ .le) then none
    else
      let induction := ir.expr condition.left
      if induction.kind ≠ .name ∨ ¬ rangeHasLocal outer induction.integer.toNat ∨ ¬ unsignedType induction.type then
        none
      else
        let inductionId := induction.integer.toNat % 2 ^ 32
        let body := ir.body loop
        let inside := forgetWritten ir outer body
        let bound := ir.rangeOf inside pointerBytes condition.right
        let start := outer.get inductionId
        if ¬ bound.exact ∨ ¬ start.exact ∨ bound.value < start.value then none
        else
          let inclusive := condition.op = .le
          if inclusive ∧ unsignedMax induction.type pointerBytes ≤ bound.value then none
          else
            let iterations := (bound.value - start.value + if inclusive then 1 else 0) % 2 ^ 64
            if writes ir body inductionId ≠ 1 then none
            else
              match body.getLast? with
              | none => none
              | some last =>
                if (ir.stmt last).kind ≠ .assignStmt ∨ (ir.stmt last).localId ≠ inductionId then none
                else if ¬ addsTo ir (ir.stmt last).expression inductionId then none
                else
                  let one := ir.rangeOf inside pointerBytes (ir.expr (ir.stmt last).expression).right
                  if ¬ one.exact ∨ one.value ≠ 1 then none
                  else
                    some
                      { iterations
                        inside := inside.set inductionId
                          ⟨true, false, if inclusive then bound.value else bound.value - 1, 0⟩ }

/-- Whether the sum that a statement of the body assigns stays below the largest value of its type:
the local grows from `initial` by at most `step` each time. -/
def growthFits (limit iterations : Nat) (initial step : UIntRange) : Bool :=
  initial.valid && step.valid && (iterations = 0 || step.max ≤ uint64Max / iterations) &&
    initial.max ≤ limit && step.max * iterations % 2 ^ 64 ≤ limit - initial.max

/-- One statement of the body of a loop: marks what is proved and carries the facts past it. -/
def proveBodyStmt (outer : RangeLocals) (body : List Nat) (iterations pointerBytes : Nat)
    (state : DynIrProgram × RangeLocals) (s : Nat) : DynIrProgram × RangeLocals :=
  let (ir, inside) := state
  let st := ir.stmt s
  let ir := proveArrayBounds inside pointerBytes ir.depth ir st.expression
  if st.kind = .localStmt ∧ rangeHasLocal inside st.localId then
    (ir, inside.set st.localId (ir.rangeOf inside pointerBytes st.expression))
  else if st.kind ≠ .assignStmt ∨ ¬ rangeHasLocal inside st.localId then (ir, inside)
  else
    let e := ir.expr st.expression
    let inside := inside.set st.localId {}
    if writes ir body st.localId ≠ 1 ∨ ¬ addsTo ir st.expression st.localId then (ir, inside)
    else if unsignedType e.type ∧ growthFits (unsignedMax e.type pointerBytes) iterations (outer.get st.localId)
        (ir.rangeOf inside pointerBytes e.right) then
      (ir.mark st.expression, inside)
    else (ir, inside)

def proveUnsignedLoop (ir : DynIrProgram) (loop : Nat) (outer : RangeLocals) (pointerBytes : Nat) : DynIrProgram :=
  match loopFacts ir loop outer pointerBytes with
  | none => ir
  | some facts =>
      ((ir.body loop).foldl (proveBodyStmt outer (ir.body loop) facts.iterations pointerBytes) (ir, facts.inside)).1

/-- Whether the statement does nothing but write a pure value to a local that facts are kept of. -/
def carries (ir : DynIrProgram) (locals : RangeLocals) (s : Nat) : Bool :=
  let st := ir.stmt s
  (st.kind = .localStmt || st.kind = .assignStmt) && st.target = noExpr && rangeHasLocal locals st.localId &&
    rangePure ir ir.depth st.expression

/-- The facts after a statement of a function's body. -/
def carryRanges (ir : DynIrProgram) (pointerBytes : Nat) (locals : RangeLocals) (s : Nat) : RangeLocals :=
  if carries ir locals s then
    locals.set (ir.stmt s).localId (ir.rangeOf locals pointerBytes (ir.stmt s).expression)
  else locals.clear

def proveStmt (pointerBytes : Nat) (state : DynIrProgram × RangeLocals) (s : Nat) : DynIrProgram × RangeLocals :=
  let (ir, locals) := state
  (if ¬ carries ir locals s ∧ (ir.stmt s).kind = .forStmt then proveUnsignedLoop ir s locals pointerBytes else ir,
    carryRanges ir pointerBytes locals s)

namespace DynIrFunction

def body (fn : DynIrFunction) (ir : DynIrProgram) : List Nat := ir.block fn.bodyStart fn.bodyCount

/-- Nothing is known of the locals of a function where it begins. -/
def locals (fn : DynIrFunction) : RangeLocals := ⟨List.replicate fn.localCount {}, fn.localStart⟩

end DynIrFunction

def proveFunction (pointerBytes : Nat) (ir : DynIrProgram) (fn : DynIrFunction) : DynIrProgram :=
  if fn.localCount = 0 then ir
  else ((fn.body ir).foldl (proveStmt pointerBytes) (ir, fn.locals)).1

def proveUnsignedRanges (ir : DynIrProgram) (pointerBytes : Nat) : DynIrProgram :=
  ir.functions.foldl (proveFunction pointerBytes) ir

end Dyn.Ir
