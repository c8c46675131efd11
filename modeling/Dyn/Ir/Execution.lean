import Dyn.Ir.Nodes

/-!
# ir: execution

What it means to run the statements of one activation of a function.  A local holds the value of its
type as a 64-bit word, sign extended for a signed type.  The expressions that write nothing, the
assignments to locals and the loops with a condition have the meaning that every code generator gives
them; all else may do anything to the locals, and may evaluate the expressions that it consists of in
any way.  A run may stop anywhere: a failed check stops it, and the runs that stop early are what is
seen of a run that does not end.  The events of a run are its checks.
-/

namespace Dyn.Ir

/-- The local that stands for a value that is thrown away. -/
def noLocal : Nat := 4294967295

abbrev State := Nat → Nat

/-- A check of an index, and of the operands of a sum. -/
inductive Event
  | index (id value : Nat)
  | add (id left right : Nat)
deriving DecidableEq, Repr

def Event.id : Event → Nat
  | .index id _ => id
  | .add id _ _ => id

def signedBits (pointerBytes : Nat) : DynType → Option Nat
  | .i8 => some 8
  | .i16 => some 16
  | .i32 => some 32
  | .i64 => some 64
  | .isize => some (8 * pointerBytes)
  | _ => none

def integerType (t : DynType) : Bool := unsignedType t || (signedBits 8 t).isSome

/-- The types whose values are words that the operations below compute on. -/
def scalarType (t : DynType) : Bool := integerType t || t = .bool

/-- The value of the type that has the low bits of a word. -/
def normalize (pointerBytes : Nat) (t : DynType) (v : Nat) : Nat :=
  if unsignedType t then v % (unsignedMax t pointerBytes + 1)
  else
    match signedBits pointerBytes t with
    | some bits => if v % 2 ^ bits < 2 ^ (bits - 1) then v % 2 ^ bits else v % 2 ^ bits + (2 ^ 64 - 2 ^ bits)
    | none => v

/-- A value of an unsigned type is at most the largest. -/
def Fits (pointerBytes : Nat) (t : DynType) (v : Nat) : Prop := unsignedType t = true → v ≤ unsignedMax t pointerBytes

instance (pointerBytes : Nat) (t : DynType) (v : Nat) : Decidable (Fits pointerBytes t v) :=
  inferInstanceAs (Decidable (unsignedType t = true → v ≤ unsignedMax t pointerBytes))

def asSigned (v : Nat) : Int := if v < 2 ^ 63 then v else (v : Int) - 2 ^ 64

/-- A checked operation: there is no result when the number is not of the type. -/
def checked (pointerBytes : Nat) (t : DynType) (f : Int → Int → Int) (l r : Nat) : Option Nat :=
  if unsignedType t then
    if 0 ≤ f l r ∧ f l r ≤ unsignedMax t pointerBytes then some (f l r).toNat else none
  else
    match signedBits pointerBytes t with
    | some bits =>
        let s := f (asSigned l) (asSigned r)
        if -2 ^ (bits - 1) ≤ s ∧ s < 2 ^ (bits - 1) then some (s % 2 ^ 64).toNat else none
    | none => none

/-- The results of a sum, a difference or a product. -/
def Arithmetic (pointerBytes : Nat) (e : DynIrExpr) (f : Int → Int → Int) (l r v : Nat) : Prop :=
  if integerType e.type then
    if e.wrap then v = normalize pointerBytes e.type (f l r % 2 ^ 64).toNat
    else checked pointerBytes e.type f l r = some v
  else True

/-- The results of a comparison of operands of the type `t`. -/
def Comparison (t : DynType) (unsigned : Nat → Nat → Bool) (signed : Int → Int → Bool) (l r v : Nat) : Prop :=
  if unsignedType t then v = (unsigned l r).toNat
  else if integerType t then v = (signed (asSigned l) (asSigned r)).toNat
  else True

/-- The results of an operation on operands of the type `t`. -/
def Computes (pointerBytes : Nat) (e : DynIrExpr) (t : DynType) (l r v : Nat) : Prop :=
  match e.op with
  | .add => Arithmetic pointerBytes e (· + ·) l r v
  | .sub => Arithmetic pointerBytes e (· - ·) l r v
  | .mul => Arithmetic pointerBytes e (· * ·) l r v
  | .bitAnd => scalarType e.type = true → v = l &&& r
  | .lt => Comparison t (· < ·) (· < ·) l r v
  | .le => Comparison t (· ≤ ·) (· ≤ ·) l r v
  | _ => True

/-- The results of a conversion of a value of the type `t`. -/
def Converts (pointerBytes : Nat) (e : DynIrExpr) (t : DynType) (v w : Nat) : Prop :=
  if scalarType t ∧ integerType e.type then w = normalize pointerBytes e.type v else Fits pointerBytes e.type w

/-- The operands in the order in which they are evaluated: an index before what is indexed. -/
def operands (e : DynIrExpr) : Nat × Nat := if e.kind = .index then (e.right, e.left) else (e.left, e.right)

/-- The checks on the values `a` and `b` of the operands. -/
def checks (ir : DynIrProgram) (id a b : Nat) : List Event :=
  let e := ir.expr id
  if e.kind = .index then [.index id a] else if e.op = .add then [.add id a b] else []

/-- The results that there are once the checks hold. -/
def Results (ir : DynIrProgram) (pointerBytes id a b v : Nat) : Prop :=
  let e := ir.expr id
  if e.kind = .index then
    ((ir.expr e.left).type.isArray = true → a < ir.arrayLength (ir.expr e.left).type) ∧ Fits pointerBytes e.type v
  else Computes pointerBytes e (ir.expr e.left).type a b v

/-- The evaluation of an expression, with its checks, its value and the locals after it. -/
inductive Eval (ir : DynIrProgram) (pointerBytes : Nat) : Nat → State → List Event → Option (Nat × State) → Prop
  | stop (id : Nat) (σ : State) : Eval ir pointerBytes id σ [] none
  | literal {id : Nat} (σ : State) (hkind : (ir.expr id).kind = .int ∨ (ir.expr id).kind = .char) :
      Eval ir pointerBytes id σ [] (some ((ir.expr id).integer.toNat, σ))
  | bool {id : Nat} (σ : State) (hkind : (ir.expr id).kind = .bool) :
      Eval ir pointerBytes id σ [] (some ((ir.expr id).boolean.toNat, σ))
  | name {id : Nat} (σ : State) (hkind : (ir.expr id).kind = .name) :
      Eval ir pointerBytes id σ [] (some (σ (ir.expr id).integer.toNat, σ))
  | global {id : Nat} (σ : State) (v : Nat) (hkind : (ir.expr id).kind = .global) :
      Eval ir pointerBytes id σ [] (some (v, σ))
  | convertStop {id : Nat} {σ : State} {es : List Event}
      (hkind : (ir.expr id).kind = .convert ∨ (ir.expr id).kind = .cast)
      (h : Eval ir pointerBytes (ir.expr id).left σ es none) : Eval ir pointerBytes id σ es none
  | convert {id v w : Nat} {σ σ' : State} {es : List Event}
      (hkind : (ir.expr id).kind = .convert ∨ (ir.expr id).kind = .cast)
      (h : Eval ir pointerBytes (ir.expr id).left σ es (some (v, σ')))
      (hw : Converts pointerBytes (ir.expr id) (ir.expr (ir.expr id).left).type v w) :
      Eval ir pointerBytes id σ es (some (w, σ'))
  | firstStop {id : Nat} {σ : State} {es : List Event}
      (hkind : (ir.expr id).kind = .index ∨ (ir.expr id).kind = .binary)
      (h : Eval ir pointerBytes (operands (ir.expr id)).1 σ es none) : Eval ir pointerBytes id σ es none
  | skip {id a : Nat} {σ σ' : State} {es : List Event} (hkind : (ir.expr id).kind = .binary)
      (hop : (ir.expr id).op = .logicalAnd ∧ a = 0 ∨ (ir.expr id).op = .logicalOr ∧ a ≠ 0)
      (h : Eval ir pointerBytes (ir.expr id).left σ es (some (a, σ'))) : Eval ir pointerBytes id σ es (some (a, σ'))
  | secondStop {id a : Nat} {σ σ' : State} {es es' : List Event}
      (hkind : (ir.expr id).kind = .index ∨ (ir.expr id).kind = .binary)
      (h : Eval ir pointerBytes (operands (ir.expr id)).1 σ es (some (a, σ')))
      (h' : Eval ir pointerBytes (operands (ir.expr id)).2 σ' es' none) : Eval ir pointerBytes id σ (es ++ es') none
  | checked {id a b : Nat} {σ σ' σ'' : State} {es es' : List Event} {out : Option (Nat × State)}
      (hkind : (ir.expr id).kind = .index ∨ (ir.expr id).kind = .binary)
      (h : Eval ir pointerBytes (operands (ir.expr id)).1 σ es (some (a, σ')))
      (h' : Eval ir pointerBytes (operands (ir.expr id)).2 σ' es' (some (b, σ'')))
      (hout : ∀ v τ, out = some (v, τ) → τ = σ'' ∧ Results ir pointerBytes id a b v) :
      Eval ir pointerBytes id σ (es ++ es' ++ checks ir id a b) out
  | other {id : Nat} {σ : State} {es : List Event} {out : Option (Nat × State)}
      (hkind : (ir.expr id).kind ∉ [.int, .char, .bool, .name, .global, .convert, .cast, .index, .binary])
      (hes : ∀ ev ∈ es, Within ir id ev.id) : Eval ir pointerBytes id σ es out

/-- A statement whose block the statement stands in. -/
inductive Owner
  | function (fn : DynIrFunction)
  | statement (s : Nat)

def Parent (ir : DynIrProgram) (c : Nat) : Owner → Prop
  | .function fn => fn ∈ ir.functions ∧ c ∈ ir.block fn.bodyStart fn.bodyCount
  | .statement s =>
      c ∈ ir.body s ∨ c ∈ ir.block (ir.stmt s).elseStart (ir.stmt s).elseCount ∨
        ∃ j < (ir.stmt s).caseArmCount,
          c ∈ ir.block (ir.arm ((ir.stmt s).caseArmStart + j)).bodyStart (ir.arm ((ir.stmt s).caseArmStart + j)).bodyCount

/-- The expressions that stand in a statement itself. -/
def Owns (ir : DynIrProgram) (s e : Nat) : Prop :=
  Within ir (ir.stmt s).expression e ∨ Within ir (ir.stmt s).target e

/-- The expressions that stand in a statement or in its blocks. -/
inductive Contains (ir : DynIrProgram) : Nat → Nat → Prop
  | own {s e : Nat} (h : Owns ir s e) : Contains ir s e
  | inner {s c e : Nat} (hc : Parent ir c (.statement s)) (h : Contains ir c e) : Contains ir s e

/-- A statement that writes the value of an expression to a local, or throws it away. -/
def writesLocal (st : DynIrStmt) : Bool :=
  (st.kind = .localStmt || st.kind = .assignStmt && st.target = noExpr) && st.expression ≠ noExpr

def plainLoop (st : DynIrStmt) : Bool := st.kind = .forStmt && !st.forRange && st.target = noExpr

def store (σ : State) (x v : Nat) : State := if x = noLocal then σ else Function.update σ x v

/-- A run ends at the next statement, at a jump out of the block, or where it stops. -/
inductive Outcome
  | next (σ : State)
  | leave (σ : State)
  | stop

inductive Code
  | stmt (s : Nat)
  | loop (s : Nat)
  | block (l : List Nat)

def Enters (ir : DynIrProgram) (pointerBytes s : Nat) (σ : State) (es : List Event) (σ' : State) : Prop :=
  if (ir.stmt s).expression = noExpr then es = [] ∧ σ' = σ
  else ∃ v ≠ 0, Eval ir pointerBytes (ir.stmt s).expression σ es (some (v, σ'))

inductive Run (ir : DynIrProgram) (pointerBytes : Nat) : Code → State → List Event → Outcome → Prop
  | stop (c : Code) (σ : State) : Run ir pointerBytes c σ [] .stop
  | writeStop {s : Nat} {σ : State} {es : List Event} (hs : writesLocal (ir.stmt s) = true)
      (h : Eval ir pointerBytes (ir.stmt s).expression σ es none) : Run ir pointerBytes (.stmt s) σ es .stop
  | write {s v : Nat} {σ σ' : State} {es : List Event} (hs : writesLocal (ir.stmt s) = true)
      (h : Eval ir pointerBytes (ir.stmt s).expression σ es (some (v, σ'))) :
      Run ir pointerBytes (.stmt s) σ es (.next (store σ' (ir.stmt s).localId v))
  | loop {s : Nat} {σ : State} {es : List Event} {out : Outcome} (hs : plainLoop (ir.stmt s) = true)
      (h : Run ir pointerBytes (.loop s) σ es out) : Run ir pointerBytes (.stmt s) σ es out
  | other {s : Nat} {σ : State} {es : List Event} {out : Outcome} (hw : writesLocal (ir.stmt s) = false)
      (hl : plainLoop (ir.stmt s) = false) (hes : ∀ ev ∈ es, Contains ir s ev.id) :
      Run ir pointerBytes (.stmt s) σ es out
  | conditionStop {s : Nat} {σ : State} {es : List Event} (hs : (ir.stmt s).expression ≠ noExpr)
      (h : Eval ir pointerBytes (ir.stmt s).expression σ es none) : Run ir pointerBytes (.loop s) σ es .stop
  | exit {s : Nat} {σ σ' : State} {es : List Event} (hs : (ir.stmt s).expression ≠ noExpr)
      (h : Eval ir pointerBytes (ir.stmt s).expression σ es (some (0, σ'))) :
      Run ir pointerBytes (.loop s) σ es (.next σ')
  | bodyStop {s : Nat} {σ σ' : State} {es es' : List Event} (hs : Enters ir pointerBytes s σ es σ')
      (h : Run ir pointerBytes (.block (ir.body s)) σ' es' .stop) : Run ir pointerBytes (.loop s) σ (es ++ es') .stop
  | bodyLeave {s : Nat} {σ σ' σ'' : State} {es es' : List Event} {out : Outcome}
      (hs : Enters ir pointerBytes s σ es σ') (h : Run ir pointerBytes (.block (ir.body s)) σ' es' (.leave σ''))
      (hout : out = .next σ'' ∨ out = .leave σ'') : Run ir pointerBytes (.loop s) σ (es ++ es') out
  /-- The body ends, or a jump continues the loop. -/
  | again {s : Nat} {σ σ' σ'' : State} {es es' es'' : List Event} {out out' : Outcome}
      (hs : Enters ir pointerBytes s σ es σ') (h : Run ir pointerBytes (.block (ir.body s)) σ' es' out)
      (hout : out = .next σ'' ∨ out = .leave σ'') (h' : Run ir pointerBytes (.loop s) σ'' es'' out') :
      Run ir pointerBytes (.loop s) σ (es ++ es' ++ es'') out'
  | nil (σ : State) : Run ir pointerBytes (.block []) σ [] (.next σ)
  | step {s : Nat} {l : List Nat} {σ σ' : State} {es es' : List Event} {out : Outcome}
      (h : Run ir pointerBytes (.stmt s) σ es (.next σ')) (h' : Run ir pointerBytes (.block l) σ' es' out) :
      Run ir pointerBytes (.block (s :: l)) σ (es ++ es') out
  | ended {s : Nat} {l : List Nat} {σ : State} {es : List Event} {out : Outcome}
      (h : Run ir pointerBytes (.stmt s) σ es out) (hout : ∀ σ', out ≠ .next σ') :
      Run ir pointerBytes (.block (s :: l)) σ es out
  /-- The deferred statements of a block run when it is left, by a failed check too. -/
  | deferred {s : Nat} {l : List Nat} {σ : State} {es es' : List Event} {out out' : Outcome}
      (h : Run ir pointerBytes (.block l) σ es out) (hs : s ∈ l) (hkind : (ir.stmt s).kind = .deferStmt)
      (hes : ∀ ev ∈ es', ∃ d ∈ l, (ir.stmt d).kind = .deferStmt ∧ Contains ir d ev.id) :
      Run ir pointerBytes (.block l) σ (es ++ es') out'

end Dyn.Ir
