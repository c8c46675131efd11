import Mathlib.Data.List.Basic
import Mathlib.Tactic.Ring

/-!
# ir: the nodes of a typed program

The expressions and statements of a program lie in tables and name each other by their index.  A
block is a range of the table `children`; the value `noExpr` stands for an expression that is not
there.  Of each record the model has the fields that the range proofs and the execution of a function
read.
-/

namespace Dyn.Ir

/-- `DYN_NO_EXPR`. -/
def noExpr : Nat := 4294967295

/-- `UINT64_MAX`. -/
def uint64Max : Nat := 18446744073709551615

inductive DynType
  | void | bool
  | i8 | i16 | i32 | i64
  | u8 | u16 | u32 | u64
  | isize | usize
  | f32 | f64
  | string | rawptr | any
  | struct (id : Nat)
  | enum (id : Nat)
  | pointer (id : Nat)
  | array (id : Nat)
  | slice (id : Nat)
  | fn (id : Nat)
deriving DecidableEq, Repr

def unsignedType : DynType → Bool
  | .u8 | .u16 | .u32 | .u64 | .usize => true
  | _ => false

def unsignedMax (t : DynType) (pointerBytes : Nat) : Nat :=
  if t = .u8 then 255
  else if t = .u16 then 65535
  else if t = .u32 ∨ (t = .usize ∧ pointerBytes = 4) then 4294967295
  else uint64Max

inductive ExprKind
  | int | float | bool | char | string | name | unary | binary | convert | struct | field | call | nil
  | array | index | slice | len | enum | global | function | indirectCall | size | align | typeof | cast
  | bitcast | syscall | type | offset
deriving DecidableEq, Repr

inductive Operator
  | none | neg | not | bitNot | address | deref | add | sub | mul | div | rem | eq | ne | lt | le | gt | ge
  | logicalAnd | logicalOr | bitAnd | bitOr | bitXor | shl | shr
deriving DecidableEq, Repr

inductive StmtKind
  | invalidStmt | localStmt | assignStmt | returnStmt | exprStmt | ifStmt | forStmt | breakStmt
  | continueStmt | caseStmt | deferStmt | panicStmt
deriving DecidableEq, Repr

structure DynIrExpr where
  kind : ExprKind := .nil
  type : DynType := .void
  op : Operator := .none
  left : Nat := noExpr
  right : Nat := noExpr
  /-- The value of a literal and the local of a name. -/
  integer : UInt64 := 0
  /-- The value of a literal; on an index and on an addition, that its check always holds. -/
  boolean : Bool := false
  itemStart : Nat := 0
  itemCount : Nat := 0
  wrap : Bool := false
deriving DecidableEq, Repr, Inhabited

structure DynIrStmt where
  kind : StmtKind := .invalidStmt
  expression : Nat := noExpr
  target : Nat := noExpr
  localId : Nat := 0
  bodyStart : Nat := 0
  bodyCount : Nat := 0
  elseStart : Nat := 0
  elseCount : Nat := 0
  caseArmStart : Nat := 0
  caseArmCount : Nat := 0
  forRange : Bool := false
deriving DecidableEq, Repr, Inhabited

structure DynIrCaseArm where
  bodyStart : Nat := 0
  bodyCount : Nat := 0
deriving DecidableEq, Repr, Inhabited

structure DynIrFunction where
  bodyStart : Nat
  bodyCount : Nat
  localStart : Nat
  localCount : Nat
deriving DecidableEq, Repr

structure DynIrProgram where
  expressions : List DynIrExpr
  items : List Nat := []
  functions : List DynIrFunction := []
  arrays : List Nat := []
  statements : List DynIrStmt := []
  caseArms : List DynIrCaseArm := []
  children : List Nat := []
  locals : List DynType := []
deriving DecidableEq, Repr

namespace DynIrProgram

variable (ir : DynIrProgram)

def expr (id : Nat) : DynIrExpr := ir.expressions.getD id default

def stmt (id : Nat) : DynIrStmt := ir.statements.getD id default

def item (i : Nat) : Nat := ir.items.getD i noExpr

def arm (i : Nat) : DynIrCaseArm := ir.caseArms.getD i default

def arrayLength : DynType → Nat
  | .array id => ir.arrays.getD id 0
  | _ => 0

/-- The statements at `count` places of the table of children. -/
def block (start count : Nat) : List Nat := (List.range count).map fun i => ir.children.getD (start + i) 0

def body (loop : Nat) : List Nat := ir.block (ir.stmt loop).bodyStart (ir.stmt loop).bodyCount

def hasExpr (id : Nat) : Bool := id ≠ noExpr ∧ id < ir.expressions.length

/-- Records on an expression that its check always holds. -/
def mark (id : Nat) : DynIrProgram :=
  { ir with expressions := ir.expressions.modify id fun e => { e with boolean := true } }

end DynIrProgram

def DynType.isArray : DynType → Bool
  | .array _ => true
  | _ => false

/-- The expressions that an expression consists of. -/
inductive Within (ir : DynIrProgram) : Nat → Nat → Prop
  | self {id : Nat} (hid : ir.hasExpr id = true) : Within ir id id
  | left {id e : Nat} (h : Within ir (ir.expr id).left e) : Within ir id e
  | right {id e : Nat} (h : Within ir (ir.expr id).right e) : Within ir id e
  | item {id e i : Nat} (hi : i < (ir.expr id).itemCount)
      (h : Within ir (ir.item ((ir.expr id).itemStart + i)) e) : Within ir id e

end Dyn.Ir
