import Mathlib.Data.BitVec

/-!
# The program tree

Expressions, statements and declarations refer to each other by their index in the tables of the
program.  Types are numbers: the scalar types come first, and types of the other kinds count from
their bases on.
-/

namespace Dyn.Ast

abbrev DynExprId := Nat

/-- The place of an expression that is left out. -/
def noExpr : DynExprId := 4294967295

abbrev DynType := Nat

namespace DynType

def error : DynType := 1
def i8 : DynType := 4
def i32 : DynType := 6
def usize : DynType := 13
def f64 : DynType := 15
def structBase : DynType := 256
def arrayBase : DynType := 131072
def sliceBase : DynType := 196608
def distinctBase : DynType := 327680
def paramBase : DynType := 393216

/-- Distinct types lie between their base and that of the type parameters. -/
def isDistinct (t : DynType) : Bool := distinctBase ≤ t && t < paramBase

end DynType

inductive DynExprKind where
  | int | float | bool | char | string | name | unary | binary | convert | struct | field | call | nil | array
  | index | slice | len | enum | global | function | indirectCall | size | align | typeof | cast | bitcast
  | syscall | type | offset
deriving DecidableEq, Repr

inductive DynOperator where
  | none | neg | not | bitNot | address | deref | add | sub | mul | div | rem | eq | ne | lt | le | gt | ge
  | logicalAnd | logicalOr | bitAnd | bitOr | bitXor | shl | shr
deriving DecidableEq, Repr

structure DynAstExpr where
  kind : DynExprKind
  type : DynType
  op : DynOperator
  left : DynExprId
  right : DynExprId
  integer : BitVec 64
  boolean : Bool
  itemStart : Nat
  itemCount : Nat
  /-- Set inside `#wrap(...)`: integer +, -, *, unary - and << wrap instead of trapping on overflow. -/
  wrap : Bool := false
deriving DecidableEq, Repr

/-- The lower half of the integer, as the place of a declaration. -/
def DynAstExpr.target (e : DynAstExpr) : Nat := (e.integer.setWidth 32).toNat

structure DynAstStmt where
  expression : DynExprId
  target : DynExprId
  bodyStart : Nat
  bodyCount : Nat
  elseStart : Nat
  elseCount : Nat
  caseArmStart : Nat
  caseArmCount : Nat
deriving DecidableEq, Repr

structure DynAstCaseArm where
  bodyStart : Nat
  bodyCount : Nat
deriving DecidableEq, Repr

structure DynAstFn where
  bodyStart : Nat
  bodyCount : Nat
deriving DecidableEq, Repr

structure DynAstGlobal where
  initializer : DynExprId
  isConst : Bool
deriving DecidableEq, Repr

structure DynAstStruct where
  fieldStart : Nat
  fieldCount : Nat
deriving DecidableEq, Repr

structure DynAstAlias where
  target : DynType
deriving DecidableEq, Repr

/-- The tables of a program; an item and a child are given by the place that they refer to, a field by
its default. -/
structure DynAstProgram where
  expressions : List DynAstExpr
  items : List DynExprId
  structs : List DynAstStruct
  fields : List DynExprId
  statements : List DynAstStmt
  children : List Nat
  caseArms : List DynAstCaseArm
  functions : List DynAstFn
  globals : List DynAstGlobal
  aliases : List DynAstAlias
deriving DecidableEq, Repr

namespace DynAstProgram

variable (a : DynAstProgram)

/-- The expression at a place, where there is one. -/
def expression (id : DynExprId) : Option DynAstExpr :=
  if id = noExpr then none else a.expressions[id]?

/-- The expressions of the items of a literal or a call. -/
def itemExpressions (e : DynAstExpr) : List DynExprId :=
  (List.range e.itemCount).map fun i => a.items.getD (e.itemStart + i) noExpr

def blockStatements (start count : Nat) : List DynAstStmt :=
  (List.range count).filterMap fun i => a.children[start + i]?.bind fun id => a.statements[id]?

def statementArms (st : DynAstStmt) : List DynAstCaseArm :=
  (List.range st.caseArmCount).filterMap fun i => a.caseArms[st.caseArmStart + i]?

/-- The defaults of the fields of a struct type. -/
def structDefaults (t : DynType) : List DynExprId :=
  match a.structs[t - DynType.structBase]? with
  | none => []
  | some st => (List.range st.fieldCount).map fun i => a.fields.getD (st.fieldStart + i) noExpr

end DynAstProgram

/-- The loop of `underlyingType`, which follows at most `guard` distinct types. -/
def underlyingLoop (a : DynAstProgram) : Nat → DynType → DynType
  | 0, t => t
  | guard + 1, t =>
      if t.isDistinct then
        match a.aliases[t - DynType.distinctBase]? with
        | none => DynType.error
        | some distinct => underlyingLoop a guard distinct.target
      else t

def underlyingType (a : DynAstProgram) (t : DynType) : DynType :=
  underlyingLoop a (a.aliases.length + 1) t

end Dyn.Ast
