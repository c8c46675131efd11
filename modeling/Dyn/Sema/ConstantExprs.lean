import Dyn.Ast.Program
import Dyn.Lib.Acyclic

/-!
# sema: compile-time expressions

`compileTimeExpr` walks an expression with a stack of its own, and enters each constant global that
it meets once.  The marks of the globals are shared by all queries: a global under way is marked
while its initializer is walked, a finished one for good.  A query that fails takes the marks of the
globals under way back.
-/

namespace Dyn.Sema

open Ast

/-- How far the walk of a global's initializer has come: not begun, under way, or done. -/
inductive GlobalState where
  | unseen
  | visiting
  | visited
deriving DecidableEq, Repr

/-- An expression to be walked, or the mark of a global to be finished. -/
structure ConstantFrame where
  id : Nat
  leaveGlobal : Bool
deriving DecidableEq, Repr

abbrev GlobalStates := Nat → GlobalState

def constantScalar (t : DynType) : Bool := DynType.i8 ≤ t && t ≤ DynType.f64

/-- What is walked next for an expression that is not a global, the first one first.  `none` stands
for an expression that is not allowed. -/
def constantOperands (a : DynAstProgram) (e : DynAstExpr) : Option (List DynExprId) :=
  if e.kind = .function ∨ e.kind = .int ∨ e.kind = .float ∨ e.kind = .bool ∨ e.kind = .char ∨ e.kind = .string ∨
      e.kind = .nil then
    some []
  else if e.kind = .convert ∨ (e.kind = .unary ∧ e.op ≠ .address ∧ e.op ≠ .deref) then
    some [e.left]
  else if e.kind = .cast then
    let target := underlyingType a e.type
    let source := underlyingType a ((a.expressions[e.left]?.map (·.type)).getD DynType.error)
    if constantScalar target && constantScalar source then some [e.left] else none
  else if e.kind = .binary then
    some [e.left, e.right]
  else if e.kind = .struct ∨ e.kind = .array then
    some (a.itemExpressions e).reverse
  else none

/-- One turn of the loop, for the top of the stack; `none` where the query fails. -/
def constantTurn (a : DynAstProgram) (frame : ConstantFrame) (stack : List ConstantFrame)
    (globals : GlobalStates) : Option (List ConstantFrame × GlobalStates) :=
  if frame.leaveGlobal then some (stack, Function.update globals frame.id .visited)
  else
    match a.expression frame.id with
    | none => none
    | some e =>
        if e.kind = .global then
          match a.globals[e.target]? with
          | none => none
          | some g =>
              if g.isConst then
                match globals e.target with
                | .visiting => none
                | .visited => some (stack, globals)
                | .unseen =>
                    some (⟨g.initializer, false⟩ :: ⟨e.target, true⟩ :: stack,
                      Function.update globals e.target .visiting)
              else none
        else (constantOperands a e).map fun ids => (ids.map (⟨·, false⟩) ++ stack, globals)

/-- Globals under way are marked as not begun again. -/
def takeBack (globals : GlobalStates) : GlobalStates :=
  fun g => if globals g = .visiting then .unseen else globals g

/-- The loop.  Each turn takes a unit of work, and the query fails where none is left. -/
def constantLoop (a : DynAstProgram) : Nat → List ConstantFrame → GlobalStates → Bool × GlobalStates
  | _, [], globals => (true, globals)
  | 0, _ :: _, globals => (false, takeBack globals)
  | work + 1, frame :: stack, globals =>
      match constantTurn a frame stack globals with
      | none => (false, takeBack globals)
      | some next => constantLoop a work next.1 next.2

def compileTimeExpr (a : DynAstProgram) (work : Nat) (id : DynExprId) (globals : GlobalStates) : Bool × GlobalStates :=
  constantLoop a work [⟨id, false⟩] globals

/-- The marks that sequences of queries leave behind, each query with the work that was left for it. -/
inductive Queried (a : DynAstProgram) : GlobalStates → Prop
  | start : Queried a fun _ => .unseen
  | query {globals : GlobalStates} (work : Nat) (id : DynExprId) :
      Queried a globals → Queried a (compileTimeExpr a work id globals).2

/-- An expression of a kind that a compile-time expression can have. -/
def Allowed (a : DynAstProgram) (e : DynAstExpr) : Prop :=
  match e.kind with
  | .int | .float | .bool | .char | .string | .nil | .function => True
  | .convert | .binary | .struct | .array => True
  | .unary => e.op ≠ .address ∧ e.op ≠ .deref
  | .cast => constantScalar (underlyingType a e.type) = true ∧
      constantScalar (underlyingType a ((a.expressions[e.left]?.map (·.type)).getD DynType.error)) = true
  | .global => ∃ g, a.globals[e.target]? = some g ∧ g.isConst = true
  | _ => False

/-- The expressions that an expression is made of, and for a global its initializer. -/
def references (a : DynAstProgram) (e : DynAstExpr) : List DynExprId :=
  match e.kind with
  | .convert | .unary | .cast => [e.left]
  | .binary => [e.left, e.right]
  | .struct | .array => a.itemExpressions e
  | .global => (a.globals[e.target]?.map (·.initializer)).toList
  | _ => []

def Refers (a : DynAstProgram) (id d : DynExprId) : Prop := ∃ e, a.expression id = some e ∧ d ∈ references a e

/-- The places that an expression leads to, itself among them. -/
abbrev Reaches (a : DynAstProgram) : DynExprId → DynExprId → Prop := Relation.ReflTransGen (Refers a)

/-- All expressions that it leads to are of an allowed kind, and none of them leads back to itself. -/
structure CompileTime (a : DynAstProgram) (id : DynExprId) : Prop where
  allowed : ∀ d, Reaches a id d → ∃ e, a.expression d = some e ∧ Allowed a e
  acyclic : ∀ d, Reaches a id d → ¬ Relation.TransGen (Refers a) d d

/-- What an expression is made of, without the initializers of globals. -/
def Contains (a : DynAstProgram) (id d : DynExprId) : Prop :=
  ∃ e, a.expression id = some e ∧ e.kind ≠ .global ∧ d ∈ references a e

end Dyn.Sema
