import Dyn.Sema.ConstantExprs

/-!
# sema: the order of the initializers

`orderInitializers` visits every global.  A visit walks the initializer, the bodies of the functions
that it calls and the globals that it meets, and then appends the global to the order.  The functions
that were walked are marked for each global anew.  A walk that fails makes the whole order fail; the
source goes on after it only to report further errors.
-/

namespace Dyn.Sema

open Ast Function

/-- The walk, with the functions walked for the global under way, the order so far and the work that
is left, where a limit is set. -/
structure InitGraph where
  state : GlobalStates
  functions : Nat → Bool
  order : List Nat
  work : Option Nat

def enterGraph (g : InitGraph) : Option InitGraph :=
  match g.work with
  | none => some g
  | some 0 => none
  | some (work + 1) => some { g with work := some work }

section

variable (a : DynAstProgram) (visitExpr : DynExprId → InitGraph → Option InitGraph)
  (visitBlock : Nat → Nat → InitGraph → Option InitGraph)

def visitFunction (id : Nat) (g : InitGraph) : Option InitGraph :=
  match a.functions[id]? with
  | none => some g
  | some f =>
      if g.functions id then some g
      else visitBlock f.bodyStart f.bodyCount { g with functions := update g.functions id true }

def visitGlobal (id : Nat) (g : InitGraph) : Option InitGraph :=
  match a.globals[id]? with
  | none => none
  | some declared =>
      match g.state id with
      | .visited => some g
      | .visiting => none
      | .unseen =>
          (visitExpr declared.initializer
            { g with state := update g.state id .visiting, functions := fun _ => false }).map fun walked =>
            { walked with
              state := update walked.state id .visited
              functions := g.functions
              order := if declared.initializer = noExpr then walked.order else walked.order ++ [id] }

def visitExprBody (id : DynExprId) (g : InitGraph) : Option InitGraph :=
  match a.expression id with
  | none => some g
  | some e => do
      let g ← (if e.kind = .global then visitGlobal a visitExpr e.target g else some g)
      let g ← (if e.kind = .call then visitFunction a visitBlock e.target g else some g)
      let g ← visitExpr e.left g
      let g ← visitExpr e.right g
      (a.itemExpressions e).foldlM (fun g item => visitExpr item g) g

def visitStmt (st : DynAstStmt) (g : InitGraph) : Option InitGraph := do
  let g ← visitExpr st.expression g
  let g ← visitExpr st.target g
  let g ← visitBlock st.bodyStart st.bodyCount g
  let g ← visitBlock st.elseStart st.elseCount g
  (a.statementArms st).foldlM (fun g arm => visitBlock arm.bodyStart arm.bodyCount g) g

def visitBlockBody (start count : Nat) (g : InitGraph) : Option InitGraph :=
  (a.blockStatements start count).foldlM (fun g st => visitStmt a visitExpr visitBlock st g) g

end

/-! The walk may go `room` levels deeper. -/

mutual

def visitExpr (a : DynAstProgram) : Nat → DynExprId → InitGraph → Option InitGraph
  | 0, id, g => if id = noExpr then some g else none
  | room + 1, id, g =>
      if id = noExpr then some g
      else (enterGraph g).bind (visitExprBody a (visitExpr a room) (visitBlock a room) id)

def visitBlock (a : DynAstProgram) : Nat → Nat → Nat → InitGraph → Option InitGraph
  | 0, _, count, g => if count = 0 then some g else none
  | room + 1, start, count, g =>
      if count = 0 then some g
      else (enterGraph g).bind (visitBlockBody a (visitExpr a room) (visitBlock a room) start count)

end

def depthLimit : Nat := 512

def initGraph (work : Option Nat) : InitGraph := ⟨fun _ => .unseen, fun _ => false, [], work⟩

def orderInitializers (a : DynAstProgram) (work : Option Nat) : Option (List Nat) :=
  ((List.range a.globals.length).foldlM (fun g id => visitGlobal a (visitExpr a depthLimit) id g)
    (initGraph work)).map (·.order)

/-- What can be evaluated: an expression, a statement, or the statements of a block. -/
inductive Code where
  | expr (id : DynExprId)
  | stmt (st : DynAstStmt)
  | block (start count : Nat)
deriving DecidableEq, Repr

/-- The parts that the walk follows, without the bodies of functions. -/
inductive Inside (a : DynAstProgram) : Code → Code → Prop
  | left {id : DynExprId} {e : DynAstExpr} : a.expression id = some e → Inside a (.expr id) (.expr e.left)
  | right {id : DynExprId} {e : DynAstExpr} : a.expression id = some e → Inside a (.expr id) (.expr e.right)
  | item {id d : DynExprId} {e : DynAstExpr} :
      a.expression id = some e → d ∈ a.itemExpressions e → Inside a (.expr id) (.expr d)
  | statement {start count : Nat} {st : DynAstStmt} :
      st ∈ a.blockStatements start count → Inside a (.block start count) (.stmt st)
  | expression {st : DynAstStmt} : Inside a (.stmt st) (.expr st.expression)
  | target {st : DynAstStmt} : Inside a (.stmt st) (.expr st.target)
  | body {st : DynAstStmt} : Inside a (.stmt st) (.block st.bodyStart st.bodyCount)
  | orElse {st : DynAstStmt} : Inside a (.stmt st) (.block st.elseStart st.elseCount)
  | arm {st : DynAstStmt} {arm : Ast.DynAstCaseArm} :
      arm ∈ a.statementArms st → Inside a (.stmt st) (.block arm.bodyStart arm.bodyCount)

def Calls (a : DynAstProgram) (code : Code) (id : Nat) : Prop :=
  ∃ d e, code = .expr d ∧ a.expression d = some e ∧ e.kind = .call ∧ e.target = id

def bodyOf (f : DynAstFn) : Code := .block f.bodyStart f.bodyCount

/-- What the walk follows: the parts, and the bodies of the functions that are called by name. -/
inductive Follow (a : DynAstProgram) : Code → Code → Prop
  | inside {code part : Code} : Inside a code part → Follow a code part
  | call {code : Code} {id : Nat} {f : DynAstFn} :
      Calls a code id → a.functions[id]? = some f → Follow a code (bodyOf f)

/-- Code that the initializers can come to, if every function is called whose value they take. -/
inductive Touched (a : DynAstProgram) : Code → Prop
  | initializer {declared : DynAstGlobal} : declared ∈ a.globals → Touched a (.expr declared.initializer)
  | follow {code part : Code} : Touched a code → Follow a code part → Touched a part
  | sliceEnd {id : DynExprId} {e : DynAstExpr} :
      Touched a (.expr id) → a.expression id = some e → e.kind = .slice → Touched a (.expr e.target)
  | fieldDefault {id d : DynExprId} {e : DynAstExpr} : Touched a (.expr id) → a.expression id = some e →
      e.kind = .struct → d ∈ a.structDefaults e.type → Touched a (.expr d)
  | functionValue {id : DynExprId} {e : DynAstExpr} {f : DynAstFn} : Touched a (.expr id) →
      a.expression id = some e → e.kind = .function → a.functions[e.target]? = some f → Touched a (bodyOf f)

/-- What is evaluated besides: the end of a slice, which the node has in its integer, the defaults of a
struct literal, and behind a call of a function value every function whose value an initializer can take. -/
inductive Hidden (a : DynAstProgram) : Code → Code → Prop
  | sliceEnd {id : DynExprId} {e : DynAstExpr} :
      a.expression id = some e → e.kind = .slice → Hidden a (.expr id) (.expr e.target)
  | fieldDefault {id d : DynExprId} {e : DynAstExpr} :
      a.expression id = some e → e.kind = .struct → d ∈ a.structDefaults e.type → Hidden a (.expr id) (.expr d)
  | functionValue {id d : DynExprId} {e v : DynAstExpr} {f : DynAstFn} :
      a.expression id = some e → e.kind = .indirectCall → Touched a (.expr d) → a.expression d = some v →
      v.kind = .function → a.functions[v.target]? = some f → Hidden a (.expr id) (bodyOf f)

/-- The part of the evaluation of some code that the code begins with. -/
def Evaluates (a : DynAstProgram) (code part : Code) : Prop := Follow a code part ∨ Hidden a code part

def ReadsHere (a : DynAstProgram) (code : Code) (h : Nat) : Prop :=
  ∃ d e, code = .expr d ∧ a.expression d = some e ∧ e.kind = .global ∧ e.target = h

/-- The initializer of `g` leads to code that reads `h`. -/
def ReadsBy (a : DynAstProgram) (step : Code → Code → Prop) (g h : Nat) : Prop :=
  ∃ declared code, a.globals[g]? = some declared ∧
    Relation.ReflTransGen step (.expr declared.initializer) code ∧ ReadsHere a code h

/-- The value of `h` can be read while the initializer of `g` is evaluated. -/
def Reads (a : DynAstProgram) : Nat → Nat → Prop := ReadsBy a (Evaluates a)

/-- A global that has to be initialized at run time. -/
def Initialized (a : DynAstProgram) (g : Nat) : Prop :=
  ∃ declared, a.globals[g]? = some declared ∧ declared.initializer ≠ noExpr

/-- `h` comes before `g`. -/
def Before (order : List Nat) (h g : Nat) : Prop := ∃ front back, order = front ++ g :: back ∧ h ∈ front

/-- An order of all initializers that has every global behind those that it reads. -/
structure DependencyOrder (a : DynAstProgram) (order : List Nat) : Prop where
  nodup : order.Nodup
  complete : ∀ g, g ∈ order ↔ Initialized a g
  before : ∀ g h, Initialized a g → Initialized a h → Reads a g h → Before order h g

end Dyn.Sema
