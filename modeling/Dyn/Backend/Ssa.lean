import Mathlib.Tactic.Ring

/-!
# backend/ssa: values and blocks

The form between the typed program and machine code.  Values are numbered; a block lists the
numbers of its values in order.  Operands that are not there are -1 in the source and `none`
here.  Memory for tables is always found.
-/

namespace Dyn.Backend

open List

inductive SsaOp where
  | const | param | phi | copy
  | add | sub | mul | and | or | xor
  | shl | shr | sar
  | div | rem
  | neg | not
  | ext | cmp | fcmp
  | fadd | fsub | fmul | fdiv
  | fneg | math
  | itof | ftoi | fcvt | bits
  | addo | subo | mulo
  | check | checkShl
  | load | store
  | frame | symbol | lea
  | call | result
  | copymem | zeromem | fillmem
  | findByte | find | jsonAsciiPrefix | byteCount
  | panic | vector | mulok32 | mulh
  | trap | fail | «continue»
deriving DecidableEq, Repr

inductive SsaClass where
  | none | int | f64 | f32
deriving DecidableEq, Repr

/-- What a value prefers: another value's register or a register (-2 less the hint). -/
inductive SsaHint where
  | none
  | value (id : Nat)
  | register (reg : Nat)
deriving DecidableEq, Repr

structure SsaValue where
  op : SsaOp
  cls : SsaClass := .none
  cond : Nat := 0
  scale : Nat := 1
  effect : Bool := false
  dead : Bool := false
  fused : Bool := false
  retainConstant : Bool := false
  a : Option Nat := none
  b : Option Nat := none
  c : Option Nat := none
  aux : BitVec 64 := 0
  aux2 : BitVec 64 := 0
  block : Nat := 0
  list : Nat := 0
  count : Nat := 0
  reg : Option Nat := none
  slot : Option Nat := none
  hint : SsaHint := .none
  start : Nat := 0
  stop : Nat := 0
deriving DecidableEq, Repr

instance : Inhabited SsaValue := ⟨{ op := .const }⟩

inductive SsaKind where
  | plain | branch | ret | exit | call | switch
deriving DecidableEq, Repr

/-- Numbers that the source marks with `UINT32_MAX` when they are not there are `none`. -/
structure SsaBlock where
  values : List Nat := []
  preds : List Nat := []
  succ0 : Option Nat := none
  succ1 : Option Nat := none
  kind : SsaKind := .plain
  sealed : Bool := false
  reachable : Bool := false
  control : Option Nat := none
  control2 : Option Nat := none
  control3 : Option Nat := none
  control4 : Option Nat := none
  table : Nat := 0
  order : Nat := 0
  idom : Option Nat := some 0
  depth : Nat := 0
  loopDepth : Nat := 0
deriving DecidableEq, Repr, Inhabited

/-- A phi of a block that is not sealed, whose operands are read later. -/
structure SsaPending where
  block : Nat
  var : Nat
  phi : Nat
deriving DecidableEq, Repr

/-- Of the state of the construction, `defs` is the table of definitions by variable and block. -/
structure Ssa where
  values : List SsaValue := []
  blocks : List SsaBlock := []
  lists : List Nat := []
  defs : List (Option (Nat × Nat)) := []
  defCount : Nat := 0
  pending : List SsaPending := []
  current : Option Nat := none
  unsupported : Bool := false
  loopDepth : Nat := 0
deriving DecidableEq, Repr, Inhabited

/-- The flags of the target that the code generator reads. -/
structure BackendContext where
  a64 : Bool := false
  rv64 : Bool := false
  rv32 : Bool := false
  t32 : Bool := false
  win64 : Bool := false
  winarm64 : Bool := false
  bmi2 : Bool := false
deriving DecidableEq, Repr

namespace Ssa

def value (s : Ssa) (id : Nat) : SsaValue := s.values.getD id default

def block (s : Ssa) (b : Nat) : SsaBlock := s.blocks.getD b default

def updateValue (s : Ssa) (id : Nat) (change : SsaValue → SsaValue) : Ssa :=
  { s with values := s.values.modify id change }

@[simp] theorem updateValue_length (s : Ssa) (id : Nat) (change : SsaValue → SsaValue) :
    (s.updateValue id change).values.length = s.values.length := length_modify ..

variable {s : Ssa} {b : Nat}

theorem updateValue_self {id : Nat} (hid : id < s.values.length) (change : SsaValue → SsaValue) :
    (s.updateValue id change).value id = change (s.value id) := by
  simp [updateValue, value, getD_eq_getElem?_getD, hid]

theorem updateValue_other {id j : Nat} (hne : j ≠ id) (change : SsaValue → SsaValue) :
    (s.updateValue id change).value j = s.value j := by
  simp [updateValue, value, getD_eq_getElem?_getD, Ne.symm hne]

theorem block_congr {s' : Ssa} (h : s'.blocks = s.blocks) (b : Nat) : s'.block b = s.block b := by
  unfold block
  rw [h]

def updateBlock (s : Ssa) (b : Nat) (change : SsaBlock → SsaBlock) : Ssa :=
  { s with blocks := s.blocks.modify b change }

@[simp] theorem updateBlock_length (s : Ssa) (b : Nat) (change : SsaBlock → SsaBlock) :
    (s.updateBlock b change).blocks.length = s.blocks.length := length_modify ..

theorem updateBlock_self (hb : b < s.blocks.length) (change : SsaBlock → SsaBlock) :
    (s.updateBlock b change).block b = change (s.block b) := by
  simp [updateBlock, block, getD_eq_getElem?_getD, hb]

theorem updateBlock_outside (hb : ¬ b < s.blocks.length) (change : SsaBlock → SsaBlock) :
    s.updateBlock b change = s := by
  unfold updateBlock
  rw [modify_eq_self (Nat.le_of_not_lt hb)]

theorem updateBlock_other {c : Nat} (hne : c ≠ b) (change : SsaBlock → SsaBlock) :
    (s.updateBlock b change).block c = s.block c := by
  simp [updateBlock, block, getD_eq_getElem?_getD, Ne.symm hne]

end Ssa

/-- The operations that `ssa_value` marks as having an effect. -/
def SsaOp.hasEffect : SsaOp → Bool
  | .check | .checkShl | .addo | .subo | .mulo | .load | .store | .call | .copymem | .zeromem
  | .fillmem | .findByte | .find | .jsonAsciiPrefix | .byteCount | .panic | .div | .rem | .result
  | .param | .vector | .trap | .fail | .continue => true
  | _ => false

/-- Appends a value to the table; its number is the second part. -/
def ssaValue (s : Ssa) (block : Nat) (op : SsaOp) (cls : SsaClass) (a b c : Option Nat)
    (aux aux2 : BitVec 64) : Ssa × Nat :=
  let v : SsaValue :=
    { op := op, cls := cls, a := a, b := b, c := c, aux := aux, aux2 := aux2, block := block
      effect := op.hasEffect }
  ({ s with values := s.values ++ [v] }, s.values.length)

def ssaIsConst (s : Ssa) (id : Option Nat) : Option (BitVec 64) :=
  match id with
  | none => none
  | some id =>
      if (s.value id).op ≠ .const ∨ (s.value id).cls ≠ .int then none else some (s.value id).aux

def ssaReplace (s : Ssa) (id : Nat) (source : Option Nat) : Ssa :=
  let v := s.value id
  let values : List SsaValue := match source with
    | none => s.values
    | some source =>
        let w := s.value source
        if v.retainConstant ∧ v.op = SsaOp.const ∧ w.op = SsaOp.const ∧ v.cls = w.cls ∧ v.aux = w.aux then
          s.values.set source { w with retainConstant := true }
        else s.values
  let copy := { v with op := .copy, a := source, b := none, c := none, effect := false, count := 0 }
  { s with values := values.set id copy }

end Dyn.Backend
