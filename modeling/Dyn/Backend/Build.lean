import Dyn.Backend.Ssa
import Dyn.Lib.ProbeTable

/-!
# backend/ssa: building

Blocks, values and edges are added to a function, and phis are built while variables are read.
The numbers of variables and blocks have 32 bits.  The bounds of the loops that the source leaves
open are larger than what they take.
-/

namespace Dyn.Backend

open Lib

def ssaBlock (s : Ssa) : Ssa × Nat :=
  ({ s with blocks := s.blocks ++ [{ loopDepth := s.loopDepth }] }, s.blocks.length)

def ssaEmit (s : Ssa) (op : SsaOp) (cls : SsaClass) (a b c : Option Nat) (aux aux2 : BitVec 64) : Ssa × Nat :=
  let block := s.current.getD 0
  let (s, v) := ssaValue s block op cls a b c aux aux2
  (s.updateBlock block fun blk => { blk with values := blk.values ++ [v] }, v)

def ssaConst (s : Ssa) (bits : BitVec 64) (cls : SsaClass) : Ssa × Nat :=
  ssaEmit s .const cls none none none bits 0

def ssaList (s : Ssa) (items : List Nat) : Ssa × Nat :=
  ({ s with lists := s.lists ++ items }, s.lists.length)

def ssaEdge (s : Ssa) (u v : Nat) : Ssa :=
  let s := s.updateBlock u fun blk =>
    if blk.succ0 = none then { blk with succ0 := some v } else { blk with succ1 := some v }
  s.updateBlock v fun blk => { blk with preds := blk.preds ++ [u] }

def ssaJump (s : Ssa) (target : Nat) : Ssa :=
  match s.current with
  | none => s
  | some b => { ssaEdge (s.updateBlock b ({ · with kind := .plain })) b target with current := none }

def ssaBranch (s : Ssa) (condition yes no : Nat) : Ssa :=
  match s.current with
  | none => s
  | some b =>
      let s := s.updateBlock b ({ · with kind := .branch, control := some condition })
      { ssaEdge (ssaEdge s b yes) b no with current := none }

def ssaHash (key : BitVec 64) : BitVec 64 :=
  let key := key ^^^ (key >>> 31)
  let key := key * 0x9e3779b97f4a7c15
  key ^^^ (key >>> 29)

def defKey (var block : Nat) : Nat := var <<< 32 ||| block

/-- The low half of the hash.  Capacities are powers of two, so that its remainder is the masked hash. -/
def defHash (key : Nat) : Nat := (ssaHash (BitVec.ofNat 64 key)).toNat % 2 ^ 32

def growDefs (s : Ssa) : Ssa :=
  if 2 * (s.defCount + 1) > s.defs.length then
    let capacity := if s.defs.length ≠ 0 then 2 * s.defs.length else 1024
    { s with defs := s.defs.foldl (Probe.settle defHash) (List.replicate capacity none) }
  else s

def ssaDefine (s : Ssa) (var block value : Nat) : Ssa :=
  let s := growDefs s
  let key := defKey var block
  let count := if s.defs.getD (Probe.slotOf defHash s.defs key) none = none then s.defCount + 1 else s.defCount
  { s with defs := Probe.insert defHash s.defs key value, defCount := count }

def ssaDefined (s : Ssa) (var block : Nat) : Option Nat := Probe.lookup defHash s.defs (defKey var block)

def resolveLoop (s : Ssa) : Nat → Nat → Option Nat
  | 0, _ => none
  | fuel + 1, v =>
      if (s.value v).op = .copy then
        match (s.value v).a with
        | none => none
        | some a => resolveLoop s fuel a
      else some v

def ssaResolve (s : Ssa) (v : Nat) : Option Nat := resolveLoop s (s.values.length + 1) v

def ssaNewPhi (s : Ssa) (block : Nat) (cls : SsaClass) : Ssa × Nat :=
  let (s, phi) := ssaValue s block .phi cls none none none 0 0
  -- Phis lead their block.
  (s.updateBlock block fun blk => { blk with values := phi :: blk.values }, phi)

/-- What the operands of a phi have in common. -/
inductive Common where
  | different
  | same (value : Option Nat)
deriving DecidableEq, Repr

/-- Looks for the one value of the operands, itself left out. -/
def commonOperand (s : Ssa) (phi : Nat) : List Nat → Option Nat → Option Common
  | [], same => some (.same same)
  | operand :: operands, same => do
      let op ← ssaResolve s operand
      if op = phi ∨ some op = same then commonOperand s phi operands same
      else
        match same with
        | some _ => some .different
        | none => commonOperand s phi operands (some op)

/-- Reads a variable at the end of the blocks, one after another. -/
def readOperands (read : Ssa → Nat → Option (Ssa × Nat)) : List Nat → Ssa → Option (Ssa × List Nat)
  | [], s => some (s, [])
  | pred :: preds, s => do
      let (s, item) ← read s pred
      let (s, items) ← readOperands read preds s
      some (s, item :: items)

/-- Gives a phi the values that `read` finds in its predecessors.  A phi whose operands are all one
value (or itself) is that value. -/
def ssaPhiOperands (read : Ssa → Nat → Option (Ssa × Nat)) (s : Ssa) (phi : Nat) : Option (Ssa × Nat) := do
  let preds := (s.block (s.value phi).block).preds
  let (s, items) ← readOperands read preds s
  let (s, list) := ssaList s items
  let s := s.updateValue phi ({ · with list := list, count := preds.length })
  match ← commonOperand s phi items none with
  | .different => some (s, phi)
  | .same none => some ({ s with unsupported := true }, phi)
  | .same (some same) =>
      some (s.updateValue phi ({ · with op := .copy, a := some same, count := 0 }), same)

def readLoop : Nat → Ssa → Nat → Nat → SsaClass → Option (Ssa × Nat)
  | 0, _, _, _, _ => none
  | fuel + 1, s, var, block, cls =>
      match ssaDefined s var block with
      | some value => do
          let value ← ssaResolve s value
          some (s, value)
      | none =>
          let b := s.block block
          if b.sealed = false then
            let (s, phi) := ssaNewPhi s block cls
            let s := { s with pending := s.pending ++ [⟨block, var, phi⟩] }
            some (ssaDefine s var block phi, phi)
          else
            match b.preds with
            | [] => some ({ s with unsupported := true }, 0)
            | [pred] => do
                let (s, value) ← readLoop fuel s var pred cls
                some (ssaDefine s var block value, value)
            | _ => do
                let (s, phi) := ssaNewPhi s block cls
                let s := ssaDefine s var block phi
                let (s, value) ← ssaPhiOperands (fun s pred => readLoop fuel s var pred (s.value phi).cls) s phi
                some (ssaDefine s var block value, value)

def ssaRead (s : Ssa) (var block : Nat) (cls : SsaClass) : Option (Ssa × Nat) :=
  readLoop ((s.blocks.length + 1) * (s.blocks.length + 2)) s var block cls

/-- Takes the entry at `i` out of the list; the last one comes into its place. -/
def takePending (s : Ssa) (i : Nat) : Ssa :=
  match s.pending.getLast? with
  | none => s
  | some last => { s with pending := (s.pending.set i last).dropLast }

def sealLoop (block : Nat) : Nat → Nat → Ssa → Option Ssa
  | 0, _, _ => none
  | fuel + 1, i, s =>
      match s.pending[i]? with
      | none => some s
      | some p =>
          if p.block ≠ block then sealLoop block fuel (i + 1) s
          else do
            let (s, _) ← ssaPhiOperands (fun s pred => ssaRead s p.var pred (s.value p.phi).cls) (takePending s i) p.phi
            sealLoop block fuel i s

def ssaSeal (s : Ssa) (block : Nat) : Option Ssa :=
  if (s.block block).sealed then some s
  else
    let s := s.updateBlock block ({ · with sealed := true })
    sealLoop block ((s.pending.length + 1) * (s.blocks.length + 2)) 0 s

def ssaWrite (s : Ssa) (var value : Nat) : Ssa :=
  match s.current with
  | none => s
  | some block => ssaDefine s var block value

end Dyn.Backend
