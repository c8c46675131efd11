import Dyn.Backend.Build

/-!
# backend/ssa: reusing loads

A load takes the value of an identical load before it, or of a store before it to the same place,
when no value in between can write there.  The facts are those of one block, and go on into a block
that is entered only by falling out of the one before it in the order.
-/

namespace Dyn.Backend

/-- What two values must share to be one computation. -/
def ssaSame (x y : SsaValue) : Bool :=
  x.op = y.op ∧ x.cls = y.cls ∧ x.a = y.a ∧ x.b = y.b ∧ x.c = y.c ∧ x.aux = y.aux ∧ x.aux2 = y.aux2 ∧
    x.cond = y.cond ∧ x.scale = y.scale

/-- An operand as the 32 bits of the source, which has -1 for none. -/
def operandBits (operand : Option Nat) : BitVec 64 :=
  match operand with
  | none => 0xffffffff
  | some id => (BitVec.ofNat 32 id).setWidth 64

def ssaKey (v : SsaValue) : BitVec 64 :=
  let h : BitVec 64 := BitVec.ofNat 64 v.op.ctorIdx * 0x100000001b3 ^^^ BitVec.ofNat 64 v.cls.ctorIdx
  let h := (h ^^^ operandBits v.a) * 0x100000001b3
  let h := (h ^^^ operandBits v.b) * 0x100000001b3
  let h := (h ^^^ operandBits v.c) * 0x100000001b3
  let h := (h ^^^ v.aux) * 0x100000001b3
  (h ^^^ v.aux2 ^^^ BitVec.ofNat 64 v.cond <<< 40 ^^^ BitVec.ofNat 64 v.scale <<< 48) * 0x100000001b3

/-- A memory operand as base + index * scale + displacement. -/
structure SsaPlace where
  base : Option Nat
  index : Option Nat
  scale : Nat
  displacement : BitVec 64
deriving DecidableEq, Repr

def placeLoop (s : Ssa) : Nat → SsaPlace → SsaPlace
  | 0, p => p
  | depth + 1, p =>
      match p.base with
      | none => p
      | some base =>
          let lea := s.value base
          if lea.op ≠ .lea ∨ lea.b ≠ none then p
          else placeLoop s depth { p with displacement := p.displacement + lea.aux, base := lea.a }

/-- Looks through up to 8 constant-offset LEAs of the base. -/
def ssaPlace (s : Ssa) (v : SsaValue) : SsaPlace := placeLoop s 8 ⟨v.a, v.b, v.scale, v.aux⟩

def storeRun : Nat := 8

structure LoadEntry where
  epoch : Nat := 0
  value : Nat := 0
deriving DecidableEq, Repr

structure Reuse where
  ssa : Ssa
  table : List LoadEntry
  epoch : Nat
  stores : List Nat
deriving DecidableEq, Repr

/-- The bytes of an access, as the pass counts them. -/
def placeBytes (type : BitVec 64) : Nat := (type &&& 0xff).toNat / 8

/-- The load `v` can take the value that the store has written. -/
def forwards (s : Ssa) (store v : SsaValue) (value : Nat) : Bool :=
  (s.value value).cls = v.cls ∧
    ((v.cls = .int ∧ v.aux2 &&& 0xff = 64 ∧ v.aux2 &&& 512 = 0) ∨ (v.cls = .f64 ∧ v.aux2 = BitVec.ofNat 64 (64 ||| 1 <<< 9))) ∧
    ssaPlace s store = ssaPlace s v ∧
    (store.aux2 = v.aux2 ∨ (v.cls = .int ∧ (store.aux2 ^^^ v.aux2) &&& ~~~(256 : BitVec 64) = 0))

/-- The stores of the run from the last one to the first. -/
def findForward (s : Ssa) (v : SsaValue) : List Nat → Option Nat
  | [] => none
  | id :: stores =>
      let store := s.value id
      match store.c.bind (ssaResolve s) with
      | none => findForward s v stores
      | some value => if forwards s store v value then some value else findForward s v stores

/-- Where the probe for a load ends, with an identical load of the epoch or without one. -/
inductive LoadProbe where
  | found (value : Nat)
  | free (slot : Nat)
deriving DecidableEq, Repr

/-- Takes as many steps as there are slots; a table full of other loads of the epoch has no end. -/
def probeLoad (r : Reuse) (v : SsaValue) : Nat → Nat → Option LoadProbe
  | 0, _ => none
  | fuel + 1, slot =>
      let item := r.table.getD slot {}
      if item.epoch ≠ r.epoch then some (.free slot)
      else if ssaSame (r.ssa.value item.value) v then some (.found item.value)
      else probeLoad r v fuel ((slot + 1) % r.table.length)

/-- Two accesses through one base and index that cannot overlap. -/
def disjointPlaces (at₁ : SsaPlace) (bytes₁ : Nat) (at₂ : SsaPlace) (bytes₂ : Nat) : Bool :=
  at₁.base = at₂.base ∧ at₁.index = at₂.index ∧ at₁.scale = at₂.scale ∧ bytes₂ ≠ 0 ∧ bytes₁ ≠ 0 ∧
    ((at₂.displacement + BitVec.ofNat 64 bytes₂).sle at₁.displacement ∨
      (at₁.displacement + BitVec.ofNat 64 bytes₁).sle at₂.displacement)

/-- The run of stores after a store: it joins only when no earlier one can overlap. -/
def joinStores (s : Ssa) (stores : List Nat) (id : Nat) : List Nat :=
  let v := s.value id
  let disjoint := stores.length < storeRun ∧ stores.all fun other =>
    disjointPlaces (ssaPlace s (s.value other)) (placeBytes (s.value other).aux2) (ssaPlace s v) (placeBytes v.aux2)
  (if disjoint then stores else []) ++ [id]

/-- The load becomes a copy and leaves its block. -/
def replaceLoad (r : Reuse) (id value : Nat) : Reuse :=
  { r with ssa := (ssaReplace r.ssa id (some value)).updateValue id ({ · with dead := true }) }

def SsaOp.keepsMemory : SsaOp → Bool
  | .check | .checkShl | .addo | .subo | .mulo | .div | .rem => true
  | _ => false

/-- One value of a block; the second part tells whether the value stays in the block. -/
def reuseValue (r : Reuse) (id : Nat) : Option (Reuse × Bool) :=
  let v := r.ssa.value id
  if v.op = .load then
    match findForward r.ssa v r.stores.reverse with
    | some value => some (replaceLoad r id value, false)
    | none => do
        match ← probeLoad r v r.table.length ((ssaKey v).toNat % 2 ^ 32 % r.table.length) with
        | .found value => some (replaceLoad r id value, false)
        | .free slot => some ({ r with table := r.table.set slot ⟨r.epoch, id⟩ }, true)
  else if v.effect ∧ v.op.keepsMemory = false then
    let stores := if v.op ≠ .store then [] else joinStores r.ssa r.stores id
    some ({ r with epoch := r.epoch + 1, stores := stores }, true)
  else some (r, true)

def reuseValues : List Nat → Reuse → Option (Reuse × List Nat)
  | [], r => some (r, [])
  | id :: ids, r => do
      let (r, stays) ← reuseValue r id
      let (r, kept) ← reuseValues ids r
      some (r, if stays then id :: kept else kept)

/-- A block entered only by falling out of the previous one, which has no other successor. -/
def continuesBlock (s : Ssa) (previous : Option Nat) (b : Nat) : Bool :=
  match previous with
  | none => false
  | some p => (s.block b).preds = [p] ∧ (s.block p).kind = .plain ∧ (s.block p).succ0 = some b

def beginBlock (r : Reuse) (previous : Option Nat) (b : Nat) : Reuse :=
  if continuesBlock r.ssa previous b then r else { r with epoch := r.epoch + 1, stores := [] }

def reuseBlocks : Option Nat → List Nat → Reuse → Option Reuse
  | _, [], r => some r
  | previous, b :: order, r => do
      let r := beginBlock r previous b
      let (r, kept) ← reuseValues (r.ssa.block b).values r
      reuseBlocks (some b) order { r with ssa := r.ssa.updateBlock b ({ · with values := kept }) }

/-- The capacity of the table: at least twice the values of the largest block. -/
def tableCapacity (largest : Nat) : Nat → Nat → Nat
  | 0, capacity => capacity
  | fuel + 1, capacity => if capacity < 2 * largest then tableCapacity largest fuel (2 * capacity) else capacity

def ssaReuseLoads (s : Ssa) (order : List Nat) : Option Ssa := do
  let largest := order.foldl (fun largest b => max largest (s.block b).values.length) 0
  let capacity := tableCapacity largest 31 64
  let r ← reuseBlocks none order ⟨s, List.replicate capacity {}, 0, []⟩
  some r.ssa

end Dyn.Backend
