import Dyn.Backend.Intervals
import Dyn.Lib.FlowItems

/-!
# backend/ssa: executions

A function in SSA form runs over 64-bit values and a memory of bytes.  Control enters a block by
one of the edges in its list of predecessors; its phis then take the values of their operands, and
the other values of the block follow in order.  What this development does not look into, such as
calls, gives any value; a run that fails a check ends there.
-/

namespace Dyn.Backend

open Lib Function

abbrev Memory := BitVec 64 → BitVec 8

/-- Memory types are bits, signed and float. -/
def memoryBits (type : BitVec 64) : Nat := (type &&& 0xff).toNat

/-- A type of less than 8 bits takes a byte. -/
def accessBytes (type : BitVec 64) : Nat := if memoryBits type < 8 then 1 else memoryBits type / 8

def byteOf (value : BitVec 64) (i : Nat) : BitVec 8 := (value >>> (8 * i)).setWidth 8

def readBytes (mem : Memory) (address : BitVec 64) : Nat → BitVec 64
  | 0 => 0
  | n + 1 => readBytes mem address n ||| (mem (address + BitVec.ofNat 64 n)).setWidth 64 <<< (8 * n)

def writeBytes (mem : Memory) (address : BitVec 64) (n : Nat) (value : BitVec 64) : Memory := fun x =>
  if (x - address).toNat < n then byteOf value (x - address).toNat else mem x

def ssaExtend (x : BitVec 64) (bits : Nat) (sign : Bool) : BitVec 64 :=
  if bits ≥ 64 then x
  else
    let mask : BitVec 64 := 1#64 <<< bits - 1
    let x := x &&& mask
    if sign && x.getLsbD (bits - 1) then x ||| ~~~mask else x

section

variable (env : Nat → BitVec 64) (mem : Memory)

def operandOf (operand : Option Nat) : BitVec 64 := (operand.map env).getD 0

/-- The address of a memory operand, and the value of a LEA. -/
def addressOf (v : SsaValue) : BitVec 64 :=
  operandOf env v.a + operandOf env v.b * BitVec.ofNat 64 v.scale + v.aux

def loadValue (v : SsaValue) : BitVec 64 :=
  let raw := readBytes mem (addressOf env v) (accessBytes v.aux2)
  if v.aux2.getLsbD 9 then raw else ssaExtend raw (memoryBits v.aux2) (v.aux2.getLsbD 8)

end

/-- The operations that may write memory, besides stores. -/
def SsaOp.mayWrite : SsaOp → Bool
  | .call | .copymem | .zeromem | .fillmem | .panic | .vector | .trap | .fail | .continue => true
  | _ => false

/-- The value and the memory after a value that is not a phi. -/
inductive Executes (v : SsaValue) (env : Nat → BitVec 64) (mem : Memory) : BitVec 64 → Memory → Prop
  | lea : v.op = .lea → Executes v env mem (addressOf env v) mem
  | load : v.op = .load → Executes v env mem (loadValue env mem v) mem
  | store (x : BitVec 64) : v.op = .store →
      Executes v env mem x (writeBytes mem (addressOf env v) (accessBytes v.aux2) (operandOf env v.c))
  | other (x : BitVec 64) (mem' : Memory) : v.op ≠ .lea → v.op ≠ .load → v.op ≠ .store →
      (v.op.mayWrite = false → mem' = mem) → Executes v env mem x mem'

structure SsaMachine where
  env : Nat → BitVec 64
  mem : Memory

section

variable (s : Ssa)

def Ssa.Edge (p b : Nat) : Prop := p ∈ (s.block b).preds

def Ssa.items (b : Nat) : List Nat := (s.block b).values

/-- Executes a value of a block; phis already have their values. -/
inductive Ssa.Step (id : Nat) : SsaMachine → SsaMachine → Prop
  | phi {σ : SsaMachine} : (s.value id).op = .phi → Step id σ σ
  | value {σ : SsaMachine} {x : BitVec 64} {mem : Memory} : (s.value id).op ≠ .phi →
      Executes (s.value id) σ.env σ.mem x mem → Step id σ ⟨update σ.env id x, mem⟩

/-- The phis of a block take the values of their operands for the edge. -/
inductive Ssa.Enter (p b : Nat) : SsaMachine → SsaMachine → Prop
  | edge {σ : SsaMachine} {i : Nat} : (s.block b).preds[i]? = some p →
      Enter p b σ ⟨fun v => if v ∈ (s.block b).values ∧ (s.value v).op = .phi then
        σ.env (s.lists.getD ((s.value v).list + i) 0) else σ.env v, σ.mem⟩

/-- A run of the function comes to the point of the block `b` that has `n` values before it. -/
abbrev Ssa.Visits : Nat → Nat → SsaMachine → Prop :=
  Flow.Visits s.Edge 0 s.items s.Step s.Enter fun _ => True

/-- The value is there on every way to the point. -/
abbrev Ssa.Before (v b n : Nat) : Prop := Flow.Before s.Edge 0 s.items v b n

abbrev Ssa.Reached (b : Nat) : Prop := Flow.Reached s.Edge 0 b

/-- The function is in SSA form, and its operands are resolved. -/
structure Ssa.Formed : Prop where
  placed : Flow.Placed s.items
  copies : ∀ b v, v ∈ s.items b → (s.value v).op ≠ .copy
  effects : ∀ b v, v ∈ s.items b → (s.value v).op.hasEffect = true → (s.value v).effect = true
  operands : ∀ b n v u, (s.items b)[n]? = some v → s.Reached b → (s.value v).op ≠ .phi → u ∈ operandList s v →
    s.Before u b n

end

section

variable {s : Ssa} {id : Nat} {σ σ' : SsaMachine}

theorem Ssa.Step.env_other (h : s.Step id σ σ') {v : Nat} (hv : v ≠ id) : σ'.env v = σ.env v := by
  cases h with
  | phi _ => rfl
  | value _ _ => exact update_of_ne hv _ _

theorem Ssa.Step.mem_same (h : s.Step id σ σ') (hstore : (s.value id).op ≠ .store)
    (hwrite : (s.value id).op.mayWrite = false) : σ'.mem = σ.mem := by
  cases h with
  | phi _ => rfl
  | value _ hexec =>
    cases hexec with
    | lea _ | load _ => rfl
    | store x hop => exact absurd hop hstore
    | other x mem' _ _ _ hsame => exact hsame hwrite

theorem Ssa.Step.env_load (h : s.Step id σ σ') (hop : (s.value id).op = .load) :
    σ'.env id = loadValue σ.env σ.mem (s.value id) := by
  cases h with
  | phi hphi =>
    rw [hop] at hphi
    cases hphi
  | value _ hexec =>
    cases hexec with
    | lea hop' =>
      rw [hop] at hop'
      cases hop'
    | load _ => exact update_self ..
    | store x hop' =>
      rw [hop] at hop'
      cases hop'
    | other x mem' _ hload _ _ => exact absurd hop hload

theorem Ssa.Enter.env_other {p b : Nat} (h : s.Enter p b σ σ') {v : Nat} (hv : v ∉ s.items b) : σ'.env v = σ.env v := by
  cases h with
  | edge _ => exact if_neg fun hphi => hv hphi.1

theorem Ssa.Enter.mem_same {p b : Nat} (h : s.Enter p b σ σ') : σ'.mem = σ.mem := by
  cases h with
  | edge _ => rfl

variable {env env' : Nat → BitVec 64}

theorem operandOf_congr {operand : Option Nat} (h : ∀ u, operand = some u → env' u = env u) :
    operandOf env' operand = operandOf env operand := by
  cases operand with
  | none => rfl
  | some u => exact h u rfl

variable {v : SsaValue} {mem : Memory} {address : BitVec 64}

theorem addressOf_congr (h : ∀ u, v.a = some u ∨ v.b = some u → env' u = env u) :
    addressOf env' v = addressOf env v := by
  unfold addressOf
  rw [operandOf_congr fun u hu => h u (.inl hu), operandOf_congr fun u hu => h u (.inr hu)]

theorem loadValue_congr {mem' : Memory} (h : ∀ u, v.a = some u ∨ v.b = some u → env' u = env u)
    (hmem : mem' = mem) : loadValue env' mem' v = loadValue env mem v := by
  unfold loadValue
  rw [addressOf_congr h, hmem]

theorem mem_operands (hv : s.value id = v) (hop : v.op = .lea ∨ v.op = .load ∨ v.op = .store)
    {u : Nat} (hu : v.a = some u ∨ v.b = some u ∨ v.c = some u) : u ∈ operandList s id := by
  have hlist : operandList s id = v.a.toList ++ v.b.toList ++ v.c.toList := by
    unfold operandList
    rw [hv]
    dsimp only
    rcases hop with hop | hop | hop <;> rw [hop, if_neg (by decide), if_neg (by decide), if_neg (by decide)]
  rw [hlist, List.mem_append, List.mem_append, Option.mem_toList, Option.mem_toList, Option.mem_toList]
  exact or_assoc.mpr hu

theorem byteOf_getLsbD (x : BitVec 64) (i j : Nat) : (byteOf x i).getLsbD j = (decide (j < 8) && x.getLsbD (8 * i + j)) := by
  unfold byteOf
  rw [BitVec.getLsbD_setWidth, BitVec.getLsbD_ushiftRight]

theorem readBytes_getLsbD {x : BitVec 64} : ∀ (n : Nat),
    (∀ i < n, mem (address + BitVec.ofNat 64 i) = byteOf x i) → n ≤ 8 →
    ∀ j, (readBytes mem address n).getLsbD j = (decide (j < 8 * n) && x.getLsbD j) := by
  intro n
  induction n with
  | zero =>
    intro _ _ j
    simp [readBytes]
  | succ n ih =>
    intro hbytes hn j
    have hold := ih (fun i hi => hbytes i (by omega)) (by omega) j
    unfold readBytes
    rw [BitVec.getLsbD_or, hold, hbytes n (Nat.lt_succ_self n), BitVec.getLsbD_shiftLeft, BitVec.getLsbD_setWidth,
      byteOf_getLsbD]
    by_cases hlow : j < 8 * n
    · have h₁ : j < 8 * (n + 1) := by omega
      simp [hlow, h₁]
    by_cases hhigh : j < 8 * (n + 1)
    · have h₁ : j - 8 * n < 8 := by omega
      have h₂ : j < 64 := by omega
      have h₃ : 8 * n + (j - 8 * n) = j := by omega
      have h₄ : j - 8 * n < 64 := by omega
      simp [hlow, hhigh, h₁, h₂, h₃, h₄]
    · have h₁ : ¬ j - 8 * n < 8 := by omega
      simp [hlow, hhigh, h₁]

theorem readBytes_eight {x : BitVec 64}
    (h : ∀ i < 8, mem (address + BitVec.ofNat 64 i) = byteOf x i) :
    readBytes mem address 8 = x := by
  refine BitVec.eq_of_getLsbD_eq fun j hj => ?_
  rw [readBytes_getLsbD 8 h (Nat.le_refl 8)]
  simp [hj]

theorem writeBytes_self (mem : Memory) (address value : BitVec 64) {n i : Nat} (hi : i < n) (hroom : i < 2 ^ 64) :
    writeBytes mem address n value (address + BitVec.ofNat 64 i) = byteOf value i := by
  have hindex : (address + BitVec.ofNat 64 i - address).toNat = i := by
    rw [BitVec.add_comm, BitVec.add_sub_cancel, BitVec.toNat_ofNat, Nat.mod_eq_of_lt hroom]
  unfold writeBytes
  rw [hindex, if_pos hi]

end

end Dyn.Backend
