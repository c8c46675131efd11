import Dyn.Mem.Arena

/-!
# std/container/slot_map

Generation handles into the caller's slot array.  A slot is live while its generation is odd, and a
handle resolves while its slot still has the generation that the handle was made with.  The generation
is a counter of 32 bits that wraps around, and a handle keeps the index of its slot in 32 bits.
-/

namespace Dyn.Container

open List
open Mem (Panic)

/-- A node: its generation and all its other fields. -/
structure Slot (α : Type) where
  generation : UInt32
  fields : α
deriving DecidableEq, Repr

/-- The slot array, with the address of its first node and the size of a node. -/
structure SlotArray (α : Type) where
  base : Nat
  size : Nat
  size_pos : 0 < size
  nodes : List (Slot α)

structure Handle where
  index : UInt32
  generation : UInt32
deriving DecidableEq, Repr

section Code

variable {α : Type}

/-- Zeroes every field except the generation and marks the slot live. -/
def resetSlot (zero : α) (node : Slot α) : Slot α :=
  ⟨if node.generation % 2 = 0 then node.generation + 1 else node.generation, zero⟩

def retireSlot (node : Slot α) : Slot α :=
  if node.generation % 2 = 1 then { node with generation := node.generation + 1 } else node

def isLive (node : Slot α) : Bool := node.generation % 2 = 1

/-- The handle for the node at an address, which must be that of an element. -/
def handleOf (slots : SlotArray α) (address : Nat) : Except Panic Handle :=
  if slots.nodes.length = 0 then .error "index out of bounds"
  else if address < slots.base ∨ (address - slots.base) % slots.size ≠ 0 then
    .error "handle_of: node is not an element of slots"
  else
    match slots.nodes[(address - slots.base) / slots.size]? with
    | none => .error "handle_of: node is not an element of slots"
    | some node => .ok ⟨UInt32.ofNat ((address - slots.base) / slots.size), node.generation⟩

/-- The place of the live slot that the handle was made for; `none` stands for the nil node. -/
def resolve (slots : SlotArray α) (handle : Handle) : Option Nat :=
  match slots.nodes[handle.index.toNat]? with
  | none => none
  | some node =>
      if handle.generation % 2 = 0 ∨ node.generation ≠ handle.generation then none else some handle.index.toNat

/-- The operations, each on the node at an index. -/
inductive SlotOperation where
  | reset (i : Nat)
  | retire (i : Nat)
  | handleOf (i : Nat)
deriving DecidableEq, Repr

namespace SlotArray

def address (slots : SlotArray α) (i : Nat) : Nat := slots.base + i * slots.size

def step (zero : α) (slots : SlotArray α) : SlotOperation → SlotArray α
  | .reset i => { slots with nodes := slots.nodes.modify i (resetSlot zero) }
  | .retire i => { slots with nodes := slots.nodes.modify i retireSlot }
  | .handleOf _ => slots

def run (zero : α) (slots : SlotArray α) (ops : List SlotOperation) : SlotArray α := ops.foldl (step zero) slots

/-- The generation of the node at an index, and zero beyond the array. -/
def generation (slots : SlotArray α) (i : Nat) : UInt32 := (slots.nodes[i]?.map (·.generation)).getD 0

end SlotArray

end Code

section Runs

variable {α : Type} (zero : α)

open SlotArray

/-- Whether an operation advances the generation of the node at an index. -/
def advances (slots : SlotArray α) (j : Nat) : SlotOperation → Bool
  | .reset i => i = j ∧ j < slots.nodes.length ∧ slots.generation j % 2 = 0
  | .retire i => i = j ∧ j < slots.nodes.length ∧ slots.generation j % 2 = 1
  | .handleOf _ => false

/-- How often a run advances the generation of a node. -/
def advanceCount (slots : SlotArray α) (j : Nat) : List SlotOperation → Nat
  | [] => 0
  | op :: ops => (advances slots j op).toNat + advanceCount (step zero slots op) j ops

variable (slots : SlotArray α)

@[simp] theorem run_nil : run zero slots [] = slots := rfl

variable (op : SlotOperation) (ops : List SlotOperation)

@[simp] theorem run_cons : run zero slots (op :: ops) = run zero (step zero slots op) ops := rfl

theorem step_length : (step zero slots op).nodes.length = slots.nodes.length := by
  cases op <;> simp [step]

theorem run_length : (run zero slots ops).nodes.length = slots.nodes.length := by
  induction ops generalizing slots with
  | nil => rfl
  | cons op ops ih => rw [run_cons, ih, step_length]

theorem resetSlot_generation (node : Slot α) :
    (resetSlot zero node).generation = node.generation + UInt32.ofNat (node.generation % 2 = 0 : Bool).toNat := by
  by_cases heven : node.generation % 2 = 0 <;> simp [resetSlot, heven]

theorem retireSlot_generation (node : Slot α) :
    (retireSlot node).generation = node.generation + UInt32.ofNat (node.generation % 2 = 1 : Bool).toNat := by
  by_cases hodd : node.generation % 2 = 1 <;> simp [retireSlot, hodd]

variable {j : Nat}

theorem generation_of_lt {slots : SlotArray α} (h : j < slots.nodes.length) :
    slots.generation j = slots.nodes[j].generation := by
  simp [SlotArray.generation, h]

theorem generation_of_ge {slots : SlotArray α} (h : slots.nodes.length ≤ j) :
    slots.generation j = 0 := by
  simp [SlotArray.generation, h]

/-- An operation adds one to the generation of the node that it advances, and leaves all others. -/
theorem generation_step (j : Nat) :
    (step zero slots op).generation j = slots.generation j + UInt32.ofNat (advances slots j op).toNat := by
  have hlength := step_length zero slots op
  by_cases hj : j < slots.nodes.length
  · rw [generation_of_lt (hlength ▸ hj), generation_of_lt hj]
    cases op with
    | handleOf i => simp [step, advances]
    | reset i =>
      by_cases hij : i = j
      · subst hij
        simp [step, advances, hj, resetSlot_generation, generation_of_lt hj]
      · simp [step, advances, hij]
    | retire i =>
      by_cases hij : i = j
      · subst hij
        simp [step, advances, hj, retireSlot_generation, generation_of_lt hj]
      · simp [step, advances, hij]
  · rw [generation_of_ge (hlength ▸ Nat.le_of_not_lt hj), generation_of_ge (Nat.le_of_not_lt hj)]
    cases op <;> simp [advances, hj]

theorem generation_run (j : Nat) :
    ((run zero slots ops).generation j).toNat =
      ((slots.generation j).toNat + advanceCount zero slots j ops) % 2 ^ 32 := by
  induction ops generalizing slots with
  | nil =>
    have hlt := (slots.generation j).toNat_lt
    rw [run_nil, advanceCount, add_zero, Nat.mod_eq_of_lt hlt]
  | cons op ops ih =>
    rw [run_cons, ih, generation_step, UInt32.toNat_add, advanceCount]
    have hsmall : (UInt32.ofNat (advances slots j op).toNat).toNat = (advances slots j op).toNat := by
      cases advances slots j op <;> rfl
    rw [hsmall]
    omega

variable {zero}

theorem handleOf_address {i : Nat} (hi : i < slots.nodes.length) :
    handleOf slots (slots.address i) = .ok ⟨UInt32.ofNat i, slots.generation i⟩ := by
  have hindex : (slots.address i - slots.base) / slots.size = i := by
    rw [address, Nat.add_sub_cancel_left, Nat.mul_div_cancel _ slots.size_pos]
  have hmultiple : (slots.address i - slots.base) % slots.size = 0 := by
    rw [address, Nat.add_sub_cancel_left, Nat.mul_mod_left]
  have hbase : ¬ slots.address i < slots.base := Nat.not_lt.2 (Nat.le_add_right _ _)
  have hne : slots.nodes.length ≠ 0 := by omega
  simp [handleOf, hne, hbase, hmultiple, hindex, hi, generation_of_lt hi]

theorem mod_two_ne_zero {g : UInt32} : ¬ g % 2 = 0 ↔ g % 2 = 1 := by
  rw [← UInt32.toNat_inj, ← UInt32.toNat_inj, UInt32.toNat_mod]
  change ¬ g.toNat % 2 = 0 ↔ g.toNat % 2 = 1
  omega

theorem resolve_none_iff (handle : Handle) :
    resolve slots handle = none ↔
      ¬ (handle.generation % 2 = 1 ∧ slots.generation handle.index.toNat = handle.generation) := by
  unfold resolve
  by_cases hindex : handle.index.toNat < slots.nodes.length
  · rw [getElem?_eq_getElem hindex, generation_of_lt hindex, ← mod_two_ne_zero]
    by_cases heven : handle.generation % 2 = 0 <;>
      by_cases hsame : slots.nodes[handle.index.toNat].generation = handle.generation <;> simp [heven, hsame]
  rw [getElem?_eq_none (Nat.le_of_not_lt hindex), generation_of_ge (Nat.le_of_not_lt hindex)]
  refine iff_of_true rfl ?_
  rintro ⟨hodd, hzero⟩
  rw [← hzero] at hodd
  exact absurd hodd (by decide)

/-- Operations that leave a slot as it was do not change whether it is live. -/
theorem generation_of_count_zero (zero : α) {slots : SlotArray α} {ops : List SlotOperation}
    (h : advanceCount zero slots j ops = 0) :
    (run zero slots ops).generation j = slots.generation j := by
  have hrun := generation_run zero slots ops j
  have hlt := (slots.generation j).toNat_lt
  rw [h, add_zero, Nat.mod_eq_of_lt hlt] at hrun
  exact UInt32.toNat_inj.1 hrun

theorem advanceCount_append (zero : α) (slots : SlotArray α) (j : Nat) (ops1 ops2 : List SlotOperation) :
    advanceCount zero slots j (ops1 ++ ops2) =
      advanceCount zero slots j ops1 + advanceCount zero (run zero slots ops1) j ops2 := by
  induction ops1 generalizing slots with
  | nil => simp [advanceCount]
  | cons op ops ih => rw [cons_append, advanceCount, advanceCount, ih, run_cons, add_assoc]

/-- Retiring a slot that was live before advances it, unless something else did. -/
theorem advanceCount_retire (zero : α) {slots : SlotArray α} (hj : j < slots.nodes.length)
    (hlive : slots.generation j % 2 = 1) (ops1 ops2 : List SlotOperation) :
    0 < advanceCount zero slots j (ops1 ++ .retire j :: ops2) := by
  rw [advanceCount_append, advanceCount]
  by_contra hnone
  have hbefore : advanceCount zero slots j ops1 = 0 := by omega
  have hstay := generation_of_count_zero zero hbefore
  have hadvances : advances (run zero slots ops1) j (.retire j) = true := by
    simp [advances, hstay, hlive, run_length, hj]
  rw [hadvances] at hnone
  simp at hnone

/-- After its slot has been retired, a handle resolves again exactly when the slot at the index that it
kept comes back to its generation.  That does not happen to the first 2^32 slots before their generation
has advanced 2^32 times. -/
theorem stale_handle_resolves_iff (zero : α) (slots : SlotArray α) (i : Nat) (hi : i < slots.nodes.length)
    (ops1 ops2 : List SlotOperation) :
    ∃ handle, handleOf slots (slots.address i) = .ok handle ∧
      (resolve (run zero slots (ops1 ++ .retire i :: ops2)) handle = none ↔
        ¬ (slots.generation i % 2 = 1 ∧ ((slots.generation (i % 2 ^ 32)).toNat +
            advanceCount zero slots (i % 2 ^ 32) (ops1 ++ .retire i :: ops2)) % 2 ^ 32 = (slots.generation i).toNat)) ∧
      (i < 2 ^ 32 → advanceCount zero slots i (ops1 ++ .retire i :: ops2) < 2 ^ 32 →
        resolve (run zero slots (ops1 ++ .retire i :: ops2)) handle = none) := by
  have hresolve : resolve (run zero slots (ops1 ++ .retire i :: ops2)) ⟨UInt32.ofNat i, slots.generation i⟩ = none ↔
      ¬ (slots.generation i % 2 = 1 ∧ ((slots.generation (i % 2 ^ 32)).toNat +
        advanceCount zero slots (i % 2 ^ 32) (ops1 ++ .retire i :: ops2)) % 2 ^ 32 = (slots.generation i).toNat) := by
    rw [resolve_none_iff, ← generation_run, UInt32.toNat_inj, UInt32.toNat_ofNat']
  refine ⟨_, handleOf_address slots hi, hresolve, fun hsmall hcount => ?_⟩
  rw [hresolve, Nat.mod_eq_of_lt hsmall]
  rintro ⟨hlive, hback⟩
  have hpos := advanceCount_retire zero hi hlive ops1 ops2
  have hlt := (slots.generation i).toNat_lt
  omega

/-- A slot that is prepared and retired over and over. -/
def reuses (n : Nat) : List SlotOperation := (List.replicate n [SlotOperation.reset 0, .retire 0]).flatten

theorem even_add_two {g : UInt32} (h : g % 2 = 0) : (g + 1) % 2 = 1 ∧ (g + 1 + 1) % 2 = 0 := by
  simp only [← UInt32.toNat_inj, UInt32.toNat_mod, UInt32.toNat_add] at *
  change g.toNat % 2 = 0 at h
  change (g.toNat + 1) % 2 ^ 32 % 2 = 1 ∧ ((g.toNat + 1) % 2 ^ 32 + 1) % 2 ^ 32 % 2 = 0
  omega

/-- Every reuse of a free slot advances it twice and leaves it free. -/
theorem advanceCount_reuses (zero : α) {slots : SlotArray α} (hlength : 0 < slots.nodes.length)
    (heven : slots.generation 0 % 2 = 0) (n : Nat) (rest : List SlotOperation)
    (hrest : ∀ later : SlotArray α, 0 < later.nodes.length → later.generation 0 % 2 = 0 →
      advanceCount zero later 0 rest = 1) :
    advanceCount zero slots 0 (reuses n ++ rest) = 2 * n + 1 := by
  induction n generalizing slots with
  | zero => exact (hrest slots hlength heven).trans rfl
  | succ n ih =>
    have hsplit : reuses (n + 1) ++ rest = .reset 0 :: .retire 0 :: (reuses n ++ rest) := by
      simp [reuses, replicate_succ]
    have hfirst : advances slots 0 (.reset 0) = true := by simp [advances, hlength, heven]
    have hgeneration := generation_step zero slots (.reset 0) 0
    rw [hfirst] at hgeneration
    have hodd : (step zero slots (.reset 0)).generation 0 % 2 = 1 := by
      rw [hgeneration]
      exact (even_add_two heven).1
    have hlength1 : 0 < (step zero slots (.reset 0)).nodes.length := by rwa [step_length]
    have hsecond : advances (step zero slots (.reset 0)) 0 (.retire 0) = true := by simp [advances, hlength1, hodd]
    have hgeneration2 := generation_step zero (step zero slots (.reset 0)) (.retire 0) 0
    rw [hsecond, hgeneration] at hgeneration2
    rw [hsplit, advanceCount, advanceCount, hfirst, hsecond,
      ih (by rwa [step_length]) (by rw [hgeneration2]; exact (even_add_two heven).2)]
    simp only [Bool.toNat_true]
    omega

theorem resolve_eq_some {slots : SlotArray α} {handle : Handle} (h : resolve slots handle ≠ none) :
    resolve slots handle = some handle.index.toNat := by
  unfold resolve at *
  split at h
  · exact absurd rfl h
  split_ifs at h with hstale
  · exact absurd rfl h
  · exact if_neg hstale

end Runs

def oneSlot : SlotArray Unit := ⟨4096, 16, by decide, [⟨1, ()⟩]⟩

/-- One slot more than a handle can name, all of them live. -/
def manySlots : SlotArray Unit := ⟨4096, 4, by decide, List.replicate (2 ^ 32 + 1) ⟨1, ()⟩⟩

theorem stale_handle_resolves_after_retire :
    ∃ handle, handleOf oneSlot (oneSlot.address 0) = .ok handle ∧
      (resolve (SlotArray.run () oneSlot ([] ++ .retire 0 :: [.reset 0])) handle = none ↔
        ¬ (oneSlot.generation (0 : Nat) % 2 = 1 ∧ ((oneSlot.generation (0 % 2 ^ 32)).toNat +
          advanceCount () oneSlot (0 % 2 ^ 32) ([] ++ .retire 0 :: [.reset 0])) % 2 ^ 32 =
            (oneSlot.generation 0).toNat)) ∧
      (0 < 2 ^ 32 → advanceCount () oneSlot 0 ([] ++ .retire 0 :: [.reset 0]) < 2 ^ 32 →
        resolve (SlotArray.run () oneSlot ([] ++ .retire 0 :: [.reset 0])) handle = none) :=
  stale_handle_resolves_iff () oneSlot 0 (by decide) [] [.reset 0]

/-- After 2^31 retirements a stale handle resolves again, and in an array of more than 2^32 slots the handle of
the last one resolves to the first one at once. -/
theorem stale_handle_resolves :
    (handleOf oneSlot (oneSlot.address 0) = .ok ⟨0, 1⟩ ∧
      resolve (SlotArray.run () oneSlot (.retire 0 :: (reuses (2 ^ 31 - 1) ++ [.reset 0]))) ⟨0, 1⟩ = some 0) ∧
    (handleOf manySlots (manySlots.address (2 ^ 32)) = .ok ⟨0, 1⟩ ∧
      resolve (SlotArray.run () manySlots [.retire (2 ^ 32)]) ⟨0, 1⟩ = some 0) := by
  have hmany : manySlots.nodes.length = 2 ^ 32 + 1 := length_replicate
  have hall : ∀ j, j < 2 ^ 32 + 1 → manySlots.generation j = 1 := fun j hj => by
    rw [generation_of_lt (hmany ▸ hj)]
    exact congrArg Slot.generation (getElem_replicate _)
  refine ⟨⟨rfl, ?_⟩, ?_, ?_⟩
  · have hcount : advanceCount () oneSlot 0 (.retire 0 :: (reuses (2 ^ 31 - 1) ++ [.reset 0])) = 2 ^ 32 := by
      rw [advanceCount, advanceCount_reuses () (by decide) (by decide)]
      · rfl
      · intro later hlength heven
        simp [advanceCount, advances, hlength, heven]
    have hback : (SlotArray.run () oneSlot (.retire 0 :: (reuses (2 ^ 31 - 1) ++ [.reset 0]))).generation 0 = 1 := by
      rw [← UInt32.toNat_inj, generation_run, hcount]
      rfl
    refine resolve_eq_some fun hnone => (resolve_none_iff _ _).1 hnone ⟨by decide, hback⟩
  · rw [handleOf_address manySlots (hmany ▸ Nat.lt_succ_self _), hall _ (Nat.lt_succ_self _)]
    rfl
  · have hother : (SlotArray.run () manySlots [.retire (2 ^ 32)]).generation 0 = 1 := by
      rw [run_cons, run_nil, generation_step, hall 0 (by decide)]
      simp [advances]
    refine resolve_eq_some fun hnone => (resolve_none_iff _ _).1 hnone ⟨by decide, hother⟩

end Dyn.Container
