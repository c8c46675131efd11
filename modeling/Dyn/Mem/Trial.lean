import Dyn.Mem.Arena
import Mathlib.Tactic.Ring

/-!
# std/mem: trial blocks

Functions that do not know the size of their output write it to a trial block of the arena and
retry with a larger one while the block fills up.

Every retry begins with a rewind to the same mark, so all rounds see one arena; `Room` is
what they see of it: the bytes left in a fixed buffer, and what a push of some size gives.
-/

namespace Dyn.Mem

/-- An arena at the mark where trials begin.  A push gives a block with whatever bytes it
has, or nothing; from a fixed buffer it gives what is left. -/
structure Room where
  fixed : Option Nat
  push : Nat → Option (Nat → UInt8)
  push_fixed : ∀ left, fixed = some left → ∀ n, (push n).isSome ↔ n ≤ left

/-- A fixed buffer in which as many zero bytes are left. -/
def bufferRoom (left : Nat) : Room where
  fixed := some left
  push n := if n ≤ left then some (fun _ => 0) else none
  push_fixed _ hleft n := by
    cases hleft
    split_ifs with h
    · exact ⟨fun _ => h, fun _ => rfl⟩
    · exact ⟨fun hcon => absurd hcon Bool.false_ne_true, fun hcon => absurd hcon h⟩

def trialSize (room : Room) (wanted : Nat) : Nat :=
  match room.fixed with
  | some left => if wanted > left then left else wanted
  | none => wanted

def trialNext (w : Nat) (room : Room) (current : Nat) : Except Panic Nat :=
  match room.fixed with
  | some left =>
      if current ≥ left then .error "arena exhausted"
      else .ok (trialSize room (current * 2 + 1))
  | none =>
      if current > maximum w / 4 then .error "output size overflows" else .ok (current * 2 + 1)

/-- The rounds: an attempt gives a result, or nothing if its block is too small.  `w + 2`
rounds exhaust every arena. -/
def trialLoop {α : Type} (w : Nat) (room : Room) (attempt : Nat → (Nat → UInt8) → Option α) :
    Nat → Nat → Except Panic α
  | 0, _ => .error "arena exhausted"
  | fuel + 1, capacity =>
      if capacity > 0 then
        match room.push capacity with
        | none => .error "arena exhausted or alignment invalid"
        | some space =>
            match attempt capacity space with
            | some result => .ok result
            | none =>
                match trialNext w room capacity with
                | .error e => .error e
                | .ok capacity => trialLoop w room attempt fuel capacity
      else .error "arena exhausted"

/-- Attempts have one answer, and give it from some size on. -/
structure Trial {α : Type} (attempt : Nat → (Nat → UInt8) → Option α) (size : Nat) (answer : α) :
    Prop where
  sound : ∀ capacity space result, attempt capacity space = some result → result = answer
  enough : ∀ capacity space, size ≤ capacity → attempt capacity space = some answer

/-- The arena has room for an output of the given size: it gives the blocks that the rounds ask
for, the first one of `wanted` bytes and the others of less than twice the output. -/
def Room.Holds (w : Nat) (room : Room) (wanted size : Nat) : Prop :=
  match room.fixed with
  | some left => size ≤ left ∧ 0 < left ∧ left ≤ maximum w
  | none => size ≤ maximum w / 4 ∧ ∀ n ≤ max wanted (2 * size), (room.push n).isSome

def Room.bound (room : Room) (wanted size : Nat) : Nat := room.fixed.getD (max wanted (2 * size))

theorem trialSize_bounds {w : Nat} {room : Room} {wanted size : Nat} (h : room.Holds w wanted size)
    (hpos : 0 < wanted) :
    0 < trialSize room wanted ∧ trialSize room wanted ≤ room.bound wanted size := by
  unfold trialSize Room.bound
  unfold Room.Holds at h
  cases hf : room.fixed with
  | none => exact ⟨hpos, le_max_left _ _⟩
  | some left =>
    rw [hf] at h
    simp only [Option.getD_some] at h ⊢
    split_ifs <;> omega

theorem Room.Holds.push {w : Nat} {room : Room} {wanted size n : Nat} (h : room.Holds w wanted size)
    (hn : n ≤ room.bound wanted size) : ∃ space, room.push n = some space := by
  unfold Room.Holds at h
  unfold Room.bound at hn
  cases hf : room.fixed with
  | none =>
    rw [hf] at h hn
    exact Option.isSome_iff_exists.mp (h.2 n hn)
  | some left =>
    rw [hf] at hn
    exact Option.isSome_iff_exists.mp ((room.push_fixed left hf n).mpr hn)

theorem trialLoop_attempt {α : Type} {attempt : Nat → (Nat → UInt8) → Option α} {w : Nat} {room : Room} :
    ∀ {fuel capacity : Nat} {result : α}, trialLoop w room attempt fuel capacity = .ok result →
      ∃ capacity space, attempt capacity space = some result
  | 0, _, _, hrun => by cases hrun
  | fuel + 1, capacity, result, hrun => by
    unfold trialLoop at hrun
    split at hrun
    · split at hrun
      · cases hrun
      rename_i space hpush
      split at hrun
      · rename_i ha
        injection hrun with hrun
        exact ⟨capacity, space, hrun ▸ ha⟩
      split at hrun
      · cases hrun
      exact trialLoop_attempt hrun
    · cases hrun

section Loop

variable {α : Type} {attempt : Nat → (Nat → UInt8) → Option α} {size : Nat} {answer : α}
  (h : Trial attempt size answer) {w : Nat} {room : Room} {wanted : Nat}
include h

theorem trialLoop_some {fuel capacity : Nat} {result : α}
    (hrun : trialLoop w room attempt fuel capacity = .ok result) : result = answer := by
  obtain ⟨capacity, space, hattempt⟩ := trialLoop_attempt hrun
  exact h.sound capacity space result hattempt

/-- With room for the output the rounds double the block until it suffices. -/
theorem trialLoop_ok (hroom : room.Holds w wanted size) :
    ∀ (k capacity : Nat), 0 < capacity → capacity ≤ room.bound wanted size → size ≤ capacity * 2 ^ k →
      trialLoop w room attempt (k + 1) capacity = .ok answer
  | k, capacity, hpos, hbound, hsize => by
    obtain ⟨space, hpush⟩ := hroom.push hbound
    rw [trialLoop, if_pos hpos, hpush]
    dsimp only
    cases ha : attempt capacity space with
    | some found => rw [h.sound capacity space found ha]
    | none =>
      have hmore : ¬ size ≤ capacity := by
        intro hle
        rw [h.enough capacity space hle] at ha
        cases ha
      cases k with
      | zero => simp at hsize; omega
      | succ k =>
        have hdouble : size ≤ (capacity * 2 + 1) * 2 ^ k := by
          calc
            size ≤ capacity * 2 ^ (k + 1) := hsize
            _ = capacity * 2 * 2 ^ k := by rw [Nat.pow_succ]; ring
            _ ≤ (capacity * 2 + 1) * 2 ^ k := Nat.mul_le_mul_right _ (Nat.le_succ _)
        have hr := hroom
        unfold Room.Holds at hr
        unfold trialNext
        cases hf : room.fixed with
        | none =>
          rw [hf] at hr
          rw [if_neg (by omega)]
          refine trialLoop_ok hroom k _ (by omega) ?_ hdouble
          rw [Room.bound, hf, Option.getD_none]
          omega
        | some left =>
          rw [hf] at hr
          simp only at hr ⊢
          rw [if_neg (by omega)]
          simp only [trialSize, hf]
          split_ifs with hcap
          · refine trialLoop_ok hroom k left (by omega) ?_ ?_
            · rw [Room.bound, hf, Option.getD_some]
            · exact le_trans hr.1 (Nat.le_mul_of_pos_right _ (Nat.two_pow_pos k))
          refine trialLoop_ok hroom k _ (by omega) ?_ hdouble
          rw [Room.bound, hf, Option.getD_some]
          omega

/-- **The rounds give the answer** in every arena with room, whatever size they begin with. -/
theorem trialLoop_size (hroom : room.Holds w wanted size) (hpos : 0 < wanted) :
    trialLoop w room attempt (w + 2) (trialSize room wanted) = .ok answer := by
  obtain ⟨hpos, hbound⟩ := trialSize_bounds hroom hpos
  refine trialLoop_ok h hroom (w + 1) _ hpos hbound ?_
  have hmax : size ≤ maximum w := by
    unfold Room.Holds at hroom
    split at hroom
    · omega
    omega
  calc
    size ≤ 2 ^ (w + 1) := by
      rw [Nat.pow_succ]
      unfold maximum at hmax
      omega
    _ ≤ trialSize room wanted * 2 ^ (w + 1) := Nat.le_mul_of_pos_left _ hpos

end Loop

end Dyn.Mem
