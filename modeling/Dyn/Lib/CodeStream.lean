import Mathlib.Data.Nat.Digits.Defs

/-!
# Straight code in memory

A processor takes an instruction from the front of its code and changes its state.  Code without a
jump executes from one state to another whatever stands behind it, so that pieces of code compose.
The fields of an instruction are what a division and a remainder by powers of two leave of its number.
-/

namespace Dyn.Lib
namespace CodeStream

section

variable {β σ : Type*} {step : List β → σ → Option (List β × σ)} {code code' : List β} {s s' s'' : σ}

/-- A number of steps, from code and a state. -/
def run (step : List β → σ → Option (List β × σ)) : Nat → List β → σ → Option (List β × σ)
  | 0, code, s => some (code, s)
  | n + 1, code, s =>
      match step code s with
      | none => none
      | some (code, s) => run step n code s

theorem run_add {n m : Nat} (h : run step n code s = some (code', s')) :
    run step (n + m) code s = run step m code' s' := by
  induction n generalizing code s with
  | zero =>
    obtain ⟨rfl, rfl⟩ := h
    rw [Nat.zero_add]
  | succ n ih =>
    rw [Nat.succ_add, run]
    rw [run] at h
    split at h
    · cases h
    exact ih h

/-- The code leads from one state to another, whatever stands behind it. -/
def Executes (step : List β → σ → Option (List β × σ)) (code : List β) (s s' : σ) : Prop :=
  ∀ rest, ∃ n, run step n (code ++ rest) s = some (rest, s')

theorem Executes.nil : Executes step [] s s := fun _ => ⟨0, rfl⟩

theorem Executes.one (h : ∀ rest, step (code ++ rest) s = some (rest, s')) : Executes step code s s' := by
  intro rest
  refine ⟨1, ?_⟩
  rw [run, h]
  rfl

theorem Executes.append (h : Executes step code s s') (h' : Executes step code' s' s'') :
    Executes step (code ++ code') s s'' := by
  intro rest
  obtain ⟨n, hn⟩ := h (code' ++ rest)
  obtain ⟨m, hm⟩ := h' rest
  refine ⟨n + m, ?_⟩
  rw [List.append_assoc, run_add hn, hm]

end

/-- The field of `width` bits from the bit `low` on. -/
def field (n low width : Nat) : Nat := n / 2 ^ low % 2 ^ width

theorem or_shiftLeft {x k : Nat} (y : Nat) (h : x < 2 ^ k) : x ||| y <<< k = x + y * 2 ^ k := by
  rw [Nat.or_comm, ← Nat.shiftLeft_add_eq_or_of_lt h, Nat.shiftLeft_eq, Nat.add_comm]

/-- The number that bytes spell, the lowest first. -/
def littleEndian (bytes : List UInt8) : Nat := Nat.ofDigits 256 (bytes.map UInt8.toNat)

end CodeStream
end Dyn.Lib
