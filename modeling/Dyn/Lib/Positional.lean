import Mathlib.Data.List.Basic
import Mathlib.Tactic.Ring

/-!
# Positional notation

Digits in any base, the most significant one first.
-/

namespace Dyn.Lib
namespace Positional

open List

/-- The number that digits stand for, after those of `v`. -/
def extend (b v : Nat) (ds : List Nat) : Nat := ds.foldl (fun v d => v * b + d) v

def value (b : Nat) (ds : List Nat) : Nat := extend b 0 ds

variable {b : Nat} (v : Nat)

@[simp] theorem extend_nil : extend b v [] = v := rfl

@[simp] theorem extend_cons (v d : Nat) (ds : List Nat) : extend b v (d :: ds) = extend b (v * b + d) ds := rfl

@[simp] theorem value_nil : value b [] = 0 := rfl

theorem extend_eq (ds : List Nat) : extend b v ds = v * b ^ ds.length + value b ds := by
  induction ds generalizing v with
  | nil => simp
  | cons d ds ih =>
    have hvalue : value b (d :: ds) = d * b ^ ds.length + value b ds := by
      rw [value, extend_cons, ih (0 * b + d), zero_mul, zero_add]
    rw [extend_cons, ih, hvalue, length_cons, pow_succ]
    ring

theorem value_cons (d : Nat) (ds : List Nat) : value b (d :: ds) = d * b ^ ds.length + value b ds := by
  rw [value, extend_cons, extend_eq, zero_mul, zero_add]

theorem value_lt {ds : List Nat} (h : ∀ d ∈ ds, d < b) : value b ds < b ^ ds.length := by
  induction ds with
  | nil => exact Nat.one_pos
  | cons d ds ih =>
    have hd := h d mem_cons_self
    have hrest := ih fun e he => h e (mem_cons_of_mem _ he)
    have hmul : (d + 1) * b ^ ds.length ≤ b * b ^ ds.length := Nat.mul_le_mul_right _ hd
    rw [Nat.succ_mul] at hmul
    rw [value_cons, length_cons, pow_succ, mul_comm (b ^ ds.length)]
    omega

end Positional
end Dyn.Lib
