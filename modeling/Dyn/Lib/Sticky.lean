import Mathlib.Tactic

/-!
# Sticky bits

A natural number `s` can stand for a number `v` that is not an integer: `Sticky m v s` says that
the two are equal or lie strictly between the same two neighbouring multiples of `2 ^ m`, so that
they compare alike with every multiple of `2 ^ m` (`Sticky.lt_iff`, `Sticky.eq_iff`).

A right shift that keeps what it drops in the lowest bit leaves the relation at `m = 1`
(`Sticky.jam`); a left shift costs one bit (`Sticky.double`).
-/

namespace Dyn.Lib

/-- `v` and `s` are equal, or strictly between the same multiples of `2 ^ m`. -/
def Sticky (m : Nat) (v : ℚ) (s : Nat) : Prop :=
  v = s ∨ ∃ q : Nat, (q * 2 ^ m : ℚ) < v ∧ v < (q + 1) * 2 ^ m ∧
    q * 2 ^ m < s ∧ s < (q + 1) * 2 ^ m

/-- `s / 2 ^ distance`, with a one in the lowest bit where this drops something. -/
def jam (s distance : Nat) : Nat :=
  if s % 2 ^ distance = 0 then s / 2 ^ distance else s / 2 ^ distance / 2 * 2 + 1

theorem or_one (n : Nat) : n ||| 1 = n / 2 * 2 + 1 := by
  apply Nat.eq_of_testBit_eq
  intro i
  cases i with
  | zero => simp [Nat.testBit_zero]
  | succ i =>
    rw [Nat.testBit_or, Nat.testBit_succ, Nat.testBit_succ, Nat.testBit_succ,
      show (n / 2 * 2 + 1) / 2 = n / 2 by omega]
    simp

theorem jam_exact {s d : Nat} (h : s % 2 ^ d = 0) : (s : ℚ) / 2 ^ d = jam s d := by
  have hsplit := Nat.div_add_mod s (2 ^ d)
  rw [h, add_zero] at hsplit
  rw [jam, if_pos h, div_eq_iff (by positivity), mul_comm]
  exact_mod_cast hsplit.symm

namespace Sticky

theorem refl (m s : Nat) : Sticky m s s := .inl rfl

variable {m : Nat} {v : ℚ} {s : Nat}

theorem mono {n : Nat} (hle : m ≤ n) (h : Sticky m v s) : Sticky n v s := by
  rcases h with heq | ⟨q, hlow, hhigh, hlow', hhigh'⟩
  · exact .inl heq
  obtain ⟨k, rfl⟩ := Nat.exists_eq_add_of_le hle
  have hpos : 0 < 2 ^ k := Nat.two_pow_pos k
  have hdown : q / 2 ^ k * 2 ^ (m + k) ≤ q * 2 ^ m := by
    rw [pow_add, mul_comm (2 ^ m), ← mul_assoc]
    exact Nat.mul_le_mul_right _ (Nat.div_mul_le_self q (2 ^ k))
  have hup : (q + 1) * 2 ^ m ≤ (q / 2 ^ k + 1) * 2 ^ (m + k) := by
    rw [pow_add, mul_comm (2 ^ m), ← mul_assoc]
    exact Nat.mul_le_mul_right _ (Nat.lt_div_mul_add hpos |>.trans_eq (Nat.succ_mul _ _).symm)
  have hdown' : ((q / 2 ^ k : Nat) * 2 ^ (m + k) : ℚ) ≤ q * 2 ^ m := by exact_mod_cast hdown
  have hup' : ((q + 1) * 2 ^ m : ℚ) ≤ ((q / 2 ^ k : Nat) + 1) * 2 ^ (m + k) := by
    exact_mod_cast hup
  exact .inr ⟨q / 2 ^ k, by linarith, by linarith, by omega, by omega⟩

theorem double (h : Sticky m v s) : Sticky (m + 1) (2 * v) (2 * s) := by
  rcases h with rfl | ⟨q, hlow, hhigh, hlow', hhigh'⟩
  · exact .inl (by push_cast; rfl)
  refine .inr ⟨q, ?_, ?_, ?_, ?_⟩
  · rw [pow_succ]; linarith
  · rw [pow_succ]; linarith
  · rw [pow_succ, ← mul_assoc]; omega
  · rw [pow_succ, ← mul_assoc]; omega

/-- A number between two neighbouring integers, with the lowest bit set. -/
theorem odd {q : Nat} (hlow : (q : ℚ) < v) (hhigh : v < q + 1) : Sticky 1 v (q / 2 * 2 + 1) := by
  refine .inr ⟨q / 2, ?_, ?_, by omega, by omega⟩
  · have hle : ((q / 2 * 2 : Nat) : ℚ) ≤ q := by exact_mod_cast (by omega : q / 2 * 2 ≤ q)
    push_cast at hle
    linarith
  have hle : ((q + 1 : Nat) : ℚ) ≤ (q / 2 * 2 + 2 : Nat) := by
    exact_mod_cast (by omega : q + 1 ≤ q / 2 * 2 + 2)
  push_cast at hle ⊢
  linarith

theorem jam {d : Nat} (h : Sticky (d + 1) v s) : Sticky 1 (v / 2 ^ d) (jam s d) := by
  have hpos : (0 : ℚ) < 2 ^ d := by positivity
  have hpos' : 0 < 2 ^ d := Nat.two_pow_pos d
  have hsplit := Nat.div_add_mod s (2 ^ d)
  have hless := Nat.mod_lt s hpos'
  rcases h with rfl | ⟨q, hlow, hhigh, hlow', hhigh'⟩
  · by_cases hzero : s % 2 ^ d = 0
    · exact .inl (jam_exact hzero)
    have hsplit' : (s : ℚ) = 2 ^ d * (s / 2 ^ d : Nat) + (s % 2 ^ d : Nat) := by
      exact_mod_cast hsplit.symm
    have hrest : (0 : ℚ) < (s % 2 ^ d : Nat) := by exact_mod_cast Nat.pos_of_ne_zero hzero
    have hrest' : ((s % 2 ^ d : Nat) : ℚ) < 2 ^ d := by exact_mod_cast hless
    rw [Lib.jam, if_neg hzero]
    refine odd ?_ ?_
    · rw [lt_div_iff₀ hpos]; linarith
    · rw [div_lt_iff₀ hpos]; linarith
  have hquotient : (q * 2 : ℚ) < v / 2 ^ d ∧ v / 2 ^ d < (q + 1) * 2 := by
    rw [lt_div_iff₀ hpos, div_lt_iff₀ hpos]
    rw [pow_succ] at hlow hhigh
    constructor <;> linarith
  have hfloor : q * 2 ≤ s / 2 ^ d := by
    rw [Nat.le_div_iff_mul_le hpos', mul_assoc, ← pow_succ']
    exact hlow'.le
  have hceil : s / 2 ^ d < q * 2 + 2 := by
    rw [Nat.div_lt_iff_lt_mul hpos', show q * 2 + 2 = (q + 1) * 2 by ring, mul_assoc, ← pow_succ']
    exact hhigh'
  unfold Lib.jam
  refine .inr ⟨q, by simpa using hquotient.1, by simpa using hquotient.2, ?_, ?_⟩
  · split_ifs with hzero
    · rw [hzero, add_zero] at hsplit
      rcases Nat.eq_or_lt_of_le hfloor with heq | hlt
      · rw [← hsplit, ← heq, pow_succ', ← mul_assoc, mul_comm] at hlow'
        exact absurd hlow' (lt_irrefl _)
      · simpa using hlt
    · omega
  · split_ifs <;> omega

theorem jam_far {d : Nat} (h : s < 2 ^ d) : Lib.jam s d = if s = 0 then 0 else 1 := by
  unfold Lib.jam
  rw [Nat.mod_eq_of_lt h, Nat.div_eq_of_lt h]

theorem add (k : Nat) (h : Sticky m v s) : Sticky m ((k * 2 ^ m : Nat) + v) (k * 2 ^ m + s) := by
  rcases h with rfl | ⟨q, hlow, hhigh, hlow', hhigh'⟩
  · exact .inl (by push_cast; rfl)
  refine .inr ⟨k + q, ?_, ?_, ?_, ?_⟩
  · push_cast; linarith
  · push_cast; linarith
  · rw [add_mul]; omega
  · rw [add_assoc, add_mul]; omega

theorem sub {k : Nat} (hless : s < k * 2 ^ m) (h : Sticky m v s) :
    Sticky m ((k * 2 ^ m : Nat) - v) (k * 2 ^ m - s) := by
  rcases h with rfl | ⟨q, hlow, hhigh, hlow', hhigh'⟩
  · refine .inl ?_
    rw [Nat.cast_sub hless.le]
  have hq : q < k := Nat.lt_of_mul_lt_mul_right (hlow'.trans hless)
  obtain ⟨j, rfl⟩ := Nat.exists_eq_add_of_lt hq
  refine .inr ⟨j, ?_, ?_, ?_, ?_⟩
  · push_cast; linarith
  · push_cast; linarith
  · have hsum : (q + j + 1) * 2 ^ m = j * 2 ^ m + (q + 1) * 2 ^ m := by ring
    omega
  · have hsum : (q + j + 1) * 2 ^ m = (j + 1) * 2 ^ m + q * 2 ^ m := by ring
    omega

theorem lt_iff (h : Sticky m v s) (k : Nat) : v < (k * 2 ^ m : Nat) ↔ s < k * 2 ^ m := by
  rcases h with rfl | ⟨q, hlow, hhigh, hlow', hhigh'⟩
  · exact Nat.cast_lt
  constructor
  · intro hv
    have hq : q < k := by
      have hchain : (q * 2 ^ m : ℚ) < k * 2 ^ m := by push_cast at hv; linarith
      have hchain' : q * 2 ^ m < k * 2 ^ m := by exact_mod_cast hchain
      exact Nat.lt_of_mul_lt_mul_right hchain'
    exact hhigh'.trans_le (Nat.mul_le_mul_right _ hq)
  intro hs
  have hq : q < k := Nat.lt_of_mul_lt_mul_right (hlow'.trans hs)
  have hle : ((q + 1) * 2 ^ m : ℚ) ≤ (k * 2 ^ m : Nat) := by
    exact_mod_cast Nat.mul_le_mul_right (2 ^ m) hq
  linarith

theorem eq_iff (h : Sticky m v s) (k : Nat) : v = (k * 2 ^ m : Nat) ↔ s = k * 2 ^ m := by
  rcases h with rfl | ⟨q, hlow, hhigh, hlow', hhigh'⟩
  · exact Nat.cast_inj
  constructor
  · rintro rfl
    have hlow : q * 2 ^ m < k * 2 ^ m := by exact_mod_cast hlow
    have hhigh : k * 2 ^ m < (q + 1) * 2 ^ m := by exact_mod_cast hhigh
    have := Nat.lt_of_mul_lt_mul_right hlow
    have := Nat.lt_of_mul_lt_mul_right hhigh
    omega
  rintro rfl
  have := Nat.lt_of_mul_lt_mul_right hlow'
  have := Nat.lt_of_mul_lt_mul_right hhigh'
  omega

theorem le_iff (h : Sticky m v s) (k : Nat) : ((k * 2 ^ m : Nat) : ℚ) ≤ v ↔ k * 2 ^ m ≤ s := by
  rw [← not_lt, h.lt_iff k, not_lt]

theorem pos (h : Sticky m v s) (hs : 0 < s) : 0 < v := by
  have hlt := h.lt_iff 0
  have heq := h.eq_iff 0
  rw [zero_mul, Nat.cast_zero] at hlt heq
  rcases lt_trichotomy v 0 with hneg | hzero | hpos
  · exact absurd (hlt.mp hneg) (Nat.not_lt_zero s)
  · exact absurd (heq.mp hzero) hs.ne'
  · exact hpos

end Sticky
end Dyn.Lib
