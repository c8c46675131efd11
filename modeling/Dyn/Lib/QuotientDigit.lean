import Mathlib.Tactic.Linarith
import Mathlib.Tactic.Ring

/-!
# One digit of a long division

The dividend `w` and the divisor `v` are known by their digits at the top, the dividend by three and
the divisor by two; `p` is the weight of the lowest of these digits.  An estimate of the digit that is
not too large for the known digits is at most one too large for all of them.
-/

namespace Dyn.Lib
namespace QuotientDigit

section

variable {p v w vtop wtop e : Nat}

theorem digit_mul_le (hv : vtop * p ≤ v) (hw : w < (wtop + 1) * p) : w / v * vtop ≤ wtop := by
  have hle : w / v * vtop * p ≤ w :=
    calc w / v * vtop * p = w / v * (vtop * p) := by ring
      _ ≤ w / v * v := Nat.mul_le_mul_left _ hv
      _ ≤ w := Nat.div_mul_le_self w v
  have hlt : w / v * vtop * p < (wtop + 1) * p := lt_of_le_of_lt hle hw
  exact Nat.le_of_lt_succ (Nat.lt_of_mul_lt_mul_right hlt)

/-- An estimate that is too large for the known digits is too large. -/
theorem digit_lt (hv : vtop * p ≤ v) (hw : w < (wtop + 1) * p) (hlarge : wtop < e * vtop) :
    w / v < e := by
  have hle := digit_mul_le hv hw
  exact Nat.lt_of_mul_lt_mul_right (lt_of_le_of_lt hle hlarge)

/-- **An estimate that fits the known digits is at most one too large**, as the digit is below the
divisor's known digits. -/
theorem estimate_le (hv : v < (vtop + 1) * p) (hw : wtop * p ≤ w) (hpos : 0 < v) (hdigit : w / v < vtop)
    (hfits : e * vtop ≤ wtop) : e ≤ w / v + 1 := by
  by_contra hlarge
  have hmore : (w / v + 2) * vtop ≤ wtop := (Nat.mul_le_mul_right _ (by omega)).trans hfits
  have hlow : (w / v + 2) * vtop * p ≤ w := (Nat.mul_le_mul_right _ hmore).trans hw
  have hhigh : w < (w / v + 1) * v := by
    rw [mul_comm]
    exact Nat.lt_mul_div_succ w hpos
  have hbound : (w / v + 1) * v ≤ (w / v + 1) * ((vtop + 1) * p) := Nat.mul_le_mul_left _ hv.le
  nlinarith

end

section

variable {b top next w2 w1 w0 e r : Nat}

theorem digit_le_estimate {q : Nat} (htop : 0 < top) (hw0 : w0 < b)
    (hfits : q * (top * b + next) ≤ (w2 * b + w1) * b + w0) : q ≤ (w2 * b + w1) / top := by
  refine (Nat.le_div_iff_mul_le htop).mpr ?_
  have hlt : q * top * b < (w2 * b + w1 + 1) * b := by nlinarith
  exact Nat.le_of_lt_succ (Nat.lt_of_mul_lt_mul_right hlt)

/-- An estimate with its rest fits the known digits as the test with the next digit says. -/
theorem fits_iff (hrest : e * top + r = w2 * b + w1) :
    e * (top * b + next) ≤ (w2 * b + w1) * b + w0 ↔ e * next ≤ r * b + w0 := by
  have hsplit : e * (top * b + next) + r * b = (w2 * b + w1) * b + e * next := by
    rw [← hrest]
    ring
  omega

/-- Once the rest is not a digit any more, the estimate fits, and is a digit. -/
theorem fits_of_rest (hrest : e * top + r = w2 * b + w1) (hw : w2 ≤ top) (hw1 : w1 < b) (hnext : next < b) (hr : b ≤ r) : e < b ∧ e * (top * b + next) ≤ (w2 * b + w1) * b + w0 := by
  have hlt : e < b := by
    have hmul : e * top < b * top := by nlinarith
    exact Nat.lt_of_mul_lt_mul_right hmul
  refine ⟨hlt, (fits_iff hrest).mpr ?_⟩
  have hproduct : e * next ≤ b * b := Nat.mul_le_mul hlt.le hnext.le
  have hroom : b * b ≤ r * b := Nat.mul_le_mul_right _ hr
  omega

/-- The digit at the top of the dividend is not above that of the divisor. -/
theorem top_le {p v w vlow : Nat} (hv : v = (top * b + next) * p + vlow) (hlow : vlow < p) (hnext : next < b)
    (hw : w2 * b * b * p ≤ w) (hless : w < b * v) (hb : 0 < b) : w2 ≤ top := by
  by_contra hlarge
  have hv' : v < (top + 1) * b * p := by
    rw [hv]
    nlinarith
  have hmore : (top + 1) * b * b * p ≤ w2 * b * b * p := by
    have hle : top + 1 ≤ w2 := by omega
    exact Nat.mul_le_mul_right _ (Nat.mul_le_mul_right _ (Nat.mul_le_mul_right _ hle))
  have hless' : b * v < b * ((top + 1) * b * p) := Nat.mul_lt_mul_of_pos_left hv' hb
  have heq : b * ((top + 1) * b * p) = (top + 1) * b * b * p := by ring
  omega

end

end QuotientDigit
end Dyn.Lib
