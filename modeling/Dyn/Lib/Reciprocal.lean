import Mathlib.Tactic

/-!
# Division by multiplication

A reciprocal of a divisor with `k` binary places is a little too large.  Where the excess is
small against the dividends, the product without its last `k` places is the quotient; for a
negative dividend it is one less than the quotient that truncates.
-/

namespace Dyn.Lib

/-- `m` is a reciprocal of `d` with `k` places, for dividends up to `2 ^ n`. -/
structure Reciprocal (d k n m : Nat) : Prop where
  above : 2 ^ k < m * d
  near : m * d * 2 ^ n ≤ 2 ^ k * (2 ^ n + 1)

namespace Reciprocal

variable {d k n m : Nat}

theorem divisor_pos (h : Reciprocal d k n m) : 0 < d := by
  rcases Nat.eq_zero_or_pos d with rfl | hpos
  · exact absurd h.above (by simp)
  · exact hpos

theorem product_le (h : Reciprocal d k n m) {x : Nat} (hx : x ≤ 2 ^ n) :
    x * (m * d) ≤ x * 2 ^ k + 2 ^ k := by
  have hmul : x * (m * d) * 2 ^ n ≤ (x * 2 ^ k + 2 ^ k) * 2 ^ n := by
    calc x * (m * d) * 2 ^ n = x * (m * d * 2 ^ n) := by ring
      _ ≤ x * (2 ^ k * (2 ^ n + 1)) := Nat.mul_le_mul_left _ h.near
      _ = x * 2 ^ k * 2 ^ n + x * 2 ^ k := by ring
      _ ≤ x * 2 ^ k * 2 ^ n + 2 ^ n * 2 ^ k := Nat.add_le_add_left (Nat.mul_le_mul_right _ hx) _
      _ = (x * 2 ^ k + 2 ^ k) * 2 ^ n := by ring
  exact Nat.le_of_mul_le_mul_right hmul (Nat.two_pow_pos n)

theorem div_eq (h : Reciprocal d k n m) {x : Nat} (hx : x < 2 ^ n) : x * m / 2 ^ k = x / d := by
  have hd := h.divisor_pos
  have hrest := Nat.mod_lt x hd
  have hsplit := Nat.div_add_mod x d
  have hstrict : x * (m * d) < x * 2 ^ k + 2 ^ k := by
    have hmore := h.product_le (x := x + 1) (by omega)
    have habove := h.above
    rw [add_mul, add_mul, one_mul, one_mul] at hmore
    omega
  rw [Nat.div_eq_iff (Nat.two_pow_pos k)]
  constructor
  · refine Nat.le_of_mul_le_mul_right ?_ hd
    calc x / d * 2 ^ k * d = d * (x / d) * 2 ^ k := by ring
      _ ≤ x * 2 ^ k := Nat.mul_le_mul_right _ (by omega)
      _ ≤ x * (m * d) := Nat.mul_le_mul_left _ h.above.le
      _ = x * m * d := by ring
  have hupper : x * m * d < (x / d * 2 ^ k + 2 ^ k) * d := by
    calc x * m * d = x * (m * d) := by ring
      _ < x * 2 ^ k + 2 ^ k := hstrict
      _ = (x + 1) * 2 ^ k := by ring
      _ ≤ (d * (x / d) + d) * 2 ^ k := Nat.mul_le_mul_right _ (by omega)
      _ = (x / d * 2 ^ k + 2 ^ k) * d := by ring
  have := Nat.lt_of_mul_lt_mul_right hupper
  omega

theorem neg_ediv_eq (h : Reciprocal d k n m) {y : Nat} (hpos : 0 < y) (hy : y ≤ 2 ^ n) :
    -((y * m : Nat) : Int) / 2 ^ k = -(y / d : Nat) - 1 := by
  have hd := h.divisor_pos
  have hrest := Nat.mod_lt y hd
  have hsplit := Nat.div_add_mod y d
  have hlow : y / d * 2 ^ k < y * m := by
    refine Nat.lt_of_mul_lt_mul_right (a := d) ?_
    calc y / d * 2 ^ k * d = d * (y / d) * 2 ^ k := by ring
      _ ≤ y * 2 ^ k := Nat.mul_le_mul_right _ (by omega)
      _ < y * (m * d) := Nat.mul_lt_mul_of_pos_left h.above hpos
      _ = y * m * d := by ring
  have hhigh : y * m ≤ (y / d + 1) * 2 ^ k := by
    refine Nat.le_of_mul_le_mul_right ?_ hd
    calc y * m * d = y * (m * d) := by ring
      _ ≤ y * 2 ^ k + 2 ^ k := h.product_le hy
      _ = (y + 1) * 2 ^ k := by ring
      _ ≤ (d * (y / d) + d) * 2 ^ k := Nat.mul_le_mul_right _ (by omega)
      _ = (y / d + 1) * 2 ^ k * d := by ring
  have hunit : (0 : Int) < 2 ^ k := by positivity
  refine le_antisymm ?_ ?_
  · refine Int.le_of_lt_add_one (Int.ediv_lt_of_lt_mul hunit ?_)
    have : ((y / d * 2 ^ k : Nat) : Int) < (y * m : Nat) := by exact_mod_cast hlow
    push_cast at this ⊢
    linarith
  refine (Int.le_ediv_iff_mul_le hunit).mpr ?_
  have : ((y * m : Nat) : Int) ≤ ((y / d + 1) * 2 ^ k : Nat) := by exact_mod_cast hhigh
  push_cast at this ⊢
  linarith

/-- The rounded-up quotient of `2 ^ k` is a reciprocal, where the remainder is large enough. -/
theorem of_remainder (hd : 0 < d) (h : (d - 2 ^ k % d) * 2 ^ n ≤ 2 ^ k) :
    Reciprocal d k n (2 ^ k / d + 1) := by
  have hrest := Nat.mod_lt (2 ^ k) hd
  have hsplit := Nat.div_add_mod (2 ^ k) d
  have hproduct : (2 ^ k / d + 1) * d = 2 ^ k + (d - 2 ^ k % d) := by
    rw [add_mul, one_mul, mul_comm (2 ^ k / d)]
    omega
  constructor
  · rw [hproduct]
    omega
  · rw [hproduct, add_mul, mul_add, mul_one]
    omega

/-- One place more is enough for any divisor of at most `k - n` bits. -/
theorem of_places (hd : 0 < d) (h : d * 2 ^ n ≤ 2 ^ k) : Reciprocal d k n (2 ^ k / d + 1) :=
  of_remainder hd (le_trans (Nat.mul_le_mul_right _ (Nat.sub_le _ _)) h)

end Reciprocal

theorem two_pow_succ_div (d k : Nat) (hd : 0 < d) :
    2 ^ (k + 1) / d = 2 * (2 ^ k / d) + if d ≤ 2 * (2 ^ k % d) then 1 else 0 := by
  have hrest := Nat.mod_lt (2 ^ k) hd
  have hsplit := Nat.div_add_mod (2 ^ k) d
  have hdouble : 2 ^ (k + 1) = 2 * (2 ^ k % d) + d * (2 * (2 ^ k / d)) := by
    rw [pow_succ', mul_left_comm]
    omega
  rw [hdouble, Nat.add_mul_div_left _ _ hd]
  split_ifs with hmore
  · rw [Nat.div_eq_of_lt_le (k := 1) (by omega) (by omega), add_comm]
  · rw [Nat.div_eq_of_lt (by omega), add_comm]

/-- A negative number is raised, so that rounding down truncates. -/
theorem tdiv_two_pow (x : Int) (log : Nat) :
    (x + if x < 0 then 2 ^ log - 1 else 0) / 2 ^ log = x.tdiv (2 ^ log) := by
  have hpos : (0 : Int) < 2 ^ log := by positivity
  split_ifs with hneg
  · obtain ⟨y, hy⟩ := Int.eq_ofNat_of_zero_le (show 0 ≤ -x by omega)
    obtain rfl : x = -(y : Int) := by omega
    rw [Int.neg_tdiv, Int.tdiv_eq_ediv_of_nonneg (by omega)]
    refine le_antisymm ?_ ?_
    · refine Int.le_of_lt_add_one (Int.ediv_lt_of_lt_mul hpos ?_)
      have hlt := Int.lt_ediv_add_one_mul_self (y : Int) hpos
      have hge := Int.ediv_mul_le (y : Int) hpos.ne'
      nlinarith
    refine (Int.le_ediv_iff_mul_le hpos).mpr ?_
    have hlt := Int.lt_ediv_add_one_mul_self (y : Int) hpos
    nlinarith
  · rw [add_zero, Int.tdiv_eq_ediv_of_nonneg (by omega)]

theorem ones_div {a b : Nat} (ha : 0 < a) (hb : 0 < b) : (a * b - 1) / a = b - 1 := by
  obtain ⟨c, rfl⟩ := Nat.exists_eq_add_of_le hb
  rw [Nat.mul_add, Nat.mul_one, Nat.div_eq_of_lt_le (k := c)]
  · omega
  · rw [Nat.mul_comm]
    omega
  · rw [add_mul, one_mul, mul_comm c]
    omega

end Dyn.Lib
