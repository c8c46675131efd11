import Dyn.Support.Operations

/-!
# Remainder and comparison of soft float

The remainder is exact (`softRem_spec`): it is a multiple of the smallest number and has no more
bits than the divisor.  The comparison orders what the patterns denote (`softCompare_spec`).
-/

namespace Dyn.SoftFloat

open Mem (Panic)
open Lib FloatFormat

variable {f : SoftFormat} {F : FloatFormat}

theorem reduce_spec {r d : Nat} (hr : r < 2 * d) : reduce r d = .ok (r % d) := by
  unfold reduce
  split_ifs with hge
  · rw [subtract_ok hge, Nat.mod_eq_sub_mod hge, Nat.mod_eq_of_lt (by omega)]
  · rw [Nat.mod_eq_of_lt (by omega)]

variable {y : SoftParts} {a b : Nat}

/-- **The long remainder,** whose rounds are the binary places between the exponents. -/
theorem remLoop_spec (hy : y.significand < 2 ^ 53) (hlow : -2 ^ 32 ≤ y.exponent) (n : Nat) :
    ∀ r : Nat, r < 2 * y.significand → y.exponent + n ≤ 2 ^ 32 →
    (remLoop y r (y.exponent + n) = .ok none ∧ r * 2 ^ n % y.significand = 0) ∨
      ∃ r', remLoop y r (y.exponent + n) = .ok (some (r', y.exponent)) ∧ r' < 2 * y.significand ∧
        r' % y.significand = r * 2 ^ n % y.significand := by
  induction n with
  | zero =>
    intro r hr _
    refine .inr ⟨r, ?_, hr, by simp⟩
    rw [remLoop, if_neg (by simp), Nat.cast_zero, add_zero]
  | succ n ih =>
    intro r hr hhigh
    have hmod := Nat.mod_lt r (show y.significand > 0 by omega)
    have hnext : r % y.significand * 2 ^ 1 * 2 ^ n % y.significand =
        r * 2 ^ (n + 1) % y.significand := by
      rw [mul_assoc, ← pow_add, add_comm 1, Nat.mod_mul_mod]
    rw [remLoop, if_pos (by push_cast; omega), reduce_spec hr, ok_bind]
    split_ifs with hzero
    · refine .inl ⟨rfl, ?_⟩
      rw [Nat.mul_mod, hzero, zero_mul, Nat.zero_mod]
    rw [shiftLeft_ok (by decide) (by omega), ok_bind, i64_ok (by push_cast; omega)
      (by push_cast; omega), ok_bind,
      show y.exponent + (n + 1 : Nat) - 1 = y.exponent + n by push_cast; ring, ← hnext]
    exact ih _ (by omega) (by omega)

theorem remainder_denotes {s : Bool} {m n : Nat} (hn : n < F.infinity) (hpos : 0 < F.value n)
    {result : Nat} (h : F.Rounded s (F.value m - ⌊F.value m / F.value n⌋ * F.value n) result) :
    F.Denotes (.finite s (F.value m - ⌊F.value m / F.value n⌋ * F.value n)) result := by
  obtain ⟨bits, hless, hbits⟩ := exists_value_remainder (m := m) hpos
  rw [← hbits] at h ⊢
  exact h.denotes (hless.trans hn)

theorem softPack_zero (sign : Nat) (e : Int) (f : SoftFormat) : softPack sign e 0 f = .ok sign :=
  rfl

theorem remParts_spec (h : Describes f F) {s : Bool} {v w : ℚ} {x : SoftParts}
    (hsign : x.sign = F.signOf s) (hv : Normal F v x) (hw : Normal F w y)
    (horder : y.exponent ≤ x.exponent) :
    ∃ result, remParts x y f = .ok result ∧ F.Rounded s (v - ⌊v / w⌋ * w) result := by
  have hbias := h.bias_le
  have hbits := h.le_bits
  have hpow : 2 ^ F.fraction ≤ 2 ^ 52 := by simpa using h.pow_fraction_le 0
  obtain ⟨hvalue, -, hhigh, -, hmost⟩ := hv
  obtain ⟨hvalue', hlow', hhigh', hleast', -⟩ := hw
  obtain ⟨n, hn⟩ := Int.eq_ofNat_of_zero_le (show 0 ≤ x.exponent - y.exponent by omega)
  have hexponent : x.exponent = y.exponent + n := by omega
  -- The remainder of the significands at the exponent of the divisor.
  have hremainder : v - ⌊v / w⌋ * w = (x.significand * 2 ^ n % y.significand : Nat) *
      2 ^ (y.exponent - F.fraction) := by
    have hquotient : v / w = (x.significand * 2 ^ n : Nat) / (y.significand : Nat) := by
      rw [hvalue, hvalue', hexponent, show y.exponent + n - F.fraction = y.exponent - F.fraction + n by
        ring, zpow_add₀ two_ne_zero, zpow_natCast]
      push_cast
      field_simp
    have hfloor := Rat.floor_natCast_div_natCast (x.significand * 2 ^ n) y.significand
    rw [← Int.natCast_ediv] at hfloor
    have hsplit : ((x.significand * 2 ^ n : Nat) : ℚ) =
        y.significand * (x.significand * 2 ^ n / y.significand : Nat) +
          (x.significand * 2 ^ n % y.significand : Nat) := by
      exact_mod_cast (Nat.div_add_mod (x.significand * 2 ^ n) y.significand).symm
    have hv' : v = (x.significand * 2 ^ n : Nat) * 2 ^ (y.exponent - F.fraction) := by
      rw [hvalue, hexponent, show y.exponent + n - F.fraction = n + (y.exponent - F.fraction) by ring,
        zpow_add₀ two_ne_zero, zpow_natCast]
      push_cast
      ring
    rw [hquotient, hfloor, Int.cast_natCast, hv', hvalue', hsplit]
    ring
  rw [hremainder]
  unfold remParts
  rw [hexponent]
  rcases remLoop_spec (y := y) (by omega) (by omega) n x.significand (by omega) (by omega) with
    ⟨hloop, hzero⟩ | ⟨r, hloop, hr, hmod⟩
  · rw [hloop, hzero, Nat.cast_zero, zero_mul, hsign]
    exact ⟨_, rfl, rounded_zero F s⟩
  have hless := Nat.mod_lt r (show y.significand > 0 by omega)
  rw [hloop, ← hmod, ok_bind]
  dsimp only
  rw [reduce_spec hr, ok_bind, shiftLeft_ok (by decide) (by omega), ok_bind, hsign]
  rcases Nat.eq_zero_or_pos (r % y.significand) with hzero | hpos
  · rw [hzero, zero_mul, softPack_zero, Nat.cast_zero, zero_mul]
    exact ⟨_, rfl, rounded_zero F s⟩
  obtain ⟨result, hpack, hround⟩ := softPack_spec h s (Sticky.refl 1 (r % y.significand * 2 ^ 3))
    (e := y.exponent) (by omega) (by omega) (.inl rfl) (by omega) (by omega)
  refine ⟨result, hpack, ?_⟩
  have hunit : ((r % y.significand * 2 ^ 3 : Nat) : ℚ) * 2 ^ (y.exponent - F.fraction - 3) =
      (r % y.significand : Nat) * 2 ^ (y.exponent - F.fraction) := by
    rw [zpow_sub₀ two_ne_zero _ 3]
    push_cast
    field_simp
  rw [← hunit]
  exact hround

theorem Normal.lt {v w : ℚ} {x : SoftParts} (hv : Normal F v x) (hw : Normal F w y)
    (h : x.exponent < y.exponent) : v < w := by
  have hhigh : (x.significand : ℚ) < 2 * 2 ^ F.fraction := by exact_mod_cast hv.high
  have hlow : (2 : ℚ) ^ F.fraction ≤ y.significand := by exact_mod_cast hw.low
  rw [hv.value, hw.value]
  calc (x.significand : ℚ) * 2 ^ (x.exponent - F.fraction)
      < 2 * 2 ^ F.fraction * 2 ^ (x.exponent - F.fraction) := by gcongr
    _ = 2 ^ F.fraction * 2 ^ (x.exponent + 1 - F.fraction) := by
        rw [show x.exponent + 1 - F.fraction = x.exponent - F.fraction + 1 by ring,
          zpow_add_one₀ two_ne_zero]
        ring
    _ ≤ 2 ^ F.fraction * 2 ^ (y.exponent - F.fraction) := by
        gcongr
        · exact one_le_two
        · omega
    _ ≤ y.significand * 2 ^ (y.exponent - F.fraction) := by gcongr

theorem softRem_spec (h : Describes f F) (ha : a < 2 * F.signBit) (hb : b < 2 * F.signBit) :
    ∃ result, softRem a b f = .ok result ∧ F.Remainder (F.datum a) (F.datum b) result := by
  obtain ⟨x, hx, hunpack⟩ := softUnpack_spec h ha
  obtain ⟨y, hy, hunpack'⟩ := softUnpack_spec h hb
  unfold softRem
  rw [hx, ok_bind, hy, ok_bind]
  generalize hda : F.datum a = da at *
  generalize hdb : F.datum b = db at *
  cases hunpack' with
  | nan hkind' =>
    rw [if_pos (.inr (.inl hkind')), h.nan_ok]
    exact ⟨_, rfl, by cases da <;> rfl⟩
  | zero hkind' hsign' hsig' =>
    rw [if_pos (.inr (.inr ⟨hkind', hsig'⟩)), h.nan_ok]
    exact ⟨_, rfl, by cases da <;> simp [FloatFormat.Remainder]⟩
  | infinite hkind' hsign' =>
    cases hunpack with
    | nan hkind | infinite hkind _ =>
      rw [if_pos (.inl (by simp [hkind])), h.nan_ok]
      exact ⟨_, rfl, rfl⟩
    | zero hkind _ _ | normal hkind _ _ =>
      rw [if_neg (by simp [hkind, hkind']), if_pos (.inl hkind')]
      exact ⟨_, rfl, ha, hda⟩
  | @normal t w y hkind' hsign' hnormal' =>
    cases hunpack with
    | nan hkind | infinite hkind _ =>
      rw [if_pos (.inl (by simp [hkind])), h.nan_ok]
      exact ⟨_, rfl, rfl⟩
    | @zero s x hkind hsign hsig =>
      rw [if_neg (by simp [hkind, hkind', hnormal'.ne_zero]), if_pos (.inr hsig)]
      refine ⟨_, rfl, ?_⟩
      rw [FloatFormat.Remainder, if_neg hnormal'.pos.ne', zero_div, Int.floor_zero, Int.cast_zero,
        zero_mul, sub_zero]
      exact ⟨ha, hda⟩
    | @normal s v x hkind hsign hnormal =>
      rw [if_neg (by simp [hkind, hkind', hnormal'.ne_zero]),
        if_neg (by simp [hkind', hnormal.ne_zero])]
      suffices hsuffices : ∃ result, (if x.exponent < y.exponent then pure a
          else remParts x y f) = Except.ok result ∧
          F.Denotes (.finite s (v - ⌊v / w⌋ * w)) result by
        obtain ⟨result, hresult, hdenotes⟩ := hsuffices
        exact ⟨result, hresult, by rwa [FloatFormat.Remainder, if_neg hnormal'.pos.ne']⟩
      split_ifs with hless
      · have hfloor : ⌊v / w⌋ = 0 := by
          rw [Int.floor_eq_zero_iff]
          exact ⟨(div_pos hnormal.pos hnormal'.pos).le,
            (div_lt_one hnormal'.pos).mpr (hnormal.lt hnormal' hless)⟩
        rw [hfloor, Int.cast_zero, zero_mul, sub_zero]
        exact ⟨_, rfl, ha, hda⟩
      obtain ⟨result, hrem, hround⟩ := remParts_spec h hsign hnormal hnormal' (by omega)
      obtain ⟨-, hv, _⟩ := value_of_datum hda
      obtain ⟨hn, hw, _⟩ := value_of_datum hdb
      have hpos := hnormal'.pos
      rw [hv, hw] at hround ⊢
      exact ⟨result, hrem, remainder_denotes hn (hw ▸ hpos) hround⟩

/-- What the code decides on the signs and the magnitudes is the order of the places. -/
theorem place_order (ha : a < 2 * F.signBit) (hb : b < 2 * F.signBit) :
    let order : Int :=
      if a = b ∨ a % F.signBit = 0 ∧ b % F.signBit = 0 then 0
      else if decide (F.signBit ≤ a) ≠ decide (F.signBit ≤ b) then if F.signBit ≤ a then -1 else 1
      else if decide (a % F.signBit < b % F.signBit) ≠ decide (F.signBit ≤ a) then -1 else 1
    order = -1 ∧ F.place a < F.place b ∨ order = 0 ∧ F.place a = F.place b ∨
      order = 1 ∧ F.place b < F.place a := by
  have hlow {n : Nat} (h : ¬ F.signBit ≤ n) : n % F.signBit = n := Nat.mod_eq_of_lt (by omega)
  have hhigh {n : Nat} (hn : n < 2 * F.signBit) (h : F.signBit ≤ n) :
      n % F.signBit = n - F.signBit := by
    rw [Nat.mod_eq_sub_mod h, Nat.mod_eq_of_lt (by omega)]
  unfold place
  by_cases hsa : F.signBit ≤ a
  · rw [hhigh ha hsa]
    by_cases hsb : F.signBit ≤ b
    · rw [hhigh hb hsb]
      simp only [hsa, hsb, if_true, decide_true, ne_eq, not_true, if_false]
      by_cases hless : a - F.signBit < b - F.signBit
      · simp only [hless, decide_true, not_true, if_false]
        split_ifs <;> omega
      · simp only [hless, decide_false, Bool.false_eq_true, not_false_iff, if_true]
        split_ifs <;> omega
    rw [hlow hsb]
    simp only [hsa, hsb, if_true, decide_true, decide_false, ne_eq, Bool.true_eq_false,
      not_false_iff, if_false]
    split_ifs <;> omega
  rw [hlow hsa]
  by_cases hsb : F.signBit ≤ b
  · rw [hhigh hb hsb]
    simp only [hsa, hsb, if_true, decide_true, decide_false, ne_eq, Bool.false_eq_true,
      not_false_iff, if_false]
    split_ifs <;> omega
  rw [hlow hsb]
  simp only [hsa, hsb, decide_false, ne_eq, not_true, if_false]
  by_cases hless : a < b
  · simp only [hless, decide_true, Bool.true_eq_false, not_false_iff, if_true]
    split_ifs <;> omega
  · simp only [hless, decide_false, not_true, if_false]
    split_ifs <;> omega

theorem softCompare_spec (h : Describes f F) (ha : a < 2 * F.signBit) (hb : b < 2 * F.signBit) :
    ∃ result, softCompare a b f = .ok result ∧ (F.datum a).Compared (F.datum b) result := by
  have hmask (n : Nat) : n &&& (f.sign - 1) = n % F.signBit := by
    rw [h.sign]
    exact and_pred_two_pow n _
  have hnegative {n : Nat} (hn : n < 2 * F.signBit) : n &&& f.sign ≠ 0 ↔ F.signBit ≤ n := by
    rw [h.and_sign hn, Ne, signOf_eq_zero]
    simp
  unfold softCompare
  rw [subtract_ok (by rw [h.sign]; omega), ok_bind, hmask, hmask, h.infinity]
  simp only [hnegative ha, hnegative hb]
  split
  · rename_i hnan
    exact ⟨2, rfl, compared_nan hnan⟩
  refine ⟨_, ?_, compared_of_place (by omega) (by omega) (place_order ha hb)⟩
  split
  · rw [pure_ok]
  split
  · rw [pure_ok]
    simp
  · rw [pure_ok]

end Dyn.SoftFloat
