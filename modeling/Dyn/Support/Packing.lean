import Dyn.Lib.FloatFormat
import Dyn.Support.SoftFloat

/-!
# Unpacking and rounding

Every operation takes its operands apart (`softUnpack_spec`) and hands a significand with three
rounding bits to `softPack`, which rounds the number it stands for (`softPack_spec`).
-/

namespace Dyn.SoftFloat

open Mem (Panic)
open Lib

theorem ok_bind {α β : Type} (a : α) (f : α → Except Panic β) : (Except.ok a >>= f) = f a := rfl

theorem pure_ok {α : Type} (a : α) : (pure a : Except Panic α) = .ok a := rfl

variable {n : Nat}

theorem u64_ok (h : n < 2 ^ 64) : u64 n = .ok n := if_pos h

theorem subtract_ok {a b : Nat} (h : b ≤ a) : subtract a b = .ok (a - b) := if_pos h

theorem i64_ok {n : Int} (hlow : -2 ^ 63 ≤ n) (hhigh : n < 2 ^ 63) : i64 n = .ok n :=
  if_pos ⟨hlow, hhigh⟩

variable {value distance : Nat}

theorem shiftLeft_ok (hdistance : distance < 64) (h : value * 2 ^ distance < 2 ^ 64) :
    shiftLeft value distance = .ok (value * 2 ^ distance) := by
  rw [shiftLeft, if_pos hdistance, Nat.shiftLeft_eq, u64_ok h]

theorem shiftRight_ok (hdistance : distance < 64) :
    shiftRight value distance = .ok (value / 2 ^ distance) := by
  rw [shiftRight, if_pos hdistance, Nat.shiftRight_eq_div_pow]

theorem shiftLeft_one_ok (hdistance : distance < 64) :
    shiftLeft 1 distance = .ok (2 ^ distance) := by
  rw [shiftLeft_ok hdistance (by rw [one_mul]; exact Nat.pow_lt_pow_right (by decide) hdistance),
    one_mul]

theorem castU64_natCast (h : n < 2 ^ 64) : castU64 n = n := by
  unfold castU64
  omega

theorem castI64_of_lt (h : n < 2 ^ 63) : castI64 n = n := if_pos h

theorem and_pred_two_pow (n k : Nat) : n &&& (2 ^ k - 1) = n % 2 ^ k :=
  Nat.and_two_pow_sub_one_eq_mod n k

theorem and_mul_two_pow (n m k : Nat) : n &&& (m * 2 ^ k) = (n / 2 ^ k &&& m) * 2 ^ k := by
  apply Nat.eq_of_testBit_eq
  intro i
  rw [Nat.testBit_and, Nat.testBit_mul_two_pow, Nat.testBit_mul_two_pow, Nat.testBit_and,
    Nat.testBit_div_two_pow]
  by_cases hi : k ≤ i
  · rw [show i - k + k = i by omega]
    simp [hi]
  · simp [hi]

theorem mul_two_pow_or {k : Nat} (m : Nat) (h : n < 2 ^ k) : m * 2 ^ k ||| n = m * 2 ^ k + n := by
  rw [mul_comm, Nat.two_pow_add_eq_or_of_lt h]

/-- The record of a format of at most 64 bits. -/
structure Describes (f : SoftFormat) (F : FloatFormat) : Prop where
  fraction : f.fraction = F.fraction
  bias : f.bias = F.bias
  sign : f.sign = F.signBit
  infinity : f.infinity = F.infinity
  four_le : 4 ≤ F.fraction
  le_bits : F.fraction ≤ 52
  bias_le : F.bias ≤ 1023
  fits : F.exponentBits + F.fraction ≤ 63
  top : 63 ≤ F.bias

/-- The format that a record of the source stands for. -/
def binary (wide : Bool) : FloatFormat := if wide then binary64 else binary32

theorem softFormat_describes (wide : Bool) : Describes (softFormat wide) (binary wide) := by
  cases wide
  case false =>
    exact ⟨rfl, rfl, rfl, rfl, by decide, by decide, by decide, by decide, by decide⟩
  case true =>
    exact ⟨rfl, rfl, rfl, rfl, by decide, by decide, by decide, by decide, by decide⟩

variable {f : SoftFormat} {F : FloatFormat}

namespace Describes

theorem pow_fraction_le (h : Describes f F) (k : Nat) : 2 ^ (F.fraction + k) ≤ 2 ^ (52 + k) :=
  Nat.pow_le_pow_right (by decide) (by have := h.le_bits; omega)

theorem nan_ok (h : Describes f F) : softNan f = .ok F.quietNan := by
  have hpos := h.four_le
  have hle := h.le_bits
  have hless : 2 ^ (F.fraction - 1) < 2 ^ F.fraction :=
    Nat.pow_lt_pow_right (by decide) (by omega)
  unfold softNan
  rw [h.fraction, subtract_ok (by omega), ok_bind, shiftLeft_one_ok (by omega), ok_bind, pure_ok,
    h.infinity, FloatFormat.quietNan, FloatFormat.infinity, mul_comm,
    ← Nat.two_pow_add_eq_or_of_lt hless]

end Describes

variable {hidden : Nat} {e : Int} {s : Nat} {v : ℚ}

theorem softJam_ok (hvalue : value < 2 ^ 64) (distance : Nat) :
    softJam value distance = .ok (jam value distance) := by
  unfold softJam
  split_ifs with hzero hfar hnonzero
  · rw [hzero, jam, pow_zero, Nat.mod_one, if_pos rfl, Nat.div_one]
  · rw [Sticky.jam_far (lt_of_lt_of_le hvalue (Nat.pow_le_pow_right (by decide) hfar)),
      if_neg hnonzero]
  · rw [Sticky.jam_far (lt_of_lt_of_le hvalue (Nat.pow_le_pow_right (by decide) hfar)),
      if_pos (by omega)]
  rw [shiftLeft_one_ok (by omega), ok_bind, subtract_ok Nat.one_le_two_pow, ok_bind,
    shiftRight_ok (by omega), ok_bind, and_pred_two_pow, pure_ok, or_one, jam]
  by_cases hrest : value % 2 ^ distance = 0
  · rw [if_neg (not_not.mpr hrest), if_pos hrest]
  · rw [if_pos hrest, if_neg hrest]

theorem raise_spec (hhidden : hidden ≤ 2 ^ 62) (fuel : Nat) :
    ∀ (s : Nat) (e : Int), s < 2 * hidden → hidden ≤ s * 2 ^ fuel → -2 ^ 62 + fuel ≤ e →
      e < 2 ^ 62 → ∃ k ≤ fuel, raise hidden (fuel + 1) s e = .ok (s * 2 ^ k, e - k) ∧
        hidden ≤ s * 2 ^ k ∧ s * 2 ^ k < 2 * hidden := by
  induction fuel with
  | zero =>
    intro s e htop hfuel _ _
    rw [pow_zero, mul_one] at hfuel
    refine ⟨0, le_refl 0, ?_, by omega, by omega⟩
    rw [raise, if_neg (by omega)]
    simp
  | succ fuel ih =>
    intro s e htop hfuel hlow hhigh
    rw [raise]
    split_ifs with hless
    · have hdouble : s * 2 ^ 1 < 2 ^ 64 := by omega
      have hfuel' : hidden ≤ s * 2 ^ 1 * 2 ^ fuel := by
        rw [mul_assoc, ← pow_add, add_comm 1]
        exact hfuel
      rw [shiftLeft_ok (by decide) hdouble, ok_bind, i64_ok (by omega) (by omega), ok_bind]
      obtain ⟨k, hk, hraise, hge, hlt⟩ :=
        ih (s * 2 ^ 1) (e - 1) (by omega) hfuel' (by omega) (by omega)
      have hpow : s * 2 ^ (k + 1) = s * 2 ^ 1 * 2 ^ k := by ring
      refine ⟨k + 1, by omega, ?_, by rwa [hpow], by rwa [hpow]⟩
      rw [hraise, hpow, show e - 1 - (k : Int) = e - (k + 1 : Nat) by push_cast; ring]
    · exact ⟨0, by omega, by simp, by omega, by omega⟩

/-- **Halving until at most the hidden bit is there,** where the significand stands for `v`. -/
theorem lower_spec (hhidden : hidden ≤ 2 ^ 62) (fuel : Nat) :
    ∀ (s : Nat) (e : Int) (v : ℚ), s < 2 ^ 64 → s < 2 * (hidden * 2 ^ fuel) → -2 ^ 62 ≤ e →
      e < 2 ^ 62 - fuel → Sticky 1 v s →
      ∃ k ≤ fuel, ∃ s', lower hidden (fuel + 1) s e = .ok (s', e + k) ∧
        Sticky 1 (v / 2 ^ k) s' ∧ s' < 2 * hidden ∧ (k = 0 ∧ s' = s ∨ hidden ≤ s') := by
  induction fuel with
  | zero =>
    intro s e v hs hfuel _ _ hv
    rw [pow_zero, mul_one] at hfuel
    refine ⟨0, le_refl 0, s, ?_, by simpa using hv, hfuel, .inl ⟨rfl, rfl⟩⟩
    rw [lower, shiftLeft_ok (by decide) (by omega), ok_bind, if_neg (by omega)]
    simp [pure_ok]
  | succ fuel ih =>
    intro s e v hs hfuel hlow hhigh hv
    rw [lower, shiftLeft_ok (by decide) (by omega), ok_bind]
    split_ifs with hge
    · have hjam : hidden ≤ jam s 1 ∧ jam s 1 ≤ s := by
        unfold jam
        split_ifs <;> omega
      have hnext : jam s 1 < 2 * (hidden * 2 ^ fuel) := by
        rw [pow_succ, ← mul_assoc hidden] at hfuel
        unfold jam
        split_ifs <;> omega
      have hstep := (hv.mono (by decide : 1 ≤ 1 + 1)).jam
      rw [softJam_ok hs, ok_bind, i64_ok (by omega) (by omega), ok_bind]
      obtain ⟨k, hk, s', hlower, hsticky, hlt, hleast⟩ :=
        ih (jam s 1) (e + 1) _ (by omega) hnext (by omega) (by omega) hstep
      refine ⟨k + 1, by omega, s', ?_, ?_, hlt, .inr ?_⟩
      · rw [hlower, show e + 1 + (k : Int) = e + (k + 1 : Nat) by push_cast; ring]
      · rw [pow_one, div_div, ← pow_succ'] at hsticky
        exact hsticky
      rcases hleast with ⟨_, rfl⟩ | hleast
      · exact hjam.1
      · exact hleast
    · exact ⟨0, by omega, s, by simp [pure_ok], by simpa using hv, by omega, .inl ⟨rfl, rfl⟩⟩

/-- The parts of a magnitude that is not zero. -/
structure Normal (F : FloatFormat) (v : ℚ) (x : SoftParts) : Prop where
  value : v = x.significand * 2 ^ (x.exponent - F.fraction)
  low : 2 ^ F.fraction ≤ x.significand
  high : x.significand < 2 * 2 ^ F.fraction
  least : 1 - F.bias - F.fraction ≤ x.exponent
  most : x.exponent ≤ F.bias

inductive Unpacks (F : FloatFormat) : FloatFormat.Datum → SoftParts → Prop
  | nan {x : SoftParts} (hkind : x.kind = .nan) : Unpacks F .nan x
  | infinite {s : Bool} {x : SoftParts} (hkind : x.kind = .infinite) (hsign : x.sign = F.signOf s) :
      Unpacks F (.infinite s) x
  | zero {s : Bool} {x : SoftParts} (hkind : x.kind = .finite) (hsign : x.sign = F.signOf s)
      (hsig : x.significand = 0) : Unpacks F (.finite s 0) x
  | normal {s : Bool} {v : ℚ} {x : SoftParts} (hkind : x.kind = .finite)
      (hsign : x.sign = F.signOf s) (hnormal : Normal F v x) : Unpacks F (.finite s v) x

theorem Unpacks.eq_nan {d : FloatFormat.Datum} {x : SoftParts} (h : Unpacks F d x)
    (hnan : x.kind = .nan) : d = .nan := by
  cases h <;> simp_all

namespace Describes

theorem and_sign (h : Describes f F) {bits : Nat} (hbits : bits < 2 * F.signBit) :
    bits &&& f.sign = F.signOf (F.signBit ≤ bits) := by
  have hpow : 0 < F.signBit := Nat.two_pow_pos _
  have hquotient : bits / F.signBit < 2 := (Nat.div_lt_iff_lt_mul hpow).mpr hbits
  have hand := and_mul_two_pow bits 1 (F.exponentBits + F.fraction)
  rw [one_mul, Nat.and_one_is_mod] at hand
  rw [h.sign, FloatFormat.signOf]
  change bits &&& F.signBit = bits / F.signBit % 2 * F.signBit at hand
  rw [hand, Nat.mod_eq_of_lt hquotient]
  by_cases hle : F.signBit ≤ bits
  · have hone : 1 ≤ bits / F.signBit := (Nat.le_div_iff_mul_le hpow).mpr (by omega)
    rw [if_pos (decide_eq_true hle), show bits / F.signBit = 1 by omega, one_mul]
  · rw [if_neg (by simpa using hle), Nat.div_eq_of_lt (by omega), zero_mul]

theorem and_infinity (h : Describes f F) (bits : Nat) :
    bits &&& f.infinity = bits % F.signBit / 2 ^ F.fraction * 2 ^ F.fraction := by
  rw [h.infinity, FloatFormat.infinity, and_mul_two_pow, and_pred_two_pow, FloatFormat.signBit,
    add_comm F.exponentBits, pow_add, Nat.mod_mul_right_div_self]

end Describes

theorem value_eq (F : FloatFormat) (bits : Nat)
    (hs : (F.scaled bits : ℚ) = s * 2 ^ (e + F.bias - 1)) :
    F.value bits = s * 2 ^ (e - F.fraction) := by
  have hbias := F.bias_pos
  have hunit : (2 : ℚ) ^ (F.bias + F.fraction - 1) = 2 ^ ((F.bias : Int) + F.fraction - 1) := by
    rw [← zpow_natCast, Nat.cast_sub (by omega)]
    rfl
  rw [FloatFormat.value, hs, hunit, mul_div_assoc, ← zpow_sub₀ two_ne_zero]
  congr 2
  ring

theorem softUnpack_spec (h : Describes f F) {bits : Nat} (hbits : bits < 2 * F.signBit) :
    ∃ x, softUnpack bits f = .ok x ∧ Unpacks F (F.datum bits) x := by
  have hbias := F.bias_pos
  have hbias' := h.bias_le
  have hle := h.le_bits
  have hpow : 0 < 2 ^ F.fraction := Nat.two_pow_pos _
  have hpow' : 2 ^ F.fraction ≤ 2 ^ 52 := by simpa using h.pow_fraction_le 0
  have hmod : bits % 2 ^ F.fraction = bits % F.signBit % 2 ^ F.fraction := by
    rw [FloatFormat.signBit, add_comm, pow_add, Nat.mod_mul_right_mod]
  have hsplit := Nat.div_add_mod (bits % F.signBit) (2 ^ F.fraction)
  have hrest := Nat.mod_lt (bits % F.signBit) hpow
  have hfield : bits % F.signBit / 2 ^ F.fraction < 2 * F.bias + 2 := by
    rw [Nat.div_lt_iff_lt_mul hpow, ← FloatFormat.signBit_eq]
    exact Nat.mod_lt _ (Nat.two_pow_pos _)
  have hcompare : F.infinity = 2 ^ F.fraction * (2 * F.bias + 1) := by
    rw [FloatFormat.infinity_eq, mul_comm]
  unfold softUnpack
  rw [h.fraction, h.bias, shiftLeft_one_ok (by omega), ok_bind, subtract_ok Nat.one_le_two_pow,
    ok_bind, and_pred_two_pow, h.and_infinity, shiftRight_ok (by omega),
    Nat.mul_div_cancel _ hpow, ok_bind, h.and_sign hbits, i64_ok (by omega) (by omega), ok_bind,
    h.infinity, FloatFormat.infinity_eq, hmod]
  unfold FloatFormat.datum
  generalize hm : bits % F.signBit = m at *
  by_cases htop : m / 2 ^ F.fraction = 2 * F.bias + 1
  · rw [htop, ← hcompare] at hsplit
    rw [if_pos (by rw [htop])]
    by_cases hzero : m % 2 ^ F.fraction = 0
    · rw [if_neg (not_not.mpr hzero), if_neg (show ¬ F.infinity < m by omega),
        if_pos (show m = F.infinity by omega)]
      exact ⟨_, rfl, .infinite rfl rfl⟩
    · rw [if_pos hzero, if_pos (show F.infinity < m by omega)]
      exact ⟨_, rfl, .nan rfl⟩
  have hless : m < F.infinity := by
    have hprod : 2 ^ F.fraction * (m / 2 ^ F.fraction + 1) ≤ F.infinity := by
      rw [hcompare]
      exact Nat.mul_le_mul_left _ (by omega)
    rw [Nat.mul_succ] at hprod
    omega
  rw [if_neg fun hc => htop (Nat.eq_of_mul_eq_mul_right hpow hc),
    if_neg (show ¬ F.infinity < m by omega), if_neg (show ¬ m = F.infinity by omega)]
  by_cases hnormal : m / 2 ^ F.fraction = 0
  · rw [if_neg (not_not.mpr hnormal)]
    have hsmall : m % 2 ^ F.fraction = m := by rw [hnormal] at hsplit; omega
    have hscaled : F.scaled m = m := by rw [FloatFormat.scaled, if_pos hnormal, hsmall]
    rw [hsmall]
    by_cases hzero : m = 0
    · rw [if_neg (not_not.mpr hzero), hzero, FloatFormat.value_zero]
      exact ⟨_, rfl, .zero rfl rfl rfl⟩
    have henough : 2 ^ F.fraction ≤ m * 2 ^ 63 := by omega
    obtain ⟨k, -, hraise, hge, hlt⟩ := raise_spec (by omega) 63 m (1 - F.bias) (by omega)
      henough (by omega) (by omega)
    have hfew : k ≤ F.fraction := by
      by_contra hmany
      have hpow2 : 2 ^ (F.fraction + 1) ≤ 2 ^ k := Nat.pow_le_pow_right (by decide) (by omega)
      have hone : 2 ^ k ≤ m * 2 ^ k := Nat.le_mul_of_pos_left _ (by omega)
      rw [pow_succ] at hpow2
      omega
    rw [if_pos hzero, hraise, ok_bind]
    refine ⟨_, rfl, .normal rfl rfl ⟨?_, hge, hlt, by dsimp only; omega, by dsimp only; omega⟩⟩
    refine value_eq F m ?_
    rw [hscaled]
    push_cast
    rw [mul_assoc, ← zpow_natCast, ← zpow_add₀ two_ne_zero,
      show (k : Int) + (1 - F.bias - k + F.bias - 1) = 0 by ring, zpow_zero, mul_one]
  have hscaled : F.scaled m =
      (m % 2 ^ F.fraction + 2 ^ F.fraction) * 2 ^ (m / 2 ^ F.fraction - 1) := by
    rw [FloatFormat.scaled, if_neg hnormal]
  generalize m / 2 ^ F.fraction = field at *
  generalize m % 2 ^ F.fraction = fraction at *
  have hor : fraction ||| 2 ^ F.fraction = fraction + 2 ^ F.fraction := by
    have hor' := mul_two_pow_or 1 hrest
    rw [one_mul] at hor'
    rw [Nat.or_comm, hor', add_comm]
  rw [if_pos hnormal, castI64_of_lt (by omega), i64_ok (by omega) (by omega), ok_bind, hor]
  refine ⟨_, rfl, .normal rfl rfl ⟨?_, by dsimp only; omega, by dsimp only; omega,
    by dsimp only; omega, by dsimp only; omega⟩⟩
  refine value_eq F m ?_
  rw [hscaled, Nat.cast_mul, Nat.cast_pow, ← zpow_natCast, Nat.cast_sub (by omega)]
  congr 2
  ring

theorem signOf_or (negative : Bool) {field low : Nat} (hlow : low < 2 ^ F.fraction)
    (hfield : field ≤ 2 * F.bias + 1) :
    F.signOf negative ||| field * 2 ^ F.fraction ||| low =
      F.signOf negative + (field * 2 ^ F.fraction + low) := by
  have hless : field * 2 ^ F.fraction + low < F.signBit := by
    rw [FloatFormat.signBit_eq]
    have hprod : (field + 1) * 2 ^ F.fraction ≤ (2 * F.bias + 2) * 2 ^ F.fraction :=
      Nat.mul_le_mul_right _ (by omega)
    rw [add_mul] at hprod
    omega
  rw [Nat.or_assoc, mul_two_pow_or field hlow]
  unfold FloatFormat.signOf
  split_ifs
  · have hor := mul_two_pow_or 1 hless
    rwa [one_mul] at hor
  · rw [Nat.zero_or, zero_add]

namespace Describes

theorem or_infinity (h : Describes f F) (negative : Bool) :
    F.signOf negative ||| f.infinity = F.signOf negative + F.infinity := by
  have hor := signOf_or (F := F) negative (Nat.two_pow_pos F.fraction) (le_refl (2 * F.bias + 1))
  rw [Nat.or_zero, ← FloatFormat.infinity_eq] at hor
  rw [h.infinity, hor, add_zero]

end Describes

theorem roundTail_spec (hs : s < 2 ^ 63) : roundTail s =
    .ok (s / 8 + if 4 < s % 8 ∨ s % 8 = 4 ∧ s / 8 % 2 = 1 then 1 else 0) := by
  have htail : s &&& 7 = s % 8 := and_pred_two_pow s 3
  have hodd : s / 2 ^ 3 &&& 1 ≠ 0 ↔ s / 8 % 2 = 1 := by rw [Nat.and_one_is_mod]; omega
  unfold roundTail
  rw [shiftRight_ok (by decide), ok_bind, htail]
  simp only [hodd, gt_iff_lt]
  split_ifs
  · exact u64_ok (by omega)
  · rfl

/-- With a carry the significand is the hidden bit and the exponent is one more. -/
theorem carryOut_spec (h : Describes f F) {rounded e : Nat} (hle : rounded ≤ 2 * 2 ^ F.fraction)
    (hleast : e = 0 ∨ 2 ^ F.fraction ≤ rounded) (he : e < 2 ^ 62) :
    ∃ r e' : Nat, carryOut rounded (1 - F.bias + e) f = .ok (r, 1 - F.bias + e') ∧
      r < 2 * 2 ^ F.fraction ∧ (e' = 0 ∨ 2 ^ F.fraction ≤ r) ∧
      e' * 2 ^ F.fraction + r = e * 2 ^ F.fraction + rounded := by
  have hbias := h.bias_le
  have hbits := h.le_bits
  have hpow : 0 < 2 ^ F.fraction := Nat.two_pow_pos _
  have hsucc : 2 ^ (F.fraction + 1) = 2 * 2 ^ F.fraction := Nat.pow_succ'
  unfold carryOut
  rw [h.fraction, u64_ok (by omega), ok_bind, shiftLeft_one_ok (by omega), ok_bind, hsucc]
  by_cases hcarry : rounded ≥ 2 * 2 ^ F.fraction
  · refine ⟨2 ^ F.fraction, e + 1, ?_, by omega, .inr le_rfl, ?_⟩
    · rw [if_pos hcarry, shiftRight_ok (by decide), ok_bind, i64_ok (by omega) (by omega), ok_bind,
        show rounded / 2 ^ 1 = 2 ^ F.fraction by omega, pure_ok, add_assoc]
      rfl
    · rw [add_mul]
      omega
  · exact ⟨rounded, e, by rw [if_neg hcarry]; rfl, by omega, hleast, rfl⟩

theorem exponentField_spec (h : Describes f F) {r e : Nat} (he : e ≤ 2 * F.bias) :
    exponentField r (1 - F.bias + e) f =
      .ok ((if 2 ^ F.fraction ≤ r then e + 1 else 0) * 2 ^ F.fraction) := by
  have hbias := h.bias_le
  have hbits := h.le_bits
  have hpow : 2 ^ F.fraction ≤ 2 ^ 52 := by simpa using h.pow_fraction_le 0
  unfold exponentField
  rw [h.fraction, h.bias, shiftLeft_one_ok (by omega), ok_bind]
  by_cases hhidden : 2 ^ F.fraction ≤ r
  · have hfield : (e + 1) * 2 ^ F.fraction < 2 ^ 64 := by
      have hprod : (e + 1) * 2 ^ F.fraction ≤ 2047 * 2 ^ 52 := Nat.mul_le_mul (by omega) hpow
      omega
    have hcast : castU64 (1 - (F.bias : Int) + e + F.bias) = e + 1 := by
      rw [show 1 - (F.bias : Int) + e + F.bias = ((e + 1 : Nat) : Int) by push_cast; ring]
      exact castU64_natCast (by omega)
    rw [if_pos hhidden, if_pos hhidden, i64_ok (by omega) (by omega), ok_bind, hcast,
      shiftLeft_ok (by omega) hfield]
  · rw [if_neg hhidden, if_neg hhidden, zero_mul, pure_ok]

theorem encode_spec (h : Describes f F) (negative : Bool) {s e : Nat}
    (hs : s < 2 ^ (F.fraction + 4)) (hnormal : e = 0 ∨ 2 ^ (F.fraction + 3) ≤ s) (he : e < 2 ^ 62) :
    encode (F.signOf negative) (1 - F.bias + e) s f = .ok (F.signOf negative +
      min F.infinity (e * 2 ^ F.fraction + s / 8 +
        if 4 < s % 8 ∨ s % 8 = 4 ∧ s / 8 % 2 = 1 then 1 else 0)) := by
  have hbias := F.bias_pos
  have hbits := h.le_bits
  have hpow : 0 < 2 ^ F.fraction := Nat.two_pow_pos _
  have hpow' : 2 ^ F.fraction ≤ 2 ^ 52 := by simpa using h.pow_fraction_le 0
  rw [pow_add] at hs hnormal
  have hless : (s / 8 + if 4 < s % 8 ∨ s % 8 = 4 ∧ s / 8 % 2 = 1 then 1 else 0) ≤
      2 * 2 ^ F.fraction := by
    split_ifs <;> omega
  have hleast : e = 0 ∨ 2 ^ F.fraction ≤
      s / 8 + if 4 < s % 8 ∨ s % 8 = 4 ∧ s / 8 % 2 = 1 then 1 else 0 :=
    hnormal.imp_right fun _ => by omega
  unfold encode
  rw [roundTail_spec (by omega), ok_bind, add_assoc]
  generalize (s / 8 + if 4 < s % 8 ∨ s % 8 = 4 ∧ s / 8 % 2 = 1 then 1 else 0) = rounded at *
  obtain ⟨r, e', hstep, hr, hleast', hsum⟩ := carryOut_spec h hless hleast he
  rw [hstep, ok_bind, ← hsum]
  dsimp only
  rw [h.bias]
  by_cases hover : 2 * F.bias ≤ e'
  · have hbig : F.infinity ≤ e' * 2 ^ F.fraction + r := by
      have hprod := Nat.mul_le_mul_right (2 ^ F.fraction) hover
      rw [FloatFormat.infinity_eq, add_mul]
      omega
    rw [if_pos (by omega), Nat.min_eq_left hbig, h.or_infinity, pure_ok]
  have hsmall : e' * 2 ^ F.fraction + r ≤ F.infinity := by
    have hprod : (e' + 2) * 2 ^ F.fraction ≤ (2 * F.bias + 1) * 2 ^ F.fraction :=
      Nat.mul_le_mul_right _ (by omega)
    rw [FloatFormat.infinity_eq]
    rw [add_mul] at hprod
    omega
  rw [if_neg (by omega), Nat.min_eq_right hsmall, exponentField_spec h (by omega), ok_bind,
    h.fraction, shiftLeft_one_ok (by omega), ok_bind, subtract_ok hpow, ok_bind, and_pred_two_pow,
    pure_ok]
  rw [signOf_or negative (Nat.mod_lt _ hpow) (by split_ifs <;> omega)]
  congr 2
  split_ifs with hhidden
  · rw [Nat.mod_eq_sub_mod hhidden, Nat.mod_eq_of_lt (by omega), add_mul]
    omega
  · rw [show e' = 0 by omega, Nat.mod_eq_of_lt (by omega)]

/-- A left shift of a significand that is exact or lacks one bit at most. -/
theorem sticky_raise {j : Nat} (hv : Sticky 1 v s) (hnear : v = s ∨ hidden ≤ 2 * s)
    (htop : s * 2 ^ j < 2 * hidden) : Sticky 2 (v * 2 ^ j) (s * 2 ^ j) := by
  rcases hnear with rfl | hnear
  · exact .inl (by push_cast; rfl)
  have hfew : 2 ^ j < 2 ^ 2 := by
    by_contra hmany
    have hprod : s * 2 ^ 2 ≤ s * 2 ^ j := Nat.mul_le_mul_left s (by omega)
    omega
  have hj : j < 2 := (Nat.pow_lt_pow_iff_right (by decide)).mp hfew
  interval_cases j
  · rw [pow_zero, mul_one, pow_zero, mul_one]
    exact hv.mono (by decide)
  · rw [pow_one, mul_comm, Nat.pow_one, Nat.mul_comm]
    exact hv.double

theorem underflow_spec (h : Describes f F) (hv : Sticky 2 v s) (hlow : 2 ^ (F.fraction + 3) ≤ s)
    (hhigh : s < 2 ^ (F.fraction + 4)) (he : -2 ^ 62 ≤ e) (he' : e < 2 ^ 61) :
    ∃ (s' e' : Nat) (v' : ℚ),
      underflow (1 - F.bias) s e = .ok (s', 1 - F.bias + e') ∧ Sticky 2 v' s' ∧
      s' < 2 ^ (F.fraction + 4) ∧ (e' = 0 ∨ 2 ^ (F.fraction + 3) ≤ s') ∧ e' < 2 ^ 62 ∧
      v' * 2 ^ (1 - F.bias + e' : Int) = v * 2 ^ e := by
  have hbias := h.bias_le
  have htop : 2 ^ (F.fraction + 4) ≤ 2 ^ 56 := h.pow_fraction_le 4
  unfold underflow
  split_ifs with hless
  · obtain ⟨d, hd⟩ := Int.eq_ofNat_of_zero_le (show 0 ≤ 1 - (F.bias : Int) - e by omega)
    obtain rfl : e = 1 - F.bias - d := by omega
    have hjam := (hv.mono (show 2 ≤ d + 1 by omega)).jam
    have hle : jam s d ≤ s := by
      have hdiv : s / 2 ^ d ≤ s / 2 ^ 1 :=
        Nat.div_le_div_left (Nat.pow_le_pow_right (by decide) (by omega)) (by decide)
      have hpos : 0 < 2 ^ (F.fraction + 3) := Nat.two_pow_pos _
      unfold jam
      split_ifs <;> omega
    refine ⟨jam s d, 0, _, ?_, hjam.mono (by decide), by omega, .inl rfl, by omega, ?_⟩
    · rw [hd, i64_ok (by omega) (by omega), ok_bind,
        castU64_natCast (by omega), softJam_ok (by omega), ok_bind, pure_ok]
      simp
    · rw [Nat.cast_zero, add_zero, zpow_sub₀ two_ne_zero _ (d : Int), zpow_natCast,
        div_mul_eq_mul_div, mul_div_assoc]
  · obtain ⟨e', he'⟩ := Int.eq_ofNat_of_zero_le (show 0 ≤ e - (1 - (F.bias : Int)) by omega)
    obtain rfl : e = 1 - F.bias + e' := by omega
    exact ⟨s, e', v, rfl, hv, hhigh, .inr hlow, by omega, rfl⟩

/-- **The one rounding.**  `v` is the number in units of the last rounding bit. -/
theorem softPack_spec (h : Describes f F) (negative : Bool) (hv : Sticky 1 v s) (hpos : 0 < s)
    (hs : s < 2 ^ 63) (hnear : v = s ∨ 2 ^ (F.fraction + 2) ≤ s) (hlow : -2 ^ 32 ≤ e)
    (hhigh : e ≤ 2 ^ 32) :
    ∃ result, softPack (F.signOf negative) e s f = .ok result ∧
      F.Rounded negative (v * 2 ^ (e - F.fraction - 3)) result := by
  have hbias := F.bias_pos
  have hbias' := h.bias_le
  have hle := h.le_bits
  have hfour := h.four_le
  have hhidden : 2 ^ (F.fraction + 3) ≤ 2 ^ 55 := h.pow_fraction_le 3
  have hhidden' : 2 ^ 7 ≤ 2 ^ (F.fraction + 3) := Nat.pow_le_pow_right (by decide) (by omega)
  have hsucc : 2 ^ (F.fraction + 4) = 2 * 2 ^ (F.fraction + 3) := Nat.pow_succ'
  have hsucc' : 2 ^ (F.fraction + 3) = 2 * 2 ^ (F.fraction + 2) := Nat.pow_succ'
  obtain ⟨k, hk, s1, hlower, hv1, htop1, hleast1⟩ :=
    lower_spec (show 2 ^ (F.fraction + 3) ≤ 2 ^ 62 by omega) 63 s e v (by omega) (by omega) (by omega)
      (by omega) hv
  have hnear1 : (0 < s1) ∧ (v / 2 ^ k = s1 ∨ 2 ^ (F.fraction + 3) ≤ 2 * s1) := by
    rcases hleast1 with ⟨rfl, rfl⟩ | hge
    · refine ⟨hpos, hnear.imp ?_ ?_⟩
      · intro heq
        rw [pow_zero, div_one, heq]
      · omega
    · exact ⟨by omega, .inr (by omega)⟩
  obtain ⟨j, hj, hraise, hge2, htop2⟩ :=
    raise_spec (show 2 ^ (F.fraction + 3) ≤ 2 ^ 62 by omega) 63 s1 (e + k) htop1 (by omega) (by omega)
      (by omega)
  have hv2 := sticky_raise hv1 hnear1.2 htop2
  obtain ⟨s', e', v', hunder, hv', htop', hnormal', he', hvalue⟩ :=
    underflow_spec h hv2 hge2 (by omega) (show -2 ^ 62 ≤ e + k - j by omega) (by omega)
  have hsame : v' * 2 ^ (1 - F.bias + e' : Int) = v * 2 ^ e := by
    rw [hvalue, zpow_sub₀ two_ne_zero, zpow_add₀ two_ne_zero, zpow_natCast, zpow_natCast]
    field_simp
  have hunit : v * 2 ^ (e - F.fraction - 3) =
      v' * 2 ^ e' / (8 * 2 ^ (F.bias + F.fraction - 1)) := by
    have hsplit : F.bias + F.fraction - 1 = F.bias - 1 + F.fraction := by omega
    have hscale : v' * (2 : ℚ) ^ e' = v * 2 ^ e * 2 ^ (F.bias - 1) := by
      rw [← hsame, mul_assoc, ← zpow_natCast 2 (F.bias - 1), ← zpow_add₀ two_ne_zero,
        Nat.cast_sub (by omega), ← zpow_natCast]
      congr 2
      ring
    rw [hscale, hsplit, pow_add, zpow_sub₀ two_ne_zero, zpow_sub₀ two_ne_zero, zpow_natCast]
    field_simp
    norm_num
  refine ⟨_, ?_, _, hunit ▸ FloatFormat.roundsTo_of_sticky hv' htop' hnormal' Iff.rfl, rfl⟩
  unfold softPack
  rw [if_neg hpos.ne', h.fraction, u64_ok (by omega), ok_bind, shiftLeft_one_ok (by omega), ok_bind,
    h.bias, hlower, ok_bind]
  dsimp only
  rw [hraise, ok_bind]
  rw [i64_ok (by omega) (by omega), ok_bind, hunder, ok_bind]
  exact encode_spec h negative htop' hnormal' he'

end Dyn.SoftFloat
