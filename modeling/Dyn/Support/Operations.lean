import Dyn.Support.Packing

/-!
# Arithmetic of soft float

Sum, product and quotient are the exact ones, rounded once (`softAdd_spec`, `softMul_spec`,
`softDiv_spec`); the remainder is exact (`softRem_spec`).
-/

namespace Dyn.SoftFloat

open Mem (Panic)
open Lib FloatFormat

variable {f : SoftFormat} {F : FloatFormat}

variable {s : Bool} {x : SoftParts}

variable {t : Bool} {v w : ℚ} {y : SoftParts} {a b : Nat}

theorem signOf_injective (F : FloatFormat) (h : F.signOf s = F.signOf t) : s = t := by
  have hpos : 0 < F.signBit := Nat.two_pow_pos _
  unfold signOf at h
  cases s <;> cases t <;> simp_all

theorem signOf_eq_zero (F : FloatFormat) : F.signOf s = 0 ↔ s = false := by
  have hpos : 0 < F.signBit := Nat.two_pow_pos _
  unfold signOf
  cases s <;> simp
  omega

theorem signOf_xor (F : FloatFormat) (s t : Bool) :
    F.signOf s ^^^ F.signOf t = F.signOf (s ^^ t) := by
  unfold signOf
  cases s <;> cases t <;> simp

theorem signOf_and (F : FloatFormat) (s t : Bool) :
    F.signOf s &&& F.signOf t = F.signOf (s && t) := by
  unfold signOf
  cases s <;> cases t <;> simp

theorem rounded_zero (F : FloatFormat) (s : Bool) : F.Rounded s 0 (F.signOf s) := by
  have h := roundsTo_value F.infinity_pos
  rw [value_zero] at h
  exact ⟨0, h, rfl⟩

theorem rounded_datum {bits : Nat} (hbits : bits < 2 * F.signBit) (h : F.datum bits = .finite s v) :
    F.Rounded s v bits := by
  obtain ⟨hless, rfl, rfl⟩ := value_of_datum h
  refine ⟨_, roundsTo_value hless, ?_⟩
  unfold signOf
  by_cases hle : F.signBit ≤ bits
  · rw [if_pos (decide_eq_true hle), Nat.mod_eq_sub_mod hle, Nat.mod_eq_of_lt (by omega)]
    omega
  · rw [if_neg (by simpa using hle), Nat.mod_eq_of_lt (by omega), zero_add]

theorem Normal.pos (h : Normal F v x) : 0 < v := by
  have hpos : 0 < 2 ^ F.fraction := Nat.two_pow_pos _
  have hsig : (0 : ℚ) < x.significand := by exact_mod_cast lt_of_lt_of_le hpos h.low
  rw [h.value]
  positivity

theorem Normal.ne_zero (h : Normal F v x) : x.significand ≠ 0 := by
  have hpos : 0 < 2 ^ F.fraction := Nat.two_pow_pos _
  have hlow := h.low
  omega

@[simp] theorem signed_zero (s : Bool) : signed s 0 = 0 := by
  cases s <;> simp [signed]

theorem sum_signed {u : Bool} {x y z : ℚ} (hz : 0 < z) {result : Nat}
    (hsum : signed s x + signed t y = signed u z) (h : F.Rounded u z result) :
    F.Sum (.finite s x) (.finite t y) result := by
  change F.Rounded (if signed s x + signed t y = 0 then s && t
    else signed s x + signed t y < 0) |signed s x + signed t y| result
  rw [hsum]
  unfold signed
  cases u
  case false =>
    rw [if_neg (by simp [hz.ne']), if_neg (by decide), abs_of_pos hz, decide_eq_false (by linarith)]
    exact h
  case true =>
    rw [if_neg (by simp [hz.ne']), if_pos rfl, abs_neg, abs_of_pos hz, decide_eq_true (by linarith)]
    exact h

theorem sum_comm {x y : ℚ} {result : Nat} (h : F.Sum (.finite s x) (.finite t y) result) :
    F.Sum (.finite t y) (.finite s x) result := by
  change F.Rounded (if signed t y + signed s x = 0 then t && s
    else signed t y + signed s x < 0) |signed t y + signed s x| result
  rw [add_comm, Bool.and_comm]
  exact h

/-- The smaller operand of a sum, in units of the last rounding bit of the larger one: it is exact
or the difference keeps all but one of its leading bits. -/
theorem jam_small {p d m n : Nat} (hlow : 2 ^ p ≤ m) (hless : n < 2 * 2 ^ p)
    (horder : d = 0 → n ≤ m) : jam (n * 2 ^ 3) d ≤ m * 2 ^ 3 ∧
      (((n * 2 ^ 3 : Nat) / 2 ^ d : ℚ) = jam (n * 2 ^ 3) d ∨
        2 ^ (p + 2) ≤ m * 2 ^ 3 - jam (n * 2 ^ 3) d) := by
  have hpow : 2 ^ (p + 2) = 4 * 2 ^ p := by rw [Nat.pow_add, Nat.mul_comm]
  rcases Nat.lt_or_ge d 2 with hfew | hmany
  · have hexact : n * 2 ^ 3 % 2 ^ d = 0 := by interval_cases d <;> omega
    refine ⟨?_, .inl (jam_exact hexact)⟩
    rw [jam, if_pos hexact]
    interval_cases d
    · have := horder rfl
      omega
    · omega
  have hdiv : n * 2 ^ 3 / 2 ^ d ≤ n * 2 ^ 3 / 2 ^ 2 :=
    Nat.div_le_div_left (Nat.pow_le_pow_right (by decide) hmany) (by decide)
  unfold jam
  constructor
  · split_ifs <;> omega
  · right
    split_ifs <;> omega

theorem addParts_spec (h : Describes f F) (hx : x.sign = F.signOf s) (hy : y.sign = F.signOf t)
    (hv : Normal F v x) (hw : Normal F w y)
    (horder : y.exponent < x.exponent ∨ y.exponent = x.exponent ∧ y.significand ≤ x.significand) :
    ∃ result, addParts x y f = .ok result ∧ F.Sum (.finite s v) (.finite t w) result := by
  have hbias := h.bias_le
  have hbits := h.le_bits
  have hpow : 2 ^ F.fraction ≤ 2 ^ 52 := by simpa using h.pow_fraction_le 0
  have hpow2 : 2 ^ (F.fraction + 2) = 4 * 2 ^ F.fraction := by rw [pow_add]; omega
  have hvpos := hv.pos
  have hwpos := hw.pos
  obtain ⟨hvalue, hlow, hhigh, -, hmost⟩ := hv
  obtain ⟨hvalue', -, hhigh', hleast', -⟩ := hw
  obtain ⟨d, hd⟩ := Int.eq_ofNat_of_zero_le (show 0 ≤ x.exponent - y.exponent by omega)
  have hdistance : castU64 (x.exponent - y.exponent) = d := by
    rw [hd]
    exact castU64_natCast (by omega)
  -- Both numbers in units of the last rounding bit of the larger one.
  have hunit : v = (x.significand * 2 ^ 3 : Nat) * 2 ^ (x.exponent - F.fraction - 3) := by
    rw [hvalue, zpow_sub₀ two_ne_zero _ 3]
    push_cast
    field_simp
  have hunit' : w = (y.significand * 2 ^ 3 : Nat) / 2 ^ d * 2 ^ (x.exponent - F.fraction - 3) := by
    rw [hvalue', show x.exponent - F.fraction - 3 = y.exponent - F.fraction + d - 3 by omega,
      zpow_sub₀ two_ne_zero _ 3, zpow_add₀ two_ne_zero, zpow_natCast]
    push_cast
    field_simp
  have hscale : (0 : ℚ) < 2 ^ (x.exponent - F.fraction - 3) := by positivity
  have hsticky : Sticky 1 ((y.significand * 2 ^ 3 : Nat) / 2 ^ d : ℚ)
      (jam (y.significand * 2 ^ 3) d) := (Sticky.refl (d + 1) _).jam
  obtain ⟨hle, hnear⟩ := jam_small hlow hhigh' (d := d) (m := x.significand) fun hzero => by omega
  have hleft : x.significand * 2 ^ 3 = x.significand * 2 ^ 2 * 2 ^ 1 := by omega
  unfold addParts
  rw [shiftLeft_ok (by decide) (by omega), ok_bind, shiftLeft_ok (by decide) (by omega), ok_bind,
    i64_ok (by omega) (by omega), ok_bind, hdistance, softJam_ok (by omega), ok_bind, hx, hy]
  generalize hright : jam (y.significand * 2 ^ 3) d = right at *
  generalize ((y.significand * 2 ^ 3 : Nat) / 2 ^ d : ℚ) = small at *
  by_cases hsign : s = t
  · subst hsign
    have hsum := hsticky.add (x.significand * 2 ^ 2)
    rw [← hleft] at hsum
    obtain ⟨result, hpack, hround⟩ := softPack_spec h s hsum (e := x.exponent) (by omega) (by omega)
      (.inr (by omega)) (by omega) (by omega)
    rw [add_mul, ← hunit, ← hunit'] at hround
    refine ⟨result, ?_, sum_signed (add_pos hvpos hwpos) ?_ hround⟩
    · rw [if_pos rfl, u64_ok (by omega), ok_bind, hpack]
    · unfold signed
      split_ifs <;> ring
  rw [if_neg fun hc => hsign (signOf_injective F hc)]
  have hother : t = !s := by cases s <;> cases t <;> simp_all
  by_cases hequal : x.significand * 2 ^ 3 = right
  · have hsame : v = w := by
      have heq := (hsticky.eq_iff (x.significand * 2 ^ 2)).mpr (by omega)
      rw [hunit, hunit', heq, ← hleft]
    refine ⟨0, by rw [if_pos hequal, pure_ok], ?_⟩
    change F.Rounded (if signed s v + signed t w = 0 then s && t
      else signed s v + signed t w < 0) |signed s v + signed t w| 0
    have hzero : signed s v + signed t w = 0 := by
      rw [hother, hsame]
      cases s <;> simp [signed]
    rw [hzero, if_pos rfl, abs_zero, hother, Bool.and_not_self]
    exact rounded_zero F false
  have hdifference := Sticky.sub (k := x.significand * 2 ^ 2) (by omega) hsticky
  rw [← hleft] at hdifference
  have hnear' : ((x.significand * 2 ^ 3 : Nat) - small : ℚ) = (x.significand * 2 ^ 3 - right : Nat) ∨
      2 ^ (F.fraction + 2) ≤ x.significand * 2 ^ 3 - right := hnear.imp_left fun heq => by
    rw [heq, Nat.cast_sub hle]
  have hz := hdifference.pos (by omega)
  obtain ⟨result, hpack, hround⟩ := softPack_spec h s hdifference (e := x.exponent) (by omega)
    (by omega) hnear' (by omega) (by omega)
  rw [sub_mul, ← hunit, ← hunit'] at hround
  have hpositive : 0 < v - w := by
    rw [hunit, hunit', ← sub_mul]
    exact mul_pos hz hscale
  refine ⟨result, ?_, sum_signed hpositive ?_ hround⟩
  · rw [if_neg hequal, subtract_ok hle, ok_bind, hpack]
  · rw [hother]
    cases s <;> simp [signed] <;> ring

theorem softAdd_spec (h : Describes f F) (ha : a < 2 * F.signBit) (hb : b < 2 * F.signBit) :
    ∃ result, softAdd a b f = .ok result ∧ F.Sum (F.datum a) (F.datum b) result := by
  obtain ⟨x, hx, hunpack⟩ := softUnpack_spec h ha
  obtain ⟨y, hy, hunpack'⟩ := softUnpack_spec h hb
  unfold softAdd
  rw [hx, ok_bind, hy, ok_bind]
  generalize hda : F.datum a = da at *
  generalize hdb : F.datum b = db at *
  by_cases hnan : x.kind = .nan ∨ y.kind = .nan
  · rw [if_pos hnan, h.nan_ok]
    rcases hnan.imp hunpack.eq_nan hunpack'.eq_nan with rfl | rfl
    · exact ⟨_, rfl, by cases db <;> rfl⟩
    · exact ⟨_, rfl, by cases da <;> rfl⟩
  rw [if_neg hnan]
  cases hunpack with
  | nan hkind => exact absurd (.inl hkind) hnan
  | @infinite s x hkind hsign =>
    rw [if_pos hkind]
    cases hunpack' with
    | nan hkind' => exact absurd (.inr hkind') hnan
    | @infinite t y hkind' hsign' =>
      rw [hsign, hsign', h.or_infinity]
      by_cases hst : s = t
      · rw [if_neg fun hc => hc.2 (by rw [hst])]
        exact ⟨_, rfl, by rw [FloatFormat.Sum, if_pos hst]⟩
      · rw [if_pos ⟨hkind', fun hc => hst (signOf_injective F hc)⟩, h.nan_ok]
        exact ⟨_, rfl, by rw [FloatFormat.Sum, if_neg hst]⟩
    | zero hkind' _ _ | normal hkind' _ _ =>
      rw [if_neg (by simp [hkind']), hsign, h.or_infinity]
      exact ⟨_, rfl, rfl⟩
  | @zero s x hkind hsign hsig =>
    rw [if_neg (by simp [hkind])]
    cases hunpack' with
    | nan hkind' => exact absurd (.inr hkind') hnan
    | infinite hkind' hsign' =>
      rw [if_pos hkind', hsign', h.or_infinity]
      exact ⟨_, rfl, rfl⟩
    | @zero t y hkind' hsign' hsig' =>
      rw [if_neg (by simp [hkind']), if_pos ⟨hsig, hsig'⟩, hsign, hsign', signOf_and]
      refine ⟨_, rfl, ?_⟩
      change F.Rounded (if signed s 0 + signed t 0 = 0 then s && t
        else signed s 0 + signed t 0 < 0) |signed s 0 + signed t 0| _
      rw [signed_zero, signed_zero, add_zero, if_pos rfl, abs_zero]
      exact rounded_zero F _
    | @normal t w y hkind' hsign' hnormal' =>
      rw [if_neg (by simp [hkind']), if_neg fun hc => hnormal'.ne_zero hc.2, if_pos hsig]
      exact ⟨_, rfl, sum_signed hnormal'.pos (by rw [signed_zero, zero_add]) (rounded_datum hb hdb)⟩
  | @normal s v x hkind hsign hnormal =>
    rw [if_neg (by simp [hkind])]
    cases hunpack' with
    | nan hkind' => exact absurd (.inr hkind') hnan
    | infinite hkind' hsign' =>
      rw [if_pos hkind', hsign', h.or_infinity]
      exact ⟨_, rfl, rfl⟩
    | @zero t y hkind' hsign' hsig' =>
      rw [if_neg (by simp [hkind']), if_neg fun hc => hnormal.ne_zero hc.1, if_neg hnormal.ne_zero,
        if_pos hsig']
      exact ⟨_, rfl, sum_signed hnormal.pos (by rw [signed_zero, add_zero]) (rounded_datum ha hda)⟩
    | @normal t w y hkind' hsign' hnormal' =>
      rw [if_neg (by simp [hkind']), if_neg fun hc => hnormal.ne_zero hc.1, if_neg hnormal.ne_zero,
        if_neg hnormal'.ne_zero]
      split_ifs with hswap
      · obtain ⟨result, hadd, hsum⟩ := addParts_spec h hsign' hsign hnormal' hnormal (by omega)
        exact ⟨result, hadd, sum_comm hsum⟩
      · exact addParts_spec h hsign hsign' hnormal hnormal' (by omega)

theorem limbs_spec {x y : Nat} (hx : x < 2 ^ 53) (hy : y < 2 ^ 53) :
    ∃ low high, limbs x y = .ok (low, high) ∧ low < 2 ^ 64 ∧ high * 2 ^ 64 + low = x * y := by
  obtain ⟨x1, hx1⟩ : ∃ x1, x / 2 ^ 32 = x1 := ⟨_, rfl⟩
  obtain ⟨y1, hy1⟩ : ∃ y1, y / 2 ^ 32 = y1 := ⟨_, rfl⟩
  obtain ⟨x0, hx0⟩ : ∃ x0, x % 2 ^ 32 = x0 := ⟨_, rfl⟩
  obtain ⟨y0, hy0⟩ : ∃ y0, y % 2 ^ 32 = y0 := ⟨_, rfl⟩
  have hmask (n : Nat) : n &&& 0xffffffff = n % 2 ^ 32 := and_pred_two_pow n 32
  have hlow : x0 * y0 ≤ (2 ^ 32 - 1) * (2 ^ 32 - 1) := Nat.mul_le_mul (by omega) (by omega)
  have hcross1 : x1 * y0 ≤ (2 ^ 21 - 1) * (2 ^ 32 - 1) := Nat.mul_le_mul (by omega) (by omega)
  have hcross2 : y1 * x0 ≤ (2 ^ 21 - 1) * (2 ^ 32 - 1) := Nat.mul_le_mul (by omega) (by omega)
  have hhigh : x1 * y1 ≤ (2 ^ 21 - 1) * (2 ^ 21 - 1) := Nat.mul_le_mul (by omega) (by omega)
  have hproduct : x * y = x1 * y1 * 2 ^ 64 + (x1 * y0 + y1 * x0) * 2 ^ 32 + x0 * y0 := by
    have hxs : x = x1 * 2 ^ 32 + x0 := by omega
    have hys : y = y1 * 2 ^ 32 + y0 := by omega
    rw [hxs, hys]
    ring
  unfold limbs
  simp only [hmask, hx0, hy0]
  rw [shiftRight_ok (by decide), ok_bind, shiftRight_ok (by decide), ok_bind, hx1, hy1, hproduct]
  generalize x0 * y0 = low at *
  generalize x1 * y0 = cross1 at *
  generalize y1 * x0 = cross2 at *
  generalize x1 * y1 = high at *
  rw [u64_ok (by omega), ok_bind, u64_ok (by omega), ok_bind, u64_ok (by omega), ok_bind,
    shiftRight_ok (by decide), ok_bind, u64_ok (by omega), ok_bind, u64_ok (by omega), ok_bind,
    u64_ok (by omega), ok_bind, shiftRight_ok (by decide), ok_bind, u64_ok (by omega), ok_bind,
    shiftRight_ok (by decide), ok_bind, u64_ok (by omega), ok_bind, shiftRight_ok (by decide),
    ok_bind, u64_ok (by omega), ok_bind, shiftLeft_ok (by decide) (by omega), ok_bind, pure_ok,
    Nat.or_comm, mul_two_pow_or _ (by omega)]
  exact ⟨_, _, rfl, by omega, by omega⟩

theorem mulParts_spec (h : Describes f F) (negative : Bool) (hv : Normal F v x) (hw : Normal F w y) :
    ∃ result, mulParts (F.signOf negative) x y f = .ok result ∧
      F.Rounded negative (v * w) result := by
  have hbias := h.bias_le
  have hbits := h.le_bits
  have hfour := h.four_le
  have hpow : 2 ^ F.fraction ≤ 2 ^ 52 := by simpa using h.pow_fraction_le 0
  obtain ⟨hvalue, hlow, hhigh, hleast, hmost⟩ := hv
  obtain ⟨hvalue', hlow', hhigh', hleast', hmost'⟩ := hw
  obtain ⟨low, high, hlimbs, hless, hproduct⟩ :=
    limbs_spec (show x.significand < 2 ^ 53 by omega) (show y.significand < 2 ^ 53 by omega)
  obtain ⟨shift, hshift⟩ : ∃ shift, F.fraction = shift + 3 := ⟨F.fraction - 3, by omega⟩
  -- The product keeps three rounding bits below the fraction.
  have hsmall : x.significand * y.significand < 2 ^ shift * 2 ^ 57 := by
    have hprod : x.significand * y.significand < (2 * 2 ^ F.fraction) * (2 * 2 ^ F.fraction) :=
      Nat.mul_lt_mul'' hhigh hhigh'
    have hpowers : 2 * 2 ^ F.fraction * (2 * 2 ^ F.fraction) = 2 ^ shift * 2 ^ (F.fraction + 5) := by
      rw [← pow_succ', ← pow_add, ← pow_add]
      congr 1
      omega
    have hle := Nat.mul_le_mul_left (2 ^ shift) (h.pow_fraction_le 5)
    omega
  have hbig : 2 ^ (F.fraction + 3) * 2 ^ shift ≤ x.significand * y.significand := by
    have hprod : 2 ^ F.fraction * 2 ^ F.fraction ≤ x.significand * y.significand :=
      Nat.mul_le_mul hlow hlow'
    have hpowers : 2 ^ (F.fraction + 3) * 2 ^ shift = 2 ^ F.fraction * 2 ^ F.fraction := by
      rw [← pow_add, ← pow_add]
      congr 1
      omega
    omega
  have hplaces : 2 ^ 64 = 2 ^ (64 - shift) * 2 ^ shift := by
    rw [← pow_add]
    congr 1
    omega
  have hquotient : x.significand * y.significand / 2 ^ shift =
      high * 2 ^ (64 - shift) + low / 2 ^ shift := by
    rw [← hproduct, hplaces, ← mul_assoc, add_comm, Nat.add_mul_div_right _ _ (Nat.two_pow_pos _),
      add_comm]
  have hremainder : x.significand * y.significand % 2 ^ shift = low % 2 ^ shift := by
    rw [← hproduct, hplaces, ← mul_assoc, add_comm, Nat.add_mul_mod_self_right]
  have hfits : x.significand * y.significand / 2 ^ shift < 2 ^ 57 := by
    rw [Nat.div_lt_iff_lt_mul (Nat.two_pow_pos _), mul_comm (2 ^ 57)]
    exact hsmall
  have hleast : 2 ^ (F.fraction + 3) ≤ x.significand * y.significand / 2 ^ shift := by
    rw [Nat.le_div_iff_mul_le (Nat.two_pow_pos _)]
    exact hbig
  have hbelow : low / 2 ^ shift < 2 ^ (64 - shift) := by
    rw [Nat.div_lt_iff_lt_mul (Nat.two_pow_pos _), ← hplaces]
    exact hless
  have habove : high * 2 ^ (64 - shift) < 2 ^ 64 := by
    have hle := Nat.le_add_right (high * 2 ^ (64 - shift)) (low / 2 ^ shift)
    omega
  have hor : low / 2 ^ shift ||| high * 2 ^ (64 - shift) =
      x.significand * y.significand / 2 ^ shift := by
    rw [Nat.or_comm, mul_two_pow_or _ hbelow, ← hquotient]
  have hsig : (if low % 2 ^ shift ≠ 0 then (low / 2 ^ shift ||| high * 2 ^ (64 - shift)) ||| 1
      else low / 2 ^ shift ||| high * 2 ^ (64 - shift)) = jam (x.significand * y.significand) shift := by
    rw [hor, ← hremainder, or_one, jam]
    by_cases hzero : x.significand * y.significand % 2 ^ shift = 0
    · rw [if_neg (not_not.mpr hzero), if_pos hzero]
    · rw [if_pos hzero, if_neg hzero]
  have hjam : 2 ^ (F.fraction + 2) ≤ jam (x.significand * y.significand) shift ∧
      jam (x.significand * y.significand) shift < 2 ^ 58 := by
    have hstep : 2 ^ (F.fraction + 3) = 2 * 2 ^ (F.fraction + 2) := Nat.pow_succ'
    unfold jam
    split_ifs <;> omega
  have hpos : 0 < 2 ^ (F.fraction + 2) := Nat.two_pow_pos _
  obtain ⟨result, hpack, hround⟩ := softPack_spec h negative
    (Sticky.refl (shift + 1) (x.significand * y.significand)).jam (e := x.exponent + y.exponent)
    (by omega) (by omega) (.inr hjam.1) (by omega) (by omega)
  have hunit : ((x.significand * y.significand : Nat) / 2 ^ shift : ℚ) *
      2 ^ (x.exponent + y.exponent - F.fraction - 3) = v * w := by
    rw [hvalue, hvalue', show x.exponent + y.exponent - F.fraction - 3 =
      (x.exponent - F.fraction) + (y.exponent - F.fraction) + shift by rw [hshift]; push_cast; ring,
      zpow_add₀ two_ne_zero, zpow_add₀ two_ne_zero, zpow_natCast]
    push_cast
    field_simp
  refine ⟨result, ?_, hunit ▸ hround⟩
  unfold mulParts
  rw [hlimbs, ok_bind]
  dsimp only
  rw [h.fraction, subtract_ok (by omega), ok_bind, show F.fraction - 3 = shift by omega,
    shiftRight_ok (by omega), ok_bind, subtract_ok (by omega), ok_bind,
    shiftLeft_ok (by omega) habove, ok_bind, shiftLeft_one_ok (by omega), ok_bind,
    subtract_ok Nat.one_le_two_pow, ok_bind, and_pred_two_pow, hsig, i64_ok (by omega) (by omega),
    ok_bind, hpack]

theorem softMul_spec (h : Describes f F) (ha : a < 2 * F.signBit) (hb : b < 2 * F.signBit) :
    ∃ result, softMul a b f = .ok result ∧ F.Product (F.datum a) (F.datum b) result := by
  obtain ⟨x, hx, hunpack⟩ := softUnpack_spec h ha
  obtain ⟨y, hy, hunpack'⟩ := softUnpack_spec h hb
  unfold softMul
  rw [hx, ok_bind, hy, ok_bind]
  generalize F.datum a = da at *
  generalize F.datum b = db at *
  by_cases hnan : x.kind = .nan ∨ y.kind = .nan
  · rw [if_pos hnan, h.nan_ok]
    rcases hnan.imp hunpack.eq_nan hunpack'.eq_nan with rfl | rfl
    · exact ⟨_, rfl, by cases db <;> rfl⟩
    · exact ⟨_, rfl, by cases da <;> rfl⟩
  rw [if_neg hnan]
  cases hunpack with
  | nan hkind => exact absurd (.inl hkind) hnan
  | @infinite s x hkind hsign =>
    rw [if_pos (.inl hkind)]
    cases hunpack' with
    | nan hkind' => exact absurd (.inr hkind') hnan
    | infinite hkind' hsign' =>
      rw [if_neg (by simp [hkind, hkind']), hsign, hsign', signOf_xor, h.or_infinity]
      exact ⟨_, rfl, rfl⟩
    | zero hkind' hsign' hsig' =>
      rw [if_pos (.inr ⟨hkind', hsig'⟩), h.nan_ok]
      exact ⟨_, rfl, by rw [FloatFormat.Product, if_pos rfl]⟩
    | normal hkind' hsign' hnormal' =>
      rw [if_neg (by simp [hkind, hnormal'.ne_zero]), hsign, hsign', signOf_xor, h.or_infinity]
      exact ⟨_, rfl, by rw [FloatFormat.Product, if_neg hnormal'.pos.ne']⟩
  | @zero s x hkind hsign hsig =>
    cases hunpack' with
    | nan hkind' => exact absurd (.inr hkind') hnan
    | infinite hkind' hsign' =>
      rw [if_pos (.inr hkind'), if_pos (.inl ⟨hkind, hsig⟩), h.nan_ok]
      exact ⟨_, rfl, by rw [FloatFormat.Product, if_pos rfl]⟩
    | zero hkind' hsign' _ | normal hkind' hsign' _ =>
      rw [if_neg (by simp [hkind, hkind']), if_pos (.inl hsig), hsign, hsign', signOf_xor]
      exact ⟨_, rfl, by rw [FloatFormat.Product, zero_mul]; exact rounded_zero F _⟩
  | @normal s v x hkind hsign hnormal =>
    cases hunpack' with
    | nan hkind' => exact absurd (.inr hkind') hnan
    | infinite hkind' hsign' =>
      rw [if_pos (.inr hkind'), if_neg (by simp [hkind', hnormal.ne_zero]), hsign, hsign', signOf_xor,
        h.or_infinity]
      exact ⟨_, rfl, by rw [FloatFormat.Product, if_neg hnormal.pos.ne', Bool.xor_comm]⟩
    | zero hkind' hsign' hsig' =>
      rw [if_neg (by simp [hkind, hkind']), if_pos (.inr hsig'), hsign, hsign', signOf_xor]
      exact ⟨_, rfl, by rw [FloatFormat.Product, mul_zero]; exact rounded_zero F _⟩
    | normal hkind' hsign' hnormal' =>
      rw [if_neg (by simp [hkind, hkind']), if_neg (by simp [hnormal.ne_zero, hnormal'.ne_zero]), hsign,
        hsign', signOf_xor]
      exact mulParts_spec h _ hnormal hnormal'

theorem dividend_spec {x y : SoftParts} (hx : x.significand < 2 ^ 53)
    (hlow : y.significand ≤ 2 * x.significand) (hhigh : x.significand < 2 * y.significand) {e : Int}
    (he : -2 ^ 32 ≤ e) (he' : e ≤ 2 ^ 32) : ∃ r e', dividend x y e = .ok (r, e') ∧
      y.significand ≤ r ∧ r < 2 * y.significand ∧ (r * 2 ^ e' : ℚ) = x.significand * 2 ^ e ∧
      e - 1 ≤ e' ∧ e' ≤ e := by
  unfold dividend
  split_ifs with hless
  · refine ⟨x.significand * 2 ^ 1, e - 1, ?_, by omega, by omega, ?_, by omega, by omega⟩
    · rw [shiftLeft_ok (by decide) (by omega), ok_bind, i64_ok (by omega) (by omega), ok_bind, pure_ok]
    rw [zpow_sub_one₀ two_ne_zero]
    push_cast
    field_simp
  · exact ⟨_, _, rfl, by omega, hhigh, rfl, by omega, by omega⟩

theorem divLoop_spec {d : Nat} (hd : d < 2 ^ 53) (n : Nat) : ∀ q r : Nat, r < 2 * d →
    (q + 1) * 2 ^ n ≤ 2 ^ 62 → ∃ q' r', divLoop d n q r = .ok (q', r') ∧ r' < 2 * d ∧
      (2 * q * d + r) * 2 ^ n = 2 * q' * d + r' ∧ q' < (q + 1) * 2 ^ n := by
  induction n with
  | zero =>
    intro q r hr _
    exact ⟨q, r, rfl, hr, by simp, by simp⟩
  | succ n ih =>
    intro q r hr hq
    have hq' : (2 * q + 1 + 1) * 2 ^ n ≤ 2 ^ 62 := by
      rw [pow_succ] at hq
      linarith
    have hsmall : q + 1 ≤ 2 ^ 62 :=
      le_trans (Nat.le_mul_of_pos_right _ (Nat.two_pow_pos _)) hq
    rw [divLoop, shiftLeft_ok (by decide) (by omega), ok_bind]
    split_ifs with hge
    · rw [subtract_ok hge, ok_bind, shiftLeft_ok (by decide) (by omega), ok_bind, or_one,
        show q * 2 ^ 1 / 2 * 2 + 1 = 2 * q + 1 by omega]
      obtain ⟨q', r', hloop, hr', hsum, hless⟩ := ih (2 * q + 1) ((r - d) * 2 ^ 1) (by omega) hq'
      refine ⟨q', r', hloop, hr', ?_, ?_⟩
      · rw [← hsum, pow_succ, ← mul_assoc, Nat.mul_right_comm]
        congr 1
        obtain ⟨k, rfl⟩ := Nat.exists_eq_add_of_le hge
        rw [Nat.add_sub_cancel_left]
        ring
      · rw [pow_succ]
        linarith
    rw [shiftLeft_ok (by decide) (by omega), ok_bind]
    obtain ⟨q', r', hloop, hr', hsum, hless⟩ := ih (q * 2 ^ 1) (r * 2 ^ 1) (by omega) (by
      refine le_trans (Nat.mul_le_mul_right _ ?_) hq'
      omega)
    refine ⟨q', r', hloop, hr', ?_, ?_⟩
    · rw [← hsum]
      ring
    · rw [Nat.pow_succ]
      nlinarith

theorem divParts_spec (h : Describes f F) (negative : Bool) (hv : Normal F v x) (hw : Normal F w y) :
    ∃ result, divParts (F.signOf negative) x y f = .ok result ∧
      F.Rounded negative (v / w) result := by
  have hbias := h.bias_le
  have hbits := h.le_bits
  have hpow : 2 ^ F.fraction ≤ 2 ^ 52 := by simpa using h.pow_fraction_le 0
  have hpow4 : 2 ^ (F.fraction + 4) ≤ 2 ^ 56 := h.pow_fraction_le 4
  have hsucc : 2 ^ (F.fraction + 4) = 2 * 2 ^ (F.fraction + 3) := Nat.pow_succ'
  have hsucc' : 2 ^ (F.fraction + 3) = 2 * 2 ^ (F.fraction + 2) := Nat.pow_succ'
  obtain ⟨hvalue, hlow, hhigh, hleast, hmost⟩ := hv
  obtain ⟨hvalue', hlow', hhigh', hleast', hmost'⟩ := hw
  obtain ⟨r, e, hdividend, hr, hr', hscale, he, he'⟩ :=
    @dividend_spec x y (by omega) (by omega) (by omega) (x.exponent - y.exponent) (by omega) (by omega)
  obtain ⟨q, rest, hloop, hrest, hdivision, hq⟩ := @divLoop_spec y.significand (by omega)
    (F.fraction + 4) 0 r hr' (by omega)
  rw [mul_zero, zero_mul, zero_add] at hdivision
  rw [zero_add, one_mul] at hq
  have hbig : 2 ^ (F.fraction + 3) ≤ q := by
    by_contra hsmall
    have hprod : q * y.significand + y.significand ≤ 2 ^ (F.fraction + 3) * y.significand := by
      rw [← Nat.succ_mul]
      exact Nat.mul_le_mul_right _ (by omega)
    have hprod' : y.significand * 2 ^ (F.fraction + 4) ≤ r * 2 ^ (F.fraction + 4) :=
      Nat.mul_le_mul_right _ hr
    rw [hdivision, hsucc] at hprod'
    linarith
  have hdivisor : (0 : ℚ) < y.significand := by exact_mod_cast (by omega : 0 < y.significand)
  have hdivision' : (r : ℚ) * 2 ^ (F.fraction + 3) / y.significand =
      q + rest / (2 * y.significand) := by
    have hcast : (r : ℚ) * 2 ^ (F.fraction + 4) = 2 * q * y.significand + rest := by
      exact_mod_cast hdivision
    rw [pow_succ] at hcast
    field_simp
    linarith
  have hsticky : Sticky 1 ((r : ℚ) * 2 ^ (F.fraction + 3) / y.significand)
      (if rest ≠ 0 then q ||| 1 else q) := by
    rw [hdivision', or_one]
    split_ifs with hzero
    · have hless : (rest : ℚ) < 2 * y.significand := by exact_mod_cast hrest
      have hmore : (0 : ℚ) < rest := by exact_mod_cast Nat.pos_of_ne_zero hzero
      refine Sticky.odd ?_ ?_
      · linarith [div_pos hmore (mul_pos two_pos hdivisor)]
      · linarith [(div_lt_one (mul_pos two_pos hdivisor)).mpr hless]
    · rw [not_not.mp hzero, Nat.cast_zero, zero_div, add_zero]
      exact Sticky.refl 1 q
  have hsig : 2 ^ (F.fraction + 2) ≤ (if rest ≠ 0 then q ||| 1 else q) ∧
      (if rest ≠ 0 then q ||| 1 else q) < 2 ^ 63 := by
    rw [or_one]
    split_ifs <;> omega
  obtain ⟨result, hpack, hround⟩ := softPack_spec h negative hsticky (e := e) (by omega) hsig.2
    (.inr hsig.1) (by omega) (by omega)
  have hunit : (r : ℚ) * 2 ^ (F.fraction + 3) / y.significand * 2 ^ (e - F.fraction - 3) = v / w := by
    have hsplit : (2 : ℚ) ^ (F.fraction + 3) * 2 ^ (e - F.fraction - 3) = 2 ^ e := by
      rw [← zpow_natCast, ← zpow_add₀ two_ne_zero]
      congr 1
      push_cast
      ring
    rw [div_mul_eq_mul_div, mul_assoc, hsplit, hscale, hvalue, hvalue', zpow_sub₀ two_ne_zero,
      zpow_sub₀ two_ne_zero, zpow_sub₀ two_ne_zero]
    field_simp
  refine ⟨result, ?_, hunit ▸ hround⟩
  unfold divParts
  rw [i64_ok (by omega) (by omega), ok_bind, hdividend, ok_bind]
  dsimp only
  rw [h.fraction, u64_ok (by omega), ok_bind, hloop, ok_bind]
  exact hpack

theorem softDiv_spec (h : Describes f F) (ha : a < 2 * F.signBit) (hb : b < 2 * F.signBit) :
    ∃ result, softDiv a b f = .ok result ∧ F.Quotient (F.datum a) (F.datum b) result := by
  obtain ⟨x, hx, hunpack⟩ := softUnpack_spec h ha
  obtain ⟨y, hy, hunpack'⟩ := softUnpack_spec h hb
  unfold softDiv
  rw [hx, ok_bind, hy, ok_bind]
  generalize F.datum a = da at *
  generalize F.datum b = db at *
  by_cases hnan : x.kind = .nan ∨ y.kind = .nan
  · rw [if_pos (hnan.imp_right .inl), h.nan_ok]
    rcases hnan.imp hunpack.eq_nan hunpack'.eq_nan with rfl | rfl
    · exact ⟨_, rfl, by cases db <;> rfl⟩
    · exact ⟨_, rfl, by cases da <;> rfl⟩
  cases hunpack with
  | nan hkind => exact absurd (.inl hkind) hnan
  | @infinite s x hkind hsign =>
    cases hunpack' with
    | nan hkind' => exact absurd (.inr hkind') hnan
    | infinite hkind' hsign' =>
      rw [if_pos (.inr (.inr ⟨hkind, hkind'⟩)), h.nan_ok]
      exact ⟨_, rfl, rfl⟩
    | zero hkind' hsign' _ | normal hkind' hsign' _ =>
      rw [if_neg (by simp [hkind, hkind']), if_pos hkind, hsign, hsign', signOf_xor, h.or_infinity]
      exact ⟨_, rfl, rfl⟩
  | @zero s x hkind hsign hsig =>
    rw [if_neg (by simp_all), if_neg (by simp [hkind])]
    cases hunpack' with
    | nan hkind' => exact absurd (.inr hkind') hnan
    | infinite hkind' hsign' =>
      rw [if_pos hkind', hsign, hsign', signOf_xor]
      exact ⟨_, rfl, rfl⟩
    | zero hkind' hsign' hsig' =>
      rw [if_neg (by simp [hkind']), if_pos hsig', if_pos hsig, h.nan_ok]
      exact ⟨_, rfl, by rw [FloatFormat.Quotient, if_pos rfl, if_pos rfl]⟩
    | normal hkind' hsign' hnormal' =>
      rw [if_neg (by simp [hkind']), if_neg hnormal'.ne_zero, if_pos hsig, hsign, hsign', signOf_xor]
      refine ⟨_, rfl, ?_⟩
      rw [FloatFormat.Quotient, if_neg hnormal'.pos.ne', zero_div]
      exact rounded_zero F _
  | @normal s v x hkind hsign hnormal =>
    rw [if_neg (by simp_all), if_neg (by simp [hkind])]
    cases hunpack' with
    | nan hkind' => exact absurd (.inr hkind') hnan
    | infinite hkind' hsign' =>
      rw [if_pos hkind', hsign, hsign', signOf_xor]
      exact ⟨_, rfl, rfl⟩
    | zero hkind' hsign' hsig' =>
      rw [if_neg (by simp [hkind']), if_pos hsig', if_neg hnormal.ne_zero, hsign, hsign', signOf_xor,
        h.or_infinity]
      exact ⟨_, rfl, by rw [FloatFormat.Quotient, if_pos rfl, if_neg hnormal.pos.ne']⟩
    | normal hkind' hsign' hnormal' =>
      rw [if_neg (by simp [hkind']), if_neg hnormal'.ne_zero, if_neg hnormal.ne_zero, hsign, hsign',
        signOf_xor]
      obtain ⟨result, hdiv, hround⟩ := divParts_spec h (s ^^ _) hnormal hnormal'
      refine ⟨result, hdiv, ?_⟩
      rw [FloatFormat.Quotient, if_neg hnormal'.pos.ne']
      exact hround

end Dyn.SoftFloat
