import Dyn.Support.Remainder

/-!
# Conversions of soft float

Conversions between the formats and from integers round once (`softConvert_spec`,
`softFromInteger_spec`, `softFromSigned_spec`); those to integers truncate (`softToInteger_spec`).
`soft_exact` collects what all operations return.
-/

namespace Dyn.SoftFloat

open Mem (Panic)
open Lib FloatFormat

variable {f : SoftFormat} {F : FloatFormat}

variable {source dest : SoftFormat} {S D : FloatFormat} {magnitude : Nat} {v : ℚ} {signed s : Bool}

/-- The significand in the other format stands for the same number. -/
theorem rescale_spec (hs : Describes source S) (hd : Describes dest D) {sig : Nat}
    (hlow : 2 ^ (S.fraction + 3) ≤ sig) (hhigh : sig < 2 ^ (S.fraction + 4)) :
    ∃ (s : Nat) (v : ℚ), rescale sig source dest = .ok s ∧
      Sticky 1 v s ∧ 2 ^ (D.fraction + 2) ≤ s ∧ s < 2 ^ 63 ∧
      v * 2 ^ S.fraction = sig * 2 ^ D.fraction := by
  have hsource : 2 ^ (S.fraction + 4) ≤ 2 ^ 56 := hs.pow_fraction_le 4
  have hdbits := hd.le_bits
  unfold rescale
  rw [hs.fraction, hd.fraction]
  split_ifs with hwider
  · obtain ⟨d, hdistance⟩ := Nat.exists_eq_add_of_lt hwider
    have hsum : D.fraction - S.fraction = d + 1 := by omega
    have htop : sig * 2 ^ (d + 1) < 2 ^ (D.fraction + 4) := by
      rw [show D.fraction + 4 = S.fraction + 4 + (d + 1) by omega, pow_add _ _ (d + 1)]
      exact Nat.mul_lt_mul_of_pos_right hhigh (Nat.two_pow_pos _)
    have hbound : 2 ^ (D.fraction + 4) ≤ 2 ^ 56 := hd.pow_fraction_le 4
    have hleast : 2 ^ (D.fraction + 3) ≤ sig * 2 ^ (d + 1) := by
      rw [show D.fraction + 3 = S.fraction + 3 + (d + 1) by omega, pow_add _ _ (d + 1)]
      exact Nat.mul_le_mul_right _ hlow
    have hstep : 2 ^ (D.fraction + 3) = 2 * 2 ^ (D.fraction + 2) := Nat.pow_succ'
    refine ⟨sig * 2 ^ (d + 1), _, ?_, Sticky.refl 1 _, by omega, by omega, ?_⟩
    · rw [subtract_ok (by omega), ok_bind, hsum, shiftLeft_ok (by omega) (by omega)]
    rw [show D.fraction = S.fraction + (d + 1) by omega, pow_add]
    push_cast
    ring
  obtain ⟨d, hdistance⟩ := Nat.exists_eq_add_of_le (Nat.not_lt.mp hwider)
  have hsum : S.fraction - D.fraction = d := by omega
  have hleast : 2 ^ (D.fraction + 3) ≤ sig / 2 ^ d := by
    rw [Nat.le_div_iff_mul_le (Nat.two_pow_pos _), ← pow_add,
      show D.fraction + 3 + d = S.fraction + 3 by omega]
    exact hlow
  have hmost : sig / 2 ^ d ≤ sig := Nat.div_le_self _ _
  have hstep : 2 ^ (D.fraction + 3) = 2 * 2 ^ (D.fraction + 2) := Nat.pow_succ'
  have hjam : 2 ^ (D.fraction + 2) ≤ jam sig d ∧ jam sig d < 2 ^ 63 := by
    unfold jam
    split_ifs <;> omega
  refine ⟨jam sig d, _, ?_, (Sticky.refl (d + 1) sig).jam, hjam.1, hjam.2, ?_⟩
  · rw [subtract_ok (by omega), ok_bind, hsum, softJam_ok (by omega)]
  · rw [hdistance, pow_add]
    field_simp

theorem rescale_zero (hs : Describes source S) (hd : Describes dest D) :
    rescale 0 source dest = .ok 0 := by
  have hdbits := hd.le_bits
  unfold rescale
  rw [hs.fraction, hd.fraction]
  split_ifs with hwider
  · rw [subtract_ok (by omega), ok_bind, shiftLeft_ok (by omega) (by omega), zero_mul]
  · rw [subtract_ok (by omega), ok_bind, softJam_ok (by decide), jam, Nat.zero_mod, if_pos rfl,
      Nat.zero_div]

theorem softConvert_spec (hs : Describes source S) (hd : Describes dest D) {a : Nat}
    (ha : a < 2 * S.signBit) :
    ∃ result, softConvert a source dest = .ok result ∧ D.Converted (S.datum a) result := by
  have hsbits := hs.le_bits
  have hsbias := hs.bias_le
  have hsign (t : Bool) : (if S.signOf t ≠ 0 then dest.sign else 0) = D.signOf t := by
    rw [hd.sign]
    cases t
    case false => rw [if_neg (by simp [signOf])]; rfl
    case true => rw [if_pos fun hc => by simpa using (signOf_eq_zero S).mp hc]; rfl
  obtain ⟨x, hx, hunpack⟩ := softUnpack_spec hs ha
  unfold softConvert
  rw [hx, ok_bind]
  generalize S.datum a = da at *
  cases hunpack with
  | nan hkind =>
    rw [if_pos hkind, hd.nan_ok]
    exact ⟨_, rfl, rfl⟩
  | @infinite t x hkind hxsign =>
    rw [if_neg (by simp [hkind]), if_pos hkind, hxsign, hsign, hd.or_infinity]
    exact ⟨_, rfl, rfl⟩
  | @zero t x hkind hxsign hsig =>
    rw [if_neg (by simp [hkind]), if_neg (by simp [hkind]), hxsign, hsign, hsig,
      shiftLeft_ok (by decide) (by decide), ok_bind, zero_mul, rescale_zero hs hd, ok_bind,
      softPack_zero]
    exact ⟨_, rfl, rounded_zero D t⟩
  | @normal t v x hkind hxsign hnormal =>
    obtain ⟨hvalue, hlow, hhigh, hleast, hmost⟩ := hnormal
    have hpow : 2 ^ S.fraction ≤ 2 ^ 52 := by simpa using hs.pow_fraction_le 0
    obtain ⟨s, w, hrescale, hsticky, hslow, hshigh, hw⟩ := rescale_spec hs hd
      (show 2 ^ (S.fraction + 3) ≤ x.significand * 2 ^ 3 by rw [pow_add]; omega)
      (by rw [pow_add]; omega)
    have hpos : 0 < 2 ^ (D.fraction + 2) := Nat.two_pow_pos _
    obtain ⟨result, hpack, hround⟩ := softPack_spec hd t hsticky (e := x.exponent) (by omega) hshigh
      (.inr hslow) (by omega) (by omega)
    rw [if_neg (by simp [hkind]), if_neg (by simp [hkind]), hxsign, hsign,
      shiftLeft_ok (by decide) (by omega), ok_bind, hrescale, ok_bind]
    refine ⟨result, hpack, ?_⟩
    have hunit : w * 2 ^ (x.exponent - D.fraction - 3) = v := by
      have hw' : w = x.significand * 8 * 2 ^ D.fraction / 2 ^ S.fraction := by
        rw [eq_div_iff (by positivity), hw]
        push_cast
        ring
      rw [hvalue, hw', zpow_sub₀ two_ne_zero _ 3, zpow_sub₀ two_ne_zero, zpow_sub₀ two_ne_zero,
        zpow_natCast, zpow_natCast]
      field_simp
      norm_num
    exact hunit ▸ hround

theorem topExponent_spec (top : Nat) : ∀ e : Int, 0 < top → 0 ≤ e → e + Nat.log2 top < 2 ^ 62 →
    topExponent top e = .ok (e + Nat.log2 top) := by
  induction top using Nat.strong_induction_on with
  | _ top ih =>
    intro e hpos he hsmall
    rw [topExponent, Nat.log2_def top]
    rw [Nat.log2_def top] at hsmall
    split_ifs with hmore htwo
    · rw [if_pos (by omega)] at hsmall
      push_cast at hsmall ⊢
      rw [i64_ok (by omega) (by omega), ok_bind, Nat.shiftRight_one,
        ih (top / 2) (by omega) (e + 1) (by omega) (by omega) (by omega)]
      congr 1
      ring
    · omega
    · omega
    · simp

theorem softFromInteger_spec (h : Describes f F) (hm : magnitude < 2 ^ 64) (negative : Bool) :
    ∃ result, softFromInteger magnitude negative f = .ok result ∧
      F.Rounded (negative && decide (magnitude ≠ 0)) magnitude result := by
  have hbits := h.le_bits
  unfold softFromInteger
  rcases Nat.eq_zero_or_pos magnitude with rfl | hpos
  · refine ⟨0, rfl, ?_⟩
    simpa [signOf] using rounded_zero F false
  have hlog : Nat.log2 magnitude < 64 := (Nat.log2_lt hpos.ne').mpr hm
  have hlow := Nat.log2_self_le hpos.ne'
  have hhigh := @Nat.lt_log2_self magnitude
  have hsign : (if negative then f.sign else 0) = F.signOf negative := by rw [h.sign]; rfl
  rw [if_neg hpos.ne', topExponent_spec magnitude 0 hpos (le_refl 0) (by omega), ok_bind, h.fraction,
    u64_ok (by omega), ok_bind, hsign, zero_add, decide_eq_true hpos.ne', Bool.and_true]
  generalize Nat.log2 magnitude = top at *
  -- The integer as a significand with its leading bit in place.
  have halign : ∃ (s : Nat) (v : ℚ), alignInteger magnitude top (F.fraction + 3) = .ok s ∧
      Sticky 1 v s ∧ 2 ^ (F.fraction + 2) ≤ s ∧ s < 2 ^ 63 ∧
      v * 2 ^ top = magnitude * 2 ^ (F.fraction + 3) := by
    have hstep : 2 ^ (F.fraction + 3) = 2 * 2 ^ (F.fraction + 2) := Nat.pow_succ'
    unfold alignInteger
    rw [castU64_natCast (by omega)]
    split_ifs with hwide
    · obtain ⟨d, hd⟩ := Nat.exists_eq_add_of_le hwide.le
      have hleast : 2 ^ (F.fraction + 3) ≤ magnitude / 2 ^ d := by
        rw [Nat.le_div_iff_mul_le (Nat.two_pow_pos _), ← pow_add, ← hd]
        exact hlow
      have hmost : magnitude / 2 ^ d ≤ magnitude / 2 ^ 1 :=
        Nat.div_le_div_left (Nat.pow_le_pow_right (by decide) (by omega)) (by decide)
      have hjam : 2 ^ (F.fraction + 2) ≤ jam magnitude d ∧ jam magnitude d < 2 ^ 63 := by
        unfold jam
        split_ifs <;> omega
      refine ⟨jam magnitude d, _, ?_, (Sticky.refl (d + 1) magnitude).jam, hjam.1, hjam.2, ?_⟩
      · rw [subtract_ok (by omega), ok_bind, show top - (F.fraction + 3) = d by omega, softJam_ok hm]
      · rw [hd, pow_add 2 (F.fraction + 3)]
        field_simp
    obtain ⟨d, hd⟩ := Nat.exists_eq_add_of_le (Nat.not_lt.mp hwide)
    have hleast : 2 ^ (F.fraction + 3) ≤ magnitude * 2 ^ d := by
      rw [hd, pow_add]
      exact Nat.mul_le_mul_right _ hlow
    have hmost : magnitude * 2 ^ d < 2 ^ (F.fraction + 4) := by
      rw [show F.fraction + 4 = top + 1 + d by omega, pow_add]
      exact Nat.mul_lt_mul_of_pos_right hhigh (Nat.two_pow_pos _)
    have hbound : 2 ^ (F.fraction + 4) ≤ 2 ^ 56 := h.pow_fraction_le 4
    refine ⟨magnitude * 2 ^ d, _, ?_, Sticky.refl 1 _, by omega, by omega, ?_⟩
    · rw [subtract_ok (by omega), ok_bind, show F.fraction + 3 - top = d by omega,
        shiftLeft_ok (by omega) (by omega)]
    rw [hd, pow_add]
    push_cast
    ring
  obtain ⟨s, v, halign, hsticky, hslow, hshigh, hv⟩ := halign
  have hpow : 0 < 2 ^ (F.fraction + 2) := Nat.two_pow_pos _
  obtain ⟨result, hpack, hround⟩ := softPack_spec h negative hsticky (e := top) (by omega) hshigh
    (.inr hslow) (by omega) (by omega)
  rw [halign, ok_bind]
  refine ⟨result, hpack, ?_⟩
  have hunit : v * 2 ^ ((top : Int) - F.fraction - 3) = magnitude := by
    rw [sub_sub, zpow_sub₀ two_ne_zero, zpow_natCast, ← mul_div_assoc, hv,
      show (F.fraction : Int) + 3 = (F.fraction + 3 : Nat) by push_cast; rfl, zpow_natCast]
    field_simp
  exact hunit ▸ hround

theorem complement {n : Nat} (h : n < 2 ^ 64) : n ^^^ 0xffffffffffffffff = 2 ^ 64 - (n + 1) := by
  apply Nat.eq_of_testBit_eq
  intro i
  rw [Nat.testBit_xor, Nat.testBit_two_pow_sub_succ h,
    show 0xffffffffffffffff = 2 ^ 64 - 1 from rfl, Nat.testBit_two_pow_sub_one]
  by_cases hi : i < 64
  · simp [hi]
  have hzero : n.testBit i = false :=
    Nat.testBit_lt_two_pow (lt_of_lt_of_le h (Nat.pow_le_pow_right (by decide) (by omega)))
  simp [hi, hzero]

theorem softFromSigned_spec (h : Describes f F) {a : Int} (hlow : -2 ^ 63 ≤ a) (hhigh : a < 2 ^ 63) :
    ∃ result, softFromSigned a f = .ok result ∧ F.Rounded (decide (a < 0)) |(a : ℚ)| result := by
  unfold softFromSigned
  dsimp only
  split_ifs with hsign
  · obtain ⟨n, rfl⟩ := Int.eq_ofNat_of_zero_le hsign
    rw [castU64_natCast (by omega)]
    obtain ⟨result, hresult, hround⟩ := softFromInteger_spec h (show n < 2 ^ 64 by omega) false
    refine ⟨result, hresult, ?_⟩
    rw [Bool.false_and] at hround
    rw [decide_eq_false (by omega)]
    simpa using hround
  obtain ⟨n, hn⟩ := Int.eq_ofNat_of_zero_le (show 0 ≤ -a by omega)
  obtain rfl : a = -n := by omega
  have hbits : castU64 (-n) = 2 ^ 64 - n := by
    unfold castU64
    omega
  rw [hbits, complement (by omega), show 2 ^ 64 - (2 ^ 64 - n + 1) + 1 = n by omega,
    u64_ok (by omega), ok_bind]
  obtain ⟨result, hresult, hround⟩ := softFromInteger_spec h (show n < 2 ^ 64 by omega) true
  refine ⟨result, hresult, ?_⟩
  rw [Bool.true_and, decide_eq_true (show n ≠ 0 by omega)] at hround
  rw [decide_eq_true (by omega)]
  simpa using hround

/-- **The integer part as 64 bits,** and the invalid pattern where it is out of range. -/
def Truncated (signed : Bool) : Datum → Nat → Prop
  | .finite s x, result =>
      let n : Int := if s then -⌊x⌋ else ⌊x⌋
      result = if (if signed then -2 ^ 63 ≤ n ∧ n < 2 ^ 63 else 0 ≤ n ∧ n < 2 ^ 64) then castU64 n
        else 0x8000000000000000
  | _, result => result = 0x8000000000000000

theorem integerPart_spec (h : Describes f F) {x : SoftParts} (hx : Normal F v x)
    (hlow : 0 ≤ x.exponent) (hhigh : x.exponent ≤ 63) :
    ∃ magnitude, integerPart x f = .ok magnitude ∧ ⌊v⌋ = magnitude ∧ magnitude < 2 ^ 64 := by
  have hbits := h.le_bits
  have hpow : 2 ^ F.fraction ≤ 2 ^ 52 := by simpa using h.pow_fraction_le 0
  obtain ⟨hvalue, -, hsig, -, -⟩ := hx
  obtain ⟨e, he⟩ := Int.eq_ofNat_of_zero_le hlow
  unfold integerPart
  rw [he] at hvalue hhigh ⊢
  rw [castU64_natCast (by omega), h.fraction]
  split_ifs with hwide
  · obtain ⟨d, hd⟩ := Nat.exists_eq_add_of_le hwide.le
    have hfits : x.significand * 2 ^ d < 2 ^ 64 := by
      calc x.significand * 2 ^ d < 2 * 2 ^ F.fraction * 2 ^ d :=
            Nat.mul_lt_mul_of_pos_right hsig (Nat.two_pow_pos _)
        _ = 2 ^ (e + 1) := by rw [hd]; ring
        _ ≤ 2 ^ 64 := Nat.pow_le_pow_right (by decide) (by omega)
    refine ⟨x.significand * 2 ^ d, ?_, ?_, hfits⟩
    · rw [subtract_ok hwide.le, ok_bind, show e - F.fraction = d by omega, shiftLeft_ok (by omega) hfits]
    rw [hvalue, hd, show ((F.fraction + d : Nat) : Int) - F.fraction = (d : Int) by push_cast; ring,
      zpow_natCast]
    exact_mod_cast Int.floor_natCast (R := ℚ) (x.significand * 2 ^ d)
  obtain ⟨d, hd⟩ := Nat.exists_eq_add_of_le (Nat.not_lt.mp hwide)
  refine ⟨x.significand / 2 ^ d, ?_, ?_, ?_⟩
  · rw [subtract_ok (by omega), ok_bind, show F.fraction - e = d by omega, shiftRight_ok (by omega)]
  · rw [hvalue, hd, show (e : Int) - (e + d : Nat) = -(d : Int) by push_cast; ring, zpow_neg,
      zpow_natCast, ← div_eq_mul_inv]
    exact_mod_cast Rat.floor_natCast_div_natCast x.significand (2 ^ d)
  · exact lt_of_le_of_lt (Nat.div_le_self _ _) (by omega)

theorem truncated_far (h : 2 ^ 64 ≤ v) : Truncated signed (.finite s v) 0x8000000000000000 := by
  have hfloor : 2 ^ 64 ≤ ⌊v⌋ := Int.le_floor.mpr (by exact_mod_cast h)
  unfold Truncated
  dsimp only
  rw [if_neg]
  split_ifs <;> omega

theorem truncated_small (hlow : 0 ≤ v) (hhigh : v < 1) : Truncated signed (.finite s v) 0 := by
  have hfloor : ⌊v⌋ = 0 := Int.floor_eq_zero_iff.mpr ⟨hlow, hhigh⟩
  unfold Truncated
  dsimp only
  rw [hfloor]
  cases signed <;> cases s <;> rfl

theorem truncated_magnitude {sign : Nat} (hsign : sign = 0 ↔ s = false) (hfloor : ⌊v⌋ = magnitude)
    (hone : 1 ≤ magnitude) (hfits : magnitude < 2 ^ 64) : ∃ result,
      (if signed ∧ sign = 0 ∧ magnitude ≥ 0x8000000000000000 then pure 0x8000000000000000
      else if signed ∧ sign ≠ 0 ∧ magnitude > 0x8000000000000000 then pure 0x8000000000000000
      else if ¬ signed ∧ sign ≠ 0 then pure 0x8000000000000000
      else if sign ≠ 0 then u64 ((magnitude ^^^ 0xffffffffffffffff) + 1)
      else pure magnitude : Except Panic Nat) = .ok result ∧ Truncated signed (.finite s v) result := by
  have hcast : castU64 (-(magnitude : Int)) = 2 ^ 64 - (magnitude + 1) + 1 := by
    unfold castU64
    omega
  unfold Truncated
  dsimp only
  rw [hfloor, complement hfits]
  cases s with
  | false =>
    simp only [hsign.mpr rfl, Bool.false_eq_true, if_false]
    cases signed with
    | false =>
      refine ⟨magnitude, by simp [pure_ok], ?_⟩
      rw [if_pos ⟨by omega, by omega⟩, castU64_natCast hfits]
    | true =>
      simp only [if_true]
      rcases lt_or_ge magnitude 0x8000000000000000 with hin | hout
      · refine ⟨magnitude, by simp [hin, pure_ok], ?_⟩
        rw [if_pos ⟨by omega, by omega⟩, castU64_natCast hfits]
      · refine ⟨0x8000000000000000, by simp [hout, pure_ok], ?_⟩
        rw [if_neg (by omega)]
  | true =>
    have hnonzero : sign ≠ 0 := fun hc => Bool.false_ne_true (hsign.mp hc).symm
    simp only [if_true]
    cases signed with
    | false =>
      refine ⟨0x8000000000000000, by simp [hnonzero, pure_ok], ?_⟩
      simp only [Bool.false_eq_true, if_false]
      rw [if_neg (by omega)]
    | true =>
      simp only [if_true]
      rcases lt_or_ge 0x8000000000000000 magnitude with hout | hin
      · refine ⟨0x8000000000000000, by simp [hnonzero, hout, pure_ok], ?_⟩
        rw [if_neg (by omega)]
      refine ⟨2 ^ 64 - (magnitude + 1) + 1, ?_, ?_⟩
      · rw [if_neg fun hc => hnonzero hc.2.1, if_neg (by omega), if_neg (by simp),
          if_pos hnonzero, u64_ok (by omega)]
      · rw [if_pos ⟨by omega, by omega⟩, hcast]

theorem softToInteger_spec (h : Describes f F) {a : Nat} (ha : a < 2 * F.signBit) (signed : Bool) :
    ∃ result, softToInteger a signed f = .ok result ∧ Truncated signed (F.datum a) result := by
  obtain ⟨x, hx, hunpack⟩ := softUnpack_spec h ha
  unfold softToInteger
  rw [hx, ok_bind]
  generalize F.datum a = da at *
  cases hunpack with
  | nan hkind | infinite hkind _ =>
    rw [if_pos (by simp [hkind])]
    exact ⟨_, rfl, rfl⟩
  | zero hkind _ hsig =>
    rw [if_neg (by simp [hkind]), if_pos (.inl hsig)]
    exact ⟨_, rfl, truncated_small le_rfl one_pos⟩
  | @normal s v x hkind hsign hnormal =>
    have hpos := hnormal.pos
    have hsig : (x.significand : ℚ) < 2 * 2 ^ F.fraction := by exact_mod_cast hnormal.high
    have hlow : (2 : ℚ) ^ F.fraction ≤ x.significand := by exact_mod_cast hnormal.low
    rw [if_neg (by simp [hkind])]
    split
    · have hexponent : x.exponent + 1 ≤ 0 := by
        have hnonzero := hnormal.ne_zero
        omega
      refine ⟨0, rfl, truncated_small hpos.le ?_⟩
      calc v = x.significand * 2 ^ (x.exponent - F.fraction) := hnormal.value
        _ < 2 * 2 ^ F.fraction * 2 ^ (x.exponent - F.fraction) := by gcongr
        _ = 2 ^ (x.exponent + 1) := by
            rw [zpow_sub₀ two_ne_zero, zpow_natCast, zpow_add_one₀ two_ne_zero]
            field_simp
        _ ≤ 1 := zpow_le_one_of_nonpos₀ one_le_two hexponent
    have hleast : (2 : ℚ) ^ x.exponent ≤ v := by
      calc (2 : ℚ) ^ x.exponent = 2 ^ F.fraction * 2 ^ (x.exponent - F.fraction) := by
            rw [zpow_sub₀ two_ne_zero, zpow_natCast]
            field_simp
        _ ≤ x.significand * 2 ^ (x.exponent - F.fraction) := by gcongr
        _ = v := hnormal.value.symm
    split
    · refine ⟨_, rfl, truncated_far ?_⟩
      calc (2 : ℚ) ^ 64 = 2 ^ (64 : Int) := by norm_num
        _ ≤ 2 ^ x.exponent := zpow_le_zpow_right₀ one_le_two (by omega)
        _ ≤ v := hleast
    obtain ⟨magnitude, hpart, hfloor, hfits⟩ := integerPart_spec h hnormal (by omega) (by omega)
    have hone : (1 : Int) ≤ ⌊v⌋ := by
      rw [Int.le_floor, Int.cast_one]
      exact le_trans (one_le_zpow₀ one_le_two (by omega)) hleast
    rw [hpart, ok_bind]
    exact truncated_magnitude (by rw [hsign]; exact signOf_eq_zero F) hfloor (by omega) hfits

/-- **Soft float is exact.**  On all bit patterns of both formats each operation returns, without a
panic, the result that its specification names. -/
theorem soft_exact (wide : Bool) :
    (∀ a b, a < 2 * (binary wide).signBit → b < 2 * (binary wide).signBit →
      (∃ result, softAdd a b (softFormat wide) = .ok result ∧
        (binary wide).Sum ((binary wide).datum a) ((binary wide).datum b) result) ∧
      (∃ result, softMul a b (softFormat wide) = .ok result ∧
        (binary wide).Product ((binary wide).datum a) ((binary wide).datum b) result) ∧
      (∃ result, softDiv a b (softFormat wide) = .ok result ∧
        (binary wide).Quotient ((binary wide).datum a) ((binary wide).datum b) result) ∧
      (∃ result, softRem a b (softFormat wide) = .ok result ∧
        (binary wide).Remainder ((binary wide).datum a) ((binary wide).datum b) result) ∧
      ∃ result, softCompare a b (softFormat wide) = .ok result ∧
        ((binary wide).datum a).Compared ((binary wide).datum b) result) ∧
    (∀ a, a < 2 * (binary wide).signBit →
      (∀ dest, ∃ result, softConvert a (softFormat wide) (softFormat dest) = .ok result ∧
        (binary dest).Converted ((binary wide).datum a) result) ∧
      ∀ signed, ∃ result, softToInteger a signed (softFormat wide) = .ok result ∧
        Truncated signed ((binary wide).datum a) result) ∧
    (∀ (magnitude : Nat) (negative : Bool), magnitude < 2 ^ 64 →
      ∃ result, softFromInteger magnitude negative (softFormat wide) = .ok result ∧
        (binary wide).Rounded (negative && decide (magnitude ≠ 0)) magnitude result) ∧
    ∀ a : Int, -2 ^ 63 ≤ a → a < 2 ^ 63 →
      ∃ result, softFromSigned a (softFormat wide) = .ok result ∧
        (binary wide).Rounded (decide (a < 0)) |(a : ℚ)| result := by
  have h := softFormat_describes wide
  refine ⟨fun a b ha hb => ?_, fun a ha => ?_, fun _ negative hm => softFromInteger_spec h hm negative,
    fun _ hlow hhigh => softFromSigned_spec h hlow hhigh⟩
  · exact ⟨softAdd_spec h ha hb, softMul_spec h ha hb, softDiv_spec h ha hb, softRem_spec h ha hb,
      softCompare_spec h ha hb⟩
  · exact ⟨fun dest => softConvert_spec h (softFormat_describes dest) ha,
      fun signed => softToInteger_spec h ha signed⟩

/-- The binary64 patterns of 1.5 and of the least subnormal number. -/
theorem soft_exact_least :
    ∃ result, softAdd 0x3ff8000000000000 1 (softFormat true) = .ok result ∧
      (binary true).Sum ((binary true).datum 0x3ff8000000000000) ((binary true).datum 1) result :=
  ((soft_exact true).1 0x3ff8000000000000 1 (by decide) (by decide)).1

end Dyn.SoftFloat
