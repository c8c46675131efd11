import Dyn.Backend.Divisions
import Dyn.Lib.Sticky

/-!
# Divisions by constants are exact

The wide division is exact (`ssaDivideWide_spec`), so that its quotient gives a reciprocal
(`reciprocal_spec`) and each sequence of operations the quotient that truncates.
`divisions_exact` follows the values of one division; `ssaDivisions_run` the whole pass.
-/

namespace Dyn.Backend

open Lib List

variable {d : BitVec 64}

theorem divideWideLoop_spec (bit : Nat) : ∀ q r : BitVec 64, r.toNat < d.toNat →
    bit ≤ 64 → q.toNat < 2 ^ (64 - bit) →
    (divideWideLoop d bit q r).2.toNat < d.toNat ∧
      (divideWideLoop d bit q r).1.toNat * d.toNat + (divideWideLoop d bit q r).2.toNat =
        (q.toNat * d.toNat + r.toNat) * 2 ^ bit := by
  induction bit with
  | zero =>
    intro q r hr _ _
    exact ⟨hr, by rw [divideWideLoop, pow_zero, mul_one]⟩
  | succ bit ih =>
    intro q r hr hbit hq
    have hpow : 2 ^ (64 - bit) = 2 * 2 ^ (64 - (bit + 1)) := by
      rw [← pow_succ']
      congr 1
      omega
    have hmost : 2 ^ (64 - bit) ≤ 2 ^ 64 := Nat.pow_le_pow_right (by decide) (by omega)
    have hq' : (q <<< 1).toNat = 2 * q.toNat := by
      rw [BitVec.toNat_shiftLeft, Nat.shiftLeft_eq, Nat.mod_eq_of_lt (by omega)]
      omega
    have hr' : (r <<< 1).toNat = 2 * r.toNat % 2 ^ 64 := by
      rw [BitVec.toNat_shiftLeft, Nat.shiftLeft_eq, Nat.pow_one, mul_comm]
    have hcarry : r >>> 63 ≠ 0 ↔ 2 ^ 63 ≤ r.toNat := by
      rw [Ne, ← BitVec.toNat_inj, BitVec.toNat_ushiftRight, Nat.shiftRight_eq_div_pow,
        show (0 : BitVec 64).toNat = 0 from rfl]
      omega
    have hcond : (r >>> 63 ≠ 0 ∨ r <<< 1 ≥ d) ↔ d.toNat ≤ 2 * r.toNat := by
      rw [hcarry, ge_iff_le, BitVec.le_def, hr']
      omega
    rw [divideWideLoop]
    split_ifs with hless
    · rw [hcond] at hless
      have hor : (q <<< 1 ||| 1).toNat = 2 * q.toNat + 1 := by
        rw [BitVec.toNat_or, hq', show (1 : BitVec 64).toNat = 1 from rfl, or_one]
        omega
      have hsub : (r <<< 1 - d).toNat = 2 * r.toNat - d.toNat := by
        rw [BitVec.toNat_sub, hr']
        omega
      obtain ⟨hlt, heq⟩ := ih (q <<< 1 ||| 1) (r <<< 1 - d) (by omega) (by omega) (by omega)
      refine ⟨hlt, heq.trans ?_⟩
      rw [hor, hsub, pow_succ', ← mul_assoc]
      congr 1
      have : (2 * q.toNat + 1) * d.toNat = 2 * (q.toNat * d.toNat) + d.toNat := by ring
      omega
    rw [hcond] at hless
    have hdouble : (r <<< 1).toNat = 2 * r.toNat := by omega
    obtain ⟨hlt, heq⟩ := ih (q <<< 1) (r <<< 1) (by omega) (by omega) (by omega)
    refine ⟨hlt, heq.trans ?_⟩
    rw [hq', hdouble, pow_succ', ← mul_assoc]
    congr 1
    ring

theorem ssaDivideWide_spec {high : BitVec 64} (h : high < d) :
    (ssaDivideWide high d).1.toNat = high.toNat * 2 ^ 64 / d.toNat ∧
      (ssaDivideWide high d).2.toNat = high.toNat * 2 ^ 64 % d.toNat := by
  obtain ⟨hlt, heq⟩ := divideWideLoop_spec 64 0 high (BitVec.lt_def.mp h) le_rfl (by decide)
  rw [show (0 : BitVec 64).toNat = 0 from rfl, zero_mul, zero_add] at heq
  have hd : 0 < d.toNat := by omega
  unfold ssaDivideWide
  rw [← heq]
  constructor
  · rw [mul_comm, Nat.mul_add_div hd, Nat.div_eq_of_lt hlt, add_zero]
  · rw [mul_comm, Nat.mul_add_mod, Nat.mod_eq_of_lt hlt]

/-- A divisor that is not a power of two, between `2 ^ log` and its double. -/
structure Between (d : BitVec 64) (log : Nat) : Prop where
  low : 2 ^ log < d.toNat
  high : d.toNat < 2 ^ (log + 1)
  log_lt : log < 64

/-- The quotient of a power of two by such a divisor has no more bits than it should. -/
theorem Between.quotient_lt {log : Nat} (h : Between d log) (n : Nat) (hn : log < n) :
    2 ^ (log + n) / d.toNat + 1 < 2 ^ n := by
  have hpow : 2 ^ (log + 1) ≤ 2 ^ n := Nat.pow_le_pow_right (by decide) hn
  have hlow := h.low
  have hhigh := h.high
  have hd : 0 < d.toNat := Nat.zero_lt_of_lt hlow
  rw [pow_succ] at hpow hhigh
  have hless : 2 ^ (log + n) / d.toNat < 2 ^ n - 1 := by
    rw [Nat.div_lt_iff_lt_mul hd]
    calc 2 ^ (log + n) = 2 ^ n * 2 ^ log := by rw [pow_add, mul_comm]
      _ < (2 ^ n - 1) * (2 ^ log + 1) := by
          rw [Nat.sub_mul, Nat.mul_succ, one_mul]
          exact Nat.lt_sub_of_add_lt (Nat.add_lt_add_left (by omega) _)
      _ ≤ (2 ^ n - 1) * d.toNat := Nat.mul_le_mul_left _ hlow
  omega

/-- The multiplier, with one more place and without bit 64 where the flag is set. -/
inductive Multiplier (d : BitVec 64) (places n : Nat) : BitVec 64 × Bool → Prop
  | short (m : BitVec 64) (value : m.toNat = (2 ^ (64 + places) / d.toNat + 1) % 2 ^ 64)
      (reciprocal : Reciprocal d.toNat (64 + places) n (2 ^ (64 + places) / d.toNat + 1)) :
      Multiplier d places n (m, false)
  | long (m : BitVec 64) (value : m.toNat = (2 ^ (65 + places) / d.toNat + 1) % 2 ^ 64)
      (reciprocal : Reciprocal d.toNat (65 + places) n (2 ^ (65 + places) / d.toNat + 1)) :
      Multiplier d places n (m, true)

theorem reciprocal_spec {log places n : Nat} (h : Between d log) (hplaces : places ≤ log)
    (hn : n + log = 64 + places) : Multiplier d places n (reciprocal places log d) := by
  have hlow := h.low
  have hlog := h.log_lt
  have hpos : 0 < 2 ^ log := Nat.two_pow_pos log
  have hd : 0 < d.toNat := by omega
  have hplace (k : Nat) (hk : k < 64) : ((1 : BitVec 64) <<< k).toNat = 2 ^ k := by
    rw [BitVec.toNat_shiftLeft, Nat.shiftLeft_eq, show (1 : BitVec 64).toNat = 1 from rfl, one_mul,
      Nat.mod_eq_of_lt (Nat.pow_lt_pow_right (by decide) hk)]
  have hunit : 2 ^ places ≤ 2 ^ log := Nat.pow_le_pow_right (by decide) hplaces
  have hhigh : (1 : BitVec 64) <<< places < d := BitVec.lt_def.mpr (by rw [hplace places (by omega)]; omega)
  obtain ⟨hm, hr⟩ := ssaDivideWide_spec hhigh
  rw [hplace places (by omega), ← pow_add, add_comm places] at hm hr
  have hrest := Nat.mod_lt (2 ^ (64 + places)) hd
  have hnext := two_pow_succ_div d.toNat (64 + places) hd
  rw [show 64 + places + 1 = 65 + places by omega] at hnext
  unfold reciprocal
  generalize ssaDivideWide ((1 : BitVec 64) <<< places) d = wide at hm hr
  obtain ⟨m, r⟩ := wide
  dsimp only at hm hr ⊢
  have he : (d - r).toNat = d.toNat - 2 ^ (64 + places) % d.toNat := by
    rw [BitVec.toNat_sub, hr]
    omega
  have hedge : d - r ≥ (1 : BitVec 64) <<< log ↔ 2 ^ log ≤ d.toNat - 2 ^ (64 + places) % d.toNat := by
    rw [ge_iff_le, BitVec.le_def, hplace log hlog, he]
  split
  · have hcarry : (r + r ≥ d ∨ r + r < r) ↔ d.toNat ≤ 2 * (2 ^ (64 + places) % d.toNat) := by
      rw [ge_iff_le, BitVec.le_def, BitVec.lt_def, BitVec.toNat_add, hr]
      omega
    refine .long _ ?_ (Reciprocal.of_places hd ?_)
    · rw [BitVec.toNat_add, show (1 : BitVec 64).toNat = 1 from rfl, hnext]
      simp only [hcarry]
      split_ifs
      · rw [BitVec.toNat_add, BitVec.toNat_add, show (1 : BitVec 64).toNat = 1 from rfl, hm]
        omega
      · rw [BitVec.toNat_add, hm]
        omega
    · calc d.toNat * 2 ^ n ≤ 2 ^ (log + 1) * 2 ^ n := Nat.mul_le_mul_right _ h.high.le
        _ = 2 ^ (65 + places) := by rw [← pow_add]; congr 1; omega
  rename_i hadd
  rw [hedge] at hadd
  refine .short _ ?_ (Reciprocal.of_remainder hd ?_)
  · rw [BitVec.toNat_add, show (1 : BitVec 64).toNat = 1 from rfl, hm]
  calc (d.toNat - 2 ^ (64 + places) % d.toNat) * 2 ^ n ≤ 2 ^ log * 2 ^ n :=
        Nat.mul_le_mul_right _ (by omega)
    _ = 2 ^ (64 + places) := by rw [← pow_add]; congr 1; omega

section Arithmetic

variable {d m : BitVec 64} {log : Nat}

theorem mulHigh_toNat (a b : BitVec 64) : (mulHigh false a b).toNat = a.toNat * b.toNat / 2 ^ 64 := by
  unfold mulHigh
  rw [if_neg Bool.false_ne_true, BitVec.toNat_ofNat, Nat.mod_eq_of_lt]
  have ha := a.isLt
  have hb := b.isLt
  rw [Nat.div_lt_iff_lt_mul (by decide)]
  exact lt_of_le_of_lt (Nat.mul_le_mul_right _ ha.le) (Nat.mul_lt_mul_of_pos_left hb (by decide))

theorem Multiplier.unsigned_short (hd : Between d log) (h : Multiplier d log 64 (m, false))
    (x : BitVec 64) : mulHigh false x m >>> log = x.udiv d := by
  cases h with
  | short m value reciprocal =>
    have hlt := hd.quotient_lt 64 hd.log_lt
    rw [add_comm log] at hlt
    rw [Nat.mod_eq_of_lt hlt] at value
    refine BitVec.eq_of_toNat_eq ?_
    rw [BitVec.toNat_ushiftRight, Nat.shiftRight_eq_div_pow, mulHigh_toNat, value, Nat.div_div_eq_div_mul,
      ← pow_add, reciprocal.div_eq x.isLt]
    rfl

theorem Multiplier.unsigned_long (hd : Between d log) (h : Multiplier d log 64 (m, true))
    (x : BitVec 64) :
    ((x - mulHigh false x m) >>> 1 + mulHigh false x m) >>> log = x.udiv d := by
  cases h with
  | long m value reciprocal =>
    have hlt := hd.quotient_lt 65 (by have := hd.log_lt; omega)
    rw [add_comm log] at hlt
    have hge : 2 ^ 64 ≤ 2 ^ (65 + log) / d.toNat + 1 := by
      refine Nat.le_succ_of_le ((Nat.le_div_iff_mul_le (Nat.zero_lt_of_lt hd.low)).mpr ?_)
      calc 2 ^ 64 * d.toNat ≤ 2 ^ 64 * 2 ^ (log + 1) := Nat.mul_le_mul_left _ hd.high.le
        _ = 2 ^ (65 + log) := by rw [← pow_add]; congr 1; omega
    have hx := x.isLt
    have hdiv := reciprocal.div_eq hx
    generalize 2 ^ (65 + log) / d.toNat + 1 = M at *
    have hM : M = 2 ^ 64 + m.toNat := by omega
    have hhigh : x.toNat * M / 2 ^ 64 = x.toNat + x.toNat * m.toNat / 2 ^ 64 := by
      rw [hM, mul_add, add_comm, Nat.add_mul_div_right _ _ (by decide), add_comm]
    have ht : (mulHigh false x m).toNat = x.toNat * M / 2 ^ 64 - x.toNat := by
      rw [mulHigh_toNat, hhigh]
      omega
    have hle : x.toNat * m.toNat / 2 ^ 64 ≤ x.toNat := by
      refine Nat.div_le_of_le_mul ?_
      rw [mul_comm]
      exact Nat.mul_le_mul_right _ m.isLt.le
    have hsum : ((x - mulHigh false x m) >>> 1 + mulHigh false x m).toNat = x.toNat * M / 2 ^ 64 / 2 := by
      rw [BitVec.toNat_add, BitVec.toNat_ushiftRight, Nat.shiftRight_eq_div_pow, BitVec.toNat_sub, ht]
      omega
    refine BitVec.eq_of_toNat_eq ?_
    rw [BitVec.toNat_ushiftRight, Nat.shiftRight_eq_div_pow, hsum, Nat.div_div_eq_div_mul,
      Nat.div_div_eq_div_mul, show 2 ^ 64 * (2 * 2 ^ log) = 2 ^ (65 + log) by rw [pow_add]; ring,
      hdiv]
    rfl

theorem add_sign {q d x : BitVec 64} {k M : Nat} (h : Reciprocal d.toNat k 63 M) (hd : d.toNat < 2 ^ 63)
    (hq : q.toInt = x.toInt * M / 2 ^ k) : q + q >>> 63 = x.sdiv d := by
  have hdint : d.toInt = d.toNat := BitVec.toInt_eq_toNat_of_lt (by omega)
  have hqlow := q.le_two_mul_toInt
  have hqhigh := q.two_mul_toInt_lt
  have hsign : (q >>> 63).toNat = if q.toInt < 0 then 1 else 0 := by
    rw [BitVec.toNat_ushiftRight, Nat.shiftRight_eq_div_pow, BitVec.toInt_eq_toNat_cond]
    split_ifs <;> omega
  have hresult : x.toInt.tdiv d.toNat = q.toInt + if q.toInt < 0 then 1 else 0 := by
    rcases lt_or_ge x.toInt 0 with hneg | hpos
    · obtain ⟨y, hy⟩ := Int.eq_ofNat_of_zero_le (show 0 ≤ -x.toInt by omega)
      obtain hx : x.toInt = -(y : Int) := by omega
      have hylow := x.le_two_mul_toInt
      have hdiv := h.neg_ediv_eq (y := y) (by omega) (by omega)
      rw [hx, Int.neg_mul, ← Int.natCast_mul, hdiv] at hq
      rw [hx, Int.neg_tdiv, Int.tdiv_eq_ediv_of_nonneg (by omega), ← Int.natCast_ediv, hq]
      generalize y / d.toNat = quotient
      rw [if_pos (by omega)]
      omega
    obtain ⟨y, hy⟩ := Int.eq_ofNat_of_zero_le hpos
    have hyhigh := x.two_mul_toInt_lt
    have hdiv := h.div_eq (x := y) (by omega)
    have hcast : (y : Int) * M / 2 ^ k = (y / d.toNat : Nat) := by
      rw [← hdiv]
      rfl
    rw [hy, hcast] at hq
    rw [hy, Int.tdiv_eq_ediv_of_nonneg (by omega), ← Int.natCast_ediv, hq]
    generalize y / d.toNat = quotient
    rw [if_neg (by omega)]
    omega
  refine BitVec.eq_of_toInt_eq ?_
  rw [BitVec.toInt_sdiv_of_ne_or_ne _ _ (.inr fun hc => ?_), hdint, hresult, BitVec.toInt_add,
    BitVec.toInt_eq_toNat_of_lt (x := q >>> 63) (by rw [hsign]; split_ifs <;> decide), hsign]
  · split_ifs
    · exact Int.bmod_eq_of_le (by omega) (by omega)
    · exact Int.bmod_eq_of_le (by omega) (by omega)
  rw [hc] at hd
  revert hd
  decide

theorem mulHigh_toInt (a b : BitVec 64) : (mulHigh true a b).toInt = a.toInt * b.toInt / 2 ^ 64 := by
  have halow := a.le_two_mul_toInt
  have hahigh := a.two_mul_toInt_lt
  have hblow := b.le_two_mul_toInt
  have hbhigh := b.two_mul_toInt_lt
  have hproduct : |a.toInt * b.toInt| ≤ 2 ^ 63 * 2 ^ 63 := by
    rw [abs_mul]
    exact mul_le_mul (abs_le.mpr ⟨by omega, by omega⟩) (abs_le.mpr ⟨by omega, by omega⟩) (abs_nonneg _)
      (by decide)
  obtain ⟨hlow, hhigh⟩ := abs_le.mp hproduct
  unfold mulHigh
  rw [if_pos rfl, BitVec.toInt_ofInt, Int.bmod_eq_of_le (by omega) (by omega)]

theorem Multiplier.signed_short (hd : Between d (log + 1)) (hlog : log < 62)
    (h : Multiplier d log 63 (m, false)) (x : BitVec 64) :
    (mulHigh true x m).sshiftRight log + (mulHigh true x m).sshiftRight log >>> 63 = x.sdiv d := by
  cases h with
  | short m value reciprocal =>
    have hlt := hd.quotient_lt 63 (by omega)
    rw [show log + 1 + 63 = 64 + log by omega] at hlt
    rw [Nat.mod_eq_of_lt (by omega)] at value
    have hdlt : d.toNat < 2 ^ 63 :=
      lt_of_lt_of_le hd.high (Nat.pow_le_pow_right (by decide) (by omega))
    have hm : m.toInt = (2 ^ (64 + log) / d.toNat + 1 : Nat) := by
      rw [← value]
      exact BitVec.toInt_eq_toNat_of_lt (by omega)
    refine add_sign reciprocal hdlt ?_
    rw [BitVec.toInt_sshiftRight, Int.shiftRight_eq_div_pow, mulHigh_toInt, hm,
      Int.ediv_ediv_of_nonneg (by decide), Nat.cast_pow, Nat.cast_two, ← pow_add]

theorem Multiplier.signed_long (hd : Between d (log + 1)) (hlog : log < 62)
    (h : Multiplier d log 63 (m, true)) (x : BitVec 64) :
    (mulHigh true x m + x).sshiftRight (log + 1) +
      (mulHigh true x m + x).sshiftRight (log + 1) >>> 63 = x.sdiv d := by
  cases h with
  | long m value reciprocal =>
    have hlt := hd.quotient_lt 64 (by omega)
    rw [show log + 1 + 64 = 65 + log by omega] at hlt
    have hdlt : d.toNat < 2 ^ 63 :=
      lt_of_lt_of_le hd.high (Nat.pow_le_pow_right (by decide) (by omega))
    have hge : 2 ^ 63 ≤ 2 ^ (65 + log) / d.toNat + 1 := by
      refine Nat.le_succ_of_le ((Nat.le_div_iff_mul_le (Nat.zero_lt_of_lt hd.low)).mpr ?_)
      calc 2 ^ 63 * d.toNat ≤ 2 ^ 63 * 2 ^ (log + 1 + 1) := Nat.mul_le_mul_left _ hd.high.le
        _ = 2 ^ (65 + log) := by rw [← pow_add]; congr 1; omega
    refine add_sign reciprocal hdlt ?_
    generalize 2 ^ (65 + log) / d.toNat + 1 = M at *
    rw [Nat.mod_eq_of_lt hlt] at value
    have hm : m.toInt = M - 2 ^ 64 := by
      rw [BitVec.toInt_eq_toNat_cond, value, if_neg (by omega)]
      rfl
    have hhigh : x.toInt * m.toInt / 2 ^ 64 = x.toInt * M / 2 ^ 64 - x.toInt := by
      rw [hm, Int.mul_sub, Int.sub_mul_ediv_right _ _ (by decide)]
    have hxlow := x.le_two_mul_toInt
    have hxhigh := x.two_mul_toInt_lt
    have hlow : -2 ^ 63 ≤ x.toInt * M / 2 ^ 64 := by
      refine (Int.le_ediv_iff_mul_le (by decide)).mpr ?_
      nlinarith
    have hmost : x.toInt * M / 2 ^ 64 < 2 ^ 63 := by
      refine Int.ediv_lt_of_lt_mul (by decide) ?_
      nlinarith
    have hsum : (mulHigh true x m + x).toInt = x.toInt * M / 2 ^ 64 := by
      rw [BitVec.toInt_add, mulHigh_toInt, hhigh, Int.sub_add_cancel,
        Int.bmod_eq_of_le (by omega) (by omega)]
    rw [BitVec.toInt_sshiftRight, Int.shiftRight_eq_div_pow, hsum, Int.ediv_ediv_of_nonneg (by decide),
      Nat.cast_pow, Nat.cast_two, ← pow_add, show 65 + log = 64 + (log + 1) by omega]

theorem shifted_quotient (hlog : 0 < log) (hlt : log < 63) (hd : d.toNat = 2 ^ log) (x : BitVec 64) :
    (x + x.sshiftRight 63 >>> (64 - log)).sshiftRight log = x.sdiv d := by
  have hxlow := x.le_two_mul_toInt
  have hxhigh := x.two_mul_toInt_lt
  have hpow : 2 ^ log ≤ 2 ^ 62 := Nat.pow_le_pow_right (by decide) (by omega)
  have hunit : (2 : Int) ^ log ≤ 2 ^ 62 := by exact_mod_cast hpow
  have hpos : (0 : Int) < 2 ^ log := by positivity
  have hdint : d.toInt = 2 ^ log := by
    rw [BitVec.toInt_eq_toNat_of_lt (by omega), hd]
    rfl
  have hbias : (x.sshiftRight 63 >>> (64 - log)).toInt = if x.toInt < 0 then 2 ^ log - 1 else 0 := by
    have hsar : (x.sshiftRight 63).toInt = if x.toInt < 0 then -1 else 0 := by
      rw [BitVec.toInt_sshiftRight, Int.shiftRight_eq_div_pow]
      split_ifs <;> omega
    have hbits : (x.sshiftRight 63).toNat = if x.toInt < 0 then 2 ^ 64 - 1 else 0 := by
      rw [BitVec.toInt_eq_toNat_cond] at hsar
      split_ifs at hsar ⊢ <;> omega
    have hshift : (x.sshiftRight 63 >>> (64 - log)).toNat = if x.toInt < 0 then 2 ^ log - 1 else 0 := by
      rw [BitVec.toNat_ushiftRight, Nat.shiftRight_eq_div_pow, hbits]
      split_ifs
      · rw [show (2 : Nat) ^ 64 = 2 ^ (64 - log) * 2 ^ log by rw [← pow_add]; congr 1; omega]
        exact ones_div (Nat.two_pow_pos _) (Nat.two_pow_pos _)
      · exact Nat.zero_div _
    rw [BitVec.toInt_eq_toNat_of_lt (by rw [hshift]; split_ifs <;> omega), hshift]
    split_ifs
    · rw [Nat.cast_sub Nat.one_le_two_pow]
      rfl
    · rfl
  have hsum : (x + x.sshiftRight 63 >>> (64 - log)).toInt =
      x.toInt + if x.toInt < 0 then 2 ^ log - 1 else 0 := by
    rw [BitVec.toInt_add, hbias]
    split_ifs <;> exact Int.bmod_eq_of_le (by omega) (by omega)
  refine BitVec.eq_of_toInt_eq ?_
  rw [BitVec.toInt_sdiv_of_ne_or_ne _ _ (.inr fun hc => ?_), BitVec.toInt_sshiftRight,
    Int.shiftRight_eq_div_pow, hsum, hdint]
  · rw [Nat.cast_pow, Nat.cast_two, tdiv_two_pow]
  · rw [hc, show (-1#64).toNat = 2 ^ 64 - 1 from rfl] at hd
    omega

end Arithmetic

section Sequences

variable {other : Nat → (Nat → BitVec 64) → BitVec 64} {c : Cursor} {env : Nat → BitVec 64} {x : Option Nat} {X d : BitVec 64} {log : Nat}

variable {n : Nat} {sign : Bool}

theorem shift_count (h : n < 64) : (n : BitVec 64).toNat % 64 = n := by
  rw [BitVec.natCast_eq_ofNat, BitVec.toNat_ofNat, Nat.mod_mod_of_dvd _ (by decide), Nat.mod_eq_of_lt h]

theorem shr_count (a : BitVec 64) (h : n < 64) :
    operate .shr 0 0 a (n : BitVec 64) = some (a >>> n) := by
  unfold operate
  rw [shift_count h]

theorem sar_count (a : BitVec 64) (h : n < 64) :
    operate .sar 0 0 a (n : BitVec 64) = some (a.sshiftRight n) := by
  unfold operate
  rw [shift_count h]

theorem shiftBy_emits {op : SsaOp} {t : Option Nat} {T w : BitVec 64} {shift : Nat}
    (ht : Known c env t T) (hop : shift ≠ 0 → operate op 0 0 T (shift : BitVec 64) = some w)
    (hzero : shift = 0 → w = T) : Emits other (shiftBy op t shift) c env w := by
  unfold shiftBy
  split_ifs with h
  · exact emits_constant_bind ht (hop h)
  · rw [hzero (not_not.mp h)]
    exact emits_pure ht

theorem shiftedQuotient_emits (hx : Known c env x X) (hlog : 0 < log) (hlt : log < 63)
    (hd : d.toNat = 2 ^ log) : Emits other (shiftedQuotient x log) c env (X.sdiv d) := by
  rw [← shifted_quotient hlog hlt hd]
  refine (emits_constant _).bind fun _ _ _ _ later known => ?_
  have hx := hx.later later
  refine (emits_binary hx known (sar_count X (by decide : 63 < 64))).bind fun _ _ _ _ later known => ?_
  have hx := hx.later later
  refine (emits_constant _).bind fun _ _ _ _ later count => ?_
  have hx := hx.later later
  refine (emits_binary (known.later later) count (shr_count _ (by omega))).bind
    fun _ _ _ _ later known => ?_
  have hx := hx.later later
  refine (emits_binary hx known rfl).bind fun _ _ _ _ later known => ?_
  exact emits_constant_bind known (sar_count _ (by omega))

theorem unsignedQuotient_emits (hx : Known c env x X) (hd : Between d log) :
    Emits other (unsignedQuotient x log d) c env (X.udiv d) := by
  have hlog := hd.log_lt
  have hspec := reciprocal_spec hd le_rfl (show 64 + log = 64 + log from rfl)
  unfold unsignedQuotient
  generalize reciprocal log log d = magic at hspec
  obtain ⟨m, add⟩ := magic
  refine (emits_constant _).bind fun _ _ _ _ later known => ?_
  have hx := hx.later later
  refine (emits_binary hx known rfl).bind fun t _ _ _ later ht => ?_
  have hx := hx.later later
  cases add with
  | false =>
    rw [if_neg Bool.false_ne_true, ← hspec.unsigned_short hd X]
    exact shiftBy_emits ht (fun _ => shr_count _ hlog) fun hzero => by
      rw [hzero, BitVec.ushiftRight_zero]
      rfl
  | true =>
    rw [if_pos rfl, ← hspec.unsigned_long hd X]
    refine (emits_binary hx ht rfl).bind fun _ _ _ _ later known => ?_
    have ht := ht.later later
    refine (emits_constant _).bind fun _ _ _ _ later count => ?_
    have ht := ht.later later
    refine (emits_binary (known.later later) count (shr_count _ (by decide : 1 < 64))).bind
      fun _ _ _ _ later known => ?_
    refine (emits_binary known (ht.later later) rfl).bind fun _ _ _ _ later known => ?_
    exact emits_constant_bind known (shr_count _ hlog)

theorem towardZero_emits {t : Option Nat} {T : BitVec 64} {shift : Nat} (ht : Known c env t T)
    (hshift : shift < 64) :
    Emits other (towardZero t shift) c env (T.sshiftRight shift + T.sshiftRight shift >>> 63) := by
  refine (shiftBy_emits ht (fun _ => sar_count _ hshift) fun hzero => by
    rw [hzero, BitVec.sshiftRight_zero]).bind fun _ _ _ _ later hs => ?_
  refine (emits_constant _).bind fun _ _ _ _ later count => ?_
  have hs := hs.later later
  refine (emits_binary hs count (shr_count _ (by decide : 63 < 64))).bind fun _ _ _ _ later known => ?_
  exact emits_binary (hs.later later) known rfl

theorem signedQuotient_emits (hx : Known c env x X) (hd : Between d (log + 1)) (hlog : log < 62) :
    Emits other (signedQuotient x (log + 1) d) c env (X.sdiv d) := by
  have hspec := reciprocal_spec hd (Nat.le_succ log) (show 63 + (log + 1) = 64 + log by omega)
  unfold signedQuotient
  rw [Nat.add_sub_cancel]
  generalize reciprocal log (log + 1) d = magic at hspec
  obtain ⟨m, add⟩ := magic
  refine (emits_constant _).bind fun _ _ _ _ later known => ?_
  have hx := hx.later later
  refine (emits_binary hx known rfl).bind fun t _ _ _ later ht => ?_
  have hx := hx.later later
  cases add with
  | false =>
    rw [← hspec.signed_short hd hlog X]
    exact towardZero_emits ht (by omega)
  | true =>
    rw [← hspec.signed_long hd hlog X]
    exact (emits_binary ht hx rfl).bind fun _ _ _ _ _ known => towardZero_emits known (by omega)

theorem sub_quotient (hsign : sign = true → 1 < d.toInt) :
    X - quotient sign X d * d = remainder sign X d := by
  cases sign with
  | false =>
    have hsplit := Nat.div_add_mod X.toNat d.toNat
    change X - X / d * d = X % d
    refine BitVec.eq_of_toNat_eq ?_
    rw [BitVec.toNat_sub, BitVec.toNat_mul, BitVec.toNat_udiv, BitVec.toNat_umod,
      mul_comm (X.toNat / d.toNat), Nat.mod_eq_of_lt (a := d.toNat * _) (by omega)]
    omega
  | true =>
    have hquotient : (X.sdiv d).toInt = X.toInt.tdiv d.toInt := by
      refine BitVec.toInt_sdiv_of_ne_or_ne _ _ (.inr fun hc => ?_)
      have hone := hsign rfl
      rw [hc] at hone
      revert hone
      decide
    change X - X.sdiv d * d = X.srem d
    rw [← BitVec.ofInt_toInt (x := X.srem d), BitVec.toInt_srem, Int.tmod_def, Int.sub_eq_add_neg,
      BitVec.ofInt_add, BitVec.ofInt_neg, BitVec.ofInt_mul, BitVec.ofInt_toInt, BitVec.ofInt_toInt,
      ← hquotient, BitVec.ofInt_toInt, BitVec.mul_comm, ← BitVec.sub_eq_add_neg]

theorem remainderOf_emits {q : Option Nat} (hx : Known c env x X)
    (hq : Known c env q (quotient sign X d)) (hsign : sign = true → 1 < d.toInt) :
    Emits other (remainderOf x q d) c env (remainder sign X d) := by
  rw [← sub_quotient hsign]
  refine (emits_constant _).bind fun _ _ _ _ later known => ?_
  have hx := hx.later later
  refine (emits_binary (hq.later later) known rfl).bind fun _ _ _ _ later known => ?_
  exact emits_binary (hx.later later) known rfl

theorem toNat_pred (hd : d ≠ 0) : (d - 1).toNat = d.toNat - 1 := by
  have hpos : d.toNat ≠ 0 := fun hzero => hd (BitVec.eq_of_toNat_eq hzero)
  rw [BitVec.toNat_sub, show (1 : BitVec 64).toNat = 1 from rfl]
  omega

theorem power_or_between (hd : d ≠ 0) :
    (d &&& (d - 1) = 0 ∧ d.toNat = 2 ^ Nat.log2 d.toNat) ∨
      (d &&& (d - 1) ≠ 0 ∧ Between d (Nat.log2 d.toNat)) := by
  have hpos : d.toNat ≠ 0 := fun hzero => hd (BitVec.eq_of_toNat_eq hzero)
  have hlow := Nat.log2_self_le hpos
  have hhigh := @Nat.lt_log2_self d.toNat
  have hlog : Nat.log2 d.toNat < 64 := (Nat.log2_lt hpos).mpr d.isLt
  have hpred := toNat_pred hd
  have hand : d &&& (d - 1) = 0 ↔ d.toNat.isPowerOfTwo := by
    rw [← Nat.and_sub_one_eq_zero_iff_isPowerOfTwo hpos, ← BitVec.toNat_inj, BitVec.toNat_and, hpred]
    rfl
  by_cases hpower : d.toNat.isPowerOfTwo
  · obtain ⟨k, hk⟩ := hpower
    refine .inl ⟨hand.mpr ⟨k, hk⟩, ?_⟩
    rw [hk, Nat.log2_two_pow]
  · refine .inr ⟨fun hc => hpower (hand.mp hc), ?_, hhigh, hlog⟩
    exact lt_of_le_of_ne hlow fun heq => hpower ⟨_, heq.symm⟩

/-- The quotient of a division with a sign, or by a divisor that is not a power of two. -/
theorem quotientOf_emits (hx : Known c env x X) (hd : d ≠ 0) (hsign : sign = true → 1 < d.toInt)
    (hcase : ¬(sign = false ∧ d &&& (d - 1) = 0)) :
    Emits other (quotientOf x (Nat.log2 d.toNat) d sign) c env (quotient sign X d) := by
  have htop : sign = true → 1 < d.toNat ∧ d.toNat < 2 ^ 63 := by
    intro htrue
    have hone := hsign htrue
    rw [BitVec.toInt_eq_toNat_cond] at hone
    split_ifs at hone <;> omega
  unfold quotientOf
  rcases power_or_between hd with ⟨hpower, heq⟩ | ⟨hnot, hbetween⟩
  · have htrue : sign = true := by
      cases sign
      · exact absurd ⟨rfl, hpower⟩ hcase
      · rfl
    subst htrue
    obtain ⟨hone, htop⟩ := htop rfl
    rw [if_pos hpower]
    refine shiftedQuotient_emits hx ?_ ?_ heq
    · refine Nat.pos_of_ne_zero fun hzero => ?_
      rw [hzero] at heq
      omega
    refine (Nat.pow_lt_pow_iff_right (a := 2) (by decide)).mp ?_
    rw [← heq]
    exact htop
  rw [if_neg hnot]
  cases sign with
  | false =>
    rw [if_pos rfl]
    exact unsignedQuotient_emits hx hbetween
  | true =>
    rw [if_neg Bool.noConfusion]
    obtain ⟨hone, htop⟩ := htop rfl
    have hlow := hbetween.low
    have hpos : Nat.log2 d.toNat ≠ 0 := fun hzero => by
      have hhigh := hbetween.high
      rw [hzero] at hlow hhigh
      omega
    have hless : Nat.log2 d.toNat < 63 :=
      (Nat.pow_lt_pow_iff_right (a := 2) (by decide)).mp (hlow.trans htop)
    obtain ⟨log, hlog⟩ := Nat.exists_eq_succ_of_ne_zero hpos
    rw [hlog] at hbetween hless ⊢
    exact signedQuotient_emits hx hbetween (by omega)

/-- **The values for a division end in its quotient or remainder.** -/
theorem ssaDivide_emits {rem : Bool} (hx : Known c env x X) (hd : d ≠ 0)
    (hsign : sign = true → 1 < d.toInt) :
    Emits other (ssaDivide x d sign rem) c env (if rem then remainder sign X d else quotient sign X d) := by
  have hlog : Nat.log2 d.toNat < 64 :=
    (Nat.log2_lt fun hzero => hd (BitVec.eq_of_toNat_eq hzero)).mpr d.isLt
  unfold ssaDivide
  by_cases hone : sign = false ∧ d = 1
  · obtain ⟨rfl, rfl⟩ := hone
    rw [if_pos ⟨rfl, rfl⟩]
    cases rem with
    | false =>
      rw [if_neg Bool.false_ne_true, if_neg Bool.false_ne_true,
        show quotient false X 1 = X by simp [quotient]]
      exact emits_pure hx
    | true =>
      rw [if_pos rfl, if_pos rfl, show remainder false X 1 = 0 by simp [remainder]]
      exact emits_constant 0
  rw [if_neg hone]
  split
  · rename_i hpower
    obtain ⟨rfl, hpower⟩ := hpower
    rcases power_or_between hd with ⟨-, heq⟩ | ⟨hne, -⟩
    · cases rem with
      | false =>
        rw [if_neg Bool.false_ne_true, if_neg Bool.false_ne_true]
        refine emits_constant_bind hx ((shr_count X hlog).trans (congrArg some ?_))
        change _ = X / d
        refine BitVec.eq_of_toNat_eq ?_
        rw [BitVec.toNat_ushiftRight, Nat.shiftRight_eq_div_pow, ← heq, BitVec.toNat_udiv]
      | true =>
        rw [if_pos rfl, if_pos rfl]
        refine emits_constant_bind hx (congrArg some ?_)
        change X &&& (d - 1) = X % d
        refine BitVec.eq_of_toNat_eq ?_
        rw [BitVec.toNat_and, toNat_pred hd, heq, Nat.and_two_pow_sub_one_eq_mod, ← heq,
          BitVec.toNat_umod]
    · exact absurd hpower hne
  · rename_i hpower
    refine (quotientOf_emits hx hd hsign hpower).bind fun q _ _ _ later hq => ?_
    cases rem with
    | false => exact emits_pure hq
    | true => exact remainderOf_emits (hx.later later) hq hsign

end Sequences

section Divisions

variable (other : Nat → (Nat → BitVec 64) → BitVec 64)

def Rewritten (s : Ssa) (v : SsaValue) (d : BitVec 64) : Prop :=
  (v.op = .div ∨ v.op = .rem) ∧ ssaIsConst s v.b = some d ∧ if v.aux2 = 0 then d ≠ 0 else 1 < d.toInt

theorem divisor_eq_some {s : Ssa} {v : SsaValue} {d : BitVec 64} :
    divisor s v = some d ↔ Rewritten s v d := by
  have hone : ∀ d : BitVec 64, d.sle 1 = true ↔ d.toInt ≤ 1 := fun d => by
    rw [BitVec.sle_iff_toInt_le]
    rfl
  unfold divisor Rewritten
  by_cases hop : v.op = .div ∨ v.op = .rem
  · rw [if_neg fun h => hop.elim h.1 h.2]
    cases ssaIsConst s v.b with
    | none => simp
    | some e =>
      dsimp only
      split_ifs with hskip hzero hzero
      · simp only [Option.some.injEq, false_iff, not_and]
        rintro - rfl hne
        exact hskip.elim hne fun h => h.1 hzero
      · simp only [Option.some.injEq, false_iff, not_and]
        rintro - rfl hlt
        rcases hskip with rfl | ⟨-, hle⟩
        · revert hlt
          decide
        · have := (hone e).mp hle
          omega
      · simp only [Option.some.injEq]
        refine ⟨fun h => ⟨hop, h, fun hc => hskip (.inl (h.trans hc))⟩, fun h => h.2.1⟩
      · simp only [Option.some.injEq]
        refine ⟨fun h => ⟨hop, h, ?_⟩, fun h => h.2.1⟩
        subst h
        by_contra hle
        exact hskip (.inr ⟨hzero, (hone e).mpr (by omega)⟩)
  · rw [if_pos ⟨fun h => hop (.inl h), fun h => hop (.inr h)⟩]
    simp [hop]

/-- A value that is not a constant becomes a copy, and the others stay. -/
theorem ssaReplace_spec {s : Ssa} {id : Nat} (q : Option Nat) (hid : id < s.values.length)
    (hop : (s.value id).op ≠ .const) :
    (ssaReplace s id q).values.length = s.values.length ∧ (ssaReplace s id q).blocks = s.blocks ∧
      (∀ j, j ≠ id → (ssaReplace s id q).value j = s.value j) ∧
      ((ssaReplace s id q).value id).op = .copy ∧ ((ssaReplace s id q).value id).a = q := by
  have hplain : ssaReplace s id q = { s with values := s.values.set id { s.value id with
      op := .copy, a := q, b := none, c := none, effect := false, count := 0 } } := by
    unfold ssaReplace
    cases q with
    | none => rfl
    | some source => simp [hop]
  rw [hplain]
  refine ⟨length_set, rfl, fun j hj => ?_, ?_, ?_⟩
  · simp [Ssa.value, getD_eq_getElem?_getD, getElem?_set_ne (Ne.symm hj)]
  · simp [Ssa.value, getD_eq_getElem?_getD, hid]
  · simp [Ssa.value, getD_eq_getElem?_getD, hid]

/-- What the turn for a rewritten division adds, and what its values are. -/
theorem divideValue_spec {c : Cursor} {id i : Nat} {d : BitVec 64} (env : Nat → BitVec 64)
    (hid : id < c.s.values.length) (hi : i < c.s.values.length) (ha : (c.s.value id).a = some i)
    (hd : Rewritten c.s (c.s.value id) d) :
    ∃ new, (divideValue id c).items = c.items ++ List.range' c.s.values.length new ++ [id] ∧
      (divideValue id c).s.values.length = c.s.values.length + new ∧
      (∀ j < c.s.values.length, j ≠ id → (divideValue id c).s.value j = c.s.value j) ∧
      ((divideValue id c).s.value id).op = .copy ∧
      (divideValue id c).s.blocks = c.s.blocks ∧ (divideValue id c).block = c.block ∧
      ∀ j < c.s.values.length,
        run other (divideValue id c).s (List.range' c.s.values.length new ++ [id]) env j =
          if j = id then
            if (c.s.value id).op = .rem then remainder ((c.s.value id).aux2 ≠ 0) (env i) d
            else quotient ((c.s.value id).aux2 ≠ 0) (env i) d
          else env j := by
  have hdiv := divisor_eq_some.mpr hd
  obtain ⟨hop, -, hvalue⟩ := hd
  generalize hv : c.s.value id = v at *
  have hzero : d ≠ 0 := by
    rintro rfl
    split_ifs at hvalue
    · exact hvalue rfl
    · revert hvalue
      decide
  have hsign : decide (v.aux2 ≠ 0) = true → 1 < d.toInt := fun h => by
    rwa [if_neg (of_decide_eq_true h)] at hvalue
  have hemits : Emits other (ssaDivide (some i) d (decide (v.aux2 ≠ 0)) (decide (v.op = .rem))) c env
      (if decide (v.op = .rem) then remainder (decide (v.aux2 ≠ 0)) (env i) d
        else quotient (decide (v.aux2 ≠ 0)) (env i) d) := ssaDivide_emits ⟨i, rfl, hi, rfl⟩ hzero hsign
  obtain ⟨env', new, later, j, hj, hjlt, hjenv⟩ := hemits
  have hturn : divideValue id c =
      (let p := ssaDivide (some i) d (decide (v.aux2 ≠ 0)) (decide (v.op = .rem)) c
      { p.2 with s := ssaReplace p.2.s id p.1, items := p.2.items ++ [id] }) := by
    unfold divideValue
    rw [hv]
    dsimp only
    rw [hdiv, ha]
    rfl
  rw [hturn]
  generalize ssaDivide (some i) d (decide (v.aux2 ≠ 0)) (decide (v.op = .rem)) c = p at *
  obtain ⟨q, c'⟩ := p
  dsimp only at later hj hjlt hjenv ⊢
  subst hj
  have hlength := later.length
  have hidlt : id < c'.s.values.length := by omega
  have hvalue' : c'.s.value id = v := (later.value hid).trans hv
  obtain ⟨hreplength, hrepblocks, hrepother, hrepop, hrepa⟩ := ssaReplace_spec (some j) hidlt (by
    rw [hvalue']
    rcases hop with h | h <;> simp [h])
  refine ⟨new.length, by rw [later.items], hreplength.trans hlength,
    fun k hk hne => (hrepother k hne).trans (later.value hk), hrepop, ?_, later.block, fun k hk => ?_⟩
  · rw [hrepblocks, later.s]
  have hruns : run other (ssaReplace c'.s id (some j)) (range' c.s.values.length new.length) env =
      env' := by
    rw [← later.runs]
    refine run_congr (fun l hl => hrepother l fun hc => ?_) env
    have hge := (mem_range'_1.mp hl).1
    omega
  rw [run_append, hruns]
  by_cases hkid : k = id
  · rw [if_pos hkid, hkid]
    change step other _ env' id id = _
    unfold step
    rw [Function.update_self, hrepop, hrepa]
    simpa [operate] using hjenv
  · rw [if_neg hkid]
    exact (step_other _ env' hkid).trans (later.kept hk)

/-- **Division by a constant is bit-exact.**  The wide division returns the quotient and the
remainder; and for every division by a constant that is rewritten and every dividend, the values
that the turn adds to the block, evaluated in 64-bit arithmetic, end in the truncated quotient or its
remainder, and change no other value. -/
theorem divisions_exact :
    (∀ high d : BitVec 64, high < d →
      (ssaDivideWide high d).1.toNat = high.toNat * 2 ^ 64 / d.toNat ∧
        (ssaDivideWide high d).2.toNat = high.toNat * 2 ^ 64 % d.toNat) ∧
    ∀ (c : Cursor) (id i : Nat) (d : BitVec 64) (env : Nat → BitVec 64), id < c.s.values.length →
      i < c.s.values.length → (c.s.value id).a = some i → Rewritten c.s (c.s.value id) d →
      ∃ added, (divideValue id c).items = c.items ++ added ∧
        ∀ j < c.s.values.length, run other (divideValue id c).s added env j =
          if j = id then
            if (c.s.value id).op = .rem then remainder ((c.s.value id).aux2 ≠ 0) (env i) d
            else quotient ((c.s.value id).aux2 ≠ 0) (env i) d
          else env j := by
  refine ⟨fun high d h => ssaDivideWide_spec h, fun c id i d env hid hi ha hd => ?_⟩
  obtain ⟨new, hitems, -, -, -, -, -, hrun⟩ := divideValue_spec other env hid hi ha hd
  exact ⟨_, by rw [hitems, append_assoc], hrun⟩

/-- The unsigned remainder of value 0 by 7, whose multiplier has 65 bits. -/
theorem divisions_exact_seven :
    let values : List SsaValue :=
      [{ op := .param, cls := .int }, { op := .const, cls := .int, aux := 7 },
        { op := .rem, cls := .int, a := some 0, b := some 1 }]
    let c : Cursor := { s := { values := values }, block := 0 }
    ∃ added, (divideValue 2 c).items = added ∧
      run (fun _ _ => 0) (divideValue 2 c).s added (fun _ => 10000000000000000000#64) 2 =
        10000000000000000000#64 % 7#64 := by
  intro values c
  obtain ⟨added, hitems, hrun⟩ := (divisions_exact (fun _ _ => 0)).2 c 2 0 7
    (fun _ => 10000000000000000000#64) (by decide) (by decide) rfl
    ⟨.inr rfl, rfl, by decide⟩
  exact ⟨added, hitems, hrun 2 (by decide)⟩

end Divisions

end Dyn.Backend
