import Dyn.Strings.DecimalText
import Dyn.Lib.Binary64

/-!
# The nearest binary64 number

The comparisons of the search are exact and their integers have a place (`compareBits_spec`):
a pattern from 1.5 on is only compared with a number that is not below it, and then the
denominator is not above the numerator.  The dropped digits do not matter (`sticky_lt`): where
there are any, every boundary is a multiple of the unit of the last kept digit or lies far
below the number.
-/

namespace Dyn.Strings

open Mem (Panic)
open Binary64

variable {d n : Nat} {numerator denominator : DecimalInteger}

theorem scaled_lt_iff (n m : Nat) (hd : 0 < d) (e : Int) :
    (n * 2 ^ (-e).toNat < d * m * 2 ^ e.toNat ↔ (n / d : ℚ) < m * 2 ^ e) ∧
      (d * m * 2 ^ e.toNat < n * 2 ^ (-e).toNat ↔ (m * 2 ^ e : ℚ) < n / d) := by
  have hd' : (0 : ℚ) < d := by exact_mod_cast hd
  rcases Int.le_total 0 e with he | he
  · obtain ⟨j, rfl⟩ := Int.eq_ofNat_of_zero_le he
    rw [Int.toNat_natCast, Int.toNat_eq_zero.mpr (by omega), zpow_natCast, div_lt_iff₀ hd',
      lt_div_iff₀ hd']
    constructor
    all_goals
      rw [← Nat.cast_lt (α := ℚ)]
      push_cast
      ring_nf
  obtain ⟨j, hj⟩ := Int.eq_ofNat_of_zero_le (show 0 ≤ -e by omega)
  have hpow : (0 : ℚ) < 2 ^ j := by positivity
  rw [show e = -(j : Int) by omega, neg_neg, Int.toNat_natCast, Int.toNat_eq_zero.mpr (by omega),
    zpow_neg, zpow_natCast, ← div_eq_mul_inv, div_lt_div_iff₀ hd' hpow, div_lt_div_iff₀ hpow hd']
  constructor
  all_goals
    rw [← Nat.cast_lt (α := ℚ)]
    push_cast
    ring_nf

theorem splitBits_spec (bits : Nat) : ∃ m e, splitBits bits = (m, e) ∧ m < 2 ^ 53 ∧ -1074 ≤ e ∧
    (bits < infinity → e ≤ 971) ∧ (bits < 1024 * 2 ^ 52 → e ≤ -52) ∧ value bits = m * 2 ^ e ∧
      halfway bits = (m * 2 + 1 : Nat) * 2 ^ (e - 1) := by
  have hshift : bits >>> 52 = bits / 2 ^ 52 := Nat.shiftRight_eq_div_pow _ 52
  have hand : bits &&& 4503599627370495 = bits % 2 ^ 52 := Nat.and_two_pow_sub_one_eq_mod bits 52
  have hhalf (e : Int) : (2 : ℚ) ^ e = 2 * 2 ^ (e - 1) := by
    rw [mul_comm, ← zpow_add_one₀ two_ne_zero, sub_add_cancel]
  have hmid : ∀ (m : Nat) (e : Int), value bits = m * 2 ^ e → (gap bits : ℚ) / 2 ^ 1074 = 2 ^ e →
      halfway bits = (m * 2 + 1 : Nat) * 2 ^ (e - 1) := by
    intro m e hvalue hgap
    have hsucc : value (bits + 1) = m * 2 ^ e + 2 ^ e := by
      rw [value, scaled_succ]
      push_cast
      rw [add_div, hgap, ← hvalue, value]
    rw [halfway, hvalue, hsucc, hhalf e]
    push_cast
    ring
  unfold splitBits
  rw [hshift, hand]
  by_cases hzero : bits / 2 ^ 52 = 0
  · have hvalue : value bits = (bits % 2 ^ 52 : Nat) * 2 ^ (-1074 : Int) := by
      rw [value, scaled, if_pos hzero, zpow_neg, div_eq_mul_inv]
      rfl
    have hgap : (gap bits : ℚ) / 2 ^ 1074 = 2 ^ (-1074 : Int) := by
      rw [gap, hzero, zpow_neg, div_eq_mul_inv, Nat.zero_sub, pow_zero, Nat.cast_one, one_mul]
      rfl
    rw [if_pos hzero]
    exact ⟨_, _, rfl, by omega, by omega, fun _ => by omega, fun _ => by omega, hvalue,
      hmid _ _ hvalue hgap⟩
  obtain ⟨e, he⟩ : ∃ e, bits / 2 ^ 52 = e + 1 := ⟨bits / 2 ^ 52 - 1, by omega⟩
  have hpow : (2 : ℚ) ^ ((e : Int) + 1 - 1075) = 2 ^ e / 2 ^ 1074 := by
    rw [show (e : Int) + 1 - 1075 = e - 1074 by ring, zpow_sub₀ two_ne_zero, zpow_natCast]
    rfl
  have hgap : (gap bits : ℚ) / 2 ^ 1074 = 2 ^ ((e : Int) + 1 - 1075) := by
    rw [gap, he, Nat.add_sub_cancel, hpow]
    push_cast
    rfl
  have hvalue : value bits = (bits % 2 ^ 52 + 4503599627370496 : Nat) *
      2 ^ ((e : Int) + 1 - 1075) := by
    rw [value, scaled, if_neg hzero, he, Nat.add_sub_cancel, hpow]
    push_cast
    rw [mul_div_assoc]
  rw [if_neg hzero, he]
  refine ⟨_, _, rfl, by omega, by push_cast; omega, fun h => ?_, fun h => ?_, ?_, ?_⟩
  · unfold infinity at h
    omega
  · omega
  · exact_mod_cast hvalue
  · exact_mod_cast hmid _ _ hvalue hgap

/-- The integers of every comparison with a pattern below 2 have a place. -/
structure Fits (n d : Nat) : Prop where
  pos : 0 < d
  numerator : n * 2 ^ 1075 < limit
  denominator : d * 2 ^ 64 < limit

/-- The integers of the comparison with `m * 2 ^ e` have a place. -/
def Room (d : Nat) (e : Int) : Prop := e ≤ 0 ∨ d * 2 ^ 1075 < limit

theorem mul_pow_lt {bits most : Nat} (hbits : bits ≤ most) (h : n * 2 ^ most < limit) :
    n * 2 ^ bits < limit :=
  lt_of_le_of_lt (Nat.mul_le_mul_left n (Nat.pow_le_pow_right (by decide) hbits)) h

theorem sign_nonneg (a b : Nat) : 0 ≤ sign a b ↔ ¬ a < b := by
  unfold sign
  split_ifs <;> omega

theorem sign_pos (a b : Nat) : 0 < sign a b ↔ b < a := by
  unfold sign
  split_ifs <;> omega

theorem compare_exact {numerator denominator : DecimalInteger} {n d m : Nat} {e : Int}
    (hn : Holds numerator n) (hd : Holds denominator d) (hfits : Fits n d) (hroom : Room d e)
    (hm : m < 2 ^ 54) (hlow : -1075 ≤ e) (hhigh : e ≤ 971) :
    ∃ order, decimalCompare numerator denominator m e = .ok order ∧
      (0 ≤ order ↔ (m * 2 ^ e : ℚ) ≤ n / d) ∧ (0 < order ↔ (m * 2 ^ e : ℚ) < n / d) := by
  have hright : d * m * 2 ^ e.toNat < limit := by
    rcases hroom with hneg | hwide
    · rw [Int.toNat_eq_zero.mpr hneg, pow_zero, mul_one]
      refine lt_of_le_of_lt (Nat.mul_le_mul_left d ?_) hfits.denominator
      exact le_trans hm.le (Nat.pow_le_pow_right (by decide) (by decide))
    have hsum : d * m * 2 ^ e.toNat ≤ d * 2 ^ (54 + e.toNat) := by
      rw [mul_assoc, pow_add]
      exact Nat.mul_le_mul_left d (Nat.mul_le_mul_right _ hm.le)
    exact lt_of_le_of_lt hsum (mul_pow_lt (by omega) hwide)
  have hspec := @decimalCompare_spec numerator denominator n d m e hn hd
    (lt_of_lt_of_le hm (Nat.pow_le_pow_right (by decide) (by decide)))
    (mul_pow_lt (by omega) hfits.numerator) hright
    (by simpa using mul_pow_lt (Nat.zero_le 64) hfits.denominator) hfits.denominator
  obtain ⟨hless, hmore⟩ := scaled_lt_iff n m hfits.pos e
  refine ⟨_, hspec, ?_, ?_⟩
  · rw [sign_nonneg, hless, not_lt]
  · rw [sign_pos, hmore]

theorem compareBits_spec {numerator denominator : DecimalInteger} {n d bits : Nat}
    (hn : Holds numerator n) (hd : Holds denominator d) (hfits : Fits n d)
    (hbits : bits < infinity) (hroom : bits < 1024 * 2 ^ 52 ∨ d * 2 ^ 1075 < limit) :
    (∃ order, decimalCompareBits numerator denominator bits false = .ok order ∧
        (0 ≤ order ↔ value bits ≤ n / d)) ∧
      ∃ order, decimalCompareBits numerator denominator bits true = .ok order ∧
        (0 ≤ order ↔ halfway bits ≤ n / d) ∧ (0 < order ↔ halfway bits < n / d) := by
  obtain ⟨m, e, hsplit, hm, hlow, hhigh, hnarrow, hvalue, hhalfway⟩ := splitBits_spec bits
  have htop := hhigh hbits
  have hroom' : ∀ e' ≤ e, Room d e' := fun e' he' => by
    rcases hroom with hsmall | hwide
    · have := hnarrow hsmall
      exact .inl (by omega)
    · exact .inr hwide
  unfold decimalCompareBits
  rw [hsplit, hvalue, hhalfway]
  constructor
  · obtain ⟨order, horder, hle, _⟩ := compare_exact hn hd hfits (hroom' e (le_refl e))
      (lt_of_lt_of_le hm (Nat.pow_le_pow_right (by decide) (by decide))) (by omega) htop
    exact ⟨order, horder, hle⟩
  obtain ⟨order, horder, hle, hlt⟩ := @compare_exact numerator denominator n d (m * 2 + 1) (e - 1)
    hn hd hfits (hroom' (e - 1) (by omega)) (by omega) (by omega) (by omega)
  exact ⟨order, horder, hle, hlt⟩

/-- **The search finds the last pattern with a property that smaller ones inherit.** -/
theorem searchLoop_spec {numerator denominator : DecimalInteger} {P : Nat → Prop}
    (hP : ∀ a b, a ≤ b → P b → P a) (low high : Nat) (hle : low ≤ high)
    (hcompare : ∀ bits, low < bits → bits ≤ high → ∃ order,
      decimalCompareBits numerator denominator bits false = .ok order ∧ (0 ≤ order ↔ P bits)) :
    ∃ bits, searchLoop numerator denominator low high = .ok bits ∧ low ≤ bits ∧ bits ≤ high ∧
      (low < bits → P bits) ∧ (bits < high → ¬ P (bits + 1)) := by
  rw [searchLoop]
  split_ifs with hless
  · dsimp only
    have hmiddle : low < low + (high - low) / 2 + 1 ∧ low + (high - low) / 2 + 1 ≤ high := by omega
    generalize low + (high - low) / 2 + 1 = middle at *
    obtain ⟨order, horder, hiff⟩ := hcompare middle hmiddle.1 hmiddle.2
    rw [horder]
    simp only [bind, Except.bind]
    split_ifs with hsign
    · obtain ⟨bits, hsearch, hl, hh, hin, hout⟩ := searchLoop_spec hP middle high hmiddle.2
        (fun b hb hb' => hcompare b (by omega) hb')
      refine ⟨bits, hsearch, by omega, hh, fun _ => ?_, hout⟩
      rcases Nat.eq_or_lt_of_le hl with heq | hlt
      · rw [← heq]
        exact hiff.mp hsign
      · exact hin hlt
    obtain ⟨bits, hsearch, hl, hh, hin, hout⟩ := searchLoop_spec hP low (middle - 1) (by omega)
      (fun b hb hb' => hcompare b hb (by omega))
    refine ⟨bits, hsearch, hl, by omega, hin, fun hlt => ?_⟩
    rcases lt_or_ge bits (middle - 1) with hinner | hedge
    · exact hout hinner
    intro hnext
    rw [show bits + 1 = middle by omega] at hnext
    exact hsign (hiff.mpr hnext)
  · exact ⟨low, rfl, le_refl low, hle, fun h => absurd h (lt_irrefl low),
      fun h => absurd h hless⟩
termination_by high - low

theorem search_spec (hn : Holds numerator n) (hd : Holds denominator d) (hfits : Fits n d) :
    ∃ bits, searchLoop numerator denominator 0 9218868437227405311 = .ok bits ∧
      bits < infinity ∧ (bits < 1024 * 2 ^ 52 ∨ d * 2 ^ 1075 < limit) ∧
      value bits ≤ n / d ∧ (bits + 1 < infinity → (n / d : ℚ) < value (bits + 1)) := by
  have hinfinity : infinity = 9218868437227405311 + 1 := rfl
  have hP : ∀ a b, a ≤ b → value b ≤ (n / d : ℚ) → value a ≤ (n / d : ℚ) := fun a b hab hb =>
    le_trans (value_strictMono.monotone hab) hb
  -- The first pattern of the search is 1.5; from it on the denominator is not above the numerator.
  have hfirst : value 4609434218613702656 = 3 / 2 := by
    have hscaled : scaled 4609434218613702656 = 3 * 2 ^ 1073 := by
      have hdiv : 4609434218613702656 / 2 ^ 52 = 1023 := by decide
      have hmod : 4609434218613702656 % 2 ^ 52 + 2 ^ 52 = 3 * 2 ^ 51 := by decide
      rw [scaled, hdiv, hmod, if_neg (by decide), mul_assoc, ← pow_add]
    have hpow : (2 : ℚ) ^ 1074 = 2 ^ 1073 * 2 := pow_succ 2 1073
    rw [value, hscaled, hpow]
    push_cast
    field_simp
  have hzero : value 0 ≤ (n / d : ℚ) := by
    rw [value_zero]
    exact div_nonneg (Nat.cast_nonneg n) (Nat.cast_nonneg d)
  obtain ⟨⟨order, horder, hiff⟩, _⟩ := @compareBits_spec numerator denominator n d
    4609434218613702656 hn hd hfits (by decide) (.inl (by decide))
  rw [searchLoop, if_pos (by decide)]
  dsimp only
  rw [show 0 + (9218868437227405311 - 0) / 2 + 1 = 4609434218613702656 from rfl, horder]
  simp only [bind, Except.bind]
  split_ifs with hsign
  · have hlow := hiff.mp hsign
    have hwide : d * 2 ^ 1075 < limit := by
      have hle : d ≤ n := by
        have hpos : (0 : ℚ) < d := by exact_mod_cast hfits.pos
        rw [hfirst, le_div_iff₀ hpos] at hlow
        have hcast : (d : ℚ) ≤ n := by linarith
        exact_mod_cast hcast
      exact lt_of_le_of_lt (Nat.mul_le_mul_right _ hle) hfits.numerator
    obtain ⟨bits, hsearch, hl, hh, hin, hout⟩ := @searchLoop_spec numerator denominator
      (fun b => value b ≤ (n / d : ℚ)) hP 4609434218613702656 9218868437227405311 (by decide)
      (fun b _ hb => (compareBits_spec hn hd hfits (by omega) (.inr hwide)).1)
    refine ⟨bits, hsearch, by omega, .inr hwide, ?_, fun hlt => not_le.mp (hout (by omega))⟩
    rcases Nat.eq_or_lt_of_le hl with heq | hlt
    · rw [← heq]
      exact hlow
    · exact hin hlt
  have hhigh := fun hc => hsign (hiff.mpr hc)
  obtain ⟨bits, hsearch, hl, hh, hin, hout⟩ := @searchLoop_spec numerator denominator
    (fun b => value b ≤ (n / d : ℚ)) hP 0 (4609434218613702656 - 1) (by decide)
    (fun b _ hb => (compareBits_spec hn hd hfits (by omega) (.inl (by omega))).1)
  refine ⟨bits, hsearch, by omega, .inl (by omega), ?_, fun _ => ?_⟩
  · rcases Nat.eq_or_lt_of_le hl with heq | hlt
    · rw [← heq]
      exact hzero
    · exact hin hlt
  rcases lt_or_ge bits (4609434218613702656 - 1) with hinner | hedge
  · exact not_le.mp (hout hinner)
  · rw [show bits + 1 = 4609434218613702656 by omega]
    exact not_le.mp hhigh

/-- No boundary lies between the kept number and the number itself. -/
structure Stuck (kept exact : ℚ) (sticky : Bool) : Prop where
  le : kept ≤ exact
  sticky : sticky = true ↔ kept < exact
  boundary : ∀ (m : Nat) (e : Int), m < 2 ^ 54 → -1075 ≤ e → kept < m * 2 ^ e → exact < m * 2 ^ e

theorem nearestBits_spec {sticky : Bool} {exact : ℚ} (hn : Holds numerator n)
    (hd : Holds denominator d) (hfits : Fits n d) (hstuck : Stuck (n / d) exact sticky) :
    ∃ bits, nearestBits numerator denominator sticky = .ok bits ∧ RoundsTo exact bits := by
  obtain ⟨low, hsearch, hlow, hroom, hbelow, habove⟩ := search_spec hn hd hfits
  obtain ⟨order, horder, hge, hgt⟩ := (compareBits_spec hn hd hfits hlow hroom).2
  have hboundary : (n / d : ℚ) < halfway low → exact < halfway low := by
    obtain ⟨m, e, _, hm, he, _, _, _, hhalfway⟩ := splitBits_spec low
    rw [hhalfway]
    exact hstuck.boundary (m * 2 + 1) (e - 1) (by omega) (by omega)
  have hsucc : low + 1 < infinity → exact < value (low + 1) := fun h => by
    obtain ⟨m, e, _, hm, he, _, _, hvalue, _⟩ := splitBits_spec (low + 1)
    have hkept := habove h
    rw [hvalue] at hkept ⊢
    exact hstuck.boundary m e (by omega) (by omega) hkept
  have hodd : low &&& 1 ≠ 0 ↔ ¬ Even low := by
    rw [Nat.and_one_is_mod, Nat.even_iff]
  refine ⟨_, by unfold nearestBits; simp only [hsearch, horder, bind, Except.bind, pure, Except.pure]; rfl,
    roundsTo_of_bracket hlow (le_trans hbelow hstuck.le) hsucc ?_⟩
  have hle := hstuck.le
  rw [gt_iff_lt, hgt, hodd, hstuck.sticky]
  rcases lt_trichotomy (halfway low) (n / d : ℚ) with hless | hsame | hmore
  · constructor
    · intro _
      exact .inl (lt_of_lt_of_le hless hle)
    · intro _
      exact .inl hless
  · have hzero : order = 0 := by
      have h1 := hge.mpr hsame.le
      have h2 : ¬ 0 < order := fun hc => lt_irrefl _ (hsame ▸ hgt.mp hc)
      omega
    constructor
    · rintro (hc | ⟨_, hstrict | hodd⟩)
      · exact .inl (lt_of_lt_of_le hc hle)
      · exact .inl (hsame ▸ hstrict)
      rcases eq_or_lt_of_le hle with heq | hlt
      · exact .inr ⟨heq ▸ hsame.symm, hodd⟩
      · exact .inl (hsame ▸ hlt)
    rintro (hc | ⟨_, hodd⟩)
    · exact .inr ⟨hzero, .inl (hsame ▸ hc)⟩
    · exact .inr ⟨hzero, .inr hodd⟩
  · have hexact := hboundary hmore
    have hneg : ¬ 0 ≤ order := fun hc => absurd (hge.mp hc) (not_le.mpr hmore)
    constructor
    · rintro (hc | ⟨hzero, _⟩)
      · exact absurd hc (not_lt.mpr hmore.le)
      · omega
    rintro (hc | ⟨heq, _⟩)
    · exact absurd hc (not_lt.mpr hexact.le)
    · exact absurd heq (ne_of_lt hexact)

/-- A boundary that is a multiple of the unit is not between a multiple of it and the next. -/
theorem lt_of_multiple {K : Nat} {rest unit boundary : ℚ} (hunit : 0 < unit) (hrest : rest < 1)
    (hmultiple : boundary = K * unit) (hkept : n * unit < boundary) :
    (n + rest) * unit < boundary := by
  rw [hmultiple] at hkept ⊢
  have hlt : (n : ℚ) < K := lt_of_mul_lt_mul_right hkept hunit.le
  have hnext : (n : ℚ) + 1 ≤ K := by exact_mod_cast (show n < K by exact_mod_cast hlt)
  exact mul_lt_mul_of_pos_right (by linarith) hunit

theorem pow_split {j t : Nat} (h : j ≤ t) : (10 : ℚ) ^ t = 2 ^ j * (5 ^ j * 10 ^ (t - j)) := by
  rw [← mul_assoc, ← mul_pow, show (2 : ℚ) * 5 = 10 by norm_num, ← pow_add, Nat.add_sub_cancel' h]

theorem sticky_lt {m t : Nat} {rest : ℚ} {e : Int} (hn : 10 ^ 799 ≤ n) (hrest : rest < 1)
    (ht : 491 ≤ t) (hm : m < 2 ^ 54) (he : -1075 ≤ e) (hkept : (n : ℚ) * (1 / 10 ^ t) < m * 2 ^ e) :
    (n + rest) * (1 / 10 ^ t) < m * 2 ^ e := by
  have hten : (0 : ℚ) < 10 ^ t := by positivity
  have hunit : (0 : ℚ) < 1 / 10 ^ t := by positivity
  rcases Int.le_total 0 e with hpos | hneg
  · obtain ⟨j, rfl⟩ := Int.eq_ofNat_of_zero_le hpos
    refine lt_of_multiple (K := m * 2 ^ j * 10 ^ t) hunit hrest ?_ hkept
    rw [zpow_natCast]
    push_cast
    field_simp
  obtain ⟨j, hj⟩ := Int.eq_ofNat_of_zero_le (show 0 ≤ -e by omega)
  have hscaled : (m : ℚ) * 2 ^ e = m / 2 ^ j := by
    rw [show e = -(j : Int) by omega, zpow_neg, zpow_natCast, div_eq_mul_inv]
  rw [hscaled] at hkept ⊢
  rcases lt_or_ge t j with hfar | hnear
  · -- The boundary would lie above a number far larger than itself.
    exfalso
    have hcross : n * 2 ^ j < m * 10 ^ t := by
      rw [mul_one_div, div_lt_div_iff₀ hten (by positivity)] at hkept
      exact_mod_cast hkept
    have hlow : 10 ^ 799 * 2 ^ j < 2 ^ 54 * 10 ^ t :=
      calc 10 ^ 799 * 2 ^ j ≤ n * 2 ^ j := Nat.mul_le_mul_right _ hn
        _ < m * 10 ^ t := hcross
        _ ≤ 2 ^ 54 * 10 ^ t := Nat.mul_le_mul_right _ hm.le
    rcases Nat.le_total t 799 with hsmall | hlarge
    · have hle : 2 ^ 54 * 10 ^ t ≤ 10 ^ 799 * 2 ^ j :=
        calc 2 ^ 54 * 10 ^ t ≤ 2 ^ j * 10 ^ 799 :=
              Nat.mul_le_mul (Nat.pow_le_pow_right (by decide) (by omega))
                (Nat.pow_le_pow_right (by decide) hsmall)
          _ = 10 ^ 799 * 2 ^ j := mul_comm _ _
      omega
    obtain ⟨u, rfl⟩ := Nat.exists_eq_add_of_le hlarge
    obtain ⟨v, rfl⟩ := Nat.exists_eq_add_of_le (show u + 800 ≤ j by omega)
    have hten3 : 10 ^ u ≤ 2 ^ (10 * (u / 3 + 1)) :=
      le_trans (Nat.pow_le_pow_right (by decide) (by omega)) (ten_pow_le (u / 3 + 1))
    have hle : 2 ^ 54 * 10 ^ (799 + u) ≤ 10 ^ 799 * 2 ^ (u + 800 + v) :=
      calc 2 ^ 54 * 10 ^ (799 + u) = 10 ^ 799 * (2 ^ 54 * 10 ^ u) := by
            rw [pow_add]
            ring
        _ ≤ 10 ^ 799 * (2 ^ 54 * 2 ^ (10 * (u / 3 + 1))) :=
            Nat.mul_le_mul_left _ (Nat.mul_le_mul_left _ hten3)
        _ ≤ 10 ^ 799 * 2 ^ (u + 800 + v) := by
            rw [← pow_add]
            exact Nat.mul_le_mul_left _ (Nat.pow_le_pow_right (by decide) (by omega))
    omega
  · refine lt_of_multiple (K := m * (5 ^ j * 10 ^ (t - j))) hunit hrest ?_ hkept
    rw [pow_split hnear]
    push_cast
    field_simp

theorem timesTen_spec : ∀ (k : Nat) {value : DecimalInteger} {n : Nat}, Holds value n →
    n * 10 ^ k < limit → ∃ out, timesTen k value = .ok out ∧ Holds out (n * 10 ^ k)
  | 0, value, n, h, _ => ⟨value, rfl, by simpa using h⟩
  | k + 1, value, n, h, hlimit => by
    have hpow : n * 10 ^ (k + 1) = n * 10 * 10 ^ k := by
      rw [pow_succ]
      ring
    rw [hpow] at hlimit ⊢
    have hten : n * 10 < limit :=
      lt_of_le_of_lt (Nat.le_mul_of_pos_right _ (Nat.pow_pos (by decide))) hlimit
    obtain ⟨out, hout, hholds⟩ := @Holds.multiply value n h 10 0
      (lt_of_le_of_lt (Nat.le_mul_of_pos_right _ (by decide)) hten) hten
    obtain ⟨out', hout', hholds'⟩ := timesTen_spec k hholds hlimit
    refine ⟨out', ?_, hholds'⟩
    rw [timesTen, hout]
    exact hout'

theorem lt_limit_of_ten {j bits : Nat} (h : n < 10 ^ (3 * j)) (hj : 10 * j + bits ≤ 32 * 128) :
    n * 2 ^ bits < limit := by
  have hlt : n < 2 ^ (10 * j) := lt_of_lt_of_le h (ten_pow_le j)
  rw [limit_eq]
  calc n * 2 ^ bits < 2 ^ (10 * j) * 2 ^ bits := Nat.mul_lt_mul_of_pos_right hlt (Nat.two_pow_pos _)
    _ = 2 ^ (10 * j + bits) := (pow_add ..).symm
    _ ≤ 2 ^ (32 * 128) := Nat.pow_le_pow_right (by decide) hj

theorem two_pow_le_ten_pow : (2 : ℚ) ^ 1023 ≤ 10 ^ 308 := by
  have hstep : (2 : ℚ) ^ 93 ≤ 10 ^ 28 := by norm_num
  calc (2 : ℚ) ^ 1023 = (2 ^ 93) ^ 11 := (pow_mul 2 93 11)
    _ ≤ (10 ^ 28) ^ 11 := pow_le_pow_left₀ (by positivity) hstep 11
    _ = 10 ^ 308 := (pow_mul 10 28 11).symm

theorem roundsTo_infinity {x : ℚ} (h : (10 : ℚ) ^ 309 ≤ x) : RoundsTo x 9218868437227405312 := by
  have hpow := two_pow_le_ten_pow
  have hbound : overflowBound < x := by
    rw [overflowBound_eq, show (2 : ℚ) ^ 1024 = 2 ^ 1023 * 2 from pow_succ 2 1023]
    rw [show (10 : ℚ) ^ 309 = 10 ^ 308 * 10 from pow_succ 10 308] at h
    have hpos : (0 : ℚ) < 2 ^ 970 := pow_pos two_pos 970
    have hpos' : (0 : ℚ) < 2 ^ 1023 := pow_pos two_pos 1023
    generalize (2 : ℚ) ^ 1023 = a at *
    generalize (2 : ℚ) ^ 970 = b at *
    generalize (10 : ℚ) ^ 308 = c at *
    linarith
  exact @roundsTo_succ _ (infinity - 1) (by decide) (fun hc => absurd hc (by decide)) (.inl hbound)

theorem roundsTo_zero {x : ℚ} (hx : 0 ≤ x) (h : x < 1 / 10 ^ 324) : RoundsTo x 0 := by
  have hpow : (2 : ℚ) ^ 1075 ≤ 10 ^ 324 :=
    calc (2 : ℚ) ^ 1075 = 2 ^ 1023 * 2 ^ 52 := pow_add 2 1023 52
      _ ≤ 10 ^ 308 * 10 ^ 16 := mul_le_mul two_pow_le_ten_pow (by norm_num) (by positivity)
          (pow_nonneg (by norm_num) 308)
      _ = 10 ^ 324 := (pow_add 10 308 16).symm
  have hhalf : halfway 0 = 1 / 2 ^ 1075 := by
    have hsucc : (2 : ℚ) ^ 1075 = 2 ^ 1074 * 2 := pow_succ 2 1074
    have hone : scaled 1 = 1 := by decide
    rw [halfway, value_zero, value, hone, hsucc]
    generalize (2 : ℚ) ^ 1074 = unit
    rw [Nat.cast_one, zero_add, div_div]
  refine roundsTo_self (by decide) (by rw [value_zero]; exact hx) (.inl ?_)
  rw [hhalf]
  exact lt_of_lt_of_le h (one_div_le_one_div_of_le (pow_pos two_pos 1075) hpow)

/-- The scale is exact, or cut where the number is far from all finite ones. -/
inductive Cut (scale shift : Int) : Prop
  | exact (h : shift = scale) (h' : -9223372036854770000 ≤ scale ∧ scale ≤ 9223372036854770000)
  | small (h : scale < -2000) (h' : shift = -2000)
  | large (h : 2000 < scale) (h' : shift = 2000)

theorem scaled_quotient (n : Nat) (scale : Int) :
    ((n * 10 ^ scale.toNat : Nat) : ℚ) / ((1 * 10 ^ (-scale).toNat : Nat) : ℚ) = n * 10 ^ scale := by
  rcases Int.le_total 0 scale with hpos | hneg
  · obtain ⟨j, rfl⟩ := Int.eq_ofNat_of_zero_le hpos
    rw [Int.toNat_natCast, Int.toNat_eq_zero.mpr (by omega), zpow_natCast]
    simp
  obtain ⟨j, hj⟩ := Int.eq_ofNat_of_zero_le (show 0 ≤ -scale by omega)
  rw [show scale = -(j : Int) by omega, neg_neg, Int.toNat_natCast,
    Int.toNat_eq_zero.mpr (by omega), zpow_neg, zpow_natCast]
  simp [div_eq_mul_inv]

theorem scaled_middle {value count fraction k r : Nat} {s : Scan} {scale : Int}
    (h : KeptAs value count fraction s n k r) (hrest : (0 : ℚ) ≤ r / 10 ^ k)
    (hrest' : (r / 10 ^ k : ℚ) < 1) (hlow : -323 ≤ scale + s.significant)
    (hhigh : scale + s.significant ≤ 309) :
    ∃ bits, (do
        let denominator ← decimalMultiply [] 1 1
        let numerator ← timesTen scale.toNat s.numerator
        let denominator ← timesTen (-scale).toNat denominator
        nearestBits numerator denominator s.sticky) = .ok bits ∧
      RoundsTo ((n + r / 10 ^ k) * 10 ^ scale) bits := by
  have hsignificant := h.significant
  have hnumerator : n * 10 ^ scale.toNat < 10 ^ (s.significant + scale.toNat) := by
    rw [pow_add]
    exact Nat.mul_lt_mul_of_pos_right h.upper (Nat.pow_pos (by decide))
  have hn : n * 10 ^ scale.toNat < 10 ^ (3 * 267) :=
    lt_of_lt_of_le hnumerator (Nat.pow_le_pow_right (by decide) (by omega))
  have hd : 1 * 10 ^ (-scale).toNat < 10 ^ (3 * 375) := by
    rw [one_mul]
    exact Nat.pow_lt_pow_right (by decide) (by omega)
  obtain ⟨one, hone, hholds⟩ := @Holds.multiply [] 0 holds_nil 1 1 (Nat.pow_pos (by decide))
    (by rw [limit_eq]; exact Nat.one_lt_two_pow (by decide))
  obtain ⟨numerator, hn', hnholds⟩ := timesTen_spec scale.toNat h.numerator
    (by simpa using lt_limit_of_ten hn (show 10 * 267 + 0 ≤ 32 * 128 by decide))
  obtain ⟨denominator, hd', hdholds⟩ := timesTen_spec (-scale).toNat hholds
    (by simpa using lt_limit_of_ten hd (show 10 * 375 + 0 ≤ 32 * 128 by decide))
  have hfits : Fits (n * 10 ^ scale.toNat) (1 * 10 ^ (-scale).toNat) :=
    ⟨by simp, lt_limit_of_ten hn (by decide), lt_limit_of_ten hd (by decide)⟩
  have hstuck : Stuck (((n * 10 ^ scale.toNat : Nat) : ℚ) / ((1 * 10 ^ (-scale).toNat : Nat) : ℚ))
      ((n + r / 10 ^ k) * 10 ^ scale) s.sticky := by
    have hscale : (0 : ℚ) < 10 ^ scale := by positivity
    rw [scaled_quotient]
    constructor
    · exact mul_le_mul_of_nonneg_right (by linarith) hscale.le
    · have hten : (0 : ℚ) < 10 ^ k := by positivity
      rw [h.sticky, mul_lt_mul_iff_left₀ hscale, lt_add_iff_pos_right, lt_div_iff₀ hten, zero_mul,
        Nat.cast_pos, Nat.pos_iff_ne_zero]
    intro m e hm he hkept
    rcases Nat.eq_zero_or_pos k with hzero | hdropped
    · have hr : r = 0 := by
        have hlt := h.dropped
        rw [hzero, pow_zero] at hlt
        omega
      rw [hr, Nat.cast_zero, zero_div, add_zero]
      exact hkept
    have hfull := h.full hdropped
    obtain ⟨t, ht⟩ := Int.eq_ofNat_of_zero_le (show 0 ≤ -scale by omega)
    have hunit : (10 : ℚ) ^ scale = 1 / 10 ^ t := by
      rw [show scale = -(t : Int) by omega, zpow_neg, zpow_natCast, one_div]
    have hlower := h.lower (by omega)
    rw [hfull] at hlower
    rw [hunit] at hkept ⊢
    exact sticky_lt hlower hrest' (by omega) hm he hkept
  obtain ⟨bits, hbits, hrounds⟩ := nearestBits_spec hnholds hdholds hfits hstuck
  refine ⟨bits, ?_, hrounds⟩
  rw [hone]
  simp only [bind, Except.bind, hn', hd', hbits]

theorem scaledBits_spec {value count fraction k r : Nat} {s : Scan} {scale shift : Int}
    (h : KeptAs value count fraction s n k r) (hpos : 0 < n) (hcut : Cut scale shift) :
    ∃ bits, scaledBits s.numerator s.significant s.sticky shift = .ok bits ∧
      RoundsTo ((n + r / 10 ^ k) * 10 ^ scale) bits := by
  have hsignificant := h.significant
  have hten : (1 : ℚ) ≤ 10 := by norm_num
  have hsome : 0 < s.significant := by
    by_contra hc
    have hupper := h.upper
    rw [show s.significant = 0 by omega, pow_zero] at hupper
    omega
  have hrest : (0 : ℚ) ≤ r / 10 ^ k := by positivity
  have hrest' : (r / 10 ^ k : ℚ) < 1 := by
    rw [div_lt_one (by positivity)]
    exact_mod_cast h.dropped
  have hscale : (0 : ℚ) < 10 ^ scale := by positivity
  have hupper : ((n : ℚ) + r / 10 ^ k) * 10 ^ scale < 10 ^ (scale + s.significant) := by
    have hn : (n : ℚ) + 1 ≤ 10 ^ s.significant := by exact_mod_cast h.upper
    rw [zpow_add₀ (by norm_num), zpow_natCast, mul_comm (10 ^ scale : ℚ)]
    exact mul_lt_mul_of_pos_right (by linarith) hscale
  have hlower : (10 : ℚ) ^ (scale + s.significant - 1) ≤ ((n : ℚ) + r / 10 ^ k) * 10 ^ scale := by
    have hn : (10 : ℚ) ^ (s.significant - 1) ≤ n := by exact_mod_cast h.lower hsome
    rw [show scale + s.significant - 1 = ((s.significant - 1 : Nat) : Int) + scale by omega,
      zpow_add₀ (by norm_num), zpow_natCast]
    exact mul_le_mul_of_nonneg_right (by linarith) hscale.le
  have hshift : -2 ^ 63 ≤ shift + (s.significant : Int) ∧ shift + (s.significant : Int) < 2 ^ 63 := by
    rcases hcut with ⟨rfl, _⟩ | ⟨_, rfl⟩ | ⟨_, rfl⟩ <;> omega
  unfold scaledBits
  rw [checkedI64_of_bounds hshift]
  simp only [bind, Except.bind, pure, Except.pure]
  split_ifs with hlarge hsmall
  · refine ⟨_, rfl, roundsTo_infinity (le_trans ?_ hlower)⟩
    have horder : (309 : Int) ≤ scale + s.significant - 1 := by
      rcases hcut with ⟨rfl, _⟩ | ⟨_, rfl⟩ | ⟨_, rfl⟩ <;> omega
    exact_mod_cast zpow_le_zpow_right₀ hten horder
  · have heq : shift = scale := by
      rcases hcut with ⟨rfl, _⟩ | ⟨_, rfl⟩ | ⟨_, rfl⟩ <;> omega
    subst heq
    exact scaled_middle h hrest hrest' (by omega) (by omega)
  refine ⟨_, rfl, roundsTo_zero (by positivity) (lt_of_lt_of_le hupper ?_)⟩
  have horder : scale + s.significant ≤ (-324 : Int) := by
    rcases hcut with ⟨rfl, _⟩ | ⟨_, rfl⟩ | ⟨_, rfl⟩ <;> omega
  calc (10 : ℚ) ^ (scale + s.significant) ≤ 10 ^ (-324 : Int) := zpow_le_zpow_right₀ hten horder
    _ = 1 / 10 ^ 324 := by
        rw [zpow_neg, one_div]
        rfl

theorem scaleShift_spec {shift : Int} {length power : Nat} (negative : Bool)
    (hlength : length ≤ 9223372036854765807) (hshift : -(length : Int) ≤ shift ∧ shift ≤ length) :
    ∃ out, scaleShift shift negative (min (power : Int) (length + 10000)) = .ok out ∧
      Cut (shift + if negative then -(power : Int) else power) out := by
  unfold scaleShift
  cases negative with
  | true =>
    rw [if_pos rfl, if_pos rfl, checkedI64_of_bounds (by omega)]
    simp only [bind, Except.bind, pure, Except.pure]
    split_ifs with hless
    · exact ⟨_, rfl, .small (by omega) rfl⟩
    rw [checkedI64_of_bounds (by omega)]
    rcases Int.le_total (power : Int) (length + 10000) with hle | hle
    · exact ⟨_, rfl, .exact (by omega) (by omega)⟩
    · omega
  | false =>
    rw [if_neg Bool.false_ne_true, if_neg Bool.false_ne_true, checkedI64_of_bounds (by omega)]
    simp only [bind, Except.bind, pure, Except.pure]
    split_ifs with hmore
    · exact ⟨_, rfl, .large (by omega) rfl⟩
    rw [checkedI64_of_bounds (by omega)]
    rcases Int.le_total (power : Int) (length + 10000) with hle | hle
    · exact ⟨_, rfl, .exact (by omega) (by omega)⟩
    · omega

theorem magnitudeBits_spec {value count fraction length power : Nat} {s : Scan} {exponent : Exponent}
    (h : Kept value count fraction s) (hcount : count ≤ length)
    (hlength : length ≤ 9223372036854765807)
    (hexponent : exponent.exponent = min (power : Int) (length + 10000)) :
    ∃ bits, magnitudeBits s exponent = .ok bits ∧ RoundsTo
      (value * 10 ^ ((if exponent.negative then -(power : Int) else power) - fraction)) bits := by
  obtain ⟨n, k, r, h⟩ := h
  have hbounds := h.count
  have hshift := h.shift
  obtain ⟨shift, hscale, hcut⟩ := @scaleShift_spec s.shift length power exponent.negative hlength
    (by omega)
  unfold magnitudeBits
  by_cases hnil : s.numerator = []
  · have hn : n = 0 := by
      have hvalue := h.numerator.value
      rw [hnil] at hvalue
      exact hvalue.symm
    have hk : k = 0 := by
      by_contra hc
      have hlower := h.lower (by rw [h.full (Nat.pos_of_ne_zero hc)]; decide)
      have hpos : 0 < 10 ^ (s.significant - 1) := Nat.pow_pos (by decide)
      omega
    have hr : r = 0 := by
      have hdropped := h.dropped
      rw [hk, pow_zero] at hdropped
      omega
    have hvalue : value = 0 := by
      rw [h.value, hn, hr, zero_mul]
    rw [if_neg (not_not.mpr hnil), hvalue, Nat.cast_zero, zero_mul]
    exact ⟨0, rfl, roundsTo_zero (le_refl 0) (by positivity)⟩
  have hn : 0 < n := by
    by_contra hc
    have hzero : n = 0 := by omega
    subst hzero
    exact hnil h.numerator.eq_nil
  obtain ⟨bits, hbits, hrounds⟩ := scaledBits_spec h hn hcut
  refine ⟨bits, ?_, ?_⟩
  · rw [if_pos hnil, hexponent, hscale]
    exact hbits
  convert hrounds using 1
  rw [h.value, h.shift]
  generalize (if exponent.negative then -(power : Int) else power) = p
  rw [show (k : Int) - fraction + p = k + (p - fraction) by ring, zpow_add₀ (by norm_num),
    zpow_natCast]
  push_cast
  field_simp

end Dyn.Strings
