import Dyn.Lib.Sticky

/-!
# Binary interchange formats

A format is given by the widths of its fraction and of its exponent field.  Its magnitudes are
the bit patterns without the sign, in the order of their values; the patterns below `infinity`
are the finite ones.  `RoundsTo` is rounding to nearest, ties to even.

`roundsTo_of_bracket` is how a rounding is computed: a pattern not above the number whose
successor lies above it, and a comparison with the midpoint between the two.
`roundsTo_of_sticky` does this for a significand with three rounding bits, of which the lowest
may stand for all that lies below it.
-/

namespace Dyn.Lib

structure FloatFormat where
  fraction : Nat
  exponentBits : Nat
  fraction_pos : 0 < fraction
  one_lt_exponentBits : 1 < exponentBits

def binary32 : FloatFormat := ⟨23, 8, by decide, by decide⟩

def binary64 : FloatFormat := ⟨52, 11, by decide, by decide⟩

namespace FloatFormat

variable (F : FloatFormat)

/-- The smallest normal exponent is `1 - bias`. -/
def bias : Nat := 2 ^ (F.exponentBits - 1) - 1

def infinity : Nat := (2 ^ F.exponentBits - 1) * 2 ^ F.fraction

/-- The sign bit, which is also the number of patterns without it. -/
def signBit : Nat := 2 ^ (F.exponentBits + F.fraction)

/-- The value of a pattern, in units of the smallest positive number. -/
def scaled (bits : Nat) : Nat :=
  if bits / 2 ^ F.fraction = 0 then bits % 2 ^ F.fraction
  else (bits % 2 ^ F.fraction + 2 ^ F.fraction) * 2 ^ (bits / 2 ^ F.fraction - 1)

/-- The distance from a pattern to the next one, in the same units. -/
def gap (bits : Nat) : Nat := 2 ^ (bits / 2 ^ F.fraction - 1)

/-- The value of a pattern; infinity stands for the number that would follow the largest. -/
def value (bits : Nat) : ℚ := F.scaled bits / 2 ^ (F.bias + F.fraction - 1)

def halfway (bits : Nat) : ℚ := (F.value bits + F.value (bits + 1)) / 2

/-- From here on a number rounds to infinity. -/
def overflowBound : ℚ := F.halfway (F.infinity - 1)

/-- **Rounding to nearest, ties to even,** with overflow to infinity. -/
structure RoundsTo (x : ℚ) (bits : Nat) : Prop where
  overflow : F.overflowBound ≤ x → bits = F.infinity
  finite : x < F.overflowBound → bits < F.infinity
  nearest : x < F.overflowBound → ∀ other < F.infinity, |x - F.value bits| ≤ |x - F.value other|
  even : x < F.overflowBound → ∀ other < F.infinity, |x - F.value bits| = |x - F.value other| →
    other = bits ∨ Even bits

theorem two_pow_exponentBits : 2 ^ F.exponentBits = 2 * F.bias + 2 := by
  have hpos : 0 < 2 ^ (F.exponentBits - 1) := Nat.two_pow_pos _
  have hsplit : 2 ^ F.exponentBits = 2 * 2 ^ (F.exponentBits - 1) := by
    rw [← Nat.pow_succ', Nat.succ_eq_add_one, Nat.sub_add_cancel F.one_lt_exponentBits.le]
  unfold bias
  omega

theorem bias_pos : 0 < F.bias := by
  have hle : 2 ^ 1 ≤ 2 ^ (F.exponentBits - 1) :=
    Nat.pow_le_pow_right (by decide) (by have := F.one_lt_exponentBits; omega)
  unfold bias
  omega

theorem infinity_eq : F.infinity = (2 * F.bias + 1) * 2 ^ F.fraction := by
  rw [infinity, F.two_pow_exponentBits]
  rfl

theorem signBit_eq : F.signBit = (2 * F.bias + 2) * 2 ^ F.fraction := by
  rw [signBit, pow_add, F.two_pow_exponentBits]

theorem infinity_lt_signBit : F.infinity < F.signBit := by
  rw [infinity_eq, signBit_eq]
  exact Nat.mul_lt_mul_of_pos_right (by omega) (Nat.two_pow_pos _)

theorem infinity_pos : 0 < F.infinity := by
  rw [infinity_eq]
  exact Nat.mul_pos (by omega) (Nat.two_pow_pos _)

theorem odd_last : ¬ Even (F.infinity - 1) := by
  have heven : Even F.infinity := by
    rw [infinity]
    exact (Nat.even_pow.mpr ⟨even_two, F.fraction_pos.ne'⟩).mul_left _
  have hpos := F.infinity_pos
  rw [Nat.not_even_iff_odd]
  exact Nat.Even.sub_odd hpos heven odd_one

theorem scaled_succ (bits : Nat) : F.scaled (bits + 1) = F.scaled bits + F.gap bits := by
  unfold scaled gap
  have hpow : 0 < 2 ^ F.fraction := Nat.two_pow_pos _
  have hsplit := Nat.div_add_mod bits (2 ^ F.fraction)
  have hless := Nat.mod_lt bits hpow
  generalize bits / 2 ^ F.fraction = e at *
  generalize bits % 2 ^ F.fraction = m at *
  generalize 2 ^ F.fraction = p at *
  by_cases hcarry : m + 1 = p
  · have hnext : bits + 1 = p * (e + 1) := by rw [← hsplit, Nat.mul_succ]; omega
    rw [hnext, Nat.mul_div_cancel_left _ hpow, Nat.mul_mod_right, if_neg (Nat.succ_ne_zero e),
      Nat.add_sub_cancel, zero_add]
    cases e with
    | zero => simp only [if_pos, pow_zero, Nat.zero_sub]; omega
    | succ e =>
      rw [if_neg (Nat.succ_ne_zero e), Nat.add_sub_cancel, pow_succ, ← hcarry]
      ring
  have hnext : bits + 1 = (m + 1) + p * e := by omega
  have hsmall : m + 1 < p := by omega
  rw [hnext, Nat.add_mul_div_left _ _ hpow, Nat.add_mul_mod_self_left, Nat.div_eq_of_lt hsmall,
    Nat.mod_eq_of_lt hsmall, zero_add]
  split_ifs with hzero
  · rw [hzero, Nat.zero_sub, pow_zero]
  · ring

theorem gap_pos (bits : Nat) : 0 < F.gap bits := Nat.two_pow_pos _

theorem scaled_strictMono : StrictMono F.scaled :=
  strictMono_nat_of_lt_succ fun bits => by
    rw [scaled_succ]
    exact Nat.lt_add_of_pos_right (F.gap_pos bits)

theorem value_strictMono : StrictMono F.value := fun a b h => by
  unfold value
  have hlt : (F.scaled a : ℚ) < F.scaled b := by exact_mod_cast F.scaled_strictMono h
  gcongr

@[simp] theorem value_zero : F.value 0 = 0 := by
  simp [value, scaled]

theorem value_lt_halfway (bits : Nat) : F.value bits < F.halfway bits := by
  have hlt := F.value_strictMono (Nat.lt_succ_self bits)
  unfold halfway
  linarith

theorem halfway_lt_value (bits : Nat) : F.halfway bits < F.value (bits + 1) := by
  have hlt := F.value_strictMono (Nat.lt_succ_self bits)
  unfold halfway
  linarith

variable {bits : Nat}

theorem halfway_le_overflowBound (h : bits < F.infinity) : F.halfway bits ≤ F.overflowBound := by
  rcases lt_or_ge bits (F.infinity - 1) with hlt | hge
  · have hsucc : F.value (bits + 1) ≤ F.value (F.infinity - 1) :=
      F.value_strictMono.monotone (by omega)
    have hmid := F.halfway_lt_value bits
    have hlast := F.value_lt_halfway (F.infinity - 1)
    unfold overflowBound
    linarith
  · rw [show bits = F.infinity - 1 by omega, overflowBound]

variable {F}

variable {x : ℚ}

theorem roundsTo_self (hbits : bits < F.infinity) (hlow : F.value bits ≤ x)
    (hmid : x < F.halfway bits ∨ x = F.halfway bits ∧ Even bits) : F.RoundsTo x bits := by
  have hle : x ≤ F.halfway bits := by
    rcases hmid with hlt | ⟨heq, _⟩
    · exact le_of_lt hlt
    · exact le_of_eq heq
  have hbound := F.halfway_le_overflowBound hbits
  have hself : |x - F.value bits| = x - F.value bits := abs_of_nonneg (by linarith)
  have hhalfway : F.halfway bits = (F.value bits + F.value (bits + 1)) / 2 := rfl
  refine ⟨fun hover => ?_, fun _ => hbits, fun _ other hother => ?_, fun _ other hother heq => ?_⟩
  · rcases hmid with hlt | ⟨heq, heven⟩
    · linarith
    exfalso
    have hlast : bits = F.infinity - 1 := by
      by_contra hne
      have hsucc : F.value (bits + 1) ≤ F.value (F.infinity - 1) :=
        F.value_strictMono.monotone (by omega)
      have hmid := F.halfway_lt_value bits
      have htop := F.value_lt_halfway (F.infinity - 1)
      unfold overflowBound at hover
      linarith
    exact F.odd_last (hlast ▸ heven)
  · rw [hself]
    rcases lt_or_ge bits other with hgt | hge
    · have hsucc : F.value (bits + 1) ≤ F.value other := F.value_strictMono.monotone hgt
      have habs := neg_abs_le (x - F.value other)
      linarith
    have hprev : F.value other ≤ F.value bits := F.value_strictMono.monotone hge
    have habs := le_abs_self (x - F.value other)
    linarith
  rw [hself] at heq
  rcases Nat.lt_trichotomy bits other with hgt | hsame | hlt
  · have hsucc : F.value (bits + 1) ≤ F.value other := F.value_strictMono.monotone hgt
    have habs := neg_abs_le (x - F.value other)
    rcases hmid with hstrict | ⟨_, heven⟩
    · linarith
    · exact .inr heven
  · exact .inl hsame.symm
  have hprev : F.value other < F.value bits := F.value_strictMono hlt
  have habs := le_abs_self (x - F.value other)
  linarith

theorem roundsTo_succ {x : ℚ} {bits : Nat} (hbits : bits < F.infinity)
    (hhigh : bits + 1 < F.infinity → x < F.value (bits + 1))
    (hmid : F.halfway bits < x ∨ x = F.halfway bits ∧ ¬ Even bits) : F.RoundsTo x (bits + 1) := by
  have hge : F.halfway bits ≤ x := by
    rcases hmid with hlt | ⟨heq, _⟩
    · exact le_of_lt hlt
    · exact le_of_eq heq.symm
  have hhalfway : F.halfway bits = (F.value bits + F.value (bits + 1)) / 2 := rfl
  rcases lt_or_ge (bits + 1) F.infinity with hfinite | hlast
  · have hx := hhigh hfinite
    have hself : |x - F.value (bits + 1)| = F.value (bits + 1) - x := by
      rw [abs_sub_comm]
      exact abs_of_nonneg (by linarith)
    have htop : F.value (bits + 1) < F.overflowBound :=
      lt_of_lt_of_le (F.value_lt_halfway _) (F.halfway_le_overflowBound hfinite)
    refine ⟨fun hover => by linarith, fun _ => hfinite, fun _ other hother => ?_,
      fun _ other hother heq => ?_⟩
    · rw [hself]
      rcases lt_or_ge bits other with hgt | hle
      · have hsucc : F.value (bits + 1) ≤ F.value other := F.value_strictMono.monotone hgt
        have habs := neg_abs_le (x - F.value other)
        linarith
      have hprev : F.value other ≤ F.value bits := F.value_strictMono.monotone hle
      have habs := le_abs_self (x - F.value other)
      linarith
    rw [hself] at heq
    rcases Nat.lt_trichotomy (bits + 1) other with hgt | hsame | hlt
    · have hsucc : F.value (bits + 1) < F.value other := F.value_strictMono hgt
      have habs := neg_abs_le (x - F.value other)
      linarith
    · exact .inl hsame.symm
    have hprev : F.value other ≤ F.value bits := F.value_strictMono.monotone (by omega)
    have habs := le_abs_self (x - F.value other)
    rcases hmid with hstrict | ⟨_, hodd⟩
    · linarith
    · exact .inr (Nat.even_add_one.mpr hodd)
  · have hbound : F.halfway bits = F.overflowBound := by
      rw [overflowBound, show bits = F.infinity - 1 by omega]
    refine ⟨fun _ => by omega, fun hx => ?_, fun hx => ?_, fun hx => ?_⟩
    all_goals linarith

theorem roundsTo_of_bracket (hbits : bits < F.infinity) (hlow : F.value bits ≤ x)
    (hhigh : bits + 1 < F.infinity → x < F.value (bits + 1)) {up : Prop} [Decidable up]
    (hup : up ↔ F.halfway bits < x ∨ x = F.halfway bits ∧ ¬ Even bits) :
    F.RoundsTo x (if up then bits + 1 else bits) := by
  split_ifs with h
  · exact roundsTo_succ hbits hhigh (hup.mp h)
  refine roundsTo_self hbits hlow ?_
  have hdown := fun hc => h (hup.mpr hc)
  rcases lt_trichotomy x (F.halfway bits) with hlt | heq | hgt
  · exact .inl hlt
  · exact .inr ⟨heq, by_contra fun hodd => hdown (.inr ⟨heq, hodd⟩)⟩
  · exact absurd (.inl hgt) hdown

theorem roundsTo_infinity (h : F.value F.infinity ≤ x) : F.RoundsTo x F.infinity := by
  have hpos := F.infinity_pos
  have hsucc : F.infinity - 1 + 1 = F.infinity := by omega
  have hbound : F.overflowBound < F.value F.infinity := by
    have hlt := F.halfway_lt_value (F.infinity - 1)
    rwa [hsucc] at hlt
  refine ⟨fun _ => rfl, fun hx => ?_, fun hx => ?_, fun hx => ?_⟩
  all_goals linarith

theorem roundsTo_value (h : bits < F.infinity) : F.RoundsTo (F.value bits) bits :=
  roundsTo_self h le_rfl (.inl (F.value_lt_halfway bits))

theorem RoundsTo.le_infinity (h : F.RoundsTo x bits) : bits ≤ F.infinity := by
  rcases lt_or_ge x F.overflowBound with hx | hx
  · exact (h.finite hx).le
  · exact (h.overflow hx).le

variable {a b : Nat}

theorem RoundsTo.unique (ha : F.RoundsTo x a) (hb : F.RoundsTo x b) : a = b := by
  rcases lt_or_ge x F.overflowBound with hx | hx
  · by_contra hne
    have hab : |x - F.value a| = |x - F.value b| :=
      le_antisymm (ha.nearest hx b (hb.finite hx)) (hb.nearest hx a (ha.finite hx))
    have hea : Even a := (ha.even hx b (hb.finite hx) hab).resolve_left fun h => hne h.symm
    have heb : Even b := (hb.even hx a (ha.finite hx) hab.symm).resolve_left hne
    -- Two even patterns at one distance have an odd one between them, which is nearer.
    wlog hlt : a < b generalizing a b
    · exact this hb ha (fun h => hne h.symm) hab.symm heb hea (by omega)
    have hnext : a + 1 < b := by
      rcases lt_or_ge (a + 1) b with h | h
      · exact h
      · exact absurd heb (by rw [show b = a + 1 by omega, Nat.even_add_one]; simpa using hea)
    have hlow := F.value_strictMono (Nat.lt_succ_self a)
    have hhigh := F.value_strictMono hnext
    have hnear' := hb.nearest hx (a + 1) (by have := hb.finite hx; omega)
    rcases abs_cases (x - F.value a) with ⟨h1, _⟩ | ⟨h1, _⟩ <;>
      rcases abs_cases (x - F.value b) with ⟨h2, _⟩ | ⟨h2, _⟩ <;>
      rcases abs_cases (x - F.value (a + 1)) with ⟨h3, _⟩ | ⟨h3, _⟩ <;>
      linarith
  · rw [ha.overflow hx, hb.overflow hx]

variable {e r : Nat}

/-- **The pattern of a significand with its exponent field,** where the leading bit of the
significand counts as one more exponent. -/
theorem scaled_compose (hr : r < 2 ^ (F.fraction + 1)) (hnormal : e = 0 ∨ 2 ^ F.fraction ≤ r) :
    F.scaled (e * 2 ^ F.fraction + r) = r * 2 ^ e ∧ F.gap (e * 2 ^ F.fraction + r) = 2 ^ e := by
  have hpow : 0 < 2 ^ F.fraction := Nat.two_pow_pos _
  rw [pow_succ] at hr
  unfold scaled gap
  generalize 2 ^ F.fraction = p at *
  rcases lt_or_ge r p with hsmall | hbig
  · obtain rfl : e = 0 := by omega
    rw [zero_mul, zero_add, Nat.div_eq_of_lt hsmall, Nat.mod_eq_of_lt hsmall]
    simp
  have hsum : e * p + r = (r - p) + p * (e + 1) := by
    rw [Nat.mul_succ, mul_comm e p]
    omega
  have hless : r - p < p := by omega
  rw [hsum, Nat.add_mul_div_left _ _ hpow, Nat.add_mul_mod_self_left, Nat.div_eq_of_lt hless,
    Nat.mod_eq_of_lt hless, zero_add, if_neg (Nat.succ_ne_zero e), Nat.add_sub_cancel,
    Nat.sub_add_cancel hbig]
  exact ⟨rfl, rfl⟩

theorem exists_scaled (hr : r < 2 ^ (F.fraction + 1)) (e : Nat) :
    ∃ bits, F.scaled bits = r * 2 ^ e := by
  induction e generalizing r with
  | zero => exact ⟨_, (scaled_compose hr (.inl rfl)).1⟩
  | succ e ih =>
    rcases lt_or_ge r (2 ^ F.fraction) with hsmall | hbig
    · have hdouble : 2 * r < 2 ^ (F.fraction + 1) := by
        rw [pow_succ']
        omega
      obtain ⟨bits, hbits⟩ := ih hdouble
      exact ⟨bits, by rw [hbits, pow_succ']; ring⟩
    · exact ⟨_, (scaled_compose hr (.inr hbig)).1⟩

theorem exists_scaled_mod (m n : Nat) (hpos : 0 < F.scaled n) :
    ∃ bits < n, F.scaled bits = F.scaled m % F.scaled n := by
  have hless := Nat.mod_lt (F.scaled m) hpos
  suffices hexists : ∃ bits, F.scaled bits = F.scaled m % F.scaled n by
    obtain ⟨bits, hbits⟩ := hexists
    exact ⟨bits, F.scaled_strictMono.lt_iff_lt.mp (hbits ▸ hless), hbits⟩
  rcases lt_or_ge m n with hsmall | hbig
  · exact ⟨m, (Nat.mod_eq_of_lt (F.scaled_strictMono hsmall)).symm⟩
  -- Both are multiples of the unit of the smaller one.
  have hexponent : n / 2 ^ F.fraction ≤ m / 2 ^ F.fraction := Nat.div_le_div_right hbig
  have hform : ∃ s, s < 2 ^ (F.fraction + 1) ∧ F.scaled n = s * 2 ^ (n / 2 ^ F.fraction - 1) := by
    rw [pow_succ']
    unfold scaled
    split_ifs with hzero
    · refine ⟨n % 2 ^ F.fraction, by omega, ?_⟩
      rw [hzero, Nat.zero_sub, pow_zero, mul_one]
    · exact ⟨n % 2 ^ F.fraction + 2 ^ F.fraction, by omega, rfl⟩
  have hmultiple : 2 ^ (n / 2 ^ F.fraction - 1) ∣ F.scaled m := by
    unfold scaled
    split_ifs with hzero
    · rw [hzero] at hexponent
      rw [Nat.le_zero.mp hexponent, Nat.zero_sub, pow_zero]
      exact Nat.one_dvd _
    · exact Dvd.dvd.mul_left (Nat.pow_dvd_pow 2 (by omega)) _
  obtain ⟨s, hs, hn⟩ := hform
  obtain ⟨k, hk⟩ := hmultiple
  rw [hn] at hpos
  have hspos : 0 < s := Nat.pos_of_mul_pos_right hpos
  obtain ⟨bits, hbits⟩ := exists_scaled (F := F)
    (lt_trans (Nat.mod_lt k hspos) hs) (n / 2 ^ F.fraction - 1)
  exact ⟨bits, by rw [hbits, hk, hn, mul_comm _ k, Nat.mul_mod_mul_right]⟩

theorem exists_value_remainder {m n : Nat} (hpos : 0 < F.value n) :
    ∃ bits < n, F.value bits = F.value m - ⌊F.value m / F.value n⌋ * F.value n := by
  have hunit : (0 : ℚ) < 2 ^ (F.bias + F.fraction - 1) := by positivity
  have hscaled : 0 < F.scaled n := by
    by_contra hzero
    rw [value, Nat.eq_zero_of_not_pos hzero, Nat.cast_zero, zero_div] at hpos
    exact lt_irrefl 0 hpos
  obtain ⟨bits, hless, hbits⟩ := exists_scaled_mod (F := F) m n hscaled
  refine ⟨bits, hless, ?_⟩
  have hquotient : F.value m / F.value n = (F.scaled m : ℚ) / F.scaled n := by
    rw [value, value, div_div_div_cancel_right₀ hunit.ne']
  have hfloor : ⌊(F.scaled m : ℚ) / F.scaled n⌋ = (F.scaled m / F.scaled n : Nat) := by
    exact_mod_cast Rat.floor_natCast_div_natCast (F.scaled m) (F.scaled n)
  have hsplit : (F.scaled m : ℚ) = F.scaled n * (F.scaled m / F.scaled n : Nat) +
      (F.scaled m % F.scaled n : Nat) := by
    exact_mod_cast (Nat.div_add_mod (F.scaled m) (F.scaled n)).symm
  rw [hquotient, hfloor, Int.cast_natCast, value, value, value, hbits, hsplit]
  ring

theorem value_compose (hr : r < 2 ^ (F.fraction + 1)) (hnormal : e = 0 ∨ 2 ^ F.fraction ≤ r) :
    F.value (e * 2 ^ F.fraction + r) = r * 2 ^ e / 2 ^ (F.bias + F.fraction - 1) ∧
      F.value (e * 2 ^ F.fraction + r + 1) = (r + 1) * 2 ^ e / 2 ^ (F.bias + F.fraction - 1) := by
  obtain ⟨hscaled, hgap⟩ := scaled_compose hr hnormal
  unfold value
  rw [scaled_succ, hscaled, hgap]
  push_cast
  exact ⟨rfl, by ring⟩

theorem roundsTo_of_sticky {v : ℚ} {s : Nat} (h : Sticky 2 v s) (hs : s < 2 ^ (F.fraction + 4))
    (hnormal : e = 0 ∨ 2 ^ (F.fraction + 3) ≤ s) {up : Prop} [Decidable up]
    (hup : up ↔ 4 < s % 8 ∨ s % 8 = 4 ∧ s / 8 % 2 = 1) :
    F.RoundsTo (v * 2 ^ e / (8 * 2 ^ (F.bias + F.fraction - 1)))
      (min F.infinity (e * 2 ^ F.fraction + s / 8 + if up then 1 else 0)) := by
  have hr : s / 8 < 2 ^ (F.fraction + 1) := by
    rw [pow_succ _ (F.fraction + 3), pow_succ _ (F.fraction + 2), pow_succ _ (F.fraction + 1)] at hs
    omega
  have hnormal' : e = 0 ∨ 2 ^ F.fraction ≤ s / 8 := hnormal.imp_right fun hle => by
    rw [pow_add] at hle
    omega
  obtain ⟨hvalue, hnext⟩ := value_compose hr hnormal'
  have hparity : Even (e * 2 ^ F.fraction + s / 8) ↔ s / 8 % 2 = 0 := by
    have heven : Even (e * 2 ^ F.fraction) :=
      (Nat.even_pow.mpr ⟨even_two, F.fraction_pos.ne'⟩).mul_left _
    rw [Nat.even_add, iff_true_left heven, Nat.even_iff]
  have hunit : (0 : ℚ) < 2 ^ (F.bias + F.fraction - 1) := by positivity
  have hpow : (0 : ℚ) < 2 ^ e := by positivity
  generalize hB : e * 2 ^ F.fraction + s / 8 = B at *
  generalize (2 : ℚ) ^ (F.bias + F.fraction - 1) = unit at *
  -- The number and its significand compare alike with the pattern, the next one and the midpoint.
  have hlow : ((s / 8 : Nat) : ℚ) * 8 ≤ v := by
    have hle := (h.le_iff (s / 8 * 2)).mpr (by omega)
    push_cast at hle ⊢
    linarith
  have hhigh : v < ((s / 8 : Nat) + 1) * 8 := by
    have hlt := (h.lt_iff (s / 8 * 2 + 2)).mpr (by omega)
    push_cast at hlt ⊢
    linarith
  have hmid : v < (s / 8 : Nat) * 8 + 4 ↔ s % 8 < 4 := by
    have hlt := h.lt_iff (s / 8 * 2 + 1)
    rw [show ((s / 8 * 2 + 1) * 2 ^ 2 : Nat) = s / 8 * 8 + 4 by ring] at hlt
    push_cast at hlt ⊢
    rw [hlt]
    omega
  have htie : v = (s / 8 : Nat) * 8 + 4 ↔ s % 8 = 4 := by
    have heq := h.eq_iff (s / 8 * 2 + 1)
    rw [show ((s / 8 * 2 + 1) * 2 ^ 2 : Nat) = s / 8 * 8 + 4 by ring] at heq
    push_cast at heq ⊢
    rw [heq]
    omega
  have hmore : (s / 8 : Nat) * 8 + 4 < v ↔ 4 < s % 8 := by
    rw [← not_le, le_iff_lt_or_eq, hmid, htie]
    omega
  have hbelow : F.value B ≤ v * 2 ^ e / (8 * unit) := by
    rw [hvalue, div_le_div_iff₀ hunit (by positivity)]
    nlinarith [mul_le_mul_of_nonneg_right hlow (mul_pos hpow hunit).le]
  have habove : v * 2 ^ e / (8 * unit) < F.value (B + 1) := by
    rw [hnext, div_lt_div_iff₀ (by positivity) hunit]
    nlinarith [mul_lt_mul_of_pos_right hhigh (mul_pos hpow hunit)]
  have hhalf : F.halfway B = ((s / 8 : Nat) * 8 + 4) * 2 ^ e / (8 * unit) := by
    rw [halfway, hvalue, hnext]
    field_simp
    ring
  rcases lt_or_ge B F.infinity with hfinite | hover
  · have hup' : up ↔ F.halfway B < v * 2 ^ e / (8 * unit) ∨
        v * 2 ^ e / (8 * unit) = F.halfway B ∧ ¬ Even B := by
      rw [hhalf, div_lt_div_iff_of_pos_right (by positivity), mul_lt_mul_iff_left₀ hpow,
        div_left_inj' (by positivity), mul_left_inj' hpow.ne', htie, hmore, hparity, hup]
      omega
    have hround := roundsTo_of_bracket hfinite hbelow (fun _ => habove) hup'
    have hsum : (B + if up then 1 else 0) = if up then B + 1 else B := by split_ifs <;> rfl
    rw [hsum, Nat.min_eq_right hround.le_infinity]
    exact hround
  · rw [Nat.min_eq_left (by omega)]
    exact roundsTo_infinity (le_trans (F.value_strictMono.monotone hover) hbelow)

/-- What a bit pattern with its sign denotes. -/
inductive Datum where
  | nan
  | infinite (negative : Bool)
  | finite (negative : Bool) (magnitude : ℚ)

variable (F)

def signOf (negative : Bool) : Nat := if negative then F.signBit else 0

/-- The positive quiet NaN without payload. -/
def quietNan : Nat := F.infinity + 2 ^ (F.fraction - 1)

/-- What a bit pattern below `2 * signBit` denotes. -/
def datum (bits : Nat) : Datum :=
  if F.infinity < bits % F.signBit then .nan
  else if bits % F.signBit = F.infinity then .infinite (F.signBit ≤ bits)
  else .finite (F.signBit ≤ bits) (F.value (bits % F.signBit))

def signed (negative : Bool) (magnitude : ℚ) : ℚ := if negative then -magnitude else magnitude

/-- `result` is a magnitude, rounded, with its sign. -/
def Rounded (negative : Bool) (magnitude : ℚ) (result : Nat) : Prop :=
  ∃ bits, F.RoundsTo magnitude bits ∧ result = F.signOf negative + bits

variable {F}

theorem datum_compose (s : Bool) (h : bits < F.infinity) :
    F.datum (F.signOf s + bits) = .finite s (F.value bits) := by
  have hless := F.infinity_lt_signBit
  have hmod : (F.signOf s + bits) % F.signBit = bits := by
    unfold signOf
    split_ifs
    · rw [Nat.add_mod_left, Nat.mod_eq_of_lt (by omega)]
    · rw [zero_add, Nat.mod_eq_of_lt (by omega)]
  unfold datum
  rw [hmod, if_neg (by omega), if_neg (by omega)]
  congr 1
  unfold signOf
  cases s
  · simpa using h.trans hless
  · simp

theorem signOf_le (F : FloatFormat) (s : Bool) : F.signOf s ≤ F.signBit := by
  unfold signOf
  split_ifs
  · exact le_rfl
  · exact Nat.zero_le _

variable {s : Bool}

theorem value_of_datum (h : F.datum bits = .finite s x) :
    bits % F.signBit < F.infinity ∧ x = F.value (bits % F.signBit) ∧
      s = decide (F.signBit ≤ bits) := by
  unfold datum at h
  split_ifs at h with hnan hinf
  obtain ⟨hs, hx⟩ := Datum.finite.inj h
  exact ⟨by omega, hx.symm, hs.symm⟩

variable (F)

/-- **The rounded sum.**  A sum that is zero is negative only where both operands are. -/
def Sum : Datum → Datum → Nat → Prop
  | .nan, _, result | _, .nan, result => result = F.quietNan
  | .infinite s, .infinite t, result =>
      result = if s = t then F.signOf s + F.infinity else F.quietNan
  | .infinite s, .finite _ _, result | .finite _ _, .infinite s, result =>
      result = F.signOf s + F.infinity
  | .finite s x, .finite t y, result =>
      let sum := signed s x + signed t y
      F.Rounded (if sum = 0 then s && t else sum < 0) |sum| result

def Product : Datum → Datum → Nat → Prop
  | .nan, _, result | _, .nan, result => result = F.quietNan
  | .infinite s, .infinite t, result => result = F.signOf (s ^^ t) + F.infinity
  | .infinite s, .finite t x, result | .finite t x, .infinite s, result =>
      result = if x = 0 then F.quietNan else F.signOf (s ^^ t) + F.infinity
  | .finite s x, .finite t y, result => F.Rounded (s ^^ t) (x * y) result

def Quotient : Datum → Datum → Nat → Prop
  | .nan, _, result | _, .nan, result => result = F.quietNan
  | .infinite _, .infinite _, result => result = F.quietNan
  | .infinite s, .finite t _, result => result = F.signOf (s ^^ t) + F.infinity
  | .finite s _, .infinite t, result => result = F.signOf (s ^^ t)
  | .finite s x, .finite t y, result =>
      if y = 0 then result = if x = 0 then F.quietNan else F.signOf (s ^^ t) + F.infinity
      else F.Rounded (s ^^ t) (x / y) result

/-- `result` is a bit pattern of the format and denotes `datum`. -/
def Denotes (datum : Datum) (result : Nat) : Prop :=
  result < 2 * F.signBit ∧ F.datum result = datum

/-- **The exact remainder of the division that truncates,** with the sign of the dividend. -/
def Remainder : Datum → Datum → Nat → Prop
  | .nan, _, result | _, .nan, result => result = F.quietNan
  | .infinite _, _, result => result = F.quietNan
  | .finite s x, .infinite _, result => F.Denotes (.finite s x) result
  | .finite s x, .finite _ y, result =>
      if y = 0 then result = F.quietNan else F.Denotes (.finite s (x - ⌊x / y⌋ * y)) result

/-- **The number of another format,** rounded. -/
def Converted : Datum → Nat → Prop
  | .nan, result => result = F.quietNan
  | .infinite s, result => result = F.signOf s + F.infinity
  | .finite s x, result => F.Rounded s x result

namespace Datum

/-- The extended number that is not a NaN. -/
def extended : Datum → Option (WithBot (WithTop ℚ))
  | .nan => none
  | .infinite true => some ⊥
  | .infinite false => some ((⊤ : WithTop ℚ) : WithBot (WithTop ℚ))
  | .finite s x => some (((signed s x : ℚ) : WithTop ℚ) : WithBot (WithTop ℚ))

/-- **The comparison of two data:** -1 less, 0 equal, 1 greater, 2 unordered. -/
def Compared (a b : Datum) (result : Int) : Prop :=
  match a.extended, b.extended with
  | some x, some y => result = -1 ∧ x < y ∨ result = 0 ∧ x = y ∨ result = 1 ∧ y < x
  | _, _ => result = 2

end Datum

/-- The place of a pattern in the order of what the patterns denote. -/
def place (bits : Nat) : Int :=
  if F.signBit ≤ bits then -(bits % F.signBit : Nat) else (bits % F.signBit : Nat)

variable {F}

theorem value_nonneg (bits : Nat) : 0 ≤ F.value bits := by
  unfold value
  positivity

theorem signed_lt {t : Bool} {m n : Nat}
    (h : (if s then -(m : Int) else m) < if t then -(n : Int) else n) :
    signed s (F.value m) < signed t (F.value n) := by
  have hm := F.value_nonneg m
  have hn := F.value_nonneg n
  have hmono {a b : Nat} (hab : a < b) : F.value a < F.value b := F.value_strictMono hab
  unfold signed
  cases s <;> cases t <;> simp only [Bool.false_eq_true, if_true, if_false] at h ⊢
  · exact hmono (by omega)
  · omega
  · rcases Nat.eq_zero_or_pos m with rfl | hpos
    · linarith [hmono (show 0 < n by omega)]
    · linarith [hmono hpos, F.value_nonneg 0]
  · linarith [hmono (show n < m by omega)]

theorem datum_of_le (h : bits % F.signBit ≤ F.infinity) : F.datum bits =
    if bits % F.signBit = F.infinity then .infinite (F.signBit ≤ bits)
    else .finite (F.signBit ≤ bits) (F.value (bits % F.signBit)) :=
  if_neg (Nat.not_lt.mpr h)

theorem extended_lt (ha : a % F.signBit ≤ F.infinity) (hb : b % F.signBit ≤ F.infinity)
    (h : F.place a < F.place b) :
    ∃ x y, (F.datum a).extended = some x ∧ (F.datum b).extended = some y ∧ x < y := by
  unfold place at h
  rw [datum_of_le ha, datum_of_le hb]
  split
  · split at h
    · rename_i hsign
      rw [decide_eq_true hsign]
      split_ifs with hinf'
      · split_ifs at h with hsign'
        · omega
        · rw [decide_eq_false hsign']
          exact ⟨_, _, rfl, rfl, WithBot.bot_lt_coe _⟩
      · exact ⟨_, _, rfl, rfl, WithBot.bot_lt_coe _⟩
    · split_ifs at h <;> omega
  split_ifs with hinf'
  · by_cases hsign' : F.signBit ≤ b
    · rw [if_pos hsign'] at h
      split_ifs at h <;> omega
    · rw [decide_eq_false hsign']
      exact ⟨_, _, rfl, rfl, WithBot.coe_lt_coe.mpr (WithTop.coe_lt_top _)⟩
  · refine ⟨_, _, rfl, rfl, WithBot.coe_lt_coe.mpr (WithTop.coe_lt_coe.mpr (signed_lt ?_))⟩
    simpa using h

theorem extended_eq (ha : a % F.signBit ≤ F.infinity) (hb : b % F.signBit ≤ F.infinity)
    (h : F.place a = F.place b) :
    ∃ x, (F.datum a).extended = some x ∧ (F.datum b).extended = some x := by
  have hpos := F.infinity_pos
  unfold place at h
  rw [datum_of_le ha, datum_of_le hb]
  by_cases hzero : a % F.signBit = 0
  · have hzero' : b % F.signBit = 0 := by split_ifs at h <;> omega
    rw [hzero, hzero', if_neg hpos.ne, if_neg hpos.ne]
    refine ⟨_, rfl, ?_⟩
    unfold Datum.extended signed
    simp
  have hsame : (F.signBit ≤ a ↔ F.signBit ≤ b) ∧ a % F.signBit = b % F.signBit := by
    split_ifs at h <;> constructor <;> omega
  rw [hsame.2, decide_eq_decide.mpr hsame.1]
  split_ifs with hinf
  · cases decide (F.signBit ≤ b)
    · exact ⟨_, rfl, rfl⟩
    · exact ⟨_, rfl, rfl⟩
  · exact ⟨_, rfl, rfl⟩

theorem compared_of_place (ha : a % F.signBit ≤ F.infinity) (hb : b % F.signBit ≤ F.infinity)
    {result : Int} (h : result = -1 ∧ F.place a < F.place b ∨ result = 0 ∧ F.place a = F.place b ∨
      result = 1 ∧ F.place b < F.place a) : (F.datum a).Compared (F.datum b) result := by
  unfold Datum.Compared
  rcases h with ⟨rfl, hlt⟩ | ⟨rfl, heq⟩ | ⟨rfl, hgt⟩
  · obtain ⟨x, y, hx, hy, hxy⟩ := extended_lt ha hb hlt
    rw [hx, hy]
    exact .inl ⟨rfl, hxy⟩
  · obtain ⟨x, hx, hy⟩ := extended_eq ha hb heq
    rw [hx, hy]
    exact .inr (.inl ⟨rfl, rfl⟩)
  obtain ⟨x, y, hx, hy, hxy⟩ := extended_lt hb ha hgt
  rw [hx, hy]
  exact .inr (.inr ⟨rfl, hxy⟩)

theorem compared_nan (h : F.infinity < a % F.signBit ∨ F.infinity < b % F.signBit) :
    (F.datum a).Compared (F.datum b) 2 := by
  have hnan {n : Nat} (hn : F.infinity < n % F.signBit) : (F.datum n).extended = none := by
    rw [datum, if_pos hn]
    rfl
  unfold Datum.Compared
  rcases h with h | h
  · rw [hnan h]
  · rw [hnan h]
    cases (F.datum a).extended <;> rfl

theorem Rounded.denotes {result : Nat} (hbits : bits < F.infinity)
    (h : F.Rounded s (F.value bits) result) : F.Denotes (.finite s (F.value bits)) result := by
  obtain ⟨other, hround, rfl⟩ := h
  obtain rfl := hround.unique (roundsTo_value hbits)
  have hless := F.infinity_lt_signBit
  have hsign := F.signOf_le s
  exact ⟨by omega, datum_compose s hbits⟩

end FloatFormat
end Dyn.Lib
