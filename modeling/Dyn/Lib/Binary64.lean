import Dyn.Lib.FloatFormat

/-!
# Binary64 magnitudes

The magnitudes of binary64 are its bit patterns without the sign, in the order of their
values; the patterns below `infinity` are the finite ones.  `RoundsTo` is rounding to
nearest, ties to even.

They are those of `FloatFormat` at its binary64, written with their numbers.
-/

namespace Dyn.Binary64

def infinity : Nat := 2047 * 2 ^ 52

/-- The value of a pattern, in units of the smallest positive number. -/
def scaled (bits : Nat) : Nat :=
  if bits / 2 ^ 52 = 0 then bits % 2 ^ 52
  else (bits % 2 ^ 52 + 2 ^ 52) * 2 ^ (bits / 2 ^ 52 - 1)

/-- The distance from a pattern to the next one, in the same units. -/
def gap (bits : Nat) : Nat := 2 ^ (bits / 2 ^ 52 - 1)

variable (bits : Nat)

theorem scaled_succ : scaled (bits + 1) = scaled bits + gap bits :=
  Lib.binary64.scaled_succ bits

/-- The value of a pattern; infinity stands for the number that would follow the largest. -/
def value (bits : Nat) : ℚ := scaled bits / 2 ^ 1074

theorem value_eq : value = Lib.binary64.value := by
  have hunit : Lib.binary64.bias + Lib.binary64.fraction - 1 = 1074 := rfl
  funext bits
  rw [Lib.FloatFormat.value, hunit]
  rfl

theorem value_strictMono : StrictMono value := value_eq ▸ Lib.binary64.value_strictMono

@[simp] theorem value_zero : value 0 = 0 := by
  simp [value, scaled]

def halfway (bits : Nat) : ℚ := (value bits + value (bits + 1)) / 2

theorem halfway_eq : halfway = Lib.binary64.halfway := by
  funext bits
  rw [Lib.FloatFormat.halfway, ← value_eq, halfway]

/-- From here on a number rounds to infinity. -/
def overflowBound : ℚ := halfway (infinity - 1)

theorem overflowBound_eq : overflowBound = 2 ^ 1024 - 2 ^ 970 := by
  have hexponent : (infinity - 1) / 2 ^ 52 = 2046 := by norm_num [infinity]
  have hmantissa : (infinity - 1) % 2 ^ 52 + 2 ^ 52 = 2 ^ 53 - 1 := by norm_num [infinity]
  have hlast : scaled (infinity - 1) = (2 ^ 53 - 1) * 2 ^ 2045 := by
    rw [scaled, hexponent, hmantissa, if_neg (by decide)]
  have hgap : gap (infinity - 1) = 2 ^ 2045 := by rw [gap, hexponent]
  have hinfinity : scaled (infinity - 1 + 1) = (2 ^ 53 - 1) * 2 ^ 2045 + 2 ^ 2045 := by
    rw [scaled_succ, hlast, hgap]
  have hlow : (2 : ℚ) ^ 2045 = 2 ^ 971 * 2 ^ 1074 := (pow_add 2 971 1074)
  have hhalf : (2 : ℚ) ^ 971 = 2 ^ 970 * 2 := pow_succ 2 970
  have htop : (2 : ℚ) ^ 1024 = 2 ^ 53 * 2 ^ 971 := (pow_add 2 53 971)
  have hunit : (2 : ℚ) ^ 1074 ≠ 0 := pow_ne_zero _ two_ne_zero
  rw [overflowBound, halfway, value, value, hlast, hinfinity]
  push_cast
  rw [hlow, htop, hhalf]
  generalize (2 : ℚ) ^ 1074 = unit at *
  field_simp
  ring

/-- **Rounding to nearest, ties to even,** with overflow to infinity. -/
structure RoundsTo (x : ℚ) (bits : Nat) : Prop where
  overflow : overflowBound ≤ x → bits = infinity
  finite : x < overflowBound → bits < infinity
  nearest : x < overflowBound → ∀ other < infinity, |x - value bits| ≤ |x - value other|
  even : x < overflowBound → ∀ other < infinity, |x - value bits| = |x - value other| →
    other = bits ∨ Even bits

theorem roundsTo_eq : RoundsTo = Lib.binary64.RoundsTo := by
  have hinfinity : Lib.binary64.infinity = infinity := rfl
  have hbound : Lib.binary64.overflowBound = overflowBound := by
    rw [Lib.FloatFormat.overflowBound, hinfinity, ← halfway_eq, overflowBound]
  funext x bits
  refine propext ⟨fun h => ⟨?_, ?_, ?_, ?_⟩, fun h => ⟨?_, ?_, ?_, ?_⟩⟩
  · rw [hbound, hinfinity]; exact h.overflow
  · rw [hbound, hinfinity]; exact h.finite
  · rw [hbound, hinfinity, ← value_eq]; exact h.nearest
  · rw [hbound, hinfinity, ← value_eq]; exact h.even
  · rw [← hbound, ← hinfinity]; exact h.overflow
  · rw [← hbound, ← hinfinity]; exact h.finite
  · rw [← hbound, ← hinfinity, value_eq]; exact h.nearest
  · rw [← hbound, ← hinfinity, value_eq]; exact h.even

theorem roundsTo_self {x : ℚ} {bits : Nat} (hbits : bits < infinity) (hlow : value bits ≤ x)
    (hmid : x < halfway bits ∨ x = halfway bits ∧ Even bits) : RoundsTo x bits := by
  rw [value_eq] at hlow
  rw [halfway_eq] at hmid
  rw [roundsTo_eq]
  exact Lib.FloatFormat.roundsTo_self hbits hlow hmid

theorem roundsTo_succ {x : ℚ} {bits : Nat} (hbits : bits < infinity)
    (hhigh : bits + 1 < infinity → x < value (bits + 1))
    (hmid : halfway bits < x ∨ x = halfway bits ∧ ¬ Even bits) : RoundsTo x (bits + 1) := by
  rw [value_eq] at hhigh
  rw [halfway_eq] at hmid
  rw [roundsTo_eq]
  exact Lib.FloatFormat.roundsTo_succ hbits hhigh hmid

theorem roundsTo_of_bracket {x : ℚ} {bits : Nat} (hbits : bits < infinity)
    (hlow : value bits ≤ x) (hhigh : bits + 1 < infinity → x < value (bits + 1))
    {up : Prop} [Decidable up]
    (hup : up ↔ halfway bits < x ∨ x = halfway bits ∧ ¬ Even bits) :
    RoundsTo x (if up then bits + 1 else bits) := by
  rw [value_eq] at hlow hhigh
  rw [halfway_eq] at hup
  rw [roundsTo_eq]
  exact Lib.FloatFormat.roundsTo_of_bracket hbits hlow hhigh hup

end Dyn.Binary64
