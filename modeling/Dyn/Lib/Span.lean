import Mathlib.Data.Nat.Bitwise
import Mathlib.Data.List.Basic

/-!
# Half-open address ranges and byte stores

A `Span` is a run of consecutive addresses.  The module fixes the two relations
that memory arguments need, inclusion and disjointness, and one operation on a
byte map, `fill`, which overwrites a span with one byte.

`storeRun` is the store loop a program executes; `storeRun_eq_fill` says that the
loop and the set-wise overwrite agree.
-/

namespace Dyn.Lib

open Function

/-- The addresses `start, …, start + len - 1`. -/
structure Span where
  start : Nat
  len : Nat
deriving DecidableEq, Repr

namespace Span

def stop (s : Span) : Nat := s.start + s.len

def Has (s : Span) (a : Nat) : Prop := s.start ≤ a ∧ a < s.stop

instance (s : Span) (a : Nat) : Decidable (s.Has a) :=
  inferInstanceAs (Decidable (_ ∧ _))

/-- Every address of `s` lies between the ends of `t`. -/
def Within (s t : Span) : Prop := t.start ≤ s.start ∧ s.stop ≤ t.stop

def Apart (s t : Span) : Prop := s.stop ≤ t.start ∨ t.stop ≤ s.start

variable {s t : Span}

theorem Apart.symm (h : s.Apart t) : t.Apart s :=
  Or.symm h

theorem Apart.within {s' t' : Span} (h : s.Apart t) (hs : s'.Within s) (ht : t'.Within t) :
    s'.Apart t' := by
  obtain ⟨hs1, hs2⟩ := hs
  obtain ⟨ht1, ht2⟩ := ht
  rcases h with h | h
  · exact .inl (le_trans hs2 (le_trans h ht1))
  · exact .inr (le_trans ht2 (le_trans h hs1))

theorem Apart.not_has {a : Nat} (h : s.Apart t) (ha : s.Has a) : ¬ t.Has a := by
  rintro ⟨h1, h2⟩
  obtain ⟨h3, h4⟩ := ha
  rcases h with h | h <;> omega

end Span

/-- Overwrite the bytes of a span with `v`. -/
def fill (m : Nat → UInt8) (s : Span) (v : UInt8) : Nat → UInt8 :=
  fun a => if s.Has a then v else m a

theorem fill_of_not_has {m : Nat → UInt8} {s : Span} {v : UInt8} {a : Nat}
    (h : ¬ s.Has a) : fill m s v a = m a := by
  simp [fill, h]

variable (m : Nat → UInt8) (a : Nat)

theorem fill_nil (v : UInt8) : fill m ⟨a, 0⟩ v = m := by
  funext b
  apply fill_of_not_has
  rintro ⟨h1, h2⟩
  simp only [Span.stop] at h1 h2
  omega

theorem fill_fill (n k : Nat) (v : UInt8) :
    fill (fill m ⟨a, n⟩ v) ⟨a + n, k⟩ v = fill m ⟨a, n + k⟩ v := by
  funext b
  simp only [fill, Span.Has, Span.stop]
  by_cases h1 : a ≤ b ∧ b < a + n
  · have h2 : a ≤ b ∧ b < a + (n + k) := by omega
    simp [h1, h2]
  by_cases h3 : a + n ≤ b ∧ b < a + n + k
  · have h2 : a ≤ b ∧ b < a + (n + k) := by omega
    simp [h3, h2]
  · have h2 : ¬ (a ≤ b ∧ b < a + (n + k)) := by omega
    simp [h1, h2, h3]

/-- The store loop `for i in 0..n { data[i] = v }`, from address `a` on. -/
def storeRun (v : UInt8) : Nat → Nat → (Nat → UInt8) → Nat → UInt8
  | 0, _, m => m
  | n + 1, a, m => storeRun v n (a + 1) (update m a v)

theorem fill_one (v : UInt8) : update m a v = fill m ⟨a, 1⟩ v := by
  funext b
  by_cases h : b = a
  · subst h
    simp [fill, Span.Has, Span.stop]
  have hb : ¬ (a ≤ b ∧ b < a + 1) := by omega
  rw [update_of_ne h]
  exact (if_neg (show ¬ Span.Has ⟨a, 1⟩ b from hb)).symm

theorem storeRun_eq_fill (v : UInt8) :
    ∀ (n a : Nat) (m : Nat → UInt8), storeRun v n a m = fill m ⟨a, n⟩ v
  | 0, a, m => (fill_nil m a v).symm
  | n + 1, a, m => by
    rw [storeRun, storeRun_eq_fill v n (a + 1), fill_one, fill_fill, Nat.add_comm 1 n]

end Dyn.Lib
