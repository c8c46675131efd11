import Dyn.Lib.Bits

/-!
# Canonical prefix codes

A canonical code is given by the number `count l` of words of each length `l`: words of
one length are consecutive numbers, written with the highest bit first, and the first
number of a length continues behind the last one of the length before.

`firstCode_shift` is the one fact behind decodability: the words of length `l`, cut to a
smaller length, lie above all words of that length.
-/

namespace Dyn.Lib

open List

/-- The `n`-bit word of a code number, highest bit first. -/
def wordOf (n v : Nat) : List Bool := (bitsOf n v).reverse

@[simp] theorem wordOf_length (n v : Nat) : (wordOf n v).length = n := by
  simp [wordOf]

variable {n k v : Nat}

theorem bitsOf_drop (h : k ≤ n) : (bitsOf n v).drop (n - k) = bitsOf k (v / 2 ^ (n - k)) := by
  have e : n = (n - k) + k := by omega
  have hsplit : bitsOf n v = bitsOf (n - k) v ++ bitsOf k (v / 2 ^ (n - k)) := by
    conv_lhs => rw [e]
    exact bitsOf_add (n - k) k v
  rw [hsplit, drop_left' (bitsOf_length _ _)]

/-- A word that begins another is the other's number without its low bits. -/
theorem wordOf_prefix {u : Nat} (hu : u < 2 ^ k) (hv : v < 2 ^ n) (h : wordOf k u <+: wordOf n v) :
    k ≤ n ∧ u = v / 2 ^ (n - k) := by
  have hkn : k ≤ n := by
    have := h.length_le
    simpa using this
  refine ⟨hkn, ?_⟩
  have hs : bitsOf k u <:+ bitsOf n v := reverse_prefix.mp h
  have hdrop : bitsOf k u = (bitsOf n v).drop (n - k) := by
    have := suffix_iff_eq_drop.mp hs
    simpa using this
  rw [bitsOf_drop hkn] at hdrop
  have hval := congrArg valueOf hdrop
  have hlt : v / 2 ^ (n - k) < 2 ^ k := by
    rw [Nat.div_lt_iff_lt_mul (Nat.two_pow_pos _), ← pow_add, Nat.add_sub_cancel' hkn]
    exact hv
  rwa [valueOf_bitsOf_of_lt hu, valueOf_bitsOf_of_lt hlt] at hval

def firstCode (count : Nat → Nat) : Nat → Nat
  | 0 => 0
  | l + 1 => (firstCode count l + count l) * 2

/-- Words of length `l + d`, cut to length `l`, lie behind all words of length `l`. -/
theorem firstCode_shift (count : Nat → Nat) (l : Nat) :
    ∀ d, (firstCode count l + count l) * 2 ^ (d + 1) ≤ firstCode count (l + (d + 1))
  | 0 => by simp [firstCode]
  | d + 1 => by
    have ih := firstCode_shift count l d
    have e : firstCode count (l + (d + 1 + 1)) =
        (firstCode count (l + (d + 1)) + count (l + (d + 1))) * 2 := rfl
    rw [e, pow_succ, ← mul_assoc]
    exact Nat.mul_le_mul_right 2 (le_trans ih (Nat.le_add_right _ _))

/-- Words of different lengths: the shorter does not begin the longer. -/
theorem canonical_cut_ne {count : Nat → Nat} {u : Nat} (hkn : k < n)
    (hu : u < firstCode count k + count k) (hv : firstCode count n ≤ v) : u ≠ v / 2 ^ (n - k) := by
  have hshift := firstCode_shift count k (n - k - 1)
  have e : n - k - 1 + 1 = n - k := by omega
  rw [e, Nat.add_sub_cancel' (le_of_lt hkn)] at hshift
  have hge : firstCode count k + count k ≤ v / 2 ^ (n - k) :=
    (Nat.le_div_iff_mul_le (Nat.two_pow_pos _)).mpr (le_trans hshift hv)
  omega

/-- The words of `width` bits that begin with a word of the given length, 0 for no word. -/
def share (width length : Nat) : Nat :=
  if length = 0 ∨ width < length then 0 else 2 ^ (width - length)

/-- The words of `width` bits taken by a code with the given lengths. -/
def kraftSum (lengths : List Nat) (width : Nat) : Nat := (lengths.map (share width)).sum

theorem share_succ (width length : Nat) :
    share (width + 1) length = 2 * share width length + if length = width + 1 then 1 else 0 := by
  unfold share
  by_cases h0 : length = 0
  · simp [h0]
  rcases Nat.lt_trichotomy length (width + 1) with h | h | h
  · have hpow : width + 1 - length = (width - length) + 1 := by omega
    rw [if_neg (by omega), if_neg (by omega), if_neg (by omega), hpow, pow_succ]
    ring
  · rw [if_neg (by omega), if_pos (by omega), if_pos h, h, Nat.sub_self]
    rfl
  · rw [if_pos (by omega), if_pos (by omega), if_neg (by omega)]

/-- One more bit doubles the words taken and adds those of the new length. -/
theorem kraftSum_succ (lengths : List Nat) (width : Nat) :
    kraftSum lengths (width + 1) = 2 * kraftSum lengths width + lengths.count (width + 1) := by
  induction lengths with
  | nil => rfl
  | cons length lengths ih =>
    have hcount := count_cons (l := lengths) (a := width + 1) (b := length)
    simp only [kraftSum, map_cons, sum_cons, beq_iff_eq] at ih hcount ⊢
    rw [ih, hcount, share_succ]
    ring

end Dyn.Lib
