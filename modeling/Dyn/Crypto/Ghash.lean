import Mathlib.RingTheory.AdjoinRoot
import Mathlib.Tactic

/-!
# std/crypto/aesgcm: GHASH

Bit `i` of a block, the top bit of its first byte first, is the coefficient of `X ^ i`.  A round of
`product` then adds `v` where the bit is set and multiplies it by `X`, so the loop multiplies in the
polynomials modulo `modulus`; and every block is the one remainder that it stands for.
-/

namespace Dyn.Gcm

open Polynomial

structure Block where
  high : UInt64 := 0
  low : UInt64 := 0
deriving DecidableEq

def xor (left right : Block) : Block := ⟨left.high ^^^ right.high, left.low ^^^ right.low⟩

/-- One round of the loop of `product`. -/
def productRound (left : Block) (s : Block × Block) (i : Nat) : Block × Block :=
  let (z, v) := s
  let bit : UInt64 :=
    if i < 64 then (left.high >>> UInt64.ofNat (63 - i)) &&& 1
    else (left.low >>> UInt64.ofNat (127 - i)) &&& 1
  let mask := 0 - bit
  let reduction := 0xe100000000000000 &&& (0 - (v.low &&& 1))
  (⟨z.high ^^^ (v.high &&& mask), z.low ^^^ (v.low &&& mask)⟩,
    ⟨(v.high >>> 1) ^^^ reduction, (v.low >>> 1) ||| (v.high <<< 63)⟩)

def product (left right : Block) : Block := ((List.range 128).foldl (productRound left) ({}, right)).1

def loadU32BE (source : List UInt8) : UInt32 :=
  ((source.getD 0 0).toUInt32 <<< 24) ||| ((source.getD 1 0).toUInt32 <<< 16) |||
    ((source.getD 2 0).toUInt32 <<< 8) ||| (source.getD 3 0).toUInt32

def loadU64BE (source : List UInt8) : UInt64 :=
  ((loadU32BE (source.take 4)).toUInt64 <<< 32) ||| (loadU32BE ((source.drop 4).take 4)).toUInt64

def loadBlock (source : List UInt8) : Block := ⟨loadU64BE (source.take 8), loadU64BE ((source.drop 8).take 8)⟩

def hash (state h : Block) (source : List UInt8) : Block :=
  if 16 ≤ source.length then hash (product (xor state (loadBlock source)) h) h (source.drop 16)
  else if source = [] then state
  else product (xor state (loadBlock (source ++ List.replicate (16 - source.length) 0))) h
termination_by source.length

/-- A length in bits, checked for overflow. -/
def bits (length : Nat) : Option UInt64 :=
  if length * 8 < 2 ^ 64 then some (UInt64.ofNat (length * 8)) else none

def initial (h : Block) (nonce : List UInt8) : Option Block :=
  if nonce.length = 12 then
    some ⟨loadU64BE (nonce.take 8), ((loadU32BE (nonce.drop 8)).toUInt64 <<< 32) ||| 1⟩
  else do
    let low ← bits nonce.length
    return product (xor (hash {} h nonce) { low := low }) h

/-- `encrypt` is the block cipher under the key. -/
def tag (encrypt : Block → Block) (h j0 : Block) (cipher aad : List UInt8) : Option Block := do
  let result := hash (hash {} h aad) h cipher
  let high ← bits aad.length
  let low ← bits cipher.length
  return xor (product (xor result ⟨high, low⟩) h) (encrypt j0)

/-- The bounds of `valid` on the lengths. -/
def validLengths (input aad nonce : List UInt8) : Bool :=
  !(nonce.length == 0 || nonce.length > 128 || input.length > 68719476704 || aad.length > 0x1fffffffffffffff)

/-- The bits of a block, the top bit of the first byte first. -/
def Block.bit (b : Block) (i : Nat) : Bool :=
  if i < 64 then b.high.toNat.testBit (63 - i) else decide (i < 128) && b.low.toNat.testBit (127 - i)

noncomputable def modulus : (ZMod 2)[X] := X ^ 128 + X ^ 7 + X ^ 2 + X + 1

noncomputable def poly (b : Block) : (ZMod 2)[X] :=
  ∑ i ∈ Finset.range 128, if b.bit i then X ^ i else 0

theorem bit_outside (b : Block) {i : Nat} (h : ¬ i < 128) : b.bit i = false := by
  rw [Block.bit, if_neg (by omega), decide_eq_false h, Bool.false_and]

theorem coeff_poly (b : Block) (k : Nat) : (poly b).coeff k = if b.bit k then 1 else 0 := by
  have hterm : ∀ i, ((if b.bit i then X ^ i else 0 : (ZMod 2)[X])).coeff k =
      if k = i then (if b.bit k then 1 else 0) else 0 := by
    intro i
    by_cases h : k = i
    · subst h
      rw [if_pos rfl]
      split_ifs <;> simp
    · rw [if_neg h]
      split_ifs <;> simp [coeff_X_pow, h]
  rw [poly, finsetSum_coeff, Finset.sum_congr rfl fun i _ => hterm i, Finset.sum_ite_eq]
  by_cases hk : k < 128
  · rw [if_pos (Finset.mem_range.mpr hk)]
  · rw [if_neg fun hc => hk (Finset.mem_range.mp hc), bit_outside b hk, if_neg Bool.false_ne_true]

theorem bit_word (x : UInt64) {k : Nat} (hk : k < 64) :
    (x >>> UInt64.ofNat k) &&& 1 = if x.toNat.testBit k then 1 else 0 := by
  have hsize : k < UInt64.size := lt_trans hk (by decide)
  apply UInt64.toNat_inj.mp
  rw [UInt64.toNat_and, UInt64.toNat_shiftRight, UInt64.toNat_ofNat_of_lt' hsize, Nat.mod_eq_of_lt hk]
  rw [show (1 : UInt64).toNat = 1 from rfl, Nat.and_one_is_mod, Nat.testBit_eq_decide_div_mod_eq,
    Nat.shiftRight_eq_div_pow]
  rcases Nat.mod_two_eq_zero_or_one (x.toNat / 2 ^ k) with h | h <;> rw [h] <;> rfl

/-- What a round does with `v`. -/
def shift (v : Block) : Block :=
  ⟨(v.high >>> 1) ^^^ (if v.bit 127 then 0xe100000000000000 else 0), (v.low >>> 1) ||| (v.high <<< 63)⟩

theorem productRound_eq (left z v : Block) {i : Nat} (hi : i < 128) :
    productRound left (z, v) i = (if left.bit i then xor z v else z, shift v) := by
  have hbit : (if i < 64 then (left.high >>> UInt64.ofNat (63 - i)) &&& 1
      else (left.low >>> UInt64.ofNat (127 - i)) &&& 1) = if left.bit i then 1 else 0 := by
    unfold Block.bit
    split
    · exact bit_word _ (by omega)
    · rw [bit_word _ (by omega), decide_eq_true hi, Bool.true_and]
  have hlow : v.low &&& 1 = if v.bit 127 then 1 else 0 := by
    have h := bit_word v.low (by decide : 0 < 64)
    rwa [show v.low >>> UInt64.ofNat 0 = v.low by simp] at h
  unfold productRound
  dsimp only
  rw [hbit, hlow]
  unfold shift xor
  split_ifs <;> simp

theorem bit_xor (a b : Block) (i : Nat) : (xor a b).bit i = Bool.xor (a.bit i) (b.bit i) := by
  unfold Block.bit xor
  split_ifs
  · rw [UInt64.toNat_xor, Nat.testBit_xor]
  · rw [UInt64.toNat_xor, Nat.testBit_xor]
    cases decide (i < 128) <;> rfl

theorem poly_xor (a b : Block) : poly (xor a b) = poly a + poly b := by
  ext k
  rw [coeff_add, coeff_poly, coeff_poly, coeff_poly, bit_xor]
  cases a.bit k <;> cases b.bit k <;> decide

theorem testBit_high (v : Block) {j : Nat} (hj : j < 64) : (shift v).high.toNat.testBit j =
    Bool.xor (v.high.toNat.testBit (j + 1)) (v.bit 127 && decide (j = 63 ∨ j = 62 ∨ j = 61 ∨ j = 56)) := by
  have hconst : ∀ j < 64, (0xe100000000000000 : Nat).testBit j =
      decide (j = 63 ∨ j = 62 ∨ j = 61 ∨ j = 56) := by decide
  rw [← hconst j hj, shift, UInt64.toNat_xor, Nat.testBit_xor, UInt64.toNat_shiftRight,
    Nat.testBit_shiftRight, show (1 : UInt64).toNat % 64 = 1 from rfl, add_comm]
  cases v.bit 127
  · exact congrArg _ (Nat.zero_testBit j)
  · rfl

theorem testBit_low (v : Block) {j : Nat} (hj : j < 64) : (shift v).low.toNat.testBit j =
    if j = 63 then v.high.toNat.testBit 0 else v.low.toNat.testBit (j + 1) := by
  rw [shift, UInt64.toNat_or, Nat.testBit_or, UInt64.toNat_shiftRight, Nat.testBit_shiftRight,
    UInt64.toNat_shiftLeft, Nat.testBit_mod_two_pow, Nat.testBit_shiftLeft,
    show (1 : UInt64).toNat % 64 = 1 from rfl, show (63 : UInt64).toNat % 64 = 63 from rfl, add_comm]
  split_ifs with h
  · rw [h, Nat.testBit_lt_two_pow v.low.toNat_lt]
    rfl
  · rw [decide_eq_false (by omega : ¬ j ≥ 63), Bool.false_and, Bool.and_false, Bool.or_false]

theorem bit_shift (v : Block) (i : Nat) : (shift v).bit i =
    Bool.xor (decide (0 < i ∧ i < 128) && v.bit (i - 1))
      (v.bit 127 && decide (i = 0 ∨ i = 1 ∨ i = 2 ∨ i = 7)) := by
  by_cases h0 : i = 0
  · subst h0
    rw [Block.bit, if_pos (by decide), testBit_high v (by decide),
      Nat.testBit_lt_two_pow v.high.toNat_lt]
    rfl
  by_cases hhigh : i < 64
  · have hbit : v.bit (i - 1) = v.high.toNat.testBit (63 - i + 1) := by
      rw [Block.bit, if_pos (by omega)]
      congr 1
      omega
    rw [Block.bit, if_pos hhigh, testBit_high v (by omega), decide_eq_true (by omega : 0 < i ∧ i < 128),
      Bool.true_and, hbit]
    congr 3
    rw [eq_iff_iff]
    omega
  rw [decide_eq_false (by omega : ¬ (i = 0 ∨ i = 1 ∨ i = 2 ∨ i = 7)), Bool.and_false, Bool.xor_false]
  by_cases hlow : i < 128
  · rw [Block.bit, if_neg hhigh, decide_eq_true hlow, Bool.true_and, testBit_low v (by omega),
      decide_eq_true (by omega : 0 < i ∧ i < 128), Bool.true_and, Block.bit]
    split_ifs
    · congr 1
      omega
    · omega
    · omega
    rw [decide_eq_true (by omega), Bool.true_and]
    congr 1
    omega
  · rw [bit_outside _ hlow, decide_eq_false (by omega), Bool.false_and]

theorem coeff_modulus (k : Nat) : modulus.coeff k =
    if k = 0 ∨ k = 1 ∨ k = 2 ∨ k = 7 ∨ k = 128 then 1 else 0 := by
  unfold modulus
  simp only [coeff_add, coeff_X_pow, coeff_X, coeff_one]
  split_ifs <;> first | omega | rfl

theorem poly_shift (v : Block) :
    poly (shift v) = X * poly v + if v.bit 127 then modulus else 0 := by
  ext k
  have hmodulus : (if v.bit 127 then modulus else 0 : (ZMod 2)[X]).coeff k =
      if v.bit 127 && decide (k = 0 ∨ k = 1 ∨ k = 2 ∨ k = 7 ∨ k = 128) then 1 else 0 := by
    cases v.bit 127
    · rfl
    · rw [if_pos rfl, coeff_modulus, Bool.true_and]
      simp only [decide_eq_true_eq]
  rw [coeff_add, coeff_poly, hmodulus, bit_shift]
  cases k with
  | zero =>
    rw [coeff_X_mul_zero, zero_add]
    simp
  | succ k =>
    rw [coeff_X_mul, coeff_poly, Nat.add_sub_cancel]
    rcases Nat.lt_trichotomy k 127 with h | rfl | h
    · have hiff : (k + 1 = 0 ∨ k + 1 = 1 ∨ k + 1 = 2 ∨ k + 1 = 7 ∨ k + 1 = 128) ↔
          (k + 1 = 0 ∨ k + 1 = 1 ∨ k + 1 = 2 ∨ k + 1 = 7) := by omega
      rw [decide_eq_true (by omega : 0 < k + 1 ∧ k + 1 < 128), Bool.true_and, decide_eq_decide.mpr hiff]
      generalize (v.bit 127 && decide (k + 1 = 0 ∨ k + 1 = 1 ∨ k + 1 = 2 ∨ k + 1 = 7)) = c
      cases v.bit k <;> cases c <;> decide
    · cases v.bit 127 <;> decide
    rw [bit_outside v (by omega : ¬ k < 128), Bool.and_false, Bool.false_xor,
      decide_eq_false (by omega), decide_eq_false (by omega), Bool.and_false]
    rfl

theorem degree_poly (b : Block) : (poly b).degree < 128 := by
  rw [show (128 : WithBot ℕ) = ((128 : ℕ) : WithBot ℕ) from rfl, degree_lt_iff_coeff_zero]
  intro k hk
  rw [coeff_poly, bit_outside b (by omega)]
  rfl

theorem degree_modulus : modulus.degree = 128 := by
  unfold modulus
  compute_degree!

theorem monic_modulus : modulus.Monic := by
  unfold modulus
  monicity!

theorem poly_injective {a b : Block} (h : poly a = poly b) : a = b := by
  have hbit : ∀ k, a.bit k = b.bit k := by
    intro k
    have hk := congrArg (coeff · k) h
    simp only [coeff_poly] at hk
    revert hk
    cases a.bit k <;> cases b.bit k <;> decide
  have hword : ∀ {x y : UInt64}, (∀ j < 64, x.toNat.testBit j = y.toNat.testBit j) → x = y := by
    intro x y hxy
    refine UInt64.toNat_inj.mp (Nat.eq_of_testBit_eq fun j => ?_)
    by_cases hj : j < 64
    · exact hxy j hj
    have hle : 2 ^ 64 ≤ 2 ^ j := Nat.pow_le_pow_right (by decide) (by omega)
    rw [Nat.testBit_lt_two_pow (lt_of_lt_of_le x.toNat_lt hle),
      Nat.testBit_lt_two_pow (lt_of_lt_of_le y.toNat_lt hle)]
  obtain ⟨ahigh, alow⟩ := a
  obtain ⟨bhigh, blow⟩ := b
  obtain rfl : ahigh = bhigh := hword fun j hj => by
    have h := hbit (63 - j)
    rwa [Block.bit, if_pos (by omega), Block.bit, if_pos (by omega), show 63 - (63 - j) = j by omega] at h
  obtain rfl : alow = blow := hword fun j hj => by
    have h := hbit (127 - j)
    rwa [Block.bit, if_neg (by omega), Block.bit, if_neg (by omega), decide_eq_true (by omega), Bool.true_and,
      Bool.true_and, show 127 - (127 - j) = j by omega] at h
  rfl

/-- A block as an element of the polynomials modulo `modulus`. -/
noncomputable def value (b : Block) : AdjoinRoot modulus := AdjoinRoot.mk modulus (poly b)

theorem value_xor (a b : Block) : value (xor a b) = value a + value b := by
  rw [value, poly_xor, map_add]
  rfl

theorem poly_mod (b : Block) : poly b %ₘ modulus = poly b := by
  rw [modByMonic_eq_self_iff monic_modulus, degree_modulus]
  exact degree_poly b

theorem poly_eq_mod {b : Block} {p : (ZMod 2)[X]} (h : value b = AdjoinRoot.mk modulus p) :
    poly b = p %ₘ modulus := by
  rw [← poly_mod]
  exact modByMonic_eq_of_dvd_sub monic_modulus (AdjoinRoot.mk_eq_mk.mp h)

theorem value_injective {a b : Block} (h : value a = value b) : a = b :=
  poly_injective ((poly_eq_mod h).trans (poly_mod b))

theorem value_shift (v : Block) : value (shift v) = AdjoinRoot.root modulus * value v := by
  rw [value, poly_shift, map_add, map_mul, AdjoinRoot.mk_X]
  split_ifs
  · rw [AdjoinRoot.mk_self, add_zero]
    rfl
  · rw [map_zero, add_zero]
    rfl

theorem value_zero : value {} = 0 := by
  have h : poly {} = 0 := by
    ext k
    simp [coeff_poly, Block.bit]
  rw [value, h, map_zero]

theorem value_eq_sum (b : Block) :
    value b = ∑ i ∈ Finset.range 128, if b.bit i then AdjoinRoot.root modulus ^ i else 0 := by
  rw [value, poly, map_sum]
  refine Finset.sum_congr rfl fun i _ => ?_
  split_ifs
  · rw [map_pow, AdjoinRoot.mk_X]
  · exact map_zero _

theorem rounds (left right : Block) : ∀ n ≤ 128,
    value ((List.range n).foldl (productRound left) ({}, right)).1 =
      (∑ i ∈ Finset.range n, if left.bit i then AdjoinRoot.root modulus ^ i else 0) * value right ∧
    value ((List.range n).foldl (productRound left) ({}, right)).2 =
      AdjoinRoot.root modulus ^ n * value right := by
  intro n
  induction n with
  | zero =>
    intro _
    simp [value_zero]
  | succ n ih =>
    intro hn
    obtain ⟨hz, hv⟩ := ih (by omega)
    rw [List.range_succ, List.foldl_append]
    generalize (List.range n).foldl (productRound left) ({}, right) = s at hz hv ⊢
    obtain ⟨z, v⟩ := s
    rw [List.foldl_cons, List.foldl_nil, productRound_eq left z v (by omega), Finset.sum_range_succ]
    refine ⟨?_, by rw [value_shift, hv, pow_succ', mul_assoc]⟩
    split_ifs
    · rw [value_xor, hz, hv, add_mul]
    · rw [hz, add_zero]

theorem value_product (a b : Block) : value (product a b) = value a * value b := by
  rw [product, (rounds a b 128 le_rfl).1, value_eq_sum a]

/-- The bits of some bytes, the top bit of the first byte first, with zeros behind the last. -/
def byteBit (source : List UInt8) (i : Nat) : Bool := (source.getD (i / 8) 0).toNat.testBit (7 - i % 8)

theorem byteBit_slice (source : List UInt8) (k : Nat) {n i : Nat} (hi : i < 8 * n) :
    byteBit ((source.drop k).take n) i = byteBit source (i + 8 * k) := by
  have hk : (i + 8 * k) / 8 = k + i / 8 := by omega
  have hi : i / 8 < n := by omega
  rw [byteBit, byteBit, Nat.add_mul_mod_self_left, hk]
  simp [List.getD_eq_getElem?_getD, hi]

theorem testBit_byte (source : List UInt8) {q i : Nat} (hq : q < 4) (hi : i < 32) :
    ((source.getD q 0).toUInt32 <<< UInt32.ofNat (24 - 8 * q)).toNat.testBit (31 - i) =
      (decide (i / 8 = q) && byteBit source i) := by
  have hamount : (UInt32.ofNat (24 - 8 * q)).toNat % 32 = 24 - 8 * q := by
    rw [UInt32.toNat_ofNat_of_lt' (by rw [UInt32.size]; omega), Nat.mod_eq_of_lt (by omega)]
  rw [UInt32.toNat_shiftLeft, hamount, Nat.testBit_mod_two_pow, Nat.testBit_shiftLeft,
    decide_eq_true (by omega : 31 - i < 32), Bool.true_and, UInt8.toNat_toUInt32]
  by_cases h : i / 8 = q
  · rw [decide_eq_true h, decide_eq_true (by omega), Bool.true_and, Bool.true_and, byteBit, h]
    congr 1
    omega
  rw [decide_eq_false h, Bool.false_and]
  by_cases hbefore : i / 8 < q
  · have hlt : (source.getD q 0).toNat < 2 ^ (31 - i - (24 - 8 * q)) :=
      lt_of_lt_of_le (UInt8.toNat_lt _) (Nat.pow_le_pow_right (by decide) (by omega : 8 ≤ _))
    rw [Nat.testBit_lt_two_pow hlt, Bool.and_false]
  · rw [decide_eq_false (by omega), Bool.false_and]

theorem loadU32BE_bit (source : List UInt8) {i : Nat} (hi : i < 32) :
    (loadU32BE source).toNat.testBit (31 - i) = byteBit source i := by
  have h0 := testBit_byte source (by decide : 0 < 4) hi
  have h1 := testBit_byte source (by decide : 1 < 4) hi
  have h2 := testBit_byte source (by decide : 2 < 4) hi
  have h3 := testBit_byte source (by decide : 3 < 4) hi
  rw [show UInt32.ofNat (24 - 8 * 0) = 24 from rfl] at h0
  rw [show UInt32.ofNat (24 - 8 * 1) = 16 from rfl] at h1
  rw [show UInt32.ofNat (24 - 8 * 2) = 8 from rfl] at h2
  rw [show UInt32.ofNat (24 - 8 * 3) = 0 from rfl, UInt32.shiftLeft_zero] at h3
  rw [loadU32BE, UInt32.toNat_or, UInt32.toNat_or, UInt32.toNat_or, Nat.testBit_or, Nat.testBit_or,
    Nat.testBit_or, h0, h1, h2, h3]
  rcases (by omega : i / 8 = 0 ∨ i / 8 = 1 ∨ i / 8 = 2 ∨ i / 8 = 3) with h | h | h | h <;> rw [h] <;> simp

theorem loadU64BE_bit (source : List UInt8) {i : Nat} (hi : i < 64) :
    (loadU64BE source).toNat.testBit (63 - i) = byteBit source i := by
  rw [loadU64BE, UInt64.toNat_or, Nat.testBit_or, UInt64.toNat_shiftLeft, Nat.testBit_mod_two_pow,
    Nat.testBit_shiftLeft, show (32 : UInt64).toNat % 64 = 32 from rfl, UInt32.toNat_toUInt64,
    UInt32.toNat_toUInt64, decide_eq_true (by omega : 63 - i < 64), Bool.true_and]
  by_cases h : i < 32
  · have hlt : (loadU32BE ((source.drop 4).take 4)).toNat < 2 ^ (63 - i) :=
      lt_of_lt_of_le (UInt32.toNat_lt _) (Nat.pow_le_pow_right (by decide) (by omega : 32 ≤ _))
    rw [Nat.testBit_lt_two_pow hlt, Bool.or_false, decide_eq_true (by omega), Bool.true_and,
      show 63 - i - 32 = 31 - i by omega, loadU32BE_bit _ h]
    exact byteBit_slice source 0 (by omega)
  rw [decide_eq_false (by omega), Bool.false_and, Bool.false_or,
    show 63 - i = 31 - (i - 32) by omega, loadU32BE_bit _ (by omega), byteBit_slice _ _ (by omega)]
  congr 1
  omega

/-- Bytes as a polynomial: sixteen of them. -/
noncomputable def bytesPoly (source : List UInt8) : (ZMod 2)[X] :=
  ∑ i ∈ Finset.range 128, if byteBit source i then X ^ i else 0

theorem loadBlock_bit (source : List UInt8) {i : Nat} (hi : i < 128) :
    (loadBlock source).bit i = byteBit source i := by
  unfold Block.bit loadBlock
  split
  · next h =>
    rw [loadU64BE_bit _ h]
    exact byteBit_slice source 0 (by omega)
  rw [decide_eq_true hi, Bool.true_and, show 127 - i = 63 - (i - 64) by omega,
    loadU64BE_bit _ (by omega), byteBit_slice _ _ (by omega)]
  congr 1
  omega

theorem poly_loadBlock (source : List UInt8) : poly (loadBlock source) = bytesPoly source :=
  Finset.sum_congr rfl fun i hi => by rw [loadBlock_bit source (Finset.mem_range.mp hi)]

noncomputable def element (source : List UInt8) : AdjoinRoot modulus := AdjoinRoot.mk modulus (bytesPoly source)

theorem value_loadBlock (source : List UInt8) : value (loadBlock source) = element source := by
  rw [value, poly_loadBlock]
  rfl

/-- The `k`th sixteen bytes, with zeros behind the last byte. -/
def padded (source : List UInt8) (k : Nat) : List UInt8 :=
  (List.range 16).map fun j => source.getD (16 * k + j) 0

def blocks (source : List UInt8) : List (List UInt8) :=
  (List.range ((source.length + 15) / 16)).map (padded source)

theorem blocks_nil : blocks [] = [] := rfl

/-- The sum of every element times its power of `h`, the last one times `h` itself. -/
noncomputable def evaluate (h : AdjoinRoot modulus) : List (AdjoinRoot modulus) → AdjoinRoot modulus
  | [] => 0
  | x :: rest => x * h ^ (rest.length + 1) + evaluate h rest

theorem evaluate_append (h : AdjoinRoot modulus) (left right : List (AdjoinRoot modulus)) :
    evaluate h (left ++ right) = evaluate h left * h ^ right.length + evaluate h right := by
  induction left with
  | nil => rw [List.nil_append, evaluate, zero_mul, zero_add]
  | cons x left ih =>
    rw [List.cons_append, evaluate, ih, evaluate, List.length_append]
    ring

theorem element_congr {left right : List UInt8} (h : ∀ j < 16, left.getD j 0 = right.getD j 0) :
    element left = element right := by
  refine congrArg (AdjoinRoot.mk modulus) (Finset.sum_congr rfl fun i hi => ?_)
  rw [byteBit, byteBit, h _ (by have := Finset.mem_range.mp hi; omega)]

theorem blocks_cons {source : List UInt8} (h : source ≠ []) :
    (blocks source).map element = element source :: (blocks (source.drop 16)).map element := by
  have hlength := List.length_pos_of_ne_nil h
  have hcount : (source.length + 15) / 16 = ((source.drop 16).length + 15) / 16 + 1 := by
    rw [List.length_drop]
    omega
  have hshift : ∀ k, padded source (k + 1) = padded (source.drop 16) k := by
    intro k
    refine List.map_congr_left fun j _ => ?_
    rw [List.getD_eq_getElem?_getD, List.getD_eq_getElem?_getD, List.getElem?_drop]
    congr 2
    ring
  have hfirst : element (padded source 0) = element source := by
    refine element_congr fun j hj => ?_
    simp [padded, List.getD_eq_getElem?_getD, hj]
  rw [blocks, hcount, List.range_succ_eq_map, List.map_cons, List.map_cons, List.map_map, hfirst, blocks,
    List.map_map, List.map_map]
  exact congrArg (element source :: ·) (List.map_congr_left fun k _ => congrArg element (hshift k))

theorem hash_value (state h : Block) (source : List UInt8) : value (hash state h source) =
    value state * value h ^ (blocks source).length + evaluate (value h) ((blocks source).map element) := by
  induction hn : source.length using Nat.strong_induction_on generalizing state source with
  | _ n ih =>
  by_cases hempty : source = []
  · rw [hash, if_neg (by simp [hempty]), if_pos hempty, hempty, blocks_nil, List.map_nil, evaluate,
      List.length_nil, pow_zero, mul_one, add_zero]
  have hcons := blocks_cons hempty
  have hlength := congrArg List.length hcons
  rw [List.length_cons, List.length_map, List.length_map] at hlength
  rw [hcons, evaluate, hlength, List.length_map]
  by_cases hfull : 16 ≤ source.length
  · rw [hash, if_pos hfull, ih (source.drop 16).length (by rw [List.length_drop]; omega) _ _ rfl, value_product,
      value_xor, value_loadBlock]
    ring
  have hlast : source.drop 16 = [] := List.drop_eq_nil_of_le (by omega)
  have hpad : element (source ++ List.replicate (16 - source.length) 0) = element source := by
    refine element_congr fun j hj => ?_
    rw [List.getD_eq_getElem?_getD, List.getD_eq_getElem?_getD, List.getElem?_append]
    split
    · rfl
    next h => 
    rw [List.getElem?_replicate, if_pos (by omega), List.getElem?_eq_none (by omega)]
    rfl
  rw [hash, if_neg hfull, if_neg hempty, value_product, value_xor, value_loadBlock, hpad, hlast,
    blocks_nil, List.map_nil, evaluate, List.length_nil]
  ring

/-- The last block: the lengths in bits, big-endian. -/
def lengthBlock (aad cipher : List UInt8) : Block :=
  ⟨UInt64.ofNat (aad.length * 8), UInt64.ofNat (cipher.length * 8)⟩

theorem tag_value (encrypt : Block → Block) (h j0 : Block) {cipher aad : List UInt8}
    (hcipher : cipher.length * 8 < 2 ^ 64) (haad : aad.length * 8 < 2 ^ 64) :
    ∃ result, tag encrypt h j0 cipher aad = some result ∧ value result =
      evaluate (value h) ((blocks aad ++ blocks cipher).map element ++ [value (lengthBlock aad cipher)]) +
        value (encrypt j0) := by
  unfold tag bits
  rw [if_pos haad, if_pos hcipher]
  refine ⟨_, rfl, ?_⟩
  rw [value_xor, value_product, value_xor, hash_value, hash_value, value_zero, List.map_append,
    evaluate_append, evaluate_append]
  simp only [evaluate, List.length_map, List.length_nil, List.length_singleton, lengthBlock]
  ring

theorem initial_value (h : Block) {nonce : List UInt8} (hlength : nonce.length ≤ 128) :
    ∃ result, initial h nonce = some result ∧ value result =
      if nonce.length = 12 then element (nonce ++ [0, 0, 0, 1])
      else evaluate (value h) ((blocks nonce).map element ++ [value (lengthBlock [] nonce)]) := by
  unfold initial bits
  split
  · next h12 =>
    refine ⟨_, rfl, ?_⟩
    have hdrop : (nonce.drop 8).length = 4 := by rw [List.length_drop, h12]
    have hlow : loadU64BE (nonce.drop 8 ++ [0, 0, 0, 1]) =
        ((loadU32BE (nonce.drop 8)).toUInt64 <<< 32) ||| 1 := by
      rw [loadU64BE, List.take_left' hdrop, List.drop_left' hdrop]
      rfl
    have htake : (nonce.drop 8 ++ [0, 0, 0, 1]).take 8 = nonce.drop 8 ++ [0, 0, 0, 1] :=
      List.take_of_length_le (by rw [List.length_append, hdrop]; decide)
    rw [← value_loadBlock, loadBlock, List.take_append_of_le_length (by omega),
      List.drop_append_of_le_length (by omega), htake, hlow]
  rw [if_pos (by omega)]
  refine ⟨_, rfl, ?_⟩
  have hzero : lengthBlock [] nonce = { low := UInt64.ofNat (nonce.length * 8) } := rfl
  rw [value_product, value_xor, hash_value, value_zero, evaluate_append, hzero]
  simp only [evaluate, List.length_nil, List.length_singleton]
  ring

/-- **GHASH.**  `product` multiplies modulo the polynomial, and on every length that `valid`
accepts, the tag is the value at `h` of the padded blocks and the length block, under the mask. -/
theorem ghash_exact (h : Block) :
    (∀ source, poly (loadBlock source) = bytesPoly source) ∧ (∀ a b, value a = value b → a = b) ∧
    (∀ a, poly (product a h) = (poly a * poly h) %ₘ modulus) ∧
    (∀ a b, product (xor a b) h = xor (product a h) (product b h)) ∧
    (∀ a b, product h (xor a b) = xor (product h a) (product h b)) ∧
    (∀ a, product a h = product h a) ∧
    (∀ a b, product (product a b) h = product a (product b h)) ∧
    ∀ (encrypt : Block → Block) (j0 : Block) (input aad nonce : List UInt8), validLengths input aad nonce →
      (∃ result, tag encrypt h j0 input aad = some result ∧ value result =
        evaluate (value h) ((blocks aad ++ blocks input).map element ++ [value (lengthBlock aad input)]) +
          value (encrypt j0)) ∧
      ∃ result, initial h nonce = some result ∧ value result =
        if nonce.length = 12 then element (nonce ++ [0, 0, 0, 1])
        else evaluate (value h) ((blocks nonce).map element ++ [value (lengthBlock [] nonce)]) := by
  refine ⟨poly_loadBlock, fun a b => value_injective, fun a => poly_eq_mod ?_, fun a b => value_injective ?_,
    fun a b => value_injective ?_, fun a => value_injective ?_, fun a b => value_injective ?_,
    fun encrypt j0 input aad nonce hvalid => ?_⟩
  · rw [value_product, map_mul]
    rfl
  · rw [value_product, value_xor, value_xor, value_product, value_product, add_mul]
  · rw [value_product, value_xor, value_xor, value_product, value_product, mul_add]
  · rw [value_product, value_product, mul_comm]
  · rw [value_product, value_product, value_product, value_product, mul_assoc]
  · simp only [validLengths, Bool.not_eq_true', Bool.or_eq_false_iff, decide_eq_false_iff_not] at hvalid
    exact ⟨tag_value encrypt h j0 (by omega) (by omega), initial_value h (by omega)⟩

/-- One byte of input and one of additional data under a nonce of twelve bytes. -/
theorem ghash_exact_byte : ∃ result, tag id ⟨5, 7⟩ ⟨1, 0⟩ [1] [2] = some result ∧ value result =
    evaluate (value ⟨5, 7⟩) ((blocks [2] ++ blocks [1]).map element ++ [value (lengthBlock [2] [1])]) +
      value ⟨1, 0⟩ :=
  ((ghash_exact ⟨5, 7⟩).2.2.2.2.2.2.2 id ⟨1, 0⟩ [1] [2] (List.replicate 12 0) rfl).1

end Dyn.Gcm
