import Dyn.Encoding.Binary
import Mathlib.Data.List.DropRight

/-!
# std/strings: integers of at most 128 limbs

The integers behind the decimal conversion, as the list of their used limbs, lowest first.
Storing beyond the last of the 128 limbs is a panic; each operation goes through if its
result has a place (`Holds`), which the conversion proves of all of its integers.
-/

namespace Dyn.Strings

open List
open Mem (Panic)
open Binary (checked checked_of_lt)

abbrev DecimalInteger := List UInt32

/-- Stores a carry in the first unused limb. -/
def pushCarry (value : DecimalInteger) (carry : Nat) : Except Panic DecimalInteger :=
  if carry = 0 then .ok value
  else if value.length < 128 then .ok (value ++ [UInt32.ofNat carry])
  else .error "index out of bounds"

def trimTop (value : DecimalInteger) : DecimalInteger := value.rdropWhile (· == 0)

/-- The loop of `decimal_multiply`: the limbs of the product, and the last carry. -/
def multiplyLoop (factor : Nat) : Nat → DecimalInteger → Except Panic (DecimalInteger × Nat)
  | carry, [] => .ok ([], carry)
  | carry, limb :: limbs => do
      let product ← checked (limb.toNat * factor + carry)
      let (rest, last) ← multiplyLoop factor (product >>> 32) limbs
      return (UInt32.ofNat product :: rest, last)

def decimalMultiply (value : DecimalInteger) (factor addition : UInt32) :
    Except Panic DecimalInteger := do
  let (limbs, carry) ← multiplyLoop factor.toNat addition.toNat value
  let limbs ← pushCarry limbs carry
  return trimTop limbs

def decimalShift (value : DecimalInteger) (bits : Nat) : Except Panic DecimalInteger :=
  if value = [] then .ok value
  else
    let words := bits / 32
    if value.length + words > 128 then .error "index out of bounds"
    else decimalMultiply (List.replicate words 0 ++ value) (1 <<< UInt32.ofNat (bits % 32)) 0

/-- The loop of `decimal_add`: the given number of limbs, and the last carry. -/
def addLoop : Nat → Nat → DecimalInteger → DecimalInteger → DecimalInteger × Nat
  | 0, carry, _, _ => ([], carry)
  | n + 1, carry, left, right =>
      let item := carry + (left.headD 0).toNat + (right.headD 0).toNat
      let (rest, last) := addLoop n (item >>> 32) left.tail right.tail
      (UInt32.ofNat item :: rest, last)

def decimalAdd (left right : DecimalInteger) : Except Panic DecimalInteger :=
  let (limbs, carry) := addLoop (max left.length right.length) 0 left right
  pushCarry limbs carry

/-- The loop that compares limbs, the highest first. -/
def compareTop : List UInt32 → List UInt32 → Int
  | l :: left, r :: right => if l < r then -1 else if l > r then 1 else compareTop left right
  | _, _ => 0

def compareLimbs (left right : DecimalInteger) : Int :=
  if left.length < right.length then -1
  else if left.length > right.length then 1
  else compareTop left.reverse right.reverse

/-- Compares numerator/denominator with mantissa * 2^exponent. -/
def decimalCompare (numerator denominator : DecimalInteger) (mantissa : Nat) (exponent : Int) :
    Except Panic Int := do
  let right ← decimalMultiply denominator (UInt32.ofNat mantissa) 0
  let high ← decimalMultiply denominator (UInt32.ofNat (mantissa >>> 32)) 0
  let high ← decimalShift high 32
  let right ← decimalAdd right high
  if exponent < 0 then do
    let left ← decimalShift numerator (-exponent).toNat
    return compareLimbs left right
  else do
    let right ← decimalShift right exponent.toNat
    return compareLimbs numerator right

/-- Mantissa and exponent of the bits of a binary64 number. -/
def splitBits (bits : Nat) : Nat × Int :=
  let exponent := bits >>> 52
  let mantissa := bits &&& 4503599627370495
  if exponent = 0 then (mantissa, -1074)
  else (mantissa + 4503599627370496, exponent - 1075)

def decimalCompareBits (numerator denominator : DecimalInteger) (bits : Nat) (midpoint : Bool) :
    Except Panic Int :=
  let (mantissa, exponent) := splitBits bits
  if midpoint then decimalCompare numerator denominator (mantissa * 2 + 1) (exponent - 1)
  else decimalCompare numerator denominator mantissa exponent

def base : Nat := 2 ^ 32

def valueOf (limbs : DecimalInteger) : Nat := Nat.ofDigits base (limbs.map UInt32.toNat)

@[simp] theorem valueOf_nil : valueOf [] = 0 := rfl

theorem valueOf_cons (limb : UInt32) (limbs : DecimalInteger) :
    valueOf (limb :: limbs) = limb.toNat + base * valueOf limbs := by
  rw [valueOf, map_cons, Nat.ofDigits_cons, valueOf]

theorem valueOf_append (low high : DecimalInteger) :
    valueOf (low ++ high) = valueOf low + base ^ low.length * valueOf high := by
  rw [valueOf, map_append, Nat.ofDigits_append, length_map, valueOf, valueOf]

theorem valueOf_replicate (words : Nat) : valueOf (List.replicate words 0) = 0 := by
  induction words with
  | zero => rfl
  | succ words ih => rw [replicate_succ, valueOf_cons, ih]; rfl

theorem valueOf_lt : ∀ limbs : DecimalInteger, valueOf limbs < base ^ limbs.length
  | [] => Nat.one_pos
  | limb :: limbs => by
    have hlimb : limb.toNat < base := limb.toNat_lt
    have hrest := valueOf_lt limbs
    rw [valueOf_cons, length_cons, pow_succ]
    nlinarith

/-- Limbs without a zero at the top that spell a number. -/
structure Holds (limbs : DecimalInteger) (n : Nat) : Prop where
  value : valueOf limbs = n
  normal : ∀ h : limbs ≠ [], limbs.getLast h ≠ 0

theorem holds_nil : Holds [] 0 := ⟨rfl, fun h => absurd rfl h⟩

theorem Holds.ge {limbs : DecimalInteger} {n : Nat} (h : Holds limbs n) (hne : limbs ≠ []) :
    base ^ (limbs.length - 1) ≤ n := by
  have hlast := h.normal hne
  have hsplit := valueOf_append limbs.dropLast [limbs.getLast hne]
  have hpos : 1 ≤ (limbs.getLast hne).toNat := by
    by_contra hc
    exact hlast (UInt32.toNat_inj.mp (show _ = 0 by omega))
  rw [dropLast_append_getLast hne, h.value, valueOf_cons, valueOf_nil, mul_zero,
    add_zero, length_dropLast] at hsplit
  nlinarith

theorem Holds.eq_nil {limbs : DecimalInteger} (h : Holds limbs 0) : limbs = [] := by
  by_contra hne
  have hge := h.ge hne
  have hpos : 0 < base ^ (limbs.length - 1) := Nat.pow_pos (by decide)
  omega

theorem Holds.length_le {limbs : DecimalInteger} {n k : Nat} (h : Holds limbs n)
    (hn : n < base ^ k) : limbs.length ≤ k := by
  cases hl : limbs with
  | nil => exact Nat.zero_le _
  | cons limb rest =>
    have hge := h.ge (by rw [hl]; exact cons_ne_nil _ _)
    rw [← hl]
    by_contra hc
    have hpow : base ^ k ≤ base ^ (limbs.length - 1) :=
      Nat.pow_le_pow_right (by decide) (by omega)
    omega

variable (limbs : DecimalInteger)

theorem rdropWhile_append : ∃ words, limbs = trimTop limbs ++ List.replicate words 0 := by
  induction limbs using reverseRecOn with
  | nil => exact ⟨0, rfl⟩
  | append_singleton limbs limb ih =>
    by_cases hzero : limb = 0
    · subst hzero
      obtain ⟨words, hwords⟩ := ih
      refine ⟨words + 1, ?_⟩
      have htrim : trimTop (limbs ++ [0]) = trimTop limbs :=
        rdropWhile_concat_pos _ _ _ rfl
      rw [htrim, replicate_succ', ← append_assoc, ← hwords]
    refine ⟨0, ?_⟩
    have htrim : trimTop (limbs ++ [limb]) = limbs ++ [limb] :=
      rdropWhile_concat_neg _ _ _ (by simpa using hzero)
    rw [htrim, replicate_zero, append_nil]

theorem trimTop_holds : Holds (trimTop limbs) (valueOf limbs) := by
  obtain ⟨words, hwords⟩ := rdropWhile_append limbs
  constructor
  · conv_rhs => rw [hwords]
    rw [valueOf_append, valueOf_replicate, mul_zero, add_zero]
  intro h
  have hlast := rdropWhile_last_not (fun limb : UInt32 => limb == 0) limbs h
  intro hzero
  exact hlast (beq_iff_eq.mpr hzero)

theorem ofNat_toNat_mod (n : Nat) : (UInt32.ofNat n).toNat = n % base := UInt32.toNat_ofNat'

theorem multiplyLoop_spec {factor : Nat} (hfactor : factor < base) :
    ∀ (limbs : DecimalInteger) {carry : Nat}, carry < base → ∃ out last,
      multiplyLoop factor carry limbs = .ok (out, last) ∧ out.length = limbs.length ∧
        last < base ∧ valueOf out + base ^ limbs.length * last = valueOf limbs * factor + carry
  | [], carry, hcarry => ⟨[], carry, rfl, rfl, hcarry, by simp⟩
  | limb :: limbs, carry, hcarry => by
    have hlimb : limb.toNat < base := limb.toNat_lt
    have hproduct : limb.toNat * factor + carry < base * base := by nlinarith
    have hshift : (limb.toNat * factor + carry) >>> 32 = (limb.toNat * factor + carry) / base :=
      Nat.shiftRight_eq_div_pow _ 32
    have hnext : (limb.toNat * factor + carry) >>> 32 < base := by
      rw [hshift]
      exact Nat.div_lt_of_lt_mul hproduct
    obtain ⟨out, last, hloop, hlength, hlast, hvalue⟩ := multiplyLoop_spec hfactor limbs hnext
    refine ⟨UInt32.ofNat (limb.toNat * factor + carry) :: out, last, ?_, ?_, hlast, ?_⟩
    · rw [multiplyLoop]
      simp only [checked_of_lt (show limb.toNat * factor + carry < 2 ^ 64 from hproduct), bind,
        Except.bind, hloop, pure, Except.pure]
    · rw [length_cons, hlength, length_cons]
    have hmod := Nat.mod_add_div (limb.toNat * factor + carry) base
    rw [hshift] at hvalue
    rw [valueOf_cons, valueOf_cons, ofNat_toNat_mod, length_cons, pow_succ]
    calc (limb.toNat * factor + carry) % base + base * valueOf out +
          base ^ limbs.length * base * last
        = (limb.toNat * factor + carry) % base +
          base * (valueOf out + base ^ limbs.length * last) := by ring
      _ = (limb.toNat * factor + carry) % base + base * ((limb.toNat * factor + carry) / base) +
          base * valueOf limbs * factor := by rw [hvalue]; ring
      _ = (limb.toNat + base * valueOf limbs) * factor + carry := by rw [hmod]; ring

def limit : Nat := base ^ 128

theorem pushCarry_spec {limbs : DecimalInteger} {carry n : Nat} (hcarry : carry < base)
    (hlength : limbs.length ≤ 128) (hvalue : valueOf limbs + base ^ limbs.length * carry = n)
    (hn : n < limit) : ∃ out, pushCarry limbs carry = .ok out ∧ valueOf out = n ∧
      (out = limbs ∧ carry = 0 ∨ out = limbs ++ [UInt32.ofNat carry] ∧ carry ≠ 0) := by
  unfold pushCarry
  by_cases hzero : carry = 0
  · rw [if_pos hzero]
    refine ⟨limbs, rfl, ?_, .inl ⟨rfl, hzero⟩⟩
    rw [← hvalue, hzero, mul_zero, add_zero]
  have hshort : limbs.length < 128 := by
    by_contra hc
    have hlen : limbs.length = 128 := by omega
    have hle : base ^ 128 * 1 ≤ base ^ limbs.length * carry := by
      rw [hlen]
      exact Nat.mul_le_mul_left _ (Nat.pos_of_ne_zero hzero)
    unfold limit at hn
    omega
  rw [if_neg hzero, if_pos hshort]
  refine ⟨_, rfl, ?_, .inr ⟨rfl, hzero⟩⟩
  rw [valueOf_append, valueOf_cons, ofNat_toNat_mod, Nat.mod_eq_of_lt hcarry, valueOf_nil,
    mul_zero, add_zero, hvalue]

theorem decimalMultiply_value {limbs : DecimalInteger} {factor addition : UInt32}
    (hlength : limbs.length ≤ 128)
    (hn : valueOf limbs * factor.toNat + addition.toNat < limit) :
    ∃ out, decimalMultiply limbs factor addition = .ok out ∧
      Holds out (valueOf limbs * factor.toNat + addition.toNat) := by
  obtain ⟨out, last, hloop, hlen, hlast, hvalue⟩ :=
    multiplyLoop_spec factor.toNat_lt limbs addition.toNat_lt
  obtain ⟨pushed, hpush, hpushed, _⟩ :=
    pushCarry_spec hlast (hlen ▸ hlength) (hlen ▸ hvalue) hn
  refine ⟨trimTop pushed, ?_, hpushed ▸ trimTop_holds pushed⟩
  unfold decimalMultiply
  simp only [hloop, bind, Except.bind, hpush, pure, Except.pure]

theorem Holds.multiply {limbs : DecimalInteger} {n : Nat} (h : Holds limbs n)
    {factor addition : UInt32} (hn : n < limit)
    (hresult : n * factor.toNat + addition.toNat < limit) :
    ∃ out, decimalMultiply limbs factor addition = .ok out ∧
      Holds out (n * factor.toNat + addition.toNat) := by
  have hvalue := h.value
  subst hvalue
  exact decimalMultiply_value (h.length_le hn) hresult

theorem Holds.shift {limbs : DecimalInteger} {n : Nat} (h : Holds limbs n) {bits : Nat}
    (hresult : n * 2 ^ bits < limit) :
    ∃ out, decimalShift limbs bits = .ok out ∧ Holds out (n * 2 ^ bits) := by
  unfold decimalShift
  by_cases hnil : limbs = []
  · subst hnil
    have hzero : n = 0 := h.value.symm
    rw [if_pos rfl, hzero, zero_mul]
    exact ⟨[], rfl, holds_nil⟩
  have hpow : 2 ^ bits = base ^ (bits / 32) * 2 ^ (bits % 32) := by
    rw [base, ← pow_mul, ← pow_add, Nat.div_add_mod]
  have hge := h.ge hnil
  have hwords : limbs.length + bits / 32 ≤ 128 := by
    by_contra hc
    have hlow : base ^ 128 ≤ base ^ (limbs.length - 1 + bits / 32) :=
      Nat.pow_le_pow_right (by decide) (by omega)
    have hprod : base ^ (limbs.length - 1 + bits / 32) ≤ n * 2 ^ bits := by
      rw [hpow, pow_add, ← mul_assoc]
      calc base ^ (limbs.length - 1) * base ^ (bits / 32)
          ≤ n * base ^ (bits / 32) := Nat.mul_le_mul_right _ hge
        _ ≤ n * base ^ (bits / 32) * 2 ^ (bits % 32) :=
            Nat.le_mul_of_pos_right _ (Nat.two_pow_pos _)
    unfold limit at hresult
    omega
  rw [if_neg hnil]
  rw [if_neg (by omega)]
  have hmod : bits % 32 < 32 := Nat.mod_lt _ (by decide)
  have hfactor : (1 <<< UInt32.ofNat (bits % 32) : UInt32).toNat = 2 ^ (bits % 32) := by
    have hsmall : (UInt32.ofNat (bits % 32)).toNat % 32 = bits % 32 := by
      rw [ofNat_toNat_mod, base]
      omega
    have hlt : 2 ^ (bits % 32) < 2 ^ 32 := Nat.pow_lt_pow_right (by decide) hmod
    rw [UInt32.toNat_shiftLeft, hsmall, UInt32.toNat_one, Nat.one_shiftLeft, Nat.mod_eq_of_lt hlt]
  have hvalue : valueOf (replicate (bits / 32) 0 ++ limbs) = base ^ (bits / 32) * n := by
    rw [valueOf_append, valueOf_replicate, length_replicate, h.value, zero_add]
  have hproduct : base ^ (bits / 32) * n * 2 ^ (bits % 32) + 0 = n * 2 ^ bits := by
    rw [hpow]
    ring
  have hmul := @decimalMultiply_value (replicate (bits / 32) 0 ++ limbs)
    (1 <<< UInt32.ofNat (bits % 32)) 0
    (by rw [length_append, length_replicate]; omega)
    (by rw [hvalue, hfactor, UInt32.toNat_zero, hproduct]; exact hresult)
  rw [hvalue, hfactor, UInt32.toNat_zero, hproduct] at hmul
  exact hmul

theorem valueOf_head : valueOf limbs = (limbs.headD 0).toNat + base * valueOf limbs.tail := by
  cases limbs with
  | nil => rfl
  | cons limb limbs => exact valueOf_cons limb limbs

theorem addLoop_spec : ∀ (n : Nat) (left right : DecimalInteger) {carry : Nat}, carry ≤ 1 →
    left.length ≤ n → right.length ≤ n →
    (addLoop n carry left right).1.length = n ∧ (addLoop n carry left right).2 ≤ 1 ∧
      valueOf (addLoop n carry left right).1 + base ^ n * (addLoop n carry left right).2 =
        valueOf left + valueOf right + carry
  | 0, left, right, carry, hcarry, hl, hr => by
    rw [length_eq_zero_iff.mp (Nat.le_zero.mp hl), length_eq_zero_iff.mp (Nat.le_zero.mp hr)]
    simp [addLoop, hcarry]
  | n + 1, left, right, carry, hcarry, hl, hr => by
    have hleft : (left.headD 0).toNat < base := (left.headD 0).toNat_lt
    have hright : (right.headD 0).toNat < base := (right.headD 0).toNat_lt
    have hsplitl := valueOf_head left
    have hsplitr := valueOf_head right
    rw [addLoop]
    generalize (left.headD 0).toNat = l at *
    generalize (right.headD 0).toNat = r at *
    have hshift : (carry + l + r) >>> 32 = (carry + l + r) / base := Nat.shiftRight_eq_div_pow _ 32
    have hbase : base = 4294967296 := rfl
    have hnext : (carry + l + r) >>> 32 ≤ 1 := by
      rw [hshift]
      omega
    obtain ⟨hlength, hlast, hvalue⟩ := addLoop_spec n left.tail right.tail hnext
      (by rw [length_tail]; omega) (by rw [length_tail]; omega)
    refine ⟨?_, hlast, ?_⟩
    · simp only [length_cons, hlength]
    have hmod := Nat.mod_add_div (carry + l + r) base
    rw [hshift] at hvalue
    rw [hshift, valueOf_cons, ofNat_toNat_mod, pow_succ, hsplitl, hsplitr]
    generalize addLoop n ((carry + l + r) / base) left.tail right.tail = result at *
    calc (carry + l + r) % base + base * valueOf result.1 + base ^ n * base * result.2
        = (carry + l + r) % base + base * (valueOf result.1 + base ^ n * result.2) := by ring
      _ = (carry + l + r) % base + base * ((carry + l + r) / base) +
          base * valueOf left.tail + base * valueOf right.tail := by rw [hvalue]; ring
      _ = l + base * valueOf left.tail + (r + base * valueOf right.tail) + carry := by
          rw [hmod]; ring

theorem holds_of_ge {limbs : DecimalInteger} {n : Nat} (hvalue : valueOf limbs = n)
    (hge : limbs ≠ [] → base ^ (limbs.length - 1) ≤ n) : Holds limbs n := by
  refine ⟨hvalue, fun hne hzero => ?_⟩
  have hsplit := valueOf_append limbs.dropLast [limbs.getLast hne]
  have hlt := valueOf_lt limbs.dropLast
  have hle := hge hne
  rw [dropLast_append_getLast hne, hvalue, hzero, valueOf_cons, valueOf_nil] at hsplit
  rw [length_dropLast] at hlt
  simp only [UInt32.toNat_zero, mul_zero, add_zero] at hsplit
  omega

variable {left right : DecimalInteger}

theorem Holds.add {a b : Nat} (ha : Holds left a) (hb : Holds right b) (hresult : a + b < limit) :
    ∃ out, decimalAdd left right = .ok out ∧ Holds out (a + b) := by
  have hla := @Holds.length_le left a 128 ha (by unfold limit at hresult; omega)
  have hlb := @Holds.length_le right b 128 hb (by unfold limit at hresult; omega)
  obtain ⟨hlength, hlast, hvalue⟩ := addLoop_spec (max left.length right.length) left right
    (Nat.zero_le 1) (Nat.le_max_left _ _) (Nat.le_max_right _ _)
  rw [ha.value, hb.value, Nat.add_zero] at hvalue
  unfold decimalAdd
  generalize addLoop (max left.length right.length) 0 left right = result at *
  obtain ⟨limbs, carry⟩ := result
  obtain ⟨out, hpush, hout, hcases⟩ := @pushCarry_spec limbs carry (a + b)
    (lt_of_le_of_lt hlast (by decide)) (by simp only at hlength; omega)
    (by simp only at hlength hvalue; rw [hlength]; exact hvalue) hresult
  refine ⟨out, hpush, ?_⟩
  rcases hcases with ⟨hsame, _⟩ | ⟨hpushed, hne⟩
  · refine holds_of_ge hout (fun hne => ?_)
    rw [hsame]
    rw [hlength]
    rcases Nat.le_total left.length right.length with hle | hle
    · rw [Nat.max_eq_right hle]
      have hright : right ≠ [] := by
        intro hnil
        rw [hnil, length_nil] at hle
        rw [hsame] at hne
        apply hne
        rw [← length_eq_zero_iff, hlength, hnil]
        simpa using hle
      exact le_trans (hb.ge hright) (Nat.le_add_left _ _)
    rw [Nat.max_eq_left hle]
    have hleft : left ≠ [] := by
      intro hnil
      rw [hnil, length_nil] at hle
      rw [hsame] at hne
      apply hne
      rw [← length_eq_zero_iff, hlength, hnil]
      simpa using hle
    exact le_trans (ha.ge hleft) (Nat.le_add_right _ _)
  · refine ⟨hout, fun h hzero => hne ?_⟩
    have hlastLimb : out.getLast h = UInt32.ofNat carry := by
      subst hpushed
      exact getLast_append_singleton _
    rw [hlastLimb] at hzero
    have hnat := congrArg UInt32.toNat hzero
    have hsmall : carry < base := lt_of_le_of_lt hlast (by decide)
    rw [ofNat_toNat_mod, UInt32.toNat_zero, Nat.mod_eq_of_lt hsmall] at hnat
    exact hnat

def sign (a b : Nat) : Int := if a < b then -1 else if b < a then 1 else 0

theorem compareTop_spec : ∀ {left right : List UInt32}, left.length = right.length →
    compareTop left right = sign (valueOf left.reverse) (valueOf right.reverse)
  | [], [], _ => by simp [compareTop, sign]
  | l :: left, r :: right, h => by
    have hlength : left.length = right.length := by simpa using h
    have hl := valueOf_lt left.reverse
    have hr := valueOf_lt right.reverse
    rw [length_reverse] at hl hr
    rw [compareTop, reverse_cons, reverse_cons, valueOf_append, valueOf_append,
      valueOf_cons, valueOf_cons, valueOf_nil, mul_zero, add_zero, add_zero,
      length_reverse, length_reverse, hlength]
    rw [hlength] at hl
    unfold sign
    rcases Nat.lt_trichotomy l.toNat r.toNat with hlt | heq | hgt
    · rw [if_pos (UInt32.lt_iff_toNat_lt.mpr hlt), if_pos]
      nlinarith
    · have hlr : l = r := UInt32.toNat_inj.mp heq
      subst hlr
      rw [if_neg (by rw [UInt32.lt_iff_toNat_lt]; omega),
        if_neg (by rw [gt_iff_lt, UInt32.lt_iff_toNat_lt]; omega), compareTop_spec hlength]
      unfold sign
      simp only [Nat.add_lt_add_iff_right]
    rw [if_neg (by rw [UInt32.lt_iff_toNat_lt]; omega),
      if_pos (UInt32.lt_iff_toNat_lt.mpr hgt), if_neg, if_pos]
    · nlinarith
    · nlinarith

theorem Holds.compare {a b : Nat} (ha : Holds left a) (hb : Holds right b) :
    compareLimbs left right = sign a b := by
  have hlta := valueOf_lt left
  have hltb := valueOf_lt right
  rw [ha.value] at hlta
  rw [hb.value] at hltb
  unfold compareLimbs
  split_ifs with hless hmore
  · have hne : right ≠ [] := by
      intro hnil
      rw [hnil] at hless
      exact absurd hless (Nat.not_lt_zero _)
    have hge := hb.ge hne
    have hpow : base ^ left.length ≤ base ^ (right.length - 1) :=
      Nat.pow_le_pow_right (by decide) (by omega)
    unfold sign
    rw [if_pos (by omega)]
  · have hne : left ≠ [] := by
      intro hnil
      rw [hnil] at hmore
      exact absurd hmore (Nat.not_lt_zero _)
    have hge := ha.ge hne
    have hpow : base ^ right.length ≤ base ^ (left.length - 1) :=
      Nat.pow_le_pow_right (by decide) (by omega)
    unfold sign
    rw [if_neg (by omega), if_pos (by omega)]
  · rw [compareTop_spec (by rw [length_reverse, length_reverse]; omega),
      reverse_reverse, reverse_reverse, ha.value, hb.value]

/-- **The comparison of numerator/denominator with a scaled mantissa,** if both products have a
place. -/
theorem decimalCompare_spec {numerator denominator : DecimalInteger} {n d mantissa : Nat}
    {exponent : Int} (hn : Holds numerator n) (hd : Holds denominator d)
    (hmantissa : mantissa < 2 ^ 64) (hleft : n * 2 ^ (-exponent).toNat < limit)
    (hright : d * mantissa * 2 ^ exponent.toNat < limit) (hd' : d < limit)
    (hhigh : d * 2 ^ 64 < limit) :
    decimalCompare numerator denominator mantissa exponent =
      .ok (sign (n * 2 ^ (-exponent).toNat) (d * mantissa * 2 ^ exponent.toNat)) := by
  obtain ⟨low, hlow⟩ : ∃ low, UInt32.ofNat mantissa = low := ⟨_, rfl⟩
  obtain ⟨high, hhigh'⟩ : ∃ high, UInt32.ofNat (mantissa >>> 32) = high := ⟨_, rfl⟩
  have hlow32 : low.toNat < 2 ^ 32 := low.toNat_lt
  have hhigh32 : high.toNat < 2 ^ 32 := high.toNat_lt
  have hsplit : low.toNat + base * high.toNat = mantissa := by
    have hshift : mantissa >>> 32 = mantissa / base := Nat.shiftRight_eq_div_pow _ 32
    have hquotient : mantissa / base < base := Nat.div_lt_of_lt_mul hmantissa
    rw [← hlow, ← hhigh', ofNat_toNat_mod, ofNat_toNat_mod, hshift, Nat.mod_eq_of_lt hquotient,
      Nat.mod_add_div]
  have hproduct : d * mantissa < limit :=
    lt_of_le_of_lt (Nat.le_mul_of_pos_right _ (Nat.two_pow_pos _)) hright
  obtain ⟨r1, hr1, hh1⟩ := @Holds.multiply denominator d hd low 0 hd'
    (by rw [UInt32.toNat_zero]; nlinarith)
  obtain ⟨r2, hr2, hh2⟩ := @Holds.multiply denominator d hd high 0 hd'
    (by rw [UInt32.toNat_zero]; nlinarith)
  rw [UInt32.toNat_zero, add_zero] at hh1 hh2
  obtain ⟨r3, hr3, hh3⟩ := @Holds.shift r2 _ hh2 32 (by nlinarith)
  have hsum : d * low.toNat + d * high.toNat * 2 ^ 32 = d * mantissa := by
    rw [← hsplit, base]
    ring
  obtain ⟨r4, hr4, hh4⟩ := hh1.add hh3 (by rw [hsum]; exact hproduct)
  rw [hsum] at hh4
  unfold decimalCompare
  simp only [hlow, hhigh', hr1, hr2, hr3, hr4, bind, Except.bind, pure, Except.pure]
  split_ifs with hneg
  · obtain ⟨l1, hl1, hl⟩ := hn.shift hleft
    have hzero : exponent.toNat = 0 := by omega
    rw [hl1, hzero, pow_zero, mul_one]
    dsimp only
    rw [hl.compare hh4]
  obtain ⟨r5, hr5, hh5⟩ := hh4.shift hright
  have hzero : (-exponent).toNat = 0 := by omega
  rw [hr5, hzero, pow_zero, mul_one]
  dsimp only
  rw [hn.compare hh5]

end Dyn.Strings
