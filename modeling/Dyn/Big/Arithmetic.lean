import Dyn.Big.Integers
import Mathlib.Data.Nat.Size

/-!
# std/math/big: exact arithmetic

Each loop spells the result of the operation on the numbers that its arrays spell, with the carry at
its end as the limb above.  Trimming then gives the normal form.
-/

namespace Dyn.Big

open List
open Binary (checked checked_of_lt)
open Strings (trimTop valueOf base Holds valueOf_nil valueOf_cons valueOf_append valueOf_replicate valueOf_lt)

theorem base_eq : base = 4294967296 := rfl

variable (n : Nat)

theorem shiftRight_eq : n >>> 32 = n / 4294967296 := Nat.shiftRight_eq_div_pow n 32

theorem ofNat_toNat : (UInt32.ofNat n).toNat = n % 4294967296 := UInt32.toNat_ofNat'

theorem toNat_lt (x : UInt32) : x.toNat < 4294967296 := x.toNat_lt

theorem lower_toNat : (lower n).toNat = n % 4294967296 := by
  unfold lower
  rw [ofNat_toNat, show (4294967295 : Nat) = 2 ^ 32 - 1 from rfl, Nat.and_two_pow_sub_one_eq_mod]
  omega

variable {value : BigInt} {shift : Nat}

theorem Normal.holds (h : Normal value) : Holds value.limbs (magnitude value) := ⟨rfl, h.top⟩

theorem Normal.magnitude_eq_zero (h : Normal value) : magnitude value = 0 ↔ value.limbs = [] := by
  constructor
  · intro hzero
    have hholds := h.holds
    rw [hzero] at hholds
    exact hholds.eq_nil
  intro hnil
  rw [magnitude, hnil]
  rfl

theorem trimmed_normal (limbs : Limbs) (negative : Bool) : Normal (trimmed limbs negative) where
  top := (Strings.trimTop_holds limbs).normal
  sign h := by
    change (negative && decide (trimTop limbs ≠ [])) = false
    rw [show trimTop limbs = [] from h]
    exact Bool.and_false _

theorem trimmed_toInt (limbs : Limbs) (negative : Bool) :
    toInt (trimmed limbs negative) = if negative then -(valueOf limbs : Int) else valueOf limbs := by
  have hvalue := (Strings.trimTop_holds limbs).value
  have hmagnitude : magnitude (trimmed limbs negative) = valueOf limbs := hvalue
  unfold toInt
  rw [hmagnitude]
  by_cases hnil : trimTop limbs = []
  · have hzero : valueOf limbs = 0 := by rw [← hvalue, hnil]; rfl
    rw [hzero]
    simp
  have hnegative : (trimmed limbs negative).negative = negative := by
    change (negative && decide (trimTop limbs ≠ [])) = negative
    rw [decide_eq_true hnil, Bool.and_true]
  rw [hnegative]

variable {limbs a b : Limbs} (h : limbs ≠ [])

theorem trimmed_gives {negative : Bool} {n : Int}
    (h : (if negative then -(valueOf limbs : Int) else valueOf limbs) = n) :
    Gives (.ok (trimmed limbs negative)) n :=
  ⟨_, rfl, trimmed_normal limbs negative, (trimmed_toInt limbs negative).trans h⟩

theorem toInt_of_nil (h : value.limbs = []) : toInt value = 0 := by
  unfold toInt magnitude
  rw [h]
  simp

theorem fromU64_value (value : BitVec 64) :
    valueOf [lower value.toNat, UInt32.ofNat (value.toNat >>> 32)] = value.toNat := by
  rw [valueOf_cons, valueOf_cons, valueOf_nil, lower_toNat, ofNat_toNat, shiftRight_eq, base_eq]
  omega

theorem fromU64_exact (value : BitVec 64) : Normal (fromU64 value) ∧ toInt (fromU64 value) = value.toNat := by
  refine ⟨trimmed_normal _ _, (trimmed_toInt _ _).trans ?_⟩
  rw [fromU64_value]
  rfl

theorem fromI64_exact (value : BitVec 64) : Normal (fromI64 value) ∧ toInt (fromI64 value) = value.toInt := by
  have hslt : value.slt 0 = decide (value.toInt < 0) := by
    rw [BitVec.slt_eq_decide]
    rfl
  have hint := BitVec.toInt_eq_toNat_cond value
  unfold fromI64
  by_cases hneg : value.toInt < 0
  · rw [hslt, decide_eq_true hneg]
    obtain ⟨hnormal, -⟩ := fromU64_exact (0 - value)
    have hmagnitude : magnitude (fromU64 (0 - value)) = 2 ^ 64 - value.toNat := by
      have hvalue := (Strings.trimTop_holds [lower (0 - value).toNat, UInt32.ofNat ((0 - value).toNat >>> 32)]).value
      rw [fromU64_value] at hvalue
      refine hvalue.trans ?_
      rw [BitVec.toNat_sub, show (0 : BitVec 64).toNat = 0 from rfl]
      split at hint <;> omega
    have hne : (fromU64 (0 - value)).limbs ≠ [] := by
      intro hnil
      have hzero := hnormal.magnitude_eq_zero.mpr hnil
      omega
    refine ⟨⟨hnormal.top, fun hnil => absurd hnil hne⟩, ?_⟩
    change -(magnitude (fromU64 (0 - value)) : Int) = value.toInt
    rw [hmagnitude]
    split at hint <;> omega
  · rw [hslt, decide_eq_false hneg]
    simp only [Bool.false_eq_true, if_false]
    obtain ⟨hnormal, hvalue⟩ := fromU64_exact value
    refine ⟨⟨hnormal.top, fun _ => rfl⟩, ?_⟩
    have hsame : ({ fromU64 value with negative := false } : BigInt) = fromU64 value := rfl
    rw [hsame, hvalue]
    split at hint <;> omega

def fitsU64 (n : Int) : U64Result := if 0 ≤ n ∧ n < 2 ^ 64 then ⟨n.toNat, true⟩ else ⟨0, false⟩

theorem toU64Loop_exact (h : limbs.length ≤ 2) : toU64Loop 0 0 limbs = .ok (valueOf limbs) := by
  match limbs, h with
  | [], _ => rfl
  | [x], _ =>
    have hx := toNat_lt x
    have hfits : x.toNat <<< (32 * 0) < 2 ^ 64 := by
      rw [mul_zero, Nat.shiftLeft_zero]
      omega
    simp only [toU64Loop, checked_of_lt hfits, bind, Except.bind]
    rw [Nat.zero_or, mul_zero, Nat.shiftLeft_zero, valueOf_cons, valueOf_nil, mul_zero, add_zero]
  | [x, y], _ =>
    have hx := toNat_lt x
    have hy := toNat_lt y
    have hfits : x.toNat <<< (32 * 0) < 2 ^ 64 := by
      rw [mul_zero, Nat.shiftLeft_zero]
      omega
    have hfits' : y.toNat <<< (32 * (0 + 1)) < 2 ^ 64 := by
      rw [Nat.shiftLeft_eq]
      omega
    have hor : x.toNat ||| y.toNat <<< 32 = x.toNat + 4294967296 * y.toNat := by
      have hsum := Nat.shiftLeft_add_eq_or_of_lt (i := 32) hx y.toNat
      rw [Nat.shiftLeft_eq] at hsum ⊢
      rw [Nat.lor_comm, ← hsum]
      omega
    simp only [toU64Loop, checked_of_lt hfits, checked_of_lt hfits', bind, Except.bind]
    simp only [Nat.zero_or, mul_zero, Nat.shiftLeft_zero, zero_add, mul_one, hor, valueOf_cons,
      valueOf_nil, add_zero, base_eq]

theorem toU64_exact (h : Normal value) : toU64 value = .ok (fitsU64 (toInt value)) := by
  obtain ⟨limbs, negative⟩ := value
  cases negative with
  | true =>
    have hne : limbs ≠ [] := fun hnil => by cases h.sign hnil
    have hpos : magnitude ⟨limbs, true⟩ ≠ 0 := fun hzero => hne (h.magnitude_eq_zero.mp hzero)
    have hnegative : ¬ 0 ≤ toInt ⟨limbs, true⟩ := by
      change ¬ 0 ≤ -(magnitude ⟨limbs, true⟩ : Int)
      omega
    unfold fitsU64 toU64
    simp only [hnegative, false_and, if_false, Bool.true_or, if_true]
  | false =>
    have hint : toInt ⟨limbs, false⟩ = valueOf limbs := rfl
    have hsquare : base ^ 2 = 18446744073709551616 := rfl
    rw [hint]
    unfold toU64 fitsU64
    by_cases hlong : limbs.length > 2
    · have hne : limbs ≠ [] := by
        rintro rfl
        exact absurd hlong (by decide)
      have hge : base ^ (limbs.length - 1) ≤ valueOf limbs := h.holds.ge hne
      have hpow : base ^ 2 ≤ base ^ (limbs.length - 1) := Nat.pow_le_pow_right (by decide) (by omega)
      rw [if_neg (show ¬ (0 ≤ (valueOf limbs : Int) ∧ (valueOf limbs : Int) < 2 ^ 64) by omega)]
      simp only [hlong, decide_true, Bool.or_true, if_true]
    have hlt := valueOf_lt limbs
    have hpow : base ^ limbs.length ≤ base ^ 2 := Nat.pow_le_pow_right (by decide) (by omega)
    rw [if_pos (show 0 ≤ (valueOf limbs : Int) ∧ (valueOf limbs : Int) < 2 ^ 64 by omega), Int.toNat_natCast]
    simp only [hlong, decide_false, Bool.or_self, Bool.false_eq_true, if_false,
      toU64Loop_exact (Nat.le_of_not_lt hlong), bind, Except.bind, pure, Except.pure]

theorem negate_exact (h : Normal value) :
    Normal (negate value) ∧ toInt (negate value) = -toInt value := by
  obtain ⟨limbs, negative⟩ := value
  by_cases hnil : limbs = []
  · subst hnil
    refine ⟨⟨h.top, fun _ => by simp [negate]⟩, ?_⟩
    rw [toInt_of_nil rfl, toInt_of_nil rfl]
    rfl
  refine ⟨⟨h.top, fun hempty => absurd hempty hnil⟩, ?_⟩
  have hlength : limbs.length ≠ 0 := fun hzero => hnil (length_eq_zero_iff.mp hzero)
  unfold toInt negate magnitude
  cases negative <;> simp [hlength]

theorem compareLoop_eq : ∀ a b : Limbs, compareLoop a b = Strings.compareTop a b
  | [], _ => by simp [compareLoop, Strings.compareTop]
  | _ :: _, [] => by simp [compareLoop, Strings.compareTop]
  | x :: a, y :: b => by
    rw [compareLoop, Strings.compareTop, compareLoop_eq a b]
    by_cases heq : x = y
    · subst heq
      simp
    have hne : x.toNat ≠ y.toNat := fun hnat => heq (UInt32.toNat_inj.mp hnat)
    rw [if_pos heq]
    by_cases hlt : x < y
    · rw [if_pos hlt, if_pos hlt]
    have hgt : x > y := by
      rw [UInt32.lt_iff_toNat_lt] at hlt
      rw [gt_iff_lt, UInt32.lt_iff_toNat_lt]
      omega
    rw [if_neg hlt, if_neg hlt, if_pos hgt]

theorem compareMagnitude_exact {m n : Nat} (ha : Holds a m) (hb : Holds b n) :
    compareMagnitude a b = Strings.sign m n := by
  rw [← ha.compare hb]
  unfold compareMagnitude Strings.compareLimbs
  rw [compareLoop_eq]
  split_ifs <;> first | rfl | omega

def order (m n : Int) : Int := if m < n then -1 else if n < m then 1 else 0

theorem compare_exact {a b : BigInt} (ha : Normal a) (hb : Normal b) : compare a b = order (toInt a) (toInt b) := by
  have hmagnitude := compareMagnitude_exact ha.holds hb.holds
  have hzero : ∀ {v : BigInt}, Normal v → v.negative = true → magnitude v ≠ 0 := by
    intro v hv hneg hzero
    have hfalse := hv.sign (hv.magnitude_eq_zero.mp hzero)
    rw [hneg] at hfalse
    cases hfalse
  unfold compare
  rw [hmagnitude]
  unfold Strings.sign order toInt
  cases hna : a.negative with
  | true =>
    have hpos := hzero ha hna
    cases hnb : b.negative with
    | true =>
      have hpos' := hzero hb hnb
      simp only [ne_eq, not_true_eq_false, if_false, if_true]
      split_ifs <;> omega
    | false =>
      simp only [ne_eq, Bool.true_eq_false, not_false_eq_true, if_true, Bool.false_eq_true, if_false]
      split_ifs <;> omega
  | false =>
    cases hnb : b.negative with
    | true =>
      have hpos' := hzero hb hnb
      simp only [ne_eq, Bool.false_eq_true, not_false_eq_true, if_true, if_false]
      split_ifs <;> omega
    | false =>
      simp only [ne_eq, not_true_eq_false, if_false, Bool.false_eq_true]
      split_ifs <;> omega

theorem addLimb_exact {n : Nat} (hn : n < 2 ^ 63) (b : Limbs) :
    ∃ m, addLimb n b = .ok m ∧ m ≤ n + 4294967295 ∧ valueOf b + n = m + 4294967296 * valueOf b.tail := by
  match b with
  | [] => exact ⟨n, rfl, by omega, by simp⟩
  | y :: b =>
    have hy := toNat_lt y
    refine ⟨n + y.toNat, checked_of_lt (by omega), by omega, ?_⟩
    rw [valueOf_cons, tail_cons, base_eq]
    omega

/-- **The addition loop spells the sum**, for a second number that is not longer. -/
theorem addLoop_exact : ∀ (long short : Limbs) {carry : Nat}, carry ≤ 1 → short.length ≤ long.length →
    ∃ out, addLoop carry long short = .ok out ∧ valueOf out = valueOf long + valueOf short + carry
  | [], short, carry, hcarry, hlength => by
    have hnil : short = [] := length_eq_zero_iff.mp (Nat.le_zero.mp hlength)
    subst hnil
    refine ⟨_, rfl, ?_⟩
    rw [valueOf_cons, valueOf_nil, ofNat_toNat]
    omega
  | x :: long, short, carry, hcarry, hlength => by
    have hx := toNat_lt x
    obtain ⟨sum, hsum, hle, hsplit⟩ := addLimb_exact (show x.toNat + carry < 2 ^ 63 by omega) short
    have htail : short.tail.length ≤ long.length := by
      rw [length_tail]
      rw [length_cons] at hlength
      omega
    have hnext : sum >>> 32 ≤ 1 := by
      rw [shiftRight_eq]
      omega
    obtain ⟨out, hout, hvalue⟩ := addLoop_exact long short.tail hnext htail
    refine ⟨lower sum :: out, ?_, ?_⟩
    · simp only [addLoop, checked_of_lt (show x.toNat + carry < 2 ^ 64 by omega), bind, Except.bind, hsum, hout, pure,
        Except.pure]
    rw [shiftRight_eq] at hvalue
    rw [valueOf_cons, valueOf_cons, lower_toNat, base_eq, hvalue]
    omega

theorem addMagnitude_exact (a b : Limbs) :
    ∃ out, addMagnitude a b = .ok out ∧ valueOf out = valueOf a + valueOf b := by
  unfold addMagnitude
  split_ifs
  · obtain ⟨out, hout, hvalue⟩ := addLoop_exact b a (Nat.zero_le 1) (by omega)
    exact ⟨out, hout, by omega⟩
  · obtain ⟨out, hout, hvalue⟩ := addLoop_exact a b (Nat.zero_le 1) (by omega)
    exact ⟨out, hout, by omega⟩

/-- **The subtraction loop spells the difference**, up to the last borrow. -/
theorem subtractLoop_exact : ∀ (a b : Limbs) {borrow : Nat}, borrow ≤ 1 → b.length ≤ a.length →
    ∃ out last, subtractLoop borrow a b = .ok out ∧ out.length = a.length ∧ last ≤ 1 ∧
      valueOf out + valueOf b + borrow = valueOf a + base ^ a.length * last
  | [], b, borrow, hborrow, hlength => by
    have hnil : b = [] := length_eq_zero_iff.mp (Nat.le_zero.mp hlength)
    subst hnil
    exact ⟨[], borrow, rfl, rfl, hborrow, by simp⟩
  | x :: a, b, borrow, hborrow, hlength => by
    have hx := toNat_lt x
    obtain ⟨subtrahend, hsubtrahend, hle, hsplit⟩ := addLimb_exact (show borrow < 2 ^ 63 by omega) b
    have htail : b.tail.length ≤ a.length := by
      rw [length_tail]
      rw [length_cons] at hlength
      omega
    unfold subtractLoop
    simp only [hsubtrahend, bind, Except.bind]
    split_ifs
    · obtain ⟨out, last, hout, hlength', hlast, hvalue⟩ := subtractLoop_exact a b.tail (Nat.zero_le 1) htail
      rw [hout]
      refine ⟨_, last, rfl, congrArg (· + 1) hlength', hlast, ?_⟩
      rw [valueOf_cons, valueOf_cons, ofNat_toNat, length_cons, pow_succ, mul_comm (base ^ a.length),
        mul_assoc, Nat.mod_eq_of_lt (by omega)]
      generalize base ^ a.length * last = high at *
      rw [base_eq] at *
      omega
    obtain ⟨out, last, hout, hlength', hlast, hvalue⟩ := subtractLoop_exact a b.tail (le_refl 1) htail
    rw [hout]
    refine ⟨_, last, rfl, congrArg (· + 1) hlength', hlast, ?_⟩
    rw [valueOf_cons, valueOf_cons, ofNat_toNat, length_cons, pow_succ, mul_comm (base ^ a.length),
      mul_assoc, Nat.mod_eq_of_lt (by omega)]
    generalize base ^ a.length * last = high at *
    rw [base_eq] at *
    omega

theorem subtractMagnitude_exact (hle : valueOf b ≤ valueOf a) (hlength : b.length ≤ a.length) :
    ∃ out, subtractMagnitude a b = .ok out ∧ valueOf out = valueOf a - valueOf b := by
  obtain ⟨out, last, hout, hsame, hlast, hvalue⟩ := subtractLoop_exact a b (Nat.zero_le 1) hlength
  refine ⟨out, hout, ?_⟩
  have hlt := valueOf_lt out
  rw [hsame] at hlt
  have hzero : last = 0 := by
    by_contra hne
    have hone : last = 1 := by omega
    rw [hone] at hvalue
    omega
  rw [hzero] at hvalue
  omega

theorem Holds.length_mono {m n : Nat} (ha : Holds a m) (hb : Holds b n) (hle : m ≤ n) :
    a.length ≤ b.length := by
  refine ha.length_le ?_
  rw [← hb.value] at hle
  exact lt_of_le_of_lt hle (valueOf_lt b)

theorem add_exact {a b : BigInt} (ha : Normal a) (hb : Normal b) : Gives (add a b) (toInt a + toInt b) := by
  have hholdsa := ha.holds
  have hholdsb := hb.holds
  unfold add
  split
  · rename_i hsame
    obtain ⟨out, hout, hvalue⟩ := addMagnitude_exact a.limbs b.limbs
    simp only [hout, bind, Except.bind, pure, Except.pure]
    refine trimmed_gives ?_
    unfold toInt magnitude
    rw [hvalue, ← hsame]
    split_ifs <;> push_cast <;> ring
  rw [compareMagnitude_exact hholdsa hholdsb]
  by_cases hge : magnitude b ≤ magnitude a
  · have hsign : Strings.sign (magnitude a) (magnitude b) ≥ 0 := by
      unfold Strings.sign
      split_ifs <;> omega
    obtain ⟨out, hout, hvalue⟩ := subtractMagnitude_exact hge (Holds.length_mono hholdsb hholdsa hge)
    rw [if_pos hsign]
    simp only [hout, bind, Except.bind, pure, Except.pure]
    refine trimmed_gives ?_
    unfold toInt
    unfold magnitude at hge ⊢
    rw [hvalue]
    cases hna : a.negative <;> cases hnb : b.negative <;> simp_all <;> omega
  have hsign : ¬ Strings.sign (magnitude a) (magnitude b) ≥ 0 := by
    unfold Strings.sign
    split_ifs <;> omega
  have hle : magnitude a ≤ magnitude b := by omega
  obtain ⟨out, hout, hvalue⟩ := subtractMagnitude_exact hle (Holds.length_mono hholdsa hholdsb hle)
  rw [if_neg hsign]
  simp only [hout, bind, Except.bind, pure, Except.pure]
  refine trimmed_gives ?_
  unfold toInt
  unfold magnitude at hle ⊢
  rw [hvalue]
  cases hna : a.negative <;> cases hnb : b.negative <;> simp_all <;> omega

theorem subtract_exact {a b : BigInt} (ha : Normal a) (hb : Normal b) : Gives (subtract a b) (toInt a - toInt b) := by
  obtain ⟨hnormal, hvalue⟩ := negate_exact hb
  have hadd := add_exact ha hnormal
  rwa [hvalue, ← Int.sub_eq_add_neg] at hadd

/-- **A row spells its product** on top of the limbs that are there, up to a free limb behind them. -/
theorem multiplyRow_exact {left : Nat} (hleft : left < 4294967296) (behind : Limbs) :
    ∀ (b front : Limbs) {carry : Nat}, carry < 4294967296 → front.length = b.length →
      ∃ out, multiplyRow left carry b (front ++ 0 :: behind) = .ok (out ++ behind) ∧ out.length = b.length + 1 ∧
        valueOf out = valueOf front + left * valueOf b + carry
  | [], front, carry, hcarry, hlength => by
    have hnil : front = [] := length_eq_zero_iff.mp hlength
    subst hnil
    refine ⟨[UInt32.ofNat carry], rfl, rfl, ?_⟩
    rw [valueOf_cons, valueOf_nil, ofNat_toNat]
    omega
  | y :: b, [], carry, _, hlength => by simp at hlength
  | y :: b, r :: front, carry, hcarry, hlength => by
    have hy := toNat_lt y
    have hr := toNat_lt r
    have hproduct : left * y.toNat ≤ 4294967295 * 4294967295 := Nat.mul_le_mul (by omega) (by omega)
    have hnext : (left * y.toNat + r.toNat + carry) >>> 32 < 4294967296 := by
      rw [shiftRight_eq]
      omega
    obtain ⟨out, hout, hlength', hvalue⟩ :=
      multiplyRow_exact hleft behind b front hnext (Nat.succ.inj hlength)
    refine ⟨lower (left * y.toNat + r.toNat + carry) :: out, ?_, congrArg (· + 1) hlength', ?_⟩
    · simp only [cons_append, multiplyRow, checked_of_lt (show left * y.toNat < 2 ^ 64 by omega),
        checked_of_lt (show left * y.toNat + r.toNat < 2 ^ 64 by omega),
        checked_of_lt (show left * y.toNat + r.toNat + carry < 2 ^ 64 by omega), bind, Except.bind, hout, pure,
        Except.pure]
    rw [shiftRight_eq] at hvalue
    have hsplit := Nat.mod_add_div (left * y.toNat + r.toNat + carry) 4294967296
    rw [valueOf_cons, valueOf_cons, valueOf_cons, lower_toNat, base_eq, hvalue]
    calc (left * y.toNat + r.toNat + carry) % 4294967296 + 4294967296 *
          (valueOf front + left * valueOf b + (left * y.toNat + r.toNat + carry) / 4294967296)
        = (left * y.toNat + r.toNat + carry) % 4294967296 +
            4294967296 * ((left * y.toNat + r.toNat + carry) / 4294967296) +
            4294967296 * (valueOf front + left * valueOf b) := by ring
      _ = r.toNat + 4294967296 * valueOf front + left * (y.toNat + 4294967296 * valueOf b) + carry := by
          rw [hsplit]
          ring

theorem multiplyRows_exact (b : Limbs) : ∀ (a front : Limbs), front.length = b.length →
    ∃ out, multiplyRows b a (front ++ List.replicate a.length 0) = .ok out ∧
      valueOf out = valueOf front + valueOf a * valueOf b
  | [], front, _ => ⟨front ++ [], rfl, by simp⟩
  | x :: a, front, hlength => by
    obtain ⟨row, hrow, hlength', hvalue⟩ :=
      multiplyRow_exact (toNat_lt x) (replicate a.length 0) b front (by decide : 0 < 4294967296) hlength
    match row, hlength' with
    | limb :: row, hlength' =>
      obtain ⟨out, hout, hvalue'⟩ := multiplyRows_exact b a row (Nat.succ.inj hlength')
      refine ⟨limb :: out, ?_, ?_⟩
      · simp only [length_cons, replicate_succ, multiplyRows, hrow, bind, Except.bind, cons_append,
          hout, pure, Except.pure]
      rw [valueOf_cons, base_eq] at hvalue
      rw [valueOf_cons, valueOf_cons, hvalue', base_eq]
      calc limb.toNat + 4294967296 * (valueOf row + valueOf a * valueOf b)
          = limb.toNat + 4294967296 * valueOf row + 4294967296 * valueOf a * valueOf b := by ring
        _ = valueOf front + (x.toNat + 4294967296 * valueOf a) * valueOf b := by
            rw [hvalue]
            ring

theorem isZero_iff : isZero value = true ↔ value.limbs = [] := by
  unfold isZero
  rw [decide_eq_true_iff, length_eq_zero_iff]

theorem gives_zero : Gives (.ok zero) 0 := ⟨zero, rfl, ⟨fun h => absurd rfl h, fun _ => rfl⟩, rfl⟩

theorem signed_mul (p q : Bool) (m n : Nat) :
    (if (p != q) then -((m * n : Nat) : Int) else (m * n : Nat)) =
      (if p then -(m : Int) else m) * (if q then -(n : Int) else n) := by
  cases p <;> cases q <;> simp

theorem multiply_exact (a b : BigInt) : Gives (multiply a b) (toInt a * toInt b) := by
  unfold multiply
  split_ifs with hzero
  · have hproduct : toInt a * toInt b = 0 := by
      rcases Bool.or_eq_true_iff.mp hzero with ha | hb
      · rw [toInt_of_nil (isZero_iff.mp ha), Int.zero_mul]
      · rw [toInt_of_nil (isZero_iff.mp hb), Int.mul_zero]
    rw [hproduct]
    exact gives_zero
  have hreplicate : replicate (a.limbs.length + b.limbs.length) (0 : UInt32) =
      replicate b.limbs.length 0 ++ replicate a.limbs.length 0 := by
    rw [replicate_append_replicate, add_comm]
  obtain ⟨out, hout, hvalue⟩ := multiplyRows_exact b.limbs a.limbs (replicate b.limbs.length 0)
    length_replicate
  rw [hreplicate]
  simp only [hout, bind, Except.bind, pure, Except.pure]
  rw [valueOf_replicate, zero_add] at hvalue
  refine trimmed_gives ?_
  rw [hvalue, signed_mul]
  rfl

theorem two_pow_split (hshift : shift < 32) : 2 ^ shift * 2 ^ (32 - shift) = 4294967296 := by
  rw [← Nat.pow_add, show shift + (32 - shift) = 32 by omega]

theorem spill_split (hshift : shift < 32) (limb : UInt32) :
    (spill limb shift).toNat < 2 ^ shift ∧
      (UInt32.ofNat (limb.toNat <<< shift)).toNat + 4294967296 * (spill limb shift).toNat = 2 ^ shift * limb.toNat := by
  have hlimb := toNat_lt limb
  have hpow := two_pow_split hshift
  have hspill : (spill limb shift).toNat = limb.toNat / 2 ^ (32 - shift) := by
    unfold spill
    by_cases hzero : shift = 0
    · subst hzero
      rw [if_neg (by simp)]
      exact (Nat.div_eq_of_lt hlimb).symm
    · rw [if_pos hzero, ofNat_toNat, Nat.shiftRight_eq_div_pow]
      exact Nat.mod_eq_of_lt (lt_of_le_of_lt (Nat.div_le_self _ _) hlimb)
  have hkept : (UInt32.ofNat (limb.toNat <<< shift)).toNat = 2 ^ shift * (limb.toNat % 2 ^ (32 - shift)) := by
    rw [ofNat_toNat, Nat.shiftLeft_eq, mul_comm, ← hpow, Nat.mul_mod_mul_left]
  refine ⟨?_, ?_⟩
  · rw [hspill]
    exact Nat.div_lt_of_lt_mul (by rw [mul_comm, hpow]; exact hlimb)
  · rw [hspill, hkept, ← hpow, mul_assoc, ← mul_add, Nat.mod_add_div]

/-- What the limb before has moved fits below the bits that a shift keeps. -/
theorem toNat_or_shifted (hshift : shift < 32) {spilled : UInt32}
    (hspilled : spilled.toNat < 2 ^ shift) (limb : UInt32) :
    (spilled ||| UInt32.ofNat (limb.toNat <<< shift)).toNat =
      spilled.toNat + (UInt32.ofNat (limb.toNat <<< shift)).toNat := by
  have hpow := two_pow_split hshift
  have hkept : (UInt32.ofNat (limb.toNat <<< shift)).toNat = 2 ^ shift * (limb.toNat % 2 ^ (32 - shift)) := by
    rw [ofNat_toNat, Nat.shiftLeft_eq, mul_comm, ← hpow, Nat.mul_mod_mul_left]
  rw [UInt32.toNat_or, hkept, Nat.lor_comm, ← Nat.two_pow_add_eq_or_of_lt hspilled, add_comm]

theorem shiftLeftLoop_exact (hshift : shift < 32) : ∀ (limbs : Limbs) {spilled : UInt32},
    spilled.toNat < 2 ^ shift → valueOf (shiftLeftLoop shift spilled limbs) = spilled.toNat + 2 ^ shift * valueOf limbs
  | [], spilled, _ => by
    rw [shiftLeftLoop, valueOf_cons, valueOf_nil, mul_zero, mul_zero]
  | limb :: limbs, spilled, hspilled => by
    obtain ⟨hnext, hsplit⟩ := spill_split hshift limb
    rw [shiftLeftLoop, valueOf_cons, shiftLeftLoop_exact hshift limbs hnext, toNat_or_shifted hshift hspilled,
      valueOf_cons, base_eq]
    calc spilled.toNat + (UInt32.ofNat (limb.toNat <<< shift)).toNat +
          4294967296 * ((spill limb shift).toNat + 2 ^ shift * valueOf limbs)
        = spilled.toNat + ((UInt32.ofNat (limb.toNat <<< shift)).toNat + 4294967296 * (spill limb shift).toNat) +
            2 ^ shift * (4294967296 * valueOf limbs) := by ring
      _ = spilled.toNat + 2 ^ shift * (limb.toNat + 4294967296 * valueOf limbs) := by
          rw [hsplit]
          ring

theorem shiftLeft_exact (value : BigInt) (hvalue : Normal value) (bits : Nat) :
    Normal (shiftLeft value bits) ∧ toInt (shiftLeft value bits) = toInt value * 2 ^ bits := by
  unfold shiftLeft
  split_ifs with hzero
  · rw [toInt_of_nil (isZero_iff.mp hzero)]
    exact ⟨hvalue, by simp⟩
  refine ⟨trimmed_normal _ _, (trimmed_toInt _ _).trans ?_⟩
  have hloop := shiftLeftLoop_exact (Nat.mod_lt bits (by decide : 0 < 32)) value.limbs
    (show (0 : UInt32).toNat < 2 ^ (bits % 32) from Nat.two_pow_pos _)
  have hbits : base ^ (bits / 32) * 2 ^ (bits % 32) = 2 ^ bits := by
    rw [show base = 2 ^ 32 from rfl, ← pow_mul, ← pow_add, Nat.div_add_mod]
  rw [valueOf_append, valueOf_replicate, hloop, length_replicate, UInt32.toNat_zero, zero_add, zero_add,
    ← mul_assoc, hbits]
  unfold toInt magnitude
  split_ifs <;> push_cast <;> ring

theorem shiftRightLoop_exact (hshift : shift < 32) : ∀ limbs : Limbs,
    valueOf (shiftRightLoop shift limbs) = valueOf limbs / 2 ^ shift
  | [] => by simp [shiftRightLoop]
  | [limb] => by
    have hlimb := toNat_lt limb
    rw [shiftRightLoop, shiftRightLoop, valueOf_cons, valueOf_cons, valueOf_nil, ofNat_toNat,
      Nat.shiftRight_eq_div_pow, Nat.mod_eq_of_lt (lt_of_le_of_lt (Nat.div_le_self _ _) hlimb), mul_zero,
      add_zero, add_zero]
  | limb :: above :: limbs => by
    have hlimb := toNat_lt limb
    have hpow := two_pow_split hshift
    have hpos := Nat.two_pow_pos shift
    have hkept : (UInt32.ofNat (limb.toNat >>> shift)).toNat = limb.toNat / 2 ^ shift := by
      rw [ofNat_toNat, Nat.shiftRight_eq_div_pow]
      exact Nat.mod_eq_of_lt (lt_of_le_of_lt (Nat.div_le_self _ _) hlimb)
    have hsmall : limb.toNat / 2 ^ shift < 2 ^ (32 - shift) :=
      Nat.div_lt_of_lt_mul (by rw [hpow]; exact hlimb)
    -- The low bits of the limb above come to the top.
    have hfilled : (if shift ≠ 0 then UInt32.ofNat (limb.toNat >>> shift) ||| UInt32.ofNat (above.toNat <<< (32 - shift))
        else UInt32.ofNat (limb.toNat >>> shift)).toNat =
          limb.toNat / 2 ^ shift + 2 ^ (32 - shift) * (above.toNat % 2 ^ shift) := by
      by_cases hzero : shift = 0
      · subst hzero
        rw [if_neg (by simp), hkept, pow_zero, Nat.mod_one, mul_zero, add_zero]
      have hmoved : (UInt32.ofNat (above.toNat <<< (32 - shift))).toNat =
          2 ^ (32 - shift) * (above.toNat % 2 ^ shift) := by
        rw [ofNat_toNat, Nat.shiftLeft_eq, mul_comm, ← hpow, mul_comm (2 ^ shift), Nat.mul_mod_mul_left]
      rw [if_pos hzero, UInt32.toNat_or, hkept, hmoved, Nat.lor_comm, ← Nat.two_pow_add_eq_or_of_lt hsmall,
        add_comm]
    have hrest := shiftRightLoop_exact hshift (above :: limbs)
    have hmod : (above.toNat + 4294967296 * valueOf limbs) % 2 ^ shift = above.toNat % 2 ^ shift := by
      rw [← hpow, mul_assoc, Nat.add_mul_mod_self_left]
    have hdiv := Nat.mod_add_div (above.toNat + 4294967296 * valueOf limbs) (2 ^ shift)
    rw [hmod] at hdiv
    rw [valueOf_cons, base_eq] at hrest
    rw [shiftRightLoop, valueOf_cons, hfilled, hrest, valueOf_cons, valueOf_cons, base_eq]
    generalize above.toNat + 4294967296 * valueOf limbs = high at *
    have hsplit : limb.toNat + 4294967296 * high =
        limb.toNat + 2 ^ shift * (2 ^ (32 - shift) * (above.toNat % 2 ^ shift) + 4294967296 * (high / 2 ^ shift)) := by
      calc limb.toNat + 4294967296 * high
          = limb.toNat + 4294967296 * (above.toNat % 2 ^ shift + 2 ^ shift * (high / 2 ^ shift)) := by rw [hdiv]
        _ = limb.toNat + (2 ^ shift * 2 ^ (32 - shift) * (above.toNat % 2 ^ shift) +
              2 ^ shift * (4294967296 * (high / 2 ^ shift))) := by
            rw [hpow]
            ring
        _ = _ := by ring
    rw [hsplit, Nat.add_mul_div_left _ _ hpos, add_assoc]

theorem shiftRight_exact (value : BigInt) (bits : Nat) :
    Normal (shiftRight value bits) ∧ toInt (shiftRight value bits) = Int.tdiv (toInt value) (2 ^ bits) := by
  have hbits : base ^ (bits / 32) * 2 ^ (bits % 32) = 2 ^ bits := by
    rw [show base = 2 ^ 32 from rfl, ← pow_mul, ← pow_add, Nat.div_add_mod]
  have hsign : Int.tdiv (toInt value) (2 ^ bits) =
      if value.negative then -((magnitude value / 2 ^ bits : Nat) : Int) else (magnitude value / 2 ^ bits : Nat) := by
    unfold toInt
    split_ifs
    · rw [Int.neg_tdiv, Int.tdiv_eq_ediv_of_nonneg (Int.natCast_nonneg _)]
      norm_cast
    · rw [Int.tdiv_eq_ediv_of_nonneg (Int.natCast_nonneg _)]
      norm_cast
  unfold shiftRight
  rw [hsign]
  split
  · rename_i hall
    have hlt : magnitude value < 2 ^ bits := by
      have hpow : base ^ value.limbs.length ≤ base ^ (bits / 32) := Nat.pow_le_pow_right (by decide) hall
      have hpos := Nat.two_pow_pos (bits % 32)
      rw [← hbits]
      exact lt_of_lt_of_le (valueOf_lt value.limbs) (hpow.trans (Nat.le_mul_of_pos_right _ hpos))
    rw [Nat.div_eq_of_lt hlt]
    exact ⟨⟨fun h => absurd rfl h, fun _ => rfl⟩, by simp [toInt, magnitude, zero]⟩
  refine ⟨trimmed_normal _ _, (trimmed_toInt _ _).trans ?_⟩
  have hdrop : valueOf (value.limbs.drop (bits / 32)) = magnitude value / base ^ (bits / 32) := by
    have hsplit := valueOf_append (value.limbs.take (bits / 32)) (value.limbs.drop (bits / 32))
    rw [take_append_drop, length_take_of_le (by omega)] at hsplit
    have hlow := valueOf_lt (value.limbs.take (bits / 32))
    rw [length_take_of_le (by omega)] at hlow
    rw [magnitude, hsplit, Nat.add_mul_div_left _ _ (Nat.pow_pos (by decide)), Nat.div_eq_of_lt hlow, zero_add]
  rw [shiftRightLoop_exact (Nat.mod_lt bits (by decide)), hdrop, Nat.div_div_eq_div_mul, hbits]

theorem and_top_eq_zero {probe : Nat} (h : probe < 2 ^ 32) : probe &&& 2147483648 = 0 ↔ probe < 2 ^ 31 := by
  rw [show (2147483648 : Nat) = 2 ^ 31 from rfl, Nat.and_two_pow, Nat.testBit_eq_decide_div_mod_eq]
  by_cases hlt : probe < 2 ^ 31
  · have hdiv : probe / 2 ^ 31 % 2 = 0 := by omega
    rw [hdiv]
    exact iff_of_true (by decide) hlt
  have hdiv : probe / 2 ^ 31 % 2 = 1 := by omega
  rw [hdiv]
  exact iff_of_false (by decide) hlt

theorem leadingZerosLoop_exact : ∀ turns probe count : Nat, probe < 2 ^ 32 → 2 ^ 31 ≤ probe * 2 ^ turns →
    ∃ k ≤ turns, leadingZerosLoop (turns + 1) probe count = .ok (count + k) ∧ 2 ^ 31 ≤ probe * 2 ^ k ∧
      probe * 2 ^ k < 2 ^ 32
  | turns, probe, count, hprobe, henough => by
    unfold leadingZerosLoop
    by_cases hlow : probe < 2 ^ 31
    · rw [if_pos ((and_top_eq_zero hprobe).mpr hlow)]
      have hdouble : probe <<< 1 = probe * 2 := Nat.shiftLeft_eq probe 1
      match turns with
      | 0 => omega
      | turns + 1 =>
        have hnext : 2 ^ 31 ≤ probe * 2 * 2 ^ turns := by
          rw [mul_assoc, ← pow_succ']
          exact henough
        obtain ⟨k, hk, hloop, hge, hlt⟩ := leadingZerosLoop_exact turns (probe * 2) (count + 1)
          (by omega) hnext
        rw [hdouble, if_pos (by omega), hloop]
        have hstep : probe * 2 ^ (k + 1) = probe * 2 * 2 ^ k := by ring
        refine ⟨k + 1, by omega, by rw [add_assoc, add_comm 1], ?_, ?_⟩
        · rw [hstep]
          exact hge
        · rw [hstep]
          exact hlt
    · rw [if_neg fun hzero => hlow ((and_top_eq_zero hprobe).mp hzero)]
      exact ⟨0, Nat.zero_le _, rfl, by omega, by omega⟩

/-- The number of zeros above the highest bit of a limb that is not zero. -/
theorem leadingZeros_exact {limb : UInt32} (h : limb ≠ 0) :
    ∃ k ≤ 31, leadingZeros limb = .ok k ∧ 2 ^ 31 ≤ limb.toNat * 2 ^ k ∧ limb.toNat * 2 ^ k < 2 ^ 32 := by
  have hpos : 1 ≤ limb.toNat := by
    by_contra hzero
    exact h (UInt32.toNat_inj.mp (show limb.toNat = 0 by omega))
  obtain ⟨k, hk, hloop, hge, hlt⟩ := leadingZerosLoop_exact 31 limb.toNat 0 (toNat_lt limb)
    (Nat.le_mul_of_pos_left _ hpos)
  rw [zero_add] at hloop
  exact ⟨k, hk, hloop, hge, hlt⟩

theorem valueOf_top :
    valueOf limbs = valueOf limbs.dropLast + base ^ (limbs.length - 1) * (limbs.getLast h).toNat := by
  have hsplit := valueOf_append limbs.dropLast [limbs.getLast h]
  rwa [dropLast_append_getLast h, valueOf_cons, valueOf_nil, mul_zero, add_zero, length_dropLast]
    at hsplit

theorem size_of_top {k : Nat} (hk : k ≤ 31) (hge : 2 ^ 31 ≤ (limbs.getLast h).toNat * 2 ^ k)
    (hlt : (limbs.getLast h).toNat * 2 ^ k < 2 ^ 32) :
    Nat.size (valueOf limbs) = limbs.length * 32 - k := by
  have hlength : 1 ≤ limbs.length := length_pos_iff.mpr h
  have hvalue := valueOf_top h
  have hlow := valueOf_lt limbs.dropLast
  rw [length_dropLast] at hlow
  generalize (limbs.getLast h).toNat = top at *
  generalize valueOf limbs.dropLast = low at *
  have hbase : base ^ (limbs.length - 1) = 2 ^ (32 * (limbs.length - 1)) := by
    rw [show base = 2 ^ 32 from rfl, ← pow_mul]
  have hsplit : 2 ^ (limbs.length * 32 - k - 1) * 2 ^ k = 2 ^ (32 * (limbs.length - 1)) * 2 ^ 31 := by
    rw [← pow_add, ← pow_add]
    congr 1
    omega
  have hsplit' : 2 ^ (limbs.length * 32 - k) * 2 ^ k = 2 ^ (32 * (limbs.length - 1)) * 2 ^ 32 := by
    rw [← pow_add, ← pow_add]
    congr 1
    omega
  have hpos := Nat.two_pow_pos k
  refine le_antisymm (Nat.size_le.mpr ?_) ?_
  · -- One more at the top would still be within 32 bits.
    have htop : (top + 1) * 2 ^ k ≤ 2 ^ 32 := by
      have hroom : 2 ^ 32 = 2 ^ (32 - k) * 2 ^ k := by
        rw [← pow_add]
        congr 1
        omega
      rw [hroom] at hlt ⊢
      exact Nat.mul_le_mul_right _ (Nat.lt_of_mul_lt_mul_right hlt)
    refine Nat.lt_of_mul_lt_mul_right (a := 2 ^ k) ?_
    rw [hsplit', hvalue, ← hbase]
    calc (low + base ^ (limbs.length - 1) * top) * 2 ^ k
        < (base ^ (limbs.length - 1) + base ^ (limbs.length - 1) * top) * 2 ^ k :=
          Nat.mul_lt_mul_of_pos_right (Nat.add_lt_add_right hlow _) hpos
      _ = base ^ (limbs.length - 1) * ((top + 1) * 2 ^ k) := by ring
      _ ≤ base ^ (limbs.length - 1) * 2 ^ 32 := Nat.mul_le_mul_left _ htop
  have hone : limbs.length * 32 - k - 1 < Nat.size (valueOf limbs) := by
    refine Nat.lt_size.mpr (Nat.le_of_mul_le_mul_right ?_ hpos)
    rw [hsplit, hvalue, ← hbase]
    calc base ^ (limbs.length - 1) * 2 ^ 31
        ≤ base ^ (limbs.length - 1) * (top * 2 ^ k) := Nat.mul_le_mul_left _ hge
      _ = base ^ (limbs.length - 1) * top * 2 ^ k := by ring
      _ ≤ (low + base ^ (limbs.length - 1) * top) * 2 ^ k := Nat.mul_le_mul_right _ (Nat.le_add_left _ _)
  omega

/-- **The length in bits is exact** where the bits of all limbs can be counted, and else a panic. -/
theorem bitLength_exact (h : Normal value) (width : Nat) :
    bitLength width value = if value.limbs ≠ [] ∧ 2 ^ width ≤ value.limbs.length * 32 then .error "integer overflow"
      else .ok (Nat.size (magnitude value)) := by
  unfold bitLength
  by_cases hnil : value.limbs = []
  · rw [if_pos (isZero_iff.mpr hnil), if_neg fun hand => hand.1 hnil, magnitude, hnil]
    rfl
  rw [if_neg fun hzero => hnil (isZero_iff.mp hzero)]
  unfold checkedSize
  split
  · rename_i hfits
    have htop := h.top hnil
    obtain ⟨k, hk, hzeros, hge, hlt⟩ := leadingZeros_exact htop
    have hlength : 1 ≤ value.limbs.length := length_pos_iff.mpr hnil
    rw [if_neg fun hand => Nat.not_le_of_lt hfits hand.2,
      getLastD_eq_getLast?, getLast?_eq_some_getLast hnil, Option.getD_some, magnitude,
      size_of_top hnil hk hge hlt]
    simp only [bind, Except.bind, hzeros]
    rw [if_pos (by omega)]
    rfl
  · rename_i hfits
    rw [if_pos ⟨hnil, Nat.le_of_not_lt hfits⟩]
    rfl

/-- **The arithmetic is exact**, in normal form and without a panic, but for the length in bits of a
value whose limbs have more bits than a `usize` counts. -/
theorem arithmetic_exact {a b : BigInt} (ha : Normal a) (hb : Normal b) :
    Gives (add a b) (toInt a + toInt b) ∧ Gives (subtract a b) (toInt a - toInt b) ∧
      Gives (multiply a b) (toInt a * toInt b) ∧
      (∀ bits, Normal (shiftLeft a bits) ∧ toInt (shiftLeft a bits) = toInt a * 2 ^ bits) ∧
      (∀ bits, Normal (shiftRight a bits) ∧ toInt (shiftRight a bits) = Int.tdiv (toInt a) (2 ^ bits)) ∧
      compare a b = order (toInt a) (toInt b) ∧
      (Normal (negate a) ∧ toInt (negate a) = -toInt a) ∧
      (∀ value, Normal (fromU64 value) ∧ toInt (fromU64 value) = value.toNat) ∧
      (∀ value, Normal (fromI64 value) ∧ toInt (fromI64 value) = value.toInt) ∧
      toU64 a = .ok (fitsU64 (toInt a)) ∧
      ∀ width, bitLength width a = if a.limbs ≠ [] ∧ 2 ^ width ≤ a.limbs.length * 32 then .error "integer overflow"
        else .ok (Nat.size (toInt a).natAbs) := by
  have habs : (toInt a).natAbs = magnitude a := by
    unfold toInt
    split_ifs <;> omega
  rw [habs]
  exact ⟨add_exact ha hb, subtract_exact ha hb, multiply_exact a b, shiftLeft_exact a ha, shiftRight_exact a,
    compare_exact ha hb, negate_exact ha, fromU64_exact, fromI64_exact, toU64_exact ha, bitLength_exact ha⟩

theorem arithmetic_exact_mixed : Gives (add ⟨[0, 1], true⟩ ⟨[7], false⟩) (-4294967296 + 7) :=
  (arithmetic_exact (a := ⟨[0, 1], true⟩) (b := ⟨[7], false⟩) ⟨by decide, by decide⟩ ⟨by decide, by decide⟩).1

/-- A value of 512 MiB, whose bits are one too many for 32 bits. -/
def hugeValue : BigInt := ⟨List.replicate (2 ^ 27) 1, false⟩

theorem hugeValue_length : hugeValue.limbs.length = 2 ^ 27 := length_replicate

theorem hugeValue_normal : Normal hugeValue := by
  refine ⟨fun h => ?_, fun _ => rfl⟩
  rw [eq_of_mem_replicate (getLast_mem h)]
  decide

theorem hugeValue_bits : bitLength 32 hugeValue = .error "integer overflow" := by
  have hlength := hugeValue_length
  have hne : hugeValue.limbs ≠ [] := ne_nil_of_length_pos (by omega)
  exact (bitLength_exact hugeValue_normal 32).trans (if_pos ⟨hne, by omega⟩)

theorem bitLength_huge : Normal hugeValue ∧ bitLength 32 hugeValue = .error "integer overflow" :=
  ⟨hugeValue_normal, hugeValue_bits⟩

end Dyn.Big
