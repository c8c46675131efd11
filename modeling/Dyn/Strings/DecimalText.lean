import Dyn.Strings.ParseF64

/-!
# Decimal texts, and what the conversion reads from them

`Decimal` is the decimal syntax: a sign, digits with at most one point, and an exponent.
`scan_body` says what the loop over the digits keeps of them (`Kept`): the first 800
significant digits, and of the dropped ones their number and whether they are all zero.
-/

namespace Dyn.Strings

open List
open Mem (Panic)

def digitByte (digit : Fin 10) : UInt8 := 48 + UInt8.ofNat digit

def spellDigits (digits : List (Fin 10)) : List UInt8 := digits.map digitByte

/-- The number that digits spell, behind those of `before`. -/
def numberFrom (before : Nat) (digits : List (Fin 10)) : Nat :=
  digits.foldl (fun n (digit : Fin 10) => n * 10 + digit.val) before

def numberOf (digits : List (Fin 10)) : Nat := numberFrom 0 digits

/-- A sign, which may be missing; `true` is the minus sign. -/
def spellSign : Option Bool → List UInt8
  | none => []
  | some negative => [if negative then 45 else 43]

structure Scaling where
  upper : Bool
  sign : Option Bool
  digits : List (Fin 10)
  nonempty : digits ≠ []

def Scaling.spell (scaling : Scaling) : List UInt8 :=
  (if scaling.upper then 69 else 101) :: (spellSign scaling.sign ++ spellDigits scaling.digits)

def signed (sign : Option Bool) (n : Nat) : Int := if sign = some true then -n else n

def Scaling.power (scaling : Scaling) : Int := signed scaling.sign (numberOf scaling.digits)

structure Digits where
  whole : List (Fin 10)
  point : Bool
  fraction : List (Fin 10)
  fraction_point : point = false → fraction = []

def Digits.spell (digits : Digits) : List UInt8 :=
  spellDigits digits.whole ++ ((if digits.point then [46] else []) ++ spellDigits digits.fraction)

/-- The number that the digits spell without their point. -/
def Digits.number (digits : Digits) : Nat := numberOf (digits.whole ++ digits.fraction)

structure Decimal where
  sign : Option Bool
  digits : Digits
  scaling : Option Scaling
  nonempty : digits.whole ++ digits.fraction ≠ []

def Decimal.spell (decimal : Decimal) : List UInt8 :=
  spellSign decimal.sign ++ (decimal.digits.spell ++ (decimal.scaling.map Scaling.spell).getD [])

def Decimal.power (decimal : Decimal) : Int := (decimal.scaling.map Scaling.power).getD 0

/-- The magnitude of the number that a text spells. -/
def Decimal.magnitude (decimal : Decimal) : ℚ :=
  decimal.digits.number * 10 ^ (decimal.power - decimal.digits.fraction.length)

def Decimal.negative (decimal : Decimal) : Bool := decimal.sign = some true

variable (digit : Fin 10)

theorem digitByte_digit : asciiIsDigit (digitByte digit) = true := by
  revert digit
  decide

theorem digitByte_sub : (digitByte digit - 48).toNat = digit := by
  revert digit
  decide

theorem digitByte_toNat : (digitByte digit).toNat = 48 + digit := by
  revert digit
  decide

theorem digitByte_ne : digitByte digit ≠ 46 ∧ digitByte digit ≠ 45 ∧
    digitByte digit ≠ 43 ∧ digitByte digit ≠ 101 ∧ digitByte digit ≠ 69 := by
  revert digit
  decide

theorem digitByte_eq_zero : digitByte digit = 48 ↔ (digit : Nat) = 0 := by
  revert digit
  decide

theorem exists_digit {byte : UInt8} (h : asciiIsDigit byte = true) :
    ∃ digit, byte = digitByte digit := by
  simp only [asciiIsDigit, Bool.and_eq_true, decide_eq_true_eq, ge_iff_le, UInt8.le_iff_toNat_le]
    at h
  have hlow : 48 ≤ byte.toNat := h.1
  have hhigh : byte.toNat ≤ 57 := h.2
  refine ⟨⟨byte.toNat - 48, by omega⟩, UInt8.toNat_inj.mp ?_⟩
  rw [digitByte_toNat]
  dsimp only
  omega

def NoDigit (text : List UInt8) : Prop := ∀ byte rest, text = byte :: rest → asciiIsDigit byte = false

theorem noDigit_nil : NoDigit [] := nofun

theorem noDigit_cons {byte : UInt8} (rest : List UInt8) (h : asciiIsDigit byte = false) :
    NoDigit (byte :: rest) := by
  intro b r heq
  cases heq
  exact h

theorem exists_digits : ∀ text : List UInt8, ∃ digits rest,
    text = spellDigits digits ++ rest ∧ NoDigit rest
  | [] => ⟨[], [], rfl, noDigit_nil⟩
  | byte :: text => by
    by_cases hdigit : asciiIsDigit byte = true
    · obtain ⟨digit, rfl⟩ := exists_digit hdigit
      obtain ⟨digits, rest, rfl, hrest⟩ := exists_digits text
      exact ⟨digit :: digits, rest, rfl, hrest⟩
    · exact ⟨[], byte :: text, rfl, noDigit_cons text (Bool.eq_false_of_not_eq_true hdigit)⟩

theorem numberFrom_cons (before : Nat) (digit : Fin 10) (digits : List (Fin 10)) :
    numberFrom before (digit :: digits) = numberFrom (before * 10 + digit) digits := rfl

theorem numberOf_append (whole fraction : List (Fin 10)) :
    numberOf (whole ++ fraction) = numberFrom (numberOf whole) fraction := by
  exact foldl_append

theorem checkedI64_of_bounds {n : Int} (h : -2 ^ 63 ≤ n ∧ n < 2 ^ 63) : checkedI64 n = .ok n :=
  if_pos h

/-- The scan holds the number `n` of the kept digits; `k` digits that spell `r` are dropped, and
`fraction` of all digits stand behind the point. -/
structure KeptAs (value count fraction : Nat) (s : Scan) (n k r : Nat) : Prop where
  numerator : Holds s.numerator n
  value : value = n * 10 ^ k + r
  dropped : r < 10 ^ k
  sticky : s.sticky = true ↔ r ≠ 0
  upper : n < 10 ^ s.significant
  lower : 0 < s.significant → 10 ^ (s.significant - 1) ≤ n
  significant : s.significant ≤ 800
  full : 0 < k → s.significant = 800
  shift : s.shift = k - fraction
  digits : s.digits = count
  count : k ≤ count ∧ fraction ≤ count

def Kept (value count fraction : Nat) (s : Scan) : Prop :=
  ∃ n k r, KeptAs value count fraction s n k r

theorem kept_init : Kept 0 0 0 {} :=
  ⟨0, 0, 0, holds_nil, rfl, Nat.one_pos, by simp, Nat.one_pos, by simp, by simp, by simp, rfl, rfl,
    le_rfl, le_rfl⟩

theorem ten_pow_le (k : Nat) : 10 ^ (3 * k) ≤ 2 ^ (10 * k) := by
  rw [pow_mul, pow_mul]
  exact Nat.pow_le_pow_left (by decide) k

theorem limit_eq : limit = 2 ^ (32 * 128) := by
  rw [limit, base, pow_mul]

theorem ten_pow_le_limit {j : Nat} (hj : 10 * j ≤ 32 * 128) : 10 ^ (3 * j) ≤ limit := by
  rw [limit_eq]
  exact le_trans (ten_pow_le j) (Nat.pow_le_pow_right (by decide) hj)

theorem lt_limit_of_digits {n k : Nat} (hk : k ≤ 3 * 267) (h : n < 10 ^ k) : n < limit :=
  lt_of_lt_of_le h (le_trans (Nat.pow_le_pow_right (by decide) hk) (ten_pow_le_limit (by decide)))

theorem digit_factor : ((digitByte digit - 48).toUInt32).toNat = digit := by
  rw [UInt8.toNat_toUInt32, digitByte_sub]

theorem scanDigit_kept {value count fraction : Nat} {s : Scan} (h : Kept value count fraction s)
    (digit : Fin 10) (hcount : count + 1 < 2 ^ 63) :
    ∃ s', scanDigit s (digitByte digit) = .ok s' ∧ s'.fraction = s.fraction ∧
      Kept (value * 10 + digit) (count + 1) (if s.fraction then fraction + 1 else fraction) s' := by
  obtain ⟨n, k, r, h⟩ := h
  have hshift := h.shift
  have hle := h.count
  have hbehind : (if s.fraction then s.shift - 1 else s.shift) =
      k - ((if s.fraction then fraction + 1 else fraction : Nat) : Int) := by
    split_ifs <;> omega
  generalize (if s.fraction then fraction + 1 else fraction) = fraction' at *
  unfold scanDigit
  rw [hbehind, checkedI64_of_bounds (by omega)]
  simp only [bind, Except.bind, pure, Except.pure]
  by_cases hroom : s.significant < 800
  · have hk : k = 0 := by
      by_contra hk
      have := h.full (Nat.pos_of_ne_zero hk)
      omega
    subst hk
    have hr : r = 0 := by
      have := h.dropped
      omega
    subst hr
    have hupper := h.upper
    obtain ⟨out, hout, hholds⟩ := @Holds.multiply s.numerator n h.numerator 10
      (digitByte digit - 48).toUInt32 (lt_limit_of_digits (by omega) hupper)
      (lt_limit_of_digits (Nat.succ_le_succ h.significant) (by
        rw [digit_factor, show (10 : UInt32).toNat = 10 from rfl]
        omega))
    rw [digit_factor, show (10 : UInt32).toNat = 10 from rfl] at hholds
    rw [if_pos hroom, hout]
    refine ⟨_, rfl, rfl, n * 10 + digit, 0, 0, hholds, ?_, Nat.one_pos, h.sticky, ?_, ?_, ?_,
      fun hk => absurd hk (lt_irrefl 0), rfl, ?_, by omega⟩
    · rw [h.value]
      omega
    · dsimp only
      have hpos : 0 < 10 ^ s.significant := Nat.pow_pos (by decide)
      split_ifs with hnonzero
      · omega
      have hzero : s.significant = 0 ∧ (digit : Nat) = 0 := by
        rw [not_or, not_not, digitByte_eq_zero] at hnonzero
        omega
      rw [hzero.1, pow_zero] at hupper ⊢
      omega
    · split_ifs with hnonzero
      · intro _
        rw [Nat.add_sub_cancel]
        rcases Nat.eq_zero_or_pos s.significant with hzero | hpos
        · rw [hzero, pow_zero]
          rcases hnonzero with hne | hpos
          · rw [ne_eq, digitByte_eq_zero] at hne
            omega
          · omega
        have hlower := h.lower hpos
        have hsucc : 10 ^ s.significant = 10 ^ (s.significant - 1) * 10 := by
          rw [← pow_succ]
          congr 1
          omega
        omega
      · intro hpos
        exact absurd (.inr hpos) hnonzero
    · dsimp only
      split_ifs <;> omega
    · rw [h.digits]
  · have hfull : s.significant = 800 := le_antisymm h.significant (Nat.le_of_not_lt hroom)
    rw [if_neg hroom, checkedI64_of_bounds (by omega)]
    refine ⟨_, rfl, rfl, n, k + 1, r * 10 + digit, h.numerator, ?_, ?_, ?_, h.upper, h.lower,
      h.significant, fun _ => hfull, ?_, ?_, by omega⟩
    · rw [h.value, pow_succ]
      ring
    · have := h.dropped
      rw [pow_succ]
      omega
    · have hsticky := h.sticky
      have hzero := digitByte_eq_zero digit
      rw [Bool.or_eq_true, hsticky, bne_iff_ne, ne_eq (digitByte digit), hzero]
      omega
    · push_cast
      ring
    · rw [h.digits]

theorem scanLoop_digits : ∀ (digits : List (Fin 10)) {value count fraction : Nat} {s : Scan},
    Kept value count fraction s → count + digits.length < 2 ^ 63 → ∃ s', s'.fraction = s.fraction ∧
      Kept (numberFrom value digits) (count + digits.length)
        (if s.fraction then fraction + digits.length else fraction) s' ∧
      ∀ rest, scanLoop s (spellDigits digits ++ rest) = scanLoop s' rest
  | [], value, count, fraction, s, h, _ =>
    ⟨s, rfl, by simpa [numberFrom] using h, fun _ => rfl⟩
  | digit :: digits, value, count, fraction, s, h, hcount => by
    rw [length_cons] at hcount
    obtain ⟨s1, hscan, hfraction, hkept⟩ := scanDigit_kept h digit (by omega)
    obtain ⟨s2, hfraction', hkept', hloop⟩ := scanLoop_digits digits hkept (by omega)
    refine ⟨s2, hfraction'.trans hfraction, ?_, fun rest => ?_⟩
    · rw [hfraction] at hkept'
      rw [numberFrom_cons, length_cons]
      convert hkept' using 1
      · omega
      · split_ifs <;> omega
    have hne := (digitByte_ne digit).1
    rw [← hloop rest]
    change scanLoop s (digitByte digit :: (spellDigits digits ++ rest)) = _
    rw [scanLoop, if_neg (fun hc => hne hc.1), if_pos (digitByte_digit digit), hscan]
    rfl

def Behind (digits : Digits) (rest : List UInt8) : Prop :=
  NoDigit rest ∧ (digits.point = false → ∀ tail, rest ≠ 46 :: tail)

variable {rest : List UInt8}

theorem scanLoop_stop {s : Scan} (hrest : NoDigit rest)
    (hpoint : s.fraction = false → ∀ tail, rest ≠ 46 :: tail) :
    scanLoop s rest = .ok (s, rest) := by
  cases rest with
  | nil => rfl
  | cons byte rest =>
    have hbyte := hrest byte rest rfl
    rw [scanLoop, if_neg, if_neg (by rw [hbyte]; exact Bool.false_ne_true)]
    rintro ⟨rfl, hfraction⟩
    exact hpoint (Bool.eq_false_of_not_eq_true hfraction) rest rfl

theorem scan_body (digits : Digits) (hrest : Behind digits rest)
    (hlength : (digits.whole ++ digits.fraction).length < 2 ^ 63) :
    ∃ s, scanLoop {} (digits.spell ++ rest) = .ok (s, rest) ∧
      Kept digits.number (digits.whole ++ digits.fraction).length digits.fraction.length s := by
  rw [length_append] at hlength
  obtain ⟨s1, hfraction, hkept, hloop⟩ := scanLoop_digits digits.whole kept_init (by omega)
  have hfalse : s1.fraction = false := hfraction
  rw [show ({} : Scan).fraction = false from rfl, if_neg Bool.false_ne_true, zero_add] at hkept
  cases hpoint : digits.point with
  | false =>
    have hnil := digits.fraction_point hpoint
    refine ⟨s1, ?_, ?_⟩
    · rw [Digits.spell, hpoint, hnil, append_assoc, hloop]
      exact scanLoop_stop hrest.1 (fun _ => hrest.2 hpoint)
    · rw [Digits.number, hnil, append_nil, length_nil]
      exact hkept
  | true =>
    have hkept1 : Kept (numberOf digits.whole) digits.whole.length 0
        { s1 with fraction := true } := by
      obtain ⟨n, k, r, h⟩ := hkept
      exact ⟨n, k, r, h.1, h.2, h.3, h.4, h.5, h.6, h.7, h.8, h.9, h.10, h.11⟩
    obtain ⟨s2, hfraction2, hkept2, hloop2⟩ :=
      scanLoop_digits digits.fraction hkept1 (by omega)
    refine ⟨s2, ?_, ?_⟩
    · rw [Digits.spell, hpoint, append_assoc, hloop, if_pos rfl, append_assoc,
        singleton_append, scanLoop, if_pos ⟨rfl, by rw [hfalse]; exact Bool.false_ne_true⟩,
        hloop2]
      refine scanLoop_stop hrest.1 (fun hc => ?_)
      rw [hfraction2] at hc
      cases hc
    · rw [Digits.number, numberOf_append, length_append]
      simpa using hkept2

theorem exists_body (text : List UInt8) :
    ∃ (digits : Digits) (rest : List UInt8), text = digits.spell ++ rest ∧ Behind digits rest := by
  obtain ⟨whole, rest, rfl, hrest⟩ := exists_digits text
  by_cases hpoint : ∃ tail, rest = 46 :: tail
  · obtain ⟨tail, rfl⟩ := hpoint
    obtain ⟨fraction, rest, rfl, hbehind⟩ := exists_digits tail
    refine ⟨⟨whole, true, fraction, nofun⟩, rest, ?_, hbehind, nofun⟩
    simp [Digits.spell]
  · refine ⟨⟨whole, false, [], fun _ => rfl⟩, rest, ?_, hrest, fun _ tail heq => hpoint ⟨tail, heq⟩⟩
    simp [Digits.spell, spellDigits]

theorem exponentDigit_spec {cap : Int} {n : Nat} (hcap : 10 ≤ cap) (hcap' : cap < 2 ^ 63)
    (digit : Fin 10) :
    exponentDigit cap (min n cap) (digitByte digit) = .ok (min ((n * 10 + digit : Nat) : Int) cap) := by
  unfold exponentDigit
  simp only [digitByte_sub, checkedI64_of_bounds (show -2 ^ 63 ≤ cap - ((digit : Nat) : Int) ∧ _ by omega),
    bind, Except.bind, pure, Except.pure]
  rw [Int.tdiv_eq_ediv_of_nonneg (by omega)]
  split_ifs with hroom
  · have hmin : min (n : Int) cap = n := by omega
    rw [hmin, checkedI64_of_bounds (by omega)]
    dsimp only
    rw [checkedI64_of_bounds (by omega)]
    congr 1
    omega
  · congr 1
    omega

theorem exponentLoop_spec {cap : Int} (hcap : 10 ≤ cap) (hcap' : cap < 2 ^ 63)
    (hrest : NoDigit rest) : ∀ (digits : List (Fin 10)) (n : Nat),
    exponentLoop cap (min n cap) (spellDigits digits ++ rest) =
      .ok (min (numberFrom n digits : Int) cap, rest)
  | [], n => by
    cases rest with
    | nil => rfl
    | cons byte rest =>
      have hbyte := hrest byte rest rfl
      change exponentLoop cap (min (n : Int) cap) (byte :: rest) = _
      rw [exponentLoop, if_neg (by rw [hbyte]; exact Bool.false_ne_true)]
      rfl
  | digit :: digits, n => by
    change exponentLoop cap (min (n : Int) cap) (digitByte digit :: (spellDigits digits ++ rest)) = _
    rw [exponentLoop, if_pos (digitByte_digit digit), exponentDigit_spec hcap hcap', numberFrom_cons]
    exact exponentLoop_spec hcap hcap' hrest digits _

end Dyn.Strings
