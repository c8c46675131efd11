import Dyn.Big.DivisionRuns

/-!
# std/math/big: division, divisors and powers

Division in terms of the integers that the values stand for, and what rests on it: the residue, the
greatest common divisor and the power by a modulus.
-/

namespace Dyn.Big

open Mem (Panic)
open Strings (valueOf base valueOf_nil valueOf_cons valueOf_lt)

/-- **The division by one limb is exact**: the rest stays below the divisor. -/
theorem divideSmall_exact {divisor : Nat} (hpos : 0 < divisor) (hlt : divisor < 4294967296) : ∀ limbs : Limbs,
    ∃ quotient rest, divideSmall divisor limbs = .ok (quotient, rest) ∧
      valueOf quotient * divisor + rest = valueOf limbs ∧ rest < divisor
  | [] => ⟨[], 0, rfl, by simp, hpos⟩
  | limb :: limbs => by
    obtain ⟨quotient, rest, hrun, hvalue, hless⟩ := divideSmall_exact hpos hlt limbs
    have hlimb := toNat_lt limb
    have hcurrent : (rest * 4294967296 + limb.toNat) / divisor < 4294967296 := by
      refine Nat.div_lt_of_lt_mul ?_
      calc rest * 4294967296 + limb.toNat < (rest + 1) * 4294967296 := by omega
        _ ≤ divisor * 4294967296 := Nat.mul_le_mul_right _ hless
    have hdiv := Nat.div_add_mod (rest * 4294967296 + limb.toNat) divisor
    refine ⟨UInt32.ofNat ((rest * 4294967296 + limb.toNat) / divisor) :: quotient,
      (rest * 4294967296 + limb.toNat) % divisor, ?_, ?_, Nat.mod_lt _ hpos⟩
    · simp only [divideSmall, hrun, joined_exact (show rest < 4294967296 by omega) hlimb, quotientRest_exact hpos,
        bind, Except.bind, pure, Except.pure]
    · rw [valueOf_cons, valueOf_cons, ofNat_toNat, Nat.mod_eq_of_lt hcurrent, base_eq, ← hvalue]
      linear_combination hdiv

theorem signed_tdiv (p q : Bool) (m n : Nat) :
    Int.tdiv (if p then -(m : Int) else m) (if q then -(n : Int) else n) =
      if (p != q) then -((m / n : Nat) : Int) else (m / n : Nat) := by
  cases p <;> cases q <;> simp

theorem signed_tmod (p q : Bool) (m n : Nat) :
    Int.tmod (if p then -(m : Int) else m) (if q then -(n : Int) else n) =
      if p then -((m % n : Nat) : Int) else (m % n : Nat) := by
  cases p <;> cases q <;> simp [← Int.ofNat_tmod]

/-- A division with the truncated quotient and its remainder. -/
structure Divides (m n : Int) (division : Division) : Prop where
  ok : division.ok = true
  quotient : Normal division.quotient
  remainder : Normal division.remainder
  quotient_eq : toInt division.quotient = Int.tdiv m n
  remainder_eq : toInt division.remainder = Int.tmod m n

variable {a b : BigInt}

theorem divides_trimmed {quotient remainder : Limbs}
    (hvalue : valueOf quotient * magnitude b + valueOf remainder = magnitude a)
    (hless : valueOf remainder < magnitude b) : Divides (toInt a) (toInt b)
      ⟨trimmed quotient (a.negative != b.negative), trimmed remainder a.negative, true⟩ := by
  have hpos : 0 < magnitude b := by omega
  have hdiv : magnitude a / magnitude b = valueOf quotient := by
    rw [← hvalue, mul_comm, Nat.mul_add_div hpos, Nat.div_eq_of_lt hless, add_zero]
  have hmod : magnitude a % magnitude b = valueOf remainder := by
    rw [← hvalue, mul_comm, Nat.mul_add_mod, Nat.mod_eq_of_lt hless]
  refine ⟨rfl, trimmed_normal _ _, trimmed_normal _ _, (trimmed_toInt _ _).trans ?_, (trimmed_toInt _ _).trans ?_⟩
  · unfold toInt
    rw [signed_tdiv, hdiv]
  · unfold toInt
    rw [signed_tmod, hmod]

variable {value modulus exponent : BigInt}

theorem toInt_eq_zero (h : Normal value) : toInt value = 0 ↔ value.limbs = [] := by
  rw [← h.magnitude_eq_zero]
  unfold toInt
  split_ifs <;> omega

theorem isZero_false (h : Normal value) (hne : toInt value ≠ 0) : isZero value = false := by
  rw [Bool.eq_false_iff]
  exact fun hzero => hne ((toInt_eq_zero h).mpr (isZero_iff.mp hzero))

theorem divide_exact (ha : Normal a) (hb : Normal b) (hne : toInt b ≠ 0) :
    ∃ division, divide a b = .ok division ∧ Divides (toInt a) (toInt b) division := by
  have hnil : b.limbs ≠ [] := fun h => hne ((toInt_eq_zero hb).mpr h)
  have hlength : 1 ≤ b.limbs.length := List.length_pos_iff.mpr hnil
  unfold divide
  rw [isZero_false hb hne, if_neg (by decide), compareMagnitude_exact ha.holds hb.holds]
  by_cases hless : magnitude a < magnitude b
  · -- The dividend is the remainder.
    rw [if_pos (by unfold Strings.sign; rw [if_pos hless]; decide)]
    have htdiv : Int.tdiv (toInt a) (toInt b) = 0 := by
      unfold toInt
      rw [signed_tdiv, Nat.div_eq_of_lt hless]
      split_ifs <;> rfl
    have htmod : Int.tmod (toInt a) (toInt b) = toInt a := by
      unfold toInt
      rw [signed_tmod, Nat.mod_eq_of_lt hless]
    exact ⟨_, rfl, rfl, ⟨fun h => absurd rfl h, fun _ => rfl⟩, ha, htdiv.symm, htmod.symm⟩
  rw [if_neg (by unfold Strings.sign; split_ifs <;> decide)]
  have hlonger : b.limbs.length ≤ a.limbs.length := Holds.length_mono hb.holds ha.holds (Nat.le_of_not_lt hless)
  simp only [checkedSub_of_le hlonger, bind, Except.bind]
  split_ifs with hone
  · obtain ⟨limb, hlimb⟩ := List.length_eq_one_iff.mp hone
    have hmagnitude : magnitude b = limb.toNat := by rw [magnitude, hlimb, valueOf_single]
    have hpos : 0 < limb.toNat := by
      rw [← hmagnitude]
      have hiff := hb.magnitude_eq_zero
      exact Nat.pos_of_ne_zero fun hzero => hnil (hiff.mp hzero)
    obtain ⟨quotient, rest, hrun, hvalue, hrest⟩ := divideSmall_exact hpos (toNat_lt limb) a.limbs
    have hindex : index b.limbs 0 = .ok limb.toNat := by rw [hlimb]; rfl
    have hrestvalue : valueOf [UInt32.ofNat rest] = rest := by
      have hlimblt := toNat_lt limb
      rw [valueOf_single, ofNat_toNat, Nat.mod_eq_of_lt (by omega)]
    simp only [hindex, hrun, pure, Except.pure]
    refine ⟨_, rfl, divides_trimmed ?_ ?_⟩
    · rw [hrestvalue, hmagnitude, hvalue]
      rfl
    · rw [hrestvalue, hmagnitude]
      exact hrest
  · obtain ⟨quotient, remainder, hrun, hvalue, hrest⟩ := divideMagnitude_exact (by omega) hb.top hlonger
    simp only [hrun, pure, Except.pure]
    exact ⟨_, rfl, divides_trimmed hvalue hrest⟩

theorem negative_iff (h : Normal value) : value.negative = true ↔ toInt value < 0 := by
  have hzero := h.magnitude_eq_zero
  unfold toInt
  constructor
  · intro hneg
    rw [if_pos hneg]
    have hpos : magnitude value ≠ 0 := by
      intro h0
      have hsign := h.sign (hzero.mp h0)
      rw [hneg] at hsign
      cases hsign
    omega
  intro hlt
  by_contra hneg
  rw [if_neg hneg] at hlt
  omega

theorem reduce_exact (hvalue : Normal value) (hmodulus : Normal modulus) (hpos : 0 < toInt modulus) :
    Gives (reduce value modulus) (toInt value % toInt modulus) := by
  obtain ⟨division, hrun, hdivides⟩ := divide_exact hvalue hmodulus (by omega)
  have hremainder := hdivides.remainder_eq
  have hsum := Int.mul_tdiv_add_tmod (toInt value) (toInt modulus)
  have habs := Int.natAbs_tmod (toInt value) (toInt modulus)
  have hmod := Nat.mod_lt (toInt value).natAbs (by omega : 0 < (toInt modulus).natAbs)
  have hresidue : toInt value % toInt modulus = toInt division.remainder % toInt modulus := by
    conv_lhs => rw [← hsum]
    rw [hremainder, Int.add_comm, Int.add_mul_emod_self_left]
  unfold reduce
  simp only [hrun, bind, Except.bind, pure, Except.pure]
  rw [hresidue]
  split_ifs with hneg
  · have hlt := (negative_iff hdivides.remainder).mp hneg
    rw [← Int.add_emod_right, Int.emod_eq_of_lt (by omega) (by omega)]
    exact add_exact hdivides.remainder hmodulus
  have hge : ¬toInt division.remainder < 0 := fun hlt => hneg ((negative_iff hdivides.remainder).mpr hlt)
  rw [Int.emod_eq_of_lt (by omega) (by omega)]
  exact ⟨_, rfl, hdivides.remainder, rfl⟩

theorem natAbs_toInt (value : BigInt) : (toInt value).natAbs = magnitude value := by
  unfold toInt
  split_ifs <;> omega

theorem absolute_exact (h : Normal value) :
    Normal (absolute value) ∧ toInt (absolute value) = (toInt value).natAbs := by
  refine ⟨⟨h.top, fun _ => rfl⟩, ?_⟩
  rw [natAbs_toInt]
  rfl

/-- **Each turn keeps the divisors**, and there are at most as many turns as the second number says. -/
theorem gcdLoop_exact : ∀ (turns : Nat) {x y : BigInt}, Normal x → Normal y → 0 ≤ toInt x → 0 ≤ toInt y →
    toInt y < turns → ∃ divisor, gcdLoop turns x y = .ok (some divisor) ∧ Normal divisor ∧
      toInt divisor = Int.gcd (toInt x) (toInt y) := by
  intro turns
  induction turns with
  | zero =>
    intro x y _ _ _ hy hlt
    omega
  | succ turns ih =>
    intro x y hx hy hxpos hypos hlt
    unfold gcdLoop
    by_cases hzero : toInt y = 0
    · rw [if_pos (isZero_iff.mpr ((toInt_eq_zero hy).mp hzero)), hzero, Int.gcd_zero_right]
      exact ⟨x, rfl, hx, (Int.natAbs_of_nonneg hxpos).symm⟩
    obtain ⟨division, hrun, hdivides⟩ := divide_exact hx hy hzero
    have hremainder := hdivides.remainder_eq
    rw [Int.tmod_eq_emod_of_nonneg hxpos] at hremainder
    have hge := Int.emod_nonneg (toInt x) hzero
    have hless := Int.emod_lt_of_pos (toInt x) (by omega : 0 < toInt y)
    obtain ⟨divisor, hloop, hnormal, hvalue⟩ := ih hy hdivides.remainder hypos (by omega) (by omega)
    rw [isZero_false hy hzero, if_neg (by decide)]
    simp only [hrun, bind, Except.bind]
    refine ⟨divisor, hloop, hnormal, ?_⟩
    rw [hvalue, hremainder, Int.gcd_comm, Int.gcd_emod]

theorem gcd_exact (ha : Normal a) (hb : Normal b) {turns : Nat} (hturns : (toInt b).natAbs < turns) :
    ∃ divisor, gcd turns a b = .ok (some divisor) ∧ Normal divisor ∧ toInt divisor = Int.gcd (toInt a) (toInt b) := by
  obtain ⟨hnormal, hvalue⟩ := absolute_exact ha
  obtain ⟨hnormal', hvalue'⟩ := absolute_exact hb
  have hgcd := gcdLoop_exact turns hnormal hnormal' (by omega) (by omega) (by omega)
  rw [hvalue, hvalue', Int.gcd_eq_natAbs_gcd_natAbs, Int.natAbs_natCast, Int.natAbs_natCast] at hgcd
  exact hgcd

theorem bit_exact : ∀ (limbs : Limbs) {i : Nat}, i / 32 < limbs.length → ∃ limb, index limbs (i / 32) = .ok limb ∧
    (limb >>> (i % 32) &&& 1 ≠ 0 ↔ (valueOf limbs).testBit i = true)
  | [], i, h => by simp at h
  | limb :: limbs, i, h => by
    have hlimb := toNat_lt limb
    rw [valueOf_cons, show base = 2 ^ 32 from rfl, add_comm, Nat.testBit_two_pow_mul_add _ hlimb]
    by_cases hlow : i < 32
    · rw [Nat.div_eq_of_lt hlow, Nat.mod_eq_of_lt hlow, if_pos hlow]
      refine ⟨limb.toNat, rfl, ?_⟩
      rw [Nat.and_comm, Nat.testBit, bne_iff_ne]
    obtain ⟨j, rfl⟩ : ∃ j, i = j + 32 := ⟨i - 32, by omega⟩
    rw [List.length_cons] at h
    obtain ⟨above, hindex, hbit⟩ := bit_exact limbs (i := j) (by omega)
    rw [if_neg hlow, Nat.add_mod_right, Nat.add_div_right j (by decide), Nat.add_sub_cancel]
    exact ⟨above, hindex, hbit⟩

/-- **The loop has the power by the bits below, and the square for the next bit.** -/
theorem powerLoop_exact (n : Int) (hmodulus : Normal modulus) (hpos : 0 < toInt modulus)
    {bits : Nat} (hbits : bits ≤ exponent.limbs.length * 32) :
    ∀ (left i : Nat) (result current : BigInt), i + left = bits → Normal result → Normal current →
      toInt result = n ^ (magnitude exponent % 2 ^ i) % toInt modulus →
      (i < bits → toInt current = n ^ 2 ^ i % toInt modulus) →
      Gives (powerLoop exponent modulus bits left i result current)
        (n ^ (magnitude exponent % 2 ^ bits) % toInt modulus) := by
  intro left
  induction left with
  | zero =>
    intro i result current hi hresult _ hvalue _
    obtain rfl : i = bits := by omega
    exact ⟨result, rfl, hresult, hvalue⟩
  | succ left ih =>
    intro i result current hi hresult hcurrent hvalue hsquare
    obtain ⟨limb, hindex, hbit⟩ := bit_exact exponent.limbs (i := i) (by omega)
    have hcurrentvalue := hsquare (by omega)
    have hsplit : magnitude exponent % 2 ^ (i + 1) =
        magnitude exponent % 2 ^ i + 2 ^ i * ((magnitude exponent).testBit i).toNat := by
      rw [Nat.mod_pow_succ, Nat.toNat_testBit]
    -- The result takes the bit in.
    have hnext : Gives (if limb >>> (i % 32) &&& 1 ≠ 0 then do
          let product ← multiply result current
          reduce product modulus
        else .ok result) (n ^ (magnitude exponent % 2 ^ (i + 1)) % toInt modulus) := by
      split_ifs with hset
      · obtain ⟨product, hproduct, hnormal, hproductvalue⟩ := multiply_exact result current
        have hreduce := reduce_exact hnormal hmodulus hpos
        simp only [hproduct, bind, Except.bind]
        rw [hsplit, show (magnitude exponent).testBit i = true from hbit.mp hset, pow_add, Int.mul_emod]
        rw [hproductvalue, hvalue, hcurrentvalue] at hreduce
        simpa using hreduce
      have hclear : (magnitude exponent).testBit i = false := by
        rw [Bool.eq_false_iff]
        exact fun htrue => hset (hbit.mpr htrue)
      rw [hsplit, hclear]
      exact ⟨result, rfl, hresult, by simpa using hvalue⟩
    have hdouble : ∃ next, (if i + 1 < bits then do
          let square ← multiply current current
          reduce square modulus
        else .ok current) = .ok next ∧ Normal next ∧ (i + 1 < bits → toInt next = n ^ 2 ^ (i + 1) % toInt modulus) := by
      split_ifs with hmore
      · obtain ⟨square, hproduct, hnormal, hproductvalue⟩ := multiply_exact current current
        obtain ⟨next, hrun, hnext, hnextvalue⟩ := reduce_exact hnormal hmodulus hpos
        simp only [hproduct, bind, Except.bind]
        refine ⟨next, hrun, hnext, fun _ => ?_⟩
        rw [hnextvalue, hproductvalue, hcurrentvalue, ← Int.mul_emod, ← pow_add, pow_succ, Nat.mul_two]
      · exact ⟨current, rfl, hcurrent, fun h => absurd h hmore⟩
    obtain ⟨result', hrun, hnormal, hvalue'⟩ := hnext
    obtain ⟨current', hrun', hnormal', hvalue''⟩ := hdouble
    unfold powerLoop
    simp only [bind, Except.bind] at hrun hrun'
    simp only [hindex, hrun, hrun', bind, Except.bind]
    exact ih (i + 1) result' current' (by omega) hnormal hnormal' hvalue' hvalue''

theorem fromU64_one : Normal (fromU64 1) ∧ toInt (fromU64 1) = 1 := fromU64_exact 1

theorem powerMod_eq (n : BigInt) (hexponent : Normal exponent) (hmodulus : Normal modulus)
    (hpos : 0 < toInt modulus) (hge : 0 ≤ toInt exponent) (width : Nat) :
    powerMod width n exponent modulus = if toInt modulus = 1 then .ok ⟨zero, true⟩ else do
      let current ← reduce n modulus
      let bits ← bitLength width exponent
      let result ← powerLoop exponent modulus bits bits 0 (fromU64 1) current
      return ⟨result, true⟩ := by
  have hmodulusneg : modulus.negative = false := by
    rw [Bool.eq_false_iff]
    intro hneg
    have hlt := (negative_iff hmodulus).mp hneg
    omega
  have hexponentneg : exponent.negative = false := by
    rw [Bool.eq_false_iff]
    intro hneg
    have hlt := (negative_iff hexponent).mp hneg
    omega
  obtain ⟨hone, honevalue⟩ := fromU64_one
  have hequal : equal modulus (fromU64 1) = true ↔ toInt modulus = 1 := by
    unfold equal
    rw [decide_eq_true_iff, compare_exact hmodulus hone, honevalue]
    unfold order
    split_ifs <;> omega
  unfold powerMod
  rw [hmodulusneg, isZero_false hmodulus (by omega), hexponentneg, if_neg (by decide)]
  split_ifs with htrivial
  · rw [if_pos (hequal.mpr htrivial)]
  · rw [if_neg fun h => htrivial (hequal.mp h)]

/-- **The power by a positive modulus**, for an exponent that is not negative and whose bits can be counted. -/
theorem powerMod_exact {n : BigInt} (hn : Normal n) (hexponent : Normal exponent)
    (hmodulus : Normal modulus) (hpos : 0 < toInt modulus) (hge : 0 ≤ toInt exponent) {width : Nat}
    (hwidth : exponent.limbs.length * 32 < 2 ^ width) :
    ∃ value, powerMod width n exponent modulus = .ok ⟨value, true⟩ ∧
      Normal value ∧ toInt value = toInt n ^ (toInt exponent).toNat % toInt modulus := by
  have hnat : (toInt exponent).toNat = magnitude exponent := by
    have habs := natAbs_toInt exponent
    omega
  rw [powerMod_eq n hexponent hmodulus hpos hge]
  split_ifs with htrivial
  · rw [htrivial, Int.emod_one]
    exact ⟨zero, rfl, ⟨fun h => absurd rfl h, fun _ => rfl⟩, rfl⟩
  obtain ⟨current, hreduce, hcurrent, hcurrentvalue⟩ := reduce_exact hn hmodulus hpos
  have hbits := bitLength_exact hexponent width
  rw [if_neg fun hand => Nat.not_le_of_lt hwidth hand.2] at hbits
  have hsize : Nat.size (magnitude exponent) ≤ exponent.limbs.length * 32 := by
    rw [Nat.size_le, mul_comm, pow_mul]
    exact valueOf_lt exponent.limbs
  obtain ⟨hone, honevalue⟩ := fromU64_one
  obtain ⟨value, hrun, hvalue, hpower⟩ := powerLoop_exact (toInt n) hmodulus hpos hsize _ 0
    (fromU64 1) current (zero_add _) hone hcurrent
    (by rw [honevalue, pow_zero, Nat.mod_one, pow_zero, Int.emod_eq_of_lt (by decide) (by omega)])
    (fun _ => by rw [hcurrentvalue, pow_zero, pow_one])
  simp only [hreduce, hbits, hrun, bind, Except.bind, pure, Except.pure]
  rw [Nat.mod_eq_of_lt (Nat.lt_size_self _)] at hpower
  rw [hnat]
  exact ⟨value, rfl, hvalue, hpower⟩

theorem powerMod_panics {n : BigInt} (hn : Normal n) (hexponent : Normal exponent)
    (hmodulus : Normal modulus) (hgt : 1 < toInt modulus) (hge : 0 ≤ toInt exponent) {width : Nat}
    {panic : Panic} (hbits : bitLength width exponent = .error panic) :
    powerMod width n exponent modulus = .error panic := by
  obtain ⟨current, hreduce, -, -⟩ := reduce_exact hn hmodulus (by omega)
  rw [powerMod_eq n hexponent hmodulus (by omega) hge, if_neg (by omega)]
  simp only [hreduce, hbits, bind, Except.bind]

/-- **Division is exact**, and so are the divisor and the power that rest on it, without a panic; the
exponent's bits are counted in a `usize`, and make it panic if they are too many. -/
theorem division_exact {a b : BigInt} (ha : Normal a) (hb : Normal b) :
    (toInt b ≠ 0 → ∃ quotient remainder, divide a b = .ok ⟨quotient, remainder, true⟩ ∧ Normal quotient ∧
      Normal remainder ∧ toInt a = toInt quotient * toInt b + toInt remainder ∧
      (toInt remainder).natAbs < (toInt b).natAbs ∧
      (toInt remainder = 0 ∨ (toInt remainder).sign = (toInt a).sign)) ∧
      (2 ≤ b.limbs.length → b.limbs.length ≤ a.limbs.length → ∃ quotient remainder,
        divideMagnitude a.limbs b.limbs (List.replicate (a.limbs.length - b.limbs.length + 1) 0) =
          .ok (quotient, remainder) ∧
        valueOf quotient * magnitude b + valueOf remainder = magnitude a ∧ valueOf remainder < magnitude b) ∧
      (∀ turns, (toInt b).natAbs < turns → ∃ divisor, gcd turns a b = .ok (some divisor) ∧ Normal divisor ∧
        toInt divisor = Int.gcd (toInt a) (toInt b)) ∧
      ∀ {exponent modulus : BigInt}, Normal exponent → Normal modulus → 0 < toInt modulus → 0 ≤ toInt exponent →
        ∀ width, (exponent.limbs.length * 32 < 2 ^ width → ∃ value,
          powerMod width a exponent modulus = .ok ⟨value, true⟩ ∧ Normal value ∧
          toInt value = toInt a ^ (toInt exponent).toNat % toInt modulus ∧
          0 ≤ toInt value ∧ toInt value < toInt modulus) ∧
          (2 ^ width ≤ exponent.limbs.length * 32 → 1 < toInt modulus →
            powerMod width a exponent modulus = .error "integer overflow") := by
  refine ⟨fun hne => ?_, fun hlimbs hlength => divideMagnitude_exact hlimbs hb.top hlength,
    fun turns hturns => gcd_exact ha hb hturns, ?_⟩
  · obtain ⟨⟨quotient, remainder, ok⟩, hrun, hok, hquotient, hremainder, hquotientvalue, hremaindervalue⟩ :=
      divide_exact ha hb hne
    obtain rfl : ok = true := hok
    refine ⟨quotient, remainder, hrun, hquotient, hremainder, ?_, ?_, ?_⟩
    · rw [hquotientvalue, hremaindervalue, Int.tdiv_mul_add_tmod]
    · rw [hremaindervalue, Int.natAbs_tmod]
      exact Nat.mod_lt _ (by omega)
    rw [hremaindervalue, Int.sign_tmod]
    by_cases hdvd : toInt b ∣ toInt a
    · exact .inl (Int.tmod_eq_zero_of_dvd hdvd)
    · exact .inr (if_neg hdvd)
  intro exponent modulus hexponent hmodulus hpos hge width
  refine ⟨fun hwidth => ?_, fun hwidth hgt => ?_⟩
  swap
  · have hne : exponent.limbs ≠ [] := List.ne_nil_of_length_pos (by have := Nat.two_pow_pos width; omega)
    exact powerMod_panics ha hexponent hmodulus hgt hge
      ((bitLength_exact hexponent width).trans (if_pos ⟨hne, hwidth⟩))
  obtain ⟨value, hrun, hvalue, hpower⟩ := powerMod_exact ha hexponent hmodulus hpos hge hwidth
  refine ⟨value, hrun, hvalue, hpower, ?_, ?_⟩
  · rw [hpower]
    exact Int.emod_nonneg _ (by omega)
  · rw [hpower]
    exact Int.emod_lt_of_pos _ hpos

/-- The corrected estimate is one too large here, and the divisor is added back. -/
theorem division_exact_addBack : ∃ quotient remainder,
    divide ⟨[0, 0, 2147483648, 2147483647], false⟩ ⟨[1, 0, 2147483648], true⟩ = .ok ⟨quotient, remainder, true⟩ ∧
      Normal quotient ∧ Normal remainder ∧
      toInt ⟨[0, 0, 2147483648, 2147483647], false⟩ =
        toInt quotient * toInt ⟨[1, 0, 2147483648], true⟩ + toInt remainder ∧
      (toInt remainder).natAbs < (toInt ⟨[1, 0, 2147483648], true⟩).natAbs ∧
      (toInt remainder = 0 ∨ (toInt remainder).sign = (toInt ⟨[0, 0, 2147483648, 2147483647], false⟩).sign) :=
  (division_exact (a := ⟨[0, 0, 2147483648, 2147483647], false⟩) (b := ⟨[1, 0, 2147483648], true⟩)
    ⟨by decide, by decide⟩ ⟨by decide, by decide⟩).1 (by decide)

/-- The power counts the bits of its exponent, which can be too many for 32 bits. -/
theorem powerMod_huge : Normal ⟨[2], false⟩ ∧ Normal hugeValue ∧ Normal ⟨[3], false⟩ ∧
    powerMod 32 ⟨[2], false⟩ hugeValue ⟨[3], false⟩ = .error "integer overflow" := by
  have htwo : Normal ⟨[2], false⟩ := ⟨by decide, by decide⟩
  have hthree : Normal ⟨[3], false⟩ := ⟨by decide, by decide⟩
  have hge : 0 ≤ toInt hugeValue := Int.natCast_nonneg (magnitude hugeValue)
  exact ⟨htwo, hugeValue_normal, hthree, powerMod_panics htwo hugeValue_normal hthree (by decide) hge hugeValue_bits⟩

end Dyn.Big
