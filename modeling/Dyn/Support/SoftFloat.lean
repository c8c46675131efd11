import Dyn.Mem.Arena

/-!
# runtime/support: soft float

The integer code that stands for the floating-point operations of user code where the target
has none.  Numbers are raw bits; arithmetic, shift distances and left shifts are checked as the
language checks them, and casts are modulo.
-/

namespace Dyn.SoftFloat

open Mem (Panic)

/-- The result of arithmetic on `u64` that does not subtract. -/
def u64 (n : Nat) : Except Panic Nat :=
  if n < 2 ^ 64 then .ok n else .error "integer overflow"

def subtract (a b : Nat) : Except Panic Nat :=
  if b ≤ a then .ok (a - b) else .error "integer overflow"

/-- The result of arithmetic on `i64`. -/
def i64 (n : Int) : Except Panic Int :=
  if -2 ^ 63 ≤ n ∧ n < 2 ^ 63 then .ok n else .error "integer overflow"

def shiftLeft (value distance : Nat) : Except Panic Nat :=
  if distance < 64 then u64 (value <<< distance) else .error "invalid shift"

def shiftRight (value distance : Nat) : Except Panic Nat :=
  if distance < 64 then .ok (value >>> distance) else .error "invalid shift"

/-- `#cast(u64, n)` and `#bitcast(u64, n)`. -/
def castU64 (n : Int) : Nat := (n % 2 ^ 64).toNat

/-- `#cast(i64, n)`. -/
def castI64 (n : Nat) : Int := if n < 2 ^ 63 then n else n - 2 ^ 64

structure SoftFormat where
  fraction : Nat
  bias : Int
  sign : Nat
  infinity : Nat
deriving DecidableEq, Repr

inductive SoftKind where
  | finite
  | infinite
  | nan
deriving DecidableEq, Repr

structure SoftParts where
  sign : Nat
  exponent : Int
  significand : Nat
  kind : SoftKind := .finite
deriving DecidableEq, Repr

def softFormat (wide : Bool) : SoftFormat :=
  if wide then
    { fraction := 52, bias := 1023, sign := 0x8000000000000000, infinity := 0x7ff0000000000000 }
  else { fraction := 23, bias := 127, sign := 0x80000000, infinity := 0x7f800000 }

def softNan (f : SoftFormat) : Except Panic Nat := do
  let places ← subtract f.fraction 1
  let quiet ← shiftLeft 1 places
  return f.infinity ||| quiet

/-- The loop that doubles a significand until it has its hidden bit.  A significand that is not
zero has it after fewer rounds than it has bits. -/
def raise (hidden : Nat) : Nat → Nat → Int → Except Panic (Nat × Int)
  | 0, _, _ => .error "out of fuel"
  | fuel + 1, significand, exponent =>
      if significand < hidden then do
        let significand ← shiftLeft significand 1
        let exponent ← i64 (exponent - 1)
        raise hidden fuel significand exponent
      else .ok (significand, exponent)

def softUnpack (bits : Nat) (f : SoftFormat) : Except Panic SoftParts := do
  let hidden ← shiftLeft 1 f.fraction
  let mask ← subtract hidden 1
  let fraction := bits &&& mask
  let field ← shiftRight (bits &&& f.infinity) f.fraction
  let sign := bits &&& f.sign
  let exponent ← i64 (1 - f.bias)
  if bits &&& f.infinity = f.infinity then
    if fraction ≠ 0 then
      return { sign := sign, exponent := exponent, significand := fraction, kind := .nan }
    else return { sign := sign, exponent := exponent, significand := fraction, kind := .infinite }
  else if field ≠ 0 then do
    let exponent ← i64 (castI64 field - f.bias)
    return { sign := sign, exponent := exponent, significand := fraction ||| hidden }
  else if fraction ≠ 0 then do
    let (significand, exponent) ← raise hidden 64 fraction exponent
    return { sign := sign, exponent := exponent, significand := significand }
  else return { sign := sign, exponent := exponent, significand := fraction }

/-- A right shift with all discarded bits in bit zero. -/
def softJam (value distance : Nat) : Except Panic Nat :=
  if distance = 0 then .ok value
  else if distance ≥ 64 then .ok (if value ≠ 0 then 1 else 0)
  else do
    let bit ← shiftLeft 1 distance
    let mask ← subtract bit 1
    let discarded := value &&& mask
    let result ← shiftRight value distance
    return if discarded ≠ 0 then result ||| 1 else result

/-- The loop of `soft_pack` that halves a significand until it has at most its hidden bit. -/
def lower (hidden : Nat) : Nat → Nat → Int → Except Panic (Nat × Int)
  | 0, _, _ => .error "out of fuel"
  | fuel + 1, s, e => do
      let bound ← shiftLeft hidden 1
      if s ≥ bound then do
        let s ← softJam s 1
        let e ← i64 (e + 1)
        lower hidden fuel s e
      else return (s, e)

/-- The subnormal floor of `soft_pack`. -/
def underflow (minimum : Int) (s : Nat) (e : Int) : Except Panic (Nat × Int) :=
  if e < minimum then do
    let distance ← i64 (minimum - e)
    let s ← softJam s (castU64 distance)
    return (s, minimum)
  else .ok (s, e)

/-- The significand without its three rounding bits, rounded. -/
def roundTail (s : Nat) : Except Panic Nat := do
  let tail := s &&& 7
  let rounded ← shiftRight s 3
  if tail > 4 ∨ tail = 4 ∧ rounded &&& 1 ≠ 0 then u64 (rounded + 1) else return rounded

/-- The carry of the rounding into the next exponent. -/
def carryOut (rounded : Nat) (e : Int) (f : SoftFormat) : Except Panic (Nat × Int) := do
  let places ← u64 (f.fraction + 1)
  let bound ← shiftLeft 1 places
  if rounded ≥ bound then do
    let rounded ← shiftRight rounded 1
    let e ← i64 (e + 1)
    return (rounded, e)
  else return (rounded, e)

def exponentField (rounded : Nat) (e : Int) (f : SoftFormat) : Except Panic Nat := do
  let hidden ← shiftLeft 1 f.fraction
  if rounded ≥ hidden then do
    let biased ← i64 (e + f.bias)
    shiftLeft (castU64 biased) f.fraction
  else return 0

/-- The end of `soft_pack`, behind its subnormal floor. -/
def encode (sign : Nat) (e : Int) (s : Nat) (f : SoftFormat) : Except Panic Nat := do
  let rounded ← roundTail s
  let (rounded, e) ← carryOut rounded e f
  if e > f.bias then return sign ||| f.infinity
  else do
    let field ← exponentField rounded e f
    let hidden ← shiftLeft 1 f.fraction
    let mask ← subtract hidden 1
    return sign ||| field ||| (rounded &&& mask)

/-- The pattern of a significand with three rounding bits. -/
def softPack (sign : Nat) (exponent : Int) (sig : Nat) (f : SoftFormat) : Except Panic Nat :=
  if sig = 0 then .ok sign
  else do
    let places ← u64 (f.fraction + 3)
    let hidden ← shiftLeft 1 places
    let (s, e) ← lower hidden 64 sig exponent
    let (s, e) ← raise hidden 64 s e
    let minimum ← i64 (1 - f.bias)
    let (s, e) ← underflow minimum s e
    encode sign e s f

/-- The sum of two numbers that are not zero, of which `x` is not the smaller one. -/
def addParts (x y : SoftParts) (f : SoftFormat) : Except Panic Nat := do
  let left ← shiftLeft x.significand 3
  let small ← shiftLeft y.significand 3
  let distance ← i64 (x.exponent - y.exponent)
  let right ← softJam small (castU64 distance)
  if x.sign = y.sign then do
    let sum ← u64 (left + right)
    softPack x.sign x.exponent sum f
  else if left = right then return 0
  else do
    let difference ← subtract left right
    softPack x.sign x.exponent difference f

def softAdd (a b : Nat) (f : SoftFormat) : Except Panic Nat := do
  let x ← softUnpack a f
  let y ← softUnpack b f
  if x.kind = .nan ∨ y.kind = .nan then softNan f
  else if x.kind = .infinite then
    if y.kind = .infinite ∧ x.sign ≠ y.sign then softNan f else return x.sign ||| f.infinity
  else if y.kind = .infinite then return y.sign ||| f.infinity
  else if x.significand = 0 ∧ y.significand = 0 then return x.sign &&& y.sign
  else if x.significand = 0 then return b
  else if y.significand = 0 then return a
  else if x.exponent < y.exponent ∨ x.exponent = y.exponent ∧ x.significand < y.significand then
    addParts y x f
  else addParts x y f

/-- The product of two 64-bit numbers, as its low and its high half. -/
def limbs (x y : Nat) : Except Panic (Nat × Nat) := do
  let top ← shiftRight x 32
  let top' ← shiftRight y 32
  let low ← u64 ((x &&& 0xffffffff) * (y &&& 0xffffffff))
  let cross1 ← u64 (top * (y &&& 0xffffffff))
  let cross2 ← u64 (top' * (x &&& 0xffffffff))
  let carry ← shiftRight low 32
  let middle ← u64 (carry + (cross1 &&& 0xffffffff))
  let middle ← u64 (middle + (cross2 &&& 0xffffffff))
  let high ← u64 (top * top')
  let carry1 ← shiftRight cross1 32
  let high ← u64 (high + carry1)
  let carry2 ← shiftRight cross2 32
  let high ← u64 (high + carry2)
  let carry ← shiftRight middle 32
  let high ← u64 (high + carry)
  let middle ← shiftLeft (middle &&& 0xffffffff) 32
  return ((low &&& 0xffffffff) ||| middle, high)

/-- The product of two numbers that are not zero. -/
def mulParts (sign : Nat) (x y : SoftParts) (f : SoftFormat) : Except Panic Nat := do
  let (low, high) ← limbs x.significand y.significand
  let shift ← subtract f.fraction 3
  let below ← shiftRight low shift
  let places ← subtract 64 shift
  let above ← shiftLeft high places
  let bit ← shiftLeft 1 shift
  let mask ← subtract bit 1
  let sig := if low &&& mask ≠ 0 then (below ||| above) ||| 1 else below ||| above
  let exponent ← i64 (x.exponent + y.exponent)
  softPack sign exponent sig f

def softMul (a b : Nat) (f : SoftFormat) : Except Panic Nat := do
  let x ← softUnpack a f
  let y ← softUnpack b f
  let sign := x.sign ^^^ y.sign
  if x.kind = .nan ∨ y.kind = .nan then softNan f
  else if x.kind = .infinite ∨ y.kind = .infinite then
    if x.kind = .finite ∧ x.significand = 0 ∨ y.kind = .finite ∧ y.significand = 0 then softNan f
    else return sign ||| f.infinity
  else if x.significand = 0 ∨ y.significand = 0 then return sign
  else mulParts sign x y f

/-- The rounds of the division, with quotient and remainder so far. -/
def divLoop (divisor : Nat) : Nat → Nat → Nat → Except Panic (Nat × Nat)
  | 0, quotient, remainder => .ok (quotient, remainder)
  | n + 1, quotient, remainder => do
      let quotient ← shiftLeft quotient 1
      if remainder ≥ divisor then do
        let remainder ← subtract remainder divisor
        let remainder ← shiftLeft remainder 1
        divLoop divisor n (quotient ||| 1) remainder
      else do
        let remainder ← shiftLeft remainder 1
        divLoop divisor n quotient remainder

/-- The dividend, doubled where it is less than the divisor, and the exponent of the quotient. -/
def dividend (x y : SoftParts) (exponent : Int) : Except Panic (Nat × Int) :=
  if x.significand < y.significand then do
    let remainder ← shiftLeft x.significand 1
    let exponent ← i64 (exponent - 1)
    return (remainder, exponent)
  else .ok (x.significand, exponent)

/-- The quotient of two numbers that are not zero. -/
def divParts (sign : Nat) (x y : SoftParts) (f : SoftFormat) : Except Panic Nat := do
  let exponent ← i64 (x.exponent - y.exponent)
  let (remainder, exponent) ← dividend x y exponent
  let rounds ← u64 (f.fraction + 4)
  let (quotient, remainder) ← divLoop y.significand rounds 0 remainder
  softPack sign exponent (if remainder ≠ 0 then quotient ||| 1 else quotient) f

def softDiv (a b : Nat) (f : SoftFormat) : Except Panic Nat := do
  let x ← softUnpack a f
  let y ← softUnpack b f
  let sign := x.sign ^^^ y.sign
  if x.kind = .nan ∨ y.kind = .nan ∨ x.kind = .infinite ∧ y.kind = .infinite then softNan f
  else if x.kind = .infinite then return sign ||| f.infinity
  else if y.kind = .infinite then return sign
  else if y.significand = 0 then
    if x.significand = 0 then softNan f else return sign ||| f.infinity
  else if x.significand = 0 then return sign
  else divParts sign x y f

/-- One subtraction of the long remainder. -/
def reduce (remainder divisor : Nat) : Except Panic Nat :=
  if remainder ≥ divisor then subtract remainder divisor else .ok remainder

/-- The loop of `soft_rem`; none where the remainder became zero. -/
def remLoop (y : SoftParts) (remainder : Nat) (exponent : Int) :
    Except Panic (Option (Nat × Int)) :=
  if exponent > y.exponent then do
    let remainder ← reduce remainder y.significand
    if remainder = 0 then return none
    else do
      let remainder ← shiftLeft remainder 1
      let _ ← i64 (exponent - 1)
      remLoop y remainder (exponent - 1)
  else .ok (some (remainder, exponent))
termination_by (exponent - y.exponent).toNat

/-- The remainder of two numbers that are not zero, where the exponent of `x` is not less. -/
def remParts (x y : SoftParts) (f : SoftFormat) : Except Panic Nat := do
  match ← remLoop y x.significand x.exponent with
  | none => return x.sign
  | some (remainder, exponent) => do
      let remainder ← reduce remainder y.significand
      let sig ← shiftLeft remainder 3
      softPack x.sign exponent sig f

def softRem (a b : Nat) (f : SoftFormat) : Except Panic Nat := do
  let x ← softUnpack a f
  let y ← softUnpack b f
  if x.kind ≠ .finite ∨ y.kind = .nan ∨ y.kind = .finite ∧ y.significand = 0 then softNan f
  else if y.kind = .infinite ∨ x.significand = 0 then return a
  else if x.exponent < y.exponent then return a
  else remParts x y f

/-- -1 less, 0 equal, 1 greater, 2 unordered. -/
def softCompare (a b : Nat) (f : SoftFormat) : Except Panic Int := do
  let mask ← subtract f.sign 1
  let am := a &&& mask
  let bm := b &&& mask
  if am > f.infinity ∨ bm > f.infinity then return 2
  else if a = b ∨ am = 0 ∧ bm = 0 then return 0
  else
    let negative : Bool := a &&& f.sign ≠ 0
    if negative ≠ decide (b &&& f.sign ≠ 0) then return if negative then -1 else 1
    else return if decide (am < bm) ≠ negative then -1 else 1

/-- A significand of one format, with three rounding bits, as one of the other. -/
def rescale (sig : Nat) (source dest : SoftFormat) : Except Panic Nat :=
  if dest.fraction > source.fraction then do
    let distance ← subtract dest.fraction source.fraction
    shiftLeft sig distance
  else do
    let distance ← subtract source.fraction dest.fraction
    softJam sig distance

def softConvert (a : Nat) (source dest : SoftFormat) : Except Panic Nat := do
  let x ← softUnpack a source
  let sign := if x.sign ≠ 0 then dest.sign else 0
  if x.kind = .nan then softNan dest
  else if x.kind = .infinite then return sign ||| dest.infinity
  else do
    let sig ← shiftLeft x.significand 3
    let sig ← rescale sig source dest
    softPack sign x.exponent sig dest

/-- The loop of `soft_from_integer` that counts the bits above the lowest. -/
def topExponent (top : Nat) (exponent : Int) : Except Panic Int :=
  if top > 1 then do
    let exponent ← i64 (exponent + 1)
    topExponent (top >>> 1) exponent
  else .ok exponent
termination_by top
decreasing_by
  rw [Nat.shiftRight_one]
  omega

/-- An integer as a significand with its leading bit at place `desired`. -/
def alignInteger (magnitude : Nat) (exponent : Int) (desired : Nat) : Except Panic Nat :=
  if castU64 exponent > desired then do
    let distance ← subtract (castU64 exponent) desired
    softJam magnitude distance
  else do
    let distance ← subtract desired (castU64 exponent)
    shiftLeft magnitude distance

def softFromInteger (magnitude : Nat) (negative : Bool) (f : SoftFormat) : Except Panic Nat :=
  if magnitude = 0 then .ok 0
  else do
    let sign := if negative then f.sign else 0
    let exponent ← topExponent magnitude 0
    let desired ← u64 (f.fraction + 3)
    let sig ← alignInteger magnitude exponent desired
    softPack sign exponent sig f

def softFromSigned (a : Int) (f : SoftFormat) : Except Panic Nat :=
  let bits := castU64 a
  if a ≥ 0 then softFromInteger bits false f
  else do
    -- Complement and one more, which does not overflow at the least number.
    let magnitude ← u64 ((bits ^^^ 0xffffffffffffffff) + 1)
    softFromInteger magnitude true f

/-- The integer part of a number from 1 to 2^64. -/
def integerPart (x : SoftParts) (f : SoftFormat) : Except Panic Nat :=
  if castU64 x.exponent > f.fraction then do
    let distance ← subtract (castU64 x.exponent) f.fraction
    shiftLeft x.significand distance
  else do
    let distance ← subtract f.fraction (castU64 x.exponent)
    shiftRight x.significand distance

def softToInteger (a : Nat) (signed : Bool) (f : SoftFormat) : Except Panic Nat := do
  let x ← softUnpack a f
  let invalid := 0x8000000000000000
  if x.kind ≠ .finite then return invalid
  else if x.significand = 0 ∨ x.exponent < 0 then return 0
  else if x.exponent > 63 then return invalid
  else do
    let magnitude ← integerPart x f
    if signed ∧ x.sign = 0 ∧ magnitude ≥ invalid then return invalid
    else if signed ∧ x.sign ≠ 0 ∧ magnitude > invalid then return invalid
    else if ¬ signed ∧ x.sign ≠ 0 then return invalid
    else if x.sign ≠ 0 then u64 ((magnitude ^^^ 0xffffffffffffffff) + 1)
    else return magnitude

end Dyn.SoftFloat
