import Dyn.Big.Integers

/-!
# std/math/big: division

`divideMagnitude` is the long division by a divisor of at least two limbs.  Dividend and divisor are
shifted until the divisor's highest bit is set; each digit of the quotient is estimated from the limbs
at the top, corrected, and once more when the subtraction of its multiple goes below zero.  The limbs
from the current place on are the window that a turn works on.
-/

namespace Dyn.Big

open Mem (Panic)
open Binary (checked)

def checkedSub (a b : Nat) : Except Panic Nat := if b ≤ a then .ok (a - b) else .error "integer overflow"

/-- Arithmetic on `i64`. -/
def checkedInt (n : Int) : Except Panic Int :=
  if -2 ^ 63 ≤ n ∧ n < 2 ^ 63 then .ok n else .error "integer overflow"

def index (limbs : Limbs) (i : Nat) : Except Panic Nat :=
  match limbs[i]? with
  | some limb => .ok limb.toNat
  | none => .error "index out of bounds"

def store (limbs : Limbs) (i : Nat) (limb : UInt32) : Except Panic Limbs :=
  if i < limbs.length then .ok (limbs.set i limb) else .error "index out of bounds"

def joined (high low : Nat) : Except Panic Nat := do
  let shifted ← checked (high <<< 32)
  return shifted ||| low

def quotientRest (n d : Nat) : Except Panic (Nat × Nat) :=
  if d = 0 then .error "division by zero" else .ok (n / d, n % d)

/-- The test whether an estimate is too large. -/
def tooLarge (next low estimate rest : Nat) : Except Panic Bool :=
  if estimate > 4294967295 then .ok true
  else do
    let product ← checked (estimate * next)
    let limit ← joined rest low
    return decide (product > limit)

/-- The loop that corrects an estimate, at most twice. -/
def correctLoop (top next low : Nat) : Nat → Nat → Nat → Except Panic Nat
  | 0, _, _ => .error "a third correction"
  | turns + 1, estimate, rest => do
      if ← tooLarge next low estimate rest then
        let estimate ← checkedSub estimate 1
        let rest ← checked (rest + top)
        if rest > 4294967295 then return estimate else correctLoop top next low turns estimate rest
      else return estimate

/-- The lower 32 bits of an `i64`. -/
def wrapped (difference : Int) : UInt32 := UInt32.ofNat (difference % 4294967296).toNat

/-- The loop that subtracts a multiple of the divisor from the window, and the limb behind it; whether
the difference is below zero. -/
def subtractRow (estimate : Nat) : Int → Nat → Limbs → Limbs → Except Panic (Limbs × Bool)
  | borrow, carry, v :: divisor, d :: window => do
      let product ← checked (estimate * v.toNat)
      let product ← checked (product + carry)
      let difference ← checkedInt (d.toNat - borrow)
      let difference ← checkedInt (difference - (lower product).toNat)
      let (rest, negative) ← subtractRow estimate (if difference < 0 then 1 else 0) (product >>> 32) divisor window
      return (wrapped difference :: rest, negative)
  | borrow, carry, [], d :: above => do
      let difference ← checkedInt (d.toNat - borrow)
      let difference ← checkedInt (difference - carry)
      return (wrapped difference :: above, decide (difference < 0))
  | _, _, _, [] => .error "index out of bounds"

def addBackRow : Nat → Limbs → Limbs → Except Panic Limbs
  | carry, v :: divisor, d :: window => do
      let sum ← checked (d.toNat + v.toNat)
      let sum ← checked (sum + carry)
      let rest ← addBackRow (sum >>> 32) divisor window
      return lower sum :: rest
  | carry, [], d :: above => .ok (lower (d.toNat + carry) :: above)
  | _, _, [] => .error "index out of bounds"

/-- The digit for a window, and what is left of the window. -/
def divideDigit (divisor : Limbs) (top next high middle low : Nat) (window : Limbs) : Except Panic (UInt32 × Limbs) := do
  let numerator ← joined high middle
  let (estimate, rest) ← quotientRest numerator top
  let estimate ← correctLoop top next low 2 estimate rest
  let (window, negative) ← subtractRow estimate 0 0 divisor window
  if negative then
    let estimate ← checkedSub estimate 1
    let window ← addBackRow 0 divisor window
    return (UInt32.ofNat estimate, window)
  else return (UInt32.ofNat estimate, window)

/-- The loop over the digits, from the highest one down. -/
def divideLoop (divisor : Limbs) (top next : Nat) : Nat → Limbs → Limbs → Except Panic (Limbs × Limbs)
  | 0, dividend, quotient => .ok (dividend, quotient)
  | j + 1, dividend, quotient => do
      let n := divisor.length
      let high ← index dividend (j + n)
      let middle ← index dividend (j + n - 1)
      let low ← index dividend (j + n - 2)
      let (digit, window) ← divideDigit divisor top next high middle low (dividend.drop j)
      let quotient ← store quotient j digit
      divideLoop divisor top next j (dividend.take j ++ window) quotient

/-- Quotient and remainder, stored to the arrays given; the limb that a shift of the divisor spills is
not stored. -/
def divideMagnitude (a b quotient : Limbs) : Except Panic (Limbs × Limbs) := do
  let n := b.length
  let last ← checkedSub n 1
  let highest ← index b last
  let shift ← leadingZeros (UInt32.ofNat highest)
  let m ← checkedSub a.length n
  let divisor := (shiftLeftLoop shift 0 b).take n
  let dividend := shiftLeftLoop shift 0 a
  let second ← checkedSub n 2
  let top ← index divisor last
  let next ← index divisor second
  let (dividend, quotient) ← divideLoop divisor top next (m + 1) dividend quotient
  return (quotient, (shiftRightLoop shift (dividend.take (n + 1))).take n)

structure Division where
  quotient : BigInt
  remainder : BigInt
  ok : Bool
deriving DecidableEq, Repr

/-- The loop for a divisor of one limb, from the highest limb down. -/
def divideSmall (divisor : Nat) : Limbs → Except Panic (Limbs × Nat)
  | [] => .ok ([], 0)
  | limb :: limbs => do
      let (quotient, rest) ← divideSmall divisor limbs
      let current ← joined rest limb.toNat
      let (digit, rest) ← quotientRest current divisor
      return (UInt32.ofNat digit :: quotient, rest)

/-- Truncated division: the quotient rounds toward zero and the remainder has the sign of `a`. -/
def divide (a b : BigInt) : Except Panic Division :=
  if isZero b then .ok ⟨zero, zero, false⟩
  else if compareMagnitude a.limbs b.limbs < 0 then .ok ⟨zero, a, true⟩
  else do
    let count ← checkedSub a.limbs.length b.limbs.length
    let quotient : Limbs := List.replicate (count + 1) 0
    if b.limbs.length = 1 then
      let divisor ← index b.limbs 0
      let (quotient, rest) ← divideSmall divisor a.limbs
      return ⟨trimmed quotient (a.negative != b.negative), trimmed [UInt32.ofNat rest] a.negative, true⟩
    else
      let (quotient, remainder) ← divideMagnitude a.limbs b.limbs quotient
      return ⟨trimmed quotient (a.negative != b.negative), trimmed remainder a.negative, true⟩

/-- The remainder of a value by a positive modulus that is not negative. -/
def reduce (value modulus : BigInt) : Except Panic BigInt := do
  let divided ← divide value modulus
  if divided.remainder.negative then add divided.remainder modulus else return divided.remainder

structure ModResult where
  value : BigInt
  ok : Bool
deriving DecidableEq, Repr

/-- The loop of `powerMod`, from the bit at index `i` on, with the number of bits left. -/
def powerLoop (exponent modulus : BigInt) (bits : Nat) : Nat → Nat → BigInt → BigInt → Except Panic BigInt
  | 0, _, result, _ => .ok result
  | left + 1, i, result, current => do
      let limb ← index exponent.limbs (i / 32)
      let result ← (if limb >>> (i % 32) &&& 1 ≠ 0 then do
          let product ← multiply result current
          reduce product modulus
        else .ok result)
      let current ← (if i + 1 < bits then do
          let square ← multiply current current
          reduce square modulus
        else .ok current)
      powerLoop exponent modulus bits left (i + 1) result current

def powerMod (width : Nat) (base exponent modulus : BigInt) : Except Panic ModResult :=
  if modulus.negative || isZero modulus || exponent.negative then .ok ⟨zero, false⟩
  else
    let one := fromU64 1
    if equal modulus one then .ok ⟨zero, true⟩
    else do
      let current ← reduce base modulus
      let bits ← bitLength width exponent
      let result ← powerLoop exponent modulus bits bits 0 one current
      return ⟨result, true⟩

/-- The loop of `gcd`, as long as it has turns left. -/
def gcdLoop : Nat → BigInt → BigInt → Except Panic (Option BigInt)
  | 0, _, _ => .ok none
  | turns + 1, x, y =>
      if isZero y then .ok (some x)
      else do
        let divided ← divide x y
        gcdLoop turns y divided.remainder

def gcd (turns : Nat) (a b : BigInt) : Except Panic (Option BigInt) := gcdLoop turns (absolute a) (absolute b)

end Dyn.Big
