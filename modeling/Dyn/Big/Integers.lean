import Dyn.Strings.DecimalInteger

/-!
# std/math/big: integers

The limbs are least significant first, and every operation writes its result to an array of its own.
Pushing an array to the arena gives zeroed limbs; arithmetic on `u64` and `usize` panics where the
result has no place, and so does a shift to the left that loses a bit.  A loop over an array is a
recursion over the limbs that are left.
-/

namespace Dyn.Big

open Mem (Panic)
open Binary (checked)
open Strings (trimTop)

abbrev Limbs := List UInt32

/-- An integer of the library; its invariant is `Normal`. -/
structure BigInt where
  limbs : Limbs
  negative : Bool
deriving DecidableEq, Repr

def lower (n : Nat) : UInt32 := UInt32.ofNat (n &&& 4294967295)

def trimmed (limbs : Limbs) (negative : Bool) : BigInt :=
  ⟨trimTop limbs, negative && trimTop limbs ≠ []⟩

def zero : BigInt := ⟨[], false⟩

def fromU64 (value : BitVec 64) : BigInt :=
  trimmed [lower value.toNat, UInt32.ofNat (value.toNat >>> 32)] false

def fromI64 (value : BitVec 64) : BigInt :=
  let magnitude := if value.slt 0 then 0 - value else value
  { fromU64 magnitude with negative := value.slt 0 }

def isZero (value : BigInt) : Bool := value.limbs.length = 0

structure U64Result where
  value : Nat
  ok : Bool
deriving DecidableEq, Repr

/-- The loop of `toU64`, from the limb at index `i` on. -/
def toU64Loop : Nat → Nat → Limbs → Except Panic Nat
  | _, result, [] => .ok result
  | i, result, limb :: limbs => do
      let shifted ← checked (limb.toNat <<< (32 * i))
      toU64Loop (i + 1) (result ||| shifted) limbs

/-- The value as a `u64`; `ok` is false when it is negative or does not fit. -/
def toU64 (value : BigInt) : Except Panic U64Result :=
  if value.negative || decide (value.limbs.length > 2) then .ok ⟨0, false⟩
  else do
    let result ← toU64Loop 0 0 value.limbs
    return ⟨result, true⟩

def negate (value : BigInt) : BigInt := ⟨value.limbs, !value.negative && value.limbs.length ≠ 0⟩

def absolute (value : BigInt) : BigInt := ⟨value.limbs, false⟩

/-- The loop that compares limbs of equal length, the highest first. -/
def compareLoop : Limbs → Limbs → Int
  | x :: a, y :: b => if x ≠ y then (if x < y then -1 else 1) else compareLoop a b
  | _, _ => 0

def compareMagnitude (a b : Limbs) : Int :=
  if a.length ≠ b.length then (if a.length < b.length then -1 else 1)
  else compareLoop a.reverse b.reverse

def compare (a b : BigInt) : Int :=
  if a.negative ≠ b.negative then (if a.negative then -1 else 1)
  else if a.negative then -compareMagnitude a.limbs b.limbs
  else compareMagnitude a.limbs b.limbs

def equal (a b : BigInt) : Bool := compare a b = 0

/-- A word, and the next limb of an array added to it where the array has one. -/
def addLimb (n : Nat) : Limbs → Except Panic Nat
  | [] => .ok n
  | y :: _ => checked (n + y.toNat)

/-- The loop of `addMagnitude`; the last carry becomes the limb at the top. -/
def addLoop : Nat → Limbs → Limbs → Except Panic Limbs
  | carry, [], _ => .ok [UInt32.ofNat carry]
  | carry, x :: long, short => do
      let sum ← checked (x.toNat + carry)
      let sum ← addLimb sum short
      let rest ← addLoop (sum >>> 32) long short.tail
      return lower sum :: rest

def addMagnitude (a b : Limbs) : Except Panic Limbs :=
  if b.length > a.length then addLoop 0 b a else addLoop 0 a b

/-- The loop of `subtractMagnitude`. -/
def subtractLoop : Nat → Limbs → Limbs → Except Panic Limbs
  | _, [], _ => .ok []
  | borrow, x :: a, b => do
      let subtrahend ← addLimb borrow b
      if x.toNat ≥ subtrahend then do
        let rest ← subtractLoop 0 a b.tail
        return UInt32.ofNat (x.toNat - subtrahend) :: rest
      else do
        let rest ← subtractLoop 1 a b.tail
        return UInt32.ofNat (x.toNat + 4294967296 - subtrahend) :: rest

def subtractMagnitude (a b : Limbs) : Except Panic Limbs := subtractLoop 0 a b

def add (a b : BigInt) : Except Panic BigInt :=
  if a.negative = b.negative then do
    let limbs ← addMagnitude a.limbs b.limbs
    return trimmed limbs a.negative
  else if compareMagnitude a.limbs b.limbs ≥ 0 then do
    let limbs ← subtractMagnitude a.limbs b.limbs
    return trimmed limbs a.negative
  else do
    let limbs ← subtractMagnitude b.limbs a.limbs
    return trimmed limbs b.negative

def subtract (a b : BigInt) : Except Panic BigInt := add a (negate b)

/-- The inner loop of `multiply`: the limbs of the result from `i` on, with a limb of the left factor
times the right one added; the last carry is stored behind them. -/
def multiplyRow (left : Nat) : Nat → Limbs → Limbs → Except Panic Limbs
  | carry, y :: b, r :: result => do
      let product ← checked (left * y.toNat)
      let sum ← checked (product + r.toNat)
      let sum ← checked (sum + carry)
      let rest ← multiplyRow left (sum >>> 32) b result
      return lower sum :: rest
  | carry, [], _ :: result => .ok (UInt32.ofNat carry :: result)
  | _, _, [] => .error "index out of bounds"

/-- The outer loop of `multiply`, over the limbs of the left factor that are left. -/
def multiplyRows (b : Limbs) : Limbs → Limbs → Except Panic Limbs
  | [], result => .ok result
  | x :: a, result => do
      match ← multiplyRow x.toNat 0 b result with
      | [] => .error "index out of bounds"
      | limb :: result =>
          let rest ← multiplyRows b a result
          return limb :: rest

def multiply (a b : BigInt) : Except Panic BigInt :=
  if isZero a || isZero b then .ok zero
  else do
    let result ← multiplyRows b.limbs a.limbs (List.replicate (a.limbs.length + b.limbs.length) 0)
    return trimmed result (a.negative != b.negative)

/-- The high bits of a limb that a shift to the left by `shift` moves to the next one. -/
def spill (limb : UInt32) (shift : Nat) : UInt32 :=
  if shift ≠ 0 then UInt32.ofNat (limb.toNat >>> (32 - shift)) else 0

/-- The loop of `shiftLeft`, with what the limb before has moved to the next place. -/
def shiftLeftLoop (shift : Nat) : UInt32 → Limbs → Limbs
  | spilled, [] => [spilled]
  | spilled, limb :: limbs =>
      (spilled ||| UInt32.ofNat (limb.toNat <<< shift)) :: shiftLeftLoop shift (spill limb shift) limbs

def shiftLeft (value : BigInt) (bits : Nat) : BigInt :=
  if isZero value then value
  else trimmed (List.replicate (bits / 32) 0 ++ shiftLeftLoop (bits % 32) 0 value.limbs) value.negative

/-- The loop of `shiftRight`, from the limb on that becomes the lowest one. -/
def shiftRightLoop (shift : Nat) : Limbs → Limbs
  | [] => []
  | limb :: limbs =>
      let kept := UInt32.ofNat (limb.toNat >>> shift)
      let filled := match limbs with
        | [] => kept
        | above :: _ => if shift ≠ 0 then kept ||| UInt32.ofNat (above.toNat <<< (32 - shift)) else kept
      filled :: shiftRightLoop shift limbs

def shiftRight (value : BigInt) (bits : Nat) : BigInt :=
  if bits / 32 ≥ value.limbs.length then zero
  else trimmed (shiftRightLoop (bits % 32) (value.limbs.drop (bits / 32))) value.negative

/-- The loop of `leadingZeros`; a word of 32 bits that is not zero needs at most 32 turns. -/
def leadingZerosLoop : Nat → Nat → Nat → Except Panic Nat
  | 0, _, _ => .error "no bit is set"
  | turns + 1, probe, count =>
      if probe &&& 2147483648 = 0 then
        if probe <<< 1 < 2 ^ 32 then leadingZerosLoop turns (probe <<< 1) (count + 1)
        else .error "integer overflow"
      else .ok count

def leadingZeros (value : UInt32) : Except Panic Nat := leadingZerosLoop 32 value.toNat 0

/-- Arithmetic on `usize`, of the given number of bits. -/
def checkedSize (width n : Nat) : Except Panic Nat :=
  if n < 2 ^ width then .ok n else .error "integer overflow"

def bitLength (width : Nat) (value : BigInt) : Except Panic Nat :=
  if isZero value then .ok 0
  else do
    let bits ← checkedSize width (value.limbs.length * 32)
    let zeros ← leadingZeros (value.limbs.getLastD 0)
    if zeros ≤ bits then return bits - zeros else .error "integer overflow"

/-- No zero limb at the top, and zero is not negative. -/
structure Normal (value : BigInt) : Prop where
  top : ∀ h : value.limbs ≠ [], value.limbs.getLast h ≠ 0
  sign : value.limbs = [] → value.negative = false

def magnitude (value : BigInt) : Nat := Strings.valueOf value.limbs

def toInt (value : BigInt) : Int := if value.negative then -(magnitude value : Int) else magnitude value

/-- The operation goes through and gives the normal form of an integer. -/
def Gives (result : Except Panic BigInt) (n : Int) : Prop := ∃ value, result = .ok value ∧ Normal value ∧ toInt value = n

end Dyn.Big
