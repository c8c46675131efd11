import Dyn.Strings.DecimalInteger

/-!
# std/strings: parse_f64_into

The conversion of decimal text to binary64.  The result is the pattern found by binary search
among the finite magnitudes, by exact comparison of the decimal number with their values.

Each digit beyond the first 800 significant ones is dropped into one sticky bit.  Arithmetic
on `i64` is checked as the language checks it.
-/

namespace Dyn.Strings

open Mem (Panic)

/-- The result of arithmetic on `i64`. -/
def checkedI64 (n : Int) : Except Panic Int :=
  if -2 ^ 63 ≤ n ∧ n < 2 ^ 63 then .ok n else .error "integer overflow"

def asciiIsDigit (byte : UInt8) : Bool := byte ≥ 48 && byte ≤ 57

/-- What the loop over the digits of `parse_f64_into` keeps. -/
structure Scan where
  numerator : DecimalInteger := []
  significant : Nat := 0
  digits : Nat := 0
  shift : Int := 0
  sticky : Bool := false
  fraction : Bool := false
deriving DecidableEq, Repr

def scanDigit (state : Scan) (byte : UInt8) : Except Panic Scan := do
  let shift ← checkedI64 (if state.fraction then state.shift - 1 else state.shift)
  if state.significant < 800 then do
    let numerator ← decimalMultiply state.numerator 10 (byte - 48).toUInt32
    return { state with
      digits := state.digits + 1
      shift := shift
      numerator := numerator
      significant := if byte ≠ 48 ∨ state.significant > 0 then state.significant + 1
        else state.significant }
  else do
    let shift ← checkedI64 (shift + 1)
    return { state with
      digits := state.digits + 1
      shift := shift
      sticky := state.sticky || byte != 48 }

/-- The loop over digits and point, with the text that it leaves. -/
def scanLoop : Scan → List UInt8 → Except Panic (Scan × List UInt8)
  | state, [] => .ok (state, [])
  | state, byte :: rest =>
      if byte = 46 ∧ ¬ state.fraction then scanLoop { state with fraction := true } rest
      else if asciiIsDigit byte then do
        let state ← scanDigit state byte
        scanLoop state rest
      else .ok (state, byte :: rest)

/-- One digit of the exponent, which stays at `cap` once it exceeds it. -/
def exponentDigit (cap exponent : Int) (byte : UInt8) : Except Panic Int := do
  let digit : Int := (byte - 48).toNat
  let room ← checkedI64 (cap - digit)
  if exponent ≤ room.tdiv 10 then do
    let scaled ← checkedI64 (exponent * 10)
    checkedI64 (scaled + digit)
  else return cap

def exponentLoop (cap : Int) : Int → List UInt8 → Except Panic (Int × List UInt8)
  | exponent, [] => .ok (exponent, [])
  | exponent, byte :: rest =>
      if asciiIsDigit byte then do
        let exponent ← exponentDigit cap exponent byte
        exponentLoop cap exponent rest
      else .ok (exponent, byte :: rest)

/-- The sign at the front of a text: whether it is negative, and the text behind it. -/
def scanSign : List UInt8 → Bool × List UInt8
  | [] => (false, [])
  | byte :: rest =>
      if byte = 45 then (true, rest) else if byte = 43 then (false, rest) else (false, byte :: rest)

structure Exponent where
  negative : Bool := false
  exponent : Int := 0
  rest : List UInt8
deriving DecidableEq, Repr

/-- The exponent behind the digits of a text of the given length; none where it has no digit. -/
def scanExponent (length : Nat) : List UInt8 → Except Panic (Option Exponent)
  | [] => .ok (some { rest := [] })
  | byte :: rest =>
      if byte = 101 ∨ byte = 69 then do
        let start := (scanSign rest).2
        let cap ← checkedI64 (length + 10000)
        let (exponent, left) ← exponentLoop cap 0 start
        return if left.length = start.length then none
          else some { negative := (scanSign rest).1, exponent := exponent, rest := left }
      else .ok (some { rest := byte :: rest })

/-- Multiplies by ten the given number of times. -/
def timesTen : Nat → DecimalInteger → Except Panic DecimalInteger
  | 0, value => .ok value
  | n + 1, value => do
      let value ← decimalMultiply value 10 0
      timesTen n value

/-- The search for the largest pattern that is not above numerator/denominator. -/
def searchLoop (numerator denominator : DecimalInteger) (low high : Nat) : Except Panic Nat :=
  if low < high then do
    let middle := low + (high - low) / 2 + 1
    let order ← decimalCompareBits numerator denominator middle false
    if order ≥ 0 then searchLoop numerator denominator middle high
    else searchLoop numerator denominator low (middle - 1)
  else .ok low
termination_by high - low

def nearestBits (numerator denominator : DecimalInteger) (sticky : Bool) : Except Panic Nat := do
  let low ← searchLoop numerator denominator 0 9218868437227405311
  let comparison ← decimalCompareBits numerator denominator low true
  return if comparison > 0 ∨ comparison = 0 ∧ (sticky ∨ low &&& 1 ≠ 0) then low + 1 else low

/-- The power of ten of the last kept digit, between -2000 and 2000. -/
def scaleShift (shift : Int) (negative : Bool) (exponent : Int) : Except Panic Int :=
  if negative then do
    let least ← checkedI64 (exponent - 2000)
    if shift < least then return -2000 else checkedI64 (shift - exponent)
  else do
    let most ← checkedI64 (2000 - exponent)
    if shift > most then return 2000 else checkedI64 (shift + exponent)

/-- The magnitude of the kept digits, scaled by the given power of ten. -/
def scaledBits (numerator : DecimalInteger) (significant : Nat) (sticky : Bool) (shift : Int) :
    Except Panic Nat := do
  let order ← checkedI64 (shift + significant)
  if order > 309 then return 9218868437227405312
  else if order ≥ -323 then do
    let denominator ← decimalMultiply [] 1 1
    let numerator ← timesTen shift.toNat numerator
    let denominator ← timesTen (-shift).toNat denominator
    nearestBits numerator denominator sticky
  else return 0

def magnitudeBits (state : Scan) (exponent : Exponent) : Except Panic Nat :=
  if state.numerator ≠ [] then do
    let shift ← scaleShift state.shift exponent.negative exponent.exponent
    scaledBits state.numerator state.significant state.sticky shift
  else .ok 0

def withSign (negative : Bool) (bits : Nat) : UInt64 :=
  UInt64.ofNat (if negative then bits ||| 9223372036854775808 else bits)

/-- What `parse_f64_into` returns, and the bits of `output` then. -/
def parseF64Into (text : List UInt8) (output : UInt64) : Except Panic (Bool × UInt64) :=
  if text.length = 0 ∨ text.length > 9223372036854765807 then .ok (false, output)
  else
    let (negative, body) := scanSign text
    if body = [] then .ok (false, output)
    else do
      let (state, rest) ← scanLoop {} body
      if state.digits = 0 then return (false, output)
      else
        match ← scanExponent text.length rest with
        | none => return (false, output)
        | some exponent =>
            if exponent.rest ≠ [] then return (false, output)
            else do
              let bits ← magnitudeBits state exponent
              return (true, withSign negative bits)

end Dyn.Strings
