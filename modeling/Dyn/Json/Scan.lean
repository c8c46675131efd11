import Dyn.Unicode.Utf8

/-!
# std/encoding/json: scanning and validation

A cursor is the part of the source it has yet to read, so `cursor.at` is the length of the
source less that of the cursor.  A function that may fail returns a flag and the cursor where
it stopped.
-/

namespace Dyn.Json

open Unicode

/-- Where a function stopped, if it did not fail. -/
def passed {α : Type} (result : Bool × α) : Option α := if result.1 then some result.2 else none

@[simp] theorem passed_true {α : Type} (a : α) : passed (true, a) = some a := rfl

def whitespace (byte : UInt8) : Bool :=
  byte == 32 || byte == 10 || byte == 13 || byte == 9

def digit (byte : UInt8) : Bool := decide (48 ≤ byte.toNat ∧ byte.toNat ≤ 57)

def hex (byte : UInt8) : Bool :=
  digit byte || decide (97 ≤ byte.toNat ∧ byte.toNat ≤ 102) ||
    decide (65 ≤ byte.toNat ∧ byte.toNat ≤ 70)

/-- The value of a hexadecimal digit, 16 for another byte. -/
def hexValue (byte : UInt8) : Nat :=
  if 48 ≤ byte.toNat ∧ byte.toNat ≤ 57 then byte.toNat - 48
  else if 97 ≤ byte.toNat ∧ byte.toNat ≤ 102 then byte.toNat - 97 + 10
  else if 65 ≤ byte.toNat ∧ byte.toNat ≤ 70 then byte.toNat - 65 + 10
  else 16

/-- The bytes that may follow a backslash, other than `u`: `"`, `\`, `/`, `b`, `f`, `n`, `r`
and `t`. -/
def shortEscape (byte : UInt8) : Bool :=
  byte == 34 || byte == 92 || byte == 47 || byte == 98 || byte == 102 || byte == 110 ||
    byte == 114 || byte == 116

def skip : List UInt8 → List UInt8
  | [] => []
  | byte :: rest => if whitespace byte then skip rest else byte :: rest

def literal (text rest : List UInt8) : Bool × List UInt8 :=
  if text.isPrefixOf rest then (true, rest.drop text.length) else (false, rest)

/-- `count` hexadecimal digits. -/
def hexRun : Nat → List UInt8 → Bool × List UInt8
  | 0, rest => (true, rest)
  | _ + 1, [] => (false, [])
  | count + 1, byte :: rest => if hex byte then hexRun count rest else (false, byte :: rest)

/-- The loop of `string`; every round reads a byte. -/
def stringLoop : Nat → List UInt8 → Bool × List UInt8
  | 0, rest => (false, rest)
  | _ + 1, [] => (false, [])
  | fuel + 1, byte :: rest =>
      if byte = 34 then (true, rest)
      else if byte.toNat < 32 then (false, rest)
      else if byte.toNat ≥ 128 then
        let decoded := decode (byte :: rest) 0
        if !decoded.ok then (false, rest) else stringLoop fuel (rest.drop (decoded.width - 1))
      else if byte = 92 then
        match rest with
        | [] => (false, [])
        | escaped :: rest =>
            if escaped = 117 then
              match hexRun 4 rest with
              | (false, rest) => (false, rest)
              | (true, rest) => stringLoop fuel rest
            else if shortEscape escaped then stringLoop fuel rest
            else (false, rest)
      else stringLoop fuel rest

def string : List UInt8 → Bool × List UInt8
  | 34 :: rest => stringLoop (rest.length + 1) rest
  | rest => (false, rest)

def digits : List UInt8 → List UInt8
  | [] => []
  | byte :: rest => if digit byte then digits rest else byte :: rest

/-- The part of a number before its fraction. -/
def numberInteger (rest : List UInt8) : Bool × List UInt8 :=
  let rest := if rest.head? = some 45 then rest.tail else rest
  match rest with
  | [] => (false, [])
  | byte :: tail =>
      if byte = 48 then (true, tail)
      else if byte.toNat < 49 ∨ byte.toNat > 57 then (false, byte :: tail)
      else (true, digits (byte :: tail))

/-- The digits of a fraction or an exponent: at least one. -/
def someDigits (rest : List UInt8) : Bool × List UInt8 :=
  (decide ((digits rest).length ≠ rest.length), digits rest)

def numberFraction (rest : List UInt8) : Bool × List UInt8 :=
  if rest.head? = some 46 then someDigits rest.tail else (true, rest)

def numberExponent (rest : List UInt8) : Bool × List UInt8 :=
  if rest.head? = some 101 ∨ rest.head? = some 69 then
    let rest := rest.tail
    someDigits (if rest.head? = some 43 ∨ rest.head? = some 45 then rest.tail else rest)
  else (true, rest)

def number (rest : List UInt8) : Bool × List UInt8 :=
  match numberInteger rest with
  | (false, rest) => (false, rest)
  | (true, rest) =>
      match numberFraction rest with
      | (false, rest) => (false, rest)
      | (true, rest) => numberExponent rest

def MaximumDepth : Nat := 256

def nullText : List UInt8 := [110, 117, 108, 108]

def trueText : List UInt8 := [116, 114, 117, 101]

def falseText : List UInt8 := [102, 97, 108, 115, 101]

mutual

/-- `validate_value`; a fuel of twice the bytes left is enough. -/
def validateValue : Nat → Nat → List UInt8 → Bool × List UInt8
  | 0, _, rest => (false, rest)
  | fuel + 1, depth, rest =>
      match skip rest with
      | [] => (false, [])
      | byte :: tail =>
          if byte = 34 then string (byte :: tail)
          else if byte = 110 then literal nullText (byte :: tail)
          else if byte = 116 then literal trueText (byte :: tail)
          else if byte = 102 then literal falseText (byte :: tail)
          else if byte = 91 then
            if depth ≥ MaximumDepth then (false, byte :: tail)
            else if (skip tail).head? = some 93 then (true, (skip tail).tail)
            else validateArray fuel depth (skip tail)
          else if byte = 123 then
            if depth ≥ MaximumDepth then (false, byte :: tail)
            else if (skip tail).head? = some 125 then (true, (skip tail).tail)
            else validateObject fuel depth (skip tail)
          else number (byte :: tail)

/-- The loop over the elements of an array. -/
def validateArray : Nat → Nat → List UInt8 → Bool × List UInt8
  | 0, _, rest => (false, rest)
  | fuel + 1, depth, rest =>
      match validateValue fuel (depth + 1) rest with
      | (false, rest) => (false, rest)
      | (true, rest) =>
          match skip rest with
          | [] => (false, [])
          | byte :: tail =>
              if byte = 93 then (true, tail)
              else if byte ≠ 44 then (false, byte :: tail)
              else validateArray fuel depth tail

/-- The loop over the members of an object. -/
def validateObject : Nat → Nat → List UInt8 → Bool × List UInt8
  | 0, _, rest => (false, rest)
  | fuel + 1, depth, rest =>
      match string (skip rest) with
      | (false, rest) => (false, rest)
      | (true, rest) =>
          match skip rest with
          | [] => (false, [])
          | colon :: rest =>
              if colon ≠ 58 then (false, colon :: rest)
              else
                match validateValue fuel (depth + 1) rest with
                | (false, rest) => (false, rest)
                | (true, rest) =>
                    match skip rest with
                    | [] => (false, [])
                    | byte :: tail =>
                        if byte = 125 then (true, tail)
                        else if byte ≠ 44 then (false, byte :: tail)
                        else validateObject fuel depth tail

end

def scanFuel (source : List UInt8) : Nat := 2 * source.length + 2

def valid (source : List UInt8) : Bool :=
  match validateValue (scanFuel source) 0 source with
  | (false, _) => false
  | (true, rest) => decide (skip rest = [])

end Dyn.Json
