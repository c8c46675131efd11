import Dyn.Json.Scan

/-!
# std/encoding/json: decoding strings

`decoded_string` of the tree parser and `read_decoded_string` of the compact reader find the
end of a string first and then decode what is in between.  The tree parser decodes into a new
block; the compact reader decodes in place, over the bytes it is reading.  Their loops are the
same and are modelled once: with `inPlace` the output is the source.
-/

namespace Dyn.Json

open Unicode

def plain (byte : UInt8) : Bool :=
  !(decide (byte.toNat < 32) || decide (byte.toNat ≥ 128) || byte == 34 || byte == 92)

def asciiStringPrefix : List UInt8 → Nat
  | [] => 0
  | byte :: rest => if plain byte then asciiStringPrefix rest + 1 else 0

/-- What the search for the end of a string finds: the number of bytes before the closing
quote, and whether there are escapes and only ASCII bytes. -/
structure Extent where
  length : Nat := 0
  hasEscape : Bool := false
  ascii : Bool := true
deriving DecidableEq, Repr

/-- The search loop; it fails at a control byte and at the end of the source. -/
def findEnd : Extent → List UInt8 → Option Extent
  | _, [] => none
  | found, byte :: rest =>
      if byte = 34 then some found
      else if byte = 92 then
        match rest with
        | [] => none
        | escaped :: rest =>
            if escaped.toNat < 32 then none
            else
              findEnd ⟨found.length + 2, true, found.ascii && !decide (escaped.toNat ≥ 128)⟩ rest
      else if byte.toNat < 32 then none
      else
        findEnd ⟨found.length + 1, found.hasEscape, found.ascii && !decide (byte.toNat ≥ 128)⟩ rest

/-- `count` hexadecimal digits as a number. -/
def hexCode : Nat → Nat → List UInt8 → Option (Nat × List UInt8)
  | 0, code, rest => some (code, rest)
  | _ + 1, _, [] => none
  | count + 1, code, byte :: rest =>
      if hexValue byte = 16 then none else hexCode count (code * 16 + hexValue byte) rest

def utf8Byte (value : Nat) (marker : UInt8) : UInt8 := UInt8.ofNat value ||| marker

def codeBytes (code : Nat) : List UInt8 :=
  if code ≤ 127 then [UInt8.ofNat code]
  else if code ≤ 2047 then [utf8Byte (code >>> 6) 192, utf8Byte (code &&& 63) 128]
  else if code ≤ 65535 then
    [utf8Byte (code >>> 12) 224, utf8Byte ((code >>> 6) &&& 63) 128, utf8Byte (code &&& 63) 128]
  else
    [utf8Byte (code >>> 18) 240, utf8Byte ((code >>> 12) &&& 63) 128,
      utf8Byte ((code >>> 6) &&& 63) 128, utf8Byte (code &&& 63) 128]

/-- An escape behind `\u`: the bytes it stands for. -/
def readUnicode (rest : List UInt8) : Option (List UInt8 × List UInt8) :=
  match hexCode 4 0 rest with
  | none => none
  | some (code, rest) =>
      if 55296 ≤ code ∧ code ≤ 56319 then
        match rest with
        | 92 :: 117 :: rest =>
            match hexCode 4 0 rest with
            | none => none
            | some (low, rest) =>
                if low < 56320 ∨ low > 57343 then none
                else some (codeBytes (65536 + (code - 55296) * 1024 + low - 56320), rest)
        | _ => none
      else if 56320 ≤ code ∧ code ≤ 57343 then none
      else some (codeBytes code, rest)

/-- The next byte or escape: the bytes to write, and what is left to read. -/
def readPiece : List UInt8 → Option (List UInt8 × List UInt8)
  | [] => none
  | byte :: rest =>
      if byte = 92 then
        match rest with
        | [] => none
        | escaped :: rest =>
            if escaped = 34 ∨ escaped = 92 ∨ escaped = 47 then some ([escaped], rest)
            else if escaped = 98 then some ([8], rest)
            else if escaped = 102 then some ([12], rest)
            else if escaped = 110 then some ([10], rest)
            else if escaped = 114 then some ([13], rest)
            else if escaped = 116 then some ([9], rest)
            else if escaped = 117 then readUnicode rest
            else none
      else some ([byte], rest)

def writeAt (output : List UInt8) : Nat → List UInt8 → List UInt8
  | _, [] => output
  | at_, byte :: bytes => writeAt (output.set at_ byte) (at_ + 1) bytes

/-- The decoding loop: the output and the number of bytes in it.  Every round reads a byte. -/
def decodeLoop (inPlace : Bool) :
    Nat → List UInt8 → List UInt8 → Nat → Nat → Option (List UInt8 × Nat)
  | 0, _, output, _, outputAt => some (output, outputAt)
  | fuel + 1, source, output, sourceAt, outputAt =>
      if sourceAt < source.length then
        match readPiece (source.drop sourceAt) with
        | none => none
        | some (bytes, rest) =>
            let output := writeAt output outputAt bytes
            decodeLoop inPlace fuel (if inPlace then output else source) output
              (source.length - rest.length) (outputAt + bytes.length)
      else some (output, outputAt)

/-- The bytes between the quotes, if they are UTF-8. -/
def contents (found : Extent) (rest : List UInt8) : Option (List UInt8) :=
  if !found.ascii && !Unicode.valid (rest.take found.length) then none
  else some (rest.take found.length)

end Dyn.Json
