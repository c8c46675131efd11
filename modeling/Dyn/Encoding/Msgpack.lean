import Dyn.Encoding.Tokens

/-!
# std/encoding/msgpack

Preorder tokens; arrays and maps count what follows them.  Three functions read the tag
byte: `header` chooses it, `extra` says how many bytes of a number follow, and `next`
decodes it.  As for CBOR, floating values are binary64 bits.
-/

namespace Dyn.Msgpack

open Mem (Panic Room maximum)
open Encoding

inductive Kind where
  | Nil
  | Bool
  | Unsigned
  | Signed
  | Float
  | Text
  | Bytes
  | Array
  | Map
  | Extension
deriving DecidableEq, Repr

structure Token where
  kind : Kind := .Nil
  value : UInt64 := 0
  integer : Int64 := 0
  real : UInt64 := 0
  boolean : Bool := false
  bytes : List UInt8 := []
  extension : Int8 := 0
deriving DecidableEq, Repr

instance : Inhabited Token := ⟨{}⟩

/-- The stack says what the open containers still hold, the innermost first. -/
def reader (source : List UInt8) : Reader (List Nat) := { rest := source, stack := [] }

/-- The loop that closes complete containers. -/
def trim : List Nat → List Nat
  | [] => []
  | n :: outer => if n = 0 then trim outer else n :: outer

/-- A token counts for the innermost container. -/
def enter : List Nat → List Nat
  | [] => []
  | n :: outer => (n - 1) :: outer

/-- How many tokens a container holds at its top. -/
def itemCount (token : Token) : Nat :=
  if token.kind = .Map then token.value.toNat * 2 else token.value.toNat

def accept (remaining : List Nat) (token : Token) : Errors.Kind × List Nat :=
  let remaining := enter (trim remaining)
  if token.kind = .Array ∨ token.kind = .Map then
    if token.value > 0xffffffff then (.InvalidInput, remaining)
    else if itemCount token ≠ 0 then
      if remaining.length = 64 then (.Capacity, remaining)
      else (.None, itemCount token :: remaining)
    else (.None, remaining)
  else (.None, remaining)

/-- What `complete` returns once it has closed the containers. -/
def complete (remaining : List Nat) : Bool := remaining.isEmpty

/-- What a tag says: the token so far, the size of the number behind it, and whether a
string follows.  `0xc1` is never used. -/
def classify (tag : UInt8) : Option (Token × Nat × Bool) :=
  if tag < 0x80 then some ({ kind := .Unsigned, value := tag.toUInt64 }, 0, false)
  else if tag < 0x90 then some ({ kind := .Map, value := (tag &&& 15).toUInt64 }, 0, false)
  else if tag < 0xa0 then some ({ kind := .Array, value := (tag &&& 15).toUInt64 }, 0, false)
  else if tag < 0xc0 then some ({ kind := .Text, value := (tag &&& 31).toUInt64 }, 0, true)
  else if tag ≥ 0xe0 then some ({ kind := .Signed, integer := tag.toInt8.toInt64 }, 0, false)
  else if tag = 0xc0 then some ({ kind := .Nil }, 0, false)
  else if tag = 0xc1 then none
  else if tag = 0xc2 ∨ tag = 0xc3 then some ({ kind := .Bool, boolean := tag == 0xc3 }, 0, false)
  else if tag ≥ 0xc4 ∧ tag ≤ 0xc9 then
    some ({ kind := if tag ≥ 0xc7 then .Extension else .Bytes }, 1 <<< ((tag.toNat - 0xc4) % 3), true)
  else if tag = 0xca ∨ tag = 0xcb then
    some ({ kind := .Float }, if tag = 0xcb then 8 else 4, false)
  else if tag ≥ 0xcc ∧ tag ≤ 0xcf then some ({ kind := .Unsigned }, 1 <<< (tag.toNat - 0xcc), false)
  else if tag ≥ 0xd0 ∧ tag ≤ 0xd3 then some ({ kind := .Signed }, 1 <<< (tag.toNat - 0xd0), false)
  else if tag ≥ 0xd4 ∧ tag ≤ 0xd8 then
    some ({ kind := .Extension, value := 1 <<< (tag.toUInt64 - 0xd4) }, 0, true)
  else if tag ≥ 0xd9 ∧ tag ≤ 0xdb then some ({ kind := .Text }, 1 <<< (tag.toNat - 0xd9), true)
  else
    some ({ kind := if tag ≥ 0xde then .Map else .Array }, if tag &&& 1 ≠ 0 then 4 else 2, false)

/-- The number behind a tag, in the field of its kind. -/
def withNumber (promote : UInt32 → UInt64) (token : Token) (size : Nat) (raw : UInt64) : Token :=
  if token.kind = .Float then
    if size = 4 then { token with real := promote raw.toUInt32 } else { token with real := raw }
  else if token.kind = .Signed then
    let shift := UInt64.ofNat (64 - size * 8)
    { token with integer := (raw <<< shift).toInt64 >>> shift.toInt64 }
  else { token with value := raw }

def readNumber (promote : UInt32 → UInt64) (token : Token) (size : Nat) (rest : List UInt8) :
    Except Failure (Token × Nat × List UInt8) :=
  if size > rest.length then .error (1, .InvalidInput)
  else if size ≠ 0 then
    .ok (withNumber promote token size (number (rest.take size)), 1 + size, rest.drop size)
  else .ok (token, 1, rest)

def readExtension (token : Token) (at_ : Nat) (rest : List UInt8) :
    Except Failure (Token × Nat × List UInt8) :=
  if token.kind = .Extension then
    match rest with
    | [] => .error (at_, .InvalidInput)
    | byte :: rest => .ok ({ token with extension := byte.toInt8 }, at_ + 1, rest)
  else .ok (token, at_, rest)

def readPayload (payload : Bool) (token : Token) (at_ : Nat) (rest : List UInt8) :
    Except Failure (Token × Nat × List UInt8) :=
  if payload then
    if token.value.toNat > rest.length then .error (at_, .InvalidInput)
    else
      .ok ({ token with bytes := rest.take token.value.toNat, value := 0 },
        at_ + token.value.toNat, rest.drop token.value.toNat)
  else .ok (token, at_, rest)

/-- The early check of a container's length. -/
def checkLength (token : Token) (at_ : Nat) (rest : List UInt8) :
    Except Failure (Token × Nat × List UInt8) :=
  if (token.kind = .Array ∨ token.kind = .Map) ∧ itemCount token > rest.length then
    .error (at_, .InvalidInput)
  else .ok (token, at_, rest)

def item (promote : UInt32 → UInt64) (tag : UInt8) (rest : List UInt8) :
    Except Failure (Token × Nat × List UInt8) :=
  match classify tag with
  | none => .error (0, .InvalidInput)
  | some (token, size, payload) => do
      let (token, at_, rest) ← readNumber promote token size rest
      let (token, at_, rest) ← readExtension token at_ rest
      let (token, at_, rest) ← readPayload payload token at_ rest
      checkLength token at_ rest

def next (promote : UInt32 → UInt64) : Reader (List Nat) → ReadResult Token × Reader (List Nat) :=
  nextWith (item promote) accept trim complete

def header (token : Token) : UInt8 :=
  let length := token.bytes.length
  match token.kind with
  | .Nil => 0xc0
  | .Bool => if token.boolean then 0xc3 else 0xc2
  | .Signed => 0xd3
  | .Float => 0xcb
  | .Unsigned =>
      if token.value < 128 then token.value.toUInt8
      else if token.value ≤ 255 then 0xcc
      else if token.value ≤ 65535 then 0xcd
      else if token.value ≤ 0xffffffff then 0xce
      else 0xcf
  | .Array =>
      if token.value < 16 then 0x90 ||| token.value.toUInt8
      else if token.value ≤ 65535 then 0xdc
      else 0xdd
  | .Map =>
      if token.value < 16 then 0x80 ||| token.value.toUInt8
      else if token.value ≤ 65535 then 0xde
      else 0xdf
  | .Text =>
      if length < 32 then 0xa0 ||| UInt8.ofNat length
      else if length ≤ 255 then 0xd9
      else if length ≤ 65535 then 0xda
      else 0xdb
  | .Extension =>
      if length = 1 then 0xd4
      else if length = 2 then 0xd5
      else if length = 4 then 0xd6
      else if length = 8 then 0xd7
      else if length = 16 then 0xd8
      else if length ≤ 255 then 0xc7
      else if length ≤ 65535 then 0xc8
      else 0xc9
  | .Bytes =>
      if length ≤ 255 then 0xc4
      else if length ≤ 65535 then 0xc5
      else 0xc6

def extra (tag : UInt8) : Nat :=
  if tag ≥ 0xcc ∧ tag ≤ 0xcf then 1 <<< (tag.toNat - 0xcc)
  else if tag = 0xd3 ∨ tag = 0xcb then 8
  else if tag ≥ 0xc4 ∧ tag ≤ 0xc9 then 1 <<< ((tag.toNat - 0xc4) % 3)
  else if tag ≥ 0xd9 ∧ tag ≤ 0xdb then 1 <<< (tag.toNat - 0xd9)
  else if tag ≥ 0xdc ∧ tag ≤ 0xdf then if tag &&& 1 ≠ 0 then 4 else 2
  else 0

def hasBytes (token : Token) : Prop :=
  token.kind = .Text ∨ token.kind = .Bytes ∨ token.kind = .Extension

instance (token : Token) : Decidable (hasBytes token) :=
  inferInstanceAs (Decidable (token.kind = .Text ∨ token.kind = .Bytes ∨ token.kind = .Extension))

/-- The size of a token without its string. -/
def size (token : Token) : Nat :=
  if token.kind = .Extension then 1 + extra (header token) + 1 else 1 + extra (header token)

def weight (token : Token) : Nat :=
  if hasBytes token then size token + token.bytes.length else size token

/-- The first pass of `encode`, for one token. -/
def measureToken (w : Nat) (remaining : List Nat) (token : Token) :
    Except Errors.Kind (List Nat × Nat) :=
  if token.bytes.length > 0xffffffff then .error .InvalidInput
  else
    match accept remaining token with
    | (.None, remaining) =>
        if hasBytes token ∧ token.bytes.length > maximum w - size token then .error .Overflow
        else .ok (remaining, weight token)
    | (kind, _) => .error kind

/-- The number that is stored behind the tag. -/
def tokenValue (token : Token) : UInt64 :=
  match token.kind with
  | .Signed => token.integer.toUInt64
  | .Float => token.real
  | .Text | .Bytes | .Extension => UInt64.ofNat token.bytes.length
  | _ => token.value

def writeExtension (total : Nat) (output : List UInt8) (token : Token) :
    Except Panic (List UInt8) :=
  if token.kind = .Extension then store total output token.extension.toUInt8 else .ok output

def writeBytes (total : Nat) (output : List UInt8) (token : Token) : Except Panic (List UInt8) :=
  if hasBytes token then storeAll total output token.bytes else .ok output

/-- The second pass of `encode`, for one token. -/
def writeToken (total : Nat) (output : List UInt8) (token : Token) :
    Except Panic (List UInt8) := do
  let output ← store total output (header token)
  let output ← put total output (tokenValue token) (extra (header token))
  let output ← writeExtension total output token
  writeBytes total output token

def encode (w : Nat) (room : Room) (tokens : List Token) : Except Panic EncodeResult :=
  encodeWith w room [] (measureToken w) (fun remaining => complete (trim remaining)) writeToken
    tokens

/-- What a token says: the fields that its kind has, the others zero. -/
def Token.normal (token : Token) : Token :=
  match token.kind with
  | .Nil => { kind := .Nil }
  | .Bool => { kind := .Bool, boolean := token.boolean }
  | .Unsigned => { kind := .Unsigned, value := token.value }
  | .Signed => { kind := .Signed, integer := token.integer }
  | .Float => { kind := .Float, real := token.real }
  | .Text => { kind := .Text, bytes := token.bytes }
  | .Bytes => { kind := .Bytes, bytes := token.bytes }
  | .Array => { kind := .Array, value := token.value }
  | .Map => { kind := .Map, value := token.value }
  | .Extension => { kind := .Extension, bytes := token.bytes, extension := token.extension }

end Dyn.Msgpack
