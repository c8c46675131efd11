import Dyn.Encoding.Tokens
import Dyn.Unicode.Utf8

/-!
# std/encoding/cbor

Preorder tokens, with `End` only for containers and strings of indefinite length.  Reader
and writer run every token through the same `accept`, which keeps a stack of open items.

Floating values are their binary64 bits.  The conversion of binary32 to binary64 belongs to
the target (it decides what becomes of a signaling NaN) and is a parameter of the reader.
-/

namespace Dyn.Cbor

open Mem (Panic Room maximum)
open Encoding

inductive Kind where
  | Unsigned
  | Negative
  | Bytes
  | Text
  | Array
  | Map
  | Tag
  | Bool
  | Null
  | Undefined
  | Simple
  | Float
  | End
deriving DecidableEq, Repr

structure Token where
  kind : Kind := .Unsigned
  value : UInt64 := 0
  bytes : List UInt8 := []
  real : UInt64 := 0
  boolean : Bool := false
  indefinite : Bool := false
deriving DecidableEq, Repr

instance : Inhabited Token := ⟨{}⟩

structure Frame where
  kind : Kind
  remaining : Nat
  indefinite : Bool
  odd : Bool := false
deriving DecidableEq, Repr

/-- Closes the counted items that are complete; the innermost item comes first. -/
def trim : List Frame → List Frame
  | [] => []
  | frame :: outer =>
      if frame.indefinite = false ∧ frame.remaining = 0 then trim outer else frame :: outer

def malformed (token : Token) : Bool :=
  (token.indefinite && token.kind != .Array && token.kind != .Map && token.kind != .Bytes &&
      token.kind != .Text) ||
    (token.kind == .Simple &&
      (decide (token.value > 255) || (decide (token.value ≥ 20) && decide (token.value ≤ 31)))) ||
    (token.kind == .Text && !Unicode.valid token.bytes) ||
    (token.indefinite && (token.kind == .Text || token.kind == .Bytes) && token.bytes.length != 0)

/-- A token becomes a part of the innermost open item. -/
def enter (token : Token) : List Frame → Option (List Frame)
  | [] => some []
  | frame :: outer =>
      if (frame.kind = .Text ∨ frame.kind = .Bytes) ∧
          (token.kind ≠ frame.kind ∨ token.indefinite = true) then none
      else if frame.indefinite then
        if frame.kind = .Map then some ({ frame with odd := !frame.odd } :: outer)
        else some (frame :: outer)
      else some ({ frame with remaining := frame.remaining - 1 } :: outer)

/-- How many tokens an item holds at its top. -/
def itemCount (token : Token) : Nat :=
  if token.kind = .Tag then 1
  else if token.kind = .Map ∧ token.indefinite = false then token.value.toNat * 2
  else token.value.toNat

def begin (token : Token) (frames : List Frame) : Errors.Kind × List Frame :=
  if token.indefinite = true ∨ token.kind = .Array ∨ token.kind = .Map ∨ token.kind = .Tag then
    if (token.kind = .Map ∧ token.indefinite = false) ∧
        token.value.toNat > 0x7fffffffffffffff then (.Overflow, frames)
    else if token.indefinite = true ∨ itemCount token ≠ 0 then
      if frames.length = 64 then (.Capacity, frames)
      else
        (.None, { kind := token.kind, remaining := itemCount token,
                  indefinite := token.indefinite } :: frames)
    else (.None, frames)
  else (.None, frames)

def accept (frames : List Frame) (token : Token) : Errors.Kind × List Frame :=
  let frames := trim frames
  if token.kind = .End then
    match frames with
    | [] => (.InvalidInput, frames)
    | frame :: outer =>
        if token.indefinite = true ∨ frame.indefinite = false ∨ frame.odd = true then
          (.InvalidInput, frames)
        else (.None, outer)
  else if malformed token then (.InvalidInput, frames)
  else
    match enter token frames with
    | none => (.InvalidInput, frames)
    | some frames => begin token frames

def reader (source : List UInt8) : Reader (List Frame) := { rest := source, stack := [] }

/-- The binary64 bits of `n / 16777216`, which is exact for ten bits. -/
def scaled (n : Nat) : UInt64 :=
  if n = 0 then 0
  else UInt64.ofNat ((n.log2 + 999) * 2 ^ 52 + (n - 2 ^ n.log2) * 2 ^ (52 - n.log2))

def half (raw : UInt64) : UInt64 :=
  let exponent := (raw >>> 10) &&& 31
  let fraction := raw &&& 1023
  let sign := (raw &&& 32768) <<< 48
  if exponent = 0 then
    let result := scaled fraction.toNat
    if sign ≠ 0 then result ^^^ 0x8000000000000000 else result
  else if exponent = 31 then (sign ||| (0x7ff0000000000000 : UInt64)) ||| (fraction <<< 42)
  else sign ||| ((exponent + 1008) <<< 52) ||| (fraction <<< 42)

/-- `#cast(Kind, major)` for the majors up to 6. -/
def majorKind (major : UInt8) : Kind :=
  match major.toNat with
  | 0 => .Unsigned
  | 1 => .Negative
  | 2 => .Bytes
  | 3 => .Text
  | 4 => .Array
  | 5 => .Map
  | _ => .Tag

/-- The kind of a token before major type 7 is looked at. -/
def headKind (major : UInt8) : Kind := if major ≤ 6 then majorKind major else .Unsigned

/-- The tag and its argument; the size of both, and the bytes behind them. -/
def head (tag : UInt8) (rest : List UInt8) : Except Failure (Token × Nat × List UInt8) :=
  let major := tag >>> 5
  let info := tag &&& 31
  let kind := headKind major
  if info ≥ 28 ∧ info ≤ 30 then .error (0, .InvalidInput)
  else if info = 31 then
    if tag = 255 then .ok ({ kind := .End }, 1, rest)
    else if major ≥ 2 ∧ major ≤ 5 then .ok ({ kind := kind, indefinite := true }, 1, rest)
    else .error (0, .InvalidInput)
  else if info ≥ 24 then
    let count := 1 <<< (info.toNat - 24)
    if count > rest.length then .error (1, .InvalidInput)
    else .ok ({ kind := kind, value := number (rest.take count) }, 1 + count, rest.drop count)
  else .ok ({ kind := kind, value := info.toUInt64 }, 1, rest)

def special (promote : UInt32 → UInt64) (info : UInt8) (token : Token) : Option Token :=
  if info = 20 ∨ info = 21 then some { token with kind := .Bool, boolean := info == 21, value := 0 }
  else if info = 22 then some { token with kind := .Null, value := 0 }
  else if info = 23 then some { token with kind := .Undefined, value := 0 }
  else if info ≤ 24 then
    if info = 24 ∧ token.value < 32 then none else some { token with kind := .Simple }
  else if info = 25 then some { token with kind := .Float, real := half token.value, value := 0 }
  else if info = 26 then
    some { token with kind := .Float, real := promote token.value.toUInt32, value := 0 }
  else some { token with kind := .Float, real := token.value, value := 0 }

/-- The bytes of a string, and the early check of a container's length. -/
def payload (token : Token) (size : Nat) (rest : List UInt8) :
    Except Failure (Token × Nat × List UInt8) :=
  if token.indefinite = false ∧ (token.kind = .Bytes ∨ token.kind = .Text) then
    let count := token.value.toNat
    if count > rest.length then .error (size, .InvalidInput)
    else .ok ({ token with bytes := rest.take count, value := 0 }, size + count, rest.drop count)
  else if token.indefinite = false ∧ (token.kind = .Array ∨ token.kind = .Map) then
    let available := if token.kind = .Map then rest.length / 2 else rest.length
    if token.value.toNat > available then .error (size, .InvalidInput)
    else .ok (token, size, rest)
  else .ok (token, size, rest)

def item (promote : UInt32 → UInt64) (tag : UInt8) (rest : List UInt8) :
    Except Failure (Token × Nat × List UInt8) :=
  match head tag rest with
  | .error e => .error e
  | .ok (token, size, rest) =>
      if tag >>> 5 = 7 ∧ tag &&& 31 ≠ 31 then
        match special promote (tag &&& 31) token with
        | none => .error (0, .InvalidInput)
        | some token => payload token size rest
      else payload token size rest

/-- At the end of the input no item is open. -/
def closedItems (frames : List Frame) : Bool := frames.isEmpty

def next (promote : UInt32 → UInt64) : Reader (List Frame) → ReadResult Token × Reader (List Frame) :=
  nextWith (item promote) accept trim closedItems

def extra (value : UInt64) : Nat :=
  if value < 24 then 0
  else if value ≤ 255 then 1
  else if value ≤ 65535 then 2
  else if value ≤ 0xffffffff then 4
  else 8

def argument (token : Token) : UInt64 :=
  if token.kind = .Bytes ∨ token.kind = .Text then UInt64.ofNat token.bytes.length
  else token.value

def size (token : Token) : Nat :=
  if token.indefinite = true ∨ token.kind = .End ∨ token.kind = .Bool ∨ token.kind = .Null ∨
      token.kind = .Undefined then 1
  else if token.kind = .Float then 9
  else 1 + extra (argument token)

def weight (token : Token) : Nat :=
  if token.kind = .Bytes ∨ token.kind = .Text then size token + token.bytes.length
  else size token

/-- The first pass of `encode`, for one token. -/
def measureToken (w : Nat) (frames : List Frame) (token : Token) :
    Except Errors.Kind (List Frame × Nat) :=
  match accept frames token with
  | (.None, frames) =>
      if (token.kind = .Bytes ∨ token.kind = .Text) ∧
          token.bytes.length > maximum w - size token then .error .Overflow
      else .ok (frames, weight token)
  | (kind, _) => .error kind

/-- `#cast(u8, kind)`, with 7 for `Simple`. -/
def kindMajor : Kind → UInt8
  | .Unsigned => 0
  | .Negative => 1
  | .Bytes => 2
  | .Text => 3
  | .Array => 4
  | .Map => 5
  | .Tag => 6
  | _ => 7

/-- A tag with the argument, or with the code of its width. -/
def argumentTag (tag : UInt8) (value : UInt64) : UInt8 :=
  if extra value = 0 then tag ||| value.toUInt8
  else if extra value = 1 then tag ||| 24
  else if extra value = 2 then tag ||| 25
  else if extra value = 4 then tag ||| 26
  else tag ||| 27

def tagOf (token : Token) : UInt8 :=
  match token.kind with
  | .End => 255
  | .Bool => if token.boolean then 245 else 244
  | .Null => 246
  | .Undefined => 247
  | .Float => 251
  | kind =>
      let tag := kindMajor kind <<< 5
      if token.indefinite then tag ||| 31 else argumentTag tag (argument token)

def writeNumber (total : Nat) (output : List UInt8) (token : Token) :
    Except Panic (List UInt8) :=
  if token.kind = .Float then put total output token.real 8
  else if size token > 1 then put total output (argument token) (size token - 1)
  else .ok output

def writeString (total : Nat) (output : List UInt8) (token : Token) :
    Except Panic (List UInt8) :=
  if token.indefinite = false ∧ (token.kind = .Bytes ∨ token.kind = .Text) then
    storeAll total output token.bytes
  else .ok output

/-- The second pass of `encode`, for one token. -/
def writeToken (total : Nat) (output : List UInt8) (token : Token) :
    Except Panic (List UInt8) := do
  let output ← store total output (tagOf token)
  let output ← writeNumber total output token
  writeString total output token

def encode (w : Nat) (room : Room) (tokens : List Token) : Except Panic EncodeResult :=
  encodeWith w room [] (measureToken w) (fun frames => closedItems (trim frames)) writeToken tokens

/-- What a token says: the fields that its kind has, the others zero. -/
def Token.normal (token : Token) : Token :=
  match token.kind with
  | .Unsigned => { kind := .Unsigned, value := token.value }
  | .Negative => { kind := .Negative, value := token.value }
  | .Tag => { kind := .Tag, value := token.value }
  | .Simple => { kind := .Simple, value := token.value }
  | .Bytes => { kind := .Bytes, bytes := token.bytes, indefinite := token.indefinite }
  | .Text => { kind := .Text, bytes := token.bytes, indefinite := token.indefinite }
  | .Array =>
      { kind := .Array, value := if token.indefinite then 0 else token.value,
        indefinite := token.indefinite }
  | .Map =>
      { kind := .Map, value := if token.indefinite then 0 else token.value,
        indefinite := token.indefinite }
  | .Bool => { kind := .Bool, boolean := token.boolean }
  | .Float => { kind := .Float, real := token.real }
  | .Null => { kind := .Null }
  | .Undefined => { kind := .Undefined }
  | .End => { kind := .End }

end Dyn.Cbor
