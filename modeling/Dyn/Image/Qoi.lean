import Dyn.Mem.Arena

/-!
# std/image/qoi

The decoder and the encoder of QOI images.  Index expressions and products of sizes panic as
in the source.  Both directions write their destination from its start, so the destination is
the list of the bytes written, with the room that it has.

A packed pixel is a number below `2 ^ 32`; the tables of both directions are indexed by
`% 64` and `& 63` only.
-/

namespace Dyn.Qoi

open Mem (Panic Machine Os arenaMark arenaRewind arenaTryPushImpl maximum)

inductive Kind
  | none | invalidInput | capacity | overflow
deriving DecidableEq, Repr

structure Info where
  width : UInt32 := 0
  height : UInt32 := 0
  channels : UInt8 := 0
  srgb : Bool := false
  ok : Bool := false
deriving DecidableEq, Repr

structure Image where
  info : Info := {}
  pixels : List UInt8 := []
deriving DecidableEq, Repr

structure Result where
  value : Image := {}
  ok : Bool := false
  kind : Kind := .none
  error : Int := 0
  offset : Nat := 0
  detail : Int := 0
deriving DecidableEq, Repr

structure DecodeWork where
  info : Info := {}
  pixels : List UInt8 := []
  error : Int := 0
  ok : Bool := false
  offset : Nat := 0
deriving DecidableEq, Repr

structure EncodeResult where
  value : List UInt8 := []
  ok : Bool := false
  kind : Kind := .none
  error : Int := 0
  offset : Nat := 0
  detail : Int := 0
deriving DecidableEq, Repr

structure EncodeWork where
  data : List UInt8 := []
  error : Int := 0
  ok : Bool := false
deriving DecidableEq, Repr

def codecKind (detail : Int) : Kind :=
  if detail = -75 then .overflow else if detail = -28 then .capacity else .invalidInput

def decodeResult (work : DecodeWork) : Result :=
  if ¬ work.ok then { kind := codecKind work.error, detail := work.error, offset := work.offset }
  else { value := { info := work.info, pixels := work.pixels }, ok := true }

def encodeResult (work : EncodeWork) : EncodeResult :=
  if ¬ work.ok then { kind := codecKind work.error, detail := work.error }
  else { value := work.data, ok := true }

def index (bytes : List UInt8) (i : Nat) : Except Panic UInt8 :=
  match bytes[i]? with
  | some byte => .ok byte
  | none => .error "index out of bounds"

/-- A product of sizes of `w` bits. -/
def product (w a b : Nat) : Except Panic Nat :=
  if a * b ≤ maximum w then .ok (a * b) else .error "integer overflow"

structure Pixel where
  red : UInt8
  green : UInt8
  blue : UInt8
  alpha : UInt8
deriving DecidableEq, Repr

def Pixel.bytes (p : Pixel) : List UInt8 := [p.red, p.green, p.blue, p.alpha]

def Pixel.initial : Pixel := ⟨0, 0, 0, 255⟩

def packed (p : Pixel) : Nat :=
  p.red.toNat * 16777216 + p.green.toNat * 65536 + p.blue.toNat * 256 + p.alpha.toNat

/-- The pixel that a table entry stands for. -/
def unpacked (entry : Nat) : Pixel :=
  ⟨UInt8.ofNat (entry >>> 24), UInt8.ofNat (entry >>> 16), UInt8.ofNat (entry >>> 8), UInt8.ofNat entry⟩

abbrev Table := Fin 64 → Nat

def hash (p : Pixel) : Fin 64 :=
  ⟨(p.red.toNat * 3 + p.green.toNat * 5 + p.blue.toNat * 7 + p.alpha.toNat * 11) % 64,
    Nat.mod_lt _ (by decide)⟩

def Table.store (table : Table) (p : Pixel) : Table := Function.update table (hash p) (packed p)

/-- The sum of a byte and an `i16`, brought back into the range of bytes. -/
def add (byte : UInt8) (amount : Int) : UInt8 :=
  let wide := (byte.toNat : Int) + amount
  let wide := if wide < 0 then wide + 256 else wide
  let wide := if wide > 255 then wide - 256 else wide
  UInt8.ofInt wide

def delta (current previous : UInt8) : Int :=
  let difference := (current.toNat : Int) - previous.toNat
  let difference := if difference > 127 then difference - 256 else difference
  if difference < -128 then difference + 256 else difference

def u32be (source : List UInt8) (i : Nat) : Except Panic UInt32 := do
  let a ← index source i
  let b ← index source (i + 1)
  let c ← index source (i + 2)
  let d ← index source (i + 3)
  return a.toUInt32 * 16777216 + b.toUInt32 * 65536 + c.toUInt32 * 256 + d.toUInt32

def inspectInfo (source : List UInt8) : Except Panic Info :=
  if source.length < 22 then .ok {}
  else do
    let q ← index source 0
    let o ← index source 1
    let i ← index source 2
    let f ← index source 3
    if q ≠ 113 ∨ o ≠ 111 ∨ i ≠ 105 ∨ f ≠ 102 then return {}
    else
      let width ← u32be source 4
      let height ← u32be source 8
      let channels ← index source 12
      let srgb ← index source 13
      if width = 0 ∨ height = 0 ∨ (channels ≠ 3 ∧ channels ≠ 4) ∨ srgb > 1 then return {}
      else return { width := width, height := height, channels := channels, srgb := srgb == 0, ok := true }

/-- The state of the decoder; `run` pixels are still to be repeated. -/
structure Reader where
  pixel : Pixel := .initial
  table : Table := fun _ => 0
  input : Nat := 14
  run : Nat := 0

def tagIndex (tag : UInt8) : Fin 64 :=
  ⟨(tag &&& 63).toNat, by
    rw [UInt8.toNat_and]
    exact Nat.lt_of_le_of_lt Nat.and_le_right (by decide)⟩

/-- What a tag does, with `left` pixels to go; `input` is the index behind the tag. The payload ends
at `stop`, and a failure is an offset. -/
def readTag (source : List UInt8) (stop left : Nat) (reader : Reader) (input : Nat) (tag : UInt8) :
    Except Panic (Except Nat Reader) :=
  if tag = 254 then
    if input + 3 > stop then .ok (.error input)
    else do
      let red ← index source input
      let green ← index source (input + 1)
      let blue ← index source (input + 2)
      return .ok { reader with pixel := ⟨red, green, blue, reader.pixel.alpha⟩, input := input + 3 }
  else if tag = 255 then
    if input + 4 > stop then .ok (.error input)
    else do
      let red ← index source input
      let green ← index source (input + 1)
      let blue ← index source (input + 2)
      let alpha ← index source (input + 3)
      return .ok { reader with pixel := ⟨red, green, blue, alpha⟩, input := input + 4 }
  else if tag &&& 192 = 0 then
    .ok (.ok { reader with pixel := unpacked (reader.table (tagIndex tag)), input := input })
  else if tag &&& 192 = 64 then
    .ok (.ok { reader with
      pixel := {
        red := add reader.pixel.red (((tag >>> 4 &&& 3).toNat : Int) - 2)
        green := add reader.pixel.green (((tag >>> 2 &&& 3).toNat : Int) - 2)
        blue := add reader.pixel.blue (((tag &&& 3).toNat : Int) - 2)
        alpha := reader.pixel.alpha }
      input := input })
  else if tag &&& 192 = 128 then
    if input = stop then .ok (.error input)
    else do
      let second ← index source input
      let dg : Int := ((tag &&& 63).toNat : Int) - 32
      return .ok { reader with
        pixel := {
          red := add reader.pixel.red (dg - 8 + ((second >>> 4).toNat : Int))
          green := add reader.pixel.green dg
          blue := add reader.pixel.blue (dg - 8 + ((second &&& 15).toNat : Int))
          alpha := reader.pixel.alpha }
        input := input + 1 }
  else
    let run := (tag &&& 63).toNat
    if run ≥ left then .ok (.error (input - 1)) else .ok (.ok { reader with run := run, input := input })

/-- One pixel, with `left` pixels to go. -/
def readPixel (source : List UInt8) (stop left : Nat) (reader : Reader) :
    Except Panic (Except Nat Reader) :=
  if reader.run > 0 then .ok (.ok { reader with run := reader.run - 1 })
  else if reader.input ≥ stop then .ok (.error reader.input)
  else do
    let tag ← index source reader.input
    match ← readTag source stop left reader (reader.input + 1) tag with
    | .error offset => return .error offset
    | .ok reader => return .ok { reader with table := reader.table.store reader.pixel }

def readLoop (source : List UInt8) (stop room : Nat) :
    Nat → Reader → List UInt8 → Except Panic (Except Nat (Reader × List UInt8))
  | 0, reader, out => .ok (.ok (reader, out))
  | left + 1, reader, out => do
      match ← readPixel source stop (left + 1) reader with
      | .error offset => return .error offset
      | .ok reader =>
          if out.length + 4 ≤ room then readLoop source stop room left reader (out ++ reader.pixel.bytes)
          else throw "index out of bounds"

/-- The loop over the end marker, of which `left` bytes remain: the offset of a wrong one. -/
def markerLoop (source : List UInt8) (stop : Nat) : Nat → Except Panic (Option Nat)
  | 0 => .ok none
  | left + 1 => do
      let i := 7 - left
      let byte ← index source (stop + i)
      if byte ≠ (if i = 7 then 1 else 0) then return some (stop + i) else markerLoop source stop left

/-- Decodes into a destination of `room` bytes. -/
def decodeInto (w room : Nat) (source : List UInt8) : Except Panic DecodeWork := do
  let info ← inspectInfo source
  if ¬ info.ok then return { error := -22 }
  else
    let count ← product w info.width.toNat info.height.toNat
    if info.width ≠ 0 ∧ count / info.width.toNat ≠ info.height.toNat then return { error := -75 }
    else if count > room / 4 then return { info := info, error := -28 }
    else
      let stop := source.length - 8
      match ← markerLoop source stop 8 with
      | some offset => return { info := info, error := -74, offset := offset }
      | none =>
          match ← readLoop source stop room count {} [] with
          | .error offset => return { info := info, error := -74, offset := offset }
          | .ok (reader, out) =>
              if reader.input ≠ stop then return { info := info, error := -74, offset := reader.input }
              else return { info := info, pixels := out, ok := true }

def putU32be (number : UInt32) : List UInt8 :=
  [(number >>> 24).toUInt8, (number >>> 16).toUInt8, (number >>> 8).toUInt8, number.toUInt8]

/-- The state of the encoder: `run` pixels like the previous one are not written yet. -/
structure Writer where
  previous : Pixel := .initial
  table : Table := fun _ => 0
  run : Nat := 0
  out : List UInt8

/-- Writes bytes if the destination has room for them. -/
def emit (room : Nat) (out bytes : List UInt8) : Option (List UInt8) :=
  if out.length + bytes.length > room then none else some (out ++ bytes)

def runTag (run : Nat) : UInt8 := 192 ||| UInt8.ofNat (run - 1)

/-- The bytes of a pixel that is neither repeated nor in the table. -/
def literal (p previous : Pixel) : List UInt8 :=
  let redDelta := delta p.red previous.red
  let greenDelta := delta p.green previous.green
  let blueDelta := delta p.blue previous.blue
  let redGreen := redDelta - greenDelta
  let blueGreen := blueDelta - greenDelta
  if p.alpha = previous.alpha ∧ redDelta ≥ -2 ∧ redDelta ≤ 1 ∧ greenDelta ≥ -2 ∧ greenDelta ≤ 1 ∧
      blueDelta ≥ -2 ∧ blueDelta ≤ 1 then
    [64 ||| UInt8.ofInt ((redDelta + 2) * 2 ^ 4) ||| UInt8.ofInt ((greenDelta + 2) * 2 ^ 2) |||
      UInt8.ofInt (blueDelta + 2)]
  else if p.alpha = previous.alpha ∧ greenDelta ≥ -32 ∧ greenDelta ≤ 31 ∧ redGreen ≥ -8 ∧ redGreen ≤ 7 ∧
      blueGreen ≥ -8 ∧ blueGreen ≤ 7 then
    [128 ||| UInt8.ofInt (greenDelta + 32),
      UInt8.ofInt ((redGreen + 8) * 2 ^ 4) ||| UInt8.ofInt (blueGreen + 8)]
  else if p.alpha = previous.alpha then [254, p.red, p.green, p.blue]
  else [255, p.red, p.green, p.blue, p.alpha]

/-- One pixel; `last` says that it is the last one. -/
def writePixel (room : Nat) (last : Bool) (p : Pixel) (writer : Writer) : Option Writer :=
  if p = writer.previous then
    let run := writer.run + 1
    if run = 62 ∨ last then
      (emit room writer.out [runTag run]).map fun out => { writer with out := out, run := 0 }
    else some { writer with run := run }
  else do
    let out ← if writer.run > 0 then emit room writer.out [runTag writer.run] else some writer.out
    if writer.table (hash p) = packed p then
      let out ← emit room out [UInt8.ofNat (hash p).val]
      return { writer with previous := p, run := 0, out := out }
    else
      let out ← emit room out (literal p writer.previous)
      return { previous := p, table := writer.table.store p, run := 0, out := out }

/-- The pixel at index `i`. Three channels keep the alpha. -/
def loadPixel (pixels : List UInt8) (channels i : Nat) (alpha : UInt8) : Except Panic Pixel := do
  let at_ := i * channels
  let red ← index pixels at_
  let green ← index pixels (at_ + 1)
  let blue ← index pixels (at_ + 2)
  if channels = 4 then
    let alpha ← index pixels (at_ + 3)
    return ⟨red, green, blue, alpha⟩
  else return ⟨red, green, blue, alpha⟩

/-- The loop over the pixels; none where the destination has no room. -/
def writeLoop (pixels : List UInt8) (channels count room : Nat) :
    Nat → Writer → Except Panic (Option Writer)
  | 0, writer => .ok (some writer)
  | left + 1, writer => do
      let i := count - (left + 1)
      let p ← loadPixel pixels channels i writer.previous.alpha
      match writePixel room (i + 1 = count) p writer with
      | none => return none
      | some writer => writeLoop pixels channels count room left writer

def header (width height : UInt32) (channels : UInt8) (srgb : Bool) : List UInt8 :=
  [113, 111, 105, 102] ++ putU32be width ++ putU32be height ++ [channels, if srgb then 0 else 1]

/-- Encodes into a destination of `room` bytes. -/
def encodeInto (w room : Nat) (pixels : List UInt8) (width height : UInt32) (channels : UInt8)
    (srgb : Bool) : Except Panic EncodeWork :=
  if width = 0 ∨ height = 0 ∨ (channels ≠ 3 ∧ channels ≠ 4) then .ok { error := -22 }
  else do
    let count ← product w width.toNat height.toNat
    if count / width.toNat ≠ height.toNat ∨ count > pixels.length / channels.toNat ∨
        pixels.length ≠ count * channels.toNat ∨ room < 22 then return { error := -28 }
    else
      match ← writeLoop pixels channels.toNat count room count { out := header width height channels srgb } with
      | none => return { error := -28 }
      | some writer =>
          match emit room writer.out [0, 0, 0, 0, 0, 0, 0, 1] with
          | none => return { error := -28 }
          | some out => return { data := out, ok := true }

/-- `push_bytes_uninit`: the arena behind the pushed bytes. -/
def pushBytesUninit (w : Nat) (os : Os) (m : Machine) (count : Nat) : Except Panic Machine :=
  if count = 0 then .ok m
  else do
    let (m, allocation) ← arenaTryPushImpl w os m count 1 false
    if ¬ allocation.ok then throw "arena exhausted or alignment invalid" else return m

def decodeWork (w : Nat) (os os' : Os) (m : Machine) (source : List UInt8) :
    Except Panic (Machine × DecodeWork) := do
  let info ← inspectInfo source
  if ¬ info.ok then return (m, { error := -22 })
  else
    let mark := arenaMark m.arena
    let count ← product w info.width.toNat info.height.toNat
    let size ← product w count 4
    let m ← pushBytesUninit w os m size
    let result ← decodeInto w size source
    if ¬ result.ok then
      let m ← arenaRewind os' m mark
      return (m, result)
    else return (m, result)

def encodeWork (w : Nat) (os os' : Os) (m : Machine) (pixels : List UInt8) (width height : UInt32)
    (channels : UInt8) (srgb : Bool) : Except Panic (Machine × EncodeWork) := do
  let count ← product w width.toNat height.toNat
  let size ← product w count (channels.toNat + 1)
  if size > maximum w - 22 then throw "integer overflow"
  else
    let bound := size + 22
    let mark := arenaMark m.arena
    let m ← pushBytesUninit w os m bound
    let result ← encodeInto w bound pixels width height channels srgb
    if ¬ result.ok then
      let m ← arenaRewind os' m mark
      return (m, result)
    else
      let m ← arenaRewind os' m (mark + result.data.length)
      return (m, result)

/-- The size of an image; zero where it overflows. -/
def pixelCount (w width height channels : Nat) : Nat :=
  if width > maximum w / height then 0
  else if width * height > maximum w / channels then 0
  else width * height * channels

def decode (w : Nat) (os os' : Os) (m : Machine) (source : List UInt8) :
    Except Panic (Machine × Result) := do
  let info ← inspectInfo source
  if ¬ info.ok then return (m, { kind := .invalidInput, detail := -22 })
  else if pixelCount w info.width.toNat info.height.toNat 4 = 0 then
    return (m, { kind := .overflow, detail := -75 })
  else
    let (m, work) ← decodeWork w os os' m source
    return (m, decodeResult work)

def encode (w : Nat) (os os' : Os) (m : Machine) (pixels : List UInt8) (width height : UInt32)
    (channels : UInt8) (srgb : Bool) : Except Panic (Machine × EncodeResult) :=
  if width = 0 ∨ height = 0 ∨ (channels ≠ 3 ∧ channels ≠ 4) then
    .ok (m, { kind := .invalidInput, detail := -22 })
  else
    let size := pixelCount w width.toNat height.toNat channels.toNat
    let boundPixels := pixelCount w width.toNat height.toNat (channels.toNat + 1)
    if size = 0 ∨ boundPixels = 0 ∨ boundPixels > maximum w - 22 then
      .ok (m, { kind := .overflow, detail := -75 })
    else if size ≠ pixels.length then .ok (m, { kind := .invalidInput, detail := -28 })
    else do
      let (m, work) ← encodeWork w os os' m pixels width height channels srgb
      return (m, encodeResult work)

end Dyn.Qoi
