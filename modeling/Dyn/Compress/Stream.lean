import Dyn.Compress.Inflate

/-!
# std/compress/deflate: the streaming decoder

The decoder pulls compressed bytes from a reader into a bounded buffer, and inflates into a
circular history from which the caller's reads are served.

A `Source` is a reader over a byte string: `plan` chooses how many bytes each read gives, at
least one while there are any, and `eager` says whether the last bytes come with `End`.
The used part of the compressed storage is a list; bytes beyond it are never read.
-/

namespace Dyn.Compress

open Lib

inductive Status where
  | Complete
  | End
  | Error
deriving DecidableEq, Repr

/-- A reader over the bytes `rest`. -/
structure Source where
  rest : List UInt8
  plan : Nat → Nat
  eager : Bool

/-- A read into `room > 0` bytes. -/
def Source.read (source : Source) (room : Nat) : (List UInt8 × Status) × Source :=
  let amount := min (max 1 (source.plan 0)) room
  let rest := source.rest.drop amount
  ((source.rest.take amount,
      if source.rest = [] ∨ (source.eager ∧ rest = []) then .End else .Complete),
    { source with rest := rest, plan := fun n => source.plan (n + 1) })

structure Decoder where
  engine : InflateState := {}
  source : Source
  compressedSize : Nat
  compressed : List UInt8 := []
  outputSize : Nat
  output : Nat → UInt8
  offset : Nat := 0
  sourceEnded : Bool := false
  finished : Bool := false
  error : Int := 0
  gzip : Bool
  phase : Nat := 0
  flags : Nat := 0
  extra : Nat := 0
  headerCrc : UInt32 := 4294967295
  checksum : UInt32 := 4294967295
  memberSize : Nat := 0
  members : Nat := 0

namespace Decoder

def at_ (state : Decoder) : Nat := state.engine.reader.at_

def setAt (state : Decoder) (position : Nat) : Decoder :=
  { state with
    engine := { state.engine with reader := { state.engine.reader with at_ := position } } }

end Decoder

/-- Drop input already committed by the bit engine, and read more. -/
def refill (state : Decoder) : Bool × Decoder :=
  let state := { state with compressed := state.compressed.drop state.at_ }.setAt 0
  if state.sourceEnded then (false, state)
  else if state.compressed.length = state.compressedSize then
    (false, { state with error := -28 })
  else
    let ((bytes, status), source) :=
      state.source.read (state.compressedSize - state.compressed.length)
    let state := { state with compressed := state.compressed ++ bytes, source := source }
    let state :=
      if status = .End ∨ bytes = [] then { state with sourceEnded := true } else state
    (decide (bytes ≠ []), state)

/-- The loop of `require_bytes`; every round but the last reads a byte. -/
def requireLoop (amount : Nat) : Nat → Decoder → Bool × Decoder
  | 0, state => (false, state)
  | fuel + 1, state =>
      if state.compressed.length - state.at_ < amount then
        match refill state with
        | (true, state) => requireLoop amount fuel state
        | (false, state) =>
            (false, { state with error := if state.error = 0 then -74 else state.error })
      else (true, state)

def requireBytes (state : Decoder) (amount : Nat) : Bool × Decoder :=
  requireLoop amount (state.source.rest.length + 2) state

def headerByte (state : Decoder) : UInt8 × Decoder :=
  let byte := state.compressed.getD state.at_ 0
  (byte, { state.setAt (state.at_ + 1) with headerCrc := crcByte state.headerCrc byte })

/-- A run of header bytes whose values are not used. -/
def headerBytes : Nat → Decoder → Decoder
  | 0, state => state
  | n + 1, state => headerBytes n (headerByte state).2

def extraLoop : Nat → Decoder → Bool × Decoder
  | 0, state => (true, state)
  | fuel + 1, state =>
      if state.extra > 0 then
        match requireBytes state 1 with
        | (false, state) => (false, state)
        | (true, state) =>
            let state := (headerByte state).2
            extraLoop fuel { state with extra := state.extra - 1 }
      else (true, state)

/-- The loop that skips a text field through its zero byte. -/
def textLoop : Nat → Decoder → Bool × Decoder
  | 0, state => (false, state)
  | fuel + 1, state =>
      match requireBytes state 1 with
      | (false, state) => (false, state)
      | (true, state) =>
          let (byte, state) := headerByte state
          if byte = 0 then (true, state) else textLoop fuel state

def fixedPart (state : Decoder) : Bool × Decoder :=
  match requireBytes state 10 with
  | (false, state) => (false, state)
  | (true, state) =>
      let bytes := state.compressed
      if byteAt bytes state.at_ ≠ 31 ∨ byteAt bytes (state.at_ + 1) ≠ 139 ∨
          byteAt bytes (state.at_ + 2) ≠ 8 ∨ byteAt bytes (state.at_ + 3) &&& 224 ≠ 0 then
        (false, { state with error := -74 })
      else
        let state := { state with flags := byteAt bytes (state.at_ + 3) }
        (true, { headerBytes 10 state with phase := 1 })

/-- Phase 0: the fixed part of a header, or the end behind the last member. -/
def startMember (state : Decoder) : Bool × Decoder :=
  if state.members > 0 ∧ state.at_ = state.compressed.length then
    match refill state with
    | (false, state) =>
        if state.error = 0 ∧ state.sourceEnded then (false, { state with finished := true })
        else fixedPart state
    | (true, state) => fixedPart state
  else fixedPart state

/-- Phase 1: the length of the extra field. -/
def extraField (state : Decoder) : Bool × Decoder :=
  if state.flags &&& 4 ≠ 0 then
    match requireBytes state 2 with
    | (false, state) => (false, state)
    | (true, state) =>
        let (low, state) := headerByte state
        let (high, state) := headerByte state
        (true, { state with extra := low.toNat + high.toNat * 256, phase := 2 })
  else (true, { state with phase := 2 })

/-- Phases 3 and 4: a text field, if its flag is set. -/
def textField (flag : Nat) (state : Decoder) : Bool × Decoder :=
  if state.flags &&& flag ≠ 0 then
    match textLoop (state.compressed.length + state.source.rest.length + 1) state with
    | (false, state) => (false, state)
    | (true, state) => (true, { state with phase := state.phase + 1 })
  else (true, { state with phase := state.phase + 1 })

def checkField (state : Decoder) : Bool × Decoder :=
  if state.flags &&& 2 ≠ 0 then
    match requireBytes state 2 with
    | (false, state) => (false, state)
    | (true, state) =>
        let expected := byteAt state.compressed state.at_ +
          byteAt state.compressed (state.at_ + 1) * 256
        if (state.headerCrc ^^^ 4294967295).toNat &&& 65535 ≠ expected then
          (false, { state with error := -74 })
        else (true, { state.setAt (state.at_ + 2) with phase := 6 })
  else (true, { state with phase := 6 })

/-- One round of `gzip_header`; the flag says whether its loop goes on. -/
def headerRound (state : Decoder) : Bool × Decoder :=
  if state.phase = 0 then startMember state
  else if state.phase = 1 then extraField state
  else if state.phase = 2 then
    match extraLoop state.extra state with
    | (false, state) => (false, state)
    | (true, state) => (true, { state with phase := 3 })
  else if state.phase = 3 ∨ state.phase = 4 then
    textField (if state.phase = 4 then 16 else 8) state
  else checkField state

/-- The loop of `gzip_header`: every round moves to the next phase. -/
def headerLoop : Nat → Decoder → Bool × Decoder
  | 0, state => (decide (state.error = 0), state)
  | fuel + 1, state =>
      if state.phase < 6 ∧ state.error = 0 then
        match headerRound state with
        | (false, state) => (false, state)
        | (true, state) => headerLoop fuel state
      else (decide (state.error = 0), state)

def gzipHeader (state : Decoder) : Bool × Decoder := headerLoop 6 state

/-- The checksum of the history from `position` on. -/
def crcHistory (state : Decoder) : Nat → Nat → UInt32 → UInt32
  | 0, _, crc => crc
  | n + 1, position, crc =>
      crcHistory state n (position + 1)
        (crcByte crc (state.output (position % state.outputSize)))

/-- The check of a member's trailer, and the state for the next member. -/
def endMember (state : Decoder) : Bool × Decoder :=
  match requireBytes state 8 with
  | (false, state) => (false, state)
  | (true, state) =>
      if little32 state.compressed state.at_ ≠ (state.checksum ^^^ 4294967295).toNat ∨
          little32 state.compressed (state.at_ + 4) ≠ state.memberSize then
        (false, { state with error := -74 })
      else
        (true, { state with
          engine := { reader := { at_ := state.at_ + 8 } }
          offset := 0
          phase := 0
          flags := 0
          members := state.members + 1
          headerCrc := 4294967295
          checksum := 4294967295
          memberSize := 0 })

/-- Add the output from `before` on to the checksum and the size of the member. -/
def sumOutput (before written : Nat) (state : Decoder) : Decoder :=
  if state.gzip then
    { state with
      checksum := crcHistory state (written - before) before state.checksum
      memberSize := (state.memberSize + (written - before)) % 2 ^ 32 }
  else state

/-- Inflate what is buffered; ask for more input when that gives no output. -/
def inflateMore (state : Decoder) : Bool × Decoder :=
  let before := state.engine.written
  let (result, engine, output) :=
    resumeImpl state.engine state.outputSize state.output state.compressed true
  let state := { state with engine := engine, output := output }
  if engine.error ≠ 0 then (false, { state with error := engine.error })
  else
    let state := sumOutput before result.written state
    if result.written > before then (false, state)
    else if result.ok then (true, state)
    else if engine.outputFull then (false, { state with error := -28 })
    else
      match refill state with
      | (true, state) => (true, state)
      | (false, state) =>
          (false, { state with error := if state.error = 0 then -74 else state.error })

def bodyRound (state : Decoder) : Bool × Decoder :=
  if state.engine.stage = 3 then
    if !state.gzip then (false, { state with finished := true }) else endMember state
  else inflateMore state

/-- One round of the loop of `decoder_read`; the flag says whether it goes on. -/
def readRound (state : Decoder) : Bool × Decoder :=
  match (if state.gzip ∧ state.phase < 6 then gzipHeader state else (true, state)) with
  | (false, state) => (false, state)
  | (true, state) => bodyRound state

def readLoop : Nat → Decoder → Decoder
  | 0, state => state
  | fuel + 1, state =>
      if state.offset = state.engine.written ∧ !state.finished ∧ state.error = 0 then
        match readRound state with
        | (true, state) => readLoop fuel state
        | (false, state) => state
      else state

/-- Rounds that suffice: each reads a byte, ends a member or is the last. -/
def readFuel (state : Decoder) : Nat :=
  2 * (state.compressed.length + state.source.rest.length) + 4

structure ReadResult where
  bytes : List UInt8 := []
  error : Int := 0
  status : Status := .Complete
deriving DecidableEq, Repr

def decoderRead (state : Decoder) (size : Nat) : ReadResult × Decoder :=
  if size = 0 then ({}, state)
  else
    let state := readLoop (readFuel state) state
    if state.error ≠ 0 then ({ error := state.error, status := .Error }, state)
    else
      let remaining := state.engine.written - state.offset
      let amount := min remaining size
      ({ bytes := (List.range amount).map
          (fun i => state.output ((state.offset + i) % state.outputSize))
         status := if state.finished ∧ amount = remaining then .End else .Complete },
        { state with offset := state.offset + amount })

/-- A new decoder over a source, with the sizes and contents of its two buffers. -/
def decoder (source : Source) (compressedSize outputSize : Nat) (output : Nat → UInt8)
    (gzip : Bool) : Decoder :=
  { source := source, compressedSize := compressedSize, outputSize := outputSize,
    output := output, gzip := gzip }

end Dyn.Compress
