import Dyn.Io.Streams

/-!
# std/encoding/csv: the scanners and the writer

One scanner indexes a slice, the other takes one byte at a time from a reader and may put one back.  Both give
the fields one by one, in a destination of the caller.  An index into the slice is kept as the bytes from it on.
-/

namespace Dyn.Csv

open Errors (Kind)

inductive ErrorKind where
  | None
  | Syntax
  | Capacity
  | Io
deriving DecidableEq, Repr

structure Field where
  text : List UInt8 := []
  endRecord : Bool := false
  endInput : Bool := false
  kind : Kind := .None
  error : Int := 0
  detail : ErrorKind := .None
  ok : Bool := false
deriving DecidableEq, Repr

/-- The portable category of a scanner's error. -/
def failKind (kind : ErrorKind) : Kind := if kind = .Capacity then .Capacity else .InvalidInput

def isDelimiter (byte : UInt8) : Bool := decide (byte = 44 ∨ byte = 13 ∨ byte = 10)

structure Scanner where
  source : List UInt8
  offset : Nat := 0
  finished : Bool := false
  error : ErrorKind := .None
  kind : Kind := .None
  errorOffset : Nat := 0
deriving DecidableEq, Repr

def scanner (source : List UInt8) : Scanner := { source }

namespace Scanner

def fail (state : Scanner) (kind : ErrorKind) : Field × Scanner :=
  let state := { state with error := kind, kind := failKind kind, errorOffset := state.offset, finished := true }
  ({ kind := state.kind, detail := state.error }, state)

/-- Where the loop stops: the bytes from there on, what it has stored, and whether a quoted field is closed. -/
structure Stop where
  rest : List UInt8
  text : List UInt8
  closed : Bool
deriving DecidableEq, Repr

/-- The loop of `next`, from a place in the source on. -/
def loop (quoted : Bool) (capacity : Nat) : List UInt8 → List UInt8 → Except ErrorKind Stop
  | [], text => .ok ⟨[], text, !quoted⟩
  | byte :: rest, text =>
      if quoted then
        if byte = 34 then
          match rest with
          | [] => .ok ⟨[], text, true⟩
          | after :: behind =>
              if after = 34 then
                if text.length = capacity then .error .Capacity else loop quoted capacity behind (text ++ [34])
              else .ok ⟨after :: behind, text, true⟩
        else if text.length = capacity then .error .Capacity
        else loop quoted capacity rest (text ++ [byte])
      else if isDelimiter byte then .ok ⟨byte :: rest, text, true⟩
      else if byte = 34 then .error .Syntax
      else if text.length = capacity then .error .Capacity
      else loop quoted capacity rest (text ++ [byte])

/-- The bytes behind the delimiter of a field, and whether the delimiter ends the record. -/
def behindDelimiter : List UInt8 → List UInt8 × Bool
  | [] => ([], true)
  | byte :: rest =>
      if byte = 44 then (rest, false)
      else if byte = 13 then
        match rest with
        | [] => ([], true)
        | after :: behind => if after = 10 then (behind, true) else (after :: behind, true)
      else (rest, true)

/-- The rest of `next`, behind its loop. -/
def field (state : Scanner) (quoted : Bool) (stop : Stop) : Field × Scanner :=
  if !stop.closed then state.fail .Syntax
  else if quoted && stop.rest.head?.any fun byte => !isDelimiter byte then state.fail .Syntax
  else
    let (behind, endRecord) := behindDelimiter stop.rest
    let state :=
      { state with
        finished := endRecord && decide (behind = [])
        offset := state.source.length - behind.length }
    ({ text := stop.text, endRecord, endInput := state.finished, ok := true }, state)

/-- `next`, into a destination of `capacity` bytes. -/
def next (state : Scanner) (capacity : Nat) : Field × Scanner :=
  if state.finished then ({ kind := state.kind, detail := state.error }, state)
  else
    let rest := state.source.drop state.offset
    let quoted := decide (rest.head? = some 34)
    match loop quoted capacity (if quoted then rest.tail else rest) [] with
    | .error kind => state.fail kind
    | .ok stop => state.field quoted stop

/-- Calls of `next`, each with a destination of its own. -/
def nextAll (state : Scanner) : List Nat → List Field × Scanner
  | [] => ([], state)
  | capacity :: rest =>
      match state.next capacity with
      | (field, state) =>
          match state.nextAll rest with
          | (fields, state) => (field :: fields, state)

end Scanner

structure StreamScanner (σ : Type) where
  input : Io.Reader σ
  data : σ
  lookahead : UInt8 := 0
  hasLookahead : Bool := false
  recordEnded : Bool := false
  ended : Bool := false
  finished : Bool := false
  error : ErrorKind := .None
  kind : Kind := .None
  systemError : Int := 0

def streamScanner {σ : Type} (input : Io.Reader σ) (data : σ) : StreamScanner σ := { input, data }

structure ByteResult where
  value : UInt8 := 0
  isEnd : Bool := false
  ok : Bool := false
deriving DecidableEq, Repr

/-- What one turn of the loop of `next_stream` does. -/
inductive Turn where
  | failed
  | inputEnded (closed : Bool)
  | delimiter (byte : UInt8)
  | quote
  | store (byte : UInt8)
deriving DecidableEq, Repr

/-- How the loop of `next_stream` ends. -/
inductive LoopEnd where
  | failed
  | error (kind : ErrorKind)
  | stopped (closed inputEnded : Bool) (delimiter : UInt8) (text : List UInt8)
deriving DecidableEq, Repr

/-- A turn that stores nothing ends the loop. -/
def Turn.stop (text : List UInt8) : Turn → LoopEnd
  | .failed => .failed
  | .inputEnded closed => .stopped closed true 0 text
  | .delimiter byte => .stopped true false byte text
  | .quote => .error .Syntax
  | .store _ => .error .Capacity

namespace StreamScanner

variable {σ : Type}

def streamByte (state : StreamScanner σ) : ByteResult × StreamScanner σ :=
  if state.hasLookahead then ({ value := state.lookahead, ok := true }, { state with hasLookahead := false })
  else if state.ended then ({ isEnd := true, ok := true }, state)
  else
    match Io.read state.input state.data [0] with
    | ((result, byte), data) =>
        if result.status = .Error then
          ({}, { state with data, error := .Io, kind := result.kind, systemError := result.error, finished := true })
        else
          let state := { state with data, ended := decide (result.status = .End ∨ result.transferred = 0) }
          if result.transferred = 0 then ({ isEnd := true, ok := true }, state)
          else ({ value := byte.getD 0 0, ok := true }, state)

def streamUnread (state : StreamScanner σ) (value : UInt8) : StreamScanner σ :=
  { state with lookahead := value, hasLookahead := true }

/-- The field that tells the error of the scanner. -/
def failure (state : StreamScanner σ) : Field := { kind := state.kind, error := state.systemError, detail := state.error }

def streamFail (state : StreamScanner σ) (kind : ErrorKind) : Field × StreamScanner σ :=
  let state := { state with error := kind, kind := failKind kind, finished := true }
  (state.failure, state)

def streamTurn (quoted : Bool) (state : StreamScanner σ) : Turn × StreamScanner σ :=
  match state.streamByte with
  | (item, state) =>
      if !item.ok then (.failed, state)
      else if item.isEnd then (.inputEnded (!quoted), state)
      else if quoted then
        if item.value = 34 then
          match state.streamByte with
          | (after, state) =>
              if !after.ok then (.failed, state)
              else if after.isEnd then (.inputEnded true, state)
              else if after.value = 34 then (.store 34, state)
              else (.delimiter after.value, state)
        else (.store item.value, state)
      else if item.value = 34 then (.quote, state)
      else if isDelimiter item.value then (.delimiter item.value, state)
      else (.store item.value, state)

/-- The loop of `next_stream`, with room for so many bytes more. -/
def streamLoop (quoted : Bool) : Nat → StreamScanner σ → List UInt8 → LoopEnd × StreamScanner σ
  | 0, state, text =>
      match state.streamTurn quoted with
      | (turn, state) => (turn.stop text, state)
  | room + 1, state, text =>
      match state.streamTurn quoted with
      | (.store byte, state) => streamLoop quoted room state (text ++ [byte])
      | (turn, state) => (turn.stop text, state)

/-- The rest of `next_stream`, behind its loop. -/
def streamField (quoted closed inputEnded : Bool) (delimiter : UInt8) (text : List UInt8) (state : StreamScanner σ) :
    Field × StreamScanner σ :=
  if !closed then state.streamFail .Syntax
  else if quoted && !inputEnded && !isDelimiter delimiter then state.streamFail .Syntax
  else
    let endRecord := inputEnded || decide (delimiter = 13 ∨ delimiter = 10)
    let finish (inputEnded : Bool) (state : StreamScanner σ) : Field × StreamScanner σ :=
      let state := { state with recordEnded := decide (delimiter ≠ 44), finished := state.finished || inputEnded }
      ({ text, endRecord, endInput := state.finished, ok := true }, state)
    if delimiter = 13 then
      match state.streamByte with
      | (afterCr, state) =>
          if !afterCr.ok then (state.failure, state)
          else if afterCr.isEnd then finish true state
          else if afterCr.value ≠ 10 then finish inputEnded (state.streamUnread afterCr.value)
          else finish inputEnded state
    else finish inputEnded state

/-- `next_stream`, into a destination of `capacity` bytes. -/
def nextStream (state : StreamScanner σ) (capacity : Nat) : Field × StreamScanner σ :=
  if state.finished then (state.failure, state)
  else
    match state.streamByte with
    | (first, state) =>
        if !first.ok then (state.failure, state)
        else if first.isEnd then
          ({ endRecord := true, endInput := true, ok := !state.recordEnded }, { state with finished := true })
        else
          let quoted := decide (first.value = 34)
          match streamLoop quoted capacity (if quoted then state else state.streamUnread first.value) [] with
          | (.failed, state) => (state.failure, state)
          | (.error kind, state) => state.streamFail kind
          | (.stopped closed inputEnded delimiter text, state) =>
              streamField quoted closed inputEnded delimiter text state

/-- Calls of `next_stream`, each with a destination of its own. -/
def nextStreamAll (state : StreamScanner σ) : List Nat → List Field × StreamScanner σ
  | [] => ([], state)
  | capacity :: rest =>
      match state.nextStream capacity with
      | (field, state) =>
          match state.nextStreamAll rest with
          | (fields, state) => (field :: fields, state)

end StreamScanner

structure Writer (σ : Type) where
  sink : Io.Writer σ
  data : σ
  fields : Nat := 0
  failed : Bool := false
  error : Int := 0
  kind : Kind := .None
  detail : ErrorKind := .None

def writer {σ : Type} (sink : Io.Writer σ) (data : σ) : Writer σ := { sink, data }

namespace Writer

variable {σ : Type}

def writeAll (state : Writer σ) (bytes : List UInt8) : Bool × Writer σ :=
  if state.failed then (false, state)
  else
    match Io.writeAll state.sink state.data bytes with
    | (result, data) =>
        if result.status = .Error then
          (false, { state with data, failed := true, error := result.error, kind := result.kind, detail := .Io })
        else (true, { state with data })

/-- A write that a condition calls for: `!(condition && !write_all(..))`. -/
def writeIf (state : Writer σ) (condition : Bool) (bytes : List UInt8) : Bool × Writer σ :=
  if condition then state.writeAll bytes else (true, state)

/-- The loop of `write_field` over the value and the write behind it, where `run` is `value[start..i]`. -/
def writeRuns (state : Writer σ) (run : List UInt8) : List UInt8 → Bool × Writer σ
  | [] => state.writeIf (!run.isEmpty) run
  | byte :: rest =>
      if byte = 34 then
        match state.writeIf (!run.isEmpty) run with
        | (false, state) => (false, state)
        | (true, state) =>
            match state.writeAll [34, 34] with
            | (false, state) => (false, state)
            | (true, state) => state.writeRuns [] rest
      else state.writeRuns (run ++ [byte]) rest

def needsQuotes (value : List UInt8) : Bool := value.any fun byte => decide (byte = 44 ∨ byte = 34 ∨ byte = 13 ∨ byte = 10)

def writeField (state : Writer σ) (value : List UInt8) (endRecord : Bool) : Bool × Writer σ :=
  if state.failed then (false, state)
  else
    match state.writeIf (decide (0 < state.fields)) [44] with
    | (false, state) => (false, state)
    | (true, state) =>
        match state.writeIf (needsQuotes value) [34] with
        | (false, state) => (false, state)
        | (true, state) =>
            match state.writeRuns [] value with
            | (false, state) => (false, state)
            | (true, state) =>
                match state.writeIf (needsQuotes value) [34] with
                | (false, state) => (false, state)
                | (true, state) =>
                    let state := { state with fields := state.fields + 1 }
                    if endRecord then
                      match state.writeAll [13, 10] with
                      | (false, state) => (false, state)
                      | (true, state) => (true, { state with fields := 0 })
                    else (true, state)

/-- Calls of `write_field`, each with its `end_record`, until one fails. -/
def writeFields (state : Writer σ) : List (List UInt8 × Bool) → Bool × Writer σ
  | [] => (true, state)
  | (value, endRecord) :: rest =>
      match state.writeField value endRecord with
      | (false, state) => (false, state)
      | (true, state) => state.writeFields rest

end Writer

end Dyn.Csv
