import Dyn.Lib.Bits

/-!
# std/compress/deflate: encoder and inflate engine

The encoders write a destination front to back, so a destination is its capacity and
the bytes written so far.  The inflate engine also reads the bytes it has written; its
destination is a byte map, linear for `resume` and circular for the streaming decoder.

Loops of the source that stop on a data-dependent test carry a fuel argument; each
call passes a bound on the number of rounds.  `u32` counters of the bit reader and
writer hold fewer than 24 bits, so they are natural numbers.  `at` is a keyword here and
reads `at_`; the parameter that selects circular output is called `circular`.
-/

namespace Dyn.Compress

open Lib Function

structure Result where
  written : Nat := 0
  consumed : Nat := 0
  ok : Bool := false
deriving DecidableEq, Repr

def storedHeader (last : Bool) (amount : Nat) : List UInt8 :=
  [if last then 1 else 0, UInt8.ofNat (amount % 256), UInt8.ofNat (amount / 256),
    UInt8.ofNat ((65535 - amount) % 256), UInt8.ofNat ((65535 - amount) / 256)]

def storedLoop (capacity : Nat) (input : List UInt8) (final : Bool) :
    Nat → Nat → List UInt8 → Result × List UInt8
  | 0, read, out => (⟨out.length, read, true⟩, out)
  | fuel + 1, read, out =>
      if read < input.length ∨ (input.length = 0 ∧ out.length = 0) then
        let amount := min (input.length - read) 65535
        if capacity - out.length < amount + 5 then (⟨out.length, read, false⟩, out)
        else
          let last := final && decide (read + amount = input.length)
          let out := out ++ (storedHeader last amount ++ (input.drop read).take amount)
          if input.length = 0 then (⟨out.length, 0, true⟩, out)
          else storedLoop capacity input final fuel (read + amount) out
      else (⟨out.length, read, true⟩, out)

def deflateStoredChunk (capacity : Nat) (input : List UInt8) (final : Bool) :
    Result × List UInt8 :=
  storedLoop capacity input final (input.length + 1) 0 []

structure BitWriter where
  capacity : Nat
  out : List UInt8
  value : Nat
  count : Nat
  ok : Bool
deriving DecidableEq, Repr

def reverseLoop : Nat → Nat → Nat → Nat
  | 0, _, result => result
  | n + 1, value, result => reverseLoop n (value / 2) (result * 2 + value % 2)

def reverseCode (value count : Nat) : Nat := reverseLoop count value 0

/-- The loop that moves whole bytes to the destination. -/
def flushBytes : Nat → BitWriter → BitWriter
  | 0, writer => writer
  | fuel + 1, writer =>
      if writer.count ≥ 8 then
        if writer.out.length = writer.capacity then { writer with ok := false }
        else
          flushBytes fuel
            { writer with
              out := writer.out ++ [UInt8.ofNat (writer.value &&& 255)]
              value := writer.value >>> 8
              count := writer.count - 8 }
      else writer

def writeBits (writer : BitWriter) (value count : Nat) : BitWriter :=
  if !writer.ok then writer
  else
    flushBytes (writer.count + count)
      { writer with
        value := writer.value + value * 2 ^ writer.count
        count := writer.count + count }

/-- Code number and code length of a symbol in the fixed tree. -/
def fixedCode (symbol : Nat) : Nat × Nat :=
  if symbol ≤ 143 then (48 + symbol, 8)
  else if symbol ≤ 255 then (400 + symbol - 144, 9)
  else if symbol ≤ 279 then (symbol - 256, 7)
  else (192 + symbol - 280, 8)

/-- Code number and code length of a symbol in the deterministic dynamic tree. -/
def dynamicCode (symbol : Nat) : Nat × Nat :=
  if symbol ≤ 143 then (52 + symbol, 8)
  else if symbol ≤ 255 then (400 + symbol - 144, 9)
  else if symbol ≤ 281 then (symbol - 256, 7)
  else (196 + symbol - 282, 8)

def symbolCode (dynamic : Bool) (symbol : Nat) : Nat × Nat :=
  if dynamic then dynamicCode symbol else fixedCode symbol

def encodedSymbol (writer : BitWriter) (symbol : Nat) (dynamic : Bool) : BitWriter :=
  let (code, length) := symbolCode dynamic symbol
  writeBits writer (reverseCode code length) length

def LengthBase : List Nat :=
  [3, 4, 5, 6, 7, 8, 9, 10, 11, 13, 15, 17, 19, 23, 27, 31, 35, 43, 51, 59, 67, 83, 99, 115,
    131, 163, 195, 227, 258]

def LengthExtra : List Nat :=
  [0, 0, 0, 0, 0, 0, 0, 0, 1, 1, 1, 1, 2, 2, 2, 2, 3, 3, 3, 3, 4, 4, 4, 4, 5, 5, 5, 5, 0]

def DistanceBase : List Nat :=
  [1, 2, 3, 4, 5, 7, 9, 13, 17, 25, 33, 49, 65, 97, 129, 193, 257, 385, 513, 769, 1025, 1537,
    2049, 3073, 4097, 6145, 8193, 12289, 16385, 24577]

def DistanceExtra : List Nat :=
  [0, 0, 0, 0, 1, 1, 2, 2, 3, 3, 4, 4, 5, 5, 6, 6, 7, 7, 8, 8, 9, 9, 10, 10, 11, 11, 12, 12,
    13, 13]

/-- The search for the last base that does not exceed `value`. -/
def bucketLoop (bases : List Nat) (value : Nat) : Nat → Nat → Nat
  | 0, index => index
  | fuel + 1, index =>
      if index + 1 < bases.length then
        if bases.getD (index + 1) 0 > value then index
        else bucketLoop bases value fuel (index + 1)
      else index

def bucket (bases : List Nat) (value : Nat) : Nat := bucketLoop bases value bases.length 0

/-- The extra bits of a length or distance, written only when there are any. -/
def writeExtra (writer : BitWriter) (value extra : Nat) : BitWriter :=
  if extra ≠ 0 then writeBits writer value extra else writer

def fixedLength (writer : BitWriter) (length : Nat) (dynamic : Bool) : BitWriter :=
  let index := bucket LengthBase length
  let writer := encodedSymbol writer (257 + index) dynamic
  writeExtra writer (length - LengthBase.getD index 0) (LengthExtra.getD index 0)

/-- Code number and code length of a distance symbol. -/
def distanceCode (dynamic : Bool) (index : Nat) : Nat × Nat :=
  if dynamic then if index ≥ 2 then (index + 2, 5) else (index, 4) else (index, 5)

def fixedDistance (writer : BitWriter) (distance : Nat) (dynamic : Bool) : BitWriter :=
  let index := bucket DistanceBase distance
  let (code, length) := distanceCode dynamic index
  let writer := writeBits writer (reverseCode code length) length
  writeExtra writer (distance - DistanceBase.getD index 0) (DistanceExtra.getD index 0)

def byteAt (input : List UInt8) (i : Nat) : Nat := (input.getD i 0).toNat

def hash3 (input : List UInt8) (at_ capacity : Nat) : Nat :=
  (byteAt input at_ * 251 + byteAt input (at_ + 1) * 31 + byteAt input (at_ + 2)) % capacity

/-- The comparison loop; the first argument is the room left below the limit. -/
def matchLoop (input : List UInt8) (candidate at_ : Nat) : Nat → Nat → Nat
  | 0, best => best
  | room + 1, best =>
      if input.getD (candidate + best) 0 = input.getD (at_ + best) 0 then
        matchLoop input candidate at_ room (best + 1)
      else best

/-- Length and distance of the match the hash table proposes at `at_`; length 0 is a
literal. -/
def findMatch (input : List UInt8) (at_ previous : Nat) : Nat × Nat :=
  if previous ≠ 0 then
    let candidate := previous - 1
    let distance := at_ - candidate
    if distance ≤ 32768 then
      let best := matchLoop input candidate at_ (min (input.length - at_) 258) 0
      (if best < 3 then 0 else best, distance)
    else (0, distance)
  else (0, 0)

/-- The hash table entries of the positions `at_ + 1, …, at_ + n` inside a match. -/
def insertRun (input : List UInt8) (size at_ : Nat) : Nat → (Nat → Nat) → Nat → Nat
  | 0, scratch => scratch
  | n + 1, scratch =>
      let scratch := insertRun input size at_ n scratch
      if at_ + (n + 1) + 2 < input.length then
        update scratch (hash3 input (at_ + (n + 1)) size) (at_ + (n + 1) + 1)
      else scratch

/-- One round of the matcher: the match found at `at_` and the table after it. -/
def matchRound (input : List UInt8) (size at_ : Nat) (scratch : Nat → Nat) :
    (Nat × Nat) × (Nat → Nat) :=
  if at_ + 2 < input.length then
    let hash := hash3 input at_ size
    let found := findMatch input at_ (scratch hash)
    let scratch := update scratch hash (at_ + 1)
    (found, if found.1 = 0 then scratch else insertRun input size at_ (found.1 - 1) scratch)
  else ((0, 0), scratch)

def huffmanLoop (input : List UInt8) (size : Nat) (dynamic : Bool) :
    Nat → Nat → (Nat → Nat) → BitWriter → Nat × BitWriter
  | 0, at_, _, writer => (at_, writer)
  | fuel + 1, at_, scratch, writer =>
      if at_ < input.length ∧ writer.ok then
        let (found, scratch) := matchRound input size at_ scratch
        if found.1 = 0 then
          huffmanLoop input size dynamic fuel (at_ + 1) scratch
            (encodedSymbol writer (byteAt input at_) dynamic)
        else
          huffmanLoop input size dynamic fuel (at_ + found.1) scratch
            (fixedDistance (fixedLength writer found.1 dynamic) found.2 dynamic)
      else (at_, writer)

def codeLengthOrder : List Nat :=
  [16, 17, 18, 0, 8, 7, 9, 6, 10, 5, 11, 4, 12, 3, 13, 2, 14, 1, 15]

/-- Code length of a literal or length symbol in the dynamic tree. -/
def dynamicLength (symbol : Nat) : Nat :=
  if symbol ≥ 144 ∧ symbol ≤ 255 then 9
  else if symbol ≥ 256 ∧ symbol ≤ 281 then 7
  else 8

/-- The header of a dynamic block: counts, code length code, code lengths. -/
def dynamicHeader (writer : BitWriter) : BitWriter :=
  let writer := writeBits writer 2 2
  let writer := writeBits writer 29 5
  let writer := writeBits writer 29 5
  let writer := writeBits writer 15 4
  let writer := codeLengthOrder.foldl
    (fun writer symbol => writeBits writer (if symbol ≤ 12 then 4 else 5) 3) writer
  let writer := (List.range 286).foldl
    (fun writer symbol => writeBits writer (reverseCode (dynamicLength symbol) 4) 4) writer
  (List.range 30).foldl
    (fun writer symbol => writeBits writer (reverseCode (if symbol < 2 then 4 else 5) 4) 4)
    writer

/-- The byte that holds the last, fewer than eight, bits. -/
def lastByte (writer : BitWriter) : BitWriter :=
  if writer.ok ∧ writer.count ≠ 0 then
    if writer.out.length = writer.capacity then { writer with ok := false }
    else { writer with out := writer.out ++ [UInt8.ofNat writer.value] }
  else writer

def deflateHuffmanChunk (capacity : Nat) (input : List UInt8) (final : Bool) (size : Nat)
    (dynamic : Bool) : Result × List UInt8 :=
  if size = 0 then ({}, [])
  else
    let writer : BitWriter := ⟨capacity, [], 0, 0, true⟩
    let writer := writeBits writer (if final then 1 else 0) 1
    let writer := if dynamic then dynamicHeader writer else writeBits writer 1 2
    let (at_, writer) := huffmanLoop input size dynamic input.length 0 (fun _ => 0) writer
    let writer := lastByte (encodedSymbol writer 256 dynamic)
    (⟨writer.out.length, at_, writer.ok⟩, writer.out)

def deflateFixedChunk (capacity : Nat) (input : List UInt8) (final : Bool) (size : Nat) :
    Result × List UInt8 :=
  deflateHuffmanChunk capacity input final size false

def deflateDynamicChunk (capacity : Nat) (input : List UInt8) (final : Bool) (size : Nat) :
    Result × List UInt8 :=
  deflateHuffmanChunk capacity input final size true

structure Bits where
  input : List UInt8 := []
  at_ : Nat := 0
  value : Nat := 0
  count : Nat := 0
  shortInput : Bool := false
deriving DecidableEq, Repr

/-- Code that reads from `Bits` and may fail, leaving the reader where it stopped. -/
def Read (α : Type) := Bits → Option α × Bits

/-- The loop that loads bytes until `count` bits are there. -/
def loadBytes (count : Nat) : Nat → Bits → Bool × Bits
  | 0, reader => (decide (count ≤ reader.count), reader)
  | fuel + 1, reader =>
      if reader.count < count then
        match reader.input[reader.at_]? with
        | none => (false, { reader with shortInput := true })
        | some byte =>
            loadBytes count fuel
              { reader with
                value := reader.value + byte.toNat * 2 ^ reader.count
                at_ := reader.at_ + 1
                count := reader.count + 8 }
      else (true, reader)

def readBits (count : Nat) : Read Nat := fun reader =>
  match loadBytes count count reader with
  | (false, reader) => (none, reader)
  | (true, reader) =>
      (some (reader.value &&& (2 ^ count - 1)),
        { reader with value := reader.value / 2 ^ count, count := reader.count - count })

/-- The reader of the source: `bits`, the reset of `value` and `count` that drops a
partial byte, and `return false`. -/
instance : BitSource Read where
  pure a := fun reader => (some a, reader)
  bind f g := fun reader =>
    match f reader with
    | (some a, reader) => g a reader
    | (none, reader) => (none, reader)
  bits := readBits
  dropPartial := fun reader => (some (), { reader with value := 0, count := 0 })
  failRead := fun reader => (none, reader)

/-- A table: for each symbol its code length, 0 for none, and its code, first bit lowest. -/
structure Huffman where
  codes : List Nat := []
  lengths : List Nat := []
deriving DecidableEq, Repr

/-- The length histogram, with `counts[0]` cleared. -/
def countLengths (lengths : List Nat) : List Nat :=
  (lengths.foldl (fun counts l => counts.set l (counts.getD l 0 + 1))
    (List.replicate 16 0)).set 0 0

/-- The Kraft check over lengths `i, …, 15`: the unused codes, or none when oversubscribed. -/
def kraftLoop (counts : List Nat) : Nat → Nat → Nat → Option Nat
  | 0, _, left => some left
  | n + 1, i, left =>
      if counts.getD i 0 > left * 2 then none
      else kraftLoop counts n (i + 1) (left * 2 - counts.getD i 0)

/-- First code of each length `i, …`, for `n` lengths. -/
def firstCodes (counts : List Nat) : Nat → Nat → Nat → List Nat → List Nat
  | 0, _, _, next => next
  | n + 1, i, code, next =>
      let code := (code + counts.getD (i - 1) 0) * 2
      firstCodes counts n (i + 1) code (next.set i code)

def assignCodes : List Nat → List Nat → List Nat
  | [], _ => []
  | length :: rest, next =>
      if length ≠ 0 then
        reverseCode (next.getD length 0) length ::
          assignCodes rest (next.set length (next.getD length 0 + 1))
      else 0 :: assignCodes rest next

def build (lengths : List Nat) (allowEmpty requireComplete : Bool) : Option Huffman :=
  if lengths.any (fun l => l > 15) then none
  else if lengths.all (fun l => l = 0) then
    if allowEmpty then some {} else none
  else
    let counts := countLengths lengths
    match kraftLoop counts 15 1 1 with
    | none => none
    | some left =>
        if requireComplete ∧ left ≠ 0 ∧ counts.getD 1 0 ≠ 1 then none
        else
          some ⟨assignCodes lengths (firstCodes counts 15 1 0 (List.replicate 16 0)), lengths⟩

/-- The search of a table for the symbol with the given code. -/
def findSymbol (length code : Nat) : List Nat → List Nat → Nat → Option Nat
  | l :: lengths, c :: codes, symbol =>
      if l = length ∧ c = code then some symbol
      else findSymbol length code lengths codes (symbol + 1)
  | _, _, _ => none

section Reading

open BitSource

variable {M : Type → Type} [BitSource M]

/-- The bit-by-bit decoding loop over code lengths `length, …, 15`. -/
def decodeLoop (table : Huffman) : Nat → Nat → Nat → Nat → M Nat
  | 0, _, _, _ => failRead
  | n + 1, length, code, factor => do
      let bit ← bits 1
      let code := code + bit * factor
      match findSymbol length code table.lengths table.codes 0 with
      | some symbol => pure symbol
      | none => decodeLoop table n (length + 1) code (factor * 2)

def decode (table : Huffman) : M Nat := decodeLoop table 15 1 0 1

def fixedLiteralLengths : List Nat :=
  List.replicate 144 8 ++ List.replicate 112 9 ++ List.replicate 24 7 ++ List.replicate 8 8

def fixedDistanceLengths : List Nat := List.replicate 32 5

/-- The code length code: three bits for each symbol, in transmission order. -/
def readCodeLengths : List Nat → List Nat → M (List Nat)
  | [], lengths => pure lengths
  | symbol :: order, lengths => do
      let value ← bits 3
      readCodeLengths order (lengths.set symbol value)

/-- The code lengths of both trees, run-length coded. -/
def readLengths (table : Huffman) (total : Nat) : Nat → List Nat → M (List Nat)
  | 0, lengths => pure lengths
  | fuel + 1, lengths =>
      if lengths.length < total then do
        let symbol ← decode table
        if symbol < 16 then readLengths table total fuel (lengths ++ [symbol])
        else if symbol = 16 then
          if lengths.length = 0 then failRead
          else do
            let value ← bits 2
            if value + 3 > total - lengths.length then failRead
            else
              readLengths table total fuel
                (lengths ++ List.replicate (value + 3) (lengths.getLast?.getD 0))
        else if symbol = 17 then do
          let value ← bits 3
          if value + 3 > total - lengths.length then failRead
          else readLengths table total fuel (lengths ++ List.replicate (value + 3) 0)
        else if symbol = 18 then do
          let value ← bits 7
          if value + 11 > total - lengths.length then failRead
          else readLengths table total fuel (lengths ++ List.replicate (value + 11) 0)
        else failRead
      else pure lengths

/-- A list extended with zeros to `n` entries: an array cleared before it is filled. -/
def padTo (n : Nat) (lengths : List Nat) : List Nat :=
  lengths ++ List.replicate (n - lengths.length) 0

/-- The checks that end `tables`. -/
def buildTables (literal distance : List Nat) : M (Huffman × Huffman) :=
  match build literal false false with
  | none => failRead
  | some literalTable =>
      if literal.getD 256 0 = 0 then failRead
      else
        match build distance true false with
        | none => failRead
        | some distanceTable => pure (literalTable, distanceTable)

/-- The trees of a block of kind 1 or 2.  The source fills the tables of the state even
when a later check fails; the engine then never uses them. -/
def tables (kind : Nat) : M (Huffman × Huffman) :=
  if kind = 1 then buildTables fixedLiteralLengths fixedDistanceLengths
  else do
    let value ← bits 5
    let literalCount := value + 257
    if literalCount > 286 then failRead
    else do
      let value ← bits 5
      let distanceCount := value + 1
      let value ← bits 4
      let codeLengths ←
        readCodeLengths (codeLengthOrder.take (value + 4)) (List.replicate 19 0)
      match build codeLengths false false with
      | none => failRead
      | some codeTable => do
          let total := literalCount + distanceCount
          let lengths ← readLengths codeTable total total []
          buildTables (padTo 288 (lengths.take literalCount))
            (padTo 32 (lengths.drop literalCount))

structure InflateState where
  reader : Bits := {}
  literal : Huffman := {}
  distance : Huffman := {}
  stage : Nat := 0
  final : Nat := 0
  stored : Nat := 0
  written : Nat := 0
  error : Int := 0
  outputFull : Bool := false
deriving DecidableEq, Repr

def needInput (state : InflateState) (reader before : Bits) : InflateState :=
  { state with
    error := if !reader.shortInput then -74 else state.error
    reader := before }

def outputIndex (at_ capacity : Nat) (circular : Bool) : Nat :=
  if circular then at_ % capacity else at_

inductive BlockHeader where
  | reserved
  | stored (final length inverse : Nat)
  | coded (final : Nat) (literal distance : Huffman)
deriving DecidableEq, Repr

/-- The reads of a block header behind its first three bits. -/
def headerBody (final kind : Nat) : M BlockHeader :=
  if kind = 3 then pure .reserved
  else if kind = 0 then do
    dropPartial
    let length ← bits 16
    let inverse ← bits 16
    pure (.stored final length inverse)
  else do
    let (literal, distance) ← tables kind
    pure (.coded final literal distance)

def blockHeader : M BlockHeader := do
  let final ← bits 1
  let kind ← bits 2
  headerBody final kind

/-- What the next symbol of a coded block announces. -/
inductive BlockItem where
  | literal (byte : Nat)
  | stop
  | invalid
  | copy (length back : Nat)
deriving DecidableEq, Repr

/-- The reads behind a symbol: the extra bits of a length, and a distance. -/
def symbolItem (distance : Huffman) (symbol : Nat) : M BlockItem :=
  if symbol < 256 then pure (.literal symbol)
  else if symbol = 256 then pure .stop
  else if symbol > 285 then pure .invalid
  else do
    let index := symbol - 257
    let extra ← bits (LengthExtra.getD index 0)
    let length := LengthBase.getD index 0 + extra
    let distanceSymbol ← decode distance
    if distanceSymbol ≥ 30 then pure .invalid
    else do
      let extra ← bits (DistanceExtra.getD distanceSymbol 0)
      pure (.copy length (DistanceBase.getD distanceSymbol 0 + extra))

/-- The reads of one symbol with all that belongs to it. -/
def blockItem (literal distance : Huffman) : M BlockItem := do
  let symbol ← decode literal
  symbolItem distance symbol

end Reading

def copyLoop (capacity : Nat) (circular : Bool) (back : Nat) :
    Nat → Nat → (Nat → UInt8) → Nat → UInt8
  | 0, _, destination => destination
  | n + 1, written, destination =>
      copyLoop capacity circular back n (written + 1)
        (update destination (outputIndex written capacity circular)
          (destination (outputIndex (written - back) capacity circular)))

def endBlock (state : InflateState) : InflateState :=
  { state with stage := if state.final ≠ 0 then 3 else 0 }

/-- No room for the next output: the reads of this round are undone. -/
def outputIsFull (circular : Bool) (state : InflateState) (before : Bits) : InflateState :=
  { state with
    reader := before
    outputFull := true
    error := if circular then state.error else -28 }

/-- One round of the engine loop; the flag says whether the loop goes on. -/
def resumeRound (capacity : Nat) (circular : Bool) (outputBegin : Nat)
    (state : InflateState) (destination : Nat → UInt8) :
    Bool × InflateState × (Nat → UInt8) :=
  let before := state.reader
  let reader := { state.reader with shortInput := false }
  if state.stage = 0 then
    match (blockHeader : Read BlockHeader) reader with
    | (none, reader) => (false, needInput state reader before, destination)
    | (some .reserved, reader) =>
        (false, { state with reader := reader, error := -74 }, destination)
    | (some (.stored final length inverse), reader) =>
        if length ^^^ 65535 ≠ inverse then
          (false, { state with reader := reader, error := -74 }, destination)
        else
          (true, { state with reader := reader, stored := length, stage := 1, final := final },
            destination)
    | (some (.coded final literal distance), reader) =>
        (true, { state with
          reader := reader, literal := literal, distance := distance, stage := 2,
          final := final }, destination)
  else if state.stage = 1 then
    let state := { state with reader := reader }
    if state.stored = 0 then (true, endBlock state, destination)
    else
      match reader.input[reader.at_]? with
      | none => (false, state, destination)
      | some byte =>
          if state.written - outputBegin = capacity then
            (false, outputIsFull circular state before, destination)
          else
            (true, { state with
              written := state.written + 1
              reader := { reader with at_ := reader.at_ + 1 }
              stored := state.stored - 1 },
              update destination (outputIndex state.written capacity circular) byte)
  else
    match (blockItem state.literal state.distance : Read BlockItem) reader with
    | (none, reader) => (false, needInput state reader before, destination)
    | (some .invalid, reader) =>
        (false, { state with reader := reader, error := -74 }, destination)
    | (some .stop, reader) => (true, endBlock { state with reader := reader }, destination)
    | (some (.literal byte), reader) =>
        if state.written - outputBegin = capacity then
          (false, outputIsFull circular state before, destination)
        else
          (true, { state with reader := reader, written := state.written + 1 },
            update destination (outputIndex state.written capacity circular)
              (UInt8.ofNat byte))
    | (some (.copy length back), reader) =>
        if back = 0 ∨ back > state.written then
          (false, { state with reader := reader, error := -74 }, destination)
        else if circular ∧ back > capacity then
          (false, { state with reader := reader, error := -28 }, destination)
        else if length > capacity - (state.written - outputBegin) then
          (false, outputIsFull circular state before, destination)
        else
          (true, { state with reader := reader, written := state.written + length },
            copyLoop capacity circular back length state.written destination)

def resumeLoop (capacity : Nat) (circular : Bool) (outputBegin : Nat) :
    Nat → InflateState → (Nat → UInt8) → InflateState × (Nat → UInt8)
  | 0, state, destination => (state, destination)
  | fuel + 1, state, destination =>
      if state.stage ≠ 3 ∧ state.error = 0 then
        match resumeRound capacity circular outputBegin state destination with
        | (true, state, destination) =>
            resumeLoop capacity circular outputBegin fuel state destination
        | (false, state, destination) => (state, destination)
      else (state, destination)

/-- Rounds that suffice for an input: every round but the one that ends a stored block
reads a bit. -/
def resumeFuel (input : List UInt8) : Nat := 16 * input.length + 20

def resumeImpl (state : InflateState) (capacity : Nat) (destination : Nat → UInt8)
    (input : List UInt8) (circular : Bool) : Result × InflateState × (Nat → UInt8) :=
  let state := { state with outputFull := false }
  let state :=
    if state.reader.at_ > input.length ∨ (!circular ∧ state.written > capacity) then
      { state with error := -22 }
    else state
  let state := { state with reader := { state.reader with input := input } }
  let outputBegin := if circular then state.written else 0
  let (state, destination) :=
    resumeLoop capacity circular outputBegin (resumeFuel input) state destination
  (⟨state.written, state.reader.at_, decide (state.stage = 3 ∧ state.error = 0)⟩, state,
    destination)

def resume (state : InflateState) (capacity : Nat) (destination : Nat → UInt8)
    (input : List UInt8) : Result × InflateState × (Nat → UInt8) :=
  resumeImpl state capacity destination input false

end Dyn.Compress
