import Dyn.Encoding.Output

/-!
# std/semver: versions

Versions are parsed by one scan of their text and compared field by field.  Identifiers of a prerelease
are compared through two cursors, without splitting the texts.
-/

namespace Dyn.Semver

structure Version where
  major : UInt32 := 0
  minor : UInt32 := 0
  patch : UInt32 := 0
  prerelease : List UInt8 := []
  build : List UInt8 := []
deriving DecidableEq, Repr

structure ParseResult where
  value : Version := {}
  ok : Bool := false
  kind : Errors.Kind := .None
  error : Int := 0
  offset : Nat := 0
deriving DecidableEq, Repr

abbrev Failure := Nat × Errors.Kind

def digitByte (byte : UInt8) : Bool := byte ≥ 48 && byte ≤ 57

def identifierByte (byte : UInt8) : Bool :=
  digitByte byte || (byte ≥ 97 && byte ≤ 122) || (byte ≥ 65 && byte ≤ 90) || byte == 45

/-- `text[start..stop]` -/
def slice (text : List UInt8) (start stop : Nat) : List UInt8 := (text.drop start).take (stop - start)

/-- The loop of `parse_number`, on the digits from `i` on. -/
def numberLoop : List UInt8 → Nat → Nat → Except Failure Nat
  | [], _, value => .ok value
  | digit :: digits, i, value =>
      let value := value * 10 + (digit - 48).toNat
      if value > 4294967295 then .error (i, .Overflow) else numberLoop digits (i + 1) value

def parseNumber (text : List UInt8) (offset : Nat) : Except Failure (UInt32 × Nat) :=
  let start := offset
  let offset := offset + ((text.drop offset).takeWhile digitByte).length
  if offset = start then .error (offset, .InvalidInput)
  else if offset - start > 1 ∧ text.getD start 0 = 48 then .error (start + 1, .InvalidInput)
  else
    match numberLoop (slice text start offset) start 0 with
    | .error failure => .error failure
    | .ok value => .ok (UInt32.ofNat value, offset)

/-- The first byte of an identifier that may not be there. -/
def checkBytes : List UInt8 → Nat → Except Nat Unit
  | [], _ => .ok ()
  | byte :: bytes, j => if identifierByte byte then checkBytes bytes (j + 1) else .error j

/-- The loop of `valid_identifiers`; the first number bounds the turns. -/
def identifiersLoop (text : List UInt8) (prerelease : Bool) : Nat → Nat → Nat → Except Nat Unit
  | 0, _, _ => .ok ()
  | turns + 1, start, i =>
      if i ≤ text.length then
        if i = text.length ∨ text.getD i 0 = 46 then
          if i = start then .error i
          else
            match checkBytes (slice text start i) start with
            | .error j => .error j
            | .ok () =>
                let numeric := (slice text start i).all digitByte
                if prerelease ∧ numeric ∧ i - start > 1 ∧ text.getD start 0 = 48 then .error (start + 1)
                else identifiersLoop text prerelease turns (i + 1) (i + 1)
        else identifiersLoop text prerelease turns start (i + 1)
      else .ok ()

def validIdentifiers (text : List UInt8) (prerelease : Bool) : Except Nat Unit :=
  if text.length = 0 then .error 0 else identifiersLoop text prerelease (text.length + 2) 0 0

def parseDot (text : List UInt8) (offset : Nat) : Except Failure Nat :=
  if offset = text.length ∨ text.getD offset 0 ≠ 46 then .error (offset, .InvalidInput) else .ok (offset + 1)

def parsePrerelease (text : List UInt8) (offset : Nat) : Except Failure (List UInt8 × Nat) :=
  if offset < text.length ∧ text.getD offset 0 = 45 then
    let start := offset + 1
    let stop := start + ((text.drop start).takeWhile (· ≠ 43)).length
    match validIdentifiers (slice text start stop) true with
    | .error failure => .error (start + failure, .InvalidInput)
    | .ok () => .ok (slice text start stop, stop)
  else .ok ([], offset)

def parseBuild (text : List UInt8) (offset : Nat) : Except Failure (List UInt8 × Nat) :=
  if offset < text.length ∧ text.getD offset 0 = 43 then
    let start := offset + 1
    match validIdentifiers (slice text start text.length) false with
    | .error failure => .error (start + failure, .InvalidInput)
    | .ok () => .ok (slice text start text.length, text.length)
  else .ok ([], offset)

def parseVersion (text : List UInt8) : Except Failure Version := do
  let (major, offset) ← parseNumber text 0
  let offset ← parseDot text offset
  let (minor, offset) ← parseNumber text offset
  let offset ← parseDot text offset
  let (patch, offset) ← parseNumber text offset
  let (prerelease, offset) ← parsePrerelease text offset
  let (build, offset) ← parseBuild text offset
  if offset ≠ text.length then .error (offset, .InvalidInput)
  else .ok { major := major, minor := minor, patch := patch, prerelease := prerelease, build := build }

def parse (text : List UInt8) : ParseResult :=
  match parseVersion text with
  | .error (offset, kind) => { offset := offset, kind := kind }
  | .ok version => { value := version, offset := text.length, ok := true }

/-- The loop of `bytes_compare` over the bytes that both have. -/
def bytesLoop : List (UInt8 × UInt8) → Int
  | [] => 0
  | (a, b) :: rest => if a < b then -1 else if a > b then 1 else bytesLoop rest

def bytesCompare (a b : List UInt8) : Int :=
  let shared := bytesLoop (a.zip b)
  if shared ≠ 0 then shared
  else if a.length < b.length then -1
  else if a.length > b.length then 1
  else 0

def numericIdentifier (value : List UInt8) : Bool := value.all digitByte

/-- The identifier at a cursor, and the cursor behind it and its dot. -/
def nextIdentifier (text : List UInt8) (offset : Nat) : List UInt8 × Nat :=
  let stop := offset + ((text.drop offset).takeWhile (· ≠ 46)).length
  (slice text offset stop, if stop < text.length then stop + 1 else stop)

def compareIdentifiers (left right : List UInt8) : Int :=
  if numericIdentifier left && !numericIdentifier right then -1
  else if !numericIdentifier left && numericIdentifier right then 1
  else if numericIdentifier left then
    if left.length < right.length then -1
    else if left.length > right.length then 1
    else bytesCompare left right
  else bytesCompare left right

/-- The loop of `compare_prerelease`; the first number bounds the turns. -/
def prereleaseLoop (a b : List UInt8) : Nat → Nat → Nat → Int
  | 0, _, _ => 0
  | turns + 1, aAt, bAt =>
      if aAt < a.length ∧ bAt < b.length then
        let left := nextIdentifier a aAt
        let right := nextIdentifier b bAt
        let comparison := compareIdentifiers left.1 right.1
        if comparison ≠ 0 then comparison else prereleaseLoop a b turns left.2 right.2
      else if aAt < a.length then 1
      else if bAt < b.length then -1
      else 0

def comparePrerelease (a b : List UInt8) : Int :=
  if a.length = 0 ∧ b.length = 0 then 0
  else if a.length = 0 then 1
  else if b.length = 0 then -1
  else prereleaseLoop a b (a.length + 1) 0 0

def compare (a b : Version) : Int :=
  if a.major < b.major then -1
  else if a.major > b.major then 1
  else if a.minor < b.minor then -1
  else if a.minor > b.minor then 1
  else if a.patch < b.patch then -1
  else if a.patch > b.patch then 1
  else comparePrerelease a.prerelease b.prerelease

structure Range where
  minimum : Version := {}
  maximum : Version := {}
  hasMinimum : Bool := false
  hasMaximum : Bool := false
  includeMinimum : Bool := false
  includeMaximum : Bool := false
deriving DecidableEq, Repr

def contains (range : Range) (version : Version) : Bool :=
  if range.hasMinimum ∧ (compare version range.minimum < 0 ∨
      (compare version range.minimum = 0 ∧ !range.includeMinimum)) then false
  else if range.hasMaximum ∧ (compare version range.maximum > 0 ∨
      (compare version range.maximum = 0 ∧ !range.includeMaximum)) then false
  else true

theorem slice_append (front middle back : List UInt8) :
    slice (front ++ (middle ++ back)) front.length (front.length + middle.length) = middle := by
  rw [slice, List.drop_left, Nat.add_sub_cancel_left, List.take_left]

theorem getD_append (front back : List UInt8) : (front ++ back).getD front.length 0 = back.headD 0 := by
  rw [List.getD_append_right _ _ _ _ le_rfl, Nat.sub_self]
  cases back <;> rfl

end Dyn.Semver
