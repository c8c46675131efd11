import Dyn.Mem.Arena
import Mathlib.Tactic

/-!
# std/text/regex: programs and their execution

The instructions of a compiled pattern and the ordered execution of `find`.  A thread row is
its program counter and its capture offsets; the rows of the workspace are lists here, with
the capacities that the workspace has: storing beyond them is a panic.
-/

namespace Dyn.Regex

open Mem (Panic)

/-- The operations of instructions, and those of the tokens before code generation. -/
inductive Op
  | char | any | split | jump | save | accept | charClass | beginText | endText
  | concatToken | alternateToken | starToken | plusToken | optionalToken
deriving DecidableEq, Repr

structure Instruction where
  op : Op
  byte : UInt8 := 0
  x : Nat := 0
  y : Nat := 0
  z : Nat := 0
deriving DecidableEq, Repr

/-- The largest `usize`: the end of a patch list, and an unset offset. -/
def noPatch : Nat := 2 ^ 64 - 1

structure Program where
  pattern : List UInt8
  code : List Instruction
  start : Nat
  groups : Nat
  workspace : Nat
deriving DecidableEq, Repr

structure Match where
  start : Nat := 0
  finish : Nat := 0
  ok : Bool := false
deriving DecidableEq, Repr

/-- The loop of `atom` over the members of a class. -/
def classLoop (byte : UInt8) : Nat → List UInt8 → Bool → Bool
  | 0, _, found => found
  | _ + 1, [], found => found
  | fuel + 1, head :: tail, found =>
      if head = 93 then found
      else
        let (first, after) := match head, tail with
          | 92, escaped :: after => (escaped, after)
          | _, _ => (head, tail)
        match after with
        | 45 :: last :: rest =>
            if last ≠ 93 then classLoop byte fuel rest (found || (byte ≥ first && byte ≤ last))
            else classLoop byte fuel after (found || byte == first)
        | _ => classLoop byte fuel after (found || byte == first)

/-- Whether the atom at an index of the pattern matches a byte. -/
def atom (pattern : List UInt8) (i : Nat) (byte : UInt8) : Bool :=
  match pattern.drop i with
  | [] => false
  | 46 :: _ => true
  | 92 :: escaped :: _ => escaped == byte
  | 91 :: 94 :: members => !classLoop byte (members.length + 1) members false
  | 91 :: members => classLoop byte (members.length + 1) members false
  | first :: _ => first == byte

structure Row where
  pc : Nat
  slots : List Nat
deriving DecidableEq, Repr

/-- Stores an offset; the start of a group makes its end unset. -/
def saveSlot (slots : List Nat) (x pos : Nat) : List Nat :=
  if x < slots.length then
    if x % 2 = 0 then (slots.set x pos).set (x + 1) noPatch else slots.set x pos
  else slots

/-- The rows of the next list, and the program counters that it has seen. -/
structure Threads where
  output : List Row := []
  seen : List Bool
deriving DecidableEq, Repr

def Threads.mark (threads : Threads) (pc : Nat) : Threads :=
  { threads with seen := threads.seen.set pc true }

/-- What the instruction at a fresh program counter makes of its row: the rows that it pushes,
the first one on top. None where the row goes to the output. -/
def advance (instruction : Instruction) (length pos : Nat) (row : Row) : Option (List Row) :=
  match instruction.op with
  | .split => some [{ row with pc := instruction.x }, { row with pc := instruction.y }]
  | .jump => some [{ row with pc := instruction.x }]
  | .save => some [⟨instruction.y, saveSlot row.slots instruction.x pos⟩]
  | .beginText => some (if pos ≠ 0 then [] else [{ row with pc := instruction.x }])
  | .endText => some (if pos ≠ length then [] else [{ row with pc := instruction.x }])
  | _ => none

/-- The loop of `expand` over the pending rows, the top one first. -/
def expandLoop (code : List Instruction) (length pos : Nat) :
    Nat → List Row → Threads → Except Panic Threads
  | _, [], threads => .ok threads
  | 0, _ :: _, threads => .ok threads
  | fuel + 1, row :: pending, threads =>
      match code[row.pc]?, threads.seen[row.pc]? with
      | some instruction, some false =>
          let threads := threads.mark row.pc
          match advance instruction length pos row with
          | some rows =>
              if pending.length + rows.length ≤ code.length + 1 then
                expandLoop code length pos fuel (rows ++ pending) threads
              else .error "index out of bounds"
          | none =>
              if threads.output.length < code.length then
                expandLoop code length pos fuel pending
                  { threads with output := threads.output ++ [row] }
              else .error "index out of bounds"
      | _, _ => expandLoop code length pos fuel pending threads

/-- Each round marks a program counter, of which there are as many as instructions, or drops a
row. -/
def expand (program : Program) (length pos : Nat) (seed : Row) (threads : Threads) :
    Except Panic Threads :=
  expandLoop program.code length pos (2 * program.code.length + 2) [seed] threads

/-- The program counter behind an instruction that consumes a byte. -/
def consumes (pattern : List UInt8) (instruction : Instruction) (byte : UInt8) : Option Nat :=
  match instruction.op with
  | .any => some instruction.x
  | .char => if instruction.byte = byte then some instruction.x else none
  | .charClass => if atom pattern instruction.x byte then some instruction.z else none
  | _ => none

/-- The loop over the rows of a list: the row that accepts, which ends it, and the next list. -/
def rowLoop (program : Program) (text : List UInt8) (pos : Nat) :
    List Row → Threads → Except Panic (Option Row × Threads)
  | [], threads => .ok (none, threads)
  | row :: rows, threads =>
      match program.code[row.pc]? with
      | none => .error "index out of bounds"
      | some instruction =>
          if instruction.op = .accept then .ok (some row, threads)
          else
            match text[pos]?.bind (consumes program.pattern instruction) with
            | some next => do
                let threads ← expand program text.length (pos + 1) { row with pc := next } threads
                rowLoop program text pos rows threads
            | none => rowLoop program text pos rows threads

def unseen (program : Program) : Threads :=
  { seen := List.replicate program.code.length false }

/-- The loop over the positions behind a start; the number of bytes left is the first argument.
At the end of the text no row consumes, and the next list is empty. -/
def positionLoop (program : Program) (text : List UInt8) :
    Nat → Nat → List Row → Option (Nat × List Nat) → Except Panic (Option (Nat × List Nat))
  | left, pos, rows, found =>
      if rows = [] then .ok found
      else do
        let (accepted, threads) ← rowLoop program text pos rows (unseen program)
        let found := match accepted with
          | some row => some (pos, row.slots)
          | none => found
        match left with
        | 0 => .ok found
        | left + 1 => positionLoop program text left (pos + 1) threads.output found

/-- The end and the captures of the match that begins at `start`. -/
def attempt (program : Program) (text : List UInt8) (start : Nat) :
    Except Panic (Option (Nat × List Nat)) := do
  let seed : Row := ⟨program.start, List.replicate (program.groups * 2) noPatch⟩
  let threads ← expand program text.length start seed (unseen program)
  positionLoop program text (text.length - start) start threads.output none

def captureOf (slots : List Nat) (group : Nat) : Match :=
  if slots.getD (group * 2 + 1) 0 ≠ noPatch then
    { start := slots.getD (group * 2) 0, finish := slots.getD (group * 2 + 1) 0, ok := true }
  else {}

structure Found where
  value : Match
  captures : List Match
deriving DecidableEq, Repr

/-- The loop of `execute` over the starts, of which there are `left + 1`. -/
def startLoop (program : Program) (text : List UInt8) : Nat → Nat → Except Panic Found
  | left, start => do
      match ← attempt program text start with
      | some (finish, slots) =>
          return { value := { start := start, finish := finish, ok := true }
                   captures := (List.range program.groups).map (captureOf slots) }
      | none =>
          match left with
          | 0 => return { value := {}, captures := List.replicate program.groups {} }
          | left + 1 => startLoop program text left (start + 1)

/-- The sizing of the workspace; zero where it overflows. -/
def workspaceSize (instructions groups : Nat) : Nat :=
  if instructions = 0 then 0
  else if groups > (noPatch - 1) / 2 then 0
  else if instructions > (noPatch - 1) / 3 then 0
  else if groups * 2 + 1 > (noPatch - instructions) / (instructions * 3 + 1) then 0
  else (instructions * 3 + 1) * (groups * 2 + 1) + instructions

def execute (program : Program) (text : List UInt8) (first : Nat) : Except Panic Found :=
  let required := workspaceSize program.code.length program.groups
  if required = 0 ∨ program.workspace < required then .error "regex workspace invariant"
  else if first ≤ text.length then startLoop program text (text.length - first) first
  else .ok { value := {}, captures := List.replicate program.groups {} }

def find (program : Program) (text : List UInt8) : Except Panic Found := execute program text 0

end Dyn.Regex
