import Dyn.Lib.Span

/-!
# std/mem: the arena

An arena is a chain of blocks.  Each block starts with a header of `ArenaHeader`
bytes; the record `Block` stands for the contents of that header, and the byte map
of `Machine` stands for everything behind the headers.  The first block also keeps
the arena-wide settings and statistics, which are the other fields of `Arena`.

Positions are virtual offsets: a new block begins where the previous one stopped
being used, so the end of one block and the start of the next are one position.

The operating system is a parameter.  One value of `Os` answers the calls that one
arena operation makes.  The optional event log of the source is left out: nothing
in the arena reads it.
-/

namespace Dyn.Mem

open Lib

inductive ErrorKind where
  | none
  | invalidAlignment
  | capacity
  | invalidState
  | overflow
  | system
deriving DecidableEq, Repr

/-- The result of a push; `memory = 0` is nil. -/
structure Allocation where
  error : ErrorKind := .none
  code : Int := 0
  memory : Nat := 0
  size : Nat := 0
  ok : Bool := false
deriving DecidableEq, Repr

structure Block where
  data : Span
  base : Nat
  offset : Nat
  committed : Nat
  ownsMemory : Bool
deriving DecidableEq, Repr

/-- The handle: the newest block, the blocks before it (newest first, the first
block last), and the fields only the first block uses. -/
structure Arena where
  current : Block
  previous : List Block
  fixedBuffer : Bool := false
  blockSize : Nat := 0
  limit : Nat := 0
  backing : Nat := 0
  poisonOnRewind : Bool := false
  peakUsed : Nat := 0
  allocationFailures : Nat := 0
deriving DecidableEq, Repr

namespace Arena

def blocks (a : Arena) : List Block := a.current :: a.previous

end Arena

/-- An arena together with the bytes of memory. -/
structure Machine where
  arena : Arena
  bytes : Nat → UInt8

/-- What `mapping_allocate` returns. -/
structure Mapping where
  bytes : Span := ⟨0, 0⟩
  committed : Nat := 0
  error : Int := 0
  ok : Bool := false
deriving DecidableEq, Repr

/-- The answers of the operating system during one arena operation. -/
structure Os where
  mappingAllocate : Nat → Mapping
  mappingCommit : Span → Nat → Nat → Bool
  mappingRelease : Span → Int

/-- `#panic` ends the program with a text. -/
abbrev Panic := String

def ArenaHeader : Nat := 144

def CommitStep : Nat := 1048576

/-- `~#cast(usize, 0)` for a `w`-bit `usize`. -/
def maximum (w : Nat) : Nat := 2 ^ w - 1

def alignSize (w size alignment : Nat) : Nat :=
  let remainder := size &&& (alignment - 1)
  if remainder = 0 then size
  else
    let padding := alignment - remainder
    if size > maximum w - padding then 0 else size + padding

def validAlignment (alignment : Nat) : Bool :=
  alignment ≠ 0 && (alignment &&& (alignment - 1)) = 0

/-- Bytes from `address` up to the next multiple of `alignment`. -/
def paddingAt (address alignment : Nat) : Nat :=
  let remainder := address &&& (alignment - 1)
  if remainder ≠ 0 then alignment - remainder else 0

def mappingWithHeader (os : Os) (size : Nat) : Mapping :=
  let mapping := os.mappingAllocate size
  if !mapping.ok then mapping
  else if mapping.committed < ArenaHeader then
    if !os.mappingCommit mapping.bytes 0 ArenaHeader then { error := -12 }
    else { mapping with committed := ArenaHeader }
  else mapping

def blockInit (bytes : Span) (base : Nat) (ownsMemory : Bool) (committed : Nat) : Block :=
  { data := bytes, base := base, offset := ArenaHeader,
    ownsMemory := ownsMemory, committed := committed }

/-- The arena in caller storage; the error is the panic of a buffer that cannot hold
the header. -/
def arenaFromBuffer (w : Nat) (backing : Span) : Except Panic Arena :=
  if backing.len = 0 then .error "arena buffer cannot hold the arena header"
  else
    let skip := alignSize w backing.start 16 - backing.start
    if skip > backing.len ∨ backing.len - skip < ArenaHeader then
      .error "arena buffer cannot hold the arena header"
    else
      let data : Span := ⟨backing.start + skip, backing.len - skip⟩
      .ok { current := blockInit data 0 false 0, previous := [],
            fixedBuffer := true, backing := data.len }

structure ArenaCreation where
  arena : Option Arena := .none
  error : ErrorKind := .none
  code : Int := 0
  ok : Bool := false

def arenaTryCreateBounded (defaultBlock : Nat) (os : Os) (blockSize limit : Nat) :
    ArenaCreation :=
  if limit ≠ 0 ∧ limit < ArenaHeader then { error := .capacity }
  else
    let size := if blockSize = 0 then defaultBlock else blockSize
    let size := if limit ≠ 0 ∧ size > limit then limit else size
    let size := if size < ArenaHeader then ArenaHeader else size
    let mapping := mappingWithHeader os size
    if !mapping.ok then { error := .system, code := mapping.error }
    else
      { arena := some
          { current := blockInit mapping.bytes 0 true mapping.committed, previous := [],
            blockSize := size, limit := limit, backing := size }
        ok := true }

def arenaMark (a : Arena) : Nat := a.current.base + a.current.offset

/-- Bytes pushed, padding included, headers excluded: the loop over the chain. -/
def arenaUsed (a : Arena) : Nat :=
  (a.blocks.map (fun b => b.offset - ArenaHeader)).sum

def arenaStart (_ : Arena) : Nat := ArenaHeader

def arenaRemaining (a : Arena) : Nat := a.current.data.len - a.current.offset

/-- Commits a block's backing through `stop`, in `CommitStep` pieces. -/
def arenaCommit (w : Nat) (os : Os) (block : Block) (stop : Nat) : Option Block :=
  let target := alignSize w stop CommitStep
  let target := if target > block.data.len ∨ target < stop then block.data.len else target
  if !os.mappingCommit block.data block.committed target then .none
  else some { block with committed := target }

/-- The commit a push or an extension makes before it uses bytes through `stop`. -/
def commitThrough (w : Nat) (os : Os) (block : Block) (stop : Nat) : Option Block :=
  if block.ownsMemory ∧ stop > block.committed then arenaCommit w os block stop
  else some block

def arenaFailure (w : Nat) (a : Arena) (error : ErrorKind) : Arena × Allocation :=
  ({ a with allocationFailures :=
      if a.allocationFailures < maximum w then a.allocationFailures + 1
      else a.allocationFailures },
    { error := error })

/-- The scalar stores up to the first address that is a multiple of the word size. -/
def zeroHead (word : Nat) : Nat → Nat → (Nat → UInt8) → Nat × (Nat → UInt8)
  | 0, _, m => (0, m)
  | n + 1, a, m =>
      if a &&& (word - 1) ≠ 0 then zeroHead word n (a + 1) (Function.update m a 0)
      else (n + 1, m)

/-- The word stores; `fuel` bounds the number of words. -/
def zeroWords (word : Nat) : Nat → Nat → Nat → (Nat → UInt8) → Nat × Nat × (Nat → UInt8)
  | 0, n, a, m => (n, a, m)
  | fuel + 1, n, a, m =>
      if word ≤ n then zeroWords word fuel (n - word) (a + word) (storeRun 0 word a m)
      else (n, a, m)

/-- `zero_bytes_fast`: scalar stores to a word boundary, word stores, scalar stores. -/
def zeroBytesFast (word : Nat) (items : Span) (m : Nat → UInt8) : Nat → UInt8 :=
  let (left, m) := zeroHead word items.len items.start m
  let (left, at_, m) := zeroWords word left left (items.start + (items.len - left)) m
  storeRun 0 left at_ m

/-- Frees the newest blocks of a chain while the test holds and the block is not the
first; the error is a mapping that cannot be released. -/
def releaseWhile (os : Os) (drop : Block → Bool) :
    Block → List Block → Nat → Except Panic (Block × List Block × Nat)
  | block, [], backing => .ok (block, [], backing)
  | block, next :: rest, backing =>
      if drop block then
        if block.ownsMemory ∧ os.mappingRelease block.data ≠ 0 then
          .error "cannot release arena memory"
        else releaseWhile os drop next rest (backing - block.data.len)
      else .ok (block, next :: rest, backing)

/-- The first half of `arena_grow`: the size of the block to map, or why none can be. -/
def growPlan (w : Nat) (a : Arena) (size alignment : Nat) : Except ErrorKind Nat :=
  if a.fixedBuffer ∨ a.blockSize = 0 then .error .capacity
  else if alignment - 1 > maximum w - ArenaHeader then .error .overflow
  else
    let overhead := ArenaHeader + alignment - 1
    if size > maximum w - overhead then .error .overflow
    else
      let wanted := max a.blockSize (size + overhead)
      if a.limit ≠ 0 then
        if a.backing > a.limit then .error .capacity
        else
          let wanted := min wanted (a.limit - a.backing)
          if wanted < size + ArenaHeader then .error .capacity
          else if wanted > maximum w - a.backing then .error .overflow
          else .ok wanted
      else if wanted > maximum w - a.backing then .error .overflow
      else .ok wanted

def arenaGrow (w : Nat) (os : Os) (a : Arena) (size alignment : Nat) :
    Except (ErrorKind × Int) Arena :=
  match growPlan w a size alignment with
  | .error e => .error (e, 0)
  | .ok wanted =>
      let mapping := mappingWithHeader os wanted
      if !mapping.ok then .error (.system, mapping.error)
      else
        let padding := paddingAt (mapping.bytes.start + ArenaHeader) alignment
        if padding > wanted - ArenaHeader ∨ size > wanted - ArenaHeader - padding then
          .error (.capacity, 0)
        else
          .ok { a with
            current :=
              blockInit mapping.bytes (arenaMark a - ArenaHeader) true mapping.committed
            previous := a.blocks
            backing := a.backing + wanted }

/-- `release_blocks_after` on an arena that grew by one block during the push. -/
def releaseAdded (os : Os) (a : Arena) : Except Panic Arena :=
  match a.previous with
  | [] => .ok a
  | original :: rest =>
      if a.current.ownsMemory ∧ os.mappingRelease a.current.data ≠ 0 then
        .error "cannot release arena memory"
      else
        .ok { a with
          current := original
          previous := rest
          backing := a.backing - a.current.data.len }

/-- The failure of a refused commit; a block added for the push goes back first. -/
def commitRefused (w : Nat) (os : Os) (m : Machine) (grew : Bool) :
    Except Panic (Machine × Allocation) :=
  (if grew then releaseAdded os m.arena else .ok m.arena).map fun a =>
    ({ m with arena := (arenaFailure w a .system).1 },
      { (arenaFailure w a .system).2 with code := -12 })

/-- One pass of the push loop over the newest block: `none` when the block lacks room. -/
def pushInto (w : Nat) (os : Os) (m : Machine) (size alignment : Nat) (zero : Bool)
    (grew : Bool) : Option (Except Panic (Machine × Allocation)) :=
  let block := m.arena.current
  let available := block.data.len - block.offset
  let address := block.data.start + block.offset
  let padding := paddingAt address alignment
  if available ≠ 0 ∧ padding ≤ available ∧ size ≤ available - padding then
    let stop := block.offset + padding + size
    match commitThrough w os block stop with
    | .none => some (commitRefused w os m grew)
    | some block =>
        let memory := address + padding
        let used := block.base + stop - ArenaHeader
        let arena :=
          { m.arena with
            current := { block with offset := stop }
            peakUsed := if used > m.arena.peakUsed then used else m.arena.peakUsed }
        let bytes := if zero then zeroBytesFast (w / 8) ⟨memory, size⟩ m.bytes else m.bytes
        some (.ok ({ arena := arena, bytes := bytes },
          { memory := memory, size := size, ok := true }))
  else .none

def arenaTryPushImpl (w : Nat) (os : Os) (m : Machine) (size alignment : Nat)
    (zero : Bool) : Except Panic (Machine × Allocation) :=
  if !validAlignment alignment then
    let (a, failed) := arenaFailure w m.arena .invalidAlignment
    .ok ({ m with arena := a }, failed)
  else if size = 0 then .ok (m, { ok := true })
  else
    match pushInto w os m size alignment zero false with
    | some result => result
    | .none =>
        match arenaGrow w os m.arena size alignment with
        | .error (error, code) =>
            let (a, failed) := arenaFailure w m.arena error
            .ok ({ m with arena := a }, { failed with code := code })
        | .ok grown =>
            -- the loop retries once after growth
            match pushInto w os { m with arena := grown } size alignment zero true with
            | some result => result
            | .none => .ok ({ m with arena := grown }, { error := .capacity })

def arenaTryExtend (w : Nat) (os : Os) (m : Machine) (memory size extra : Nat) :
    Machine × Bool :=
  let block := m.arena.current
  let base := block.data.start
  if memory = 0 then (m, false)
  else if memory < base ∨ memory - base > block.offset ∨
      block.offset - (memory - base) ≠ size then (m, false)
  else if extra > block.data.len - block.offset then (m, false)
  else
    let stop := block.offset + extra
    match commitThrough w os block stop with
    | .none => (m, false)
    | some committed =>
        let used := block.base + stop - ArenaHeader
        ({ arena :=
            { m.arena with
              current := { committed with offset := stop }
              peakUsed := if used > m.arena.peakUsed then used else m.arena.peakUsed }
           bytes := zeroBytesFast (w / 8) ⟨base + block.offset, extra⟩ m.bytes }, true)

def arenaRewind (os : Os) (m : Machine) (mark : Nat) : Except Panic Machine :=
  if mark > arenaMark m.arena then .error "arena mark is ahead of current position"
  else
    let target := if mark < ArenaHeader then ArenaHeader else mark
    match releaseWhile os (fun b => target ≤ b.base + ArenaHeader)
        m.arena.current m.arena.previous m.arena.backing with
    | .error e => .error e
    | .ok (block, rest, backing) =>
        let at_ := target - block.base
        let bytes :=
          if m.arena.poisonOnRewind then
            storeRun 221 (block.offset - at_) (block.data.start + at_) m.bytes
          else m.bytes
        .ok { arena :=
                { m.arena with
                  current := { block with offset := at_ }
                  previous := rest
                  backing := backing }
              bytes := bytes }

def arenaReset (os : Os) (m : Machine) : Except Panic Machine :=
  arenaRewind os m (arenaStart m.arena)

end Dyn.Mem
