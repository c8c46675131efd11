import Dyn.Regex.Program

/-!
# std/text/regex: compilation

The pattern is parsed twice by the same functions, first to count tokens and then to emit
them in postfix order; the tokens become instructions whose open ends are threaded through
their own fields.  Slices are indexes into the pattern, as in the source.

A parse that fails returns the state it failed in, whose `offset` is reported.  The arena of the
compiler is taken to be large enough.
-/

namespace Dyn.Regex

open Mem (Panic)

inductive CompileError
  | none | syntaxError | capacity | depth
deriving DecidableEq, Repr

structure CompileState where
  tokens : List Instruction := []
  used : Nat := 0
  room : Nat := 0
  groups : Nat := 0
  capacity : Bool := false
  counting : Bool := false
  offset : Nat := 0
deriving DecidableEq, Repr

/-- What a parsing function returns: the state it leaves, or the one it failed in. -/
abbrev Parsed := Except CompileState CompileState

def token (state : CompileState) (item : Instruction) : Parsed :=
  if state.counting then
    if state.used = noPatch then .error { state with capacity := true }
    else .ok { state with used := state.used + 1 }
  else if state.used ≥ state.room then .error { state with capacity := true }
  else .ok { state with tokens := state.tokens ++ [item], used := state.used + 1 }

/-- The state of a scan over bytes: the nesting of groups, and whether the next byte is escaped
or in a class. -/
structure Nesting where
  depth : Nat := 0
  escaped : Bool := false
  inClass : Bool := false
deriving DecidableEq, Repr

def Nesting.step (nesting : Nesting) (byte : UInt8) : Nesting :=
  if nesting.escaped then { nesting with escaped := false }
  else if byte = 92 then { nesting with escaped := true }
  else if byte = 91 then { nesting with inClass := true }
  else if byte = 93 then { nesting with inClass := false }
  else if ¬ nesting.inClass ∧ byte = 40 then { nesting with depth := nesting.depth + 1 }
  else if ¬ nesting.inClass ∧ byte = 41 then { nesting with depth := nesting.depth - 1 }
  else nesting

/-- The byte stands for itself at the level of the scan. -/
def Nesting.plain (nesting : Nesting) (byte : UInt8) (expected : UInt8) : Bool :=
  !nesting.escaped && !nesting.inClass && nesting.depth == 0 && byte == expected

/-- The loop of `closing` from index `i`: the index of the parenthesis that closes the group. -/
def closingLoop : Nesting → Nat → List UInt8 → Nat
  | _, i, [] => i
  | nesting, i, byte :: rest =>
      if nesting.plain byte 41 then i else closingLoop (nesting.step byte) (i + 1) rest

def closing (pattern : List UInt8) (i : Nat) : Nat := closingLoop {} i (pattern.drop i)

/-- The ends of the branches of an expression, from index `i` on. -/
def splitLoop : Nesting → Nat → List UInt8 → List Nat
  | _, i, [] => [i]
  | nesting, i, byte :: rest =>
      if nesting.plain byte 124 then i :: splitLoop nesting (i + 1) rest
      else splitLoop (nesting.step byte) (i + 1) rest

def splits (pattern : List UInt8) (lo hi : Nat) : List Nat :=
  splitLoop {} lo ((pattern.drop lo).take (hi - lo))

/-- The loop of `width` behind the bracket of a class: the length up to its end. -/
def widthLoop : Nat → List UInt8 → Nat
  | _, [] => 1
  | w, 92 :: _ :: rest => widthLoop (w + 2) rest
  | w, byte :: rest => if byte = 93 then w + 1 else widthLoop (w + 1) rest

def width (pattern : List UInt8) (i : Nat) : Nat := widthLoop 1 (pattern.drop (i + 1))

/-- What begins at an index of the pattern. -/
inductive Atom
  | group (close : Nat)
  | charClass (width : Nat)
  | escape (byte : UInt8)
  | plain (op : Op) (byte : UInt8)
deriving DecidableEq, Repr

def Atom.after (i : Nat) : Atom → Nat
  | .group close => close + 1
  | .charClass width => i + width
  | .escape _ => i + 2
  | .plain _ _ => i + 1

/-- The operation of a byte that stands for itself; none for the bytes that may not. -/
def plainOp (byte : UInt8) : Option Op :=
  if byte = 41 ∨ byte = 124 ∨ byte = 42 ∨ byte = 43 ∨ byte = 63 ∨ byte = 123 then none
  else if byte = 46 then some .any
  else if byte = 94 then some .beginText
  else if byte = 36 then some .endText
  else some .char

def scanAtom (pattern : List UInt8) (i hi : Nat) : Option Atom :=
  match pattern[i]? with
  | none => none
  | some byte =>
      if byte = 40 then
        let close := closing pattern (i + 1)
        if close ≥ hi then none else some (.group close)
      else if byte = 91 then
        let w := width pattern i
        if i + w > hi ∨ pattern[i + w - 1]? ≠ some 93 then none else some (.charClass w)
      else if byte = 92 then
        if i + 1 ≥ hi then none else (pattern[i + 1]?).map .escape
      else (plainOp byte).map (Atom.plain · byte)

structure Quantifier where
  minimum : Nat := 1
  maximum : Nat := 1
  unbounded : Bool := false
  after : Nat
deriving DecidableEq, Repr

/-- The digits at index `i`: their number, the index behind them and the rest; none where the
number does not fit. -/
def countLoop : Nat → Nat → List UInt8 → Option (Nat × Nat × List UInt8)
  | value, i, [] => some (value, i, [])
  | value, i, byte :: rest =>
      if byte ≥ 48 ∧ byte ≤ 57 then
        let digit := (byte - 48).toNat
        if value > (noPatch - digit) / 10 then none else countLoop (value * 10 + digit) (i + 1) rest
      else some (value, i, byte :: rest)

def countEnd (minimum maximum : Nat) (unbounded : Bool) (i : Nat) (rest : List UInt8) :
    Option Quantifier :=
  if rest.head? ≠ some 125 ∨ (¬ unbounded ∧ maximum < minimum) then none
  else some { minimum := minimum, maximum := maximum, unbounded := unbounded, after := i + 1 }

def startsWithDigit : List UInt8 → Bool
  | [] => false
  | byte :: _ => byte ≥ 48 && byte ≤ 57

def counted (pattern : List UInt8) (i : Nat) : Option Quantifier :=
  match pattern.drop i with
  | 123 :: rest =>
      match countLoop 0 (i + 1) rest with
      | none => none
      | some (minimum, i', rest) =>
          if i' = i + 1 then none
          else
            match rest with
            | 44 :: rest =>
                if startsWithDigit rest then
                  match countLoop 0 (i' + 1) rest with
                  | none => none
                  | some (maximum, i', rest) => countEnd minimum maximum false i' rest
                else countEnd minimum minimum true (i' + 1) rest
            | rest => countEnd minimum minimum false i' rest
  | _ => none

def scanQuantifier (pattern : List UInt8) (after hi : Nat) : Option Quantifier :=
  if after < hi ∧ pattern[after]? = some 42 then
    some { minimum := 0, unbounded := true, after := after + 1 }
  else if after < hi ∧ pattern[after]? = some 43 then
    some { unbounded := true, after := after + 1 }
  else if after < hi ∧ pattern[after]? = some 63 then some { minimum := 0, after := after + 1 }
  else counted pattern after

/-- The counting pass of a quantifier: an upper bound of its tokens. -/
def quantifyCount (state : CompileState) (start : Nat) (q : Quantifier) : Parsed :=
  let atomCount := state.used - start
  if q.unbounded ∧ q.minimum = noPatch then .error { state with capacity := true }
  else
    let copies := max 1 (if q.unbounded then q.minimum + 1 else q.maximum)
    if atomCount > noPatch - 2 ∨ copies > (noPatch - start) / (atomCount + 2) then
      .error { state with capacity := true }
    else .ok { state with used := start + copies * (atomCount + 2) }

def emitAll : List Instruction → CompileState → Parsed
  | [], state => .ok state
  | item :: items, state => do
      let state ← token state item
      emitAll items state

def copyLoop (atom : List Instruction) : Nat → CompileState → Parsed
  | 0, state => .ok state
  | copies + 1, state => do
      let state ← emitAll atom state
      let state ← token state { op := .concatToken }
      copyLoop atom copies state

def extraLoop (atom : List Instruction) (q : Quantifier) : Nat → CompileState → Parsed
  | 0, state => .ok state
  | extras + 1, state => do
      let state ← emitAll atom state
      let state ← token state { op := .optionalToken }
      let state ← if q.minimum > 0 ∨ extras + 1 < q.maximum then token state { op := .concatToken }
        else .ok state
      extraLoop atom q extras state

/-- The emission pass of a quantifier. The first copy of an atom that need not be there is written
over the atom itself. -/
def quantifyEmit (state : CompileState) (start : Nat) (q : Quantifier) : Parsed := do
  let atom := state.tokens.drop start
  let state := if q.minimum = 0 then { state with tokens := state.tokens.take start, used := start }
    else state
  let state ← if q.minimum = 0 ∧ q.maximum = 0 ∧ ¬ q.unbounded then token state { op := .jump }
    else .ok state
  let state ← copyLoop atom (q.minimum - 1) state
  if q.unbounded then do
    let state ← emitAll atom state
    let state ← token state { op := .starToken }
    if q.minimum > 0 then token state { op := .concatToken } else .ok state
  else if q.maximum > 0 then extraLoop atom q (q.maximum - q.minimum) state
  else .ok state

def quantify (state : CompileState) (start : Nat) (q : Quantifier) : Parsed :=
  if state.counting then quantifyCount state start q else quantifyEmit state start q

mutual

/-- The loop of `expression` over the branches: `branches` of them are done, the next one begins at
`branch`. -/
def expressionLoop (pattern : List UInt8) :
    Nat → CompileState → Nat → List Nat → Nat → Parsed
  | 0, state, _, _, _ => .error state
  | _ + 1, state, _, [], branches => if branches > 0 then .ok state else .error state
  | fuel + 1, state, branch, split :: ends, branches => do
      let state ← sequenceLoop pattern fuel state branch split 0
      let state ← if branches > 0 then token state { op := .alternateToken } else .ok state
      expressionLoop pattern fuel state (split + 1) ends (branches + 1)

/-- The tokens of an atom at index `i`. -/
def atomTokens (pattern : List UInt8) : Nat → CompileState → Nat → Atom → Parsed
  | 0, state, _, _ => .error state
  | fuel + 1, state, i, .group close => do
      let group := state.groups
      let state ← token { state with groups := group + 1 } { op := .save, x := group * 2 }
      let state ← expressionLoop pattern fuel state (i + 1) (splits pattern (i + 1) close) 0
      let state ← token state { op := .concatToken }
      let state ← token state { op := .save, x := group * 2 + 1 }
      token state { op := .concatToken }
  | _ + 1, state, i, .charClass width => token state { op := .charClass, x := i, y := width }
  | _ + 1, state, _, .escape byte => token state { op := .char, byte := byte }
  | _ + 1, state, _, .plain op byte => token state { op := op, byte := byte }

/-- The loop of `sequence` from index `i`: `pieces` are done. -/
def sequenceLoop (pattern : List UInt8) : Nat → CompileState → Nat → Nat → Nat → Parsed
  | 0, state, _, _, _ => .error state
  | fuel + 1, state, i, hi, pieces =>
      if i < hi then
        match scanAtom pattern i hi with
        | none => .error { state with offset := i }
        | some atom => do
            let start := state.used
            let state ← atomTokens pattern fuel { state with offset := i } i atom
            let after := atom.after i
            match scanQuantifier pattern after hi with
            | some q => do
                let state ← quantify state start q
                let state ← if pieces > 0 then token state { op := .concatToken } else .ok state
                sequenceLoop pattern fuel state q.after hi (pieces + 1)
            | none => do
                let state ← if pieces > 0 then token state { op := .concatToken } else .ok state
                sequenceLoop pattern fuel state after hi (pieces + 1)
      else if pieces > 0 then .ok state
      else .error state

end

/-- Every call covers bytes of the pattern that its caller does not return to. -/
def expression (pattern : List UInt8) (state : CompileState) (lo hi : Nat) : Parsed :=
  expressionLoop pattern (4 * pattern.length + 4) state lo (splits pattern lo hi) 0

structure Fragment where
  start : Nat
  out : Nat
deriving DecidableEq, Repr

/-- The field of an instruction that a slot names. -/
def field (code : List Instruction) (slot : Nat) : Nat :=
  match code[slot / 3]? with
  | none => noPatch
  | some instruction =>
      if slot % 3 = 0 then instruction.x else if slot % 3 = 1 then instruction.y else instruction.z

def Instruction.withField (instruction : Instruction) (part value : Nat) : Instruction :=
  if part = 0 then { instruction with x := value }
  else if part = 1 then { instruction with y := value }
  else { instruction with z := value }

def setField (code : List Instruction) (slot value : Nat) : List Instruction :=
  code.modify (slot / 3) fun instruction => instruction.withField (slot % 3) value

/-- The loop of `append_list` to the last slot of a list. -/
def lastSlot (code : List Instruction) : Nat → Nat → Nat
  | 0, slot => slot
  | fuel + 1, slot => if field code slot = noPatch then slot else lastSlot code fuel (field code slot)

def appendList (code : List Instruction) (first second : Nat) : List Instruction × Nat :=
  if first = noPatch then (code, second)
  else (setField code (lastSlot code (3 * code.length) first) second, first)

def patchLoop (target : Nat) : Nat → List Instruction → Nat → List Instruction
  | 0, code, _ => code
  | fuel + 1, code, slot =>
      if slot = noPatch then code
      else patchLoop target fuel (setField code slot target) (field code slot)

def patchList (code : List Instruction) (first target : Nat) : List Instruction :=
  patchLoop target (3 * code.length) code first

structure Generated where
  code : List Instruction := []
  stack : List Fragment := []
deriving DecidableEq, Repr

/-- The part of an instruction that its end is stored in. -/
def openPart (op : Op) : Nat :=
  if op = .save then 1 else if op = .charClass then 2 else 0

/-- One token. The code has `room` instructions, the stack `scratch` numbers. -/
def generateToken (room scratch : Nat) (state : Generated) (item : Instruction) :
    Except CompileError Generated :=
  let used := state.code.length
  match item.op, state.stack with
  | .concatToken, right :: left :: stack =>
      .ok { code := patchList state.code left.out right.start
            stack := ⟨left.start, right.out⟩ :: stack }
  | .concatToken, _ => .error .syntaxError
  | .alternateToken, right :: left :: stack =>
      if used ≥ room then .error .capacity
      else
        let code := state.code ++ [{ op := .split, x := left.start, y := right.start }]
        let (code, joined) := appendList code left.out right.out
        .ok { code := code, stack := ⟨used, joined⟩ :: stack }
  | .alternateToken, _ => .error .syntaxError
  | .starToken, value :: stack =>
      if used ≥ room then .error .capacity
      else
        let code := patchList (state.code ++ [{ op := .split, x := value.start }]) value.out used
        .ok { code := setField code (used * 3 + 1) noPatch
              stack := ⟨used, used * 3 + 1⟩ :: stack }
  | .plusToken, value :: stack =>
      if used ≥ room then .error .capacity
      else
        let code := patchList (state.code ++ [{ op := .split, x := value.start }]) value.out used
        .ok { code := setField code (used * 3 + 1) noPatch
              stack := ⟨value.start, used * 3 + 1⟩ :: stack }
  | .optionalToken, value :: stack =>
      if used ≥ room then .error .capacity
      else
        let code := state.code ++ [{ op := .split, x := value.start }]
        let code := setField code (used * 3 + 1) noPatch
        let (code, joined) := appendList code value.out (used * 3 + 1)
        .ok { code := code, stack := ⟨used, joined⟩ :: stack }
  | .starToken, [] => .error .syntaxError
  | .plusToken, [] => .error .syntaxError
  | .optionalToken, [] => .error .syntaxError
  | _, stack =>
      if used ≥ room ∨ stack.length * 2 + 1 ≥ scratch then .error .capacity
      else
        let slot := used * 3 + openPart item.op
        .ok { code := setField (state.code ++ [item]) slot noPatch
              stack := ⟨used, slot⟩ :: stack }

def generateLoop (room scratch : Nat) : List Instruction → Generated → Except CompileError Generated
  | [], state => .ok state
  | item :: items, state => do
      let state ← generateToken room scratch state item
      generateLoop room scratch items state

/-- The loop over the nesting of a pattern: the first index at which it exceeds 128. -/
def depthLoop : Nesting → Nat → List UInt8 → Option Nat
  | _, _, [] => none
  | nesting, i, byte :: rest =>
      let next := nesting.step byte
      if next.depth > 128 then some i else depthLoop next (i + 1) rest

/-- Code generation into an array of `room` instructions, with `tokens` tokens and a stack of
`scratch` numbers. The workspace of the program is not yet reserved. -/
def compileInto (pattern : List UInt8) (room tokens scratch : Nat) : Except CompileError Program := do
  if depthLoop {} 0 pattern ≠ none then throw .depth
  else
    match (if pattern = [] then .error {} else expression pattern { room := tokens } 0 pattern.length) with
    | .error state => throw (if state.capacity then .capacity else .syntaxError)
    | .ok state => do
        let generated ← generateLoop room scratch state.tokens {}
        match generated.stack with
        | [fragment] =>
            if generated.code.length ≥ room then throw .capacity
            else
              let accept := generated.code.length
              return {
                pattern := pattern
                code := patchList (generated.code ++ [{ op := .accept }]) fragment.out accept
                start := fragment.start
                groups := state.groups
                workspace := 0 }
        | _ => throw .syntaxError

structure Failure where
  offset : Nat
  detail : CompileError
deriving DecidableEq, Repr

def compile (pattern : List UInt8) : Except Panic (Except Failure Program) :=
  match depthLoop {} 0 pattern with
  | some i => .ok (.error ⟨i, .depth⟩)
  | none =>
      match (if pattern = [] then .error { counting := true }
        else expression pattern { counting := true } 0 pattern.length) with
      | .error state =>
          if state.capacity then .error "regex compile size overflow"
          else .ok (.error ⟨state.offset, .syntaxError⟩)
      | .ok count =>
          if count.used > (noPatch - 1) / 2 then .error "regex compile size overflow"
          else
            match compileInto pattern (count.used + 1) count.used (count.used * 2) with
            | .error _ => .error "regex compiler sizing invariant"
            | .ok program =>
                let required := workspaceSize program.code.length program.groups
                if required = 0 then .error "regex match size overflow"
                else .ok (.ok { program with workspace := required })

end Dyn.Regex
