import Dyn.Backend.Frames

/-!
# backend/ssa: case statements

A case tests the patterns of its arms in order, or, when its values are dense, goes through a jump
table.  The statements of an arm and the report of an invalid tag are parameters: all that counts
is that they add their code from the block on in which they begin.  Where the source returns
nothing, these functions also return where the code of the arms begins.
-/

namespace Dyn.Backend

structure DynIrPattern where
  first : BitVec 64 := 0
  last : BitVec 64 := 0
  typ : BitVec 32 := 0
  variant : Nat := 0
  isEnum : Bool := false
  isType : Bool := false
deriving DecidableEq, Repr

structure DynIrCaseArm where
  patterns : List DynIrPattern
  wildcard : Bool := false
deriving DecidableEq, Repr

/-- What a case reads of the type of its subject: `isEnum` is `dyn_type_is_enum`, `signed` and `bits`
are of the storage type, and `tags` are those of the variants of the program. -/
structure CaseType where
  isEnum : Bool := false
  any : Bool := false
  signed : Bool := false
  bits : Nat := 64
  tags : List (BitVec 64) := []
deriving DecidableEq, Repr

/-- The value a case pattern matches, as the subject compares it. -/
def ssaPatternRange (type : CaseType) (p : DynIrPattern) : Option (BitVec 64 × BitVec 64) :=
  if p.isEnum then
    if type.isEnum = false then none
    else
      match type.tags[p.variant]? with
      | none => none
      | some tag =>
          let tag :=
            if type.signed ∧ type.bits < 64 ∧ tag.getLsbD (type.bits - 1) then
              tag ||| BitVec.allOnes 64 <<< type.bits
            else tag
          some (tag, tag)
  else if p.isType then
    if type.any = false then none else some (p.typ.setWidth 64, p.typ.setWidth 64)
  else some (p.first, p.last)

/-- The conditions of the code generator, as numbers. -/
def ccE : Nat := 0
def ccB : Nat := 2
def ccBE : Nat := 4
def ccL : Nat := 6
def ccLE : Nat := 8

def ssaConditionHolds (cond : Nat) (a b : BitVec 64) : Bool :=
  match cond with
  | 0 => a == b
  | 1 => a != b
  | 2 => a.ult b
  | 3 => b.ule a
  | 4 => a.ule b
  | 5 => b.ult a
  | 6 => a.slt b
  | 7 => b.sle a
  | 8 => a.sle b
  | 9 => b.slt a
  | _ => false

def ssaCompare (s : Ssa) (a b cond : Nat) : Ssa × Nat :=
  let (s, v) := ssaEmit s .cmp .int (some a) (some b) none 0 0
  (s.updateValue v ({ · with cond := cond }), v)

/-- The code of the arms of a case, and of the check of a tag that no arm takes. -/
structure CaseCode where
  /-- The statements of an arm, and the jump past the case. -/
  body : Ssa → Nat → Nat → Option Ssa
  tagCheck : Ssa → Option Ssa
  body_adds : ∀ s i done s' b, s.current = some b → body s i done = some s' →
    Adds (fun c => c = b ∨ s.blocks.length ≤ c) s s'
  tagCheck_adds : ∀ s s' b, s.current = some b → tagCheck s = some s' →
    Adds (fun c => c = b ∨ s.blocks.length ≤ c) s s' ∧
      ∃ b', s'.current = some b' ∧ (b' = b ∨ s.blocks.length ≤ b')

/-- The code of an arm, or of a value that no arm takes, begins in a block. -/
structure CaseStart where
  arm : Option Nat
  block : Nat
deriving DecidableEq, Repr

def ssaCaseInvalidTag (code : CaseCode) (type : CaseType) (s : Ssa) : Option Ssa :=
  if type.isEnum = false then some s else code.tagCheck s

/-- A trap at the end of the current block; the block `b` ends. -/
def emitTrap (s : Ssa) (b : Nat) : Ssa :=
  (ssaEmit s .trap .none none none none 0 0).1.updateBlock b ({ · with kind := .exit })

/-- The end of a case: `done` goes on when something jumps there. -/
def finishCase (s : Ssa) (done : Nat) : Option Ssa := do
  let s ← ssaSeal { s with current := none } done
  some { s with current := if (s.block done).preds ≠ [] then some done else none }

/-- The single values of the arms before the wildcard. -/
structure TableScan where
  values : Nat := 0
  minimum : BitVec 64 := BitVec.intMax 64
  maximum : BitVec 64 := BitVec.intMin 64
deriving DecidableEq, Repr

def TableScan.add (t : TableScan) (first : BitVec 64) : TableScan where
  values := t.values + 1
  minimum := if first.slt t.minimum then first else t.minimum
  maximum := if t.maximum.slt first then first else t.maximum

def scanPatterns (type : CaseType) : List DynIrPattern → TableScan → Option TableScan
  | [], t => some t
  | p :: patterns, t =>
      match ssaPatternRange type p with
      | none => none
      | some (first, last) => if first ≠ last then none else scanPatterns type patterns (t.add first)

def scanArms (type : CaseType) : Nat → List DynIrCaseArm → TableScan → Option (TableScan × Option Nat)
  | _, [], t => some (t, none)
  | i, arm :: arms, t =>
      if arm.wildcard then if arm.patterns ≠ [] then none else some (t, some i)
      else
        match scanPatterns type arm.patterns t with
        | none => none
        | some t => scanArms type (i + 1) arms t

def ssaBlocks : Nat → Ssa → Ssa × List Nat
  | 0, s => (s, [])
  | n + 1, s =>
      let (s, b) := ssaBlock s
      let (s, bs) := ssaBlocks n s
      (s, b :: bs)

/-- The slots of the patterns of an arm, from the last one to the first. -/
def fillPatterns (type : CaseType) (minimum : BitVec 64) (body : Nat) (patterns : List DynIrPattern)
    (targets : List Nat) : List Nat :=
  patterns.foldr (fun p targets =>
    match ssaPatternRange type p with
    | none => targets
    | some (first, _) => targets.set (first - minimum).toNat body) targets

/-- The arms from the last one to the first, so that earlier arms win. -/
def fillArms (type : CaseType) (minimum : BitVec 64) (arms : List (DynIrCaseArm × Nat)) (targets : List Nat) :
    List Nat :=
  arms.foldr (fun arm targets => fillPatterns type minimum arm.2 arm.1.patterns targets) targets

/-- One edge for each target that is used. -/
def switchEdges (source : Nat) (used : Nat → Bool) (targets : List Nat) (s : Ssa) : Ssa :=
  targets.foldl (fun s target =>
    if used target then s.updateBlock target fun blk => { blk with preds := blk.preds ++ [source] } else s) s

/-- The bodies of the arms; those that lost all slots have no code. -/
def tableBodies (code : CaseCode) (done : Nat) : Nat → List Nat → Ssa → Option (Ssa × List CaseStart)
  | _, [], s => some (s, [])
  | i, body :: bodies, s =>
      if s.unsupported then some (s, [])
      else do
        let s ← ssaSeal s body
        if (s.block body).preds = [] then tableBodies code done (i + 1) bodies s
        else
          let s ← code.body { s with current := some body } i done
          let (s, starts) ← tableBodies code done (i + 1) bodies s
          some (s, ⟨some i, body⟩ :: starts)

/-- The trap in the fallback of a jump table, which a case with a wildcard does not have. -/
def tableFallback (code : CaseCode) (type : CaseType) (wildcard : Option Nat) (fallback : Nat) (s : Ssa) :
    Option Ssa :=
  match wildcard with
  | some _ => some s
  | none => do
      let s ← ssaSeal s fallback
      let s ← ssaCaseInvalidTag code type { s with current := some fallback }
      some (emitTrap s fallback)

def fallbackBlock (wildcard : Option Nat) (bodies : List Nat) (s : Ssa) : Ssa × Nat :=
  match wildcard with
  | some i => (s, bodies.getD i 0)
  | none => ssaBlock s

/-- The current block ends with the switch.  Of the blocks `edges`, those that are targets get an edge. -/
def emitSwitch (s : Ssa) (subject : Nat) (minimum : BitVec 64) (fallback : Nat) (targets edges : List Nat) : Ssa :=
  let source := s.current.getD 0
  let (s, table) := ssaList s ([(minimum.setWidth 32).toNat, targets.length, fallback] ++ targets)
  let (s, offset) := ssaValue s source .const .int none none none minimum 0
  let s := s.updateBlock source fun blk =>
    { blk with kind := .switch, control := some subject, table := table, control2 := some offset }
  { switchEdges source (fun target => target == fallback || targets.contains target) edges s with current := none }

/-- `none` in the second place where the case does not qualify. -/
def ssaCaseTable (ctx : BackendContext) (code : CaseCode) (type : CaseType) (arms : List DynIrCaseArm)
    (s : Ssa) (subject done : Nat) : Option (Option (Ssa × List CaseStart)) :=
  -- ILP32 uses the ordered pair-comparison chain.
  if ctx.rv32 ∨ ctx.t32 then some none
  else
    match scanArms type 0 arms {} with
    | none => some none
    | some (t, wildcard) =>
        let span := (t.maximum - t.minimum).toNat
        if t.values < 4 ∨ span ≥ 4096 ∨ span + 1 > 4 * t.values then some none
        else do
          let (s, bodies) := ssaBlocks arms.length s
          let (s, fallback) := fallbackBlock wildcard bodies s
          let targets := fillArms type t.minimum ((arms.zip bodies).take (wildcard.getD arms.length))
            (List.replicate (span + 1) fallback)
          let s := emitSwitch s subject t.minimum fallback targets
            (bodies ++ if wildcard = none then [fallback] else [])
          let (s, starts) ← tableBodies code done 0 bodies s
          let s ← tableFallback code type wildcard fallback s
          let s ← finishCase s done
          some (some (s, starts ++ if wildcard = none then [⟨none, fallback⟩] else []))

/-- What is left of the lowering: giving up ends it. -/
inductive Chain where
  | gaveUp (s : Ssa)
  | on (s : Ssa)
deriving DecidableEq, Repr

/-- One pattern of an arm: control goes to the body, or to the new block `miss`. -/
def chainPattern (type : CaseType) (subject body : Nat) (first last : BitVec 64) (s : Ssa) : Option Ssa := do
  let (s, miss) := ssaBlock s
  let s ← if first = last then
      let (s, value) := ssaConst s first .int
      let (s, condition) := ssaCompare s subject value ccE
      some (ssaBranch s condition body miss)
    else do
      let (s, upper) := ssaBlock s
      let (s, value) := ssaConst s first .int
      let (s, condition) := ssaCompare s subject value (if type.signed then ccL else ccB)
      let s := ssaBranch s condition miss upper
      let s ← ssaSeal s upper
      let (s, value) := ssaConst { s with current := some upper } last .int
      let (s, condition) := ssaCompare s subject value (if type.signed then ccLE else ccBE)
      some (ssaBranch s condition body miss)
  let s ← ssaSeal s miss
  some { s with current := some miss }

def chainPatterns (type : CaseType) (subject body : Nat) : List DynIrPattern → Ssa → Option Chain
  | [], s => some (.on s)
  | p :: patterns, s =>
      match ssaPatternRange type p with
      | none => some (.gaveUp { s with unsupported := true })
      | some (first, last) => do
          let s ← chainPattern type subject body first last s
          chainPatterns type subject body patterns s

def chainArms (code : CaseCode) (type : CaseType) (subject done : Nat) :
    Nat → List DynIrCaseArm → Ssa → Option (Chain × List CaseStart)
  | _, [], s => some (.on s, [])
  | i, arm :: arms, s =>
      if s.unsupported ∨ s.current = none then some (.on s, [])
      else do
        let (s, body) := ssaBlock s
        let (s, next) := ssaBlock s
        match ← chainPatterns type subject body arm.patterns s with
        | .gaveUp s => some (.gaveUp s, [])
        | .on s =>
            let s ← ssaSeal (ssaJump s (if arm.wildcard then body else next)) body
            let s ← code.body { s with current := some body } i done
            let s ← ssaSeal s next
            let s : Ssa := { s with current := if (s.block next).preds ≠ [] then some next else none }
            let (c, starts) ← chainArms code type subject done (i + 1) arms s
            some (c, ⟨some i, body⟩ :: starts)

def chainFallback (code : CaseCode) (type : CaseType) (s : Ssa) : Option (Ssa × List CaseStart) :=
  match s.current with
  | none => some (s, [])
  | some fallback => do
      let s ← ssaCaseInvalidTag code type s
      some ({ emitTrap s (s.current.getD 0) with current := none }, [⟨none, fallback⟩])

/-- The ordered comparison chain of `ssa_case`. -/
def ssaCaseChain (code : CaseCode) (type : CaseType) (arms : List DynIrCaseArm) (s : Ssa) (subject done : Nat) :
    Option (Ssa × List CaseStart) := do
  match ← chainArms code type subject done 0 arms s with
  | (.gaveUp s, starts) => some (s, starts)
  | (.on s, starts) =>
      let (s, starts') ← chainFallback code type s
      let s ← finishCase s done
      some (s, starts ++ starts')

end Dyn.Backend
