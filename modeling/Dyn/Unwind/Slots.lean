import Dyn.Lib.Systems

/-!
# runtime/support/support.dyn

Unwind slots.  A thread takes one step from one atomic load, store or compare-exchange to the
next; the plain accesses of its slot and of its frame are steps too.

Slots are numbered through all chunks, and chunks are numbered in the order of their links: link 0
is `unwind_first` and link `k + 1` is the link of chunk `k`, so that link `k` is zero when `k` chunks
have been linked.  Slot `i` is slot `i % 64` of chunk `i / 64`.  Pages are always available.

`owned` says that the target reserves a word for the slot in each frame (`unwind_owner_offset`
is not zero).  Each thread has the list of its linked frames, newest first, which is not in the
source.
-/

namespace Dyn.Unwind

open Lib Function

def chunkSlots : Nat := 64
def hintCount : Nat := 64

section Memory

variable (F : Type)

/-- The fields of all slots, the hints, and the words of frames. -/
structure Memory where
  chunks : Nat := 0
  hints : Nat → Nat := fun _ => 0
  tid : Nat → Nat := fun _ => 0
  top : Nat → Option F := fun _ => none
  unwinding : Nat → Nat := fun _ => 0
  previous : F → Option F := fun _ => none
  owner : F → Option Nat := fun _ => none

inductive Call
  | link (frame : F)
  | unlink (frame : F)
deriving DecidableEq

inductive Pc
  | idle
  /-- `unwind_slot` loads `unwind_first`. -/
  | first (call : Call F)
  /-- `unwind_grow` claims link `k`; it was called at the end of a search, or before one. -/
  | grow (call : Call F) (again : Bool) (k : Nat)
  | growNext (call : Call F) (again : Bool) (k : Nat)
  | reload (call : Call F)
  | head (call : Call F)
  | hint (call : Call F) (firstSeen : Nat)
  | candidate (call : Call F) (index : Nat)
  | take (call : Call F) (index : Nat)
  | search (call : Call F) (i : Nat) (empty : Option Nat)
  | next (call : Call F) (i : Nat) (empty : Option Nat)
  /-- The first empty slot of a search is claimed. -/
  | vacancy (call : Call F) (slot : Nat)
  | remember (call : Call F) (slot : Nat)
  /-- `dyn_unwind_link` has its slot. -/
  | previous (frame : F) (slot : Nat)
  | push (frame : F) (slot : Nat)
  /-- `dyn_unwind_unlink` has its slot. -/
  | test (frame : F) (slot : Nat)
  | pop (frame : F) (slot : Nat)
  | release (frame : F) (slot : Nat)
  /-- `dyn_unwind_unlink` has returned and the frame is still linked. -/
  | lost (frame : F)
deriving DecidableEq

end Memory

section Steps

variable {F : Type} [DecidableEq F]

def Call.claim : Call F → Bool
  | .link _ => true
  | .unlink _ => false

def hintable (tid : Nat) : Bool := decide (tid ≠ 0 ∧ tid >>> 58 = 0)

def bucket (tid : Nat) : Nat := tid % hintCount

def hintWord (tid index : Nat) : Nat := (tid <<< 6) ||| index

/-- `unwind_slot` has returned nil where it does not claim. -/
def missing : Call F → Pc F
  | .link _ => .idle
  | .unlink frame => .lost frame

/-- `unwind_slot` has returned a slot. -/
def found (call : Call F) (slot : Nat) : Pc F :=
  match call with
  | .link frame => .previous frame slot
  | .unlink frame => .test frame slot

def candidateSeen (call : Call F) (tid index seen : Nat) : Pc F :=
  if seen = tid then found call index
  else if call.claim = true ∧ seen = 0 then .take call index
  else .search call 0 none

/-- The next step of a thread that is in a call. -/
def advance (owned : Bool) (tid : Nat) (m : Memory F) : Pc F → Pc F × Memory F
  | .idle => (.idle, m)
  | .first call =>
      if m.chunks = 0 then
        if call.claim then (.grow call false 0, m) else (missing call, m)
      else (.head call, m)
  | .grow call again k =>
      if k = m.chunks then
        (if again then .search call 0 none else .reload call, { m with chunks := m.chunks + 1 })
      else (.growNext call again k, m)
  | .growNext call again k => (.grow call again (k + 1), m)
  | .reload call => (.head call, m)
  | .head call =>
      if m.tid 0 = tid then (found call 0, m)
      else if hintable tid then (.hint call (m.tid 0), m)
      else (.search call 0 none, m)
  | .hint call firstSeen =>
      let word := m.hints (bucket tid)
      if word >>> 6 = tid ∧ word &&& 63 < chunkSlots then
        if word &&& 63 ≠ 0 then (.candidate call (word &&& 63), m)
        else (candidateSeen call tid 0 firstSeen, m)
      else (.search call 0 none, m)
  | .candidate call index => (candidateSeen call tid index (m.tid index), m)
  | .take call index =>
      if m.tid index = 0 then (found call index, { m with tid := update m.tid index tid })
      else (.search call 0 none, m)
  | .search call i empty =>
      if m.tid i = tid then (.remember call i, m)
      else
        let empty := if m.tid i = 0 ∧ empty = none then some i else empty
        if (i + 1) % chunkSlots = 0 then (.next call (i + 1) empty, m)
        else (.search call (i + 1) empty, m)
  | .next call i empty =>
      if i / chunkSlots < m.chunks then (.search call i empty, m)
      else if call.claim = false then (missing call, m)
      else
        match empty with
        | none => (.grow call true 0, m)
        | some slot => (.vacancy call slot, m)
  | .vacancy call slot =>
      if m.tid slot = 0 then (.remember call slot, { m with tid := update m.tid slot tid })
      else (.search call 0 none, m)
  | .remember call slot =>
      if hintable tid = true ∧ slot < 64 then
        (found call slot, { m with hints := update m.hints (bucket tid) (hintWord tid slot) })
      else (found call slot, m)
  | .previous frame slot =>
      (.push frame slot, { m with
        previous := update m.previous frame (m.top slot)
        owner := if owned then update m.owner frame (some slot) else m.owner })
  | .push frame slot => (.idle, { m with top := update m.top slot (some frame) })
  | .test frame slot => if m.top slot = some frame then (.pop frame slot, m) else (.lost frame, m)
  | .pop frame slot =>
      (.release frame slot, { m with
        top := update m.top slot (m.previous frame)
        owner := if owned then update m.owner frame none else m.owner })
  | .release _ slot =>
      if m.top slot = none ∧ m.unwinding slot = 0 then
        (.idle, { m with tid := update m.tid slot 0 })
      else (.idle, m)
  | .lost frame => (.lost frame, m)

/-- `dyn_unwind_unlink` begins with the word of the frame, or looks for the slot. -/
def startUnlink (owned : Bool) (m : Memory F) (frame : F) : Pc F :=
  if owned then
    match m.owner frame with
    | some slot => .test frame slot
    | none => .lost frame
  else .first (.unlink frame)

/-- What a step of the thread does to the list of its linked frames. -/
def relink : Pc F → List F → List F
  | .push frame _, linked => frame :: linked
  | .pop _ _, linked => linked.tail
  | _, linked => linked

/-- The frame that the thread is about to link. -/
def Call.linking : Call F → List F
  | .link frame => [frame]
  | .unlink _ => []

def Pc.linking : Pc F → List F
  | .first call => call.linking
  | .grow call _ _ => call.linking
  | .growNext call _ _ => call.linking
  | .reload call => call.linking
  | .head call => call.linking
  | .hint call _ => call.linking
  | .candidate call _ => call.linking
  | .take call _ => call.linking
  | .search call _ _ => call.linking
  | .next call _ _ => call.linking
  | .vacancy call _ => call.linking
  | .remember call _ => call.linking
  | .previous frame _ => [frame]
  | .push frame _ => [frame]
  | _ => []

section States

variable (F) (T : Type)

structure State where
  memory : Memory F
  pc : T → Pc F
  linked : T → List F

variable {F T}

/-- The frames that a thread has linked or is about to link. -/
def State.frames (s : State F T) (t : T) : List F := (s.pc t).linking ++ s.linked t

variable [DecidableEq T] (owned : Bool) (id : T → Nat) (allowed : State F T → T → Prop)

/-- A step of a thread: it begins a call, or goes on with one.  A frame that is linked is an activation
of its own, and the newest frame is unlinked first.  Runs in which some steps do not occur are those
with fewer steps `allowed`. -/
inductive Step (s : State F T) : State F T → Prop
  | link (t : T) (frame : F) (idle : s.pc t = .idle) (fresh : ∀ u, frame ∉ s.frames u) :
      Step s { s with pc := update s.pc t (.first (.link frame)) }
  | unlink (t : T) (frame : F) (rest : List F) (idle : s.pc t = .idle) (newest : s.linked t = frame :: rest) :
      Step s { s with pc := update s.pc t (startUnlink owned s.memory frame) }
  | run (t : T) (allow : allowed s t) :
      Step s {
        memory := (advance owned (id t) s.memory (s.pc t)).2
        pc := update s.pc t (advance owned (id t) s.memory (s.pc t)).1
        linked := update s.linked t (relink (s.pc t) (s.linked t)) }

def Started (s : State F T) : Prop := s.memory = {} ∧ (∀ t, s.pc t = .idle) ∧ ∀ t, s.linked t = []

def threads : System (State F T) where
  init := Started
  step := Step owned id allowed

end States

def Chain (previous : F → Option F) : Option F → List F → Prop
  | top, [] => top = none
  | top, frame :: rest => top = some frame ∧ Chain previous (previous frame) rest

end Steps

end Dyn.Unwind
