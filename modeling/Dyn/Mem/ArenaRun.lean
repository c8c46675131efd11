import Dyn.Mem.ArenaInvariant
import Mathlib.Data.List.Pairwise

/-!
# std/mem: the arena as a LIFO allocator

This module runs the arena.  A state is the machine together with the allocations the
client still holds, newest first, and the largest use seen so far.  A step is one
public operation, or a change of memory by the client: the arena keeps nothing in the
payload bytes, so the client may write anywhere.

* `LiveInv` says where the allocations lie; `step_inv` and `run_inv` carry it over
  every run.
* `Kept` says which bytes an operation must leave alone: those of every allocation that
  is live before and after it.
* `arena_lifo_allocator` is the statement about every reachable state.
-/

namespace Dyn.Mem

open Lib List

/-- An allocation in the hands of the client, with the arena position it starts at. -/
structure Live where
  memory : Nat
  size : Nat
  alignment : Nat
  position : Nat
deriving DecidableEq, Repr

namespace Live

def span (l : Live) : Span := ⟨l.memory, l.size⟩

/-- What a rewind to `target` leaves of the allocation. -/
def cut (target : Nat) (l : Live) : Option Live :=
  if l.position + l.size ≤ target then some l
  else if l.position < target then some { l with size := target - l.position }
  else none

/-- The allocation lies in the used payload of the block, at its recorded position. -/
def Inside (l : Live) (b : Block) : Prop :=
  b.data.start + ArenaHeader ≤ l.memory ∧
    l.memory + l.size ≤ b.data.start + b.offset ∧
    l.position + b.data.start = b.base + l.memory

end Live

/-- The allocations after an extension by `extra` bytes at position `mark`: the newest one
grows when it is the one named, otherwise the bytes are an allocation of their own. -/
def grown (mark memory size extra : Nat) : List Live → List Live
  | [] => [⟨memory + size, extra, 1, mark⟩]
  | l :: rest =>
      if l.memory = memory ∧ l.size = size then { l with size := size + extra } :: rest
      else ⟨memory + size, extra, 1, mark⟩ :: l :: rest

structure St where
  machine : Machine
  live : List Live
  peak : Nat

namespace St

def arena (s : St) : Arena := s.machine.arena

/-- The state after a push with result `r`. -/
def afterPush (s : St) (m : Machine) (r : Allocation) (alignment : Nat) : St :=
  { machine := m
    live :=
      if r.ok ∧ r.size ≠ 0 then
        ⟨r.memory, r.size, alignment, arenaMark m.arena - r.size⟩ :: s.live
      else s.live
    peak := max s.peak (arenaUsed m.arena) }

/-- The state after an extension with result `ok`. -/
def afterExtend (s : St) (m : Machine) (ok : Bool) (memory size extra : Nat) : St :=
  { machine := m
    live :=
      if ok ∧ extra ≠ 0 then grown (arenaMark s.arena) memory size extra s.live else s.live
    peak := max s.peak (arenaUsed m.arena) }

/-- The state after a rewind to `mark`. -/
def afterRewind (s : St) (m : Machine) (mark : Nat) : St :=
  { machine := m
    live := s.live.filterMap (Live.cut (rewindTarget mark))
    peak := max s.peak (arenaUsed m.arena) }

end St

/-- The public operations, each with the answers of the system to its calls. -/
inductive Op where
  | push (os : Os) (size alignment : Nat) (zero : Bool)
  | extend (os : Os) (memory size extra : Nat)
  | rewind (os : Os) (mark : Nat)
  | reset (os : Os)

namespace Op

/-- A push may map a block; the mapping must fit the blocks in use. -/
def Fits (w : Nat) (a : Arena) : Op → Prop
  | push os _ _ _ => OsFits w os a
  | _ => True

/-- The operation does not rewind past `mark`. -/
def Keeps (mark : Nat) : Op → Prop
  | rewind _ target => mark ≤ rewindTarget target
  | reset _ => mark ≤ ArenaHeader
  | _ => True

end Op

def perform (w : Nat) (s : St) : Op → Except Panic St
  | .push os size alignment zero =>
      (arenaTryPushImpl w os s.machine size alignment zero).map
        fun (m, r) => s.afterPush m r alignment
  | .extend os memory size extra =>
      let (m, ok) := arenaTryExtend w os s.machine memory size extra
      .ok (s.afterExtend m ok memory size extra)
  | .rewind os mark =>
      (arenaRewind os s.machine mark).map fun m => s.afterRewind m mark
  | .reset os =>
      (arenaReset os s.machine).map fun m => s.afterRewind m (arenaStart s.arena)

/-- One step of a run: an operation, or a change of memory by the client, who may also
turn poisoning on or off. -/
inductive Step (w : Nat) : St → St → Prop
  | operate {s t : St} (op : Op) :
      op.Fits w s.arena → perform w s op = .ok t → Step w s t
  | client {s : St} (bytes : Nat → UInt8) (poison : Bool) :
      Step w s { s with machine :=
        { arena := { s.arena with poisonOnRewind := poison }, bytes := bytes } }

/-- The state of a new arena: nothing allocated. -/
def fresh (a : Arena) (bytes : Nat → UInt8) : St := ⟨⟨a, bytes⟩, [], 0⟩

/-- The arenas a run starts from: a caller buffer, or an owning arena with or without a
cap, whose mapping has the requested size. -/
inductive Initial (w : Nat) : St → Prop
  | buffer {backing : Span} {a : Arena} (bytes : Nat → UInt8) :
      backing.len ≤ maximum w → backing.stop ≤ 2 ^ w →
      arenaFromBuffer w backing = .ok a →
      Initial w (fresh a bytes)
  | mapped {defaultBlock blockSize limit : Nat} {os : Os} {a : Arena}
      (bytes : Nat → UInt8) :
      defaultBlock ≤ maximum w → blockSize ≤ maximum w → ArenaHeader ≤ maximum w →
      (∀ n, (os.mappingAllocate n).ok = true →
        (os.mappingAllocate n).bytes.len = n ∧
        (os.mappingAllocate n).bytes.stop ≤ 2 ^ w) →
      (arenaTryCreateBounded defaultBlock os blockSize limit).arena = some a →
      Initial w (fresh a bytes)

/-- `Run w trace s`: a run that has gone through the states of `trace`, newest first, and
is now in `s`. -/
inductive Run (w : Nat) : List St → St → Prop
  | init {s : St} : Initial w s → Run w [s] s
  | step {trace : List St} {s t : St} : Run w trace s → Step w s t → Run w (t :: trace) t

/-- `Since w mark s t`: `t` is reached from `s` with no rewind past `mark`. -/
inductive Since (w mark : Nat) (s : St) : St → Prop
  | refl : Since w mark s s
  | operate {t u : St} (op : Op) :
      Since w mark s t → op.Fits w t.arena → op.Keeps mark → perform w t op = .ok u →
      Since w mark s u
  | client {t : St} (bytes : Nat → UInt8) (poison : Bool) :
      Since w mark s t →
      Since w mark s { t with machine :=
        { arena := { t.arena with poisonOnRewind := poison }, bytes := bytes } }

/-- Each allocation is aligned, lies in one block, and starts behind all older ones. -/
structure LiveInv (a : Arena) (live : List Live) : Prop where
  inside : ∀ l ∈ live, 0 < l.size ∧ l.memory % l.alignment = 0 ∧
    ∃ b ∈ a.blocks, l.Inside b
  ordered : live.Pairwise (fun l k => k.position + k.size ≤ l.position)

structure StInv (w : Nat) (s : St) : Prop where
  arena : ArenaInv w s.arena
  live : LiveInv s.arena s.live
  peak : s.arena.peakUsed = s.peak

variable {w : Nat} {a : Arena} {live : List Live} {m : Machine} {mark : Nat} {s : St}

variable {b : Block} {l : Live} {committed size : Nat} {os : Os} {t : St} {op : Op}
  {trace : List St}

theorem block_le_mark (hinv : ArenaInv w a) (hb : b ∈ a.blocks) :
    b.base + b.offset ≤ arenaMark a := by
  rcases mem_cons.mp hb with rfl | hb
  · exact le_rfl
  have h1 := rel_of_pairwise_cons (hinv.chained.pairwise hinv.sized) hb
  have h2 := hinv.current_ok.header_le
  simp only [arenaMark]
  omega

theorem LiveInv.end_le_mark (hinv : ArenaInv w a) (h : LiveInv a live) (hl : l ∈ live) :
    l.position + l.size ≤ arenaMark a := by
  obtain ⟨_, _, b, hb, -, h2, h3⟩ := h.inside l hl
  have := block_le_mark hinv hb
  omega

theorem Live.Inside.within (h : l.Inside b) (hb : BlockOk w b) : l.span.Within b.data := by
  obtain ⟨h1, h2, _⟩ := h
  have := hb.offset_le
  constructor
  · simp only [Live.span]
    omega
  · simp only [Live.span, Span.stop]
    omega

theorem ArenaInv.eq_or_apart (hinv : ArenaInv w a) {c : Block} (hb : b ∈ a.blocks)
    (hc : c ∈ a.blocks) : b = c ∨ b.data.Apart c.data := by
  by_cases h : b = c
  · exact .inl h
  · have : Std.Symm (fun b c : Block => b.data.Apart c.data) := ⟨fun _ _ h => h.symm⟩
    exact .inr (hinv.apart.forall hb hc h)

theorem Live.Inside.apart (hinv : ArenaInv w a) {k : Live} {c : Block} (hb : b ∈ a.blocks)
    (hc : c ∈ a.blocks) (hl : l.Inside b) (hk : k.Inside c)
    (hpos : k.position + k.size ≤ l.position) : l.span.Apart k.span := by
  rcases hinv.eq_or_apart hb hc with rfl | happ
  · obtain ⟨_, _, h3⟩ := hl
    obtain ⟨_, _, h6⟩ := hk
    right
    simp only [Live.span, Span.stop]
    omega
  · exact happ.within (hl.within (hinv.sized b hb)) (hk.within (hinv.sized c hc))

theorem LiveInv.disjoint (hinv : ArenaInv w a) (h : LiveInv a live) :
    live.Pairwise (fun l k => l.span.Apart k.span) := by
  refine h.ordered.imp_of_mem ?_
  intro l k hl hk hpos
  obtain ⟨_, _, b, hb, hlb⟩ := h.inside l hl
  obtain ⟨_, _, c, hc, hkc⟩ := h.inside k hk
  exact hlb.apart hinv hb hc hkc hpos

/-- Live allocations do not reach into the unused part of the newest block. -/
theorem LiveInv.apart_unused (hinv : ArenaInv w a) (h : LiveInv a live) (hl : l ∈ live) {s : Span}
    (hlow : a.current.data.start + a.current.offset ≤ s.start)
    (hhigh : s.stop ≤ a.current.data.stop) : l.span.Apart s := by
  obtain ⟨_, _, b, hb, hlb⟩ := h.inside l hl
  rcases hinv.eq_or_apart hb (mem_cons_self : a.current ∈ a.blocks) with rfl | happ
  · left
    obtain ⟨_, h2, _⟩ := hlb
    simp only [Live.span, Span.stop]
    omega
  · refine happ.within (hlb.within (hinv.sized b hb)) ⟨?_, hhigh⟩
    omega

theorem LiveInv.mono {a' : Arena} (h : LiveInv a live) (hsub : ∀ b ∈ a.blocks, b ∈ a'.blocks) :
    LiveInv a' live := by
  refine ⟨?_, h.ordered⟩
  intro l hl
  obtain ⟨h1, h2, b, hb, h3⟩ := h.inside l hl
  exact ⟨h1, h2, b, hsub b hb, h3⟩

theorem LiveInv.advanced {stop : Nat} (h : LiveInv a live) (committed : Nat)
    (hle : a.current.offset ≤ stop) : LiveInv (advanced a committed stop) live := by
  refine ⟨?_, h.ordered⟩
  intro l hl
  obtain ⟨h1, h2, b, hb, h3, h4, h5⟩ := h.inside l hl
  refine ⟨h1, h2, ?_⟩
  rcases mem_cons.mp hb with rfl | hb
  · refine ⟨_, mem_cons_self, h3, ?_, h5⟩
    simp only [Mem.advanced]
    omega
  · exact ⟨b, mem_cons_of_mem _ hb, h3, h4, h5⟩

theorem LiveInv.cons {w : Nat} {a : Arena} {live : List Live} {committed stop : Nat}
    (hinv : ArenaInv w a) (h : LiveInv a live) {l : Live}
    (hpos : 0 < l.size) (hal : l.memory % l.alignment = 0)
    (hlow : a.current.data.start + a.current.offset ≤ l.memory)
    (hhigh : l.memory + l.size ≤ a.current.data.start + stop)
    (hat : l.position + a.current.data.start = a.current.base + l.memory) :
    LiveInv (Mem.advanced a committed stop) (l :: live) := by
  have hcur := hinv.current_ok.header_le
  have hold : LiveInv (Mem.advanced a committed stop) live := h.advanced committed (by omega)
  refine ⟨?_, List.Pairwise.cons ?_ h.ordered⟩
  · intro k hk
    rcases mem_cons.mp hk with rfl | hk
    · refine ⟨hpos, hal, _, mem_cons_self, ?_, hhigh, hat⟩
      simp only [Mem.advanced]
      omega
    · exact hold.inside k hk
  intro k hk
  have := h.end_le_mark hinv hk
  simp only [arenaMark] at this
  omega

/-- What is left of an allocation is an initial part of it, below the target. -/
theorem Live.cut_some {target : Nat} {k : Live} (hpos : 0 < l.size) (h : l.cut target = some k) :
    l.position < target ∧ k = { l with size := k.size } ∧ 0 < k.size ∧ k.size ≤ l.size ∧
      l.position + k.size ≤ target := by
  unfold Live.cut at h
  split_ifs at h with hc1 hc2
  · obtain rfl := Option.some.inj h
    exact ⟨by omega, rfl, hpos, le_rfl, hc1⟩
  obtain rfl := Option.some.inj h
  refine ⟨hc2, rfl, Nat.sub_pos_of_lt hc2, ?_, ?_⟩
  · show target - l.position ≤ l.size
    omega
  · show l.position + (target - l.position) ≤ target
    omega

theorem LiveInv.grown {memory extra : Nat} (hinv : ArenaInv w a) (h : LiveInv a live)
    (hextra : 0 < extra) (hends : memory + size = a.current.data.start + a.current.offset) :
    LiveInv (Mem.advanced a committed (a.current.offset + extra))
      (Mem.grown (arenaMark a) memory size extra live) := by
  have hnew : LiveInv (Mem.advanced a committed (a.current.offset + extra))
      (⟨memory + size, extra, 1, arenaMark a⟩ :: live) := by
    refine LiveInv.cons hinv h hextra (Nat.mod_one _) ?_ ?_ ?_
    · exact le_of_eq hends.symm
    · show memory + size + extra ≤ _
      omega
    · simp only [arenaMark]
      omega
  cases live with
  | nil => exact hnew
  | cons l rest =>
    simp only [Mem.grown]
    split_ifs with hnewest
    · obtain ⟨hmem, hsize⟩ := hnewest
      obtain ⟨-, h2, b, hb, hlb⟩ := h.inside l (by simp)
      have hold := h.advanced committed (Nat.le_add_right _ extra)
      refine ⟨?_, ?_⟩
      · intro k hk
        rcases mem_cons.mp hk with rfl | hk
        · refine ⟨Nat.add_pos_right _ hextra, h2, ?_⟩
          -- the allocation ends at the used end of the newest block, so it lies there
          rcases hinv.eq_or_apart hb (mem_cons_self : a.current ∈ a.blocks) with
            rfl | happ
          · obtain ⟨h3, -, h5⟩ := hlb
            refine ⟨_, mem_cons_self, h3, ?_, h5⟩
            show l.memory + (size + extra) ≤ a.current.data.start + (a.current.offset + extra)
            omega
          exfalso
          obtain ⟨hw1, hw2⟩ := hlb.within (hinv.sized b hb)
          have hcur := hinv.current_ok.header_le
          have hlen := hinv.current_ok.offset_le
          have hhead : ArenaHeader = 144 := rfl
          obtain ⟨h3, _, _⟩ := hlb
          simp only [Live.span, Span.Apart, Span.stop] at hw1 hw2 happ
          omega
        · exact hold.inside k (mem_cons_of_mem _ hk)
      · exact List.Pairwise.cons
          (fun k hk => rel_of_pairwise_cons hold.ordered hk)
          (List.Pairwise.of_cons hold.ordered)
    · exact hnew

/-- What a rewind keeps of the allocations lies in what it keeps of the blocks. -/
theorem LiveInv.rewind {m' : Machine} (hinv : ArenaInv w m.arena) (h : LiveInv m.arena live)
    (hrw : arenaRewind os m mark = .ok m') :
    LiveInv m'.arena (live.filterMap (Live.cut (rewindTarget mark))) := by
  obtain ⟨_, dropped, block, rest, hblocks, hdropped, -, -, harena, _⟩ :=
    arenaRewind_ok hinv hrw
  refine ⟨?_, ?_⟩
  · intro k hk
    obtain ⟨l, hl, hcut⟩ := mem_filterMap.mp hk
    obtain ⟨h1, h2, b, hb, h3, h4, h5⟩ := h.inside l hl
    obtain ⟨-, hk1, hk2, hk3, hk4⟩ := Live.cut_some h1 hcut
    rw [hk1]
    refine ⟨hk2, h2, ?_⟩
    -- a dropped block holds no position below the target
    have hbk : b ∈ block :: rest := by
      rw [hblocks] at hb
      rcases mem_append.mp hb with hb | hb
      · have := hdropped b hb
        omega
      · exact hb
    rw [harena]
    rcases mem_cons.mp hbk with rfl | hbr
    · refine ⟨_, mem_cons_self, h3, ?_, h5⟩
      simp only
      omega
    refine ⟨b, mem_cons_of_mem _ hbr, h3, ?_, h5⟩
    simp only
    omega
  · rw [pairwise_filterMap]
    refine h.ordered.imp_of_mem ?_
    intro l k hl hk hlk l' hl' k' hk'
    obtain ⟨h1, _, _, _⟩ := h.inside l hl
    obtain ⟨h2, _, _, _⟩ := h.inside k hk
    obtain ⟨_, hl1, _, _, _⟩ := Live.cut_some h1 hl'
    obtain ⟨_, hk1, _, hk3, _⟩ := Live.cut_some h2 hk'
    rw [hl1, hk1]
    show k.position + k'.size ≤ l.position
    omega

theorem StInv.with_flags (hs : StInv w s) (bytes : Nat → UInt8) (failures : Nat) (poison : Bool) :
    StInv w { s with machine :=
      { arena := { s.arena with allocationFailures := failures, poisonOnRewind := poison }
        bytes := bytes } } := by
  refine ⟨?_, ⟨hs.live.inside, hs.live.ordered⟩, hs.peak⟩
  obtain ⟨h1, h2, h3, h4, h5, h6, h7⟩ := hs.arena
  exact ⟨h1, h2, h3, h4, h5, h6, h7⟩

theorem push_inv {r : Allocation} {alignment : Nat} {zero : Bool} (hs : StInv w s)
    (hos : OsFits w os s.arena)
    (h : arenaTryPushImpl w os s.machine size alignment zero = .ok (m, r)) :
    StInv w (s.afterPush m r alignment) := by
  have hused := hs.arena.used_le_peak
  have hpeak := hs.peak
  rcases arenaTryPushImpl_cases hs.arena hos h with
    ⟨hr, n, rfl⟩ | ⟨_, rfl, rfl⟩ | ⟨hpos, hpow, a, committed, hext, hroom, rfl, rfl⟩
  · have hflags := hs.with_flags s.machine.bytes n s.arena.poisonOnRewind
    refine ⟨hflags.arena, ?_, ?_⟩
    · simp only [St.afterPush, hr, Bool.false_eq_true, false_and, if_false]
      exact hflags.live
    · show s.arena.peakUsed = max s.peak (arenaUsed s.arena)
      omega
  · refine ⟨hs.arena, ?_, ?_⟩
    · show LiveInv s.arena _
      simpa [St.afterPush] using hs.live
    · show s.arena.peakUsed = max s.peak (arenaUsed s.arena)
      omega
  have hainv : ArenaInv w (advanced a committed (landingStop a size alignment)) :=
    advanced_inv hext.inv (by simp only [landingStop]; omega) hroom
  refine ⟨hainv, ?_, ?_⟩
  · have hne : size ≠ 0 := by omega
    simp only [St.afterPush, true_and, ne_eq, hne, not_false_eq_true, if_true]
    refine LiveInv.cons hext.inv (hs.live.mono hext.blocks) hpos ?_ ?_ ?_ ?_
    · exact paddingAt_aligns hpow _
    · simp only [landing]
      omega
    · simp only [landing, landingStop]
      omega
    · simp only [landing, placed, arenaMark, advanced, landingStop]
      omega
  have h1 := hainv.used_add_header
  have h2 : (advanced a committed (landingStop a size alignment)).peakUsed =
      max a.peakUsed (a.current.base + landingStop a size alignment - ArenaHeader) := rfl
  have h3 : arenaMark (advanced a committed (landingStop a size alignment)) =
      a.current.base + landingStop a size alignment := rfl
  have h4 := hext.peak
  show (advanced a committed (landingStop a size alignment)).peakUsed =
    max s.peak (arenaUsed (advanced a committed (landingStop a size alignment)))
  have h5 : s.machine.arena.peakUsed = s.peak := hpeak
  omega

theorem extend_inv {ok : Bool} {memory extra : Nat} (hs : StInv w s)
    (h : arenaTryExtend w os s.machine memory size extra = (m, ok)) :
    StInv w (s.afterExtend m ok memory size extra) := by
  have hused := hs.arena.used_le_peak
  have hpeak := hs.peak
  rcases arenaTryExtend_cases hs.arena h with ⟨rfl, rfl⟩ | ⟨rfl, hends, hroom, committed, rfl⟩
  · refine ⟨hs.arena, ?_, ?_⟩
    · show LiveInv s.arena _
      simpa [St.afterExtend] using hs.live
    · show s.arena.peakUsed = max s.peak (arenaUsed s.arena)
      omega
  have hainv : ArenaInv w (advanced s.arena committed (s.arena.current.offset + extra)) :=
    advanced_inv hs.arena (Nat.le_add_right _ _) hroom
  have hends' : memory + size = s.arena.current.data.start + s.arena.current.offset := hends
  refine ⟨hainv, ?_, ?_⟩
  · by_cases hextra : extra = 0
    · simp only [St.afterExtend, hextra, ne_eq, not_true_eq_false, and_false, if_false]
      exact hs.live.advanced _ (Nat.le_add_right _ _)
    · simp only [St.afterExtend, ne_eq, hextra, not_false_eq_true, and_self, if_true]
      exact hs.live.grown hs.arena (Nat.pos_of_ne_zero hextra) hends'
  have h1 := hainv.used_add_header
  have h2 : (advanced s.arena committed (s.arena.current.offset + extra)).peakUsed =
      max s.arena.peakUsed
        (s.arena.current.base + (s.arena.current.offset + extra) - ArenaHeader) := rfl
  have h3 : arenaMark (advanced s.arena committed (s.arena.current.offset + extra)) =
      s.arena.current.base + (s.arena.current.offset + extra) := rfl
  show (advanced s.arena committed (s.arena.current.offset + extra)).peakUsed = max s.peak
      (arenaUsed (advanced s.arena committed (s.arena.current.offset + extra)))
  omega

theorem rewind_inv (hs : StInv w s) (h : arenaRewind os s.machine mark = .ok m) :
    StInv w (s.afterRewind m mark) := by
  obtain ⟨hinv, -⟩ := arenaRewind_inv hs.arena h
  refine ⟨hinv, hs.live.rewind hs.arena h, ?_⟩
  obtain ⟨-, _, _, _, _, _, _, _, harena, _⟩ := arenaRewind_ok hs.arena h
  have h1 : m.arena.peakUsed = s.arena.peakUsed := by rw [harena]; rfl
  have h2 := hinv.used_le_peak
  have h3 := hs.peak
  show m.arena.peakUsed = max s.peak (arenaUsed m.arena)
  omega

/-- What an operation that succeeds has done, with the names of its results. -/
theorem perform_cases (h : perform w s op = .ok t) :
    (∃ os size alignment zero m r, op = .push os size alignment zero ∧
      arenaTryPushImpl w os s.machine size alignment zero = .ok (m, r) ∧
      t = s.afterPush m r alignment) ∨
    (∃ os memory size extra m ok, op = .extend os memory size extra ∧
      arenaTryExtend w os s.machine memory size extra = (m, ok) ∧
      t = s.afterExtend m ok memory size extra) ∨
    (∃ os mark m, (op = .rewind os mark ∨ op = .reset os ∧ mark = ArenaHeader) ∧
      arenaRewind os s.machine mark = .ok m ∧ t = s.afterRewind m mark) := by
  cases op with
  | push os size alignment zero =>
    left
    cases hp : arenaTryPushImpl w os s.machine size alignment zero with
    | error e => simp [perform, hp, Except.map] at h
    | ok mr =>
      simp only [perform, hp, Except.map, Except.ok.injEq] at h
      exact ⟨os, size, alignment, zero, mr.1, mr.2, rfl, hp, h.symm⟩
  | extend os memory size extra =>
    right
    left
    simp only [perform, Except.ok.injEq] at h
    exact ⟨os, memory, size, extra, _, _, rfl, rfl, h.symm⟩
  | rewind os mark =>
    right
    right
    cases hr : arenaRewind os s.machine mark with
    | error e => simp [perform, hr, Except.map] at h
    | ok m =>
      simp only [perform, hr, Except.map, Except.ok.injEq] at h
      exact ⟨os, mark, m, .inl rfl, hr, h.symm⟩
  | reset os =>
    right
    right
    cases hr : arenaReset os s.machine with
    | error e => simp [perform, hr, Except.map] at h
    | ok m =>
      simp only [perform, hr, Except.map, Except.ok.injEq] at h
      exact ⟨os, ArenaHeader, m, .inr ⟨rfl, rfl⟩, hr, h.symm⟩

theorem perform_inv (hs : StInv w s) (hfits : op.Fits w s.arena) (h : perform w s op = .ok t) :
    StInv w t := by
  rcases perform_cases h with
    ⟨os, size, alignment, zero, m, r, rfl, hp, rfl⟩ |
    ⟨os, memory, size, extra, m, ok, rfl, he, rfl⟩ | ⟨os, mark, m, _, hr, rfl⟩
  · exact push_inv hs hfits hp
  · exact extend_inv hs he
  · exact rewind_inv hs hr

theorem step_inv (hs : StInv w s) (h : Step w s t) : StInv w t := by
  cases h with
  | operate op hfits hop => exact perform_inv hs hfits hop
  | client bytes poison => exact hs.with_flags bytes s.arena.allocationFailures poison

theorem fresh_inv {bytes : Nat → UInt8} {data : Span} {owns : Bool}
    (hcur : a.current = blockInit data 0 owns committed) (hprev : a.previous = [])
    (hback : a.backing = data.len) (hhead : ArenaHeader ≤ data.len) (hstop : data.stop ≤ 2 ^ w)
    (hlimit : a.limit ≠ 0 → data.len ≤ a.limit) (hmax : data.len ≤ maximum w)
    (hpeak : a.peakUsed = 0) : StInv w (fresh a bytes) := by
  have hblocks : a.blocks = [blockInit data 0 owns committed] := by
    rw [Arena.blocks, hcur, hprev]
  refine ⟨⟨?_, ?_, ?_, ?_, ?_, ?_, ?_⟩, ⟨?_, List.Pairwise.nil⟩, hpeak⟩
  · intro b hb
    have hb' : b ∈ a.blocks := hb
    rw [hblocks, mem_singleton] at hb'
    subst hb'
    exact ⟨le_rfl, hhead, hstop⟩
  · show Chained a.blocks
    rw [hblocks]
    rfl
  · show a.blocks.Pairwise _
    rw [hblocks]
    exact pairwise_singleton _ _
  · show a.backing = (a.blocks.map _).sum
    rw [hblocks, hback]
    simp [blockInit]
  · show a.limit ≠ 0 → a.backing ≤ a.limit
    rw [hback]
    exact hlimit
  · show a.backing ≤ _
    rw [hback]
    exact hmax
  · show (a.blocks.map _).sum ≤ _
    rw [hblocks]
    simp [blockInit]
  · intro l hl
    cases hl

theorem initial_inv (h : Initial w s) : StInv w s := by
  cases h with
  | @buffer backing a bytes hlen hstop hbuf =>
    unfold arenaFromBuffer at hbuf
    simp only at hbuf
    split_ifs at hbuf with h1 h2
    cases hbuf
    refine fresh_inv rfl rfl rfl ?_ ?_ ?_ ?_ rfl
    · simp only
      omega
    · simp only [Span.stop] at hstop ⊢
      omega
    · intro hl
      exact absurd rfl hl
    · simp only
      omega
  | @mapped defaultBlock blockSize limit os a bytes hdef hblock hhead hos hcreate =>
    unfold arenaTryCreateBounded at hcreate
    split at hcreate
    · cases hcreate
    simp only at hcreate
    generalize hsize : (if (if limit ≠ 0 ∧ (if blockSize = 0 then defaultBlock
        else blockSize) > limit then limit else if blockSize = 0 then defaultBlock
        else blockSize) < ArenaHeader then ArenaHeader
        else if limit ≠ 0 ∧ (if blockSize = 0 then defaultBlock
        else blockSize) > limit then limit else if blockSize = 0 then defaultBlock
        else blockSize) = size at hcreate
    have hbounds : ArenaHeader ≤ size ∧ size ≤ maximum w ∧ (limit ≠ 0 → size ≤ limit) := by
      rw [← hsize]
      split_ifs <;> omega
    split at hcreate
    · cases hcreate
    rename_i hok
    simp only [Bool.not_eq_true', Bool.not_eq_false] at hok
    obtain ⟨hall, hbytes⟩ := mappingWithHeader_bytes hok
    obtain ⟨hlen, hstop⟩ := hos size hall
    rw [hbytes] at hcreate
    obtain rfl := Option.some.inj hcreate
    obtain ⟨hb1, hb2, hb3⟩ := hbounds
    refine fresh_inv rfl rfl hlen.symm ?_ hstop ?_ ?_ rfl
    · rw [hlen]
      exact hb1
    · rw [hlen]
      exact hb3
    · rw [hlen]
      exact hb2

theorem run_inv (h : Run w trace s) : StInv w s := by
  induction h with
  | init hinit => exact initial_inv hinit
  | step _ hstep ih => exact step_inv ih hstep

/-- The address belongs to a live allocation. -/
def St.Holds (s : St) (address : Nat) : Prop := ∃ l ∈ s.live, l.span.Has address

theorem rewind_kept (hs : StInv w s) (h : arenaRewind os s.machine mark = .ok m) {address : Nat}
    (hafter : (s.afterRewind m mark).Holds address) :
    m.bytes address = s.machine.bytes address := by
  obtain ⟨k, hk, hhas⟩ := hafter
  have hkinv := hs.live.rewind hs.arena h
  obtain ⟨hminv, _⟩ := arenaRewind_inv hs.arena h
  obtain ⟨_, _, block, rest, hblocks, _, -, hhigh, harena, hbytes | hbytes⟩ :=
    arenaRewind_ok hs.arena h
  · rw [hbytes]
  rw [hbytes]
  apply fill_of_not_has
  have hcur : m.arena.current =
      { block with offset := rewindTarget mark - block.base } := by rw [harena]
  have hblock : BlockOk w block :=
    hs.arena.sized block (hblocks ▸ mem_append_right _ mem_cons_self)
  have hlen := hblock.offset_le
  refine (hkinv.apart_unused hminv hk ?_ ?_).not_has hhas
  · rw [hcur]
  rw [hcur]
  simp only [Span.stop]
  omega

/-- An operation changes no byte that is live before and after it. -/
theorem perform_kept (hs : StInv w s) (hfits : op.Fits w s.arena) (h : perform w s op = .ok t)
    {address : Nat} (hbefore : s.Holds address) (hafter : t.Holds address) :
    t.machine.bytes address = s.machine.bytes address := by
  obtain ⟨l, hl, hhas⟩ := hbefore
  rcases perform_cases h with
    ⟨os, size, alignment, zero, m, r, rfl, hp, rfl⟩ |
    ⟨os, memory, size, extra, m, ok, rfl, he, rfl⟩ | ⟨os, mark, m, _, hr, rfl⟩
  · rcases arenaTryPushImpl_cases hs.arena hfits hp with
      ⟨_, n, rfl⟩ | ⟨_, _, rfl⟩ | ⟨_, _, a, committed, hext, hroom, rfl, _⟩
    · rfl
    · rfl
    show (if zero then _ else _ : Nat → UInt8) address = _
    split_ifs
    · apply fill_of_not_has
      have hlive := hs.live.mono hext.blocks
      refine (hlive.apart_unused hext.inv hl ?_ ?_).not_has hhas
      · simp only [landing]
        omega
      · simp only [landing, landingStop, Span.stop] at hroom ⊢
        omega
    · rfl
  · rcases arenaTryExtend_cases hs.arena he with ⟨_, rfl⟩ | ⟨_, -, hroom, committed, rfl⟩
    · rfl
    apply fill_of_not_has
    refine (hs.live.apart_unused hs.arena hl le_rfl ?_).not_has hhas
    simp only [St.arena, Span.stop]
    omega
  · exact rewind_kept hs hr hafter

/-- A rewind to a position that has been reached succeeds and returns there. -/
theorem arenaRewind_total (hinv : ArenaInv w m.arena) (hos : ∀ bytes, os.mappingRelease bytes = 0)
    (hmark : mark ≤ arenaMark m.arena) :
    ∃ m', arenaRewind os m mark = .ok m' ∧ arenaMark m'.arena = max mark ArenaHeader := by
  have hok : ∃ m', arenaRewind os m mark = .ok m' := by
    unfold arenaRewind
    rw [if_neg (not_lt.mpr hmark)]
    obtain ⟨r, hr⟩ := releaseWhile_total hos
      (fun b => decide ((if mark < ArenaHeader then ArenaHeader else mark) ≤
        b.base + ArenaHeader)) m.arena.current m.arena.previous m.arena.backing
    simp only [hr]
    exact ⟨_, rfl⟩
  obtain ⟨m', hm'⟩ := hok
  exact ⟨m', hm', (arenaRewind_inv hinv hm').2⟩

theorem perform_mark (hs : StInv w s) (hfits : op.Fits w s.arena) (h : perform w s op = .ok t)
    (hkeeps : op.Keeps mark) (hmark : mark ≤ arenaMark s.arena) : mark ≤ arenaMark t.arena := by
  rcases perform_cases h with
    ⟨os, size, alignment, zero, m, r, rfl, hp, rfl⟩ |
    ⟨os, memory, size, extra, m, ok, rfl, he, rfl⟩ | ⟨os, target, m, hop, hr, rfl⟩
  · rcases arenaTryPushImpl_cases hs.arena hfits hp with
      ⟨_, n, rfl⟩ | ⟨_, _, rfl⟩ | ⟨_, _, a, committed, hext, hroom, rfl, _⟩
    · exact hmark
    · exact hmark
    have h1 : arenaMark a = arenaMark s.arena := hext.mark
    show mark ≤ a.current.base + landingStop a size alignment
    simp only [arenaMark, landingStop] at h1 hmark ⊢
    omega
  · rcases arenaTryExtend_cases hs.arena he with ⟨_, rfl⟩ | ⟨_, _, _, committed, rfl⟩
    · exact hmark
    · exact le_trans hmark (Nat.add_le_add_left (Nat.le_add_right _ _) _)
  obtain ⟨_, hm⟩ := arenaRewind_inv hs.arena hr
  show mark ≤ arenaMark m.arena
  rw [hm]
  rcases hop with rfl | ⟨rfl, rfl⟩
  · exact hkeeps
  · exact le_trans hkeeps (le_max_right _ _)

/-- A mark that no rewind has passed is not ahead of the position. -/
theorem since_mark (hs : StInv w s) (hmark : mark ≤ arenaMark s.arena) (h : Since w mark s t) :
    StInv w t ∧ mark ≤ arenaMark t.arena := by
  induction h with
  | refl => exact ⟨hs, hmark⟩
  | operate op _ hfits hkeeps hop ih =>
    exact ⟨perform_inv ih.1 hfits hop, perform_mark ih.1 hfits hop hkeeps ih.2⟩
  | client bytes poison _ ih =>
    exact ⟨ih.1.with_flags bytes _ poison, ih.2⟩

theorem run_peak (h : Run w trace s) :
    s.peak = (trace.map (fun t => arenaUsed t.arena)).foldr max 0 := by
  induction h with
  | @init s hinit =>
    have hinv := initial_inv hinit
    have hpeak : s.peak = 0 := by
      cases hinit <;> rfl
    have h1 := hinv.arena.used_le_peak
    have h2 := hinv.peak
    simp only [map_cons, map_nil, foldr_cons, foldr_nil]
    omega
  | @step trace s t hrun hstep ih =>
    simp only [map_cons, foldr_cons]
    rw [← ih]
    have hinv := run_inv hrun
    cases hstep with
    | operate op _ hop =>
      rcases perform_cases hop with
        ⟨_, _, _, _, m, _, _, _, rfl⟩ | ⟨_, _, _, _, m, _, _, _, rfl⟩ | ⟨_, _, m, _, _, rfl⟩
      · exact max_comm _ _
      · exact max_comm _ _
      · exact max_comm _ _
    | client bytes poison =>
      have h1 := hinv.arena.used_le_peak
      have h2 := hinv.peak
      show s.peak = max (arenaUsed s.arena) s.peak
      omega

/-- **The arena is a LIFO allocator.**  In every state of every run:

* each live allocation is aligned and lies in the payload of one block, and no two meet;
* an operation leaves every byte that is live before and after it as it was;
* a push that fails leaves the position, the blocks and all bytes unchanged;
* the backing is the sum of the block sizes and respects a nonzero limit;
* the use is the position less one header, and the peak is its maximum over the run;
* a rewind to any position reached, in particular to a mark taken earlier that no
  rewind has passed, succeeds and makes it the position (or the start, below it). -/
theorem arena_lifo_allocator {w : Nat} {trace : List St} {s : St} (h : Run w trace s) :
    (∀ l ∈ s.live, l.memory % l.alignment = 0 ∧ ∃ b ∈ s.arena.blocks,
      l.span.Within ⟨b.data.start + ArenaHeader, b.data.len - ArenaHeader⟩) ∧
    s.live.Pairwise (fun l k => l.span.Apart k.span) ∧
    (∀ op t, op.Fits w s.arena → perform w s op = .ok t → ∀ address,
      s.Holds address → t.Holds address →
      t.machine.bytes address = s.machine.bytes address) ∧
    (∀ os size alignment zero m r, OsFits w os s.arena →
      arenaTryPushImpl w os s.machine size alignment zero = .ok (m, r) → r.ok = false →
      arenaMark m.arena = arenaMark s.arena ∧ m.arena.blocks = s.arena.blocks ∧
        m.arena.backing = s.arena.backing ∧ m.bytes = s.machine.bytes) ∧
    s.arena.backing = (s.arena.blocks.map (fun b => b.data.len)).sum ∧
    (s.arena.limit ≠ 0 → s.arena.backing ≤ s.arena.limit) ∧
    arenaUsed s.arena = arenaMark s.arena - ArenaHeader ∧
    s.arena.peakUsed = (trace.map (fun t => arenaUsed t.arena)).foldr max 0 ∧
    (∀ os mark, (∀ bytes, os.mappingRelease bytes = 0) → mark ≤ arenaMark s.arena →
      ∃ m, arenaRewind os s.machine mark = .ok m ∧ arenaMark m.arena = max mark ArenaHeader) ∧
    (∀ t mark os, (∀ bytes, os.mappingRelease bytes = 0) → mark = arenaMark s.arena →
      Since w mark s t →
      ∃ m, arenaRewind os t.machine mark = .ok m ∧ arenaMark m.arena = mark) := by
  have hinv := run_inv h
  refine ⟨?_, hinv.live.disjoint hinv.arena, ?_, ?_, hinv.arena.backing_eq,
    hinv.arena.backing_le_limit, ?_, ?_, ?_, ?_⟩
  · intro l hl
    obtain ⟨_, h2, b, hb, h3, h4, _⟩ := hinv.live.inside l hl
    have hok := hinv.arena.sized b hb
    have h5 := hok.offset_le
    have h6 := hok.header_le
    refine ⟨h2, b, hb, h3, ?_⟩
    simp only [Live.span, Span.stop]
    omega
  · intro op t hfits hop address hbefore hafter
    exact perform_kept hinv hfits hop hbefore hafter
  · intro os size alignment zero m r hos hp hr
    rcases arenaTryPushImpl_cases hinv.arena hos hp with
      ⟨_, n, rfl⟩ | ⟨_, rfl, rfl⟩ | ⟨_, _, _, _, _, _, _, rfl⟩
    · exact ⟨rfl, rfl, rfl, rfl⟩
    · cases hr
    · cases hr
  · have := hinv.arena.used_add_header
    omega
  · rw [hinv.peak, run_peak h]
  · intro os mark hos hmark
    exact arenaRewind_total hinv.arena hos hmark
  · intro t mark os hos hmark hsince
    obtain ⟨ht, hle⟩ := since_mark hinv (le_of_eq hmark) hsince
    obtain ⟨m, hm, hmk⟩ := arenaRewind_total ht.arena hos hle
    have hhead := hinv.arena.header_le_mark
    refine ⟨m, hm, ?_⟩
    omega

def refusing : Os := ⟨fun _ => {}, fun _ _ _ => false, fun _ => 0⟩

/-- A system that grants mappings of up to 256 bytes at an address. -/
def granting (start : Nat) : Os :=
  ⟨fun n => if n ≤ 256 then ⟨⟨start, n⟩, n, 0, true⟩ else {}, fun _ _ _ => true, fun _ => 0⟩

/-- An arena of blocks of 256 bytes that are mapped on demand. -/
def mappedArena (current : Block) (previous : List Block) (peak : Nat) : Arena :=
  ⟨current, previous, false, 256, 0, 256 * (previous.length + 1), false, peak, 0⟩

def onePush : St :=
  ⟨⟨mappedArena ⟨⟨4096, 256⟩, 0, 244, 256, true⟩ [] 100, fun _ => 7⟩, [⟨4240, 100, 8, 144⟩], 100⟩

/-- A push of 50 bytes more, which maps a block. -/
def twoPushes : St :=
  ⟨⟨mappedArena ⟨⟨8192, 256⟩, 100, 194, 256, true⟩ [⟨⟨4096, 256⟩, 0, 244, 256, true⟩] 150, fun _ => 7⟩,
    [⟨8336, 50, 16, 244⟩, ⟨4240, 100, 8, 144⟩], 150⟩

def cutPush : St :=
  ⟨⟨mappedArena ⟨⟨4096, 256⟩, 0, 200, 256, true⟩ [] 150, fun _ => 7⟩, [⟨4240, 56, 8, 144⟩], 150⟩

theorem granting_bytes {start n : Nat} (hstart : start + 256 ≤ 2 ^ 64)
    (hok : ((granting start).mappingAllocate n).ok = true) :
    ((granting start).mappingAllocate n).bytes = ⟨start, n⟩ ∧ n ≤ 256 ∧ start + n ≤ 2 ^ 64 := by
  unfold granting at hok ⊢
  dsimp only at hok ⊢
  split_ifs at hok ⊢ with hn
  exact ⟨rfl, hn, by omega⟩

theorem granting_fits {start : Nat} {a : Arena} (hstart : start + 256 ≤ 2 ^ 64)
    (hapart : ∀ b ∈ a.blocks, b.data.stop ≤ start ∨ start + 256 ≤ b.data.start) : OsFits 64 (granting start) a := by
  intro n hok
  obtain ⟨hbytes, hn, hstop⟩ := granting_bytes hstart hok
  rw [hbytes]
  refine ⟨rfl, hstop, fun b hb => ?_⟩
  rcases hapart b hb with hbelow | habove
  · exact .inr hbelow
  · exact .inl ((Nat.add_le_add_left hn start).trans habove)

theorem arena_lifo_allocator_grown :
    twoPushes.live.Pairwise (fun l k => l.span.Apart k.span) ∧
    perform 64 twoPushes (.rewind (granting 0) 200) = .ok cutPush ∧
    (∀ address, twoPushes.Holds address → cutPush.Holds address →
      cutPush.machine.bytes address = twoPushes.machine.bytes address) ∧
    cutPush.arena.peakUsed = 150 ∧
    ∃ m, arenaRewind (granting 0) cutPush.machine 144 = .ok m ∧ arenaMark m.arena = 144 := by
  have hstart : Initial 64 (fresh (mappedArena ⟨⟨4096, 256⟩, 0, 144, 256, true⟩ [] 0) fun _ => 7) := by
    refine @Initial.mapped 64 256 0 0 (granting 4096) _ (fun _ => 7) (by decide) (by decide) (by decide) ?_ rfl
    intro n hok
    obtain ⟨hbytes, -, hstop⟩ := granting_bytes (by decide) hok
    rw [hbytes]
    exact ⟨rfl, hstop⟩
  have hfirst : perform 64 (fresh (mappedArena ⟨⟨4096, 256⟩, 0, 144, 256, true⟩ [] 0) fun _ => 7)
      (.push (granting 8192) 100 8 false) = .ok onePush := by
    simp [perform, arenaTryPushImpl, validAlignment, pushInto, paddingAt, commitThrough, Except.map, fresh,
      mappedArena, onePush, St.afterPush, ArenaHeader, arenaMark, arenaUsed, Arena.blocks]
  have hone : Run 64 _ onePush :=
    (Run.init hstart).step (.operate (.push (granting 8192) 100 8 false) (granting_fits (by decide) (by decide)) hfirst)
  have hgrow : arenaGrow 64 (granting 8192) onePush.machine.arena 50 16 =
      .ok (mappedArena ⟨⟨8192, 256⟩, 100, 144, 256, true⟩ [⟨⟨4096, 256⟩, 0, 244, 256, true⟩] 100) := by decide
  have hpush : perform 64 onePush (.push (granting 8192) 50 16 false) = .ok twoPushes := by
    have hlack : pushInto 64 (granting 8192) onePush.machine 50 16 false false = none := rfl
    rw [perform, arenaTryPushImpl, if_neg (by decide), if_neg (by decide), hlack]
    dsimp only
    rw [hgrow]
    simp [pushInto, paddingAt, commitThrough, Except.map, mappedArena, onePush, twoPushes, St.afterPush,
      ArenaHeader, arenaMark, arenaUsed, Arena.blocks]
  have htwo : Run 64 _ twoPushes :=
    hone.step (.operate (.push (granting 8192) 50 16 false) (granting_fits (by decide) (by decide)) hpush)
  have hcut : Run 64 _ cutPush := htwo.step (.operate (.rewind (granting 0) 200) trivial rfl)
  obtain ⟨-, hapart, hkept, -⟩ := arena_lifo_allocator htwo
  obtain ⟨-, -, -, -, -, -, -, -, hrewind, -⟩ := arena_lifo_allocator hcut
  exact ⟨hapart, rfl, hkept (.rewind (granting 0) 200) _ trivial rfl, rfl, hrewind (granting 0) 144 (fun _ => rfl) (by decide)⟩

end Dyn.Mem
