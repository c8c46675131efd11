import Dyn.Mem.Trial
import Dyn.Mem.ArenaRun

/-!
# std/mem: trial blocks in an arena

The rounds of a trial on the arena itself.  A rewind to the mark gives back the arena in which the
round began, and no size is asked for twice, so `Room` is all that the rounds see of an arena.  It
holds in a fixed buffer, and in an arena that grows if the system grants the blocks of the rounds.
-/

namespace Dyn.Mem

open Function (update update_of_ne update_self)

/-- What one round meets: the answers of the system to its push and to its rewind, and the bytes
that the attempt leaves in memory. -/
structure Round where
  push : Os
  rewind : Os
  bytes : Nat → UInt8

def arenaTrialSize (a : Arena) (wanted : Nat) : Nat :=
  if a.fixedBuffer ∧ wanted > arenaRemaining a then arenaRemaining a else wanted

def arenaTrialNext (w : Nat) (a : Arena) (current : Nat) : Except Panic Nat :=
  if a.fixedBuffer then
    if current ≥ arenaRemaining a then .error "arena exhausted"
    else .ok (arenaTrialSize a (current * 2 + 1))
  else if current > maximum w / 4 then .error "output size overflows"
  else .ok (current * 2 + 1)

/-- The rounds of `trialLoop`, with the pushes and the rewinds. -/
def arenaTrial {α : Type} (w : Nat) (attempt : Nat → (Nat → UInt8) → Option α)
    (rounds : Nat → Round) : Nat → Machine → Nat → Except Panic α
  | 0, _, _ => .error "arena exhausted"
  | fuel + 1, m, capacity =>
      if capacity > 0 then do
        let (pushed, space) ← arenaTryPushImpl w (rounds fuel).push m capacity 1 false
        if space.ok then
          match attempt capacity (fun i => pushed.bytes (space.memory + i)) with
          | some result => .ok result
          | none =>
              let m ← arenaRewind (rounds fuel).rewind { pushed with bytes := (rounds fuel).bytes } (arenaMark m.arena)
              arenaTrial w attempt rounds fuel m (← arenaTrialNext w m.arena capacity)
        else .error "arena exhausted or alignment invalid"
      else .error "arena exhausted"

/-- An arena at a mark: a rewind to it keeps the newest block. -/
structure AtMark (w : Nat) (a : Arena) : Prop where
  inv : ArenaInv w a
  used : a.previous = [] ∨ ArenaHeader < a.current.offset
  buffer : a.fixedBuffer = true → a.previous = [] ∧ a.current.ownsMemory = false

/-- An arena that can grow by a block of the given size. -/
structure Growing (w : Nat) (a : Arena) (bound : Nat) : Prop where
  owning : a.fixedBuffer = false
  block : 0 < a.blockSize
  limit : a.limit = 0 ∨ a.backing + max a.blockSize (bound + ArenaHeader) ≤ a.limit
  fits : a.backing + max a.blockSize (bound + ArenaHeader) ≤ maximum w

/-- The system grants mappings up to a size, and all their bytes. -/
structure Willing (os : Os) (bound : Nat) : Prop where
  maps : ∀ n ≤ bound, (os.mappingAllocate n).ok = true
  commits : ∀ bytes start stop, os.mappingCommit bytes start stop = true

section

variable {w size bound : Nat} {os os' : Os} {m m' pushed : Machine} {r : Allocation} {a a' : Arena}

theorem releaseWhile_mark (h : AtMark w a) {b : Block} (hbase : b.base = a.current.base) (backing : Nat) :
    releaseWhile os (fun b => decide (arenaMark a ≤ b.base + ArenaHeader)) b a.previous backing =
      .ok (b, a.previous, backing) := by
  cases hprevious : a.previous with
  | nil => rfl
  | cons next rest =>
    have hused := h.used.resolve_left (by rw [hprevious]; exact List.cons_ne_nil _ _)
    rw [releaseWhile, if_neg]
    rw [decide_eq_true_eq, hbase, arenaMark]
    omega

/-- **The rewind of a round gives back its arena,** but for the bytes committed and the peak. -/
theorem round_again (h : AtMark w m.arena) (hos : OsFits w os m.arena) (hsize : 0 < size)
    (hpush : arenaTryPushImpl w os m size 1 false = .ok (pushed, r)) (hr : r.ok = true) {bytes : Nat → UInt8}
    (hrewind : arenaRewind os' { pushed with bytes := bytes } (arenaMark m.arena) = .ok m') :
    ∃ committed peak, m'.arena =
      { m.arena with current := { m.arena.current with committed := committed }, peakUsed := peak } := by
  rcases arenaTryPushImpl_cases h.inv hos hpush with ⟨hno, -⟩ | ⟨hzero, -⟩ | ⟨-, -, a, committed, hext, -, rfl, -⟩
  · rw [hr] at hno
    cases hno
  · omega
  have hoffset : arenaMark m.arena - m.arena.current.base = m.arena.current.offset := Nat.add_sub_cancel_left ..
  unfold arenaRewind at hrewind
  split at hrewind
  · cases hrewind
  rw [if_neg (Nat.not_lt.mpr h.inv.header_le_mark)] at hrewind
  rcases hext.grown with rfl | ⟨block, committed', rfl⟩
  · dsimp only [placed, advanced] at hrewind
    rw [releaseWhile_mark h (by rfl)] at hrewind
    refine ⟨committed, m'.arena.peakUsed, ?_⟩
    cases hrewind
    dsimp only
    rw [hoffset]
  dsimp only [placed, advanced, withBlock, Arena.blocks, blockInit] at hrewind
  rw [releaseWhile, if_pos (decide_eq_true (Nat.sub_add_cancel h.inv.header_le_mark).ge)] at hrewind
  split at hrewind
  · cases hrewind
  rename_i hloop
  split_ifs at hloop
  rw [releaseWhile_mark h (by rfl)] at hloop
  refine ⟨m.arena.current.committed, m'.arena.peakUsed, ?_⟩
  cases hloop
  cases hrewind
  dsimp only
  rw [hoffset, Nat.add_sub_cancel]

theorem paddingAt_one (address : Nat) : paddingAt address 1 = 0 := by
  unfold paddingAt
  simp

/-- A push that the newest block has room for, where the bytes are granted. -/
theorem pushInto_fits (hcommit : ∀ stop, commitThrough w os m.arena.current stop ≠ none) (hsize : 0 < size)
    (hfits : size ≤ arenaRemaining m.arena) (grew : Bool) :
    ∃ m' r, pushInto w os m size 1 false grew = some (.ok (m', r)) ∧ r.ok = true := by
  unfold arenaRemaining at hfits
  rcases pushInto_cases w os m size 1 false grew with ⟨-, hlack⟩ | ⟨-, ⟨committed, hsome⟩ | ⟨⟨stop, hnone⟩, -⟩⟩
  · rw [landingStop, paddingAt_one] at hlack
    omega
  · exact ⟨_, _, hsome, rfl⟩
  · exact absurd hnone (hcommit stop)

theorem pushInto_lacks (h : arenaRemaining m.arena < size) (grew : Bool) :
    pushInto w os m size 1 false grew = none := by
  unfold arenaRemaining at h
  rcases pushInto_cases w os m size 1 false grew with ⟨hnone, -⟩ | ⟨hfits, -⟩
  · exact hnone
  · rw [landingStop, paddingAt_one] at hfits
    omega

theorem push_buffer (h : AtMark w m.arena) (hfixed : m.arena.fixedBuffer = true) (os : Os) (hsize : 0 < size) :
    ∃ m' r, arenaTryPushImpl w os m size 1 false = .ok (m', r) ∧ (r.ok = true ↔ size ≤ arenaRemaining m.arena) := by
  unfold arenaTryPushImpl
  rw [if_neg (by decide), if_neg (by omega)]
  by_cases hfits : size ≤ arenaRemaining m.arena
  · have hcommit : ∀ stop, commitThrough w os m.arena.current stop ≠ none := fun stop => by
      rw [commitThrough, if_neg fun hc => Bool.false_ne_true ((h.buffer hfixed).2.symm.trans hc.1)]
      exact Option.some_ne_none _
    obtain ⟨m', r, hpush, hr⟩ := pushInto_fits hcommit hsize hfits false
    rw [hpush]
    exact ⟨m', r, rfl, fun _ => hfits, fun _ => hr⟩
  · rw [pushInto_lacks (Nat.lt_of_not_le hfits), arenaGrow, growPlan, if_pos (.inl hfixed)]
    exact ⟨_, _, rfl, fun hcon => absurd hcon Bool.false_ne_true, fun hcon => absurd hcon hfits⟩

theorem growPlan_growing (h : Growing w a bound) (hsize : 0 < size) (hbound : size ≤ bound) :
    growPlan w a size 1 = .ok (max a.blockSize (size + ArenaHeader)) := by
  obtain ⟨howning, hblock, hlimit, hmaximum⟩ := h
  unfold growPlan
  rw [if_neg (by simp [howning, hblock.ne']), if_neg (by omega)]
  dsimp only
  rw [if_neg (by omega), Nat.add_sub_cancel]
  by_cases hzero : a.limit ≠ 0
  · rw [if_pos hzero, if_neg (by omega), min_eq_left (by omega), if_neg (by omega), if_neg (by omega)]
  · rw [if_neg hzero, if_neg (by omega)]

/-- A block that the system grants has room for the push. -/
theorem arenaGrow_growing (hos : OsFits w os a) (h : Growing w a bound)
    (hwilling : Willing os (max a.blockSize (bound + ArenaHeader))) (hsize : 0 < size) (hbound : size ≤ bound) :
    ∃ grown, arenaGrow w os a size 1 = .ok grown ∧ size ≤ arenaRemaining grown := by
  obtain ⟨wanted, hwanted⟩ : ∃ wanted, wanted = max a.blockSize (size + ArenaHeader) := ⟨_, rfl⟩
  have hmaps := hwilling.maps wanted (by omega)
  have hmapping : (mappingWithHeader os wanted).ok = true := by
    unfold mappingWithHeader
    simp only [hmaps, hwilling.commits, Bool.not_true, if_neg Bool.false_ne_true]
    split_ifs
    · rfl
    · exact hmaps
  unfold arenaGrow
  rw [growPlan_growing h hsize hbound, ← hwanted]
  dsimp only
  rw [hmapping, Bool.not_true, if_neg Bool.false_ne_true, paddingAt_one, if_neg (by omega)]
  refine ⟨_, rfl, ?_⟩
  change size ≤ (mappingWithHeader os wanted).bytes.len - ArenaHeader
  rw [(mappingWithHeader_bytes hmapping).2, (hos wanted hmaps).1]
  omega

theorem push_growing (hos : OsFits w os m.arena) (hgrowing : Growing w m.arena bound)
    (hwilling : Willing os (max m.arena.blockSize (bound + ArenaHeader))) (hsize : 0 < size) (hbound : size ≤ bound) :
    ∃ m' r, arenaTryPushImpl w os m size 1 false = .ok (m', r) ∧ r.ok = true := by
  have hcommit : ∀ b stop, commitThrough w os b stop ≠ none := fun b stop => by
    unfold commitThrough arenaCommit
    simp only [hwilling.commits, Bool.not_true, if_neg Bool.false_ne_true]
    split <;> exact Option.some_ne_none _
  unfold arenaTryPushImpl
  rw [if_neg (by decide), if_neg (by omega)]
  by_cases hfits : size ≤ arenaRemaining m.arena
  · obtain ⟨m', r, hpush, hr⟩ := pushInto_fits (hcommit _) hsize hfits false
    rw [hpush]
    exact ⟨m', r, rfl, hr⟩
  obtain ⟨grown, hgrown, hroom⟩ := arenaGrow_growing hos hgrowing hwilling hsize hbound
  rw [pushInto_lacks (Nat.lt_of_not_le hfits), hgrown]
  dsimp only
  obtain ⟨m', r, hpush, hr⟩ := pushInto_fits (m := { m with arena := grown }) (hcommit _) hsize hroom true
  rw [hpush]
  exact ⟨m', r, rfl, hr⟩

theorem round_inv (hinv : ArenaInv w m.arena) (hos : OsFits w os m.arena) (hsize : 0 < size)
    (hpush : arenaTryPushImpl w os m size 1 false = .ok (pushed, r)) (hr : r.ok = true) :
    ArenaInv w pushed.arena ∧ arenaMark m.arena ≤ arenaMark pushed.arena := by
  rcases arenaTryPushImpl_cases hinv hos hpush with ⟨hno, -⟩ | ⟨hzero, -⟩ | ⟨-, -, a, committed, hext, hroom, rfl, -⟩
  · rw [hr] at hno
    cases hno
  · omega
  have hle : a.current.offset ≤ landingStop a size 1 := by
    unfold landingStop
    omega
  refine ⟨advanced_inv hext.inv hle hroom, ?_⟩
  rw [← hext.mark]
  exact Nat.add_le_add_left hle _

def Arena.fixed (a : Arena) : Option Nat := if a.fixedBuffer then some (arenaRemaining a) else none

def roundSpace (w : Nat) (os : Os) (m : Machine) (capacity : Nat) : Option (Nat → UInt8) :=
  match arenaTryPushImpl w os m capacity 1 false with
  | .error _ => none
  | .ok (pushed, space) => if space.ok then some fun i => pushed.bytes (space.memory + i) else none

/-- The room with another answer to the push of `n` bytes. -/
def Room.answer (room : Room) (n : Nat) (space : Option (Nat → UInt8))
    (h : ∀ left, room.fixed = some left → (space.isSome ↔ n ≤ left)) : Room where
  fixed := room.fixed
  push := update room.push n space
  push_fixed left hleft k := by
    by_cases hk : k = n
    · rw [hk, update_self]
      exact h left hleft
    · rw [update_of_ne hk]
      exact room.push_fixed left hleft k

variable {α : Type} {attempt : Nat → (Nat → UInt8) → Option α} {rounds : Nat → Round} {room room' : Room}

/-- The room has every block that an arena which can grow gets from the system. -/
def Room.Grants (room : Room) (w : Nat) (rounds : Nat → Round) (a : Arena) : Prop :=
  ∀ bound, Growing w a bound → (∀ k, Willing (rounds k).push (max a.blockSize (bound + ArenaHeader))) →
    ∀ n ≤ bound, (room.push n).isSome

theorem exists_room (w : Nat) (rounds : Nat → Round) (a : Arena) :
    ∃ room : Room, room.fixed = a.fixed ∧ room.Grants w rounds a := by
  cases hfixed : a.fixed with
  | none => exact ⟨⟨none, fun _ => some fun _ => 0, fun _ h => by cases h⟩, rfl, fun _ _ _ _ _ => rfl⟩
  | some left =>
    refine ⟨bufferRoom left, rfl, fun bound hgrowing => ?_⟩
    rw [Arena.fixed, hgrowing.owning] at hfixed
    cases hfixed

theorem trialNext_lt {capacity next : Nat} (h : trialNext w room capacity = .ok next) : capacity < next := by
  unfold trialNext trialSize at h
  cases hfixed : room.fixed with
  | none =>
    rw [hfixed] at h
    dsimp only at h
    split_ifs at h
    cases h
    omega
  | some left =>
    rw [hfixed] at h
    dsimp only at h
    split_ifs at h
    · cases h
      omega
    · cases h
      omega

theorem trialLoop_congr (hfixed : room.fixed = room'.fixed) : ∀ fuel capacity,
    (∀ n, capacity ≤ n → room.push n = room'.push n) →
      trialLoop w room attempt fuel capacity = trialLoop w room' attempt fuel capacity := by
  intro fuel
  induction fuel with
  | zero => exact fun _ _ => rfl
  | succ fuel ih =>
    intro capacity hpush
    have hnext : trialNext w room capacity = trialNext w room' capacity := by
      unfold trialNext trialSize
      rw [hfixed]
    rw [trialLoop, trialLoop, hpush capacity le_rfl, ← hnext]
    cases htrial : trialNext w room capacity with
    | error e => rfl
    | ok next =>
      have hlt := trialNext_lt htrial
      dsimp only
      rw [ih next fun n hn => hpush n (by omega)]

theorem arenaTrialNext_eq (h : room.fixed = a.fixed) (capacity : Nat) :
    arenaTrialNext w a capacity = trialNext w room capacity := by
  unfold arenaTrialNext arenaTrialSize trialNext trialSize
  rw [h]
  unfold Arena.fixed
  cases a.fixedBuffer with
  | false => rfl
  | true => simp

theorem roundSpace_buffer (h : AtMark w m.arena) (hsize : 0 < size) {left : Nat} (hleft : m.arena.fixed = some left) :
    (roundSpace w os m size).isSome ↔ size ≤ left := by
  unfold Arena.fixed at hleft
  split_ifs at hleft with hfixed
  cases hleft
  obtain ⟨m', r, hpush, hr⟩ := push_buffer h hfixed os hsize
  rw [← hr, roundSpace, hpush]
  dsimp only
  split
  · rename_i hok
    exact ⟨fun _ => hok, fun _ => rfl⟩
  · rename_i hno
    exact ⟨fun hcon => absurd hcon Bool.false_ne_true, fun hcon => absurd hcon hno⟩

theorem AtMark.again (h : AtMark w a) {committed peak : Nat} (hinv : ArenaInv w a')
    (ha : a' = { a with current := { a.current with committed := committed }, peakUsed := peak }) :
    AtMark w a' ∧ a'.fixed = a.fixed ∧ (∀ os, OsFits w os a → OsFits w os a') ∧
      (∀ bound, Growing w a bound → Growing w a' bound) ∧ a'.blockSize = a.blockSize := by
  subst ha
  refine ⟨⟨hinv, h.used, h.buffer⟩, rfl, fun os hos n hn => ?_,
    fun bound hg => ⟨hg.owning, hg.block, hg.limit, hg.fits⟩, rfl⟩
  obtain ⟨hlen, hstop, hapart⟩ := hos n hn
  refine ⟨hlen, hstop, fun b hb => ?_⟩
  rcases List.mem_cons.mp hb with rfl | hb
  · exact hapart a.current List.mem_cons_self
  · exact hapart b (List.mem_cons_of_mem _ hb)

/-- A room that answers the push of this round as the arena does, and the others as another room does. -/
theorem exists_answer {fuel capacity : Nat} (h : AtMark w m.arena) (hos : OsFits w (rounds fuel).push m.arena)
    (hpos : 0 < capacity) (hfixed : room.fixed = m.arena.fixed) (hgrants : room.Grants w rounds m.arena) :
    ∃ answered : Room, answered.fixed = m.arena.fixed ∧ answered.Grants w rounds m.arena ∧
      answered.push capacity = roundSpace w (rounds fuel).push m capacity ∧
      ∀ n, n ≠ capacity → answered.push n = room.push n := by
  refine ⟨room.answer capacity _ fun left hleft => roundSpace_buffer h hpos (hfixed ▸ hleft), hfixed,
    fun bound hgrowing hwilling n hn => ?_, update_self .., fun n hn => update_of_ne hn ..⟩
  by_cases hsame : n = capacity
  · obtain ⟨m', r, hpush, hr⟩ := push_growing hos hgrowing (hwilling fuel) hpos (hsame ▸ hn)
    change (update room.push capacity _ n).isSome = true
    rw [hsame, update_self, roundSpace, hpush]
    dsimp only
    rw [if_pos hr]
    rfl
  change (update room.push capacity _ n).isSome = true
  rw [update_of_ne hsame]
  exact hgrants bound hgrowing hwilling n hn

/-- A trial in the room goes as the trial on the arena. -/
structure Room.Sees (room : Room) (w : Nat) (attempt : Nat → (Nat → UInt8) → Option α) (rounds : Nat → Round)
    (fuel : Nat) (m : Machine) (capacity : Nat) : Prop where
  fixed : room.fixed = m.arena.fixed
  grants : room.Grants w rounds m.arena
  same : (arenaTrial w attempt rounds fuel m capacity).toOption = (trialLoop w room attempt fuel capacity).toOption

/-- A room for the rounds after this one, if there are any. -/
theorem exists_later {fuel capacity : Nat} (h : AtMark w m.arena) (hos : ∀ k, OsFits w (rounds k).push m.arena)
    (hpos : 0 < capacity) (ih : ∀ (next : Nat) (m' : Machine), AtMark w m'.arena →
      (∀ k, OsFits w (rounds k).push m'.arena) → ∃ room : Room, room.Sees w attempt rounds fuel m' next) :
    ∃ rest : Room, rest.fixed = m.arena.fixed ∧ rest.Grants w rounds m.arena ∧ ∀ pushed r m' next,
      arenaTryPushImpl w (rounds fuel).push m capacity 1 false = .ok (pushed, r) → r.ok = true →
      arenaRewind (rounds fuel).rewind { pushed with bytes := (rounds fuel).bytes } (arenaMark m.arena) = .ok m' →
      arenaTrialNext w m'.arena capacity = .ok next →
      (arenaTrial w attempt rounds fuel m' next).toOption = (trialLoop w rest attempt fuel next).toOption := by
  by_cases hmore : ∃ pushed r m' next,
      arenaTryPushImpl w (rounds fuel).push m capacity 1 false = .ok (pushed, r) ∧ r.ok = true ∧
      arenaRewind (rounds fuel).rewind { pushed with bytes := (rounds fuel).bytes } (arenaMark m.arena) = .ok m' ∧
      arenaTrialNext w m'.arena capacity = .ok next
  swap
  · obtain ⟨plain, hplain, hgrants⟩ := exists_room w rounds m.arena
    exact ⟨plain, hplain, hgrants, fun pushed r m' next hpush hr hrewind hnext =>
      absurd ⟨pushed, r, m', next, hpush, hr, hrewind, hnext⟩ hmore⟩
  obtain ⟨pushed, r, m', next, hpush, hr, hrewind, hnext⟩ := hmore
  obtain ⟨committed, peak, hagain⟩ := round_again h (hos fuel) hpos hpush hr hrewind
  have hinv := arenaRewind_inv (m := { pushed with bytes := (rounds fuel).bytes })
    (round_inv h.inv (hos fuel) hpos hpush hr).1 hrewind
  obtain ⟨hat, hfixed, hfits, hgrowing, hblock⟩ := h.again hinv.1 hagain
  obtain ⟨rest, hrest⟩ := ih next m' hat fun k => hfits _ (hos k)
  refine ⟨rest, hrest.fixed.trans hfixed, fun bound hbound hwilling => ?_,
    fun pushed' r' m'' next' hpush' _ hrewind' hnext' => ?_⟩
  · refine hrest.grants bound (hgrowing bound hbound) fun k => ?_
    rw [hblock]
    exact hwilling k
  rw [hpush] at hpush'
  cases hpush'
  rw [hrewind] at hrewind'
  cases hrewind'
  rw [hnext] at hnext'
  cases hnext'
  exact hrest.same

/-- **`Room` is what the rounds see of an arena.**  The trial on the arena gives what the trial in some room gives. -/
theorem arenaTrial_room (hrelease : ∀ k bytes, (rounds k).rewind.mappingRelease bytes = 0) :
    ∀ (fuel capacity : Nat) (m : Machine), AtMark w m.arena → (∀ k, OsFits w (rounds k).push m.arena) →
      ∃ room : Room, room.Sees w attempt rounds fuel m capacity := by
  intro fuel
  induction fuel with
  | zero =>
    intro capacity m _ _
    obtain ⟨room, hfixed, hgrants⟩ := exists_room w rounds m.arena
    exact ⟨room, hfixed, hgrants, rfl⟩
  | succ fuel ih =>
    intro capacity m h hos
    by_cases hpos : capacity > 0
    swap
    · obtain ⟨room, hfixed, hgrants⟩ := exists_room w rounds m.arena
      refine ⟨room, hfixed, hgrants, ?_⟩
      rw [arenaTrial, trialLoop, if_neg hpos, if_neg hpos]
    obtain ⟨rest, hrestFixed, hrestGrants, hrest⟩ := exists_later h hos hpos ih
    obtain ⟨room, hfixed, hgrants, hself, hother⟩ := exists_answer h (hos fuel) hpos hrestFixed hrestGrants
    refine ⟨room, hfixed, hgrants, ?_⟩
    rw [arenaTrial, trialLoop, if_pos hpos, if_pos hpos, hself, roundSpace]
    cases hpush : arenaTryPushImpl w (rounds fuel).push m capacity 1 false with
    | error e => rfl
    | ok result =>
      obtain ⟨pushed, r⟩ := result
      dsimp only [bind, Except.bind]
      by_cases hr : r.ok = true
      swap
      · rw [if_neg hr, if_neg hr]
      rw [if_pos hr, if_pos hr]
      dsimp only
      cases attempt capacity fun i => pushed.bytes (r.memory + i) with
      | some result => rfl
      | none =>
        obtain ⟨hinv, hmark⟩ := round_inv h.inv (hos fuel) hpos hpush hr
        obtain ⟨m', hrewind, -⟩ := arenaRewind_total (m := { pushed with bytes := (rounds fuel).bytes }) hinv
          (hrelease fuel) hmark
        obtain ⟨committed, peak, hagain⟩ := round_again h (hos fuel) hpos hpush hr hrewind
        dsimp only
        rw [hrewind]
        dsimp only
        have hnext : arenaTrialNext w m'.arena capacity = trialNext w room capacity :=
          arenaTrialNext_eq (by rw [hfixed, hagain]; rfl) capacity
        rw [← hnext]
        cases htrial : arenaTrialNext w m'.arena capacity with
        | error e => rfl
        | ok next =>
          have hlt := trialNext_lt (hnext.symm.trans htrial)
          dsimp only
          rw [hrest pushed r m' next hpush hr hrewind htrial,
            trialLoop_congr (hrestFixed.trans hfixed.symm) fuel next fun n hn => (hother n (by omega)).symm]

/-- **A trial on an arena gives the answer,** in a fixed buffer with room for it, and in an arena that grows
where the system grants the blocks of the rounds. -/
theorem arenaTrial_ok {answer : α} (h : Trial attempt size answer) (hat : AtMark w m.arena)
    (hos : ∀ k, OsFits w (rounds k).push m.arena) (hrelease : ∀ k bytes, (rounds k).rewind.mappingRelease bytes = 0)
    {wanted : Nat} (hwanted : 0 < wanted)
    (hroom : m.arena.fixedBuffer = true ∧ 0 < arenaRemaining m.arena ∧ size ≤ arenaRemaining m.arena ∨
      size ≤ maximum w / 4 ∧ Growing w m.arena (max wanted (2 * size)) ∧
        ∀ k, Willing (rounds k).push (max m.arena.blockSize (max wanted (2 * size) + ArenaHeader))) :
    (arenaTrial w attempt rounds (w + 2) m (arenaTrialSize m.arena wanted)).toOption = some answer := by
  obtain ⟨room, hfixed, hgrants, htrial⟩ := arenaTrial_room hrelease (w + 2) (arenaTrialSize m.arena wanted) m hat hos
  have hholds : room.Holds w wanted size := by
    unfold Room.Holds
    rw [hfixed, Arena.fixed]
    rcases hroom with ⟨hbuffer, hpos, hsize⟩ | ⟨hsize, hgrowing, hwilling⟩
    · rw [if_pos hbuffer]
      refine ⟨hsize, hpos, ?_⟩
      have hok := hat.inv.current_ok
      have hstop := hok.stop_le
      have hheader := hok.header_le
      unfold Lib.Span.stop at hstop
      unfold arenaRemaining maximum
      unfold ArenaHeader at hheader
      omega
    · rw [hgrowing.owning, if_neg Bool.false_ne_true]
      exact ⟨hsize, hgrants _ hgrowing hwilling⟩
  have hsize : arenaTrialSize m.arena wanted = trialSize room wanted := by
    unfold arenaTrialSize trialSize
    rw [hfixed, Arena.fixed]
    cases m.arena.fixedBuffer with
    | false => simp
    | true => simp
  rw [htrial, hsize, trialLoop_size h hholds hwanted]
  rfl

/-- Rounds of 10, 21, 43 and 87 bytes behind `onePush`, of which the last three take a new block. -/
example : (arenaTrial 64 (fun capacity _ => if 50 ≤ capacity then some () else none)
    (fun _ => ⟨granting 8192, granting 0, fun _ => 0⟩) 66 onePush.machine 10).toOption = some () := by
  have hblock : BlockOk 64 onePush.arena.current := ⟨by decide, by decide, by decide⟩
  have hinv : ArenaInv 64 onePush.arena := by
    refine ⟨List.forall_mem_singleton.mpr hblock, rfl, List.pairwise_singleton .., rfl, ?_, by decide, by decide⟩
    intro hlimit
    cases hlimit rfl
  have hwilling : Willing (granting 8192) 256 := ⟨fun n hn => ?_, fun _ _ _ => rfl⟩
  refine arenaTrial_ok ⟨fun _ _ _ _ => rfl, fun _ _ h => if_pos h⟩ ⟨hinv, .inl rfl, by decide⟩
    (fun _ => granting_fits (by decide) (by decide)) (fun _ _ => rfl) (by decide)
    (.inr ⟨by decide, ⟨rfl, by decide, .inl rfl, by decide⟩, fun _ => hwilling⟩)
  unfold granting
  dsimp only
  rw [if_pos hn]

end

end Dyn.Mem
