import Dyn.Mem.Arena
import Mathlib.Tactic.Ring
import Mathlib.Algebra.BigOperators.Group.List.Basic

/-!
# std/mem: what the arena operations do

One specification lemma for each operation of `Dyn.Mem.Arena`, and the structural
invariant `ArenaInv` of the block chain.  Later arguments cite these lemmas and do
not open the operations again.

The chain is described from the newest block: `Chained` says that each block begins
at the position where the one before it stopped being used.
-/

namespace Dyn.Mem

open Lib List

variable {alignment w : Nat} {os : Os} {size : Nat}

theorem isPowerOfTwo_of_validAlignment (h : validAlignment alignment = true) :
    alignment.isPowerOfTwo := by
  simp only [validAlignment, Bool.and_eq_true, decide_eq_true_eq] at h
  exact Nat.ne_zero_and_sub_one_eq_zero_iff_isPowerOfTwo.mp h

theorem and_sub_one_eq_mod (h : alignment.isPowerOfTwo) (a : Nat) :
    a &&& (alignment - 1) = a % alignment := by
  obtain ⟨k, rfl⟩ := h
  exact Nat.and_two_pow_sub_one_eq_mod a k

theorem paddingAt_aligns (h : alignment.isPowerOfTwo) (a : Nat) :
    (a + paddingAt a alignment) % alignment = 0 := by
  have hpos : 0 < alignment := Nat.pos_of_isPowerOfTwo h
  simp only [paddingAt, and_sub_one_eq_mod h]
  split_ifs with hr
  · have hlt := Nat.mod_lt a hpos
    have hdiv := Nat.div_add_mod a alignment
    have e : a + (alignment - a % alignment) = alignment * (a / alignment + 1) := by
      rw [Nat.mul_add]
      omega
    rw [e]
    exact Nat.mul_mod_right _ _
  · simpa using hr

theorem zeroHead_spec (word : Nat) :
    ∀ (n a : Nat) (m : Nat → UInt8), (zeroHead word n a m).1 ≤ n ∧
        (zeroHead word n a m).2 = fill m ⟨a, n - (zeroHead word n a m).1⟩ 0
  | 0, a, m => by simp [zeroHead, fill_nil]
  | n + 1, a, m => by
    unfold zeroHead
    split_ifs with h
    · obtain ⟨h1, h2⟩ := zeroHead_spec word n (a + 1) (Function.update m a 0)
      generalize (zeroHead word n (a + 1) (Function.update m a 0)).1 = left at h1 h2 ⊢
      refine ⟨by omega, ?_⟩
      rw [h2, fill_one, fill_fill]
      congr 2
      omega
    · simp [fill_nil]

theorem zeroWords_spec (word : Nat) :
    ∀ (fuel n a : Nat) (m : Nat → UInt8), (zeroWords word fuel n a m).1 ≤ n ∧
        (zeroWords word fuel n a m).2.1 = a + (n - (zeroWords word fuel n a m).1) ∧
        (zeroWords word fuel n a m).2.2 = fill m ⟨a, n - (zeroWords word fuel n a m).1⟩ 0
  | 0, n, a, m => by simp [zeroWords, fill_nil]
  | fuel + 1, n, a, m => by
    unfold zeroWords
    split_ifs with h
    · obtain ⟨h1, h2, h3⟩ :=
        zeroWords_spec word fuel (n - word) (a + word) (storeRun 0 word a m)
      generalize (zeroWords word fuel (n - word) (a + word) (storeRun 0 word a m)).1 =
        left at h1 h2 h3 ⊢
      refine ⟨by omega, by omega, ?_⟩
      rw [h3, storeRun_eq_fill, fill_fill]
      congr 2
      omega
    · simp [fill_nil]

theorem zeroBytesFast_eq_fill (word : Nat) (items : Span) (m : Nat → UInt8) :
    zeroBytesFast word items m = fill m items 0 := by
  obtain ⟨start, len⟩ := items
  obtain ⟨h1, h2⟩ := zeroHead_spec word len start m
  simp only [zeroBytesFast]
  rw [h2]
  generalize (zeroHead word len start m).1 = left at h1 h2 ⊢
  obtain ⟨h3, h4, h5⟩ :=
    zeroWords_spec word left left (start + (len - left)) (fill m ⟨start, len - left⟩ 0)
  rw [h5, h4, storeRun_eq_fill]
  generalize (zeroWords word left left (start + (len - left))
    (fill m ⟨start, len - left⟩ 0)).1 = rest at h3 h4 h5 ⊢
  rw [Nat.add_assoc, fill_fill, fill_fill]
  congr 2
  omega

/-- A block whose used part lies between its header and its end. -/
structure BlockOk (w : Nat) (b : Block) : Prop where
  header_le : ArenaHeader ≤ b.offset
  offset_le : b.offset ≤ b.data.len
  stop_le : b.data.stop ≤ 2 ^ w

/-- Each block begins at the position where the one before it stopped being used. -/
def Chained : List Block → Prop
  | [] => True
  | [b] => b.base = 0
  | b :: c :: rest => b.base + ArenaHeader = c.base + c.offset ∧ Chained (c :: rest)

variable {rest : List Block} {a a' : Arena} {committed : Nat} {m m' : Machine}

theorem Chained.tail {b : Block} (h : Chained (b :: rest)) : Chained rest := by
  cases rest with
  | nil => trivial
  | cons c rest => exact h.2

theorem Chained.suffix {dropped : List Block} (h : Chained (dropped ++ rest)) : Chained rest := by
  induction dropped with
  | nil => exact h
  | cons b dropped ih => exact ih h.tail

/-- Older blocks end, in position space, before newer ones begin. -/
theorem Chained.pairwise :
    ∀ {bs : List Block}, Chained bs → (∀ b ∈ bs, BlockOk w b) →
      bs.Pairwise (fun b c => c.base + c.offset ≤ b.base + ArenaHeader)
  | [], _, _ => List.Pairwise.nil
  | [b], _, _ => pairwise_singleton _ b
  | b :: c :: rest, h, hok => by
    have ih := Chained.pairwise h.2 (fun d hd => hok d (mem_cons_of_mem _ hd))
    refine List.Pairwise.cons ?_ ih
    intro d hd
    rcases mem_cons.mp hd with rfl | hd
    · exact le_of_eq h.1.symm
    have h1 := rel_of_pairwise_cons ih hd
    have h2 := (hok c (by simp)).header_le
    have h3 := h.1
    omega

/-- The used bytes of a chain are its last position less one header. -/
theorem Chained.used :
    ∀ {b : Block} {rest : List Block}, Chained (b :: rest) → (∀ c ∈ b :: rest, BlockOk w c) →
      ((b :: rest).map (fun c => c.offset - ArenaHeader)).sum + ArenaHeader = b.base + b.offset
  | b, [], h, hok => by
    have h1 := (hok b (by simp)).header_le
    have h2 : b.base = 0 := h
    simp only [map_cons, map_nil, sum_cons, sum_nil]
    omega
  | b, c :: rest, h, hok => by
    have ih := Chained.used h.2 (fun d hd => hok d (mem_cons_of_mem _ hd))
    have h1 := (hok b (by simp)).header_le
    have h2 := h.1
    rw [map_cons, sum_cons]
    omega

/-- The structural invariant of an arena on a target with `w`-bit addresses. -/
structure ArenaInv (w : Nat) (a : Arena) : Prop where
  sized : ∀ b ∈ a.blocks, BlockOk w b
  chained : Chained a.blocks
  apart : a.blocks.Pairwise (fun b c => b.data.Apart c.data)
  backing_eq : a.backing = (a.blocks.map (fun b => b.data.len)).sum
  backing_le_limit : a.limit ≠ 0 → a.backing ≤ a.limit
  backing_le_maximum : a.backing ≤ maximum w
  used_le_peak : arenaUsed a ≤ a.peakUsed

namespace ArenaInv

variable {w : Nat} {a : Arena}

theorem current_ok (h : ArenaInv w a) : BlockOk w a.current :=
  h.sized _ (by simp [Arena.blocks])

theorem used_add_header (h : ArenaInv w a) : arenaUsed a + ArenaHeader = arenaMark a :=
  Chained.used h.chained h.sized

theorem header_le_mark (h : ArenaInv w a) : ArenaHeader ≤ arenaMark a := by
  have := h.used_add_header
  omega

end ArenaInv

/-- The assumption on the system: a mapping has the requested size, lies inside the
address space and does not meet a block in use. -/
def OsFits (w : Nat) (os : Os) (a : Arena) : Prop :=
  ∀ n, (os.mappingAllocate n).ok = true →
    (os.mappingAllocate n).bytes.len = n ∧
    (os.mappingAllocate n).bytes.stop ≤ 2 ^ w ∧
    ∀ b ∈ a.blocks, (os.mappingAllocate n).bytes.Apart b.data

theorem mappingWithHeader_bytes {n : Nat} (h : (mappingWithHeader os n).ok = true) :
    (os.mappingAllocate n).ok = true ∧
      (mappingWithHeader os n).bytes = (os.mappingAllocate n).bytes := by
  unfold mappingWithHeader at h ⊢
  simp only at h ⊢
  split_ifs at h ⊢ with h1 h2 h3
  · simp [h] at h1
  · exact ⟨h, rfl⟩
  · exact ⟨h, rfl⟩

/-- A planned block holds the header and the request and respects both caps. -/
theorem growPlan_ok {wanted : Nat} (hpos : 0 < alignment)
    (h : growPlan w a size alignment = .ok wanted) :
    ArenaHeader + size ≤ wanted ∧
      (a.limit ≠ 0 → a.backing ≤ a.limit → a.backing + wanted ≤ a.limit) ∧
      wanted ≤ maximum w - a.backing := by
  unfold growPlan at h
  simp only at h
  split_ifs at h with h1 h2 h3 h4 h5 h6 h7 h8
  · cases h
    omega
  · cases h
    exact ⟨by omega, fun hl => absurd (by simpa using h4) hl, by omega⟩

/-- The arena with one more block, of a fresh mapping. -/
def withBlock (a : Arena) (bytes : Span) (committed : Nat) : Arena :=
  { a with
    current := blockInit bytes (arenaMark a - ArenaHeader) true committed
    previous := a.blocks
    backing := a.backing + bytes.len }

/-- The outcome of a growth: one more block behind the current position, of a fresh
mapping that holds the request. -/
theorem arenaGrow_ok (hpos : 0 < alignment) (hinv : ArenaInv w a) (hos : OsFits w os a)
    (h : arenaGrow w os a size alignment = .ok a') :
    ∃ (bytes : Span) (committed : Nat), a' = withBlock a bytes committed ∧
      ArenaHeader + paddingAt (bytes.start + ArenaHeader) alignment + size ≤ bytes.len ∧
      bytes.stop ≤ 2 ^ w ∧
      (∀ b ∈ a.blocks, bytes.Apart b.data) ∧
      (a.limit ≠ 0 → a.backing + bytes.len ≤ a.limit) ∧
      a.backing + bytes.len ≤ maximum w := by
  unfold arenaGrow at h
  cases hplan : growPlan w a size alignment with
  | error e => simp [hplan] at h
  | ok wanted =>
    obtain ⟨hroom, hlimit, hmax⟩ := growPlan_ok hpos hplan
    simp only [hplan] at h
    split_ifs at h with hok hfit
    simp only [Bool.not_eq_true', Bool.not_eq_false] at hok
    obtain ⟨hall, hbytes⟩ := mappingWithHeader_bytes hok
    obtain ⟨hlen, hstop, hapart⟩ := hos wanted hall
    rw [hbytes] at h hfit
    have hbacking := hinv.backing_le_maximum
    refine ⟨_, (mappingWithHeader os wanted).committed, ?_, ?_, hstop, hapart, ?_, ?_⟩
    · cases h
      rw [withBlock, hlen]
    · rw [hlen]
      omega
    · intro hl
      rw [hlen]
      exact hlimit hl (hinv.backing_le_limit hl)
    · rw [hlen]
      omega

theorem arenaGrow_inv (hpos : 0 < alignment) (hinv : ArenaInv w a) (hos : OsFits w os a)
    (h : arenaGrow w os a size alignment = .ok a') : ArenaInv w a' := by
  obtain ⟨bytes, -, rfl, hroom, hstop, hapart, hlimit, hmax⟩ :=
    arenaGrow_ok hpos hinv hos h
  have hmark := hinv.header_le_mark
  refine ⟨?_, ?_, ?_, ?_, hlimit, hmax, ?_⟩
  · intro b hb
    rcases mem_cons.mp hb with rfl | hb
    · exact ⟨le_rfl, by simp only [withBlock, blockInit]; omega, hstop⟩
    · exact hinv.sized b hb
  · refine ⟨?_, hinv.chained⟩
    simp only [withBlock, blockInit, arenaMark] at hmark ⊢
    omega
  · exact List.Pairwise.cons hapart hinv.apart
  · rw [Arena.blocks, map_cons, sum_cons]
    simp only [withBlock]
    rw [← hinv.backing_eq]
    simp only [blockInit]
    omega
  · have hused := hinv.used_le_peak
    simp only [withBlock, arenaUsed, Arena.blocks, map_cons, sum_cons, blockInit] at hused ⊢
    omega

/-- Releasing the added block gives back the arena before the growth. -/
theorem releaseAdded_withBlock {bytes : Span}
    (h : releaseAdded os (withBlock a bytes committed) = .ok a') : a' = a := by
  unfold releaseAdded withBlock Arena.blocks at h
  split_ifs at h
  cases h
  simp [blockInit]

/-- The arena after the newest block is used through `stop`. -/
def advanced (a : Arena) (committed stop : Nat) : Arena :=
  { a with
    current := { a.current with committed := committed, offset := stop }
    peakUsed := max a.peakUsed (a.current.base + stop - ArenaHeader) }

theorem advanced_inv {stop : Nat} (hinv : ArenaInv w a) (hle : a.current.offset ≤ stop)
    (hroom : stop ≤ a.current.data.len) : ArenaInv w (advanced a committed stop) := by
  have hcur := hinv.current_ok
  have hprev : ∀ b ∈ a.previous, BlockOk w b :=
    fun b hb => hinv.sized b (mem_cons_of_mem _ hb)
  have hchained : Chained (advanced a committed stop).blocks := by
    have hc := hinv.chained
    unfold advanced Arena.blocks at *
    cases hp : a.previous with
    | nil | cons c rest => simpa [hp, Chained] using hc
  have hsized : ∀ b ∈ (advanced a committed stop).blocks, BlockOk w b := by
    intro b hb
    rcases mem_cons.mp hb with rfl | hb
    · exact ⟨le_trans hcur.header_le hle, hroom, hcur.stop_le⟩
    · exact hprev b hb
  refine ⟨hsized, hchained, ?_, ?_, hinv.backing_le_limit, hinv.backing_le_maximum, ?_⟩
  · have hapart := hinv.apart
    exact List.Pairwise.cons (fun b hb => rel_of_pairwise_cons hapart hb)
      (List.Pairwise.of_cons hapart)
  · exact hinv.backing_eq
  have hused := Chained.used hchained hsized
  show arenaUsed _ ≤ max a.peakUsed (a.current.base + stop - ArenaHeader)
  have : arenaUsed (advanced a committed stop) + ArenaHeader = a.current.base + stop :=
    hused
  omega

theorem commitThrough_some {b b' : Block} {stop : Nat} (h : commitThrough w os b stop = some b') :
    ∃ committed, b' = { b with committed := committed } := by
  unfold commitThrough arenaCommit at h
  simp only at h
  split_ifs at h
  · exact ⟨_, (Option.some.inj h).symm⟩
  · exact ⟨_, (Option.some.inj h).symm⟩
  · exact ⟨b.committed, (Option.some.inj h).symm⟩

/-- Where a push of `size` bytes lands in the newest block. -/
def landing (a : Arena) (alignment : Nat) : Nat :=
  a.current.data.start + a.current.offset +
    paddingAt (a.current.data.start + a.current.offset) alignment

/-- The newest block's offset behind a push of `size` bytes. -/
def landingStop (a : Arena) (size alignment : Nat) : Nat :=
  a.current.offset + paddingAt (a.current.data.start + a.current.offset) alignment + size

/-- The machine after a push that found room in the newest block. -/
def placed (a : Arena) (bytes : Nat → UInt8) (size alignment : Nat) (zero : Bool)
    (committed : Nat) : Machine :=
  { arena := advanced a committed (landingStop a size alignment)
    bytes := if zero then fill bytes ⟨landing a alignment, size⟩ 0 else bytes }

/-- One pass of the push loop: no room, a placement, or a refused commit. -/
theorem pushInto_cases (w : Nat) (os : Os) (m : Machine) (size alignment : Nat)
    (zero grew : Bool) :
    (pushInto w os m size alignment zero grew = none ∧
      (m.arena.current.data.len ≤ m.arena.current.offset ∨
        m.arena.current.data.len < landingStop m.arena size alignment)) ∨
    (landingStop m.arena size alignment ≤ m.arena.current.data.len ∧
      ((∃ committed, pushInto w os m size alignment zero grew =
          some (.ok (placed m.arena m.bytes size alignment zero committed,
            { memory := landing m.arena alignment, size := size, ok := true }))) ∨
        (∃ stop, commitThrough w os m.arena.current stop = none) ∧
          pushInto w os m size alignment zero grew = some (commitRefused w os m grew))) := by
  unfold pushInto
  simp only
  split
  · right
    refine ⟨by simp only [landingStop]; omega, ?_⟩
    cases hc : commitThrough w os m.arena.current (m.arena.current.offset +
          paddingAt (m.arena.current.data.start + m.arena.current.offset) alignment +
          size) with
    | none => exact .inr ⟨⟨_, hc⟩, rfl⟩
    | some b =>
      left
      obtain ⟨committed, rfl⟩ := commitThrough_some hc
      refine ⟨committed, ?_⟩
      simp only [placed, advanced, landing, landingStop, zeroBytesFast_eq_fill,
        gt_iff_lt, max_def_lt]
  · left
    refine ⟨rfl, ?_⟩
    simp only [landingStop]
    omega

/-- What `a'` keeps of `a` when a block was added, or nothing was done. -/
structure Extends (w : Nat) (a a' : Arena) : Prop where
  inv : ArenaInv w a'
  blocks : ∀ b ∈ a.blocks, b ∈ a'.blocks
  mark : arenaMark a' = arenaMark a
  peak : a'.peakUsed = a.peakUsed
  grown : a' = a ∨ ∃ bytes committed, a' = withBlock a bytes committed

/-- Every outcome of a push: it fails and changes only the failure counter, it asks for
nothing, or it lands in the newest block, old or added. -/
theorem arenaTryPushImpl_cases {r : Allocation} {zero : Bool} (hinv : ArenaInv w m.arena)
    (hos : OsFits w os m.arena) (h : arenaTryPushImpl w os m size alignment zero = .ok (m', r)) :
    (r.ok = false ∧ ∃ n, m' = { m with arena := { m.arena with allocationFailures := n } }) ∨
    (size = 0 ∧ r = { ok := true } ∧ m' = m) ∨
    (0 < size ∧ alignment.isPowerOfTwo ∧ ∃ a committed, Extends w m.arena a ∧
        landingStop a size alignment ≤ a.current.data.len ∧
        m' = placed a m.bytes size alignment zero committed ∧
        r = { memory := landing a alignment, size := size, ok := true }) := by
  have hfailed : ∀ (a : Arena) (e : ErrorKind),
      ∃ n, (arenaFailure w a e).1 = { a with allocationFailures := n } :=
    fun a e => ⟨_, rfl⟩
  unfold arenaTryPushImpl at h
  simp only at h
  split_ifs at h with hvalid hsize
  · injection h with h
    injection h with h1 h2
    obtain ⟨n, hn⟩ := hfailed m.arena .invalidAlignment
    exact .inl ⟨by rw [← h2]; rfl, n, by rw [← h1, hn]⟩
  · cases h
    exact .inr (.inl ⟨hsize, rfl, rfl⟩)
  have hpow : alignment.isPowerOfTwo :=
    isPowerOfTwo_of_validAlignment (by simpa using hvalid)
  have hpos : 0 < size := Nat.pos_of_ne_zero hsize
  rcases pushInto_cases w os m size alignment zero false with
    ⟨hnone, _⟩ | ⟨hroom, ⟨committed, hsome⟩ | ⟨-, hrefused⟩⟩
  · simp only [hnone] at h
    cases hgrow : arenaGrow w os m.arena size alignment with
    | error e =>
      simp only [hgrow] at h
      injection h with h
      injection h with h1 h2
      obtain ⟨n, hn⟩ := hfailed m.arena e.1
      exact .inl ⟨by rw [← h2]; rfl, n, by rw [← h1, hn]⟩
    | ok grown =>
      simp only [hgrow] at h
      have hal := Nat.pos_of_isPowerOfTwo hpow
      have hginv := arenaGrow_inv hal hinv hos hgrow
      obtain ⟨bytes, committed, rfl, hfit, _, _, _, _⟩ :=
        arenaGrow_ok hal hinv hos hgrow
      have hmark := hinv.header_le_mark
      have hext : Extends w m.arena (withBlock m.arena bytes committed) := by
        refine ⟨hginv, fun b hb => mem_cons_of_mem _ hb, ?_, rfl, .inr ⟨_, _, rfl⟩⟩
        simp only [withBlock, arenaMark, blockInit] at hmark ⊢
        omega
      rcases pushInto_cases w os { m with arena := withBlock m.arena bytes committed }
        size alignment zero true with
        ⟨_, hlack⟩ | ⟨hroom, ⟨committed', hsome⟩ | ⟨-, hrefused⟩⟩
      · -- the mapped block was checked to hold the request
        exfalso
        simp only [withBlock, landingStop, blockInit] at hlack
        omega
      · simp only [hsome] at h
        cases h
        exact .inr (.inr ⟨hpos, hpow, _, committed', hext, hroom, rfl, rfl⟩)
      -- the added block is released again: the arena is the one before the push
      left
      simp only [hrefused, commitRefused, if_true] at h
      cases hrel : releaseAdded os (withBlock m.arena bytes committed) with
      | error e => simp [hrel, Except.map] at h
      | ok a =>
        obtain rfl := releaseAdded_withBlock hrel
        simp only [hrel, Except.map] at h
        injection h with h
        injection h with h1 h2
        exact ⟨by rw [← h2]; rfl, _, h1.symm⟩
  · simp only [hsome] at h
    cases h
    exact .inr (.inr ⟨hpos, hpow, m.arena, committed,
      ⟨hinv, fun b hb => hb, rfl, rfl, .inl rfl⟩, hroom, rfl, rfl⟩)
  · simp only [hrefused, commitRefused, Bool.false_eq_true, if_false, Except.map] at h
    injection h with h
    injection h with h1 h2
    obtain ⟨n, hn⟩ := hfailed m.arena .system
    exact .inl ⟨by rw [← h2]; rfl, n, by rw [← h1, hn]⟩

/-- An extension changes nothing, or uses `extra` zeroed bytes of the newest block. -/
theorem arenaTryExtend_cases {ok : Bool} {memory extra : Nat} (hinv : ArenaInv w m.arena)
    (h : arenaTryExtend w os m memory size extra = (m', ok)) :
    (ok = false ∧ m' = m) ∨
    (ok = true ∧ memory + size = m.arena.current.data.start + m.arena.current.offset ∧
      m.arena.current.offset + extra ≤ m.arena.current.data.len ∧
      ∃ committed, m' =
        { arena := advanced m.arena committed (m.arena.current.offset + extra)
          bytes := fill m.bytes
            ⟨m.arena.current.data.start + m.arena.current.offset, extra⟩ 0 }) := by
  have hcur := hinv.current_ok.offset_le
  unfold arenaTryExtend at h
  simp only at h
  split at h
  · cases h
    exact .inl ⟨rfl, rfl⟩
  split at h
  · cases h
    exact .inl ⟨rfl, rfl⟩
  split at h
  · cases h
    exact .inl ⟨rfl, rfl⟩
  split at h
  · cases h
    exact .inl ⟨rfl, rfl⟩
  rename_i hc
  cases h
  obtain ⟨committed, rfl⟩ := commitThrough_some hc
  refine .inr ⟨rfl, by omega, by omega, committed, ?_⟩
  simp only [advanced, zeroBytesFast_eq_fill, gt_iff_lt, max_def_lt]

theorem releaseWhile_ok {drop : Block → Bool} :
    ∀ {block block' : Block} {rest rest' : List Block} {backing backing' : Nat},
      releaseWhile os drop block rest backing = .ok (block', rest', backing') →
      ∃ dropped, block :: rest = dropped ++ block' :: rest' ∧ (∀ b ∈ dropped, drop b = true) ∧
        backing' = backing - (dropped.map (fun b => b.data.len)).sum ∧
        (rest' = [] ∨ drop block' = false)
  | block, block', [], rest', backing, backing', h => by
    obtain ⟨rfl, rfl, rfl⟩ := h
    exact ⟨[], rfl, by simp, by simp, .inl rfl⟩
  | block, block', next :: rest, rest', backing, backing', h => by
    unfold releaseWhile at h
    split_ifs at h with hdrop hfail
    · obtain ⟨dropped, h1, h2, h3, h4⟩ := releaseWhile_ok h
      refine ⟨block :: dropped, by simp [h1], ?_, ?_, h4⟩
      · intro b hb
        rcases mem_cons.mp hb with rfl | hb
        · exact hdrop
        · exact h2 b hb
      · rw [h3, map_cons, sum_cons]
        omega
    · obtain ⟨rfl, rfl, rfl⟩ := h
      exact ⟨[], rfl, by simp, by simp, .inr (by simpa using hdrop)⟩

theorem releaseWhile_total (hos : ∀ s, os.mappingRelease s = 0) (drop : Block → Bool) :
    ∀ (block : Block) (rest : List Block) (backing : Nat),
      ∃ r, releaseWhile os drop block rest backing = .ok r
  | block, [], backing => ⟨_, rfl⟩
  | block, next :: rest, backing => by
    unfold releaseWhile
    split_ifs with hdrop hfail
    · exact absurd (hos block.data) hfail.2
    · exact releaseWhile_total hos drop next rest (backing - block.data.len)
    · exact ⟨_, rfl⟩

/-- The position a rewind to `mark` returns to: the mark, or the start below it. -/
def rewindTarget (mark : Nat) : Nat := max mark ArenaHeader

/-- A rewind drops the blocks that begin at or after the target and cuts the newest
remaining one there. -/
theorem arenaRewind_ok {mark : Nat} (hinv : ArenaInv w m.arena) (h : arenaRewind os m mark = .ok m') :
    mark ≤ arenaMark m.arena ∧
    ∃ (dropped : List Block) (block : Block) (rest : List Block),
      m.arena.blocks = dropped ++ block :: rest ∧
      (∀ b ∈ dropped, rewindTarget mark ≤ b.base + ArenaHeader) ∧
      block.base + ArenaHeader ≤ rewindTarget mark ∧
      rewindTarget mark ≤ block.base + block.offset ∧
      m'.arena =
        { m.arena with
          current := { block with offset := rewindTarget mark - block.base }
          previous := rest
          backing := ((block :: rest).map (fun b => b.data.len)).sum } ∧
      (m'.bytes = m.bytes ∨ m'.bytes = fill m.bytes
          ⟨block.data.start + (rewindTarget mark - block.base),
            block.offset - (rewindTarget mark - block.base)⟩ 221) := by
  have htarget : (if mark < ArenaHeader then ArenaHeader else mark) = rewindTarget mark := by
    unfold rewindTarget
    split_ifs <;> omega
  unfold arenaRewind at h
  rw [htarget] at h
  split at h
  · cases h
  cases hr : releaseWhile os (fun b => decide (rewindTarget mark ≤ b.base + ArenaHeader))
      m.arena.current m.arena.previous m.arena.backing with
  | error e => simp [hr] at h
  | ok r =>
    obtain ⟨block, rest, backing⟩ := r
    obtain ⟨dropped, hsplit, hdropped, hbacking, hstop⟩ := releaseWhile_ok hr
    have hblocks : m.arena.blocks = dropped ++ block :: rest := hsplit
    simp only [hr, Except.ok.injEq] at h
    refine ⟨by omega, dropped, block, rest, hblocks, ?_, ?_, ?_, ?_, ?_⟩
    · intro b hb
      simpa using hdropped b hb
    · have hchain : Chained (block :: rest) := (hblocks ▸ hinv.chained).suffix
      rcases hstop with rfl | hstop
      · have hbase : block.base = 0 := hchain
        have : ArenaHeader ≤ rewindTarget mark := le_max_right _ _
        omega
      · simp only [decide_eq_false_iff_not, not_le] at hstop
        omega
    · -- the last dropped block begins where the remaining one ends
      rcases eq_nil_or_concat dropped with rfl | ⟨front, last, rfl⟩
      · have hcur : m.arena.current = block := by
          have := hblocks
          simp only [Arena.blocks, nil_append, cons.injEq] at this
          exact this.1
        have hhead := hinv.header_le_mark
        rw [← hcur]
        show rewindTarget mark ≤ arenaMark m.arena
        exact max_le (by omega) hhead
      have hlast := hdropped last (by simp)
      have hchain : Chained (last :: block :: rest) := by
        have hc := hinv.chained
        rw [hblocks, concat_eq_append, append_assoc] at hc
        exact hc.suffix
      have := hchain.1
      simp only [decide_eq_true_eq] at hlast
      omega
    · rw [← h]
      have hsum := hinv.backing_eq
      rw [hblocks, map_append, sum_append] at hsum
      have : backing = ((block :: rest).map (fun b => b.data.len)).sum := by omega
      rw [this]
    · rw [← h]
      simp only
      split_ifs
      · exact .inr (storeRun_eq_fill _ _ _ _)
      · exact .inl rfl

theorem arenaRewind_inv {mark : Nat} (hinv : ArenaInv w m.arena)
    (h : arenaRewind os m mark = .ok m') :
    ArenaInv w m'.arena ∧ arenaMark m'.arena = rewindTarget mark := by
  obtain ⟨hmark, dropped, block, rest, hblocks, _, hlow, hhigh, harena, _⟩ :=
    arenaRewind_ok hinv h
  have hsized : ∀ b ∈ block :: rest, BlockOk w b := by
    intro b hb
    exact hinv.sized b (hblocks ▸ mem_append_right _ hb)
  have hblock := hsized block (by simp)
  have hchain : Chained (block :: rest) := (hblocks ▸ hinv.chained).suffix
  have hapart : (block :: rest).Pairwise (fun b c => b.data.Apart c.data) :=
    (pairwise_append.mp (hblocks ▸ hinv.apart)).2.1
  have hmark' : arenaMark m'.arena = rewindTarget mark := by
    rw [harena]
    simp only [arenaMark]
    omega
  refine ⟨?_, hmark'⟩
  have hsized' : ∀ b ∈ m'.arena.blocks, BlockOk w b := by
    rw [harena]
    intro b hb
    rcases mem_cons.mp hb with rfl | hb
    · have h1 := hblock.offset_le
      exact ⟨by simp only; omega, by simp only; omega, hblock.stop_le⟩
    · exact hsized b (mem_cons_of_mem _ hb)
  have hchain' : Chained m'.arena.blocks := by
    rw [harena]
    cases rest with
    | nil | cons c rest => exact hchain
  have hsum := hinv.backing_eq
  rw [hblocks, map_append, sum_append] at hsum
  refine ⟨hsized', hchain', ?_, ?_, ?_, ?_, ?_⟩
  · rw [harena]
    exact List.Pairwise.cons (fun b hb => rel_of_pairwise_cons hapart hb)
      (List.Pairwise.of_cons hapart)
  · rw [harena]
    rfl
  · rw [harena]
    intro hl
    have := hinv.backing_le_limit hl
    simp only at this ⊢
    omega
  · rw [harena]
    have := hinv.backing_le_maximum
    simp only at this ⊢
    omega
  have hused : arenaUsed m'.arena + ArenaHeader = arenaMark m'.arena :=
    Chained.used hchain' hsized'
  have hold := hinv.used_add_header
  have hpeak := hinv.used_le_peak
  have htop : rewindTarget mark ≤ arenaMark m.arena := max_le hmark hinv.header_le_mark
  have : m'.arena.peakUsed = m.arena.peakUsed := by rw [harena]
  omega

end Dyn.Mem
