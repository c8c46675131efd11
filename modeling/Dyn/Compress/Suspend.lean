import Dyn.Compress.Stream

/-!
# std/compress/deflate: suspended input

The streaming decoder runs the engine on the part of the stream that is buffered.  Whole
bytes behind a buffer change nothing but a want of input (`absRound_extend`), so every run
on a buffer is a run on the stream.

`unread` is the part of the stream the decoder has not committed.  Refilling and asking for
bytes move it between source and buffer and keep it (`refill_spec`, `requireBytes_spec`).
-/

namespace Dyn.Compress

open Lib List
open BitParser (steady_bind Steady steady_take steady_pure steady_reject)

theorem steady_decodeLoop (table : Huffman) :
    ∀ n length code factor : Nat,
      Steady (decodeLoop table n length code factor : BitParser Nat)
  | 0, _, _, _ => steady_reject
  | n + 1, length, code, factor => by
    refine steady_bind (steady_take 1) (fun bit => ?_)
    simp only
    cases findSymbol length (code + bit * factor) table.lengths table.codes 0 with
    | some symbol => exact steady_pure _
    | none => exact steady_decodeLoop table n _ _ _

theorem steady_decode (table : Huffman) :
    Steady (decode table : BitParser Nat) :=
  steady_decodeLoop table 15 1 0 1

theorem steady_readCodeLengths :
    ∀ order lengths : List Nat,
      Steady (readCodeLengths order lengths : BitParser (List Nat))
  | [], _ => steady_pure _
  | symbol :: order, lengths =>
    steady_bind (steady_take 3)
      (fun value => steady_readCodeLengths order (lengths.set symbol value))

theorem steady_readLengths (table : Huffman) (total : Nat) :
    ∀ (fuel : Nat) (lengths : List Nat),
      Steady (readLengths table total fuel lengths : BitParser (List Nat))
  | 0, _ => steady_pure _
  | fuel + 1, lengths => by
    have repeated : ∀ (bits : Nat) (next : Nat → BitParser (List Nat)) (low : Nat),
        (∀ value, Steady (next value)) →
        Steady (BitParser.bind (BitParser.take bits) (fun value =>
          if value + low > total - lengths.length then BitParser.reject else next value)) :=
      fun bits next low hnext => steady_bind (steady_take bits)
        (fun value => steady_ite steady_reject (hnext value))
    refine steady_ite (steady_bind (steady_decode table) (fun symbol => ?_))
      (steady_pure _)
    refine steady_ite (steady_readLengths table total fuel _) (steady_ite ?_
      (steady_ite ?_ (steady_ite ?_ steady_reject)))
    · exact steady_ite steady_reject
        (repeated 2 _ 3 (fun value => steady_readLengths table total fuel _))
    · exact repeated 3 _ 3 (fun value => steady_readLengths table total fuel _)
    · exact repeated 7 _ 11 (fun value => steady_readLengths table total fuel _)

theorem steady_buildTables (literal distance : List Nat) :
    Steady (buildTables literal distance : BitParser (Huffman × Huffman)) := by
  unfold buildTables
  split
  · exact steady_reject
  refine steady_ite steady_reject ?_
  split
  · exact steady_reject
  · exact steady_pure _

theorem steady_tables (kind : Nat) :
    Steady (tables kind : BitParser (Huffman × Huffman)) := by
  refine steady_ite (steady_buildTables _ _)
    (steady_bind (steady_take 5) (fun value => ?_))
  refine steady_ite steady_reject
    (steady_bind (steady_take 5) (fun value => ?_))
  refine steady_bind (steady_take 4) (fun value => ?_)
  refine steady_bind (steady_readCodeLengths _ _) (fun codeLengths => ?_)
  split
  · exact steady_reject
  · exact steady_bind (steady_readLengths _ _ _ _)
      (fun lengths => steady_buildTables _ _)

theorem steady_headerBody (final kind : Nat) :
    Steady (headerBody final kind : BitParser BlockHeader) := by
  refine steady_ite (steady_pure _) (steady_ite ?_ ?_)
  · exact steady_bind BitParser.steady_align (fun _ =>
      steady_bind (steady_take 16) (fun _ =>
        steady_bind (steady_take 16) (fun _ => steady_pure _)))
  · exact steady_bind (steady_tables kind) (fun _ => steady_pure _)

theorem steady_blockHeader : Steady (blockHeader : BitParser BlockHeader) :=
  steady_bind (steady_take 1) (fun final =>
    steady_bind (steady_take 2) (fun kind => steady_headerBody final kind))

theorem steady_blockItem (literal distance : Huffman) :
    Steady (blockItem literal distance : BitParser BlockItem) := by
  refine steady_bind (steady_decode literal) (fun symbol => ?_)
  refine steady_ite (steady_pure _) (steady_ite (steady_pure _)
    (steady_ite (steady_pure _) ?_))
  refine steady_bind (steady_take _) (fun extra => ?_)
  refine steady_bind (steady_decode distance) (fun symbol' => ?_)
  exact steady_ite (steady_pure _)
    (steady_bind (steady_take _) (fun _ => steady_pure _))

/-- The configuration with more bits behind. -/
def Config.extend (c : Config) (more : List Bool) : Config := { c with bits := c.bits ++ more }

/-- The end of a round, and its end with more bits behind. -/
def Lifts (more : List Bool) (before after : Next) : Prop :=
  (∀ d, before = .more d → after = .more (d.extend more)) ∧ (before = .bad → after = .bad)

/-- A parse, and the parse with more bits behind. -/
def ParseLifts {α : Type} (more : List Bool) (before after : Parse α) : Prop :=
  (∀ a rest, before = .ok a rest → after = .ok a (rest ++ more)) ∧ (before = .bad → after = .bad)

theorem lifts_short (more : List Bool) (next : Next) : Lifts more .short next :=
  ⟨fun _ h => (by cases h), nofun⟩

theorem lifts_bad (more : List Bool) : Lifts more .bad .bad :=
  ⟨fun _ h => (by cases h), fun _ => rfl⟩

theorem lifts_more (more : List Bool) (d : Config) :
    Lifts more (.more d) (.more (d.extend more)) :=
  ⟨fun e h => (by injection h with h; rw [h]), nofun⟩

variable {c : Config} {more : List Bool}

theorem afterHeader_lifts {before after : Parse BlockHeader} (h : ParseLifts more before after) :
    Lifts more (c.afterHeader before) ((c.extend more).afterHeader after) := by
  cases before with
  | short => exact lifts_short more _
  | bad =>
    rw [h.2 rfl]
    exact lifts_bad more
  | ok header rest =>
    rw [h.1 header rest rfl]
    cases header with
    | reserved => exact lifts_bad more
    | stored final length inverse =>
      simp only [Config.afterHeader]
      split_ifs
      · exact lifts_bad more
      · exact lifts_more more _
    | coded final literal distance => exact lifts_more more _

theorem afterByte_lifts {before after : Parse Nat} (h : ParseLifts more before after) :
    Lifts more (c.afterByte before) ((c.extend more).afterByte after) := by
  cases before with
  | short => exact lifts_short more _
  | bad =>
    rw [h.2 rfl]
    exact lifts_bad more
  | ok byte rest =>
    rw [h.1 byte rest rfl]
    exact lifts_more more _

theorem afterItem_lifts {before after : Parse BlockItem} (h : ParseLifts more before after) :
    Lifts more (c.afterItem before) ((c.extend more).afterItem after) := by
  cases before with
  | short => exact lifts_short more _
  | bad =>
    rw [h.2 rfl]
    exact lifts_bad more
  | ok item rest =>
    rw [h.1 item rest rfl]
    cases item with
    | invalid => exact lifts_bad more
    | stop | literal byte => exact lifts_more more _
    | copy length back =>
      simp only [Config.afterItem]
      split
      · rename_i hback
        have hback' : back = 0 ∨ back > (c.extend more).out.length := hback
        rw [if_pos hback']
        exact lifts_bad more
      rename_i hback
      have hback' : ¬ (back = 0 ∨ back > (c.extend more).out.length) := hback
      rw [if_neg hback']
      exact lifts_more more _

/-- A round that did not run out of bits ends the same with more of them. -/
theorem absRound_extend (c : Config) (hmore : 8 ∣ more.length) :
    Lifts more (absRound c) (absRound (c.extend more)) := by
  unfold absRound
  by_cases h0 : c.stage = 0
  · have h0' : (c.extend more).stage = 0 := h0
    rw [if_pos h0, if_pos h0']
    exact afterHeader_lifts (steady_blockHeader c.bits more hmore)
  have h0' : ¬ (c.extend more).stage = 0 := h0
  rw [if_neg h0, if_neg h0']
  by_cases h1 : c.stage = 1
  · have h1' : (c.extend more).stage = 1 := h1
    rw [if_pos h1, if_pos h1']
    by_cases hz : c.stored = 0
    · have hz' : (c.extend more).stored = 0 := hz
      rw [if_pos hz, if_pos hz']
      exact lifts_more more _
    have hz' : ¬ (c.extend more).stored = 0 := hz
    rw [if_neg hz, if_neg hz']
    exact afterByte_lifts (steady_take 8 c.bits more hmore)
  · have h1' : ¬ (c.extend more).stage = 1 := h1
    rw [if_neg h1, if_neg h1']
    exact afterItem_lifts (steady_blockItem c.literal c.distance c.bits more hmore)

theorem Runs.extend {d : Config} (h : Runs c d) (hmore : 8 ∣ more.length) :
    Runs (c.extend more) (d.extend more) := by
  induction h with
  | refl c => exact Runs.refl _
  | step hs hr _ ih => exact Runs.step hs ((absRound_extend _ hmore).1 _ hr) ih

/-- A round that runs out of bits had fewer than the longest header takes. -/
theorem absRound_short (h : absRound c = .short) : c.bits.length < 7070 := by
  unfold absRound at h
  split_ifs at h with h0 h1 hz
  · refine (within_blockHeader c.bits).2 ?_
    cases hp : (blockHeader : BitParser BlockHeader) c.bits with
    | short => rfl
    | bad => rw [hp] at h; cases h
    | ok header rest =>
      rw [hp] at h
      cases header with
      | reserved => cases h
      | stored _ _ _ =>
        simp only [Config.afterHeader] at h
        split_ifs at h
      | coded _ _ _ => cases h
  · cases hp : BitParser.take 8 c.bits with
    | short =>
      have := (BitParser.within_take (le_refl 8) c.bits).2 hp
      omega
    | bad | ok byte rest => rw [hp] at h; cases h
  have hshort : (blockItem c.literal c.distance : BitParser BlockItem) c.bits = .short := by
    cases hp : (blockItem c.literal c.distance : BitParser BlockItem) c.bits with
    | short => rfl
    | bad => rw [hp] at h; cases h
    | ok item rest =>
      rw [hp] at h
      cases item with
      | invalid | stop | literal _ => cases h
      | copy _ _ =>
        simp only [Config.afterItem] at h
        split_ifs at h
  have := (within_blockItem c.literal c.distance c.bits).2 hshort
  omega

/-- The bytes of the stream that the decoder has not committed. -/
def Decoder.unread (state : Decoder) : List UInt8 :=
  state.compressed.drop state.at_ ++ state.source.rest

/-- The buffer is within its size, and the source is used up once it has ended. -/
structure Buffered (state : Decoder) : Prop where
  at_le : state.at_ ≤ state.compressed.length
  length_le : state.compressed.length ≤ state.compressedSize
  ended : state.sourceEnded = true → state.source.rest = []

/-- The decoder with another buffer and source. -/
def Decoder.refresh (state : Decoder) (compressed : List UInt8) (source : Source)
    (ended : Bool) (position : Nat) : Decoder :=
  { state with compressed := compressed, source := source, sourceEnded := ended }.setAt position

/-- `after` is `before` with its unread bytes moved between source and buffer. -/
structure Refreshed (before after : Decoder) : Prop where
  same : ∃ compressed source ended position,
    after = before.refresh compressed source ended position
  unread : after.unread = before.unread
  buffered : Buffered after
  rest_le : after.source.rest.length ≤ before.source.rest.length

variable {state a b : Decoder}

theorem Refreshed.refl (h : Buffered state) : Refreshed state state :=
  ⟨⟨state.compressed, state.source, state.sourceEnded, state.at_, rfl⟩, rfl, h, le_rfl⟩

theorem Refreshed.trans {c : Decoder} (h1 : Refreshed a b) (h2 : Refreshed b c) :
    Refreshed a c := by
  refine ⟨?_, h2.unread.trans h1.unread, h2.buffered, le_trans h2.rest_le h1.rest_le⟩
  obtain ⟨_, _, _, _, rfl⟩ := h1.same
  obtain ⟨compressed, source, ended, position, rfl⟩ := h2.same
  exact ⟨compressed, source, ended, position, rfl⟩

theorem Refreshed.error (h : Refreshed a b) : b.error = a.error := by
  obtain ⟨_, _, _, _, rfl⟩ := h.same
  rfl

theorem Refreshed.compressedSize (h : Refreshed a b) : b.compressedSize = a.compressedSize := by
  obtain ⟨_, _, _, _, rfl⟩ := h.same
  rfl

/-- A read gives a nonempty piece of what is left, unless nothing is. -/
theorem Source.read_spec (source : Source) {room : Nat} (hroom : 0 < room) :
    ∃ bytes status after, source.read room = ((bytes, status), after) ∧
      source.rest = bytes ++ after.rest ∧ (bytes = [] ↔ source.rest = []) ∧
      bytes.length ≤ room ∧ (status = .End → after.rest = []) := by
  refine ⟨_, _, _, rfl, (take_append_drop _ _).symm, ?_, ?_, ?_⟩
  · rw [take_eq_nil_iff]
    constructor
    · rintro (h | h)
      · omega
      · exact h
    · exact .inr
  · rw [length_take]
    omega
  intro hend
  by_contra hne
  have hrest : source.rest ≠ [] := by
    intro h
    rw [h] at hne
    exact hne drop_nil
  rw [if_neg] at hend
  · cases hend
  rintro (h | ⟨_, h⟩)
  · exact hrest h
  · exact hne h

/-- What a refill does: it reads at least a byte, or finds the source used up, or the buffer
full of unread bytes. -/
theorem refill_spec (h : Buffered state) :
    (∃ after, refill state = (true, after) ∧ Refreshed state after ∧
        after.source.rest.length < state.source.rest.length) ∨
      (∃ after, refill state = (false, after) ∧ Refreshed state after ∧
        after.sourceEnded = true ∧ state.source.rest = []) ∨
      state.compressed.length - state.at_ = state.compressedSize := by
  have hlen := h.length_le
  have hdrop : (state.compressed.drop state.at_).length =
      state.compressed.length - state.at_ := length_drop
  by_cases hfull : state.compressed.length - state.at_ = state.compressedSize
  · exact .inr (.inr hfull)
  cases hended : state.sourceEnded with
  | true =>
    refine .inr (.inl ⟨state.refresh (state.compressed.drop state.at_) state.source true 0,
      ?_, ⟨⟨_, _, _, _, rfl⟩, rfl, ⟨Nat.zero_le _, ?_, fun _ => h.ended hended⟩, le_rfl⟩,
      rfl, h.ended hended⟩)
    · unfold refill
      simp only [Decoder.setAt, hended, if_true]
      rfl
    · change (state.compressed.drop state.at_).length ≤ state.compressedSize
      omega
  | false =>
    have hroom : ¬ (state.compressed.drop state.at_).length = state.compressedSize := by
      omega
    obtain ⟨bytes, status, source, hread, hsplit, hempty, hfit, hend⟩ :=
      state.source.read_spec
        (show 0 < state.compressedSize - (state.compressed.drop state.at_).length by omega)
    have hrefill : refill state = (decide (bytes ≠ []),
        state.refresh (state.compressed.drop state.at_ ++ bytes) source
          (decide (status = .End ∨ bytes = [])) 0) := by
      unfold refill
      simp only [Decoder.setAt, hended, Bool.false_eq_true, if_false, if_neg hroom, hread]
      by_cases hs : status = .End ∨ bytes = []
      · simp only [if_pos hs, decide_eq_true hs]
        rfl
      · simp only [if_neg hs, decide_eq_false hs, ← hended]
        rfl
    have hrefreshed : Refreshed state (state.refresh
        (state.compressed.drop state.at_ ++ bytes) source
        (decide (status = .End ∨ bytes = [])) 0) := by
      refine ⟨⟨_, _, _, _, rfl⟩, ?_, ⟨Nat.zero_le _, ?_, fun hs => ?_⟩, ?_⟩
      · change state.compressed.drop state.at_ ++ bytes ++ source.rest = _
        rw [append_assoc, ← hsplit]
        rfl
      · change (state.compressed.drop state.at_ ++ bytes).length ≤ state.compressedSize
        rw [length_append]
        omega
      · rcases of_decide_eq_true hs with hs | hs
        · exact hend hs
        · rw [hempty.mp hs] at hsplit
          exact (append_eq_nil_iff.mp hsplit.symm).2
      · change source.rest.length ≤ state.source.rest.length
        rw [hsplit, length_append]
        omega
    by_cases hb : bytes = []
    · refine .inr (.inl ⟨_, ?_, hrefreshed, ?_, hempty.mp hb⟩)
      · rw [hrefill, decide_eq_false (fun hne => hne hb)]
      · exact decide_eq_true (.inr hb)
    refine .inl ⟨_, ?_, hrefreshed, ?_⟩
    · rw [hrefill, decide_eq_true hb]
    change source.rest.length < state.source.rest.length
    have := length_pos_of_ne_nil hb
    rw [hsplit, length_append]
    omega

theorem requireLoop_spec {amount : Nat} :
    ∀ (fuel : Nat) (state : Decoder), Buffered state → state.error = 0 →
      amount ≤ state.compressedSize → state.source.rest.length < fuel →
      (amount ≤ state.unread.length ∧ ∃ after, requireLoop amount fuel state = (true, after) ∧
          Refreshed state after ∧ amount ≤ after.compressed.length - after.at_) ∨
        (state.unread.length < amount ∧
          ∃ after, requireLoop amount fuel state = (false, after) ∧ after.error = -74)
  | 0, _, _, _, _, hfuel => by omega
  | fuel + 1, state, h, herr, hsize, hfuel => by
    have hunread : state.unread.length =
        state.compressed.length - state.at_ + state.source.rest.length := by
      rw [Decoder.unread, length_append, length_drop]
    unfold requireLoop
    split_ifs with hshort
    · rcases refill_spec h with ⟨after, hrefill, href, hless⟩ |
          ⟨after, hrefill, href, _, hrest⟩ | hfull
      · rw [hrefill]
        rcases requireLoop_spec fuel after href.buffered (href.error.trans herr)
          (href.compressedSize ▸ hsize) (by omega) with
          ⟨hle, final, hrun, hfinal, hgot⟩ | ⟨hlt, final, hrun, hfinal⟩
        · rw [href.unread] at hle
          exact .inl ⟨hle, final, hrun, href.trans hfinal, hgot⟩
        · rw [href.unread] at hlt
          exact .inr ⟨hlt, final, hrun, hfinal⟩
      · rw [hrefill]
        refine .inr ⟨?_, _, rfl, ?_⟩
        · rw [hunread, hrest]
          simpa using hshort
        · rw [href.error, herr]
          rfl
      · omega
    · exact .inl ⟨by omega, state, rfl, Refreshed.refl h, by omega⟩

theorem requireBytes_spec (h : Buffered state) (herr : state.error = 0) {amount : Nat}
    (hsize : amount ≤ state.compressedSize) :
    (amount ≤ state.unread.length ∧ ∃ after, requireBytes state amount = (true, after) ∧
        Refreshed state after ∧ amount ≤ after.compressed.length - after.at_) ∨
      (state.unread.length < amount ∧
        ∃ after, requireBytes state amount = (false, after) ∧ after.error = -74) :=
  requireLoop_spec _ state h herr hsize (by omega)

end Dyn.Compress
