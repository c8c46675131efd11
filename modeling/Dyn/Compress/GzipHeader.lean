import Dyn.Compress.Suspend

/-!
# std/compress/deflate: the gzip header, byte by byte

`resume_gzip` parses a member's header in place; the streaming decoder consumes it
incrementally, refilling its buffer wherever a field crosses the end.  `gzipHeader_spec`
says that they agree: the decoder accepts exactly the headers of `headerLength`, and is then
at the first byte behind the header.
-/

namespace Dyn.Compress

open Lib List

/-- The length of the header of a gzip member, if the bytes begin with one. -/
def headerLength (bytes : List UInt8) : Option Nat :=
  match gzipLoop bytes 5 {} with
  | (true, _) => none
  | (false, state) => if state.error = 0 then some state.at_ else none

/-- The decoder has consumed `position` bytes of the header in `bytes`.  `start` is the
decoder before the header: only its buffer, its source and the header fields changed. -/
structure HeaderAt (bytes : List UInt8) (position phase flags extra : Nat)
    (start state : Decoder) : Prop where
  same : ∃ compressed source ended at_ crc, state =
    { start.refresh compressed source ended at_ with
      phase := phase, flags := flags, extra := extra, headerCrc := crc }
  unread : state.unread = bytes.drop position
  position_le : position ≤ bytes.length
  crc : phase < 6 → state.headerCrc = (bytes.take position).foldl crcByte 4294967295
  buffered : Buffered state
  error : state.error = 0
  rest_le : state.source.rest.length ≤ start.source.rest.length

namespace HeaderAt

variable {bytes : List UInt8} {position phase flags extra : Nat} {start state after : Decoder}
  (h : HeaderAt bytes position phase flags extra start state)
include h

theorem phase_eq : state.phase = phase := by
  obtain ⟨_, _, _, _, _, rfl⟩ := h.same
  rfl

theorem flags_eq : state.flags = flags := by
  obtain ⟨_, _, _, _, _, rfl⟩ := h.same
  rfl

theorem extra_eq : state.extra = extra := by
  obtain ⟨_, _, _, _, _, rfl⟩ := h.same
  rfl

theorem compressedSize_eq : state.compressedSize = start.compressedSize := by
  obtain ⟨_, _, _, _, _, rfl⟩ := h.same
  rfl

theorem setPhase (hphase : phase < 6) (phase' : Nat) :
    HeaderAt bytes position phase' flags extra start { state with phase := phase' } := by
  obtain ⟨compressed, source, ended, at_, crc, rfl⟩ := h.same
  exact ⟨⟨compressed, source, ended, at_, crc, rfl⟩, h.unread, h.position_le,
    fun _ => h.crc hphase,
    ⟨h.buffered.at_le, h.buffered.length_le, h.buffered.ended⟩, h.error, h.rest_le⟩

theorem setFlags (flags' : Nat) :
    HeaderAt bytes position phase flags' extra start { state with flags := flags' } := by
  obtain ⟨compressed, source, ended, at_, crc, rfl⟩ := h.same
  exact ⟨⟨compressed, source, ended, at_, crc, rfl⟩, h.unread, h.position_le, h.crc,
    ⟨h.buffered.at_le, h.buffered.length_le, h.buffered.ended⟩, h.error, h.rest_le⟩

theorem setExtra (extra' : Nat) :
    HeaderAt bytes position phase flags extra' start { state with extra := extra' } := by
  obtain ⟨compressed, source, ended, at_, crc, rfl⟩ := h.same
  exact ⟨⟨compressed, source, ended, at_, crc, rfl⟩, h.unread, h.position_le, h.crc,
    ⟨h.buffered.at_le, h.buffered.length_le, h.buffered.ended⟩, h.error, h.rest_le⟩

theorem refreshed (hr : Refreshed state after) : HeaderAt bytes position phase flags extra start after := by
  obtain ⟨_, _, _, _, crc, rfl⟩ := h.same
  have hunread := hr.unread
  have hbuffered := hr.buffered
  have hrest := hr.rest_le
  obtain ⟨compressed, source, ended, at_, rfl⟩ := hr.same
  exact ⟨⟨compressed, source, ended, at_, crc, rfl⟩, hunread.trans h.unread, h.position_le,
    h.crc, hbuffered, h.error, le_trans hrest h.rest_le⟩

theorem require {amount : Nat}
    (hsize : amount ≤ start.compressedSize) :
    (position + amount ≤ bytes.length ∧ ∃ after, requireBytes state amount = (true, after) ∧
        HeaderAt bytes position phase flags extra start after ∧
        amount ≤ after.compressed.length - after.at_) ∨
      (bytes.length < position + amount ∧
        ∃ after, requireBytes state amount = (false, after) ∧ after.error = -74) := by
  have hle := h.position_le
  have hlen : state.unread.length = bytes.length - position := by
    rw [h.unread, length_drop]
  rcases requireBytes_spec h.buffered h.error (h.compressedSize_eq ▸ hsize) with
    ⟨hgot, after, hrun, hr, hbytes⟩ | ⟨hshort, after, hrun, herr⟩
  · exact .inl ⟨by omega, after, hrun, h.refreshed hr, hbytes⟩
  · exact .inr ⟨by omega, after, hrun, herr⟩

theorem compressed_getD {i : Nat}
    (hi : i < state.compressed.length - state.at_) :
    state.compressed.getD (state.at_ + i) 0 = bytes.getD (position + i) 0 := by
  have hunread := h.unread
  unfold Decoder.unread at hunread
  have hget := congrArg (fun l => l[i]?) hunread
  simp only [getElem?_drop] at hget
  rw [getElem?_append_left (by rw [length_drop]; exact hi), getElem?_drop] at hget
  rw [getD_eq_getElem?_getD, getD_eq_getElem?_getD, hget]

theorem byte (hgot : 0 < state.compressed.length - state.at_) :
    (headerByte state).1 = bytes.getD position 0 ∧
      HeaderAt bytes (position + 1) phase flags extra start (headerByte state).2 ∧
      (headerByte state).2.compressed.length - (headerByte state).2.at_ + 1 =
        state.compressed.length - state.at_ := by
  have hbyte := h.compressed_getD hgot
  rw [add_zero, add_zero] at hbyte
  have hunread := h.unread
  have hlt : position < bytes.length := by
    have hlen := congrArg length hunread
    rw [Decoder.unread, length_append, length_drop, length_drop] at hlen
    omega
  refine ⟨hbyte, ?_, ?_⟩
  · obtain ⟨compressed, source, ended, at_, crc, he⟩ := h.same
    refine ⟨⟨compressed, source, ended, state.at_ + 1,
      crcByte state.headerCrc (state.compressed.getD state.at_ 0), ?_⟩, ?_, hlt, ?_, ?_,
      h.error, h.rest_le⟩
    · subst he
      rfl
    · have hdrop := congrArg (drop 1) hunread
      rw [drop_drop] at hdrop
      rw [← hdrop]
      change state.compressed.drop (state.at_ + 1) ++ state.source.rest = _
      rw [Decoder.unread, drop_append_of_le_length (by rw [length_drop]; omega), drop_drop]
    · intro hphase
      change crcByte state.headerCrc (state.compressed.getD state.at_ 0) = _
      rw [take_succ_getD hlt, foldl_append, h.crc hphase, hbyte]
      rfl
    · exact ⟨by change state.at_ + 1 ≤ state.compressed.length; omega, h.buffered.length_le,
        h.buffered.ended⟩
  · change state.compressed.length - (state.at_ + 1) + 1 = _
    omega

theorem skip {n : Nat}
    (hgot : n ≤ state.compressed.length - state.at_) (phase' : Nat) (hphase : 6 ≤ phase') :
    HeaderAt bytes (position + n) phase' flags extra start
      { state.setAt (state.at_ + n) with phase := phase' } := by
  have hunread := h.unread
  have hat := h.buffered.at_le
  have hlen := congrArg length hunread
  rw [Decoder.unread, length_append, length_drop, length_drop] at hlen
  obtain ⟨compressed, source, ended, at_, crc, he⟩ := h.same
  refine ⟨⟨compressed, source, ended, state.at_ + n, crc, ?_⟩, ?_, ?_, fun hlt => by omega, ?_,
    h.error, h.rest_le⟩
  · subst he
    rfl
  · have hdrop := congrArg (drop n) hunread
    rw [drop_drop] at hdrop
    rw [← hdrop]
    change state.compressed.drop (state.at_ + n) ++ state.source.rest = _
    rw [Decoder.unread, drop_append_of_le_length (by rw [length_drop]; omega), drop_drop]
  · have := h.position_le
    omega
  · exact ⟨by change state.at_ + n ≤ state.compressed.length; omega, h.buffered.length_le,
      h.buffered.ended⟩

end HeaderAt

variable {bytes : List UInt8} {start : Decoder} {member : GzipState}

variable {phase flags : Nat} {state : Decoder}

theorem headerBytes_spec {extra : Nat} :
    ∀ (n position : Nat) (state : Decoder), HeaderAt bytes position phase flags extra start state →
      n ≤ state.compressed.length - state.at_ →
      HeaderAt bytes (position + n) phase flags extra start (headerBytes n state)
  | 0, position, state, h, _ => h
  | n + 1, position, state, h, hn => by
    obtain ⟨_, hnext, hlen⟩ := h.byte (by omega)
    have := headerBytes_spec n (position + 1) _ hnext (by omega)
    rwa [add_assoc, add_comm 1 n] at this

theorem extraLoop_spec (hsize : 1 ≤ start.compressedSize) :
    ∀ (extra position : Nat) (state : Decoder),
      HeaderAt bytes position phase flags extra start state →
      (position + extra ≤ bytes.length ∧ ∃ after, extraLoop extra state = (true, after) ∧
          HeaderAt bytes (position + extra) phase flags 0 start after) ∨
        (bytes.length < position + extra ∧
          ∃ after, extraLoop extra state = (false, after) ∧ after.error = -74)
  | 0, position, state, h => Or.inl ⟨h.position_le, state, rfl, h⟩
  | extra + 1, position, state, h => by
    have hpos : state.extra > 0 := by
      rw [h.extra_eq]
      omega
    unfold extraLoop
    rw [if_pos hpos]
    rcases h.require hsize with ⟨-, after, hrun, hat, hgot⟩ | ⟨hlt, after, hrun, herr⟩
    · rw [hrun]
      obtain ⟨_, hnext, _⟩ := hat.byte hgot
      have hset := hnext.setExtra ((headerByte after).2.extra - 1)
      rw [hnext.extra_eq, Nat.add_sub_cancel] at hset
      simp only [hnext.extra_eq, Nat.add_sub_cancel]
      rcases extraLoop_spec hsize extra (position + 1) _ hset with
        ⟨hfit, final, hfinal, hfat⟩ | ⟨hover, final, hfinal, herr⟩
      · rw [add_assoc, add_comm 1 extra] at hfat
        exact .inl ⟨by omega, final, hfinal, hfat⟩
      · exact .inr ⟨by omega, final, hfinal, herr⟩
    · rw [hrun]
      exact .inr ⟨by omega, after, rfl, herr⟩

theorem textLoop_spec {extra : Nat} (hsize : 1 ≤ start.compressedSize) :
    ∀ (fuel scan position : Nat) (state : Decoder),
      HeaderAt bytes position phase flags extra start state →
      bytes.length - position < fuel → bytes.length - position ≤ scan →
      (skipText bytes scan position < bytes.length ∧ ∃ after, textLoop fuel state = (true, after) ∧
            HeaderAt bytes (skipText bytes scan position + 1) phase flags extra start after) ∨
        (skipText bytes scan position = bytes.length ∧
          ∃ after, textLoop fuel state = (false, after) ∧ after.error = -74)
  | 0, _, _, _, _, hfuel, _ => by omega
  | fuel + 1, scan, position, state, h, hfuel, hscan => by
    have hle := h.position_le
    unfold textLoop
    rcases h.require hsize with ⟨hfit, after, hrun, hat, hgot⟩ | ⟨hlt, after, hrun, herr⟩
    · rw [hrun]
      obtain ⟨hbyte, hnext, _⟩ := hat.byte hgot
      obtain ⟨scan, rfl⟩ : ∃ k, scan = k + 1 := ⟨scan - 1, by omega⟩
      simp only
      unfold skipText
      by_cases hz : bytes.getD position 0 = 0
      · have hstop : ¬ (position < bytes.length ∧ byteAt bytes position ≠ 0) := by
          rintro ⟨_, hne⟩
          rw [byteAt, hz] at hne
          exact hne rfl
        have hz' : (headerByte after).1 = 0 := hbyte.trans hz
        rw [if_pos hz', if_neg hstop]
        exact .inl ⟨by omega, _, rfl, hnext⟩
      have hgo : position < bytes.length ∧ byteAt bytes position ≠ 0 := by
        refine ⟨by omega, fun hcon => hz ?_⟩
        exact UInt8.toNat_inj.mp hcon
      have hz' : ¬ (headerByte after).1 = 0 := fun hcon => hz (hbyte.symm.trans hcon)
      rw [if_neg hz', if_pos hgo]
      exact textLoop_spec hsize fuel scan (position + 1) _ hnext (by omega) (by omega)
    rw [hrun]
    refine .inr ⟨?_, after, rfl, herr⟩
    have hend : position = bytes.length := by omega
    have hstop : ¬ (position < bytes.length ∧ byteAt bytes position ≠ 0) := by omega
    cases scan with
    | zero => exact hend
    | succ scan =>
      unfold skipText
      rw [if_neg hstop]
      exact hend

/-- The phase of the decoder that corresponds to a stage of `resume_gzip`; phase 2, the bytes
of the extra field, lies inside stage 1. -/
def phaseOf (stage : Nat) : Nat := if stage ≤ 1 then stage else stage + 1

/-- The decoder is where `resume_gzip` is in the same bytes. -/
structure Tracks (bytes : List UInt8) (start : Decoder) (member : GzipState)
    (state : Decoder) : Prop where
  error : member.error = 0
  position : HeaderAt bytes member.at_ (phaseOf member.stage) member.flags 0 start state

/-- Two rounds, or two loops, end the same way: both go on, or both refuse the header. -/
def Agree (bytes : List UInt8) (start : Decoder) (one : Bool × GzipState)
    (two : Bool × Decoder) : Prop :=
  (one.1 = false ∧ two.1 = true ∧ Tracks bytes start one.2 two.2) ∨
    ((one.1 = true ∨ one.2.error ≠ 0) ∧ two.1 = false ∧ two.2.error = -74)

section Rounds

variable {bytes : List UInt8} {start state : Decoder} {member : GzipState}
  (hsize : 10 ≤ start.compressedSize) (h : Tracks bytes start member state)
include hsize h

theorem fixedPart_agree (hstage : member.stage = 0) (hat : member.at_ = 0) :
    Agree bytes start (gzipRound bytes member) (fixedPart state) := by
  have hpos := h.position
  rw [hat] at hpos
  unfold gzipRound fixedPart
  rw [if_pos hstage]
  rcases hpos.require hsize with ⟨hfit, after, hrun, hafter, hgot⟩ | ⟨hshort, after, hrun, herr⟩
  · have hbyte : ∀ i < 10, byteAt after.compressed (after.at_ + i) = byteAt bytes i := by
      intro i hi
      have := hafter.compressed_getD (lt_of_lt_of_le hi hgot)
      rw [zero_add] at this
      rw [byteAt, byteAt, this]
    have h0 := hbyte 0 (by omega)
    rw [add_zero] at h0
    rw [hrun, if_neg (by omega)]
    simp only
    rw [h0, hbyte 1 (by omega), hbyte 2 (by omega), hbyte 3 (by omega)]
    split_ifs with hmagic
    · exact .inr ⟨.inr (by simp), rfl, rfl⟩
    refine .inl ⟨rfl, rfl, h.error, ?_⟩
    have hten := headerBytes_spec 10 0 _ (hafter.setFlags (byteAt bytes 3)) hgot
    exact hten.setPhase (by rw [hstage]; decide) 1
  · rw [hrun, if_pos (by omega)]
    exact .inr ⟨.inl rfl, rfl, herr⟩

theorem extraField_spec (hstage : member.stage = 1) :
    (∃ position extra after, headerRound state = (true, after) ∧
        HeaderAt bytes position 2 member.flags extra start after ∧
        gzipRound bytes member =
          if bytes.length < position + extra then (true, member)
          else (false, { member with at_ := position + extra, stage := 2 })) ∨
      (gzipRound bytes member = (true, member) ∧
        ∃ after, headerRound state = (false, after) ∧ after.error = -74) := by
  have hpos := h.position
  have hphase : phaseOf member.stage = 1 := by rw [hstage]; rfl
  rw [hphase] at hpos
  have hround : headerRound state = extraField state := by
    rw [headerRound, hpos.phase_eq, if_neg (by decide), if_pos rfl]
  have hle := hpos.position_le
  unfold gzipRound
  rw [hround, if_neg (by omega), if_pos hstage]
  unfold extraField
  by_cases hflag : member.flags &&& 4 ≠ 0
  · have hflag' : state.flags &&& 4 ≠ 0 := by rwa [hpos.flags_eq]
    rw [if_pos hflag, if_pos hflag']
    rcases hpos.require (show 2 ≤ start.compressedSize by omega) with
      ⟨hfit, after, hrun, hafter, hgot⟩ | ⟨hshort, after, hrun, herr⟩
    · rw [hrun, if_neg (by omega)]
      obtain ⟨hlow, hnext, hlen⟩ := hafter.byte (by omega)
      obtain ⟨hhigh, hnext', _⟩ := hnext.byte (by omega)
      have hextra : (headerByte after).1.toNat + (headerByte (headerByte after).2).1.toNat * 256 =
            byteAt bytes member.at_ + byteAt bytes (member.at_ + 1) * 256 := by
        rw [hlow, hhigh, byteAt, byteAt]
      refine .inl ⟨member.at_ + 2, (headerByte after).1.toNat +
        (headerByte (headerByte after).2).1.toNat * 256, _, rfl,
        (hnext'.setExtra _).setPhase (by decide) 2, ?_⟩
      rw [hextra]
      have hiff : byteAt bytes member.at_ + byteAt bytes (member.at_ + 1) * 256 >
          bytes.length - member.at_ - 2 ↔ bytes.length < member.at_ + 2 + (byteAt bytes member.at_ +
              byteAt bytes (member.at_ + 1) * 256) := by
        omega
      simp only [hiff, add_assoc]
    · rw [hrun, if_pos (by omega)]
      exact .inr ⟨rfl, after, rfl, herr⟩
  · have hflag' : ¬ state.flags &&& 4 ≠ 0 := by rwa [hpos.flags_eq]
    rw [if_neg hflag, if_neg hflag']
    refine .inl ⟨member.at_, 0, _, rfl, hpos.setPhase (by decide) 2, ?_⟩
    rw [if_neg (by omega)]
    rfl

omit h in
theorem extraBytes_spec {position extra flags : Nat}
    (hafter : HeaderAt bytes position 2 flags extra start state) :
    (position + extra ≤ bytes.length ∧ ∃ final, headerRound state = (true, final) ∧
        HeaderAt bytes (position + extra) 3 flags 0 start final) ∨
      (bytes.length < position + extra ∧
        ∃ final, headerRound state = (false, final) ∧ final.error = -74) := by
  unfold headerRound
  rw [hafter.phase_eq, if_neg (by decide), if_neg (by decide), if_pos rfl, hafter.extra_eq]
  rcases extraLoop_spec (by omega) extra position state hafter with
    ⟨hfit, final, hrun, hfinal⟩ | ⟨hshort, final, hrun, herr⟩
  · rw [hrun]
    exact .inl ⟨hfit, _, rfl, hfinal.setPhase (by decide) 3⟩
  · rw [hrun]
    exact .inr ⟨hshort, _, rfl, herr⟩

theorem text_agree (hstage : member.stage = 2 ∨ member.stage = 3) :
    Agree bytes start (gzipRound bytes member) (headerRound state) := by
  have hpos := h.position
  have hphase : phaseOf member.stage = member.stage + 1 := by
    unfold phaseOf
    rw [if_neg (by omega)]
  rw [hphase] at hpos
  have hnext : phaseOf (member.stage + 1) = member.stage + 1 + 1 := by
    unfold phaseOf
    rw [if_neg (by omega)]
  have hflag : (if member.stage + 1 = 4 then 16 else 8) = if member.stage = 3 then 16 else 8 := by
    simp
  have hunread : state.unread.length ≤ state.compressed.length + state.source.rest.length := by
    rw [Decoder.unread, length_append, length_drop]
    omega
  have hlen : state.unread.length = bytes.length - member.at_ := by
    rw [hpos.unread, length_drop]
  have hone : gzipRound bytes member =
      gzipText bytes (if member.stage = 3 then 16 else 8) member := by
    have h0 : ¬ member.stage = 0 := by omega
    have h1 : ¬ member.stage = 1 := by omega
    rw [gzipRound, if_neg h0, if_neg h1, if_pos hstage]
  have htwo : headerRound state = textField (if member.stage = 3 then 16 else 8) state := by
    have h0 : ¬ member.stage + 1 = 0 := by omega
    have h1 : ¬ member.stage + 1 = 1 := by omega
    have h2 : ¬ member.stage + 1 = 2 := by omega
    have h34 : member.stage + 1 = 3 ∨ member.stage + 1 = 4 := by omega
    rw [headerRound, hpos.phase_eq, if_neg h0, if_neg h1, if_neg h2, if_pos h34, hflag]
  rw [hone, htwo]
  generalize (if member.stage = 3 then 16 else 8) = flag
  unfold gzipText textField
  split
  · have hset' : state.flags &&& flag ≠ 0 := by rwa [hpos.flags_eq]
    rw [if_pos hset']
    rcases textLoop_spec (show 1 ≤ start.compressedSize by omega) _ bytes.length member.at_ state
      hpos (show _ < state.compressed.length + state.source.rest.length + 1 by omega) (by omega)
      with ⟨hfound, after, hrun, hafter⟩ | ⟨hend, after, hrun, herr⟩
    · have hne : ¬ skipText bytes bytes.length member.at_ = bytes.length := by omega
      have hphase' := hafter.setPhase (by omega) (after.phase + 1)
      rw [hrun]
      rw [if_neg hne]
      refine .inl ⟨rfl, rfl, h.error, ?_⟩
      simp only [hnext]
      rw [hafter.phase_eq] at hphase' ⊢
      exact hphase'
    · rw [hrun]
      rw [if_pos hend]
      exact .inr ⟨.inl rfl, rfl, herr⟩
  · have hset' : ¬ state.flags &&& flag ≠ 0 := by rwa [hpos.flags_eq]
    have hphase' := hpos.setPhase (by omega) (state.phase + 1)
    rw [if_neg hset']
    refine .inl ⟨rfl, rfl, h.error, ?_⟩
    simp only [hnext]
    rw [hpos.phase_eq] at hphase' ⊢
    exact hphase'

theorem check_agree (hstage : member.stage = 4) :
    Agree bytes start (gzipRound bytes member) (headerRound state) := by
  have hpos := h.position
  have hphase : phaseOf member.stage = 5 := by rw [hstage]; rfl
  rw [hphase] at hpos
  have hone : gzipRound bytes member = gzipCheck bytes member := by
    rw [gzipRound, hstage, if_neg (by decide), if_neg (by decide), if_neg (by decide)]
  have htwo : headerRound state = checkField state := by
    rw [headerRound, hpos.phase_eq, if_neg (by decide), if_neg (by decide), if_neg (by decide),
      if_neg (by decide)]
  rw [hone, htwo]
  unfold gzipCheck checkField
  split
  · have hflag' : state.flags &&& 2 ≠ 0 := by rwa [hpos.flags_eq]
    rw [if_pos hflag']
    rcases hpos.require (show 2 ≤ start.compressedSize by omega) with
      ⟨hfit, after, hrun, hafter, hgot⟩ | ⟨hshort, after, hrun, herr⟩
    · have hroom : ¬ member.at_ + 2 > bytes.length := by omega
      have hcrc : (after.headerCrc ^^^ 4294967295) = crc32 (bytes.take member.at_) := by
        rw [hafter.crc (by decide)]
        rfl
      have hlow : byteAt after.compressed after.at_ = byteAt bytes member.at_ := by
        have := hafter.compressed_getD (show 0 < _ by omega)
        rw [add_zero, add_zero] at this
        rw [byteAt, this, byteAt]
      have hhigh : byteAt after.compressed (after.at_ + 1) = byteAt bytes (member.at_ + 1) := by
        rw [byteAt, hafter.compressed_getD (show 1 < _ by omega), byteAt]
      rw [hrun, if_neg hroom]
      simp only
      rw [hcrc, hlow, hhigh]
      split_ifs
      · exact .inr ⟨.inr (by simp), rfl, rfl⟩
      · exact .inl ⟨rfl, rfl, h.error, hafter.skip hgot 6 (le_refl 6)⟩
    · rw [hrun, if_pos (by omega)]
      exact .inr ⟨.inl rfl, rfl, herr⟩
  · have hflag' : ¬ state.flags &&& 2 ≠ 0 := by rwa [hpos.flags_eq]
    rw [if_neg hflag']
    exact .inl ⟨rfl, rfl, h.error, hpos.setPhase (by decide) 6⟩

end Rounds

theorem gzipLoop_error (h : member.error ≠ 0) :
    ∀ n, gzipLoop bytes n member = (false, member)
  | 0 => rfl
  | n + 1 => by
    unfold gzipLoop
    rw [if_neg (fun hcon => h hcon.2)]

theorem agree_step {n : Nat} {round : Bool × Decoder} {loop : Decoder → Bool × Decoder}
    (hstage : member.stage < 5) (herr : member.error = 0)
    (hround : Agree bytes start (gzipRound bytes member) round)
    (hloop : ∀ member' state', gzipRound bytes member = (false, member') →
      Tracks bytes start member' state' →
      Agree bytes start (gzipLoop bytes n member') (loop state')) :
    Agree bytes start (gzipLoop bytes (n + 1) member)
      (if round.1 then loop round.2 else (false, round.2)) := by
  unfold gzipLoop
  rw [if_pos ⟨hstage, herr⟩]
  rcases hg : gzipRound bytes member with ⟨stop, member'⟩
  obtain ⟨go, state'⟩ := round
  rw [hg] at hround
  rcases hround with ⟨h1, h2, h3⟩ | ⟨h1, h2, h3⟩
  · subst h1 h2
    exact hloop member' state' hg h3
  simp only at h1 h2 h3
  subst h2
  cases stop with
  | true => exact .inr ⟨.inl rfl, rfl, h3⟩
  | false =>
    have hne : member'.error ≠ 0 := h1.resolve_left (by decide)
    simp only
    rw [gzipLoop_error hne]
    exact .inr ⟨.inr hne, rfl, h3⟩

theorem headerLoop_step (hphase : state.phase < 6) (herr : state.error = 0) (n : Nat) :
    headerLoop (n + 1) state =
      if (headerRound state).1 then headerLoop n (headerRound state).2
      else (false, (headerRound state).2) := by
  rw [headerLoop, if_pos ⟨hphase, herr⟩]
  rcases headerRound state with ⟨go, -⟩
  cases go <;> rfl

theorem loops_agree_five (h : Tracks bytes start member state) (hstage : member.stage = 5)
    (n k : Nat) : Agree bytes start (gzipLoop bytes n member) (headerLoop k state) := by
  have hphase : state.phase = 6 := by
    rw [h.position.phase_eq, hstage]
    rfl
  have hone : gzipLoop bytes n member = (false, member) := by
    cases n with
    | zero => rfl
    | succ n => rw [gzipLoop, if_neg (by omega)]
  have htwo : headerLoop k state = (true, state) := by
    cases k with
    | zero => rw [headerLoop, decide_eq_true h.position.error]
    | succ k => rw [headerLoop, if_neg (by omega), decide_eq_true h.position.error]
  rw [hone, htwo]
  exact .inl ⟨rfl, rfl, h⟩

theorem gzipRound_stage {after : GzipState} (hstage : member.stage < 5)
    (h : gzipRound bytes member = (false, after)) (herr : after.error = 0) :
    after.stage = member.stage + 1 := by
  unfold gzipRound gzipText gzipCheck at h
  simp only at h
  split_ifs at h
  all_goals simp only [Prod.mk.injEq, reduceCtorEq, false_and, true_and] at h
  all_goals subst h
  all_goals
    first
    | rfl
    | (simp only at herr; done)
    | (simp only at herr ⊢; omega)

/-- The loop of `resume_gzip` ends behind the header, unless it refuses it. -/
theorem gzipLoop_stage :
    ∀ {n : Nat} {member after : GzipState}, member.stage + n = 5 →
      gzipLoop bytes n member = (false, after) → after.error = 0 → after.stage = 5
  | 0, member, after, hn, h, _ => by
    cases h
    exact hn
  | n + 1, member, after, hn, h, herr => by
    unfold gzipLoop at h
    split_ifs at h with hgo
    · rcases hround : gzipRound bytes member with ⟨stop, member'⟩
      rw [hround] at h
      cases stop with
      | true => cases h
      | false =>
        have herr' : member'.error = 0 := by
          by_contra hne
          simp only at h
          rw [gzipLoop_error hne] at h
          injection h with _ h
          rw [h] at hne
          exact hne herr
        have hstage := gzipRound_stage hgo.1 hround herr'
        exact gzipLoop_stage (by omega) h herr
    · injection h with _ h
      rw [h] at hgo hn
      exact absurd ⟨by omega, herr⟩ hgo

theorem loops_agree (hsize : 10 ≤ start.compressedSize) :
    ∀ (n : Nat) (member : GzipState) (state : Decoder), Tracks bytes start member state →
      1 ≤ member.stage → member.stage + n = 5 →
      Agree bytes start (gzipLoop bytes n member)
        (headerLoop (if member.stage = 1 then n + 1 else n) state)
  | 0, member, state, h, _, hn => loops_agree_five h (by omega) _ _
  | n + 1, member, state, h, hpos, hn => by
    have hlt : member.stage < 5 := by omega
    have hphase : state.phase < 6 := by
      rw [h.position.phase_eq, phaseOf]
      split_ifs <;> omega
    have hloop : ∀ member' state', gzipRound bytes member = (false, member') →
        Tracks bytes start member' state' →
        Agree bytes start (gzipLoop bytes n member') (headerLoop n state') := by
      intro member' state' hround h'
      have hnext := gzipRound_stage hlt hround h'.error
      have := loops_agree hsize n member' state' h' (by omega) (by omega)
      rwa [if_neg (by omega)] at this
    split_ifs with h1
    · rw [headerLoop_step hphase h.position.error]
      rcases extraField_spec hsize h h1 with
        ⟨position, extra, after, hrun, hafter, hone⟩ | ⟨hone, after, hrun, herr⟩
      · have hround : Agree bytes start (gzipRound bytes member) (headerRound after) := by
          rw [hone]
          rcases extraBytes_spec hsize hafter with
            ⟨hfit, final, hfinal, hfat⟩ | ⟨hover, final, hfinal, herr⟩
          · rw [hfinal, if_neg (by omega)]
            exact .inl ⟨rfl, rfl, h.error, hfat⟩
          · rw [hfinal, if_pos hover]
            exact .inr ⟨.inl rfl, rfl, herr⟩
        have hphase' : after.phase < 6 := by
          rw [hafter.phase_eq]
          decide
        rw [hrun, if_pos rfl, headerLoop_step hphase' hafter.error]
        exact agree_step hlt h.error hround hloop
      · rw [hrun, if_neg Bool.false_ne_true, gzipLoop, if_pos ⟨hlt, h.error⟩, hone]
        exact .inr ⟨.inl rfl, rfl, herr⟩
    · rw [headerLoop_step hphase h.position.error]
      refine agree_step hlt h.error ?_ hloop
      by_cases h4 : member.stage = 4
      · exact check_agree hsize h h4
      · exact text_agree hsize h (by omega)

/-- The decoder at the start of a member. -/
structure MemberStart (state : Decoder) : Prop where
  buffered : Buffered state
  error : state.error = 0
  phase : state.phase = 0
  flags : state.flags = 0
  extra : state.extra = 0
  crc : state.headerCrc = 4294967295
  size : 10 ≤ state.compressedSize

theorem fixed_loop_agree (hsize : 10 ≤ start.compressedSize)
    (hpos : HeaderAt start.unread 0 0 0 0 start state) :
    Agree start.unread start (gzipLoop start.unread 5 {})
      (if (fixedPart state).1 then headerLoop 5 (fixedPart state).2
        else (false, (fixedPart state).2)) := by
  have h : Tracks start.unread start {} state := ⟨rfl, hpos⟩
  refine agree_step (by decide) rfl (fixedPart_agree hsize h rfl rfl) ?_
  intro member' state' hround h'
  have hstage : member'.stage = 1 := gzipRound_stage (by decide) hround h'.error
  have := loops_agree hsize 4 member' state' h' (by omega) (by omega)
  rwa [if_pos hstage] at this

/-- **The header of a member.**  The decoder accepts the headers that `resume_gzip` accepts;
behind the last member it finds the end instead. -/
theorem gzipHeader_spec (h : MemberStart start) :
    if 0 < start.members ∧ start.unread = [] then
      ∃ after, gzipHeader start = (false, { after with finished := true }) ∧ Refreshed start after
    else
      match headerLength start.unread with
      | some length => ∃ flags after, gzipHeader start = (true, after) ∧
          HeaderAt start.unread length 6 flags 0 start after
      | none => ∃ after, gzipHeader start = (false, after) ∧ after.error = -74 := by
  have hphase : start.phase < 6 := by
    rw [h.phase]
    decide
  have hloop := headerLoop_step hphase h.error 5
  have hsize := h.size
  have hstart : ∀ state, Refreshed start state → HeaderAt start.unread 0 0 0 0 start state := by
    intro state hr
    have hunread := hr.unread
    have hbuffered := hr.buffered
    have hrest := hr.rest_le
    obtain ⟨compressed, source, ended, at_, rfl⟩ := hr.same
    refine ⟨⟨compressed, source, ended, at_, start.headerCrc, ?_⟩, hunread, Nat.zero_le _,
      fun _ => h.crc, hbuffered, h.error, hrest⟩
    simp only [Decoder.refresh, Decoder.setAt, h.phase, h.flags, h.extra]
  have hfinish : ∀ state, Refreshed start state → headerRound start = fixedPart state →
      match headerLength start.unread with
      | some length => ∃ flags after, gzipHeader start = (true, after) ∧
          HeaderAt start.unread length 6 flags 0 start after
      | none => ∃ after, gzipHeader start = (false, after) ∧ after.error = -74 := by
    intro state hr hround
    have hagree := fixed_loop_agree hsize (hstart state hr)
    rw [← hround, ← hloop] at hagree
    unfold gzipHeader headerLength
    rcases hg : gzipLoop start.unread 5 {} with ⟨stop, member⟩
    rcases hh : headerLoop 6 start with ⟨go, after⟩
    rw [hg, hh] at hagree
    rcases hagree with ⟨h1, h2, h3⟩ | ⟨h1, h2, h3⟩
    · subst h1 h2
      simp only [if_pos h3.error]
      have hstage : member.stage = 5 := gzipLoop_stage (by decide) hg h3.error
      have hpos := h3.position
      rw [hstage] at hpos
      exact ⟨member.flags, after, rfl, hpos⟩
    subst h2
    cases stop with
    | true => exact ⟨after, rfl, h3⟩
    | false =>
      simp only [if_neg (h1.resolve_left Bool.false_ne_true)]
      exact ⟨after, rfl, h3⟩
  have hround : headerRound start = startMember start := by
    rw [headerRound, if_pos h.phase]
  unfold startMember at hround
  split_ifs at hround with hfirst
  · have hnone : start.compressed.drop start.at_ = [] := by
      rw [hfirst.2, drop_length]
    rcases refill_spec h.buffered with ⟨after, hrefill, hr, hless⟩ |
        ⟨after, hrefill, hr, hended, hrest⟩ | hfull
    · have hne : ¬ (0 < start.members ∧ start.unread = []) := by
        rintro ⟨_, hcon⟩
        rw [Decoder.unread, hnone, nil_append] at hcon
        rw [hcon] at hless
        exact Nat.not_lt_zero _ hless
      rw [if_neg hne]
      rw [hrefill] at hround
      exact hfinish after hr hround
    · have hempty : start.unread = [] := by
        rw [Decoder.unread, hnone, hrest, nil_append]
      rw [if_pos ⟨hfirst.1, hempty⟩]
      rw [hrefill] at hround
      simp only [if_pos (And.intro (hr.error.trans h.error) hended)] at hround
      refine ⟨after, ?_, hr⟩
      unfold gzipHeader
      rw [hloop, hround]
      rfl
    · omega
  · have hne : ¬ (0 < start.members ∧ start.unread = []) := by
      rintro ⟨hmembers, hcon⟩
      refine hfirst ⟨hmembers, ?_⟩
      have hle := h.buffered.at_le
      have hdrop := (append_eq_nil_iff.mp hcon).1
      have := drop_eq_nil_iff.mp hdrop
      omega
    rw [if_neg hne]
    exact hfinish start (Refreshed.refl h.buffered) hround

end Dyn.Compress
