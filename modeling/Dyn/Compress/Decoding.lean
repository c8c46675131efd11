import Dyn.Compress.Members

/-!
# std/compress/deflate: the body of a stream in the decoder

`Decoding` is the invariant of the decoder inside a stream: what is buffered, followed by
what the source still has, is a configuration that the abstract engine reaches on the whole
body, and the circular history holds everything that was not delivered.  `inflateMore_spec`
says what one call of the engine does to it; the documented buffer sizes exclude that the
history or the compressed buffer is too small.
-/

namespace Dyn.Compress

open Lib List

/-- Nothing follows: the stream is complete, or the engine is stuck. -/
def Config.Ends (c : Config) : Prop := c.stage = 3 ∨ (c.stage ≠ 3 ∧ ∀ d, absRound c ≠ .more d)

variable {c : Config}

variable {body : List UInt8} {d : Config}

theorem Runs.to_end (hc : Runs (.start body) c) (hd : Runs (.start body) d) (hend : d.Ends) :
    Runs c d := by
  rcases hc.linear hd with hr | hr
  · exact hr
  rcases hend with hdone | ⟨_, hstuck⟩
  · rw [hr.eq_of_done hdone]
    exact Runs.refl d
  · rw [hr.eq_of_stuck hstuck]
    exact Runs.refl d

theorem Runs.end_unique (hc : Runs (.start body) c) (hcend : c.Ends) (hd : Runs (.start body) d)
    (hend : d.Ends) : d = c := by
  have hr := hc.to_end hd hend
  rcases hcend with hdone | ⟨_, hstuck⟩
  · exact hr.eq_of_done hdone
  · exact hr.eq_of_stuck hstuck

theorem absRound_growth (h : absRound c = .more d) : d.out.length ≤ c.out.length + 258 := by
  rcases absRound_more h with
    ⟨_, _, _, _, _, _, _, rfl⟩ | ⟨_, _, _, _, _, _, rfl⟩ | ⟨_, _, rfl⟩ |
    ⟨_, _, _, _, _, rfl⟩ | ⟨_, _, _, _, rfl⟩ | ⟨_, _, _, _, _, rfl⟩ |
    ⟨_, _, length, back, _, hp, _, _, rfl⟩
  · exact Nat.le_add_right _ _
  · exact Nat.le_add_right _ _
  · exact Nat.le_add_right _ _
  · rw [length_append, length_singleton]
    omega
  · exact Nat.le_add_right _ _
  · rw [length_append, length_singleton]
    omega
  · have := (blockItem_copy hp).2
    rw [copyOut_length]
    omega

theorem Runs.bits_le (h : Runs c d) : d.bits.length ≤ c.bits.length := by
  induction h with
  | refl => exact le_rfl
  | step _ hr _ ih =>
    have := absRound_fuel hr
    unfold Config.fuel at this
    split_ifs at this <;> omega

theorem Buffers.window {capacity : Nat} {history : Nat → UInt8} {out : List UInt8}
    (h : Buffers capacity true history out) (start n : Nat) (hheld : out.length ≤ start + capacity)
    (hn : start + n ≤ out.length) :
    (List.range n).map (fun i => history ((start + i) % capacity)) = (out.drop start).take n := by
  apply ext_getElem
  · rw [length_map, length_range, length_take, length_drop]
    omega
  intro i h1 h2
  rw [length_map, length_range] at h1
  have hb := h (start + i) (by omega) (fun _ => by omega)
  simp only [outputIndex, if_true] at hb
  rw [getElem_map, getElem_range, hb, getElem_take, getElem_drop, getD_eq_getElem _ _ (by omega)]

theorem crcHistory_eq (state : Decoder) :
    ∀ (n position : Nat) (crc : UInt32), crcHistory state n position crc =
        ((range n).map (fun i => state.output ((position + i) % state.outputSize))).foldl
          crcByte crc
  | 0, _, _ => rfl
  | n + 1, position, crc => by
    rw [crcHistory, crcHistory_eq state n, range_succ_eq_map, map_cons, map_map,
      foldl_cons, add_zero]
    congr 1
    refine map_congr_left (fun i _ => ?_)
    change state.output ((position + 1 + i) % _) = state.output ((position + (i + 1)) % _)
    rw [add_assoc, add_comm 1 i]

theorem Matches.entered {capacity : Nat} {circular : Bool} {s : InflateState}
    {destination : Nat → UInt8} (h : Matches capacity circular s destination c) {input : List UInt8}
    (hin : s.reader.input = input) : Matches capacity circular (entered s input) destination c := by
  subst hin
  exact ⟨h.reader, h.bits, h.literal, h.distance, h.stage, h.final, h.stored, h.written,
    h.buffers, h.aligned⟩

/-- The decoder inside a stream.  On the buffered bytes the engine is at `c`, so on the whole
body it is at `c` with the bits of the source behind. -/
structure Decoding (body : List UInt8) (state : Decoder) (c : Config) : Prop where
  runs : Runs (.start body) (c.extend (streamBits state.source.rest))
  engine : Matches state.outputSize true (entered state.engine state.compressed) state.output c
  suffix : state.unread <:+ body
  engine_error : state.engine.error = 0
  error : state.error = 0
  unfinished : state.finished = false
  buffered : Buffered state
  offset_le : state.offset ≤ c.out.length
  held : c.out.length ≤ state.offset + state.outputSize
  compressedSize_ge : 1024 ≤ state.compressedSize
  outputSize_ge : 33026 ≤ state.outputSize
  member : state.gzip = true → state.phase = 6 ∧ state.extra = 0 ∧
    state.checksum = c.out.foldl crcByte 4294967295 ∧
    state.memberSize = c.out.length % 2 ^ 32

namespace Decoding

variable {body : List UInt8} {state after : Decoder} {c : Config}

theorem written (h : Decoding body state c) : state.engine.written = c.out.length :=
  h.engine.written

theorem stage (h : Decoding body state c) : state.engine.stage = c.stage :=
  h.engine.stage

theorem start {state : Decoder} (hengine : state.engine = { reader := { at_ := state.at_ } })
    (hbuffered : Buffered state) (herror : state.error = 0) (hfinished : state.finished = false)
    (hoffset : state.offset = 0) (hcompressed : 1024 ≤ state.compressedSize)
    (houtput : 33026 ≤ state.outputSize)
    (hmember : state.gzip = true → state.phase = 6 ∧ state.extra = 0 ∧
      state.checksum = 4294967295 ∧ state.memberSize = 0) :
    Decoding state.unread state { bits := streamBits (state.compressed.drop state.at_) } := by
  refine ⟨?_, ?_, suffix_refl _, by rw [hengine], herror, hfinished, hbuffered,
    hoffset.le, Nat.zero_le _, hcompressed, houtput, fun hgzip => hmember hgzip⟩
  · unfold Config.start Config.extend Decoder.unread
    rw [streamBits_append]
    exact Runs.refl _
  rw [hengine]
  refine ⟨⟨Nat.one_pos, Nat.succ_pos _, hbuffered.at_le, rfl⟩, ?_, rfl, rfl, rfl, rfl, rfl,
    rfl, fun i hi => absurd hi (Nat.not_lt_zero _), nofun⟩
  simp [remaining, Compress.entered]

/-- Moving bytes between source and buffer moves bits between the source and `c`. -/
theorem refreshed (h : Decoding body state c) (hr : Refreshed state after) :
    ∃ bits, Decoding body after { c with bits := bits } := by
  have hunread := hr.unread
  have hbuffered := hr.buffered
  obtain ⟨compressed, source, ended, position, rfl⟩ := hr.same
  have hbits := h.engine.bits
  have hread := h.engine.reader
  change bitsOf state.engine.reader.count state.engine.reader.value ++
    streamBits (state.compressed.drop state.at_) = c.bits at hbits
  have hsplit : c.bits ++ streamBits state.source.rest =
      bitsOf state.engine.reader.count state.engine.reader.value ++
        streamBits (compressed.drop position) ++ streamBits source.rest := by
    have := congrArg streamBits hunread
    change streamBits (compressed.drop position ++ source.rest) =
      streamBits (state.compressed.drop state.at_ ++ state.source.rest) at this
    rw [streamBits_append, streamBits_append] at this
    rw [← hbits, append_assoc, ← this, append_assoc]
  refine ⟨bitsOf state.engine.reader.count state.engine.reader.value ++
    streamBits (compressed.drop position), ?_, ?_, ?_, h.engine_error, h.error, h.unfinished,
    hbuffered, h.offset_le, h.held, h.compressedSize_ge, h.outputSize_ge, h.member⟩
  · have := h.runs
    unfold Config.extend at this ⊢
    rw [hsplit] at this
    exact this
  · refine ⟨⟨hread.value_lt, hread.count_lt, hbuffered.at_le, rfl⟩, rfl, h.engine.literal,
      h.engine.distance, h.engine.stage, h.engine.final, h.engine.stored, h.engine.written,
      h.engine.buffers, ?_⟩
    intro hs
    have halign := h.engine.aligned hs
    rw [← hbits, length_append, bitsOf_length, streamBits_length] at halign
    simp only [length_append, bitsOf_length, streamBits_length]
    omega
  · rw [hunread]
    exact h.suffix

theorem unread_length (h : Decoding body state c) :
    state.unread.length = (c.bits ++ streamBits state.source.rest).length / 8 := by
  have hbits := h.engine.bits
  have hcount : state.engine.reader.count < 8 := h.engine.reader.count_lt
  change bitsOf state.engine.reader.count state.engine.reader.value ++
    streamBits (state.compressed.drop state.at_) = c.bits at hbits
  rw [← hbits, append_assoc, ← streamBits_append, length_append, bitsOf_length, streamBits_length]
  unfold Decoder.unread
  omega

end Decoding

def Decoder.resumed (state : Decoder) (engine : InflateState) (output : Nat → UInt8) : Decoder :=
  sumOutput state.engine.written engine.written { state with engine := engine, output := output }

theorem Decoder.resumed_eq (state : Decoder) (engine : InflateState) (output : Nat → UInt8) :
    ∃ checksum memberSize, state.resumed engine output =
      { state with
        engine := engine, output := output, checksum := checksum, memberSize := memberSize } := by
  unfold Decoder.resumed sumOutput
  split_ifs
  · exact ⟨_, _, rfl⟩
  · exact ⟨_, _, rfl⟩

section Resume

variable {body : List UInt8} {state : Decoder} {c : Config} (h : Decoding body state c)
include h

theorem Decoding.resumed (hout : state.offset = c.out.length) {d : Config} (hruns : Runs c d)
    {engine : InflateState} {output : Nat → UInt8} (herr : engine.error = 0)
    (hin : engine.reader.input = state.compressed)
    (hd : Matches state.outputSize true engine output d)
    (hheld : d.out.length - state.engine.written ≤ state.outputSize) :
    Decoding body (state.resumed engine output) d := by
  have hwritten := h.written
  have hnew : engine.written = d.out.length := hd.written
  have hlen := hruns.out_prefix.length_le
  have hmember : state.gzip = true → (state.resumed engine output).phase = 6 ∧
      (state.resumed engine output).extra = 0 ∧
      (state.resumed engine output).checksum = d.out.foldl crcByte 4294967295 ∧
      (state.resumed engine output).memberSize = d.out.length % 2 ^ 32 := by
    intro hgzip
    obtain ⟨hphase, hextra, hsum, hsize⟩ := h.member hgzip
    unfold Decoder.resumed sumOutput
    rw [if_pos hgzip]
    refine ⟨hphase, hextra, ?_, ?_⟩
    · have hwindow := hd.buffers.window state.engine.written
        (d.out.length - state.engine.written) (by omega) (by omega)
      rw [take_of_length_le (by rw [length_drop])] at hwindow
      simp only [hnew]
      rw [crcHistory_eq]
      simp only [hwindow, hsum]
      rw [← foldl_append, hwritten]
      obtain ⟨more, hmore⟩ := hruns.out_prefix
      rw [← hmore, drop_left]
    · simp only [hsize, hnew, hwritten]
      omega
  obtain ⟨checksum, memberSize, he⟩ := state.resumed_eq engine output
  have hat : state.at_ ≤ engine.reader.at_ := by
    have h1 : engine.reader.at_ = engine.reader.input.length - (remaining engine.reader).length / 8 :=
      hd.reader.at_eq
    have h2 : state.at_ = state.compressed.length -
        (remaining (entered state.engine state.compressed).reader).length / 8 :=
      h.engine.reader.at_eq
    have h3 := hruns.bits_le
    rw [hd.bits, hin] at h1
    rw [h.engine.bits] at h2
    omega
  rw [he] at hmember ⊢
  refine ⟨?_, hd.entered hin, ?_, herr, h.error, h.unfinished, ⟨?_, h.buffered.length_le,
    h.buffered.ended⟩, hout.trans_le hlen, ?_, h.compressedSize_ge, h.outputSize_ge, hmember⟩
  · exact h.runs.trans (hruns.extend (by rw [streamBits_length]; exact Dvd.intro _ rfl))
  · obtain ⟨first, hfirst⟩ := drop_suffix_drop_left state.compressed hat
    obtain ⟨before, hbefore⟩ := h.suffix
    refine ⟨before ++ first, ?_⟩
    unfold Decoder.unread at hbefore
    rw [← hbefore, ← hfirst, append_assoc, append_assoc]
    rfl
  · have := hd.reader.at_le
    rw [← hin]
    exact this
  · change d.out.length ≤ state.offset + state.outputSize
    omega

theorem Decoding.resume (hout : state.offset = c.out.length) :
    ∃ d engine output, Runs c d ∧
      resumeImpl state.engine state.outputSize state.output state.compressed true =
        (⟨engine.written, engine.reader.at_, decide (engine.stage = 3 ∧ engine.error = 0)⟩,
          engine, output) ∧
      ((engine.error = -74 ∧ d.stage ≠ 3 ∧ absRound d = .bad) ∨
        (engine.error = 0 ∧ Decoding body (state.resumed engine output) d ∧ (d.stage = 3 ∨
            (d.stage ≠ 3 ∧ absRound d = .short ∧ engine.outputFull = false) ∨
            (d.stage ≠ 3 ∧ c.out.length < d.out.length)))) := by
  have hwritten := h.written
  have hfuel : c.fuel < resumeFuel state.compressed := by
    have hlen := congrArg length h.engine.bits
    have hcount : state.engine.reader.count < 8 := h.engine.reader.count_lt
    rw [remaining_length] at hlen
    change state.engine.reader.count + 8 * (state.compressed.length - _) = _ at hlen
    unfold Config.fuel resumeFuel
    split_ifs <;> omega
  obtain ⟨d, stop, hruns, hheld, hstop⟩ := resumeLoop_spec state.outputSize true
    state.engine.written (fun _ => by have := h.outputSize_ge; omega)
    (resumeFuel state.compressed) _ _ c h.engine h.engine_error le_rfl
    (by change state.engine.written - state.engine.written ≤ _; omega) hfuel
  have heq : resumeImpl state.engine state.outputSize state.output state.compressed true = _ :=
    resumeImpl_eq h.buffered.at_le nofun
  rw [if_pos rfl] at heq
  generalize resumeLoop state.outputSize true state.engine.written (resumeFuel state.compressed)
    (Compress.entered state.engine state.compressed) state.output = result at heq hstop
  obtain ⟨engine, output⟩ := result
  have hkeep : engine.error = 0 → engine.reader.input = state.compressed →
      Matches state.outputSize true engine output d →
      Decoding body (state.resumed engine output) d :=
    fun herr hin hd => h.resumed hout hruns herr hin hd hheld
  refine ⟨d, engine, output, hruns, heq, ?_⟩
  cases stop with
  | done =>
    obtain ⟨h3, herr, _, hin, hd⟩ := hstop
    exact .inr ⟨herr, hkeep herr hin hd, .inl h3⟩
  | short =>
    obtain ⟨h3, hshort, herr, hfull, hin, hd⟩ := hstop
    exact .inr ⟨herr, hkeep herr hin hd, .inr (.inl ⟨h3, hshort, hfull⟩)⟩
  | invalid =>
    obtain ⟨h3, hbad, herr, _⟩ := hstop
    exact .inl ⟨herr, h3, hbad⟩
  | full =>
    obtain ⟨h3, ⟨d', hmore, hover⟩, herr, _, hin, hd⟩ := hstop
    -- A round writes at most 258 bytes, so a full history has new output in it.
    have hgrow := absRound_growth hmore
    have hsize := h.outputSize_ge
    exact .inr ⟨herr, hkeep herr hin hd, .inr (.inr ⟨h3, by omega⟩)⟩

/-- **One round inside a stream.**  It finds the stream invalid or cut off, gives output, or
goes on at the end of the stream or with more input. -/
theorem inflateMore_spec (hout : state.offset = c.out.length) :
    (∃ after d, inflateMore state = (false, after) ∧ after.error = -74 ∧
        Runs (.start body) d ∧ d.stage ≠ 3 ∧ ∀ e, absRound d ≠ .more e) ∨
      (∃ after d, inflateMore state = (false, after) ∧ Decoding body after d ∧
        after.offset = state.offset ∧ after.gzip = state.gzip ∧ c.out.length < d.out.length) ∨
      (∃ after d, inflateMore state = (true, after) ∧ Decoding body after d ∧
        after.offset = state.offset ∧ after.gzip = state.gzip ∧ d.out = c.out ∧
        after.unread.length ≤ state.unread.length ∧
        after.source.rest.length ≤ state.source.rest.length ∧
        (d.stage = 3 ∨ after.source.rest.length < state.source.rest.length)) := by
  have hwritten := h.written
  obtain ⟨d, engine, output, hruns, heq, hcase⟩ := h.resume hout
  have hmod : 8 ∣ (streamBits state.source.rest).length := by
    rw [streamBits_length]
    exact Dvd.intro _ rfl
  have hfar : Runs (.start body) (d.extend (streamBits state.source.rest)) :=
    h.runs.trans (hruns.extend hmod)
  rcases hcase with ⟨herr, h3, hbad⟩ | ⟨herr, hd, hcase⟩
  · refine .inl ⟨{ state with engine := engine, output := output, error := engine.error }, _, ?_,
      herr, hfar, h3, ?_⟩
    · have hne : engine.error ≠ 0 := by
        rw [herr]
        decide
      unfold inflateMore
      simp only [heq, if_pos hne]
    intro e he
    rw [(absRound_extend d hmod).2 hbad] at he
    cases he
  have hnew : engine.written = d.out.length := by
    obtain ⟨_, _, he⟩ := state.resumed_eq engine output
    have := hd.written
    rw [he] at this
    exact this
  have hlen := hruns.out_prefix.length_le
  have hoffset : (state.resumed engine output).offset = state.offset ∧
      (state.resumed engine output).gzip = state.gzip ∧
      (state.resumed engine output).source = state.source := by
    obtain ⟨_, _, he⟩ := state.resumed_eq engine output
    rw [he]
    exact ⟨rfl, rfl, rfl⟩
  have hunread : (state.resumed engine output).unread.length ≤ state.unread.length := by
    have := hruns.bits_le
    rw [hd.unread_length, h.unread_length, hoffset.2.2, length_append, length_append]
    omega
  obtain ⟨r, hresult⟩ : ∃ r, refill (state.resumed engine output) = r := ⟨_, rfl⟩
  have hbody : inflateMore state =
      if engine.written > state.engine.written then (false, state.resumed engine output)
      else if decide (engine.stage = 3 ∧ engine.error = 0) = true then
        (true, state.resumed engine output)
      else if engine.outputFull then (false, { state.resumed engine output with error := -28 })
      else if r.1 then (true, r.2)
      else (false, { r.2 with error := if r.2.error = 0 then -74 else r.2.error }) := by
    have hne : ¬ engine.error ≠ 0 := fun hcon => hcon herr
    unfold inflateMore
    simp only [heq, if_neg hne]
    erw [hresult]
    obtain ⟨_ | _, _⟩ := r <;> rfl
  have hstage : engine.stage = d.stage := by
    obtain ⟨_, _, he⟩ := state.resumed_eq engine output
    have := hd.stage
    rw [he] at this
    exact this
  by_cases hmore : c.out.length < d.out.length
  · rw [if_pos (by omega)] at hbody
    exact .inr (.inl ⟨_, d, hbody, hd, hoffset.1, hoffset.2.1, hmore⟩)
  have hsame : d.out = c.out := (hruns.out_prefix.eq_of_length (by omega)).symm
  rw [if_neg (by omega)] at hbody
  rcases hcase with h3 | ⟨h3, hshort, hfull⟩ | ⟨_, hcon⟩
  · rw [if_pos (decide_eq_true ⟨hstage.trans h3, herr⟩)] at hbody
    exact .inr (.inr ⟨_, d, hbody, hd, hoffset.1, hoffset.2.1, hsame, hunread,
      by rw [hoffset.2.2], .inl h3⟩)
  · have hgo : ¬ decide (engine.stage = 3 ∧ engine.error = 0) = true := fun hcon =>
      h3 (hstage.symm.trans (of_decide_eq_true hcon).1)
    have hfull' : ¬ engine.outputFull = true := by
      rw [hfull]
      exact Bool.false_ne_true
    rw [if_neg hgo, if_neg hfull'] at hbody
    rcases refill_spec hd.buffered with ⟨after, hrefill, hr, hless⟩ |
        ⟨after, hrefill, hr, _, hrest⟩ | hroom
    · cases hresult.symm.trans hrefill
      obtain ⟨bits, hafter⟩ := hd.refreshed hr
      have hkeep : after.offset = (state.resumed engine output).offset ∧
          after.gzip = (state.resumed engine output).gzip := by
        obtain ⟨_, _, _, _, rfl⟩ := hr.same
        exact ⟨rfl, rfl⟩
      rw [hoffset.2.2] at hless
      exact .inr (.inr ⟨after, _, hbody, hafter, hkeep.1.trans hoffset.1,
        hkeep.2.trans hoffset.2.1, hsame, by rw [hr.unread]; exact hunread, hless.le,
        .inr hless⟩)
    · cases hresult.symm.trans hrefill
      refine .inl ⟨_, d, hbody, ?_, ?_, h3, ?_⟩
      · simp only [hr.error, hd.error, if_true]
      · rw [hoffset.2.2] at hrest
        rw [hrest] at hfar
        unfold Config.extend at hfar
        rw [streamBits_nil, append_nil] at hfar
        exact hfar
      intro e he
      rw [hshort] at he
      cases he
    · -- A full buffer has more bits than the longest header.
      have hbits := absRound_short hshort
      have hsize := hd.compressedSize_ge
      have hlen := congrArg length hd.engine.bits
      rw [remaining_length] at hlen
      change _ + 8 * ((state.resumed engine output).compressed.length -
        (state.resumed engine output).at_) = _ at hlen
      omega
  · exact absurd hcon hmore

end Resume

end Dyn.Compress
