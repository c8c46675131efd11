import Dyn.Compress.Decoding
import Dyn.Compress.RoundTrip

/-!
# std/compress/deflate: reading through the decoder

`Ahead` says what a decoder still has to deliver, and how it will end.  A read keeps it: it
gives the next bytes, or the end, or the error (`decoderRead_spec`).  From this follows what
any sequence of reads gives, and that it is what one-shot inflation gives.
-/

namespace Dyn.Compress

open Lib Mem List

/-- What the members of a stream decode to, and whether the stream is valid.  `behind` says
that a member came before; only then may nothing follow. -/
inductive Members : Bool → List UInt8 → List UInt8 → Bool → Prop
  | ended : Members true [] [] true
  | refused {behind : Bool} {bytes : List UInt8} :
      ¬ (behind = true ∧ bytes = []) → headerLength bytes = none → Members behind bytes [] false
  | broken {behind : Bool} {bytes : List UInt8} {header : Nat} {c : Config} :
      headerLength bytes = some header → Runs (.start (bytes.drop header)) c → c.Ends →
      ¬ (c.stage = 3 ∧ TrailerOk bytes (memberLength bytes header c) c.out) →
      Members behind bytes c.out false
  | member {behind : Bool} {bytes : List UInt8} {header : Nat} {c : Config}
      {out : List UInt8} {ok : Bool} :
      headerLength bytes = some header → Runs (.start (bytes.drop header)) c → c.stage = 3 →
      TrailerOk bytes (memberLength bytes header c) c.out →
      Members true (bytes.drop (memberLength bytes header c)) out ok →
      Members behind bytes (c.out ++ out) ok

theorem headerLength_nil : headerLength [] = none := by decide

structure AtMember (state : Decoder) : Prop where
  start : MemberStart state
  engine : state.engine = { reader := { at_ := state.at_ } }
  offset : state.offset = 0
  unfinished : state.finished = false
  gzip : state.gzip = true
  checksum : state.checksum = 4294967295
  memberSize : state.memberSize = 0
  compressedSize_ge : 1024 ≤ state.compressedSize
  outputSize_ge : 33026 ≤ state.outputSize

variable {state : Decoder} {bytes : List UInt8} {ok : Bool} {out : List UInt8}

/-- Behind an accepted header the decoder is at the start of the body. -/
theorem AtMember.body {start : Decoder} (h : AtMember start) {length flags : Nat}
    (hat : HeaderAt start.unread length 6 flags 0 start state) :
    Decoding (start.unread.drop length) state
      { bits := streamBits (state.compressed.drop state.at_) } := by
  have hunread := hat.unread
  have hbuffered := hat.buffered
  have herror := hat.error
  obtain ⟨compressed, source, ended, at_, crc, rfl⟩ := hat.same
  rw [← hunread]
  refine Decoding.start ?_ hbuffered herror h.unfinished h.offset h.compressedSize_ge
    h.outputSize_ge (fun _ => ⟨rfl, rfl, h.checksum, h.memberSize⟩)
  change { start.engine with reader := { start.engine.reader with at_ := at_ } } = _
  rw [h.engine]
  rfl

variable {c : Config}

theorem Decoding.unread_eq {header : Nat} (h : Decoding (bytes.drop header) state c) :
    state.unread = bytes.drop
      (memberLength bytes header (c.extend (streamBits state.source.rest)) - 8) := by
  have hlen := h.unread_length
  obtain ⟨before, hbefore⟩ := h.suffix
  have hbits : (c.extend (streamBits state.source.rest)).bits =
      c.bits ++ streamBits state.source.rest := rfl
  have hsplit := congrArg length hbefore
  rw [length_append] at hsplit
  unfold memberLength
  rw [hbits, ← hlen, Nat.add_sub_cancel, ← drop_drop, ← hbefore, length_append,
    Nat.add_sub_cancel, drop_left]

theorem little32_congr {a b : List UInt8} {i j : Nat}
    (h : ∀ k < 4, a.getD (i + k) 0 = b.getD (j + k) 0) : little32 a i = little32 b j := by
  have h0 := h 0 (by decide)
  rw [add_zero, add_zero] at h0
  unfold little32 byteAt
  rw [h0, h 1 (by decide), h 2 (by decide), h 3 (by decide)]

theorem endMember_spec {header : Nat} (h : Decoding (bytes.drop header) state c)
    (hgzip : state.gzip = true) :
    let length := memberLength bytes header (c.extend (streamBits state.source.rest))
    if TrailerOk bytes length c.out then
      ∃ after, endMember state = (true, after) ∧ AtMember after ∧ 0 < after.members ∧
        after.unread = bytes.drop length ∧ after.unread.length + 8 ≤ state.unread.length ∧
        after.source.rest.length ≤ state.source.rest.length
    else ∃ after, endMember state = (false, after) ∧ after.error = -74 := by
  intro length
  have hunread : state.unread = bytes.drop (length - 8) := h.unread_eq
  have hge : 8 ≤ length := Nat.le_add_left _ _
  have hlen := congrArg List.length hunread
  rw [length_drop] at hlen
  obtain ⟨_, hextra, hsum, hsize⟩ := h.member hgzip
  unfold endMember
  rcases requireBytes_spec h.buffered h.error (show 8 ≤ state.compressedSize by
    have := h.compressedSize_ge; omega) with ⟨hfit, after, hrun, hr, hgot⟩ | ⟨hshort, after, hrun, herr⟩
  · have hafter : after.unread = bytes.drop (length - 8) := hr.unread.trans hunread
    have hget : ∀ k < 8, after.compressed.getD (after.at_ + k) 0 =
        bytes.getD (length - 8 + k) 0 := by
      intro k hk
      have := congrArg (fun l => l[k]?) hafter
      simp only [Decoder.unread, getElem?_drop] at this
      rw [getElem?_append_left (by rw [length_drop]; omega), getElem?_drop] at this
      rw [getD_eq_getElem?_getD, getD_eq_getElem?_getD, this]
    have hcrc : little32 after.compressed after.at_ = little32 bytes (length - 8) :=
      little32_congr (fun k hk => hget k (by omega))
    have hisize : little32 after.compressed (after.at_ + 4) = little32 bytes (length - 4) := by
      refine little32_congr (fun k hk => ?_)
      rw [add_assoc, hget (4 + k) (by omega)]
      congr 1
      omega
    have hkeep : after.checksum = state.checksum ∧ after.memberSize = state.memberSize := by
      obtain ⟨_, _, _, _, rfl⟩ := hr.same
      exact ⟨rfl, rfl⟩
    have hfits : length ≤ bytes.length := by omega
    rw [hrun]
    simp only
    rw [hcrc, hisize, hkeep.1, hkeep.2, hsum, hsize]
    by_cases htrailer : little32 bytes (length - 8) = (crc32 c.out).toNat ∧
        little32 bytes (length - 4) = c.out.length % 2 ^ 32
    · have hno : ¬ (little32 bytes (length - 8) ≠
            (foldl crcByte 4294967295 c.out ^^^ 4294967295).toNat ∨
          little32 bytes (length - 4) ≠ c.out.length % 2 ^ 32) := by
        rintro (hbad | hbad)
        · exact hbad htrailer.1
        · exact hbad htrailer.2
      have hok : TrailerOk bytes length c.out := ⟨hfits, htrailer⟩
      rw [if_neg hno, if_pos hok]
      have hbuffered := hr.buffered
      have hrest := hr.rest_le
      have hdrop := congrArg (drop 8) hafter
      rw [drop_drop, Nat.sub_add_cancel hge] at hdrop
      unfold Decoder.unread at hdrop
      rw [drop_append_of_le_length (by rw [length_drop]; omega), drop_drop] at hdrop
      obtain ⟨compressed, source, ended, at_, rfl⟩ := hr.same
      refine ⟨_, rfl, ⟨⟨⟨?_, hbuffered.length_le, hbuffered.ended⟩, h.error, rfl, rfl, hextra, rfl,
        ?_⟩, rfl, rfl, h.unfinished, hgzip, rfl, rfl, h.compressedSize_ge, h.outputSize_ge⟩,
        Nat.succ_pos _, hdrop, ?_, hrest⟩
      · have hle := hbuffered.at_le
        change (state.refresh compressed source ended at_).at_ + 8 ≤
          (state.refresh compressed source ended at_).compressed.length
        omega
      · have := h.compressedSize_ge
        change 10 ≤ state.compressedSize
        omega
      change (compressed.drop (at_ + 8) ++ source.rest).length + 8 ≤ _
      have := congrArg List.length hdrop
      change (compressed.drop (at_ + 8) ++ source.rest).length = _ at this
      rw [this, length_drop, hlen]
      omega
    · have hno : ¬ TrailerOk bytes length c.out := fun hcon => htrailer hcon.2
      have hyes : little32 bytes (length - 8) ≠
            (foldl crcByte 4294967295 c.out ^^^ 4294967295).toNat ∨
          little32 bytes (length - 4) ≠ c.out.length % 2 ^ 32 := by
        by_contra hcon
        rw [not_or, not_not, not_not] at hcon
        exact htrailer hcon
      rw [if_pos hyes, if_neg hno]
      exact ⟨_, rfl, rfl⟩
  · have hno : ¬ TrailerOk bytes length c.out := fun hcon => by
      have := hcon.1
      omega
    rw [hrun, if_neg hno]
    exact ⟨after, rfl, herr⟩

/-- What the body of a stream, and the members behind it, decode to. -/
inductive Body : Bool → List UInt8 → List UInt8 → Bool → Prop
  | raw {body : List UInt8} {d : Config} :
      Runs (.start body) d → d.Ends → Body false body d.out (decide (d.stage = 3))
  | gzip {behind : Bool} {bytes : List UInt8} {header : Nat} {out : List UInt8} {ok : Bool} :
      headerLength bytes = some header → Members behind bytes out ok →
      Body true (bytes.drop header) out ok

theorem Body.exists_end {gzip : Bool} {body : List UInt8} (h : Body gzip body out ok) :
    ∃ d, Runs (.start body) d ∧ d.Ends ∧ d.out <+: out ∧ (d.stage ≠ 3 → ok = false) := by
  cases h with
  | raw hruns hend =>
    exact ⟨_, hruns, hend, prefix_refl _, fun hs => decide_eq_false hs⟩
  | gzip hheader hm =>
    cases hm with
    | ended =>
      rw [headerLength_nil] at hheader
      cases hheader
    | refused _ hnone =>
      rw [hheader] at hnone
      cases hnone
    | broken hheader' hruns hend _ =>
      rw [hheader] at hheader'
      injection hheader' with he
      subst he
      exact ⟨_, hruns, hend, prefix_refl _, fun _ => rfl⟩
    | member hheader' hruns hdone _ _ =>
      rw [hheader] at hheader'
      injection hheader' with he
      subst he
      exact ⟨_, hruns, .inl hdone, prefix_append _ _, fun hs => absurd hdone hs⟩

/-- The bytes a decoder has yet to deliver, and whether the end follows them or an error. -/
inductive Ahead : Decoder → List UInt8 → Bool → Prop
  | member {state : Decoder} {out : List UInt8} {ok : Bool} :
      AtMember state → Members (decide (0 < state.members)) state.unread out ok →
      Ahead state out ok
  | inside {state : Decoder} {body out : List UInt8} {ok : Bool} {c : Config} :
      Decoding body state c → Body state.gzip body out ok → Ahead state (out.drop state.offset) ok
  | finished {state : Decoder} :
      state.finished = true → state.error = 0 → state.offset = state.engine.written →
      Ahead state [] true
  | failed {state : Decoder} {out : List UInt8} : state.error = -74 → Ahead state out false

/-- The condition of the loop of `decoder_read`. -/
def Decoder.Wants (state : Decoder) : Prop :=
  state.offset = state.engine.written ∧ !state.finished ∧ state.error = 0

instance (state : Decoder) : Decidable state.Wants := inferInstanceAs (Decidable (_ ∧ _ ∧ _))

def Decoder.fuel (state : Decoder) : Nat :=
  state.source.rest.length + state.unread.length + if state.engine.stage = 3 then 0 else 1

def RoundEnds (fuel : Nat) (out : List UInt8) (ok : Bool) (result : Bool × Decoder) : Prop :=
  Ahead result.2 out ok ∧
    if result.1 then result.2.fuel < fuel else ¬ result.2.Wants

theorem roundEnds_failed {fuel : Nat} {after : Decoder} (h : after.error = -74) :
    RoundEnds fuel out false (false, after) := by
  refine ⟨Ahead.failed h, fun hwants => ?_⟩
  have := hwants.2.2
  rw [h] at this
  exact absurd this (by decide)

section Round

variable {state : Decoder} {body out : List UInt8} {ok : Bool} {c : Config}
  (h : Decoding body state c) (hbody : Body state.gzip body out ok)
  (hwants : state.Wants)
include h hbody hwants

theorem bodyRound_done (hs : c.stage = 3) :
    RoundEnds state.fuel (out.drop state.offset) ok (bodyRound state) := by
  have hout : state.offset = c.out.length := hwants.1.trans h.written
  have hfar : (c.extend (streamBits state.source.rest)).Ends := .inl hs
  have hstage : state.engine.stage = 3 := h.stage.trans hs
  unfold bodyRound
  rw [if_pos hstage]
  generalize hg : state.gzip = gzip at hbody
  cases hbody with
  | raw hruns hend =>
    have he := h.runs.end_unique hfar hruns hend
    have hdrop : (c.extend (streamBits state.source.rest)).out.drop state.offset = [] := by
      rw [hout]
      exact drop_length
    rw [he, hdrop, decide_eq_true (show (c.extend _).stage = 3 from hs)]
    exact ⟨Ahead.finished rfl h.error hwants.1, fun hw => absurd hw.2.1 Bool.false_ne_true⟩
  | @gzip behind bytes header out ok hheader hm =>
    have htrailer := endMember_spec h hg
    cases hm with
    | ended =>
      rw [headerLength_nil] at hheader
      cases hheader
    | refused _ hnone =>
      rw [hheader] at hnone
      cases hnone
    | broken hheader' hruns hend hbad =>
      rw [hheader] at hheader'
      injection hheader' with he
      subst he
      have he := h.runs.end_unique hfar hruns hend
      rw [he] at hbad
      have hno : ¬ TrailerOk bytes (memberLength bytes header
          (c.extend (streamBits state.source.rest))) c.out := fun hok => hbad ⟨hs, hok⟩
      rw [if_neg hno] at htrailer
      obtain ⟨after, hrun, herr⟩ := htrailer
      rw [hrun]
      exact roundEnds_failed herr
    | @member _ _ _ _ more _ hheader' hruns hdone hok hm =>
      rw [hheader] at hheader'
      injection hheader' with he
      subst he
      have he := h.runs.end_unique hfar hruns (.inl hdone)
      rw [he] at hok hm ⊢
      have hok' : TrailerOk bytes (memberLength bytes header
          (c.extend (streamBits state.source.rest))) c.out := hok
      rw [if_pos hok'] at htrailer
      obtain ⟨after, hrun, hat, hpos, hunread, hless, hrest⟩ := htrailer
      have hdrop : ((c.extend (streamBits state.source.rest)).out ++ more).drop state.offset =
          more := by
        rw [hout]
        exact drop_left
      rw [hdrop]
      change RoundEnds _ _ _ (endMember state)
      rw [hrun]
      refine ⟨Ahead.member hat ?_, ?_⟩
      · rw [decide_eq_true hpos, hunread]
        exact hm
      have hstage' : ¬ after.engine.stage = 3 := by
        rw [hat.engine]
        exact show ¬ (0 = 3) by decide
      change after.fuel < state.fuel
      unfold Decoder.fuel
      rw [if_pos hstage, if_neg hstage']
      omega

theorem bodyRound_spec : RoundEnds state.fuel (out.drop state.offset) ok (bodyRound state) := by
  by_cases hs : c.stage = 3
  · exact bodyRound_done h hbody hwants hs
  have hout : state.offset = c.out.length := hwants.1.trans h.written
  have hstage : ¬ state.engine.stage = 3 := fun hcon => hs (h.stage.symm.trans hcon)
  unfold bodyRound
  rw [if_neg hstage]
  rcases inflateMore_spec h hout with ⟨after, d, hrun, herr, hd, h3, hstuck⟩ |
      ⟨after, d, hrun, hafter, hoffset, hgzip, hmore⟩ |
      ⟨after, d, hrun, hafter, hoffset, hgzip, -, hunread, hrest, hless⟩
  · obtain ⟨e, he, hend, _, hbad⟩ := hbody.exists_end
    have heq := he.end_unique hend hd (.inr ⟨h3, hstuck⟩)
    rw [heq] at h3
    rw [hbad h3, hrun]
    exact roundEnds_failed herr
  · rw [hrun, ← hoffset]
    refine ⟨Ahead.inside hafter (hgzip ▸ hbody), fun hw => ?_⟩
    have := hw.1.trans hafter.written
    simp only at this
    omega
  rw [hrun, ← hoffset]
  refine ⟨Ahead.inside hafter (hgzip ▸ hbody), ?_⟩
  change after.fuel < state.fuel
  unfold Decoder.fuel
  rw [if_neg hstage]
  rcases hless with h3 | hless
  · rw [if_pos (hafter.stage.trans h3)]
    omega
  · split_ifs <;> omega

end Round

theorem memberRound_spec (h : AtMember state)
    (hm : Members (decide (0 < state.members)) state.unread out ok) :
    RoundEnds state.fuel out ok (readRound state) := by
  have hspec := gzipHeader_spec h.start
  have hwritten : state.engine.written = 0 := by rw [h.engine]
  have hcond : state.gzip = true ∧ state.phase < 6 := by
    rw [h.start.phase]
    exact ⟨h.gzip, by decide⟩
  unfold readRound
  rw [if_pos hcond]
  split_ifs at hspec with hlast
  · obtain ⟨after, hrun, hr⟩ := hspec
    have hend : out = [] ∧ ok = true := by
      rw [decide_eq_true hlast.1, hlast.2] at hm
      cases hm with
      | ended => exact ⟨rfl, rfl⟩
      | refused hne _ => exact absurd ⟨rfl, rfl⟩ hne
      | broken hheader _ _ _ | member hheader _ _ _ _ =>
        rw [headerLength_nil] at hheader
        cases hheader
    rw [hrun, hend.1, hend.2]
    refine ⟨Ahead.finished rfl (hr.error.trans h.start.error) ?_,
      fun hw => absurd hw.2.1 Bool.false_ne_true⟩
    obtain ⟨_, _, _, _, rfl⟩ := hr.same
    exact h.offset.trans hwritten.symm
  cases hheader : headerLength state.unread with
  | none =>
    rw [hheader] at hspec
    obtain ⟨after, hrun, herr⟩ := hspec
    have hend : ok = false := by
      generalize hb : decide (0 < state.members) = behind at hm
      generalize hu : state.unread = bytes at hm hheader hlast
      cases hm with
      | ended => exact absurd ⟨of_decide_eq_true hb, rfl⟩ hlast
      | refused _ _ | broken _ _ _ _ => rfl
      | member hheader' _ _ _ _ =>
        rw [hheader] at hheader'
        cases hheader'
    rw [hrun, hend]
    exact roundEnds_failed herr
  | some header =>
    rw [hheader] at hspec
    obtain ⟨flags, after, hrun, hat⟩ := hspec
    have hbody := h.body hat
    have hkeep : after.offset = state.offset ∧ after.engine.written = state.engine.written ∧
        after.gzip = true ∧ after.finished = state.finished ∧
        after.engine.stage = state.engine.stage := by
      obtain ⟨_, _, _, _, _, rfl⟩ := hat.same
      exact ⟨rfl, rfl, h.gzip, rfl, rfl⟩
    obtain ⟨hoffset, hwritten', hgzip, hfinished, hstage⟩ := hkeep
    have hzero : after.offset = 0 := hoffset.trans h.offset
    have hwants : after.Wants := by
      refine ⟨?_, ?_, hat.error⟩
      · rw [hzero, hwritten', hwritten]
      · rw [hfinished, h.unfinished]
        rfl
    have hround := bodyRound_spec hbody (hgzip.symm ▸ Body.gzip hheader hm) hwants
    rw [hzero, drop_zero] at hround
    rw [hrun]
    refine ⟨hround.1, ?_⟩
    have hle : after.fuel ≤ state.fuel := by
      have hlen := congrArg length hat.unread
      have := hat.rest_le
      rw [length_drop] at hlen
      unfold Decoder.fuel
      rw [hstage]
      omega
    have hend := hround.2
    split_ifs at hend ⊢ with hgo
    · exact lt_of_lt_of_le hend hle
    · exact hend

theorem readRound_spec (h : Ahead state out ok) (hwants : state.Wants) :
    RoundEnds state.fuel out ok (readRound state) := by
  cases h with
  | member hat hm => exact memberRound_spec hat hm
  | inside hd hbody =>
    have hcond : ¬ (state.gzip = true ∧ state.phase < 6) := by
      rintro ⟨hgzip, hphase⟩
      rw [(hd.member hgzip).1] at hphase
      exact absurd hphase (by decide)
    unfold readRound
    rw [if_neg hcond]
    exact bodyRound_spec hd hbody hwants
  | finished hfinished _ _ =>
    have := hwants.2.1
    rw [hfinished] at this
    exact absurd this Bool.false_ne_true
  | failed herr =>
    have := hwants.2.2
    rw [herr] at this
    exact absurd this (by decide)

theorem readLoop_spec :
    ∀ (fuel : Nat) (state : Decoder), Ahead state out ok → state.fuel < fuel →
      Ahead (readLoop fuel state) out ok ∧ ¬ (readLoop fuel state).Wants
  | 0, _, _, hfuel => absurd hfuel (Nat.not_lt_zero _)
  | fuel + 1, state, h, hfuel => by
    rw [readLoop]
    split_ifs with hwants
    · have hround := readRound_spec h hwants
      generalize readRound state = result at hround ⊢
      obtain ⟨go, after⟩ := result
      obtain ⟨hahead, hend⟩ := hround
      cases go with
      | true =>
        have hless : after.fuel < state.fuel := hend
        exact readLoop_spec fuel after hahead (by omega)
      | false => exact ⟨hahead, hend⟩
    · exact ⟨h, hwants⟩

theorem Decoding.deliver {body : List UInt8} (h : Decoding body state c) {amount : Nat}
    (hamount : state.offset + amount ≤ c.out.length) :
    Decoding body { state with offset := state.offset + amount } c := by
  have hheld := h.held
  refine ⟨h.runs, h.engine, h.suffix, h.engine_error, h.error, h.unfinished,
    ⟨h.buffered.at_le, h.buffered.length_le, h.buffered.ended⟩, hamount, ?_,
    h.compressedSize_ge, h.outputSize_ge, h.member⟩
  change c.out.length ≤ state.offset + amount + state.outputSize
  omega

/-- What a read gives when `out` is ahead, and what is ahead then. -/
def ReadGives (out : List UInt8) (ok : Bool) (result : ReadResult × Decoder) : Prop :=
  (result.1.status = .Complete ∧ result.1.error = 0 ∧ result.1.bytes ≠ [] ∧
      ∃ more, out = result.1.bytes ++ more ∧ Ahead result.2 more ok) ∨
    (ok = true ∧ out = [] ∧ result.1 = { status := .End } ∧ Ahead result.2 [] true) ∨
    (ok = false ∧ result.1 = { error := -74, status := .Error } ∧ result.2.error = -74)

theorem decoderRead_spec (h : Ahead state out ok) {size : Nat} (hsize : 0 < size) :
    ReadGives out ok (decoderRead state size) := by
  have hfuel : state.fuel < readFuel state := by
    have : state.unread.length ≤ state.compressed.length + state.source.rest.length := by
      rw [Decoder.unread, length_append, length_drop]
      omega
    unfold Decoder.fuel readFuel
    split_ifs <;> omega
  obtain ⟨hahead, hwants⟩ := readLoop_spec (readFuel state) state h hfuel
  unfold decoderRead
  rw [if_neg hsize.ne']
  generalize readLoop (readFuel state) state = after at hahead hwants ⊢
  simp only
  cases hahead with
  | member hat _ =>
    refine absurd ⟨?_, ?_, hat.start.error⟩ hwants
    · rw [hat.offset, hat.engine]
    · rw [hat.unfinished]
      rfl
  | @inside body out _ c hd hbody =>
    have hzero : ¬ after.error ≠ 0 := fun hne => hne hd.error
    have hle := hd.offset_le
    have hmore : after.offset < c.out.length := by
      refine lt_of_le_of_ne hle (fun heq => hwants ⟨heq.trans hd.written.symm, ?_, hd.error⟩)
      rw [hd.unfinished]
      rfl
    have hstatus : ∀ n m : Nat, ¬ (after.finished = true ∧ n = m) := by
      rintro n m ⟨hcon, _⟩
      rw [hd.unfinished] at hcon
      exact Bool.false_ne_true hcon
    rw [if_neg hzero, hd.written]
    generalize hn : min (c.out.length - after.offset) size = amount
    have hbytes := hd.engine.buffers.window after.offset amount hd.held (by omega)
    obtain ⟨d, hruns, hend, hout, _⟩ := hbody.exists_end
    have hend' := hd.runs.to_end hruns hend
    have hprefix : c.out <+: out := List.IsPrefix.trans hend'.out_prefix hout
    have hdrop : out.drop after.offset =
        (c.out.drop after.offset).take amount ++ out.drop (after.offset + amount) := by
      obtain ⟨-, rfl⟩ := hprefix
      rw [drop_append_of_le_length hle, drop_append_of_le_length (by omega),
        ← append_assoc, ← drop_drop, take_append_drop]
    refine .inl ⟨?_, rfl, ?_, out.drop (after.offset + amount), ?_, ?_⟩
    · exact if_neg (hstatus _ _)
    · rw [hbytes]
      intro hcon
      have := congrArg length hcon
      rw [length_take, length_drop, length_nil] at this
      omega
    · rw [hbytes]
      exact hdrop
    · exact Ahead.inside (hd.deliver (by omega)) hbody
  | finished hfinished herr hoffset =>
    have hzero : ¬ after.error ≠ 0 := fun hne => hne herr
    have hnone : after.engine.written - after.offset = 0 := by omega
    have hstatus : after.finished = true ∧ 0 = 0 := ⟨hfinished, rfl⟩
    rw [if_neg hzero, hnone, Nat.zero_min, if_pos hstatus]
    exact .inr (.inl ⟨rfl, rfl, rfl, Ahead.finished hfinished herr hoffset⟩)
  | failed herr =>
    have hne : after.error ≠ 0 := by
      rw [herr]
      decide
    rw [if_pos hne, herr]
    exact .inr (.inr ⟨rfl, rfl, herr⟩)

theorem decoderRead_failed (state : Decoder) (size : Nat) (hsize : 0 < size)
    (h : state.error = -74) :
    (decoderRead state size).1 = { error := -74, status := .Error } ∧
      (decoderRead state size).2.error = -74 := by
  have hne : state.error ≠ 0 := by
    rw [h]
    decide
  have hloop : readLoop (readFuel state) state = state := if_neg (fun hwants => hne hwants.2.2)
  unfold decoderRead
  rw [if_neg hsize.ne', hloop]
  rw [if_pos hne]
  exact ⟨by rw [h], h⟩

/-- The decoder after `n` reads into destinations of the given sizes. -/
def stateAfter : (Nat → Nat) → Decoder → Nat → Decoder
  | _, state, 0 => state
  | sizes, state, n + 1 =>
      stateAfter (fun i => sizes (i + 1)) (decoderRead state (sizes 0)).2 n

def readAt (sizes : Nat → Nat) (state : Decoder) (n : Nat) : ReadResult :=
  (decoderRead (stateAfter sizes state n) (sizes n)).1

/-- The bytes of the first `n` reads. -/
def delivered (sizes : Nat → Nat) (state : Decoder) (n : Nat) : List UInt8 :=
  (List.range n).flatMap (fun i => (readAt sizes state i).bytes)

/-- The reads give bytes without error, then all the same `last` result; `P` holds of the
bytes given. -/
def ReadsUntil (sizes : Nat → Nat) (state : Decoder) (last : ReadResult)
    (P : List UInt8 → Prop) : Prop :=
  ∃ n, (∀ m < n, (readAt sizes state m).status = .Complete ∧ (readAt sizes state m).error = 0) ∧
    P (delivered sizes state n) ∧ ∀ m, n ≤ m → readAt sizes state m = last

/-- The reads give `out` and then the end. -/
def Delivers (sizes : Nat → Nat) (state : Decoder) (out : List UInt8) : Prop :=
  ReadsUntil sizes state { status := .End } (fun bytes => bytes = out)

/-- The reads give a prefix of `out` and then the error of an invalid stream. -/
def Breaks (sizes : Nat → Nat) (state : Decoder) (out : List UInt8) : Prop :=
  ReadsUntil sizes state { error := -74, status := .Error } (fun bytes => bytes <+: out)

theorem delivered_succ (sizes : Nat → Nat) (state : Decoder) (n : Nat) :
    delivered sizes state (n + 1) = (decoderRead state (sizes 0)).1.bytes ++
      delivered (fun i => sizes (i + 1)) (decoderRead state (sizes 0)).2 n := by
  unfold delivered
  rw [range_succ_eq_map, flatMap_cons, flatMap_map]
  rfl

theorem ReadsUntil.cons {sizes : Nat → Nat} {state : Decoder} {last : ReadResult}
    {P Q : List UInt8 → Prop} (hstatus : (decoderRead state (sizes 0)).1.status = .Complete)
    (herror : (decoderRead state (sizes 0)).1.error = 0)
    (h : ReadsUntil (fun i => sizes (i + 1)) (decoderRead state (sizes 0)).2 last P)
    (hPQ : ∀ bytes, P bytes → Q ((decoderRead state (sizes 0)).1.bytes ++ bytes)) :
    ReadsUntil sizes state last Q := by
  obtain ⟨n, hbefore, hbytes, hafter⟩ := h
  refine ⟨n + 1, fun m hm => ?_, ?_, fun m hm => ?_⟩
  · cases m with
    | zero => exact ⟨hstatus, herror⟩
    | succ m => exact hbefore m (by omega)
  · rw [delivered_succ]
    exact hPQ _ hbytes
  cases m with
  | zero => omega
  | succ m => exact hafter m (by omega)

theorem readAt_stable {last : ReadResult} {Q : Decoder → Prop}
    (hstep : ∀ state size, 0 < size → Q state →
      (decoderRead state size).1 = last ∧ Q (decoderRead state size).2) :
    ∀ (m : Nat) (sizes : Nat → Nat) (state : Decoder), (∀ n, 0 < sizes n) → Q state →
      readAt sizes state m = last
  | 0, sizes, state, hsizes, h => (hstep state (sizes 0) (hsizes 0) h).1
  | m + 1, sizes, state, hsizes, h =>
    readAt_stable hstep m (fun i => sizes (i + 1)) _ (fun n => hsizes (n + 1))
      (hstep state (sizes 0) (hsizes 0) h).2

theorem Ahead.reads_now {sizes : Nat → Nat} (hsizes : ∀ i, 0 < sizes i) (h : Ahead state out ok)
    (hnone : ¬ ((decoderRead state (sizes 0)).1.status = .Complete ∧
      (decoderRead state (sizes 0)).1.error = 0 ∧ (decoderRead state (sizes 0)).1.bytes ≠ [] ∧
      ∃ more, out = (decoderRead state (sizes 0)).1.bytes ++ more ∧
        Ahead (decoderRead state (sizes 0)).2 more ok)) :
    if ok then Delivers sizes state out else Breaks sizes state out := by
  rcases (decoderRead_spec h (hsizes 0)).resolve_left hnone with
    ⟨rfl, rfl, _, _⟩ | ⟨rfl, hfirst, herror⟩
  · refine ⟨0, fun m hm => absurd hm (Nat.not_lt_zero m), rfl, fun m _ => ?_⟩
    refine readAt_stable (Q := fun state => Ahead state [] true)
      (fun state size hsize hq => ?_) m sizes state hsizes h
    rcases decoderRead_spec hq hsize with ⟨_, _, hne, more, hout, _⟩ | ⟨_, _, hr, hq'⟩ | ⟨hcon, _, _⟩
    · exact absurd (append_eq_nil_iff.mp hout.symm).1 hne
    · exact ⟨hr, hq'⟩
    · cases hcon
  refine ⟨0, fun m hm => absurd hm (Nat.not_lt_zero m), nil_prefix, fun m _ => ?_⟩
  cases m with
  | zero => exact hfirst
  | succ m =>
    exact readAt_stable (Q := fun state => state.error = -74) decoderRead_failed m _ _
      (fun i => hsizes (i + 1)) herror

/-- **Any sequence of reads** gives what is ahead, then the end or the error. -/
theorem Ahead.reads :
    ∀ (n : Nat) (out : List UInt8) (state : Decoder) (sizes : Nat → Nat),
      (∀ i, 0 < sizes i) → Ahead state out ok → out.length ≤ n →
      if ok then Delivers sizes state out else Breaks sizes state out := by
  intro n
  induction n with
  | zero =>
    intro out state sizes hsizes h hn
    have hempty : out = [] := length_eq_zero_iff.mp (Nat.le_zero.mp hn)
    subst hempty
    refine Ahead.reads_now hsizes h ?_
    rintro ⟨_, _, hne, more, hout, _⟩
    exact hne (append_eq_nil_iff.mp hout.symm).1
  | succ n ih =>
    intro out state sizes hsizes h hn
    by_cases hfirst : ∃ more, (decoderRead state (sizes 0)).1.status = .Complete ∧
        (decoderRead state (sizes 0)).1.error = 0 ∧
        (decoderRead state (sizes 0)).1.bytes ≠ [] ∧
        out = (decoderRead state (sizes 0)).1.bytes ++ more ∧
        Ahead (decoderRead state (sizes 0)).2 more ok
    · obtain ⟨more, hstatus, herror, hne, rfl, hnext⟩ := hfirst
      have hlen := length_pos_of_ne_nil hne
      rw [length_append] at hn
      have hrest := ih more _ (fun i => sizes (i + 1)) (fun i => hsizes (i + 1)) hnext (by omega)
      cases ok with
      | true =>
        have hrest' : Delivers _ _ more := hrest
        rw [if_pos rfl]
        exact ReadsUntil.cons hstatus herror hrest' (fun bytes hb => by rw [hb])
      | false =>
        have hrest' : Breaks _ _ more := hrest
        rw [if_neg Bool.false_ne_true]
        exact ReadsUntil.cons hstatus herror hrest'
          (fun bytes hb => (prefix_append_right_inj _).mpr hb)
    · refine Ahead.reads_now hsizes h ?_
      rintro ⟨hstatus, herror, hne, more, hout, hnext⟩
      exact hfirst ⟨more, hstatus, herror, hne, hout, hnext⟩

/-- `gunzip` decodes the bytes member by member, to the last byte. -/
inductive GunzipAll : List UInt8 → List UInt8 → Prop
  | last {w : Nat} {room : Room} {bytes : List UInt8} {result : Inflated} :
      gunzip w room bytes = .ok result → result.ok = true → result.consumed = bytes.length →
      GunzipAll bytes result.value
  | next {w : Nat} {room : Room} {bytes out : List UInt8} {result : Inflated} :
      gunzip w room bytes = .ok result → result.ok = true → result.consumed < bytes.length →
      GunzipAll (bytes.drop result.consumed) out → GunzipAll bytes (result.value ++ out)

/-- `gunzip`, called member by member, fails on one of them. -/
inductive GunzipFails : List UInt8 → Prop
  | here {w : Nat} {room : Room} {bytes : List UInt8} {result : Inflated} :
      gunzip w room bytes = .ok result → result.ok = false → GunzipFails bytes
  | later {w : Nat} {room : Room} {bytes : List UInt8} {result : Inflated} :
      gunzip w room bytes = .ok result → result.ok = true → result.consumed < bytes.length →
      GunzipFails (bytes.drop result.consumed) → GunzipFails bytes

theorem members_of_gunzip {w : Nat} {room : Room} {result : Inflated} {behind : Bool}
    (h : gunzip w room bytes = .ok result) (hok : result.ok = true)
    (hrest : Members true (bytes.drop result.consumed) out ok) :
    Members behind bytes (result.value ++ out) ok := by
  have hres := gunzip_result h
  rw [if_pos hok] at hres
  obtain ⟨header, c, hheader, hruns, hdone, hout, hlen⟩ := hres.decodes
  have hlen' : result.consumed = memberLength bytes header c := hlen
  have htrailer : TrailerOk bytes result.consumed result.value :=
    ⟨hres.fits, hres.checksum, hres.size⟩
  rw [← hout, hlen'] at htrailer
  rw [hlen'] at hrest
  rw [← hout]
  exact Members.member hheader hruns hdone htrailer hrest

theorem GunzipAll.members (h : GunzipAll bytes out) : ∀ behind, Members behind bytes out true := by
  induction h with
  | last hg hok hlen =>
    intro behind
    rw [← append_nil (Inflated.value _)]
    exact members_of_gunzip hg hok (by rw [hlen, drop_length]; exact Members.ended)
  | next hg hok _ _ ih =>
    intro behind
    exact members_of_gunzip hg hok (ih true)

theorem GunzipFails.members (h : GunzipFails bytes) :
    ∀ behind, ¬ (behind = true ∧ bytes = []) → ∃ out, Members behind bytes out false := by
  induction h with
  | @here w room bytes result hg hok =>
    intro behind hne
    have hres := gunzip_result hg
    rw [hok, if_neg Bool.false_ne_true] at hres
    cases hheader : headerLength bytes with
    | none => exact ⟨[], Members.refused hne hheader⟩
    | some header =>
      obtain ⟨c, hruns, hend⟩ := Compress.exists_end (bytes.drop header)
      refine ⟨c.out, Members.broken hheader hruns hend ?_⟩
      rintro ⟨hdone, htrailer⟩
      exact hres _ _ (member_of_trailer hheader hruns hdone htrailer)
  | @later w room bytes result hg hok hlt _ ih =>
    intro behind _
    have hrest : ¬ (true = true ∧ bytes.drop result.consumed = []) := by
      rintro ⟨_, hcon⟩
      have := drop_eq_nil_iff.mp hcon
      omega
    obtain ⟨out, hm⟩ := ih true hrest
    exact ⟨_, members_of_gunzip hg hok hm⟩

section Decoder

variable (source : Source) {compressedSize outputSize : Nat} (hcompressed : 1024 ≤ compressedSize)
  (houtput : 33026 ≤ outputSize) (history : Nat → UInt8)
include hcompressed houtput

theorem decoder_ahead_raw {d : Config} (hruns : Runs (.start source.rest) d) (hend : d.Ends) :
    Ahead (decoder source compressedSize outputSize history false) d.out
      (decide (d.stage = 3)) := by
  have hstart : Decoding (decoder source compressedSize outputSize history false).unread
      (decoder source compressedSize outputSize history false) _ :=
    Decoding.start rfl ⟨le_rfl, Nat.zero_le _, nofun⟩ rfl rfl rfl hcompressed houtput nofun
  exact Ahead.inside hstart (Body.raw hruns hend)

theorem decoder_ahead_gzip {out : List UInt8} {ok : Bool}
    (hm : Members false source.rest out ok) :
    Ahead (decoder source compressedSize outputSize history true) out ok := by
  refine Ahead.member ⟨⟨⟨le_rfl, Nat.zero_le _, nofun⟩, rfl, rfl, rfl, rfl,
    rfl, ?_⟩, rfl, rfl, rfl, rfl, rfl, rfl, hcompressed, houtput⟩ hm
  change 10 ≤ compressedSize
  omega

/-- **The streaming decoder equals one-shot inflation,** however the source splits the stream
and whatever the sizes of the reads are.  If `inflate`, or `gunzip` member by member, accepts
the stream, the reads give its output and then the end; if not, they give a prefix of what a
valid run of the engine decodes, and then the error of an invalid stream. -/
theorem decoder_equals_inflate (sizes : Nat → Nat) (hsizes : ∀ n, 0 < sizes n) :
    (∀ w room result, inflate w room source.rest = .ok result →
      if result.ok then
        Delivers sizes (decoder source compressedSize outputSize history false) result.value
      else ∃ c, Runs (.start source.rest) c ∧
        Breaks sizes (decoder source compressedSize outputSize history false) c.out) ∧
    (∀ out, GunzipAll source.rest out →
      Delivers sizes (decoder source compressedSize outputSize history true) out) ∧
    (GunzipFails source.rest → ∃ out, Members false source.rest out false ∧
      Breaks sizes (decoder source compressedSize outputSize history true) out) := by
  refine ⟨fun w room result h => ?_, fun out h => ?_, fun h => ?_⟩
  · have hres := inflate_result h
    obtain ⟨d, hruns, hend⟩ := Compress.exists_end source.rest
    have hreads := (decoder_ahead_raw source hcompressed houtput history hruns hend).reads
      _ _ _ sizes hsizes le_rfl
    split_ifs at hres ⊢ with hok
    · obtain ⟨c, hc, hc3, rfl⟩ := hres
      have he := hc.end_unique (.inl hc3) hruns hend
      rw [he, decide_eq_true hc3, if_pos rfl] at hreads
      exact hreads
    · rw [decide_eq_false (hres.2 d hruns), if_neg Bool.false_ne_true] at hreads
      exact ⟨d, hruns, hreads⟩
  · have hreads := (decoder_ahead_gzip source hcompressed houtput history
      (h.members false)).reads _ _ _ sizes hsizes le_rfl
    rwa [if_pos rfl] at hreads
  · obtain ⟨out, hm⟩ := h.members false (fun hcon => by cases hcon.1)
    have hreads := (decoder_ahead_gzip source hcompressed houtput history hm).reads
      _ _ _ sizes hsizes le_rfl
    rw [if_neg Bool.false_ne_true] at hreads
    exact ⟨out, hm, hreads⟩

end Decoder

/-- A stored block with one byte, read byte by byte. -/
theorem decoder_equals_inflate_stored :
    Delivers (fun _ => 1) (decoder ⟨[1, 1, 0, 254, 255, 97], fun _ => 1, false⟩ 1024 33026
      (fun _ => 0) false) [97] :=
  (decoder_equals_inflate ⟨[1, 1, 0, 254, 255, 97], fun _ => 1, false⟩ (le_refl 1024)
    (le_refl 33026) (fun _ => 0) (fun _ => 1) (fun _ => Nat.one_pos)).1
    64 (bufferRoom 4) ⟨[97], 6, true⟩ rfl

end Dyn.Compress
