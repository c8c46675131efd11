import Dyn.Csv.Scanner

/-!
# std/encoding/csv: the two scanners agree

What a stream scanner has before it, a byte that it put back and the bytes that its reader still delivers, is
the rest of the slice.  Every call of one scanner then does what the same call of the other does.
-/

namespace Dyn.Csv

open List
open Errors (Kind)

variable {σ : Type} {Left : σ → List UInt8 → Prop}

namespace StreamScanner

/-- The bytes that the scanner has before it. -/
def Before (Left : σ → List UInt8 → Prop) (state : StreamScanner σ) (bytes : List UInt8) : Prop :=
  ∃ rest, Left state.data rest ∧ (state.ended = true → rest = []) ∧
    bytes = if state.hasLookahead then state.lookahead :: rest else rest

structure Keeps (state state' : StreamScanner σ) : Prop where
  input : state'.input = state.input
  recordEnded : state'.recordEnded = state.recordEnded
  finished : state'.finished = state.finished
  kind : state'.kind = state.kind

theorem Keeps.trans {a b c : StreamScanner σ} (hab : a.Keeps b) (hbc : b.Keeps c) : a.Keeps c :=
  ⟨hbc.input.trans hab.input, hbc.recordEnded.trans hab.recordEnded, hbc.finished.trans hab.finished,
    hbc.kind.trans hab.kind⟩

variable {state : StreamScanner σ} {bytes : List UInt8}

theorem Before.unread (h : state.Before Left bytes) (hnone : state.hasLookahead = false)
    (value : UInt8) : (state.streamUnread value).Before Left (value :: bytes) := by
  obtain ⟨rest, hleft, hended, rfl⟩ := h
  refine ⟨rest, hleft, hended, ?_⟩
  rw [hnone]
  rfl

/-- What a read gives, by the bytes before the scanner. -/
def firstOf : List UInt8 → ByteResult
  | [] => { isEnd := true, ok := true }
  | value :: _ => { value, ok := true }

/-- **A read takes the byte before the scanner**, or finds the end. -/
theorem streamByte_spec (hreader : Io.Delivers state.input Left) (h : state.Before Left bytes) :
    ∃ state', state.streamByte = (firstOf bytes, state') ∧
      state'.Before Left bytes.tail ∧ state'.hasLookahead = false ∧ state.Keeps state' := by
  obtain ⟨rest, hleft, hended, hbytes⟩ := h
  rw [streamByte]
  by_cases hlook : state.hasLookahead = true
  · rw [if_pos hlook] at hbytes ⊢
    rw [hbytes]
    exact ⟨{ state with hasLookahead := false }, rfl, ⟨rest, hleft, hended, rfl⟩, rfl, rfl, rfl, rfl, rfl⟩
  rw [if_neg hlook] at hbytes ⊢
  rw [hbytes]
  have hnot : state.hasLookahead = false := Bool.eq_false_iff.2 hlook
  split_ifs with hend
  · rw [hended hend]
    exact ⟨state, rfl, ⟨[], hended hend ▸ hleft, fun _ => rfl, (if_neg hlook).symm⟩, hnot, rfl, rfl, rfl, rfl⟩
  obtain ⟨result, data, hread, hstatus, hroom, hle, hnone, hlast, hleft'⟩ :=
    hreader.read hleft (cons_ne_nil (0 : UInt8) [])
  rw [length_singleton] at hroom
  rw [hread]
  dsimp only
  rw [if_neg hstatus]
  rcases Nat.le_one_iff_eq_zero_or_eq_one.1 hroom with hzero | hone
  · rw [hzero] at hleft'
    rw [if_pos hzero, hnone hzero] at *
    exact ⟨_, rfl, ⟨[], hleft', fun _ => rfl, (if_neg hlook).symm⟩, hnot, rfl, rfl, rfl, rfl⟩
  rw [hone] at hleft' hlast hle
  rw [if_neg (by omega), hone]
  cases rest with
  | nil => cases hle
  | cons value rest =>
    refine ⟨_, rfl, ⟨rest, hleft', fun htrue => ?_, (if_neg hlook).symm⟩, hnot, rfl, rfl, rfl, rfl⟩
    rcases of_decide_eq_true htrue with hstatus | hzero
    · exact hlast hstatus
    · exact absurd hzero Nat.one_ne_zero

/-- What a turn does with the bytes before the scanner, and what it leaves of them. -/
def turnOf (quoted : Bool) : List UInt8 → Turn × List UInt8
  | [] => (.inputEnded (!quoted), [])
  | byte :: rest =>
      if quoted then
        if byte = 34 then
          match rest with
          | [] => (.inputEnded true, [])
          | after :: behind => if after = 34 then (.store 34, behind) else (.delimiter after, behind)
        else (.store byte, rest)
      else if byte = 34 then (.quote, rest)
      else if isDelimiter byte then (.delimiter byte, rest)
      else (.store byte, rest)

theorem streamTurn_spec (hreader : Io.Delivers state.input Left) (h : state.Before Left bytes)
    (quoted : Bool) :
    ∃ state', state.streamTurn quoted = ((turnOf quoted bytes).1, state') ∧
      state'.Before Left (turnOf quoted bytes).2 ∧ state'.hasLookahead = false ∧ state.Keeps state' := by
  obtain ⟨state', hbyte, hbefore, hlook, hkeeps⟩ := streamByte_spec hreader h
  rw [streamTurn, hbyte]
  cases bytes with
  | nil => exact ⟨state', rfl, hbefore, hlook, hkeeps⟩
  | cons byte rest =>
    cases quoted with
    | false =>
      by_cases hquote : byte = 34
      · exact ⟨state', by simp [firstOf, turnOf, hquote], by simpa [turnOf, hquote] using hbefore, hlook, hkeeps⟩
      by_cases hdelimiter : isDelimiter byte = true
      · exact ⟨state', by simp [firstOf, turnOf, hquote, hdelimiter],
          by simpa [turnOf, hquote, hdelimiter] using hbefore, hlook, hkeeps⟩
      · exact ⟨state', by simp [firstOf, turnOf, hquote, hdelimiter],
          by simpa [turnOf, hquote, hdelimiter] using hbefore, hlook, hkeeps⟩
    | true =>
      by_cases hquote : byte = 34
      · rw [tail_cons] at hbefore
        obtain ⟨after, hafter, hbehind, hlook', hkeeps'⟩ := streamByte_spec (hkeeps.input ▸ hreader) hbefore
        cases rest with
        | nil =>
          exact ⟨after, by simp [firstOf, turnOf, hquote, hafter], by simpa [turnOf, hquote] using hbehind, hlook',
            hkeeps.trans hkeeps'⟩
        | cons value behind =>
          by_cases hsecond : value = 34
          · exact ⟨after, by simp [firstOf, turnOf, hquote, hafter, hsecond],
              by simpa [turnOf, hquote, hsecond] using hbehind, hlook', hkeeps.trans hkeeps'⟩
          · exact ⟨after, by simp [firstOf, turnOf, hquote, hafter, hsecond],
              by simpa [turnOf, hquote, hsecond] using hbehind, hlook', hkeeps.trans hkeeps'⟩
      · exact ⟨state', by simp [firstOf, turnOf, hquote], by simpa [turnOf, hquote] using hbefore, hlook, hkeeps⟩

variable (quoted : Bool)

theorem loop_turn (capacity : Nat) (bytes text : List UInt8) :
    Scanner.loop quoted capacity bytes text =
      match turnOf quoted bytes with
      | (.store byte, rest) =>
        if text.length = capacity then .error .Capacity else Scanner.loop quoted capacity rest (text ++ [byte])
      | (.inputEnded closed, _) => .ok ⟨[], text, closed⟩
      | (.delimiter byte, rest) => .ok ⟨byte :: rest, text, true⟩
      | (_, _) => .error .Syntax := by
  cases bytes with
  | nil => simp [Scanner.loop, turnOf]
  | cons byte rest =>
    cases quoted with
    | false =>
      by_cases hquote : byte = 34
      · have hnot : isDelimiter 34 = false := by decide
        rw [hquote, Scanner.loop.eq_def]
        simp [turnOf, hnot]
      by_cases hdelimiter : isDelimiter byte = true
      · rw [Scanner.loop.eq_def]
        simp [turnOf, hquote, hdelimiter]
      · rw [Scanner.loop.eq_def]
        simp [turnOf, hquote, hdelimiter]
    | true =>
      by_cases hquote : byte = 34
      · cases rest with
        | nil =>
          rw [Scanner.loop.eq_def]
          simp [turnOf, hquote]
        | cons after behind =>
          by_cases hafter : after = 34
          · rw [Scanner.loop.eq_def]
            simp [turnOf, hquote, hafter]
          · rw [Scanner.loop.eq_def]
            simp [turnOf, hquote, hafter]
      · rw [Scanner.loop.eq_def]
        simp [turnOf, hquote]

/-- How the loop of `next_stream` ends where that of `next` stops. -/
def endOf : Except ErrorKind Scanner.Stop → LoopEnd
  | .error kind => .error kind
  | .ok stop => .stopped stop.closed stop.rest.isEmpty (stop.rest.headD 0) stop.text

theorem turnOf_cases (bytes : List UInt8) :
    (turnOf quoted bytes).1 ≠ .failed ∧ ∀ closed, (turnOf quoted bytes).1 = .inputEnded closed → (turnOf quoted bytes).2 = [] := by
  cases bytes with
  | nil => exact ⟨Turn.noConfusion, fun _ _ => rfl⟩
  | cons byte rest =>
    rw [turnOf.eq_def]
    dsimp only
    split_ifs
    · cases rest with
      | nil => exact ⟨Turn.noConfusion, fun _ _ => rfl⟩
      | cons after behind =>
        dsimp only
        split_ifs <;> exact ⟨Turn.noConfusion, nofun⟩
    all_goals exact ⟨Turn.noConfusion, nofun⟩

/-- A turn that ends the loop of `next_stream` ends that of `next`. -/
theorem endOf_turn {quoted : Bool} {capacity : Nat} {bytes text : List UInt8}
    (hstop : text.length = capacity ∨ ∀ byte, (turnOf quoted bytes).1 ≠ .store byte) :
    endOf (Scanner.loop quoted capacity bytes text) = (turnOf quoted bytes).1.stop text ∧
      ∀ stop, Scanner.loop quoted capacity bytes text = .ok stop → stop.rest.tail = (turnOf quoted bytes).2 := by
  obtain ⟨hfailed, hended⟩ := turnOf_cases quoted bytes
  rw [loop_turn]
  generalize turnOf quoted bytes = turned at *
  obtain ⟨turn, rest⟩ := turned
  cases turn with
  | failed => exact absurd rfl hfailed
  | inputEnded closed =>
    refine ⟨rfl, fun stop hok => ?_⟩
    cases hok
    exact (hended closed rfl).symm
  | delimiter byte =>
    refine ⟨rfl, fun stop hok => ?_⟩
    cases hok
    rfl
  | quote => exact ⟨rfl, nofun⟩
  | store byte =>
    have hfull : text.length = capacity := hstop.resolve_right fun h => h byte rfl
    dsimp only
    rw [if_pos hfull]
    exact ⟨rfl, nofun⟩

/-- Both loops end in the same way, and the stream scanner has taken the byte that the other one stops at. -/
theorem streamLoop_spec {capacity : Nat} (room : Nat) (hreader : Io.Delivers state.input Left)
    {text : List UInt8} (h : state.Before Left bytes) (hroom : text.length + room = capacity) :
    ∃ state', state.streamLoop quoted room text = (endOf (Scanner.loop quoted capacity bytes text), state') ∧
      state.Keeps state' ∧
      ∀ stop, Scanner.loop quoted capacity bytes text = .ok stop →
        state'.Before Left stop.rest.tail ∧ state'.hasLookahead = false := by
  induction room generalizing state bytes text with
  | zero =>
    obtain ⟨state', hturn, hbefore, hlook, hkeeps⟩ := streamTurn_spec hreader h quoted
    obtain ⟨hend, hrest⟩ := @endOf_turn quoted capacity bytes text (.inl hroom)
    refine ⟨state', ?_, hkeeps, fun stop hok => ⟨hrest stop hok ▸ hbefore, hlook⟩⟩
    rw [streamLoop, hturn, hend]
  | succ room ih =>
    obtain ⟨state', hturn, hbefore, hlook, hkeeps⟩ := streamTurn_spec hreader h quoted
    by_cases hstore : ∃ byte, (turnOf quoted bytes).1 = .store byte
    · obtain ⟨byte, hstore⟩ := hstore
      have hlonger : (text ++ [byte]).length + room = capacity := by
        rw [length_append, length_singleton]
        omega
      have hloop : Scanner.loop quoted capacity bytes text =
          Scanner.loop quoted capacity (turnOf quoted bytes).2 (text ++ [byte]) := by
        rw [loop_turn]
        generalize turnOf quoted bytes = turned at *
        obtain ⟨turn, rest⟩ := turned
        obtain rfl : turn = .store byte := hstore
        exact if_neg (by omega)
      obtain ⟨state'', hrest, hkeeps', hstop⟩ := ih (hkeeps.input ▸ hreader) hbefore hlonger
      refine ⟨state'', ?_, hkeeps.trans hkeeps', by rw [hloop]; exact hstop⟩
      rw [streamLoop, hturn, hstore, hloop]
      exact hrest
    · have hnone : ∀ byte, (turnOf quoted bytes).1 ≠ .store byte := fun byte heq => hstore ⟨byte, heq⟩
      obtain ⟨hend, hrest⟩ := @endOf_turn quoted capacity bytes text (.inr hnone)
      refine ⟨state', ?_, hkeeps, fun stop hok => ⟨hrest stop hok ▸ hbefore, hlook⟩⟩
      rw [streamLoop, hturn, hend]
      cases hturn' : (turnOf quoted bytes).1 with
      | store byte => exact absurd hturn' (hnone byte)
      | failed | inputEnded closed | delimiter byte | quote => rfl

end StreamScanner

namespace Scanner

variable (bytes text : List UInt8)

theorem loop_suffix {quoted : Bool} {capacity : Nat} {stop : Stop}
    (h : loop quoted capacity bytes text = .ok stop) : stop.rest <:+ bytes := by
  fun_induction loop quoted capacity bytes text with
  | case1 | case2 =>
    cases h
    exact nil_suffix
  | case8 =>
    cases h
    exact suffix_refl _
  | case3 | case6 | case9 | case10 => cases h
  | case4 =>
    rename_i ih
    exact ((ih h).trans (suffix_cons _ _)).trans (suffix_cons _ _)
  | case5 =>
    cases h
    exact suffix_cons _ _
  | case7 | case11 =>
    rename_i ih
    exact (ih h).trans (suffix_cons _ _)

theorem loop_delimiter {capacity : Nat} {stop : Stop}
    (h : loop false capacity bytes text = .ok stop) {byte : UInt8}
    (hbyte : stop.rest.head? = some byte) : isDelimiter byte = true := by
  fun_induction loop false capacity bytes text with
  | case1 =>
    cases h
    cases hbyte
  | case8 =>
    rename_i hdelimiter
    cases h
    cases hbyte
    exact hdelimiter
  | case9 | case10 => cases h
  | case11 =>
    rename_i ih
    exact ih h
  | case2 | case3 | case4 | case5 | case6 | case7 => contradiction

theorem behindDelimiter_suffix : (behindDelimiter bytes).1 <:+ bytes := by
  cases bytes with
  | nil => exact nil_suffix
  | cons byte rest =>
    rw [behindDelimiter.eq_def]
    dsimp only
    split_ifs
    · exact suffix_cons _ _
    · cases rest with
      | nil => exact nil_suffix
      | cons after behind =>
        dsimp only
        split_ifs
        · exact (suffix_cons _ _).trans (suffix_cons _ _)
        · exact suffix_cons _ _
    · exact suffix_cons _ _

theorem drop_suffix {bytes behind : List UInt8} (h : behind <:+ bytes) : bytes.drop (bytes.length - behind.length) = behind := by
  obtain ⟨-, rfl⟩ := h
  rw [length_append, Nat.add_sub_cancel, drop_left]

end Scanner

/-- What a caller sees of a field: its text and record end, or the category of the error. -/
def Field.view (field : Field) : Except Kind (List UInt8 × Bool) :=
  if field.ok then .ok (field.text, field.endRecord) else .error field.kind

/-- Where the scanners stand: both have finished, or the slice scanner has and the other is about to find the end
behind a record, or both stand before the same bytes. -/
def Standing (Left : σ → List UInt8 → Prop) (stream : StreamScanner σ) (slice : Scanner) : Prop :=
  (slice.finished = true ∧ stream.finished = true) ∨
    stream.finished = false ∧ slice.kind = .None ∧
      (slice.finished = true ∧ stream.Before Left [] ∧ stream.recordEnded = true ∨
        slice.finished = false ∧ stream.Before Left (slice.source.drop slice.offset) ∧
          (slice.source.drop slice.offset = [] → stream.recordEnded = false))

structure Agree (Left : σ → List UInt8 → Prop) (stream : StreamScanner σ) (slice : Scanner) : Prop where
  input : Io.Delivers stream.input Left
  kind : stream.kind = slice.kind
  standing : Standing Left stream slice

variable {stream : StreamScanner σ} {slice : Scanner}

/-- Behind a field that the input does not end, the scanners stand before what is left. -/
theorem agree_behind (hinput : Io.Delivers stream.input Left) (hkind : stream.kind = slice.kind)
    (hnone : slice.kind = .None) (hopen : stream.finished = false) {behind : List UInt8}
    (hbefore : stream.Before Left behind) (hsuffix : behind <:+ slice.source) (endRecord : Bool) :
    Agree Left { stream with recordEnded := endRecord }
      { slice with
        finished := endRecord && decide (behind = [])
        offset := slice.source.length - behind.length } := by
  refine ⟨hinput, hkind, .inr ⟨hopen, hnone, ?_⟩⟩
  by_cases hlast : endRecord = true ∧ behind = []
  · refine .inl ⟨by simp [hlast.1, hlast.2], hlast.2 ▸ hbefore, hlast.1⟩
  refine .inr ⟨by simpa using hlast, ?_, fun hnil => ?_⟩
  · rw [Scanner.drop_suffix hsuffix]
    exact hbefore
  · rw [Scanner.drop_suffix hsuffix] at hnil
    exact Bool.eq_false_iff.2 fun htrue => hlast ⟨htrue, hnil⟩

theorem agree_fail (hinput : Io.Delivers stream.input Left) (kind : ErrorKind) :
    (stream.streamFail kind).1.view = (slice.fail kind).1.view ∧ Agree Left (stream.streamFail kind).2 (slice.fail kind).2 :=
  ⟨rfl, hinput, rfl, .inl ⟨rfl, rfl⟩⟩

theorem agree_field (hinput : Io.Delivers stream.input Left) (hkind : stream.kind = slice.kind)
    (hnone : slice.kind = .None) (hopen : stream.finished = false) {quoted : Bool}
    {stop : Scanner.Stop} (hbefore : stream.Before Left stop.rest.tail)
    (hsuffix : stop.rest <:+ slice.source)
    (hdelimiter : quoted = false → ∀ byte, stop.rest.head? = some byte → isDelimiter byte = true) :
    (stream.streamField quoted stop.closed stop.rest.isEmpty (stop.rest.headD 0) stop.text).1.view =
        (slice.field quoted stop).1.view ∧
      Agree Left (stream.streamField quoted stop.closed stop.rest.isEmpty (stop.rest.headD 0) stop.text).2
        (slice.field quoted stop).2 := by
  obtain ⟨rest, text, closed⟩ := stop
  cases closed with
  | false => exact agree_fail hinput .Syntax
  | true =>
    cases rest with
    | nil =>
      have hstream : stream.streamField quoted true true 0 text =
          ({ text, endRecord := true, endInput := true, ok := true },
            { stream with recordEnded := true, finished := true }) := by
        simp [StreamScanner.streamField]
      have hslice : slice.field quoted ⟨[], text, true⟩ =
          ({ text, endRecord := true, endInput := true, ok := true },
            { slice with finished := true, offset := slice.source.length }) := by
        simp [Scanner.field, Scanner.behindDelimiter]
      rw [isEmpty_nil, headD_nil, hstream, hslice]
      exact ⟨rfl, hinput, hkind, .inl ⟨rfl, rfl⟩⟩
    | cons byte rest =>
      rw [isEmpty_cons, headD_cons]
      rw [tail_cons] at hbefore
      by_cases hbyte : isDelimiter byte = true
      · have hslice : slice.field quoted ⟨byte :: rest, text, true⟩ =
            ({ text, endRecord := (Scanner.behindDelimiter (byte :: rest)).2,
                endInput := (Scanner.behindDelimiter (byte :: rest)).2 && decide ((Scanner.behindDelimiter (byte :: rest)).1 = []),
                ok := true },
              { slice with
                finished := (Scanner.behindDelimiter (byte :: rest)).2 && decide ((Scanner.behindDelimiter (byte :: rest)).1 = [])
                offset := slice.source.length - (Scanner.behindDelimiter (byte :: rest)).1.length }) := by
          simp [Scanner.field, hbyte]
        have hbehind := (Scanner.behindDelimiter_suffix (byte :: rest)).trans hsuffix
        rw [hslice]
        rcases of_decide_eq_true hbyte with rfl | rfl | rfl
        · have hstream : stream.streamField quoted true false 44 text =
              ({ text, ok := true }, { stream with recordEnded := false }) := by
            simp [StreamScanner.streamField, hbyte, hopen]
          rw [hstream]
          exact ⟨rfl, agree_behind hinput hkind hnone hopen hbefore hbehind false⟩
        · obtain ⟨state, hread, hleft, hlook', hkeeps⟩ := StreamScanner.streamByte_spec hinput hbefore
          have hopen' := hkeeps.finished.trans hopen
          have hkind' := hkeeps.kind.trans hkind
          have hinput' : Io.Delivers state.input Left := hkeeps.input ▸ hinput
          cases rest with
          | nil =>
            have hstream : stream.streamField quoted true false 13 text =
                ({ text, endRecord := true, endInput := true, ok := true },
                  { state with recordEnded := true, finished := true }) := by
              simp [StreamScanner.streamField, hbyte, hread, StreamScanner.firstOf]
            rw [hstream]
            exact ⟨rfl, hinput', hkind', .inl ⟨rfl, rfl⟩⟩
          | cons after behind =>
            by_cases hafter : after = 10
            · have hstream : stream.streamField quoted true false 13 text =
                  ({ text, endRecord := true, ok := true }, { state with recordEnded := true }) := by
                simp [StreamScanner.streamField, hbyte, hread, StreamScanner.firstOf, hafter, hopen']
              have hpair : Scanner.behindDelimiter (13 :: after :: behind) = (behind, true) := by
                simp [Scanner.behindDelimiter, hafter]
              rw [hpair] at hbehind ⊢
              rw [hstream]
              exact ⟨rfl, agree_behind hinput' hkind' hnone hopen' hleft hbehind true⟩
            have hstream : stream.streamField quoted true false 13 text =
                ({ text, endRecord := true, ok := true }, { state.streamUnread after with recordEnded := true }) := by
              simp [StreamScanner.streamField, hbyte, hread, StreamScanner.firstOf, hafter, hopen',
                StreamScanner.streamUnread]
            have hpair : Scanner.behindDelimiter (13 :: after :: behind) = (after :: behind, true) := by
              simp [Scanner.behindDelimiter, hafter]
            rw [hpair] at hbehind ⊢
            rw [hstream]
            have hunread : Io.Delivers (state.streamUnread after).input Left := hinput'
            exact ⟨rfl, agree_behind hunread hkind' hnone hopen' (hleft.unread hlook' after) hbehind true⟩
        · have hstream : stream.streamField quoted true false 10 text =
              ({ text, endRecord := true, ok := true }, { stream with recordEnded := true }) := by
            simp [StreamScanner.streamField, hbyte, hopen]
          rw [hstream]
          exact ⟨rfl, agree_behind hinput hkind hnone hopen hbefore hbehind true⟩
      · cases quoted with
        | false => exact absurd (hdelimiter rfl byte rfl) hbyte
        | true =>
          have hstream : stream.streamField true true false byte text = stream.streamFail .Syntax := by
            simp [StreamScanner.streamField, hbyte]
          have hslice : slice.field true ⟨byte :: rest, text, true⟩ = slice.fail .Syntax := by
            simp [Scanner.field, hbyte]
          rw [hstream, hslice]
          exact agree_fail hinput .Syntax

/-- What `next_stream` makes of the end of its loop. -/
def loopField (quoted : Bool) : LoopEnd × StreamScanner σ → Field × StreamScanner σ
  | (.failed, state) => (state.failure, state)
  | (.error kind, state) => state.streamFail kind
  | (.stopped closed inputEnded delimiter text, state) => state.streamField quoted closed inputEnded delimiter text

/-- What `next` makes of the end of its loop. -/
def stopField (state : Scanner) (quoted : Bool) : Except ErrorKind Scanner.Stop → Field × Scanner
  | .error kind => state.fail kind
  | .ok stop => state.field quoted stop

/-- **One call of each scanner gives the same**, and they agree again. -/
theorem Agree.next (h : Agree Left stream slice) (capacity : Nat) :
    (stream.nextStream capacity).1.view = (slice.next capacity).1.view ∧
      Agree Left (stream.nextStream capacity).2 (slice.next capacity).2 := by
  obtain ⟨hinput, hkind, hstanding⟩ := h
  rcases hstanding with ⟨hslice, hstream⟩ | ⟨hopen, hnone, ⟨hslice, hbefore, hended⟩ | ⟨hslice, hbefore, hended⟩⟩
  · rw [Scanner.next, if_pos hslice, StreamScanner.nextStream, if_pos hstream]
    exact ⟨congrArg Except.error hkind, hinput, hkind, .inl ⟨hslice, hstream⟩⟩
  · obtain ⟨state, hread, -, -, hkeeps⟩ := StreamScanner.streamByte_spec hinput hbefore
    have hrecord := hkeeps.recordEnded.trans hended
    rw [Scanner.next, if_pos hslice, StreamScanner.nextStream, if_neg (by rw [hopen]; exact Bool.false_ne_true), hread]
    simp only [StreamScanner.firstOf, Bool.not_true, Bool.false_eq_true, if_false, if_true, hrecord]
    exact ⟨congrArg Except.error hnone.symm, hkeeps.input ▸ hinput, hkeeps.kind.trans hkind, .inl ⟨hslice, rfl⟩⟩
  obtain ⟨state, hread, hleft, hlook, hkeeps⟩ := StreamScanner.streamByte_spec hinput hbefore
  have hinput' : Io.Delivers state.input Left := hkeeps.input ▸ hinput
  have hkind' := hkeeps.kind.trans hkind
  rw [Scanner.next, if_neg (by rw [hslice]; exact Bool.false_ne_true), StreamScanner.nextStream,
    if_neg (by rw [hopen]; exact Bool.false_ne_true), hread]
  cases hbytes : slice.source.drop slice.offset with
  | nil =>
    have hrecord := hkeeps.recordEnded.trans (hended hbytes)
    simp only [StreamScanner.firstOf, Bool.not_true, Bool.false_eq_true, if_false, if_true, hrecord]
    exact ⟨rfl, hinput', hkind', .inl ⟨rfl, rfl⟩⟩
  | cons first rest =>
    rw [hbytes, tail_cons] at hleft
    let start := if decide (first = 34) then state else state.streamUnread first
    let bytes := if decide (first = 34) then rest else first :: rest
    have hstart : start.Before Left bytes ∧ state.Keeps start := by
      by_cases hquote : first = 34
      · simp only [start, bytes, decide_eq_true hquote, if_true]
        exact ⟨hleft, rfl, rfl, rfl, rfl⟩
      · simp only [start, bytes, decide_eq_false hquote, Bool.false_eq_true, if_false]
        exact ⟨hleft.unread hlook first, rfl, rfl, rfl, rfl⟩
    have hkeepsStart := hkeeps.trans hstart.2
    have hinputStart : Io.Delivers start.input Left := hkeepsStart.input ▸ hinput
    obtain ⟨last, hloop, hkeepsLast, hstop⟩ :=
      StreamScanner.streamLoop_spec (decide (first = 34)) capacity hinputStart hstart.1
        (show ([] : List UInt8).length + capacity = capacity from Nat.zero_add _)
    have hkeepsAll := hkeepsStart.trans hkeepsLast
    have hinputLast : Io.Delivers last.input Left := hkeepsAll.input ▸ hinput
    have hquoted : decide ((first :: rest).head? = some 34) = decide (first = 34) := by simp
    simp only [StreamScanner.firstOf, Bool.not_true, Bool.false_eq_true, if_false, hquoted, tail_cons]
    suffices hresult : ∀ result, Scanner.loop (decide (first = 34)) capacity bytes [] = result →
        (loopField (decide (first = 34)) (StreamScanner.endOf result, last)).1.view =
            (stopField slice (decide (first = 34)) result).1.view ∧
          Agree Left (loopField (decide (first = 34)) (StreamScanner.endOf result, last)).2
            (stopField slice (decide (first = 34)) result).2 by
      have hagree := hresult _ rfl
      rw [← hloop] at hagree
      exact hagree
    intro result hres
    cases result with
    | error kind => exact agree_fail hinputLast kind
    | ok stop =>
      have hbehind : stop.rest <:+ slice.source := by
        have hbytesSuffix : bytes <:+ slice.source := by
          refine List.IsSuffix.trans ?_ (hbytes ▸ drop_suffix slice.offset slice.source)
          simp only [bytes]
          split_ifs
          · exact suffix_cons _ _
          · exact suffix_refl _
        exact (Scanner.loop_suffix bytes [] hres).trans hbytesSuffix
      refine agree_field hinputLast (hkeepsAll.kind.trans hkind) hnone (hkeepsAll.finished.trans hopen) (hstop stop hres).1
        hbehind fun hfalse byte hhead => ?_
      rw [hfalse] at hres
      exact Scanner.loop_delimiter bytes [] hres hhead

/-- **Any calls of both scanners give the same fields and errors.** -/
theorem Agree.nextAll (h : Agree Left stream slice) (capacities : List Nat) :
    (stream.nextStreamAll capacities).1.map Field.view = (slice.nextAll capacities).1.map Field.view ∧
      Agree Left (stream.nextStreamAll capacities).2 (slice.nextAll capacities).2 := by
  induction capacities generalizing stream slice with
  | nil => exact ⟨rfl, h⟩
  | cons capacity rest ih =>
    obtain ⟨hview, hagree⟩ := h.next capacity
    obtain ⟨hviews, hlast⟩ := ih hagree
    rw [StreamScanner.nextStreamAll, Scanner.nextAll]
    rw [map_cons, map_cons, hview, hviews]
    exact ⟨rfl, hlast⟩

theorem agree_start {reader : Io.Reader σ} (hreader : Io.Delivers reader Left) {data : σ} {source : List UInt8}
    (hdata : Left data source) : Agree Left (streamScanner reader data) (scanner source) := by
  refine ⟨hreader, rfl, .inr ⟨rfl, rfl, .inr ⟨rfl, ⟨source, hdata, fun hended => ?_, rfl⟩, fun _ => rfl⟩⟩⟩
  cases hended

end Dyn.Csv
