import Dyn.Compress.Engine
import Dyn.Mem.Trial

/-!
# std/compress/deflate: inflation into an arena, gzip members

`inflate` and `gunzip` do not know the size of their output.  They decode into a trial
block of the arena and retry with a larger one while the block fills up.

The rounds of `grow_until_done` are those of `Mem.trialLoop`.
-/

namespace Dyn.Compress

open Lib Mem

/-- Output in the arena and the input bytes used. -/
structure Inflated where
  value : List UInt8 := []
  consumed : Nat := 0
  ok : Bool := false
deriving DecidableEq, Repr

/-- One decoding into a trial block: its result, whether the block was too small, and the
bytes of the block afterwards. -/
structure Attempt where
  result : Result
  full : Bool
  bytes : Nat → UInt8

/-- The loop of `grow_until_done`; `w + 2` rounds exhaust every arena. -/
def growLoop (w : Nat) (room : Room) (attempt : Nat → (Nat → UInt8) → Attempt) :
    Nat → Nat → Except Panic Inflated
  | 0, _ => .error "arena exhausted"
  | fuel + 1, capacity =>
      if capacity > 0 then
        match room.push capacity with
        | none => .error "arena exhausted or alignment invalid"
        | some space =>
            let trial := attempt capacity space
            if trial.result.ok then
              .ok ⟨(List.range trial.result.written).map trial.bytes, trial.result.consumed, true⟩
            else if !trial.full then .ok {}
            else
              match trialNext w room capacity with
              | .error e => .error e
              | .ok capacity => growLoop w room attempt fuel capacity
      else .error "arena exhausted"

/-- `grow_until_done`, with the decoder of one trial as its argument. -/
def growUntilDone (w : Nat) (room : Room) (input : List UInt8)
    (attempt : Nat → (Nat → UInt8) → Attempt) : Except Panic Inflated :=
  if 4 * input.length + 1024 > maximum w then .error "integer overflow"
  else growLoop w room attempt (w + 2) (trialSize room (4 * input.length + 1024))

def inflateAttempt (input : List UInt8) (capacity : Nat) (space : Nat → UInt8) : Attempt :=
  let (result, engine, bytes) := resume {} capacity space input
  ⟨result, decide (engine.error = -28), bytes⟩

def inflate (w : Nat) (room : Room) (input : List UInt8) : Except Panic Inflated :=
  growUntilDone w room input (inflateAttempt input)

def crcBits : Nat → UInt32 → UInt32
  | 0, crc => crc
  | n + 1, crc =>
      crcBits n (if crc &&& 1 ≠ 0 then (crc >>> 1) ^^^ 3988292384 else crc >>> 1)

def crcByte (previous : UInt32) (byte : UInt8) : UInt32 :=
  crcBits 8 (previous ^^^ byte.toUInt32)

def crc32 (input : List UInt8) : UInt32 :=
  input.foldl crcByte 4294967295 ^^^ 4294967295

def little32 (input : List UInt8) (at_ : Nat) : Nat :=
  byteAt input at_ + byteAt input (at_ + 1) * 256 + byteAt input (at_ + 2) * 65536 +
    byteAt input (at_ + 3) * 16777216

structure GzipState where
  engine : InflateState := {}
  stage : Nat := 0
  at_ : Nat := 0
  flags : Nat := 0
  error : Int := 0
deriving DecidableEq, Repr

/-- The scan for the zero byte that ends a text field. -/
def skipText (input : List UInt8) : Nat → Nat → Nat
  | 0, at_ => at_
  | fuel + 1, at_ =>
      if at_ < input.length ∧ byteAt input at_ ≠ 0 then skipText input fuel (at_ + 1) else at_

/-- A text field of the header, if its flag is set. -/
def gzipText (input : List UInt8) (flag : Nat) (state : GzipState) : Bool × GzipState :=
  if state.flags &&& flag ≠ 0 then
    let at_ := skipText input input.length state.at_
    if at_ = input.length then (true, { state with at_ := at_ })
    else (false, { state with at_ := at_ + 1, stage := state.stage + 1 })
  else (false, { state with stage := state.stage + 1 })

/-- The checksum of the header, if there is one. -/
def gzipCheck (input : List UInt8) (state : GzipState) : Bool × GzipState :=
  if state.flags &&& 2 ≠ 0 then
    if state.at_ + 2 > input.length then (true, state)
    else
      let expected := byteAt input state.at_ + byteAt input (state.at_ + 1) * 256
      if (crc32 (input.take state.at_)).toNat &&& 65535 ≠ expected then
        (false, { state with error := -74 })
      else (false, { state with at_ := state.at_ + 2, stage := 5 })
  else (false, { state with stage := 5 })

/-- One round of the header loop; the flag says that the function returns for want of
input. -/
def gzipRound (input : List UInt8) (state : GzipState) : Bool × GzipState :=
  if state.stage = 0 then
    if input.length < 10 then (true, state)
    else if byteAt input 0 ≠ 31 ∨ byteAt input 1 ≠ 139 ∨ byteAt input 2 ≠ 8 ∨
        byteAt input 3 &&& 224 ≠ 0 then
      (false, { state with error := -74 })
    else (false, { state with flags := byteAt input 3, at_ := 10, stage := 1 })
  else if state.stage = 1 then
    if state.flags &&& 4 ≠ 0 then
      if state.at_ + 2 > input.length then (true, state)
      else
        let extra := byteAt input state.at_ + byteAt input (state.at_ + 1) * 256
        if extra > input.length - state.at_ - 2 then (true, state)
        else (false, { state with at_ := state.at_ + (2 + extra), stage := 2 })
    else (false, { state with stage := 2 })
  else if state.stage = 2 ∨ state.stage = 3 then
    gzipText input (if state.stage = 3 then 16 else 8) state
  else gzipCheck input state

/-- The header loop: every round moves to the next stage. -/
def gzipLoop (input : List UInt8) : Nat → GzipState → Bool × GzipState
  | 0, state => (false, state)
  | fuel + 1, state =>
      if state.stage < 5 ∧ state.error = 0 then
        match gzipRound input state with
        | (true, state) => (true, state)
        | (false, state) => gzipLoop input fuel state
      else (false, state)

/-- The part of `resume_gzip` behind the header. -/
def gzipBody (state : GzipState) (capacity : Nat) (destination : Nat → UInt8)
    (input : List UInt8) : Result × GzipState × (Nat → UInt8) :=
  let (body, engine, destination) :=
    resume state.engine capacity destination (input.drop state.at_)
  let state :=
    { state with engine := engine, error := if engine.error ≠ 0 then engine.error else state.error }
  let trailer := state.at_ + body.consumed
  if !body.ok ∨ input.length - trailer < 8 then
    (⟨body.written, trailer, false⟩, state, destination)
  else if state.stage ≠ 6 ∧
      (little32 input trailer ≠
          (crc32 ((List.range body.written).map destination)).toNat ∨
        little32 input (trailer + 4) ≠ body.written % 2 ^ 32) then
    (⟨body.written, trailer, false⟩, { state with error := -74 }, destination)
  else (⟨body.written, trailer + 8, true⟩, { state with stage := 6 }, destination)

def resumeGzip (state : GzipState) (capacity : Nat) (destination : Nat → UInt8)
    (input : List UInt8) : Result × GzipState × (Nat → UInt8) :=
  match gzipLoop input 5 state with
  | (true, state) => ({}, state, destination)
  | (false, state) =>
      if state.error ≠ 0 then ({}, state, destination)
      else gzipBody state capacity destination input

def gunzipAttempt (input : List UInt8) (capacity : Nat) (space : Nat → UInt8) : Attempt :=
  let (result, member, bytes) := resumeGzip {} capacity space input
  ⟨result, decide (member.engine.error = -28 ∨ member.error = -28), bytes⟩

def gunzip (w : Nat) (room : Room) (input : List UInt8) : Except Panic Inflated :=
  growUntilDone w room input (gunzipAttempt input)

/-- What the rounds need to know of a decoder: there is a size from which on it gives one
answer, and below which it reports a full block. -/
structure Settles (attempt : Nat → (Nat → UInt8) → Attempt) (size : Nat)
    (answer : Inflated) : Prop where
  answers : ∀ capacity space, size ≤ capacity →
    ((attempt capacity space).result.ok = answer.ok ∧
      (answer.ok = true →
        (List.range (attempt capacity space).result.written).map (attempt capacity space).bytes =
            answer.value ∧
          (attempt capacity space).result.consumed = answer.consumed) ∧
      (answer.ok = false → answer = {} ∧ (attempt capacity space).full = false))
  full : ∀ capacity space, capacity < size →
    (attempt capacity space).result.ok = false ∧ (attempt capacity space).full = true

/-- What a trial block of `grow_until_done` gives: an answer, or nothing if it is too small. -/
def settled (attempt : Nat → (Nat → UInt8) → Attempt) (capacity : Nat) (space : Nat → UInt8) :
    Option Inflated :=
  let trial := attempt capacity space
  if trial.result.ok then
    some ⟨(List.range trial.result.written).map trial.bytes, trial.result.consumed, true⟩
  else if !trial.full then some {}
  else none

theorem growLoop_eq (w : Nat) (room : Room) (attempt : Nat → (Nat → UInt8) → Attempt) :
    ∀ fuel capacity,
      growLoop w room attempt fuel capacity = trialLoop w room (settled attempt) fuel capacity
  | 0, _ => rfl
  | fuel + 1, capacity => by
    rw [growLoop, trialLoop]
    cases room.push capacity with
    | none => rfl
    | some space =>
      dsimp only [settled]
      split_ifs
      · rfl
      · rfl
      · cases hnext : trialNext w room capacity with
        | error e => rfl
        | ok next => exact growLoop_eq w room attempt fuel next
      · rfl

variable {attempt : Nat → (Nat → UInt8) → Attempt} {input : List UInt8}

variable {size : Nat} {answer : Inflated} {w : Nat} {room : Room} {result : Inflated}

theorem Settles.trial (h : Settles attempt size answer) :
    Trial (settled attempt) size answer where
  sound capacity space result hrun := by
    unfold settled at hrun
    dsimp only at hrun
    by_cases hsize : size ≤ capacity
    · obtain ⟨hok, hyes, hno⟩ := h.answers capacity space hsize
      rw [hok] at hrun
      cases ha : answer.ok with
      | true =>
        obtain ⟨hvalue, hconsumed⟩ := hyes ha
        rw [ha, if_pos rfl, hvalue, hconsumed] at hrun
        cases hrun
        rw [← ha]
      | false =>
        obtain ⟨hempty, hfull⟩ := hno ha
        rw [ha, hfull] at hrun
        cases hrun
        rw [hempty]
    · obtain ⟨hok, hfull⟩ := h.full capacity space (by omega)
      rw [hok, hfull] at hrun
      cases hrun
  enough capacity space hsize := by
    obtain ⟨hok, hyes, hno⟩ := h.answers capacity space hsize
    unfold settled
    dsimp only
    rw [hok]
    cases ha : answer.ok with
    | true =>
      obtain ⟨hvalue, hconsumed⟩ := hyes ha
      rw [if_pos rfl, hvalue, hconsumed, ← ha]
    | false =>
      obtain ⟨hempty, hfull⟩ := hno ha
      rw [hfull, hempty]
      rfl

/-- **`grow_until_done` gives the answer of its decoder,** in every arena with room. -/
theorem growUntilDone_ok (h : Settles attempt size answer) (hroom : room.Holds w (4 * input.length + 1024) size)
    (hinput : 4 * input.length + 1024 ≤ maximum w) :
    growUntilDone w room input attempt = .ok answer := by
  unfold growUntilDone
  rw [if_neg (by omega), growLoop_eq]
  exact trialLoop_size h.trial hroom (by omega)

theorem growUntilDone_some (h : Settles attempt size answer)
    (hrun : growUntilDone w room input attempt = .ok result) : result = answer := by
  unfold growUntilDone at hrun
  split_ifs at hrun
  rw [growLoop_eq] at hrun
  exact trialLoop_some h.trial hrun

theorem inflate_settles {c : Config} (hruns : Runs (.start input) c) (hdone : c.stage = 3) :
    Settles (inflateAttempt input) c.out.length
      ⟨c.out, input.length - c.bits.length / 8, true⟩ where
  answers capacity space hcap := by
    obtain ⟨h1, h2⟩ := resume_of_runs hruns hdone hcap space
    refine ⟨congrArg Result.ok h1, fun _ => ⟨?_, congrArg Result.consumed h1⟩, nofun⟩
    change (List.range (resume {} capacity space input).1.written).map _ = _
    rw [h1]
    exact h2
  full capacity space hcap := by
    rcases resume_complete hruns hdone capacity space with ⟨_, hle⟩ | ⟨_, hok, herr⟩
    · omega
    · exact ⟨hok, decide_eq_true herr⟩

theorem inflate_settles_stuck {c : Config} (hruns : Runs (.start input) c) (hs : c.stage ≠ 3)
    (hstuck : ∀ d, absRound c ≠ .more d) : Settles (inflateAttempt input) c.out.length {} := by
  have key : ∀ capacity space, (resume {} capacity space input).1.ok = false ∧
        ((resume {} capacity space input).2.1.error = -28 ↔ capacity < c.out.length) := by
    intro capacity space
    obtain ⟨d, stop, hd, hle, hrep⟩ := resume_spec input capacity space
    have hlin : Runs d c := by
      rcases hd.linear hruns with hr | hr
      · exact hr
      · rw [hr.eq_of_stuck hstuck]
        exact Runs.refl c
    have hend : (∀ e, absRound d ≠ .more e) → d = c := fun hno => (hlin.eq_of_stuck hno).symm
    cases stop with
    | done => exact absurd ((hlin.eq_of_done hrep.1) ▸ hrep.1) hs
    | short | invalid =>
      obtain ⟨_, hn, hok, herr⟩ := hrep
      have := hend (fun e he => by rw [hn] at he; cases he)
      subst this
      exact ⟨hok, by rw [herr]; constructor <;> intro h <;> first | cases h | omega⟩
    | full =>
      obtain ⟨-, ⟨e, he, hover⟩, hok, herr⟩ := hrep
      refine ⟨hok, fun _ => ?_, fun _ => herr⟩
      cases hlin with
      | refl => exact absurd he (hstuck e)
      | step _ he' hrest =>
        rw [he] at he'
        injection he' with he'
        subst he'
        have := hrest.out_prefix.length_le
        omega
  refine ⟨fun capacity space hcap => ?_, fun capacity space hcap => ?_⟩
  · obtain ⟨hok, herr⟩ := key capacity space
    have hfit : ¬ (resume {} capacity space input).2.1.error = -28 :=
      fun h => absurd (herr.mp h) (by omega)
    exact ⟨hok, nofun, fun _ => ⟨rfl, decide_eq_false hfit⟩⟩
  · obtain ⟨hok, herr⟩ := key capacity space
    exact ⟨hok, decide_eq_true (herr.mpr hcap)⟩

theorem exists_end (input : List UInt8) :
    ∃ c, Runs (.start input) c ∧ (c.stage = 3 ∨ c.stage ≠ 3 ∧ ∀ d, absRound c ≠ .more d) := by
  have key : ∀ (n : Nat) (c : Config), c.fuel ≤ n →
      ∃ d, Runs c d ∧ (d.stage = 3 ∨ d.stage ≠ 3 ∧ ∀ e, absRound d ≠ .more e) := by
    intro n
    induction n with
    | zero =>
      intro c hc
      refine ⟨c, Runs.refl c, ?_⟩
      by_cases hs : c.stage = 3
      · exact .inl hs
      refine .inr ⟨hs, fun e he => ?_⟩
      have := absRound_fuel he
      omega
    | succ n ih =>
      intro c hc
      by_cases hs : c.stage = 3
      · exact ⟨c, Runs.refl c, .inl hs⟩
      cases hn : absRound c with
      | more d =>
        have := absRound_fuel hn
        obtain ⟨e, he, hend⟩ := ih d (by omega)
        exact ⟨e, Runs.step hs hn he, hend⟩
      | short =>
        exact ⟨c, Runs.refl c, .inr ⟨hs, fun e he => by rw [hn] at he; cases he⟩⟩
      | bad => exact ⟨c, Runs.refl c, .inr ⟨hs, fun e he => by rw [hn] at he; cases he⟩⟩
  exact key _ _ le_rfl

/-- **What `inflate` returns.**  A result that is `ok` is the output of the engine's run to
the end of the stream; one that is not means that there is no such run. -/
theorem inflate_result (h : inflate w room input = .ok result) :
    if result.ok then
      ∃ c, Runs (.start input) c ∧ c.stage = 3 ∧
        result = ⟨c.out, input.length - c.bits.length / 8, true⟩
    else result = {} ∧ ∀ c, Runs (.start input) c → c.stage ≠ 3 := by
  obtain ⟨c, hruns, hdone | ⟨hs, hstuck⟩⟩ := exists_end input
  · have := growUntilDone_some (inflate_settles hruns hdone) h
    rw [this, if_pos rfl]
    exact ⟨c, hruns, hdone, rfl⟩
  have := growUntilDone_some (inflate_settles_stuck hruns hs hstuck) h
  rw [this, if_neg (by decide)]
  refine ⟨rfl, fun d hd hd3 => ?_⟩
  rcases hd.linear hruns with hr | hr
  · exact hs ((hr.eq_of_done hd3) ▸ hd3)
  · rw [hr.eq_of_stuck hstuck] at hd3
    exact hs hd3

end Dyn.Compress
