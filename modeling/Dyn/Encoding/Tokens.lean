import Dyn.Encoding.Output
import Dyn.Lib.Sequence

/-!
# std/encoding: token readers and writers

The readers of CBOR, MessagePack and protobuf are one loop around a function that reads an
item and a state that accepts it; their encoders are one pair of passes, the first of which
runs the same state and adds up sizes.  Each of them is an instance of the definitions here.

The state stands for a state of a grammar (`Sequence.Grammar`): reading to a clean end is
reading by the grammar, and what is written is what the grammar accepts.
-/

namespace Dyn.Encoding

open List
open Mem (Panic Room maximum)
open Sequence (Grammar Reads Drains Steps)

/-- What a call of `next` returns. -/
structure ReadResult (τ : Type) [Inhabited τ] where
  value : τ := default
  kind : Errors.Kind := .None
  offset : Nat := 0
  ok : Bool := false

structure Reader (σ : Type) where
  /-- The source from `offset` on. -/
  rest : List UInt8
  offset : Nat := 0
  stack : σ
  failed : Bool := false
  errorKind : Errors.Kind := .None
  errorOffset : Nat := 0

/-- How reading an item fails: offset from its first byte, and kind. -/
abbrev Failure := Nat × Errors.Kind

section Readers

variable {σ τ γ : Type} [Inhabited τ]

def ReadResult.item (result : ReadResult τ) : Option τ :=
  if result.ok then some result.value else none

/-- No token and no error: the end of the input. -/
def ReadResult.Clean (result : ReadResult τ) : Prop := result.ok = false ∧ result.kind = .None

def fail (state : Reader σ) (offset : Nat) (kind : Errors.Kind) : ReadResult τ × Reader σ :=
  ({ kind := kind, offset := offset },
    { state with failed := true, errorKind := kind, errorOffset := offset })

/-- The loop that the readers share; `trim` is what the end of the input does to the stack. -/
def nextWith (item : UInt8 → List UInt8 → Except Failure (τ × Nat × List UInt8))
    (accept : σ → τ → Errors.Kind × σ) (trim : σ → σ) (complete : σ → Bool) (state : Reader σ) :
    ReadResult τ × Reader σ :=
  if state.failed then ({ kind := state.errorKind, offset := state.errorOffset }, state)
  else
    let start := state.offset
    match state.rest with
    | [] =>
        let state := { state with stack := trim state.stack }
        if complete state.stack then ({ offset := start }, state)
        else fail state start .InvalidInput
    | tag :: rest =>
        match item tag rest with
        | .error (at_, kind) => fail state (start + at_) kind
        | .ok (token, size, rest) =>
            match accept state.stack token with
            | (.None, stack) =>
                ({ value := token, offset := start, ok := true },
                  { state with stack := stack, rest := rest, offset := start + size })
            | (kind, stack) => fail { state with stack := stack } start kind

/-- Calls that give these tokens and then a clean end. -/
abbrev Ends (next : Reader σ → ReadResult τ × Reader σ) : Reader σ → List τ → Prop :=
  Drains next ReadResult.item ReadResult.Clean

def readItem (g : Grammar γ τ) (item : UInt8 → List UInt8 → Except Failure (τ × Nat × List UInt8))
    (c : γ) : List UInt8 → Option (τ × γ × List UInt8)
  | [] => none
  | tag :: rest =>
      match item tag rest with
      | .error _ => none
      | .ok (token, _, rest) => (g.permit c token).map fun c' => (token, c', rest)

variable {g : Grammar γ τ} {bytes : List UInt8} {accept : σ → τ → Errors.Kind × σ} {trim : σ → σ}
  {complete : σ → Bool} {R : σ → γ → Prop}

omit [Inhabited τ] in
theorem readItem_eq_some {item : UInt8 → List UInt8 → Except Failure (τ × Nat × List UInt8)}
    {c c' : γ} {rest : List UInt8} {token : τ}
    (h : readItem g item c bytes = some (token, c', rest)) :
    g.permit c token = some c' ∧ ∃ tag tail n, bytes = tag :: tail ∧
      item tag tail = .ok (token, n, rest) := by
  cases bytes with
  | nil => cases h
  | cons tag tail =>
    rw [readItem] at h
    split at h
    · cases h
    rename_i token' n rest' hitem
    obtain ⟨after, hpermit, hafter⟩ := Option.map_eq_some_iff.mp h
    cases hafter
    exact ⟨hpermit, tag, tail, n, rfl, hitem⟩

/-- A reader whose stack stands for a state of the grammar. -/
structure Follows (item : UInt8 → List UInt8 → Except Failure (τ × Nat × List UInt8))
    (accept : σ → τ → Errors.Kind × σ) (trim : σ → σ) (complete : σ → Bool)
    (g : Grammar γ τ) (R : σ → γ → Prop) : Prop where
  error : ∀ {tag : UInt8} {rest : List UInt8} {e : Failure}, item tag rest = .error e →
    e.2 ≠ .None
  admits : ∀ {tag : UInt8} {rest after : List UInt8} {t : τ} {n : Nat} {s : σ} {c c' : γ},
    item tag rest = .ok (t, n, after) → R s c → g.permit c t = some c' →
      ∃ s', accept s t = (.None, s') ∧ R s' c'
  rejects : ∀ {tag : UInt8} {rest after : List UInt8} {t : τ} {n : Nat} {s : σ} {c : γ},
    item tag rest = .ok (t, n, after) → R s c → g.permit c t = none → (accept s t).1 ≠ .None
  complete_iff : ∀ {s : σ} {c : γ}, R s c → (complete (trim s) = true ↔ g.closed c)

/-- The reader in a state of the grammar. -/
structure At (R : σ → γ → Prop) (state : Reader σ) (c : γ) (rest : List UInt8) : Prop where
  fresh : state.failed = false
  rest : state.rest = rest
  stack : R state.stack c

theorem Follows.steps {item : UInt8 → List UInt8 → Except Failure (τ × Nat × List UInt8)}
    (h : Follows item accept trim complete g R) :
    Steps (nextWith item accept trim complete) ReadResult.item ReadResult.Clean g.closed
      (readItem g item) (At R) where
  some := by
    intro state c bytes t c' rest hat hread
    obtain ⟨hpermit, tag, tail, n, rfl, hitem⟩ := readItem_eq_some hread
    obtain ⟨s', haccept, hr⟩ := h.admits hitem hat.stack hpermit
    refine ⟨cons_ne_nil _ _, ?_⟩
    unfold nextWith
    rw [hat.fresh, hat.rest]
    simp only [Bool.false_eq_true, if_false, hitem, haccept]
    exact ⟨rfl, fun hc => Bool.noConfusion hc.1, rfl, rfl, hr⟩
  none := by
    intro state c bytes hat hread
    unfold nextWith
    rw [hat.fresh, hat.rest]
    cases bytes with
    | nil =>
      have hiff := h.complete_iff hat.stack
      simp only [Bool.false_eq_true, if_false]
      split_ifs with hc
      · exact ⟨rfl, fun _ => ⟨trivial, hiff.mp hc⟩, fun _ => ⟨rfl, rfl⟩⟩
      · refine ⟨rfl, fun hclean => ?_, fun hclosed => absurd (hiff.mpr hclosed.2) hc⟩
        cases hclean.2
    | cons tag tail =>
      rw [readItem] at hread
      simp only [Bool.false_eq_true, if_false]
      cases hitem : item tag tail with
      | error e =>
        have hkind : e.2 ≠ .None := h.error hitem
        exact ⟨rfl, fun hclean => absurd hclean.2 hkind, fun hnil => nomatch hnil.1⟩
      | ok r =>
        obtain ⟨t, n, rest⟩ := r
        rw [hitem] at hread
        have hne := h.rejects hitem hat.stack (Option.map_eq_none_iff.mp hread)
        dsimp only
        generalize accept state.stack t = accepted at hne ⊢
        obtain ⟨kind, stack⟩ := accepted
        cases kind with
        | None => exact absurd rfl hne
        | _ =>
          refine ⟨rfl, fun hclean => ?_, fun hnil => ?_⟩
          · cases hclean.2
          · cases hnil.1

theorem Follows.ends_iff {item : UInt8 → List UInt8 → Except Failure (τ × Nat × List UInt8)}
    (h : Follows item accept trim complete g R) {state : Reader σ} {c : γ} {tokens : List τ}
    (hat : At R state c bytes) :
    Ends (nextWith item accept trim complete) state tokens ↔
      Reads g.closed (readItem g item) c bytes tokens :=
  h.steps.drains_iff hat

end Readers

section Passes

variable {σ τ : Type}

/-- The first pass of an encoder: the state behind the items, and the size of their bytes.
Errors name the index of the item. -/
def measure (w : Nat) (step : σ → τ → Except Errors.Kind (σ × Nat)) :
    List τ → Nat → σ → Nat → Except EncodeResult (σ × Nat)
  | [], _, state, size => .ok (state, size)
  | t :: ts, i, state, size =>
      match step state t with
      | .error kind => .error { kind := kind, offset := i }
      | .ok (state, count) =>
          if count > maximum w - size then .error { kind := .Overflow, offset := i }
          else measure w step ts (i + 1) state (size + count)

/-- The second pass, into a block of the measured size. -/
def writeAll (write : List UInt8 → τ → Except Panic (List UInt8)) :
    List UInt8 → List τ → Except Panic (List UInt8)
  | output, [] => .ok output
  | output, t :: ts => do
      let output ← write output t
      writeAll write output ts

def encodeWith (w : Nat) (room : Room) (start : σ)
    (step : σ → τ → Except Errors.Kind (σ × Nat)) (complete : σ → Bool)
    (write : Nat → List UInt8 → τ → Except Panic (List UInt8)) (ts : List τ) :
    Except Panic EncodeResult :=
  match measure w step ts 0 start 0 with
  | .error result => .ok result
  | .ok (state, size) =>
      if complete state then do
        pushArray room size
        let output ← writeAll (write size) [] ts
        return { value := block size output, ok := true }
      else .ok { kind := .InvalidInput, offset := ts.length }

variable {w : Nat} {start : σ} {step : σ → τ → Except Errors.Kind (σ × Nat)}
variable {complete : σ → Bool} {write : Nat → List UInt8 → τ → Except Panic (List UInt8)}
variable {bytes : τ → List UInt8} {γ : Type} {g : Grammar γ τ} {R : σ → γ → Prop}

theorem writeAll_fits {total : Nat}
    (hwrite : ∀ output t, output.length + (bytes t).length ≤ total →
      write total output t = .ok (output ++ bytes t)) :
    ∀ (ts : List τ) (output : List UInt8), output.length + (ts.flatMap bytes).length ≤ total →
      writeAll (write total) output ts = .ok (output ++ ts.flatMap bytes)
  | [], output, _ => by rw [writeAll, flatMap_nil, append_nil]
  | t :: ts, output, h => by
    rw [flatMap_cons, length_append] at h
    have hfirst := hwrite output t (by omega)
    have hfits : (output ++ bytes t).length + (ts.flatMap bytes).length ≤ total := by
      rw [length_append]
      omega
    have hrest := writeAll_fits hwrite ts (output ++ bytes t) hfits
    rw [writeAll]
    simp only [hfirst, bind, Except.bind, hrest]
    rw [flatMap_cons, append_assoc]

theorem measure_error : ∀ {ts : List τ} {i size : Nat} {state : σ} {failure : EncodeResult},
    measure w step ts i state size = .error failure → failure.ok = false
  | [], _, _, _, _, h => by
    rw [measure] at h
    cases h
  | t :: ts, i, size, state, failure, h => by
    rw [measure] at h
    split at h
    · injection h with h
      rw [← h]
    split_ifs at h
    · injection h with h
      rw [← h]
    · exact measure_error h

/-- An encoder whose first pass is a grammar, and counts the bytes of the second. -/
structure Encodes (w : Nat) (step : σ → τ → Except Errors.Kind (σ × Nat)) (complete : σ → Bool)
    (write : Nat → List UInt8 → τ → Except Panic (List UInt8)) (bytes : τ → List UInt8)
    (g : Grammar γ τ) (R : σ → γ → Prop) : Prop where
  sound : ∀ {s s' : σ} {c : γ} {t : τ} {n : Nat}, R s c → step s t = .ok (s', n) →
    n = (bytes t).length ∧ ∃ c', g.permit c t = some c' ∧ R s' c'
  admits : ∀ {s : σ} {c c' : γ} {t : τ}, R s c → g.permit c t = some c' →
    (bytes t).length ≤ maximum w → ∃ s', step s t = .ok (s', (bytes t).length) ∧ R s' c'
  complete_iff : ∀ {s : σ} {c : γ}, R s c → (complete s = true ↔ g.closed c)
  write_fits : ∀ {total : Nat} (output : List UInt8) (t : τ),
    output.length + (bytes t).length ≤ total → write total output t = .ok (output ++ bytes t)

theorem Encodes.measure_accepts (h : Encodes w step complete write bytes g R) :
    ∀ {ts : List τ} {i size sum : Nat} {s s' : σ} {c : γ}, R s c →
      measure w step ts i s size = .ok (s', sum) → complete s' = true →
      g.Accepts c ts ∧ sum = size + (ts.flatMap bytes).length
  | [], i, size, sum, s, s', c, hr, hm, hc => by
    rw [measure] at hm
    cases hm
    exact ⟨(h.complete_iff hr).mp hc, rfl⟩
  | t :: ts, i, size, sum, s, s', c, hr, hm, hc => by
    rw [measure] at hm
    split at hm
    · cases hm
    rename_i hstep
    split_ifs at hm
    obtain ⟨hn, c', hpermit, hr'⟩ := h.sound hr hstep
    obtain ⟨haccepts, hsum⟩ := h.measure_accepts hr' hm hc
    refine ⟨⟨c', hpermit, haccepts⟩, ?_⟩
    rw [hsum, hn, flatMap_cons, length_append, add_assoc]

theorem Encodes.measure_passes (h : Encodes w step complete write bytes g R) :
    ∀ {ts : List τ} {i size : Nat} {s : σ} {c : γ}, R s c → g.Accepts c ts →
      size + (ts.flatMap bytes).length ≤ maximum w →
      ∃ s', measure w step ts i s size = .ok (s', size + (ts.flatMap bytes).length) ∧
        complete s' = true
  | [], i, size, s, c, hr, ha, _ => ⟨s, rfl, (h.complete_iff hr).mpr ha⟩
  | t :: ts, i, size, s, c, hr, ⟨c', hpermit, ha⟩, hfits => by
    rw [flatMap_cons, length_append] at hfits ⊢
    obtain ⟨s', hstep, hr'⟩ := h.admits hr hpermit (by omega)
    obtain ⟨last, hmeasure, hc⟩ := @Encodes.measure_passes h ts (i + 1)
      (size + (bytes t).length) s' c' hr' ha (by omega)
    refine ⟨last, ?_, hc⟩
    rw [measure, hstep]
    dsimp only
    rw [if_neg (by omega), hmeasure, add_assoc]

/-- **What the grammar accepts is written,** if its size and the arena allow it. -/
theorem Encodes.accepts (h : Encodes w step complete write bytes g R) {c : γ} {room : Room}
    {ts : List τ} (hr : R start c) (ha : g.Accepts c ts)
    (hfits : (ts.flatMap bytes).length ≤ maximum w)
    (hroom : HasRoom room (ts.flatMap bytes).length) :
    encodeWith w room start step complete write ts =
      .ok { value := ts.flatMap bytes, ok := true } := by
  obtain ⟨s', hmeasure, hc⟩ := @Encodes.measure_passes _ _ _ _ _ _ _ _ _ _ h ts 0 0 start c hr ha
    (by omega)
  rw [zero_add] at hmeasure
  have hwrite := writeAll_fits (fun output t => @Encodes.write_fits _ _ _ _ _ _ _ _ _ _ h
    (ts.flatMap bytes).length output t) ts [] (by rw [length_nil, zero_add])
  unfold encodeWith
  rw [hmeasure]
  dsimp only
  rw [if_pos hc]
  simp only [pushArray_ok hroom, hwrite, bind, Except.bind, pure, Except.pure, nil_append]
  rw [block_full rfl]

/-- **What is written is accepted by the grammar,** and fills the block that was measured. -/
theorem Encodes.accepted (h : Encodes w step complete write bytes g R) {c : γ} {room : Room}
    {ts : List τ} {result : EncodeResult} (hr : R start c)
    (he : encodeWith w room start step complete write ts = .ok result) (hok : result.ok = true) :
    g.Accepts c ts ∧ result.value = ts.flatMap bytes ∧
      ∃ state, measure w step ts 0 start 0 = .ok (state, result.value.length) ∧
        writeAll (write result.value.length) [] ts = .ok result.value := by
  unfold encodeWith at he
  cases hmeasure : measure w step ts 0 start 0 with
  | error failure =>
    rw [hmeasure] at he
    cases he
    rw [measure_error hmeasure] at hok
    cases hok
  | ok r =>
    obtain ⟨state, size⟩ := r
    rw [hmeasure] at he
    dsimp only at he
    split_ifs at he with hc
    · obtain ⟨haccepts, hsum⟩ := h.measure_accepts hr hmeasure hc
      rw [zero_add] at hsum
      have hwrite := writeAll_fits (fun output t => @Encodes.write_fits _ _ _ _ _ _ _ _ _ _ h
        size output t) ts [] (by rw [length_nil, zero_add, hsum])
      cases hpush : pushArray room size with
      | error e => simp only [hpush, bind, Except.bind] at he; cases he
      | ok space =>
        simp only [hpush, hwrite, bind, Except.bind, pure, Except.pure, nil_append] at he
        cases he
        have hblock : block size (ts.flatMap bytes) = ts.flatMap bytes := block_full hsum.symm
        rw [hblock, ← hsum]
        exact ⟨haccepts, rfl, state, rfl, hwrite⟩
    · cases he
      cases hok

end Passes

/-- A token takes 16 bytes at least, for a number and a string: source and tokens lie in one
address space of `w` bits. -/
def Resident {τ : Type} (w : Nat) (source : List UInt8) (tokens : List τ) : Prop :=
  source.length + 16 * tokens.length ≤ 2 ^ w

theorem Resident.fits {τ : Type} {w : Nat} {source : List UInt8} {tokens : List τ} {n : Nat}
    (h : Resident w source tokens) (hn : n ≤ source.length + 15 * tokens.length)
    (hnil : tokens = [] → n = 0) : n ≤ maximum w := by
  unfold Resident at h
  unfold Mem.maximum
  cases tokens with
  | nil =>
    rw [hnil rfl]
    exact Nat.zero_le _
  | cons token tokens =>
    rw [length_cons] at h hn
    omega

section Codec

variable {σ τ γ : Type} [Inhabited τ] {w : Nat} {R : σ → γ → Prop} {g : Grammar γ τ} {start : σ} {c : γ}
variable {item : UInt8 → List UInt8 → Except Failure (τ × Nat × List UInt8)}
  {accept : σ → τ → Errors.Kind × σ} {trim : σ → σ} {complete : σ → Bool}
variable {step : σ → τ → Except Errors.Kind (σ × Nat)} {done : σ → Bool}
  {write : Nat → List UInt8 → τ → Except Panic (List UInt8)} {bytes : τ → List UInt8} {norm : τ → τ}

/-- A reader and an encoder of one grammar: every item is written and read back in normal form,
and takes at most fifteen bytes more than it was read from. -/
structure Codec (w : Nat) (item : UInt8 → List UInt8 → Except Failure (τ × Nat × List UInt8))
    (accept : σ → τ → Errors.Kind × σ) (trim : σ → σ) (complete : σ → Bool)
    (step : σ → τ → Except Errors.Kind (σ × Nat)) (done : σ → Bool)
    (write : Nat → List UInt8 → τ → Except Panic (List UInt8)) (bytes : τ → List UInt8) (norm : τ → τ)
    (g : Grammar γ τ) (R : σ → γ → Prop) : Prop where
  follows : Follows item accept trim complete g R
  encodes : Encodes w step done write bytes g R
  written : ∀ {c t c'}, g.permit c t = some c' → bytes t ≠ []
  reads : ∀ {c t c' rest}, g.permit c t = some c' → g.owed c' ≤ rest.length →
    readItem g item c (bytes t ++ rest) = some (norm t, c', rest)
  normal : ∀ {tag tail t n rest}, item tag tail = .ok (t, n, rest) → norm t = t
  took : ∀ {c c' tag tail t n rest}, g.permit c t = some c' → item tag tail = .ok (t, n, rest) →
    (bytes t).length + rest.length ≤ tail.length + 16

/-- **What is written is read back, and what is read is written so that it reads the same.** -/
theorem Codec.round_trips (h : Codec w item accept trim complete step done write bytes norm g R)
    (hstart : R start c) :
    (∀ room ts result, encodeWith w room start step done write ts = .ok result → result.ok = true →
      Ends (nextWith item accept trim complete) { rest := result.value, stack := start }
        (ts.map norm)) ∧
    ∀ source ts, Ends (nextWith item accept trim complete) { rest := source, stack := start } ts →
      Resident w source ts → ∃ output,
        Ends (nextWith item accept trim complete) { rest := output, stack := start } ts ∧
          ∀ room, HasRoom room output.length →
            encodeWith w room start step done write ts = .ok { value := output, ok := true } := by
  have hends (source : List UInt8) (ts : List τ) :
      Ends (nextWith item accept trim complete) { rest := source, stack := start } ts ↔
        Reads g.closed (readItem g item) c source ts := h.follows.ends_iff ⟨rfl, rfl, hstart⟩
  have hback {ts : List τ} (haccepts : g.Accepts c ts) :
      Reads g.closed (readItem g item) c (ts.flatMap bytes) (ts.map norm) :=
    Sequence.reads_of_accepts (fun _ _ _ => h.written) (fun _ _ _ _ => h.reads) haccepts
  constructor
  · intro room ts result hencode hok
    obtain ⟨haccepts, hvalue, _⟩ := h.encodes.accepted hstart hencode hok
    rw [hvalue, hends]
    exact hback haccepts
  intro source ts hsource hresident
  rw [hends] at hsource
  obtain ⟨haccepts, hnormal⟩ := Sequence.accepts_of_reads
    (fun c bytes t after rest hread => by
      obtain ⟨hpermit, tag, tail, n, _, hitem⟩ := readItem_eq_some hread
      exact ⟨hpermit, h.normal hitem⟩) hsource
  have hlength : (ts.flatMap bytes).length ≤ source.length + 15 * ts.length := by
    rw [length_flatMap]
    refine Sequence.reads_sum_le (fun c bytes t after rest hread => ?_) hsource
    obtain ⟨hpermit, tag, tail, n, rfl, hitem⟩ := readItem_eq_some hread
    have htook := h.took hpermit hitem
    rw [length_cons]
    omega
  have hfits := hresident.fits hlength (fun hnil => by rw [hnil]; rfl)
  refine ⟨ts.flatMap bytes, ?_, fun room hroom => h.encodes.accepts hstart haccepts hfits hroom⟩
  have hreads := hback haccepts
  rw [hnormal] at hreads
  exact (hends _ _).mpr hreads

end Codec

end Dyn.Encoding
