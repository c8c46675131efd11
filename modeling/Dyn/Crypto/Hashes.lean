import Dyn.Lib.BlockStream

/-!
# std/crypto: streaming SHA-256 and SHA-512

The two streams differ in the size of a block, in how they count bytes and in what is left
behind `finish`; a `Hash` holds these.  The compression of a block may be any function.  Every
way of cutting a message into updates gives the digest of the padded message.
-/

namespace Dyn.Crypto

open List hiding Vector
open Lib.BlockStream

/-- The `count` low bytes of a number, the most significant one first. -/
def storeBE : Nat → Nat → List UInt8
  | 0, _ => []
  | count + 1, value => UInt8.ofNat (value >>> (8 * count)) :: storeBE count value

theorem storeBE_length (count value : Nat) : (storeBE count value).length = count := by
  induction count with
  | zero => rfl
  | succ count ih => rw [storeBE, length_cons, ih]

/-- What a stream depends on.  `add` counts more bytes and says whether they may be taken. -/
structure Hash (σ κ : Type) where
  size : Nat
  lengthBytes : Nat
  digestLength : Nat
  words : σ
  count : κ
  block : σ → List UInt8 → σ
  add : κ → Nat → κ × Bool
  lengthField : κ → List UInt8
  output : σ → List UInt8
  consumed : Bool

/-- The bytes of the buffer that are in use are `tail`. -/
structure Stream (σ κ : Type) where
  words : σ
  tail : List UInt8 := []
  count : κ
  initialized : Bool := false
  failed : Bool := false

variable {σ κ : Type} (H : Hash σ κ)

def init : Stream σ κ := { words := H.words, count := H.count, initialized := true }

/-- A zero stream is initialized when it is used. -/
def ready (stream : Stream σ κ) : Stream σ κ := if stream.initialized then stream else init H

def update (stream : Stream σ κ) (input : List UInt8) : Bool × Stream σ κ :=
  let stream := ready H stream
  if stream.failed then (false, stream)
  else
    let (count, fits) := H.add stream.count input.length
    if fits then
      let (words, tail) := absorb H.size H.block stream.words stream.tail input
      (true, { stream with words := words, tail := tail, count := count })
    else (false, { stream with count := count, failed := true })

/-- The slice that is returned, for a destination of so many bytes. -/
def finish (stream : Stream σ κ) (room : Nat) : List UInt8 × Stream σ κ :=
  let stream := ready H stream
  if stream.failed ∨ room < H.digestLength then ([], stream)
  else
    let blocks := if stream.tail.length ≥ H.size - H.lengthBytes then 2 * H.size else H.size
    let tail := stream.tail ++ 128 ::
      (replicate (blocks - H.lengthBytes - (stream.tail.length + 1)) 0 ++ H.lengthField stream.count)
    let words := H.block stream.words (tail.take H.size)
    let words := if blocks = H.size then words else H.block words (tail.drop H.size)
    (H.output words, if H.consumed then { init H with failed := true }
      else { stream with words := words })

def run (stream : Stream σ κ) (chunks : List (List UInt8)) : Stream σ κ :=
  chunks.foldl (fun stream chunk => (update H stream chunk).2) stream

def digest (room : Nat) (input : List UInt8) : List UInt8 :=
  let (taken, stream) := update H (init H) input
  if taken then (finish H stream room).1 else []

def sha256 (block : Vector UInt32 8 → List UInt8 → Vector UInt32 8) :
    Hash (Vector UInt32 8) Nat where
  size := 64
  lengthBytes := 8
  digestLength := 32
  words := #v[1779033703, 3144134277, 1013904242, 2773480762, 1359893119, 2600822924, 528734635,
    1541459225]
  count := 0
  block := block
  add length input :=
    if input > 2305843009213693951 - length then (length, false) else (length + input, true)
  lengthField length := storeBE 8 (length * 8)
  output words := words.toList.flatMap fun word => storeBE 4 word.toNat
  consumed := false

def sha512 (block : Vector UInt64 8 → List UInt8 → Vector UInt64 8) :
    Hash (Vector UInt64 8) (UInt64 × UInt64) where
  size := 128
  lengthBytes := 16
  digestLength := 64
  words := #v[0x6a09e667f3bcc908, 0xbb67ae8584caa73b, 0x3c6ef372fe94f82b, 0xa54ff53a5f1d36f1,
    0x510e527fade682d1, 0x9b05688c2b3e6c1f, 0x1f83d9abfb41bd6b, 0x5be0cd19137e2179]
  count := (0, 0)
  block := block
  add count input :=
    let low := count.1 + UInt64.ofNat input
    let high := if low < count.1 then count.2 + 1 else count.2
    ((low, high), !(high > 0x1fffffffffffffff))
  lengthField count :=
    storeBE 8 (count.2 <<< 3 ||| count.1 >>> 61).toNat ++ storeBE 8 (count.1 <<< 3).toNat
  output words := words.toList.flatMap fun word => storeBE 8 word.toNat
  consumed := true

/-- The padding of a message: a one bit, zeros up to a whole number of blocks, and the length in
bits. -/
def padding (total : Nat) : List UInt8 :=
  128 :: (replicate ((2 * H.size - H.lengthBytes - 1 - total % H.size) % H.size) 0 ++
    storeBE H.lengthBytes (total * 8))

/-- The blocks of the padded message, one after another. -/
def hashed (message : List UInt8) : σ :=
  (whole H.size H.block H.words (message ++ padding H message.length)).1

/-- How the counter stands for a number of bytes up to a limit. -/
structure Counts (limit : Nat) (value : κ → Nat) : Prop where
  lengthBytes_lt : H.lengthBytes < H.size
  start : value H.count = 0
  add : ∀ count input, value count ≤ limit → input < 2 ^ 64 →
    (H.add count input).2 = decide (value count + input ≤ limit) ∧
      (value count + input ≤ limit → value (H.add count input).1 = value count + input)
  lengthField : ∀ count, value count ≤ limit →
    H.lengthField count = storeBE H.lengthBytes (value count * 8)

/-- The stream has taken a message, or failed at one that is too long. -/
def Holds (limit : Nat) (value : κ → Nat) (stream : Stream σ κ) (message : List UInt8) : Prop :=
  stream.initialized = true ∧
    if message.length ≤ limit then stream.failed = false ∧ value stream.count = message.length ∧
      whole H.size H.block H.words message = (stream.words, stream.tail)
    else stream.failed = true

/-- What a digest is, for every message up to the limit. -/
def expected (limit : Nat) (message : List UInt8) : List UInt8 :=
  if message.length ≤ limit then H.output (hashed H message) else []

theorem storeBE_add (count high : Nat) : ∀ value, storeBE count (value + high * 2 ^ (8 * count)) =
    storeBE count value := by
  induction count generalizing high with
  | zero => exact fun _ => rfl
  | succ count ih =>
    intro value
    have hsplit : high * 2 ^ (8 * (count + 1)) = high * 256 * 2 ^ (8 * count) := by
      rw [Nat.mul_add, pow_add]
      ring
    rw [storeBE, storeBE, hsplit, ih]
    refine congrArg (· :: _) (UInt8.toNat_inj.mp ?_)
    rw [UInt8.toNat_ofNat', UInt8.toNat_ofNat', Nat.shiftRight_eq_div_pow, Nat.shiftRight_eq_div_pow,
      Nat.add_mul_div_right _ _ (Nat.two_pow_pos _)]
    omega

theorem storeBE_append (count : Nat) {high low : Nat} (n : Nat) (hlow : low < 2 ^ (8 * n)) :
    storeBE (count + n) (high * 2 ^ (8 * n) + low) = storeBE count high ++ storeBE n low := by
  induction count with
  | zero => rw [Nat.zero_add, add_comm, storeBE_add]; rfl
  | succ count ih =>
    rw [Nat.succ_add, storeBE, storeBE, ih, cons_append, Nat.shiftRight_eq_div_pow, Nat.mul_add,
      add_comm (8 * count), pow_add, ← Nat.div_div_eq_div_mul, mul_comm high, Nat.mul_add_div
      (Nat.two_pow_pos _), Nat.div_eq_of_lt hlow, Nat.shiftRight_eq_div_pow]
    rfl

theorem sha256_counts (block : Vector UInt32 8 → List UInt8 → Vector UInt32 8) :
    Counts (sha256 block) (2 ^ 61 - 1) id where
  lengthBytes_lt := (by decide : 8 < 64)
  start := rfl
  add count input hcount _ := by
    simp only [sha256, id] at *
    split_ifs with hlong
    · exact ⟨by rw [decide_eq_false (by omega)], fun hc => by omega⟩
    · exact ⟨by rw [decide_eq_true (by omega)], fun _ => rfl⟩
  lengthField _ _ := rfl

/-- The number of bytes that two words count. -/
def counted (count : UInt64 × UInt64) : Nat := count.2.toNat * 2 ^ 64 + count.1.toNat

theorem sha512_counts (block : Vector UInt64 8 → List UInt8 → Vector UInt64 8) :
    Counts (sha512 block) (2 ^ 125 - 1) counted where
  lengthBytes_lt := (by decide : 16 < 128)
  start := by simp [counted, sha512]
  add := by
    rintro ⟨low, high⟩ input hcount hinput
    have hlow := low.toNat_lt
    have hsum : (low + UInt64.ofNat input).toNat = (low.toNat + input) % 2 ^ 64 := by
      rw [UInt64.toNat_add, UInt64.toNat_ofNat', Nat.mod_eq_of_lt hinput]
    have hhigh : (high + 1).toNat = high.toNat + 1 := by
      simp only [counted] at hcount
      rw [UInt64.toNat_add, Nat.mod_eq_of_lt]
      · rfl
      · change high.toNat + 1 < _
        omega
    obtain ⟨next, hadd⟩ : ∃ next, ((sha512 block).add (low, high) input).1 = next := ⟨_, rfl⟩
    have hnext : counted next = counted (low, high) + input := by
      rw [← hadd]
      simp only [sha512, counted, UInt64.lt_iff_toNat_lt, hsum]
      split_ifs with hcarry
      · rw [hhigh]
        omega
      · omega
    have hfits : ((sha512 block).add (low, high) input).2 = !decide (next.2 > 0x1fffffffffffffff) := by
      rw [← hadd]
      rfl
    have hlast : (0x1fffffffffffffff : UInt64).toNat = 0x1fffffffffffffff := rfl
    rw [hfits, hadd, ← hnext, ← decide_not, decide_eq_decide, gt_iff_lt, UInt64.lt_iff_toNat_lt, hlast]
    refine ⟨?_, fun _ => rfl⟩
    have hless := next.1.toNat_lt
    unfold counted
    omega
  lengthField := by
    rintro ⟨low, high⟩ hcount
    have hlow := low.toNat_lt
    simp only [counted] at hcount
    have hfirst : (high <<< 3 ||| low >>> 61).toNat = high.toNat * 8 + low.toNat / 2 ^ 61 := by
      rw [UInt64.toNat_or, UInt64.toNat_shiftLeft, UInt64.toNat_shiftRight]
      change high.toNat <<< 3 % 2 ^ 64 ||| low.toNat >>> 61 = _
      rw [Nat.shiftLeft_eq, Nat.mod_eq_of_lt (by omega), ← Nat.shiftLeft_eq, ←
        Nat.shiftLeft_add_eq_or_of_lt (by rw [Nat.shiftRight_eq_div_pow]; omega), Nat.shiftLeft_eq,
        Nat.shiftRight_eq_div_pow]
    have hsecond : (low <<< 3).toNat = low.toNat * 8 % 2 ^ 64 := by
      rw [UInt64.toNat_shiftLeft]
      change low.toNat <<< 3 % 2 ^ 64 = _
      rw [Nat.shiftLeft_eq]
    have happend := @storeBE_append 8 (high.toNat * 8 + low.toNat / 2 ^ 61) (low.toNat * 8 % 2 ^ 64) 8
      (Nat.mod_lt _ (by decide))
    simp only [sha512, counted]
    rw [hfirst, hsecond, ← happend]
    exact congrArg (storeBE 16) (by omega)

section

variable {H} {limit : Nat} {value : κ → Nat} (h : Counts H limit value)
include h

theorem holds_init {start : Stream σ κ} (hstart : start.initialized = false ∨ start = init H) :
    Holds H limit value (ready H start) [] := by
  have hready : ready H start = init H := by
    rcases hstart with hzero | rfl
    · rw [ready, hzero]
      rfl
    · rfl
  have hpos := h.lengthBytes_lt
  rw [hready]
  refine ⟨rfl, ?_⟩
  rw [if_pos (by simp), whole_short _ [] (by rw [length_nil]; omega)]
  exact ⟨rfl, h.start, rfl⟩

theorem update_holds {stream : Stream σ κ} {message input : List UInt8}
    (hholds : Holds H limit value (ready H stream) message) (hinput : input.length < 2 ^ 64) :
    (update H stream input).1 = decide ((message ++ input).length ≤ limit) ∧
      Holds H limit value (update H stream input).2 (message ++ input) := by
  have hpos := h.lengthBytes_lt
  unfold update
  simp only
  generalize ready H stream = stream at *
  obtain ⟨hinit, hholds⟩ := hholds
  unfold Holds
  rw [length_append]
  split_ifs at hholds
  · obtain ⟨hgood, hcount, hwhole⟩ := hholds
    obtain ⟨hfits, hsum⟩ := h.add stream.count input.length (by omega) hinput
    rw [hcount] at hfits hsum
    have htail := @whole_left_length σ UInt8 H.size H.block (by omega) H.words message
    rw [hwhole] at htail
    rw [if_neg (by simp [hgood]), hfits]
    by_cases hlimit : message.length + input.length ≤ limit
    · have hnext := @whole_append σ UInt8 H.size H.block (by omega) H.words message input
      rw [hwhole] at hnext
      rw [if_pos hlimit, decide_eq_true hlimit, if_pos rfl, absorb_eq (by omega) _
        (htail ▸ Nat.mod_lt _ (by omega))]
      exact ⟨rfl, hinit, hgood, hsum hlimit, hnext⟩
    · rw [if_neg hlimit, decide_eq_false hlimit, if_neg Bool.false_ne_true]
      exact ⟨rfl, hinit, rfl⟩
  · rw [if_pos hholds, if_neg (by omega), decide_eq_false (by omega)]
    exact ⟨rfl, hinit, hholds⟩

theorem run_holds {start : Stream σ κ} (hstart : start.initialized = false ∨ start = init H)
    (chunks : List (List UInt8)) (hchunks : ∀ chunk ∈ chunks, chunk.length < 2 ^ 64) :
    Holds H limit value (ready H (run H start chunks)) chunks.flatten := by
  induction chunks using reverseRecOn with
  | nil => exact holds_init h hstart
  | append_singleton chunks chunk ih =>
    have hnext := (update_holds h (ih fun c hc => hchunks c (mem_append_left _ hc))
      (hchunks chunk (by simp))).2
    rw [run, foldl_append, flatten_concat]
    change Holds H limit value (ready H (update H (run H start chunks) chunk).2) _
    rwa [ready, if_pos hnext.1]

theorem finish_holds {stream : Stream σ κ} {message : List UInt8} {room : Nat}
    (hholds : Holds H limit value (ready H stream) message) (hroom : H.digestLength ≤ room) :
    (finish H stream room).1 = expected H limit message := by
  have hpos := h.lengthBytes_lt
  unfold finish expected
  generalize ready H stream = stream at *
  obtain ⟨-, hholds⟩ := hholds
  split_ifs at hholds with hmessage
  · obtain ⟨hgood, hcount, hwhole⟩ := hholds
    have htail := @whole_left_length σ UInt8 H.size H.block (by omega) H.words message
    rw [hwhole] at htail
    change stream.tail.length = _ at htail
    have hless := Nat.mod_lt message.length (show H.size > 0 by omega)
    rw [if_neg (by simp [hgood, hroom]), if_pos hmessage, h.lengthField _ (by omega), hcount]
    unfold hashed padding
    rw [whole_append (by omega), hwhole, ← htail]
    refine congrArg H.output ?_
    split
    · have hzeros : (2 * H.size - H.lengthBytes - 1 - stream.tail.length) % H.size =
          2 * H.size - H.lengthBytes - (stream.tail.length + 1) := by
        rw [Nat.mod_eq_of_lt (by omega)]
        omega
      rw [if_neg (by omega), hzeros, whole_double (by omega)]
      simp only [length_append, length_cons, length_replicate, storeBE_length]
      omega
    have hzeros : (2 * H.size - H.lengthBytes - 1 - stream.tail.length) % H.size =
        H.size - H.lengthBytes - (stream.tail.length + 1) := by
      rw [show 2 * H.size - H.lengthBytes - 1 - stream.tail.length =
        H.size + (H.size - H.lengthBytes - (stream.tail.length + 1)) by omega,
        Nat.add_mod_left, Nat.mod_eq_of_lt (by omega)]
    have hlength : (stream.tail ++ 128 ::
        (replicate (H.size - H.lengthBytes - (stream.tail.length + 1)) 0 ++
          storeBE H.lengthBytes (message.length * 8))).length = H.size := by
      simp only [length_append, length_cons, length_replicate, storeBE_length]
      omega
    rw [if_pos rfl, hzeros, whole_single (by omega) _ hlength,
      take_of_length_le hlength.le]
  · rw [if_pos (.inl hholds), if_neg hmessage]

/-- Every way of cutting a message into updates gives its digest, and the stream fails from the
first update on that exceeds the limit. -/
def Streams (limit : Nat) (H : Hash σ κ) : Prop :=
  ∀ start : Stream σ κ, start.initialized = false ∨ start = init H →
    ∀ chunks : List (List UInt8), (∀ chunk ∈ chunks, chunk.length < 2 ^ 64) →
      (∀ chunk, chunk.length < 2 ^ 64 → (update H (run H start chunks) chunk).1 =
        decide ((chunks.flatten ++ chunk).length ≤ limit)) ∧
      ∀ room, H.digestLength ≤ room →
        (finish H (run H start chunks) room).1 = expected H limit chunks.flatten ∧
        (chunks.flatten.length < 2 ^ 64 → digest H room chunks.flatten = expected H limit chunks.flatten)

theorem streams : Streams limit H := by
  intro start hstart chunks hchunks
  have hrun := run_holds h hstart chunks hchunks
  refine ⟨fun chunk hchunk => (update_holds h hrun hchunk).1, fun room hroom =>
    ⟨finish_holds h hrun hroom, fun hlength => ?_⟩⟩
  obtain ⟨htaken, hnext⟩ := update_holds h (holds_init h (.inr rfl)) hlength
  rw [nil_append] at htaken hnext
  have hready : ready H (update H (init H) chunks.flatten).2 = (update H (init H) chunks.flatten).2 :=
    if_pos hnext.1
  rw [← hready] at hnext
  unfold digest
  simp only [htaken]
  by_cases hlimit : chunks.flatten.length ≤ limit
  · rw [if_pos (decide_eq_true hlimit)]
    exact finish_holds h hnext hroom
  · rw [if_neg (by simpa using hlimit), expected, if_neg hlimit]

end

/-- **Streaming hashes.**  SHA-256 and SHA-512 give the digest of the padded message for every way
of cutting it into updates, and fail from the first update on that exceeds 2^61 - 1 or 2^125 - 1
bytes. -/
theorem hashes_exact (block : Vector UInt32 8 → List UInt8 → Vector UInt32 8)
    (block' : Vector UInt64 8 → List UInt8 → Vector UInt64 8) :
    Streams (2 ^ 61 - 1) (sha256 block) ∧ Streams (2 ^ 125 - 1) (sha512 block') :=
  ⟨streams (sha256_counts block), streams (sha512_counts block')⟩

end Dyn.Crypto
