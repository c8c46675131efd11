import Dyn.Compress.Blocks
import Dyn.Compress.Inflate

/-!
# std/compress/deflate: round trips

What the encoders write is a stream that `resume` and `inflate` turn back into the input,
reading every byte of it (`deflate_lossless`).  Stored chunks end on a byte boundary and can
follow one another.  Huffman chunks are filled up to a byte with zero bits that the decoder
takes for the header of the next block: `huffman_chunks_chain` says which can be followed.
-/

namespace Dyn.Compress

open Lib Mem List

/-- The stream decodes to the output and to its last byte, into every buffer that holds the
output and in every arena with room for it. -/
def Inflates (stream output : List UInt8) : Prop :=
  (∀ capacity, output.length ≤ capacity → ∀ destination,
    (resume {} capacity destination stream).1 = ⟨output.length, stream.length, true⟩ ∧
      (List.range output.length).map (resume {} capacity destination stream).2.2 = output) ∧
  (∀ w room, Room.Holds w room (4 * stream.length + 1024) output.length → 4 * stream.length + 1024 ≤ maximum w →
    inflate w room stream = .ok ⟨output, stream.length, true⟩)

variable {c : Config}

variable {stream : List UInt8}

theorem inflates_of_runs (hruns : Runs (.start stream) c) (hdone : c.stage = 3)
    (hrest : c.bits.length < 8) : Inflates stream c.out := by
  have hconsumed : stream.length - c.bits.length / 8 = stream.length := by omega
  constructor
  · intro capacity hcap destination
    have := resume_of_runs hruns hdone hcap destination
    rwa [hconsumed] at this
  intro w room hroom hsize
  have := growUntilDone_ok (inflate_settles hruns hdone) hroom hsize
  rwa [hconsumed] at this

theorem not_inflates_of_stuck {output : List UInt8} (hruns : Runs (.start stream) c)
    (hs : c.stage ≠ 3) (hstuck : ∀ d, absRound c ≠ .more d) : ¬ Inflates stream output := by
  intro h
  have hok := congrArg Result.ok (h.1 output.length le_rfl (fun _ => 0)).1
  obtain ⟨d, stop, hd, _, hrep⟩ := resume_spec stream output.length (fun _ => 0)
  cases stop with
  | done =>
    rcases hd.linear hruns with hr | hr
    · exact hs ((hr.eq_of_done hrep.1) ▸ hrep.1)
    · exact hs ((hr.eq_of_stuck hstuck) ▸ hrep.1)
  | short | invalid | full => rw [hrep.2.2.1] at hok; cases hok

/-- **A stored chunk.**  It is complete exactly when it fits; then the engine reads it from
any byte boundary. -/
theorem deflateStoredChunk_spec (capacity : Nat) (input : List UInt8) (final : Bool) :
    if storedSize input.length ≤ capacity then
      ∃ bytes, deflateStoredChunk capacity input final =
          (⟨bytes.length, input.length, true⟩, bytes) ∧
        ∀ (c : Config) (rest : List Bool), c.stage = 0 → 8 ∣ rest.length →
          c.bits = streamBits bytes ++ rest →
          ∃ d, Runs c d ∧ d.bits = rest ∧ d.out = c.out ++ input ∧
            d.stage = if final then 3 else 0
    else (deflateStoredChunk capacity input final).1.ok = false := by
  have hmore : 0 < input.length ∨ (input.length = 0 ∧ ([] : List UInt8).length = 0) := by
    rcases Nat.eq_zero_or_pos input.length with h | h
    · exact .inr ⟨h, rfl⟩
    · exact .inl h
  have hloop := storedLoop_spec capacity input final (input.length + 1) 0 []
    (Nat.zero_le input.length) (by omega) (Nat.zero_le _) hmore _ rfl
  simp only [length_nil, Nat.zero_add, Nat.sub_zero, nil_append, drop_zero] at hloop
  by_cases hfit : storedSize input.length ≤ capacity
  · rw [if_pos hfit] at hloop ⊢
    obtain ⟨bytes, hchunk, _, hruns⟩ := hloop
    exact ⟨bytes, hchunk, hruns⟩
  · rw [if_neg hfit] at hloop ⊢
    exact hloop

theorem deflateStoredChunk_ok (capacity : Nat) (input : List UInt8) (final : Bool) :
    (deflateStoredChunk capacity input final).1.ok = true ↔ storedSize input.length ≤ capacity := by
  have hspec := deflateStoredChunk_spec capacity input final
  split at hspec
  · rename_i hfit
    obtain ⟨bytes, hchunk, _⟩ := hspec
    rw [hchunk]
    exact ⟨fun _ => hfit, fun _ => rfl⟩
  rename_i hfit
  rw [hspec]
  exact ⟨fun h => (by cases h), fun h => absurd h hfit⟩

theorem stored_chunk_runs {capacity : Nat} {input : List UInt8} {final : Bool}
    (hok : (deflateStoredChunk capacity input final).1.ok = true) (rest : List Bool)
    (hstage : c.stage = 0) (hrest : 8 ∣ rest.length)
    (hbits : c.bits = streamBits (deflateStoredChunk capacity input final).2 ++ rest) :
    ∃ d, Runs c d ∧ d.bits = rest ∧ d.out = c.out ++ input ∧
      d.stage = if final then 3 else 0 := by
  have hspec := deflateStoredChunk_spec capacity input final
  rw [if_pos ((deflateStoredChunk_ok _ _ _).mp hok)] at hspec
  obtain ⟨bytes, hchunk, hruns⟩ := hspec
  rw [hchunk] at hbits
  exact hruns c rest hstage hrest hbits

/-- The bytes of intermediate stored chunks, each with the capacity of its buffer. -/
def storedStream (chunks : List (Nat × List UInt8)) : List UInt8 :=
  chunks.flatMap (fun chunk => (deflateStoredChunk chunk.1 chunk.2 false).2)

/-- What takes the engine across each of some pieces takes it across all of them. -/
theorem pieces_runs {α : Type} (bytes input : α → List UInt8) (rest : List Bool) :
    ∀ (pieces : List α) (c : Config),
      (∀ p ∈ pieces, ∀ (c : Config) (behind : List UInt8), c.stage = 0 →
        c.bits = streamBits (bytes p) ++ (streamBits behind ++ rest) →
        ∃ d, Runs c d ∧ d.bits = streamBits behind ++ rest ∧ d.out = c.out ++ input p ∧ d.stage = 0) →
      c.stage = 0 → c.bits = streamBits (pieces.flatMap bytes) ++ rest →
      ∃ d, Runs c d ∧ d.bits = rest ∧ d.out = c.out ++ pieces.flatMap input ∧ d.stage = 0
  | [], c, _, hstage, hbits => ⟨c, Runs.refl c, hbits, by simp, hstage⟩
  | piece :: pieces, c, hall, hstage, hbits => by
    rw [flatMap_cons, streamBits_append, append_assoc] at hbits
    obtain ⟨d, hd1, hd2, hd3, hd4⟩ := hall piece (by simp) c _ hstage hbits
    obtain ⟨e, he1, he2, he3, he4⟩ := pieces_runs bytes input rest pieces d
      (fun p hp => hall p (mem_cons_of_mem _ hp)) hd4 hd2
    refine ⟨e, hd1.trans he1, he2, ?_, he4⟩
    rw [he3, hd3, flatMap_cons, append_assoc]

theorem stored_stream_runs (rest : List Bool) (hrest : 8 ∣ rest.length) (chunks : List (Nat × List UInt8))
    (c : Config) (hok : ∀ chunk ∈ chunks, (deflateStoredChunk chunk.1 chunk.2 false).1.ok = true) :
    c.stage = 0 → c.bits = streamBits (storedStream chunks) ++ rest →
    ∃ d, Runs c d ∧ d.bits = rest ∧ d.out = c.out ++ chunks.flatMap Prod.snd ∧ d.stage = 0 :=
  pieces_runs _ _ rest chunks c fun chunk hchunk _ _ hstage hbits =>
    stored_chunk_runs (hok chunk hchunk) _ hstage (by simp; omega) hbits

/-- A complete Huffman chunk takes the engine across its input, to the zero bits that fill
its last byte. -/
theorem huffman_chunk_runs {capacity size : Nat} {input : List UInt8} {final dynamic : Bool}
    (hsize : size ≠ 0) (hok : (deflateHuffmanChunk capacity input final size dynamic).1.ok = true)
    (rest : List Bool) (hstage : c.stage = 0)
    (hbits : c.bits = streamBits (deflateHuffmanChunk capacity input final size dynamic).2 ++ rest) :
    ∃ d, Runs c d ∧ d.bits = List.replicate
        (8 * bytesFor (blockBits final dynamic (inputTokens input size)) -
          (blockBits final dynamic (inputTokens input size)).length) false ++ rest ∧
      d.out = c.out ++ input ∧ d.stage = if final then 3 else 0 := by
  have hspec := deflateHuffmanChunk_spec capacity input final hsize dynamic
  simp only at hspec
  split_ifs at hspec with hfit
  · obtain ⟨_, _, hstream⟩ := hspec
    rw [hstream, append_assoc] at hbits
    exact block_runs (inputTokens_cover input size) hstage hbits
  · rw [hspec] at hok
    cases hok

/-- The complete chunks of an encoder for one input: they exist from some size of the
destination on, and inflate to the input. -/
def Encodes (chunk : Nat → Result × List UInt8) (input : List UInt8) : Prop :=
  ∃ needed, ∀ capacity,
    ((chunk capacity).1.ok = true ↔ needed ≤ capacity) ∧
      ((chunk capacity).1.ok = true →
        (chunk capacity).1 = ⟨(chunk capacity).2.length, input.length, true⟩ ∧
          Inflates (chunk capacity).2 input)

theorem huffman_encodes {size : Nat} (hsize : size ≠ 0) (input : List UInt8)
    (dynamic : Bool) :
    Encodes (fun capacity => deflateHuffmanChunk capacity input true size dynamic) input := by
  refine ⟨bytesFor (blockBits true dynamic (inputTokens input size)), fun capacity => ?_⟩
  have hspec := deflateHuffmanChunk_spec capacity input true hsize dynamic
  by_cases hfit : bytesFor (blockBits true dynamic (inputTokens input size)) ≤ capacity
  · rw [if_pos hfit] at hspec
    obtain ⟨hres, hlen, _⟩ := hspec
    have hok : (deflateHuffmanChunk capacity input true size dynamic).1.ok = true := by
      rw [hres]
    refine ⟨⟨fun _ => hfit, fun _ => hok⟩, fun _ => ⟨by rw [hlen]; exact hres, ?_⟩⟩
    obtain ⟨d, hruns, hbits, hout, hstage⟩ := huffman_chunk_runs hsize hok
      (c := .start (deflateHuffmanChunk capacity input true size dynamic).2) [] rfl
      (by simp [Config.start])
    have hshort : d.bits.length < 8 := by
      rw [hbits, append_nil, length_replicate]
      unfold bytesFor
      omega
    have := inflates_of_runs hruns hstage hshort
    rwa [hout] at this
  · rw [if_neg hfit] at hspec
    rw [hspec]
    exact ⟨⟨fun h => (by cases h), fun h => absurd h hfit⟩, fun h => (by cases h)⟩

/-- **DEFLATE compression is lossless.** -/
theorem deflate_lossless :
    (∀ (input : List UInt8) (size : Nat), size ≠ 0 →
      Encodes (fun capacity => deflateFixedChunk capacity input true size) input ∧
      Encodes (fun capacity => deflateDynamicChunk capacity input true size) input) ∧
    (∀ (chunks : List (Nat × List UInt8)) (last : Nat × List UInt8),
      (∀ chunk ∈ chunks, (deflateStoredChunk chunk.1 chunk.2 false).1.ok = true) →
      (deflateStoredChunk last.1 last.2 true).1.ok = true →
      Inflates (storedStream chunks ++ (deflateStoredChunk last.1 last.2 true).2)
        (chunks.flatMap Prod.snd ++ last.2)) ∧
    (∀ (capacity : Nat) (input : List UInt8) (final : Bool),
      ((deflateStoredChunk capacity input final).1.ok = true ↔ storedSize input.length ≤ capacity) ∧
        ((deflateStoredChunk capacity input final).1.ok = true →
          (deflateStoredChunk capacity input final).1 =
            ⟨(deflateStoredChunk capacity input final).2.length, input.length, true⟩)) := by
  refine ⟨fun input size hsize => ⟨huffman_encodes hsize input false,
    huffman_encodes hsize input true⟩, ?_, ?_⟩
  · intro chunks last hok hlast
    obtain ⟨c, hc1, hc2, hc3, hc4⟩ := stored_stream_runs
      (streamBits (deflateStoredChunk last.1 last.2 true).2) (by simp) chunks
      (.start (storedStream chunks ++ (deflateStoredChunk last.1 last.2 true).2)) hok rfl
      (by simp [Config.start])
    obtain ⟨d, hd1, hd2, hd3, hd4⟩ := stored_chunk_runs hlast [] hc4 (by simp) (by simpa using hc2)
    have := inflates_of_runs (hc1.trans hd1) hd4 (by rw [hd2]; decide)
    rw [hd3, hc3] at this
    simpa [Config.start] using this
  intro capacity input final
  refine ⟨deflateStoredChunk_ok capacity input final, fun hok => ?_⟩
  have hspec := deflateStoredChunk_spec capacity input final
  rw [if_pos ((deflateStoredChunk_ok _ _ _).mp hok)] at hspec
  obtain ⟨bytes, hchunk, _⟩ := hspec
  rw [hchunk]

/-- The theorem at a repetitive input, and at two stored chunks. -/
theorem deflate_lossless_abc :
    (Encodes (fun capacity => deflateFixedChunk capacity [97, 98, 97, 98, 97, 98] true 16)
        [97, 98, 97, 98, 97, 98] ∧
      Encodes (fun capacity => deflateDynamicChunk capacity [97, 98, 97, 98, 97, 98] true 16)
        [97, 98, 97, 98, 97, 98]) ∧
    Inflates (storedStream [(7, [97, 98])] ++ (deflateStoredChunk 6 [99] true).2) [97, 98, 99] :=
  ⟨deflate_lossless.1 [97, 98, 97, 98, 97, 98] 16 (by decide),
    deflate_lossless.2.1 [(7, [97, 98])] (6, [99]) (by decide) (by decide)⟩

/-- One call of a Huffman encoder: its input, the size of its hash table, which encoder,
and the size of its destination. -/
structure HuffmanChunk where
  input : List UInt8
  size : Nat
  dynamic : Bool
  capacity : Nat

namespace HuffmanChunk

def encode (chunk : HuffmanChunk) (final : Bool) : Result × List UInt8 :=
  if chunk.dynamic then deflateDynamicChunk chunk.capacity chunk.input final chunk.size
  else deflateFixedChunk chunk.capacity chunk.input final chunk.size

theorem encode_eq (chunk : HuffmanChunk) (final : Bool) :
    chunk.encode final =
      deflateHuffmanChunk chunk.capacity chunk.input final chunk.size chunk.dynamic := by
  unfold encode deflateDynamicChunk deflateFixedChunk
  cases chunk.dynamic <;> rfl

theorem size_ne {chunk : HuffmanChunk} {final : Bool} (h : (chunk.encode final).1.ok = true) :
    chunk.size ≠ 0 := by
  intro hz
  rw [encode_eq, deflateHuffmanChunk, if_pos hz] at h
  cases h

end HuffmanChunk

def tokenLength (dynamic : Bool) : Token → Nat
  | .literal byte => (symbolCode dynamic byte.toNat).2
  | .copy length distance =>
      (symbolCode dynamic (257 + bucket LengthBase length)).2 +
        LengthExtra.getD (bucket LengthBase length) 0 +
        ((distanceCode dynamic (bucket DistanceBase distance)).2 +
          DistanceExtra.getD (bucket DistanceBase distance) 0)

/-- Bits of a block: three for its header, 1335 for the trees of a dynamic block, then its
tokens and the end-of-block symbol. -/
def blockLength (dynamic : Bool) (tokens : List Token) : Nat :=
  3 + (if dynamic then 1335 else 0) + (tokens.map (tokenLength dynamic)).sum +
    (symbolCode dynamic 256).2

/-- The condition under which another block can follow a chunk. -/
def HuffmanChunk.EndsOnByte (chunk : HuffmanChunk) : Prop :=
  8 ∣ blockLength chunk.dynamic (inputTokens chunk.input chunk.size)

instance (chunk : HuffmanChunk) : Decidable chunk.EndsOnByte :=
  inferInstanceAs (Decidable (8 ∣ _))

theorem token_bits_length (dynamic : Bool) (token : Token) :
    (token.bits dynamic).length = tokenLength dynamic token := by
  cases token with
  | literal byte => simp [Token.bits, tokenLength, symbolWord]
  | copy length distance =>
    simp only [Token.bits, tokenLength, lengthBits, distanceBits, symbolWord, distanceWord,
      length_append, wordOf_length, bitsOf_length]

theorem blockBits_length (final dynamic : Bool) (tokens : List Token) :
    (blockBits final dynamic tokens).length = blockLength dynamic tokens := by
  have htree : treeBits.length = 1335 := by decide +kernel
  have htokens : (tokens.flatMap (Token.bits dynamic)).length =
      (tokens.map (tokenLength dynamic)).sum := by
    rw [length_flatMap]
    congr 1
    exact map_congr_left (fun token _ => token_bits_length dynamic token)
  unfold blockBits blockLength
  rw [length_append, length_append, length_append, htokens, bitsOf_length]
  cases dynamic with
  | true =>
    rw [if_pos rfl, if_pos rfl, length_append, htree, bitsOf_length, symbolWord, wordOf_length]
  | false =>
    rw [if_neg Bool.false_ne_true, if_neg Bool.false_ne_true, bitsOf_length, symbolWord,
      wordOf_length]

def chainStream (chunks : List HuffmanChunk) : List UInt8 :=
  chunks.flatMap (fun chunk => (chunk.encode false).2)

def HuffmanChunk.padding (chunk : HuffmanChunk) : Nat :=
  8 * ((blockLength chunk.dynamic (inputTokens chunk.input chunk.size) + 7) / 8) -
    blockLength chunk.dynamic (inputTokens chunk.input chunk.size)

variable {chunk : HuffmanChunk}

theorem HuffmanChunk.runs {final : Bool} (hok : (chunk.encode final).1.ok = true) (rest : List Bool)
    (hstage : c.stage = 0) (hbits : c.bits = streamBits (chunk.encode final).2 ++ rest) :
    ∃ d, Runs c d ∧ d.bits = List.replicate chunk.padding false ++ rest ∧
      d.out = c.out ++ chunk.input ∧ d.stage = if final then 3 else 0 := by
  have hsize := HuffmanChunk.size_ne hok
  rw [HuffmanChunk.encode_eq] at hok hbits
  have h := huffman_chunk_runs hsize hok rest hstage hbits
  rw [bytesFor, blockBits_length] at h
  exact h

theorem HuffmanChunk.padding_eq_zero (h : chunk.EndsOnByte) : chunk.padding = 0 := by
  unfold HuffmanChunk.EndsOnByte at h
  unfold HuffmanChunk.padding
  omega

theorem chain_runs (rest : List Bool) (chunks : List HuffmanChunk) (c : Config)
    (hok : ∀ chunk ∈ chunks, (chunk.encode false).1.ok = true) (hend : ∀ chunk ∈ chunks, chunk.EndsOnByte) :
    c.stage = 0 → c.bits = streamBits (chainStream chunks) ++ rest →
    ∃ d, Runs c d ∧ d.bits = rest ∧ d.out = c.out ++ chunks.flatMap HuffmanChunk.input ∧ d.stage = 0 :=
  pieces_runs _ _ rest chunks c fun chunk hchunk _ _ hstage hbits => by
    obtain ⟨d, hruns, hd, h⟩ := HuffmanChunk.runs (hok chunk hchunk) _ hstage hbits
    rw [HuffmanChunk.padding_eq_zero (hend chunk hchunk), replicate_zero, nil_append] at hd
    exact ⟨d, hruns, hd, h⟩

/-- The shortest last chunk: a fixed block of no input. -/
def emptyChunk : HuffmanChunk := ⟨[], 1, false, 2⟩

theorem emptyChunk_bytes : (emptyChunk.encode true) = (⟨2, 0, true⟩, [3, 0]) := by decide

def noBlock : Parse BlockHeader → Bool
  | .ok .reserved _ => true
  | .ok _ _ => false
  | .short => true
  | .bad => true

/-- Between one and seven zero bits before the empty chunk are no block header. -/
theorem padded_header_fails : ∀ p < 8, 1 ≤ p →
    noBlock ((blockHeader : BitParser BlockHeader)
      (List.replicate p false ++ streamBits [3, 0])) = true := by
  decide

theorem padded_stuck {p : Nat} (hstage : c.stage = 0) (hpos : 1 ≤ p) (hp : p < 8)
    (hbits : c.bits = List.replicate p false ++ streamBits [3, 0]) : ∀ d, absRound c ≠ .more d := by
  intro d
  have h := padded_header_fails p hp hpos
  unfold absRound
  rw [if_pos hstage, hbits]
  generalize (blockHeader : BitParser BlockHeader)
    (replicate p false ++ streamBits [3, 0]) = parsed at h ⊢
  cases parsed with
  | ok header rest =>
    cases header with
    | reserved => exact nofun
    | stored _ _ _ | coded _ _ _ => cases h
  | short | bad => exact nofun

/-- **Chains of Huffman chunks.**  Intermediate chunks can be finished with every last chunk,
after any number of them, exactly when each of them ends on a byte boundary. -/
theorem huffman_chunks_chain (chunks : List HuffmanChunk)
    (hok : ∀ chunk ∈ chunks, (chunk.encode false).1.ok = true) :
    (∀ n ≤ chunks.length, ∀ last : HuffmanChunk, (last.encode true).1.ok = true →
      Inflates (chainStream (chunks.take n) ++ (last.encode true).2)
        ((chunks.take n).flatMap HuffmanChunk.input ++ last.input)) ↔
    ∀ chunk ∈ chunks, chunk.EndsOnByte := by
  constructor
  · intro h
    have key : ∀ n ≤ chunks.length, ∀ chunk ∈ chunks.take n, chunk.EndsOnByte := by
      intro n
      induction n with
      | zero => simp
      | succ n ih =>
        intro hn chunk hmem
        have hprev := ih (by omega)
        have htake : chunks.take (n + 1) = chunks.take n ++ [chunks[n]] :=
          take_succ_eq_append_getElem (by omega)
        rw [htake, mem_append, mem_singleton] at hmem
        rcases hmem with hmem | rfl
        · exact hprev chunk hmem
        by_contra hcon
        have hall := h (n + 1) hn emptyChunk (by rw [emptyChunk_bytes])
        have hlt : n < chunks.length := by omega
        have hstream : chainStream (chunks.take (n + 1)) =
            chainStream (chunks.take n) ++ (chunks[n].encode false).2 := by
          rw [htake, chainStream, flatMap_append, flatMap_singleton, chainStream]
        rw [hstream, emptyChunk_bytes] at hall
        obtain ⟨c, hc1, hc2, _, hc4⟩ := chain_runs
          (streamBits ((chunks[n].encode false).2 ++ [3, 0])) (chunks.take n)
          (.start (chainStream (chunks.take n) ++ (chunks[n].encode false).2 ++ [3, 0]))
          (fun b hb => hok b (mem_of_mem_take hb)) hprev rfl (by simp [Config.start])
        obtain ⟨d, hd1, hd2, _, hd4⟩ := HuffmanChunk.runs (hok chunks[n] (getElem_mem hlt)) _ hc4
          (by rw [hc2, streamBits_append])
        have hpad : 1 ≤ chunks[n].padding ∧ chunks[n].padding < 8 := by
          unfold HuffmanChunk.EndsOnByte at hcon
          unfold HuffmanChunk.padding
          omega
        exact not_inflates_of_stuck (hc1.trans hd1) (by rw [hd4]; decide)
          (padded_stuck hd4 hpad.1 hpad.2 hd2) hall
    have := key chunks.length le_rfl
    rwa [take_length] at this
  · intro hend n _ last hlast
    have hsub : ∀ chunk ∈ chunks.take n, chunk ∈ chunks := fun b hb => mem_of_mem_take hb
    obtain ⟨c, hc1, hc2, hc3, hc4⟩ := chain_runs (streamBits (last.encode true).2)
      (chunks.take n) (.start (chainStream (chunks.take n) ++ (last.encode true).2))
      (fun b hb => hok b (hsub b hb)) (fun b hb => hend b (hsub b hb)) rfl
      (by simp [Config.start])
    obtain ⟨d, hd1, hd2, hd3, hd4⟩ := HuffmanChunk.runs hlast [] hc4 (by simpa using hc2)
    have hshort : d.bits.length < 8 := by
      rw [hd2, append_nil, length_replicate]
      unfold HuffmanChunk.padding
      omega
    have := inflates_of_runs (hc1.trans hd1) hd4 hshort
    rw [hd3, hc3] at this
    simpa [Config.start] using this

/-- The theorem at a chunk of 64 bits. -/
theorem huffman_chunks_chain_literals :
    Inflates (chainStream [⟨[200, 201, 202, 203, 204, 205], 1, false, 8⟩] ++
        (HuffmanChunk.encode ⟨[98], 1, true, 200⟩ true).2)
      [200, 201, 202, 203, 204, 205, 98] :=
  (huffman_chunks_chain [⟨[200, 201, 202, 203, 204, 205], 1, false, 8⟩] (by decide +kernel)).mpr
    (by decide +kernel) 1 (by decide) ⟨[98], 1, true, 200⟩ (by decide +kernel)

/-- Two chunks of one literal each: the six zero bits behind the first are read as the header
of a stored block, whose length the second cannot supply. -/
theorem huffman_chunks_fail :
    ¬ ∀ (chunks : List HuffmanChunk) (last : HuffmanChunk), chunks ≠ [] →
      (∀ chunk ∈ chunks, (chunk.encode false).1.ok = true) →
      (last.encode true).1.ok = true →
      Inflates (chainStream chunks ++ (last.encode true).2)
        (chunks.flatMap HuffmanChunk.input ++ last.input) := by
  intro h
  have hinf := h [⟨[97], 1, false, 8⟩] ⟨[98], 1, false, 8⟩ (by decide) (by decide) (by decide)
  have hok := congrArg Result.ok (hinf.1 2 (by decide) (fun _ => 0)).1
  have hfail : (resume {} 2 (fun _ => 0) (chainStream [⟨[97], 1, false, 8⟩] ++
      (HuffmanChunk.encode ⟨[98], 1, false, 8⟩ true).2)).1.ok = false := by
    decide +kernel
  rw [hfail] at hok
  cases hok

end Dyn.Compress
