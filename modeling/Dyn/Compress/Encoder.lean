import Dyn.Compress.Huffman

/-!
# std/compress/deflate: what the encoders write

`Emitted` says what a bit writer is for: a growing list of bits, up to the capacity of its
destination.  Every writing function appends to that list, and `deflateHuffmanChunk_spec`
is the outcome for a whole chunk: the bits of one block, padded to a byte, or a refusal when
they do not fit.

The matcher is described by the tokens it finds; `huffmanTokens` is its loop without the
writer.
-/

namespace Dyn.Compress

open Lib List Function

/-- The writer has been given the bits `bs`, and refuses once they do not fit. -/
def Emitted (capacity : Nat) (bs : List Bool) (writer : BitWriter) : Prop :=
  writer.capacity = capacity ∧
    if bs.length / 8 ≤ capacity then
      writer.ok = true ∧ writer.count < 8 ∧ writer.value < 2 ^ writer.count ∧
        streamBits writer.out ++ bitsOf writer.count writer.value = bs
    else writer.ok = false

theorem emitted_start (capacity : Nat) : Emitted capacity [] ⟨capacity, [], 0, 0, true⟩ := by
  refine ⟨rfl, ?_⟩
  rw [if_pos (by simp)]
  exact ⟨rfl, Nat.succ_pos _, Nat.one_pos, rfl⟩

theorem Emitted.more {capacity : Nat} {bs : List Bool} {writer : BitWriter}
    (h : Emitted capacity bs writer) (hok : writer.ok = false) (more : List Bool) :
    Emitted capacity (bs ++ more) writer := by
  obtain ⟨hcap, h⟩ := h
  refine ⟨hcap, ?_⟩
  split_ifs at h
  · rw [h.1] at hok
    cases hok
  have hlen : bs.length / 8 ≤ (bs ++ more).length / 8 := by
    rw [length_append]
    omega
  rw [if_neg (by omega)]
  exact hok

/-- Moving whole bytes to the destination keeps the bits, as far as they fit. -/
theorem flushBytes_spec : ∀ (fuel : Nat) (writer : BitWriter), writer.count ≤ fuel →
    writer.ok = true → writer.out.length ≤ writer.capacity →
    writer.value < 2 ^ writer.count →
    Emitted writer.capacity (streamBits writer.out ++ bitsOf writer.count writer.value)
      (flushBytes fuel writer)
  | 0, writer, hfuel, hok, hroom, hval => by
    have hcount : writer.count = 0 := by omega
    refine ⟨rfl, ?_⟩
    rw [if_pos]
    · exact ⟨hok, by rw [flushBytes, hcount]; omega, hval, rfl⟩
    · simp [hcount]
      omega
  | fuel + 1, writer, hfuel, hok, hroom, hval => by
    have hlen : (streamBits writer.out ++ bitsOf writer.count writer.value).length =
        8 * writer.out.length + writer.count := by simp
    unfold flushBytes
    split
    · rename_i hcount
      split_ifs
      · refine ⟨rfl, ?_⟩
        rw [if_neg (by rw [hlen]; omega)]
      have hbyte : (UInt8.ofNat (writer.value &&& 255)).toNat = writer.value % 2 ^ 8 := by
        have hand : writer.value &&& 255 = writer.value % 2 ^ 8 :=
          Nat.and_two_pow_sub_one_eq_mod writer.value 8
        rw [hand, UInt8.toNat_ofNat']
        omega
      have hsplit : bitsOf writer.count writer.value = bitsOf 8 (writer.value % 2 ^ 8) ++
            bitsOf (writer.count - 8) (writer.value / 2 ^ 8) := by
        have e : writer.count = 8 + (writer.count - 8) := by omega
        have hlow : bitsOf 8 writer.value = bitsOf 8 (writer.value % 2 ^ 8) := by
          apply eq_of_valueOf_eq
          · simp
          · rw [valueOf_bitsOf, valueOf_bitsOf, Nat.mod_mod]
        conv_lhs => rw [e, bitsOf_add, hlow]
      have hshift : writer.value >>> 8 = writer.value / 2 ^ 8 :=
        Nat.shiftRight_eq_div_pow _ _
      have hval' : writer.value / 2 ^ 8 < 2 ^ (writer.count - 8) := by
        rw [Nat.div_lt_iff_lt_mul (Nat.two_pow_pos _), ← pow_add, Nat.sub_add_cancel hcount]
        exact hval
      have ih := flushBytes_spec fuel
        { writer with
          out := writer.out ++ [UInt8.ofNat (writer.value &&& 255)]
          value := writer.value >>> 8
          count := writer.count - 8 } (by simp only; omega) hok
        (by simp only [length_append, length_singleton]; omega)
        (by rw [hshift]; exact hval')
      simp only [hshift, streamBits_append, streamBits_cons, streamBits_nil,
        append_nil, hbyte] at ih ⊢
      rw [hsplit, ← append_assoc]
      exact ih
    · refine ⟨rfl, ?_⟩
      rw [if_pos (by rw [hlen]; omega)]
      exact ⟨hok, by omega, hval, rfl⟩

variable {capacity : Nat} {writer : BitWriter}

variable {bs : List Bool} {scratch : Nat → Nat} {at_ : Nat} {input : List UInt8}

theorem emitted_writeBits (h : Emitted capacity bs writer) (value count : Nat)
    (hv : value < 2 ^ count) :
    Emitted capacity (bs ++ bitsOf count value) (writeBits writer value count) := by
  unfold writeBits
  cases hok : writer.ok with
  | false => exact h.more hok _
  | true =>
    obtain ⟨hcap, hspec⟩ := h
    split_ifs at hspec with hfit
    · obtain ⟨_, -, hval, rfl⟩ := hspec
      have hroom : writer.out.length ≤ writer.capacity := by
        rw [length_append, streamBits_length, bitsOf_length] at hfit
        omega
      have hval' : writer.value + value * 2 ^ writer.count < 2 ^ (writer.count + count) := by
        have hle : value * 2 ^ writer.count + 2 ^ writer.count ≤ 2 ^ (writer.count + count) := by
          rw [← Nat.succ_mul, pow_add, mul_comm (2 ^ writer.count)]
          exact Nat.mul_le_mul_right _ hv
        omega
      have hflush := flushBytes_spec (writer.count + count)
        { writer with
          value := writer.value + value * 2 ^ writer.count
          count := writer.count + count } le_rfl hok hroom hval'
      simp only [bitsOf_pack _ _ hval, ← append_assoc, hok] at hflush
      rw [← hcap]
      exact hflush
    · rw [hspec] at hok
      cases hok

theorem writeBits_ok {value count : Nat} (h : (writeBits writer value count).ok = true) :
    writer.ok = true := by
  cases hok : writer.ok with
  | true => rfl
  | false =>
    unfold writeBits at h
    simp only [hok, Bool.not_false, if_true] at h
    cases h

theorem emitted_foldl {α : Type} (value count : α → Nat) (capacity : Nat) :
    ∀ (items : List α) {bs : List Bool} {writer : BitWriter},
      Emitted capacity bs writer → (∀ a ∈ items, value a < 2 ^ count a) →
      Emitted capacity (bs ++ items.flatMap (fun a => bitsOf (count a) (value a)))
        (items.foldl (fun writer a => writeBits writer (value a) (count a)) writer)
  | [], bs, writer, h, _ => by simpa using h
  | a :: items, bs, writer, h, hv => by
    have hstep := emitted_writeBits h _ _ (hv a (by simp))
    have := emitted_foldl value count capacity items hstep
      (fun b hb => hv b (mem_cons_of_mem _ hb))
    simpa using this

/-- The bits of a literal, length or end-of-block symbol. -/
def symbolWord (dynamic : Bool) (symbol : Nat) : List Bool :=
  wordOf (symbolCode dynamic symbol).2 (symbolCode dynamic symbol).1

def distanceWord (dynamic : Bool) (index : Nat) : List Bool :=
  wordOf (distanceCode dynamic index).2 (distanceCode dynamic index).1

def lengthBits (dynamic : Bool) (length : Nat) : List Bool :=
  symbolWord dynamic (257 + bucket LengthBase length) ++
    bitsOf (LengthExtra.getD (bucket LengthBase length) 0)
      (length - LengthBase.getD (bucket LengthBase length) 0)

def distanceBits (dynamic : Bool) (distance : Nat) : List Bool :=
  distanceWord dynamic (bucket DistanceBase distance) ++
    bitsOf (DistanceExtra.getD (bucket DistanceBase distance) 0)
      (distance - DistanceBase.getD (bucket DistanceBase distance) 0)

theorem bucketLoop_spec (bases : List Nat) (value : Nat) :
    ∀ (fuel index : Nat), bases.length ≤ fuel + index → index < bases.length →
      bases.getD index 0 ≤ value →
      bucketLoop bases value fuel index < bases.length ∧
      bases.getD (bucketLoop bases value fuel index) 0 ≤ value ∧
      (bucketLoop bases value fuel index + 1 < bases.length →
        value < bases.getD (bucketLoop bases value fuel index + 1) 0)
  | 0, index, hfuel, hlt, _ => by omega
  | fuel + 1, index, hfuel, hlt, hbase => by
    unfold bucketLoop
    split
    · rename_i hnext
      split_ifs with hgt
      · exact ⟨hlt, hbase, fun _ => hgt⟩
      · exact bucketLoop_spec bases value fuel (index + 1) (by omega) hnext (by omega)
    · rename_i hnext
      exact ⟨hlt, hbase, fun h => absurd h hnext⟩

/-- The extra bits of a bucket reach up to the next one. -/
def Covers (bases extras : List Nat) (limit : Nat) : Prop :=
  ∀ i < bases.length,
    (if i + 1 < bases.length then bases.getD (i + 1) 0 else limit + 1) ≤
      bases.getD i 0 + 2 ^ extras.getD i 0

instance (bases extras : List Nat) (limit : Nat) : Decidable (Covers bases extras limit) :=
  inferInstanceAs (Decidable (∀ i < bases.length, _))

theorem lengthBase_covers : Covers LengthBase LengthExtra 258 := by decide

theorem distanceBase_covers : Covers DistanceBase DistanceExtra 32768 := by decide

theorem bucket_spec {bases extras : List Nat} {limit value : Nat}
    (hcov : Covers bases extras limit) (hpos : 0 < bases.length)
    (hlow : bases.getD 0 0 ≤ value) (hhigh : value ≤ limit) :
    bucket bases value < bases.length ∧ bases.getD (bucket bases value) 0 ≤ value ∧
      value - bases.getD (bucket bases value) 0 < 2 ^ extras.getD (bucket bases value) 0 := by
  obtain ⟨h1, h2, h3⟩ := bucketLoop_spec bases value bases.length 0 (by omega) hpos hlow
  refine ⟨h1, h2, ?_⟩
  have hc := hcov _ h1
  change _ - bases.getD (bucketLoop bases value bases.length 0) 0 <
    2 ^ extras.getD (bucketLoop bases value bases.length 0) 0
  split_ifs at hc with hnext
  · have := h3 hnext
    omega
  · omega

theorem length_bucket {length : Nat} (h3 : 3 ≤ length) (h258 : length ≤ 258) :
    bucket LengthBase length < 29 ∧ LengthBase.getD (bucket LengthBase length) 0 ≤ length ∧
      length - LengthBase.getD (bucket LengthBase length) 0 <
        2 ^ LengthExtra.getD (bucket LengthBase length) 0 :=
  bucket_spec lengthBase_covers (by decide) h3 h258

theorem distance_bucket {distance : Nat} (h1 : 1 ≤ distance) (hmax : distance ≤ 32768) :
    bucket DistanceBase distance < 30 ∧
      DistanceBase.getD (bucket DistanceBase distance) 0 ≤ distance ∧
      distance - DistanceBase.getD (bucket DistanceBase distance) 0 <
        2 ^ DistanceExtra.getD (bucket DistanceBase distance) 0 :=
  bucket_spec distanceBase_covers (by decide) h1 hmax

section Emitting

variable {capacity : Nat} {bs : List Bool} {writer : BitWriter}
  (h : Emitted capacity bs writer)
include h

theorem emitted_code (code length : Nat) :
    Emitted capacity (bs ++ wordOf length code)
      (writeBits writer (reverseCode code length) length) := by
  have := emitted_writeBits h _ _ (reverseCode_lt length code)
  rwa [bitsOf_reverseCode] at this

theorem emitted_encodedSymbol (symbol : Nat) (dynamic : Bool) :
    Emitted capacity (bs ++ symbolWord dynamic symbol) (encodedSymbol writer symbol dynamic) :=
  emitted_code h _ _

theorem emitted_writeExtra {value extra : Nat} (hv : value < 2 ^ extra) :
    Emitted capacity (bs ++ bitsOf extra value) (writeExtra writer value extra) := by
  unfold writeExtra
  by_cases hz : extra = 0
  · subst hz
    simpa [bitsOf] using h
  · rw [if_pos hz]
    exact emitted_writeBits h value extra hv

theorem emitted_fixedLength {length : Nat} (h3 : 3 ≤ length) (h258 : length ≤ 258)
    (dynamic : Bool) :
    Emitted capacity (bs ++ lengthBits dynamic length) (fixedLength writer length dynamic) := by
  rw [lengthBits, ← append_assoc]
  exact emitted_writeExtra (emitted_encodedSymbol h _ _) (length_bucket h3 h258).2.2

theorem emitted_fixedDistance {distance : Nat} (h1 : 1 ≤ distance)
    (hmax : distance ≤ 32768) (dynamic : Bool) :
    Emitted capacity (bs ++ distanceBits dynamic distance)
      (fixedDistance writer distance dynamic) := by
  rw [distanceBits, ← append_assoc]
  exact emitted_writeExtra (emitted_code h _ _) (distance_bucket h1 hmax).2.2

end Emitting

inductive Token where
  | literal (byte : UInt8)
  | copy (length distance : Nat)
deriving DecidableEq, Repr

def Token.bits (dynamic : Bool) : Token → List Bool
  | .literal byte => symbolWord dynamic byte.toNat
  | .copy length distance => lengthBits dynamic length ++ distanceBits dynamic distance

/-- The items the loop of the encoder writes from position `at_` on. -/
def huffmanTokens (input : List UInt8) (size : Nat) : Nat → Nat → (Nat → Nat) → List Token
  | 0, _, _ => []
  | fuel + 1, at_, scratch =>
      if at_ < input.length then
        let (found, scratch) := matchRound input size at_ scratch
        if found.1 = 0 then
          .literal (input.getD at_ 0) :: huffmanTokens input size fuel (at_ + 1) scratch
        else .copy found.1 found.2 :: huffmanTokens input size fuel (at_ + found.1) scratch
      else []

def inputTokens (input : List UInt8) (size : Nat) : List Token :=
  huffmanTokens input size input.length 0 (fun _ => 0)

/-- A match at `at_`: the `length` bytes there are those `distance` before. -/
structure MatchAt (input : List UInt8) (at_ length distance : Nat) : Prop where
  length_ge : 3 ≤ length
  length_le : length ≤ 258
  distance_pos : 1 ≤ distance
  distance_le : distance ≤ 32768
  inside : distance ≤ at_
  fits : at_ + length ≤ input.length
  same : ∀ i < length, input.getD (at_ - distance + i) 0 = input.getD (at_ + i) 0

/-- Entries of the hash table are positions before `at_`, each plus one. -/
def Past (scratch : Nat → Nat) (at_ : Nat) : Prop := ∀ hash, scratch hash ≤ at_

theorem past_update {bound position : Nat} (hash : Nat) (h : Past scratch at_) (hle : at_ ≤ bound)
    (hpos : position ≤ bound) : Past (update scratch hash position) bound := by
  intro k
  by_cases hk : k = hash
  · rw [hk, update_self]
    exact hpos
  · rw [update_of_ne hk]
    exact le_trans (h k) hle

theorem matchLoop_spec (input : List UInt8) (candidate at_ : Nat) :
    ∀ (room best : Nat), (∀ i < best, input.getD (candidate + i) 0 = input.getD (at_ + i) 0) →
      matchLoop input candidate at_ room best ≤ best + room ∧
        ∀ i < matchLoop input candidate at_ room best,
          input.getD (candidate + i) 0 = input.getD (at_ + i) 0
  | 0, best, hsame => ⟨le_refl _, hsame⟩
  | room + 1, best, hsame => by
    unfold matchLoop
    split_ifs with heq
    · have hsame' : ∀ i < best + 1, input.getD (candidate + i) 0 = input.getD (at_ + i) 0 := by
        intro i hi
        rcases Nat.lt_or_eq_of_le (Nat.lt_succ_iff.mp hi) with hlt | rfl
        · exact hsame i hlt
        · exact heq
      obtain ⟨h1, h2⟩ := matchLoop_spec input candidate at_ room (best + 1) hsame'
      exact ⟨by omega, h2⟩
    · exact ⟨by omega, hsame⟩

theorem findMatch_spec {previous : Nat} (hprev : previous ≤ at_) (hat : at_ ≤ input.length)
    (hfound : (findMatch input at_ previous).1 ≠ 0) :
    MatchAt input at_ (findMatch input at_ previous).1 (findMatch input at_ previous).2 := by
  unfold findMatch at hfound ⊢
  by_cases hz : previous = 0
  · simp [hz] at hfound
  simp only [ne_eq, hz, not_false_eq_true, if_true] at hfound ⊢
  split at hfound
  · rename_i hfar
    simp only [if_pos hfar] at hfound ⊢
    obtain ⟨h1, h2⟩ := matchLoop_spec input (previous - 1) at_
      (min (input.length - at_) 258) 0 (fun i hi => absurd hi (Nat.not_lt_zero _))
    have hcand : at_ - (at_ - (previous - 1)) = previous - 1 := by omega
    by_cases hshort : matchLoop input (previous - 1) at_ (min (input.length - at_) 258) 0 < 3
    · simp [hshort] at hfound
    · simp only [if_neg hshort] at hfound ⊢
      exact ⟨by omega, by omega, by omega, hfar, by omega, by omega, by rwa [hcand]⟩
  · exact absurd rfl hfound

theorem insertRun_past (input : List UInt8) (size : Nat) :
    ∀ (n : Nat) {scratch : Nat → Nat}, Past scratch (at_ + 1) →
      Past (insertRun input size at_ n scratch) (at_ + n + 1)
  | 0, scratch, h => h
  | n + 1, scratch, h => by
    have ih := insertRun_past input size n h
    unfold insertRun
    split_ifs
    · exact past_update _ ih (by omega) (by omega)
    · exact fun k => le_trans (ih k) (by omega)

/-- One round of the matcher: a match or none, and a table of past positions again. -/
theorem matchRound_spec (size : Nat) (hpast : Past scratch at_) (hat : at_ ≤ input.length) :
    ((matchRound input size at_ scratch).1.1 ≠ 0 →
      MatchAt input at_ (matchRound input size at_ scratch).1.1
        (matchRound input size at_ scratch).1.2) ∧
    Past (matchRound input size at_ scratch).2
      (at_ + max 1 (matchRound input size at_ scratch).1.1) := by
  unfold matchRound
  by_cases hroom : at_ + 2 < input.length
  · simp only [if_pos hroom]
    refine ⟨fun hfound => findMatch_spec (hpast _) hat hfound, ?_⟩
    have hone := past_update (hash3 input at_ size) hpast (Nat.le_succ at_) (le_refl (at_ + 1))
    split_ifs with hz
    · rw [hz]
      exact hone
    have hrun := insertRun_past input size
      ((findMatch input at_ (scratch (hash3 input at_ size))).1 - 1) hone
    exact fun k => le_trans (hrun k) (by omega)
  · simp only [if_neg hroom]
    exact ⟨fun h => absurd rfl h, fun k => le_trans (hpast k) (by omega)⟩

/-- The loop of the encoder writes its items, and ends behind the input unless the
destination is full. -/
theorem huffmanLoop_spec (input : List UInt8) (size : Nat) (dynamic : Bool) :
    ∀ (fuel at_ : Nat) (scratch : Nat → Nat) (bs : List Bool) (writer : BitWriter),
      Emitted capacity bs writer → Past scratch at_ → at_ ≤ input.length →
      input.length ≤ fuel + at_ →
      Emitted capacity
          (bs ++ (huffmanTokens input size fuel at_ scratch).flatMap (Token.bits dynamic))
          (huffmanLoop input size dynamic fuel at_ scratch writer).2 ∧
        ((huffmanLoop input size dynamic fuel at_ scratch writer).2.ok = true →
          (huffmanLoop input size dynamic fuel at_ scratch writer).1 = input.length)
  | 0, at_, scratch, bs, writer, h, _, hat, hfuel => by
    refine ⟨by simpa [huffmanTokens, huffmanLoop] using h, fun _ => ?_⟩
    change at_ = input.length
    omega
  | fuel + 1, at_, scratch, bs, writer, h, hpast, hat, hfuel => by
    obtain ⟨hmatch, hpast'⟩ := matchRound_spec size hpast hat
    unfold huffmanLoop
    cases hok : writer.ok with
    | false =>
      rw [if_neg (by simp)]
      exact ⟨h.more hok _, fun hcon => by simp only [hok] at hcon; cases hcon⟩
    | true =>
      unfold huffmanTokens
      by_cases hlt : at_ < input.length
      · have he : at_ < input.length ∧ true = true := ⟨hlt, rfl⟩
        rw [if_pos he, if_pos hlt]
        rcases hround : matchRound input size at_ scratch with
          ⟨⟨length, distance⟩, scratch'⟩
        rw [hround] at hmatch hpast'
        simp only at hmatch hpast' ⊢
        by_cases hz : length = 0
        · subst hz
          simp only [if_true, flatMap_cons, ← append_assoc]
          exact huffmanLoop_spec input size dynamic fuel (at_ + 1) scratch' _ _
            (emitted_encodedSymbol h _ _) (by simpa using hpast') (by omega) (by omega)
        have hm := hmatch hz
        simp only [if_neg hz, flatMap_cons, ← append_assoc]
        have hfit := hm.fits
        have hstep := emitted_fixedDistance
          (emitted_fixedLength h hm.length_ge hm.length_le dynamic) hm.distance_pos
          hm.distance_le dynamic
        rw [append_assoc] at hstep
        refine huffmanLoop_spec input size dynamic fuel (at_ + length) scratch' _ _ hstep ?_
          hfit (by omega)
        exact fun k => le_trans (hpast' k) (by omega)
      · have he : ¬ (at_ < input.length ∧ true = true) := fun hcon => hlt hcon.1
        rw [if_neg he, if_neg hlt]
        exact ⟨by simpa using h, fun _ => by simp only; omega⟩

/-- The bits of the trees of a dynamic block, behind its first three. -/
def treeBits : List Bool :=
  bitsOf 5 29 ++ bitsOf 5 29 ++ bitsOf 4 15 ++
    codeLengthOrder.flatMap (fun symbol => bitsOf 3 (if symbol ≤ 12 then 4 else 5)) ++
    (List.range 286).flatMap (fun symbol => wordOf 4 (dynamicLength symbol)) ++
    (List.range 30).flatMap (fun symbol => wordOf 4 (if symbol < 2 then 4 else 5))

def blockBits (final dynamic : Bool) (tokens : List Token) : List Bool :=
  bitsOf 1 (if final then 1 else 0) ++
    (if dynamic then bitsOf 2 2 ++ treeBits else bitsOf 2 1) ++
    tokens.flatMap (Token.bits dynamic) ++ symbolWord dynamic 256

theorem emitted_dynamicHeader (h : Emitted capacity bs writer) :
    Emitted capacity (bs ++ (bitsOf 2 2 ++ treeBits)) (dynamicHeader writer) := by
  have h1 := emitted_writeBits h 2 2 (by decide)
  have h2 := emitted_writeBits h1 29 5 (by decide)
  have h3 := emitted_writeBits h2 29 5 (by decide)
  have h4 := emitted_writeBits h3 15 4 (by decide)
  have h5 := emitted_foldl (fun symbol => if symbol ≤ 12 then 4 else 5) (fun _ => 3) capacity
    codeLengthOrder h4 (by decide)
  have h6 := emitted_foldl (fun symbol => reverseCode (dynamicLength symbol) 4) (fun _ => 4)
    capacity (range 286) h5 (fun _ _ => reverseCode_lt 4 _)
  have h7 := emitted_foldl (fun symbol => reverseCode (if symbol < 2 then 4 else 5) 4)
    (fun _ => 4) capacity (range 30) h6 (fun _ _ => reverseCode_lt 4 _)
  simp only [bitsOf_reverseCode] at h7
  simp only [treeBits, ← append_assoc]
  exact h7

def bytesFor (bs : List Bool) : Nat := (bs.length + 7) / 8

theorem lastByte_spec (h : Emitted capacity bs writer) :
    if bytesFor bs ≤ capacity then
      writer.ok = true ∧ (lastByte writer).ok = true ∧ (lastByte writer).out.length = bytesFor bs ∧
        streamBits (lastByte writer).out = bs ++ List.replicate (8 * bytesFor bs - bs.length) false
    else (lastByte writer).ok = false := by
  obtain ⟨hcap, h⟩ := h
  split_ifs at h with hfit
  · obtain ⟨hok, hcount, hval, rfl⟩ := h
    have hlen : (streamBits writer.out ++ bitsOf writer.count writer.value).length =
        8 * writer.out.length + writer.count := by simp
    unfold lastByte bytesFor
    rw [hlen] at hfit ⊢
    by_cases hz : writer.count = 0
    · have hbytes : (8 * writer.out.length + writer.count + 7) / 8 = writer.out.length := by
        omega
      rw [if_pos (by omega), if_neg (fun hcon => hcon.2 hz), hbytes, hz]
      exact ⟨hok, hok, rfl, by simp [bitsOf]⟩
    have hbytes : (8 * writer.out.length + writer.count + 7) / 8 = writer.out.length + 1 := by
      omega
    have hopen : writer.ok = true ∧ writer.count ≠ 0 := ⟨hok, hz⟩
    rw [if_pos hopen, hbytes]
    by_cases hfull : writer.out.length = writer.capacity
    · have hover : ¬ writer.out.length + 1 ≤ capacity := by omega
      rw [if_neg hover, if_pos hfull]
    have hroom : writer.out.length + 1 ≤ capacity := by omega
    rw [if_pos hroom, if_neg hfull]
    refine ⟨hok, hok, by simp, ?_⟩
    have hbyte : (UInt8.ofNat writer.value).toNat = writer.value := by
      have hpow : 2 ^ writer.count ≤ 2 ^ 7 := Nat.pow_le_pow_right (by decide) (by omega)
      rw [UInt8.toNat_ofNat']
      omega
    have hpad : bitsOf 8 writer.value = bitsOf writer.count writer.value ++
        replicate (8 - writer.count) false := by
      have e : 8 = writer.count + (8 - writer.count) := by omega
      conv_lhs => rw [e, bitsOf_add, Nat.div_eq_of_lt hval, bitsOf_zero]
    have hfill : 8 * (writer.out.length + 1) - (8 * writer.out.length + writer.count) =
        8 - writer.count := by
      omega
    rw [streamBits_append, streamBits_cons, hbyte, hpad, hfill]
    simp
  · unfold lastByte bytesFor
    rw [if_neg (by omega), if_neg (by simp [h])]
    exact h

/-- **A Huffman chunk.**  It is complete exactly when the bits of its block fit; then its
bytes are these bits, filled up with zeros. -/
theorem deflateHuffmanChunk_spec (capacity : Nat) (input : List UInt8) (final : Bool)
    {size : Nat} (hsize : size ≠ 0) (dynamic : Bool) :
    let bs := blockBits final dynamic (inputTokens input size)
    let chunk := deflateHuffmanChunk capacity input final size dynamic
    if bytesFor bs ≤ capacity then
      chunk.1 = ⟨bytesFor bs, input.length, true⟩ ∧ chunk.2.length = bytesFor bs ∧
        streamBits chunk.2 = bs ++ replicate (8 * bytesFor bs - bs.length) false
    else chunk.1.ok = false := by
  intro bs chunk
  have h1 := emitted_writeBits (emitted_start capacity) (if final then 1 else 0) 1
    (by split_ifs <;> decide)
  rw [nil_append] at h1
  obtain ⟨header, hheader, h2⟩ : ∃ header, header =
      (if dynamic then dynamicHeader
        (writeBits ⟨capacity, [], 0, 0, true⟩ (if final then 1 else 0) 1)
        else writeBits (writeBits ⟨capacity, [], 0, 0, true⟩ (if final then 1 else 0) 1) 1 2) ∧
      Emitted capacity (bitsOf 1 (if final then 1 else 0) ++
        (if dynamic then bitsOf 2 2 ++ treeBits else bitsOf 2 1)) header := by
    refine ⟨_, rfl, ?_⟩
    cases dynamic with
    | true =>
      rw [if_pos rfl, if_pos rfl]
      exact emitted_dynamicHeader h1
    | false =>
      rw [if_neg Bool.false_ne_true, if_neg Bool.false_ne_true]
      exact emitted_writeBits h1 1 2 (by decide)
  obtain ⟨h3, hend⟩ := huffmanLoop_spec input size dynamic
    input.length 0 (fun _ => 0) _ header h2 (fun _ => Nat.zero_le _) (Nat.zero_le _)
    le_rfl
  rcases hloop : huffmanLoop input size dynamic input.length 0 (fun _ => 0) header with
    ⟨at_, looped⟩
  rw [hloop] at h3 hend
  have hlast := lastByte_spec (emitted_encodedSymbol h3 256 dynamic)
  have hsticky : (encodedSymbol looped 256 dynamic).ok = true → looped.ok = true :=
    writeBits_ok
  have hchunk : chunk = (⟨(lastByte (encodedSymbol looped 256 dynamic)).out.length, at_,
      (lastByte (encodedSymbol looped 256 dynamic)).ok⟩,
      (lastByte (encodedSymbol looped 256 dynamic)).out) := by
    simp only [chunk, deflateHuffmanChunk, if_neg hsize, ← hheader, hloop]
  rw [hchunk]
  change if bytesFor bs ≤ capacity then _ else _ at hlast
  by_cases hfit : bytesFor bs ≤ capacity
  · rw [if_pos hfit] at hlast ⊢
    obtain ⟨hok, hok', hlen, hstream⟩ := hlast
    have hat : at_ = input.length := hend (hsticky hok)
    rw [hlen, hok', hat]
    exact ⟨rfl, rfl, hstream⟩
  · rw [if_neg hfit] at hlast ⊢
    exact hlast

end Dyn.Compress
