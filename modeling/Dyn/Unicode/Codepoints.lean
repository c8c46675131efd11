import Dyn.Unicode.Utf8

/-!
# std/unicode/utf8: encoding, iteration and recovery

`encode` writes Lean's own encoding of a character, so `valid` accepts what `encode` writes.
`Decodes` is a run of `decode` over a text, from which the iterator and the count are read off.

`decodeRead` is `decode` with a check at each read of the slice.
-/

namespace Dyn.Unicode

open List

def encodedWidth (codepoint : UInt32) : Nat :=
  if codepoint ≤ 127 then 1
  else if codepoint ≤ 2047 then 2
  else if codepoint ≥ 55296 ∧ codepoint ≤ 57343 then 0
  else if codepoint ≤ 65535 then 3
  else if codepoint ≤ 1114111 then 4
  else 0

/-- The width, and the destination afterwards. -/
def encode (destination : List UInt8) (codepoint : UInt32) : Nat × List UInt8 :=
  let width := encodedWidth codepoint
  if width = 0 ∨ destination.length < width then (0, destination)
  else
    let continuation : UInt32 := 128
    let mask : UInt32 := 63
    let lead2 : UInt32 := 192
    let lead3 : UInt32 := 224
    let lead4 : UInt32 := 240
    let bytes :=
      if width = 1 then [codepoint.toUInt8]
      else if width = 2 then
        [(lead2 ||| (codepoint >>> 6)).toUInt8, (continuation ||| (codepoint &&& mask)).toUInt8]
      else if width = 3 then
        [(lead3 ||| (codepoint >>> 12)).toUInt8, (continuation ||| ((codepoint >>> 6) &&& mask)).toUInt8,
          (continuation ||| (codepoint &&& mask)).toUInt8]
      else
        [(lead4 ||| (codepoint >>> 18)).toUInt8, (continuation ||| ((codepoint >>> 12) &&& mask)).toUInt8,
          (continuation ||| ((codepoint >>> 6) &&& mask)).toUInt8,
          (continuation ||| (codepoint &&& mask)).toUInt8]
    (width, bytes ++ destination.drop width)

/-- What `encode` writes. -/
def encoded (codepoint : UInt32) : List UInt8 :=
  let (width, destination) := encode [0, 0, 0, 0] codepoint
  destination.take width

structure Count where
  value : Nat := 0
  ok : Bool := false
deriving DecidableEq, Repr

/-- The loop of `codepoint_count`; every round consumes a byte. -/
def countLoop (text : List UInt8) : Nat → Nat → Nat → Count
  | 0, _, total => ⟨total, true⟩
  | fuel + 1, offset, total =>
      if offset < text.length then
        let decoded := decode text offset
        if !decoded.ok then {} else countLoop text fuel (offset + decoded.width) (total + 1)
      else ⟨total, true⟩

def codepointCount (text : List UInt8) : Count := countLoop text text.length 0 0

structure Iterator where
  text : List UInt8
  offset : Nat

def iterator (text : List UInt8) : Iterator := ⟨text, 0⟩

structure Next where
  value : Nat := 0
  ok : Bool := false
deriving DecidableEq, Repr

def next (state : Iterator) : Next × Iterator :=
  if state.offset ≥ state.text.length then ({}, state)
  else
    let decoded := decode state.text state.offset
    if !decoded.ok then ({}, state)
    else (⟨decoded.codepoint, true⟩, { state with offset := state.offset + decoded.width })

/-- `decodeTail` with its reads checked. -/
def readTail (text : List UInt8) : Nat → Nat → Nat → Option (Option Nat)
  | 0, _, value => some (some value)
  | n + 1, at_, value => do
      let byte ← text[at_]?
      if byte.toNat < 128 ∨ byte.toNat > 191 then some none
      else readTail text n (at_ + 1) ((value <<< 6) ||| (byte.toNat &&& 63))

/-- `decode` with its reads checked: `none` is a read outside of the slice. -/
def decodeRead (text : List UInt8) (offset : Nat) : Option Decode :=
  if offset ≥ text.length then some ⟨0, 0, false⟩
  else do
    let first ← text[offset]?
    if first.toNat < 128 then some ⟨first.toNat, 1, true⟩
    else
      match lead first.toNat with
      | none => some ⟨0, 1, false⟩
      | some (width, value, minimum) =>
          if width > text.length - offset then some ⟨0, 1, false⟩
          else do
            let value ← readTail text (width - 1) (offset + 1) value
            match value with
            | none => some ⟨0, 1, false⟩
            | some value =>
                if value < minimum ∨ value > 1114111 ∨ (value ≥ 55296 ∧ value ≤ 57343) then
                  some ⟨0, 1, false⟩
                else some ⟨value, width, true⟩

/-- Calls of `decode`, each behind the bytes of the last one, until one fails. -/
inductive Decodes (text : List UInt8) : Nat → List Nat → Nat → Prop
  | stop {offset : Nat} (h : (decode text offset).ok = false) : Decodes text offset [] offset
  | step {offset value width finish : Nat} {values : List Nat}
      (h : decode text offset = ⟨value, width, true⟩)
      (rest : Decodes text (offset + width) values finish) :
      Decodes text offset (value :: values) finish

/-- Calls of `next`, until one fails. -/
inductive Yields : Iterator → List Nat → Iterator → Prop
  | stop {state : Iterator} (h : next state = ({}, state)) : Yields state [] state
  | step {state state' finish : Iterator} {value : Nat} {values : List Nat}
      (h : next state = (⟨value, true⟩, state')) (rest : Yields state' values finish) :
      Yields state (value :: values) finish

section Encode

variable (c : Char)

/-- The marker bits of a byte are above the bits that it carries. -/
theorem marked_byte (high k : Nat) {marker low : UInt32} (hmarker : marker.toNat = high <<< k)
    (hlow : low.toNat < 2 ^ k) (hfits : high * 2 ^ k + low.toNat < 256) :
    (marker ||| low).toUInt8 = UInt8.ofNat (low.toNat + marker.toNat) := by
  apply UInt8.toNat_inj.mp
  have hor : marker.toNat ||| low.toNat = high * 2 ^ k + low.toNat := by
    rw [hmarker, ← Nat.shiftLeft_add_eq_or_of_lt hlow, Nat.shiftLeft_eq]
  have hsum : low.toNat + marker.toNat = high * 2 ^ k + low.toNat := by
    rw [hmarker, Nat.shiftLeft_eq, add_comm]
  rw [UInt32.toNat_toUInt8, UInt32.toNat_or, hor, hsum, Nat.mod_eq_of_lt hfits,
    toNat_ofNat_lt hfits]

theorem continuation_byte (low : UInt32) :
    ((128 : UInt32) ||| (low &&& 63)).toUInt8 = UInt8.ofNat (low.toNat % 64 + 128) := by
  have hand : (low &&& 63).toNat = low.toNat % 64 := by
    rw [UInt32.toNat_and]
    exact Nat.and_two_pow_sub_one_eq_mod low.toNat 6
  rw [marked_byte 2 6 rfl (by omega) (by omega), hand]
  rfl

theorem encodedWidth_char : encodedWidth c.val = (encoding c).length := by
  have hs := scalar_char c
  unfold Scalar at hs
  simp only [encodedWidth, UInt32.le_iff_toNat_le, ge_iff_le, UInt32.reduceToNat]
  rcases encoding_cases c with ⟨hv, he⟩ | ⟨hl, hv, he⟩ | ⟨hl, hv, he⟩ | ⟨hl, he⟩ <;> rw [he]
  · rw [if_pos (by omega)]
    rfl
  · rw [if_neg (by omega), if_pos (by omega)]
    rfl
  · rw [if_neg (by omega), if_neg (by omega), if_neg (by omega), if_pos (by omega)]
    rfl
  · rw [if_neg (by omega), if_neg (by omega), if_neg (by omega), if_neg (by omega), if_pos (by omega)]
    rfl

/-- **`encode` writes the encoding,** and leaves the rest of the destination. -/
theorem encode_char (destination : List UInt8) (h : (encoding c).length ≤ destination.length) :
    encode destination c.val =
      ((encoding c).length, encoding c ++ destination.drop (encoding c).length) := by
  have hs := scalar_char c
  unfold Scalar at hs
  have h6 : (c.val >>> 6).toNat = c.val.toNat / 64 := by
    rw [UInt32.toNat_shiftRight]
    exact Nat.shiftRight_eq_div_pow _ 6
  have h12 : (c.val >>> 12).toNat = c.val.toNat / 4096 := by
    rw [UInt32.toNat_shiftRight]
    exact Nat.shiftRight_eq_div_pow _ 12
  have h18 : (c.val >>> 18).toNat = c.val.toNat / 262144 := by
    rw [UInt32.toNat_shiftRight]
    exact Nat.shiftRight_eq_div_pow _ 18
  have hpos := encoding_pos c
  unfold encode
  simp only [encodedWidth_char, continuation_byte, h6, h12]
  rw [if_neg (by omega)]
  rcases encoding_cases c with ⟨hv, he⟩ | ⟨hl, hv, he⟩ | ⟨hl, hv, he⟩ | ⟨hl, he⟩ <;> rw [he] <;>
    simp only [length_cons, length_nil, Nat.reduceAdd, Nat.reduceEqDiff, reduceIte]
  · have hbyte : c.val.toUInt8 = UInt8.ofNat c.val.toNat := by
      apply UInt8.toNat_inj.mp
      rw [UInt32.toNat_toUInt8, toNat_ofNat_lt (by omega), Nat.mod_eq_of_lt (by omega)]
    rw [hbyte]
  · rw [marked_byte 6 5 rfl (by omega) (by omega), h6]
    rfl
  · rw [marked_byte 14 4 rfl (by omega) (by omega), h12]
    rfl
  · rw [marked_byte 30 3 rfl (by omega) (by omega), h18]
    rfl

theorem encoded_char : encoded c.val = encoding c := by
  have hlength : (encoding c).length ≤ 4 := by
    rcases encoding_cases c with ⟨_, he⟩ | ⟨_, _, he⟩ | ⟨_, _, he⟩ | ⟨_, he⟩ <;> rw [he] <;> simp
  unfold encoded
  rw [encode_char c [0, 0, 0, 0] hlength]
  exact take_left

end Encode

section Decode

variable {text : List UInt8} {offset finish : Nat} {values : List Nat}

theorem readTail_eq (text : List UInt8) : ∀ n at_ value, at_ + n ≤ text.length →
    readTail text n at_ value = some (decodeTail text n at_ value)
  | 0, _, _, _ => rfl
  | n + 1, at_, value, h => by
    have hget : text[at_]? = some (text.getD at_ 0) := by
      rw [getElem?_eq_getElem (by omega), getD_eq_getElem _ _ (by omega)]
    rw [readTail, decodeTail, hget]
    dsimp only [bind, Option.bind]
    split_ifs
    · rfl
    · exact readTail_eq text n (at_ + 1) _ (by omega)

theorem decodeRead_eq (text : List UInt8) (offset : Nat) :
    decodeRead text offset = some (decode text offset) := by
  unfold decodeRead decode
  split_ifs with hend
  · rfl
  have hget : text[offset]? = some (text.getD offset 0) := by
    rw [getElem?_eq_getElem (by omega), getD_eq_getElem _ _ (by omega)]
  rw [hget]
  dsimp only [bind, Option.bind]
  split_ifs
  · rfl
  rcases lead_cases (text.getD offset 0).toNat with ⟨_, _, hlead⟩ | ⟨_, _, hlead⟩ | ⟨_, _, hlead⟩ | ⟨_, hlead⟩ <;>
    rw [hlead] <;> dsimp only
  all_goals
    split_ifs with hwidth
    · rfl
    rw [readTail_eq text _ _ _ (by omega)]
    generalize decodeTail text _ _ _ = tail
    cases tail with
    | none => rfl
    | some value =>
      dsimp only
      split_ifs <;> rfl

theorem decode_failed (h : (decode text offset).ok = false) :
    (decode text offset).width = if offset < text.length then 1 else 0 := by
  revert h
  unfold decode
  split_ifs with hend hinside hinside
  · omega
  · exact fun _ => rfl
  · dsimp only
    split_ifs
    · nofun
    split
    · exact fun _ => rfl
    split_ifs
    · exact fun _ => rfl
    split
    · exact fun _ => rfl
    split_ifs
    · exact fun _ => rfl
    · nofun
  · omega

theorem decode_within (h : (decode text offset).ok = true) :
    0 < (decode text offset).width ∧ offset + (decode text offset).width ≤ text.length := by
  have hend : offset < text.length := by
    by_contra hend
    rw [decode, if_pos (by omega)] at h
    cases h
  rw [decode_drop text hend.le] at h ⊢
  rcases decode_spec (text.drop offset) with ⟨c, rest, hsplit, hdecode⟩ | ⟨hbad, -⟩
  · have hlength := congrArg length hsplit
    rw [length_drop, length_append] at hlength
    rw [hdecode]
    exact ⟨encoding_pos c, by dsimp only; omega⟩
  · rw [hbad] at h
    cases h

theorem Decodes.count (h : Decodes text offset values finish) (hfinish : finish = text.length) :
    ∀ fuel total, text.length ≤ offset + fuel →
      countLoop text fuel offset total = ⟨total + values.length, true⟩ := by
  induction h with
  | stop =>
    intro fuel total _
    cases fuel with
    | zero => rfl
    | succ fuel => rw [countLoop, if_neg (by omega)]; rfl
  | @step offset value width finish values h rest ih =>
    intro fuel total hfuel
    obtain ⟨hpos, hle⟩ := @decode_within text offset (by rw [h])
    rw [h] at hpos hle
    dsimp only at hpos hle
    obtain ⟨fuel, rfl⟩ : ∃ k, fuel = k + 1 := ⟨fuel - 1, by omega⟩
    rw [countLoop, if_pos (by omega), h]
    simp only [Bool.not_true, Bool.false_eq_true, if_false]
    rw [ih hfinish fuel (total + 1) (by omega), length_cons, add_assoc, add_comm 1]

theorem Decodes.yields (h : Decodes text offset values finish) :
    Yields ⟨text, offset⟩ values ⟨text, finish⟩ := by
  induction h with
  | stop h =>
    refine .stop ?_
    unfold next
    dsimp only
    rw [h, Bool.not_false, if_pos rfl, ite_self]
  | @step offset value width finish values h rest ih =>
    refine .step ?_ ih
    obtain ⟨hpos, hle⟩ := @decode_within text offset (by rw [h])
    rw [h] at hpos hle
    unfold next
    dsimp only at hpos hle ⊢
    rw [if_neg (by omega), h]
    rfl

theorem decodes_encodings : ∀ (cs : List Char) (front : List UInt8),
    Decodes (front ++ cs.flatMap encoding) front.length (cs.map (·.val.toNat))
      (front ++ cs.flatMap encoding).length
  | [], front => by
    rw [flatMap_nil, append_nil]
    exact .stop (by rw [decode, if_pos le_rfl])
  | c :: cs, front => by
    have hrest := decodes_encodings cs (front ++ encoding c)
    rw [flatMap_cons, map_cons, ← append_assoc]
    refine .step ?_ (by rwa [length_append] at hrest)
    rw [decode_drop _ (by rw [append_assoc, length_append]; omega), append_assoc, drop_left,
      decode_encoding]

end Decode

/-- **UTF-8 decoding is exact.** -/
theorem utf8_exact :
    (∀ (c : Char) (destination : List UInt8), (encoded c.val).length ≤ destination.length →
      encode destination c.val =
        ((encoded c.val).length, encoded c.val ++ destination.drop (encoded c.val).length)) ∧
    (∀ text, valid text = true ↔ ∃ cs : List Char, text = cs.flatMap fun c => encoded c.val) ∧
    (∀ (cs : List Char) (text : List UInt8), text = cs.flatMap (fun c => encoded c.val) →
      Decodes text 0 (cs.map (·.val.toNat)) text.length ∧
      Yields (iterator text) (cs.map (·.val.toNat)) ⟨text, text.length⟩ ∧
      codepointCount text = ⟨cs.length, true⟩) ∧
    ∀ text offset, decodeRead text offset = some (decode text offset) ∧
      ((decode text offset).ok = false →
        (decode text offset).width = if offset < text.length then 1 else 0) ∧
      ((decode text offset).ok = true →
        0 < (decode text offset).width ∧ offset + (decode text offset).width ≤ text.length) := by
  simp only [encoded_char]
  refine ⟨encode_char, valid_iff, ?_, fun text offset =>
    ⟨decodeRead_eq text offset, decode_failed, decode_within⟩⟩
  rintro cs text rfl
  have h := decodes_encodings cs []
  refine ⟨h, h.yields, ?_⟩
  have hcount := h.count rfl (cs.flatMap encoding).length 0 (Nat.le_add_left _ _)
  rwa [length_map, zero_add] at hcount

theorem utf8_exact_euro :
    Decodes [226, 130, 172, 33] 0 [8364, 33] 4 ∧ Yields (iterator [226, 130, 172, 33]) [8364, 33] ⟨[226, 130, 172, 33], 4⟩ ∧
      codepointCount [226, 130, 172, 33] = ⟨2, true⟩ :=
  utf8_exact.2.2.1 [Char.ofNat 8364, '!'] [226, 130, 172, 33] (by decide)

end Dyn.Unicode
