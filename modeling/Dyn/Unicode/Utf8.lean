import Mathlib.Data.List.GetD
import Mathlib.Tactic

/-!
# std/unicode/utf8: strict decoding

`decode_spec` says what `decode` accepts: the encoding of a scalar value, which Lean's own
`String.utf8EncodeChar` gives.  `valid_iff` lifts this to whole texts.
-/

namespace Dyn.Unicode

open List

structure Decode where
  codepoint : Nat := 0
  width : Nat
  ok : Bool
deriving DecidableEq, Repr

/-- Width, leading bits and least value of a sequence with this first byte. -/
def lead (first : Nat) : Option (Nat × Nat × Nat) :=
  if first ≥ 194 ∧ first ≤ 223 then some (2, first &&& 31, 128)
  else if first ≥ 224 ∧ first ≤ 239 then some (3, first &&& 15, 2048)
  else if first ≥ 240 ∧ first ≤ 244 then some (4, first &&& 7, 65536)
  else none

def decodeTail (text : List UInt8) : Nat → Nat → Nat → Option Nat
  | 0, _, value => some value
  | n + 1, at_, value =>
      let byte := (text.getD at_ 0).toNat
      if byte < 128 ∨ byte > 191 then none
      else decodeTail text n (at_ + 1) ((value <<< 6) ||| (byte &&& 63))

def decode (text : List UInt8) (offset : Nat) : Decode :=
  if offset ≥ text.length then ⟨0, 0, false⟩
  else
    let first := (text.getD offset 0).toNat
    if first < 128 then ⟨first, 1, true⟩
    else
      match lead first with
      | none => ⟨0, 1, false⟩
      | some (width, value, minimum) =>
          if width > text.length - offset then ⟨0, 1, false⟩
          else
            match decodeTail text (width - 1) (offset + 1) value with
            | none => ⟨0, 1, false⟩
            | some value =>
                if value < minimum ∨ value > 1114111 ∨ (value ≥ 55296 ∧ value ≤ 57343) then
                  ⟨0, 1, false⟩
                else ⟨value, width, true⟩

/-- The loop of `valid`; every round consumes a byte. -/
def validLoop (text : List UInt8) : Nat → Nat → Bool
  | 0, _ => true
  | fuel + 1, offset =>
      if offset < text.length then
        if (text.getD offset 0).toNat < 128 then validLoop text fuel (offset + 1)
        else
          let decoded := decode text offset
          if !decoded.ok then false else validLoop text fuel (offset + decoded.width)
      else true

def valid (text : List UInt8) : Bool := validLoop text text.length 0

abbrev encoding (c : Char) : List UInt8 := String.utf8EncodeChar c

def Scalar (v : Nat) : Prop := v < 55296 ∨ (57343 < v ∧ v < 1114112)

variable (c : Char)

theorem scalar_char : Scalar c.val.toNat := c.valid

/-- The character with a given scalar value. -/
def charOf (v : Nat) (h : Scalar v) : Char := ⟨UInt32.ofNat v, by
  have hlt : v < 2 ^ 32 := by
    unfold Scalar at h
    omega
  change (UInt32.ofNat v).toNat.isValidChar
  rw [UInt32.toNat_ofNat_of_lt' hlt]
  exact h⟩

@[simp] theorem charOf_val {v : Nat} (h : Scalar v) : (charOf v h).val.toNat = v := by
  have hlt : v < 2 ^ 32 := by
    unfold Scalar at h
    omega
  change (UInt32.ofNat v).toNat = v
  rw [UInt32.toNat_ofNat_of_lt' hlt]

theorem char_ext {c d : Char} (h : c.val.toNat = d.val.toNat) : c = d :=
  Char.ext (UInt32.toNat_inj.mp h)

theorem encoding_cases :
    (c.val.toNat < 128 ∧ encoding c = [UInt8.ofNat c.val.toNat]) ∨
    (128 ≤ c.val.toNat ∧ c.val.toNat < 2048 ∧
      encoding c = [UInt8.ofNat (c.val.toNat / 64 + 192), UInt8.ofNat (c.val.toNat % 64 + 128)]) ∨
    (2048 ≤ c.val.toNat ∧ c.val.toNat < 65536 ∧
      encoding c = [UInt8.ofNat (c.val.toNat / 4096 + 224),
        UInt8.ofNat (c.val.toNat / 64 % 64 + 128), UInt8.ofNat (c.val.toNat % 64 + 128)]) ∨
    (65536 ≤ c.val.toNat ∧ encoding c = [UInt8.ofNat (c.val.toNat / 262144 + 240),
        UInt8.ofNat (c.val.toNat / 4096 % 64 + 128), UInt8.ofNat (c.val.toNat / 64 % 64 + 128),
        UInt8.ofNat (c.val.toNat % 64 + 128)]) := by
  have hs := scalar_char c
  unfold Scalar at hs
  unfold encoding String.utf8EncodeChar
  generalize c.val.toNat = v at hs ⊢
  simp only
  split_ifs with h1 h2 h3
  · exact .inl ⟨by omega, rfl⟩
  · refine .inr (.inl ⟨by omega, by omega, ?_⟩)
    rw [Nat.mod_eq_of_lt (show v / 64 < 32 by omega)]
  · refine .inr (.inr (.inl ⟨by omega, by omega, ?_⟩))
    rw [Nat.mod_eq_of_lt (show v / 4096 < 16 by omega)]
  · refine .inr (.inr (.inr ⟨by omega, ?_⟩))
    rw [Nat.mod_eq_of_lt (show v / 262144 < 8 by omega)]

theorem ofNat_eq {n : Nat} {b : UInt8} (h : n = b.toNat) : UInt8.ofNat n = b := by
  rw [h]
  exact UInt8.ofNat_toNat

theorem toNat_ofNat_lt {n : Nat} (h : n < 256) : (UInt8.ofNat n).toNat = n := by
  rw [UInt8.toNat_ofNat_of_lt' h]

theorem shift_or (value byte : Nat) :
    (value <<< 6) ||| (byte &&& 63) = value * 64 + byte % 64 := by
  have hand : byte &&& 63 = byte % 64 := Nat.and_two_pow_sub_one_eq_mod byte 6
  have hlt : byte % 64 < 2 ^ 6 := Nat.mod_lt _ (by decide)
  rw [hand, ← Nat.shiftLeft_add_eq_or_of_lt hlt, Nat.shiftLeft_eq]

variable (text : List UInt8)

theorem decodeTail_zero (at_ value : Nat) : decodeTail text 0 at_ value = some value := rfl

theorem decodeTail_succ (n at_ value : Nat) :
    decodeTail text (n + 1) at_ value =
      if (text.getD at_ 0).toNat < 128 ∨ (text.getD at_ 0).toNat > 191 then none
      else decodeTail text n (at_ + 1) (value * 64 + (text.getD at_ 0).toNat % 64) := by
  rw [decodeTail, shift_or]

/-- The cases of the first byte, with the mask of each written as a remainder. -/
theorem lead_cases (first : Nat) :
    (194 ≤ first ∧ first ≤ 223 ∧ lead first = some (2, first % 32, 128)) ∨
    (224 ≤ first ∧ first ≤ 239 ∧ lead first = some (3, first % 16, 2048)) ∨
    (240 ≤ first ∧ first ≤ 244 ∧ lead first = some (4, first % 8, 65536)) ∨
    ((first < 194 ∨ 244 < first) ∧ lead first = none) := by
  have h5 : first &&& 31 = first % 32 := Nat.and_two_pow_sub_one_eq_mod first 5
  have h4 : first &&& 15 = first % 16 := Nat.and_two_pow_sub_one_eq_mod first 4
  have h3 : first &&& 7 = first % 8 := Nat.and_two_pow_sub_one_eq_mod first 3
  unfold lead
  rw [h5, h4, h3]
  split_ifs with h1 h2 h3
  · exact .inl ⟨h1.1, h1.2, rfl⟩
  · exact .inr (.inl ⟨h2.1, h2.2, rfl⟩)
  · exact .inr (.inr (.inl ⟨h3.1, h3.2, rfl⟩))
  · exact .inr (.inr (.inr ⟨by omega, rfl⟩))

theorem decodeTail_continued {n at_ value : Nat} (m : Nat)
    (h : text.getD at_ 0 = UInt8.ofNat (m % 64 + 128)) :
    decodeTail text (n + 1) at_ value = decodeTail text n (at_ + 1) (value * 64 + m % 64) := by
  rw [decodeTail_succ, h, toNat_ofNat_lt (by omega), if_neg (by omega),
    show (m % 64 + 128) % 64 = m % 64 by omega]

theorem decode_lead {bytes : List UInt8} {n width value minimum v : Nat} (hn : 128 ≤ n ∧ n < 256)
    (hlead : lead n = some (width, value, minimum)) (hlen : width ≤ bytes.length + 1)
    (hv : Scalar v) (hmin : minimum ≤ v)
    (htail : decodeTail (UInt8.ofNat n :: bytes) (width - 1) 1 value = some v) :
    decode (UInt8.ofNat n :: bytes) 0 = ⟨v, width, true⟩ := by
  unfold Scalar at hv
  simp only [decode, length_cons, getD_cons_zero, toNat_ofNat_lt hn.2, hlead, Nat.sub_zero, zero_add, htail]
  rw [if_neg (by omega), if_neg (by omega), if_neg (by omega), if_neg (by omega)]

theorem decode_encoding (rest : List UInt8) :
    decode (encoding c ++ rest) 0 = ⟨c.val.toNat, (encoding c).length, true⟩ := by
  have hs := scalar_char c
  have hmax : c.val.toNat < 1114112 := by rcases hs with h | h <;> omega
  rcases encoding_cases c with ⟨hv, he⟩ | ⟨hl, hv, he⟩ | ⟨hl, hv, he⟩ | ⟨hl, he⟩ <;>
    rw [he] <;> generalize c.val.toNat = v at *
  · simp [decode, toNat_ofNat_lt (show v < 256 by omega), hv]
  all_goals simp only [cons_append, nil_append, length_cons, length_nil, zero_add, Nat.reduceAdd]
  · rcases lead_cases (v / 64 + 192) with ⟨_, _, hlead⟩ | h | h | h
    · refine decode_lead (by omega) hlead (by simp) hs hl ?_
      rw [decodeTail_continued _ v rfl, decodeTail_zero]
      exact congrArg some (by omega)
    all_goals omega
  · rcases lead_cases (v / 4096 + 224) with h | ⟨_, _, hlead⟩ | h | h
    · omega
    · refine decode_lead (by omega) hlead (by simp) hs hl ?_
      rw [decodeTail_continued _ (v / 64) rfl, decodeTail_continued _ v rfl, decodeTail_zero]
      exact congrArg some (by omega)
    all_goals omega
  rcases lead_cases (v / 262144 + 240) with h | h | ⟨_, _, hlead⟩ | h
  · omega
  · omega
  · refine decode_lead (by omega) hlead (by simp) hs hl ?_
    rw [decodeTail_continued _ (v / 4096) rfl, decodeTail_continued _ (v / 64) rfl,
      decodeTail_continued _ v rfl, decodeTail_zero]
    exact congrArg some (by omega)
  · omega

theorem encoding_of_bytes {v : Nat} (hv : Scalar v) {bytes : List UInt8}
    (h : (∃ a, bytes = [a] ∧ v < 128 ∧ v = a.toNat) ∨
      (∃ a b, bytes = [a, b] ∧ 128 ≤ v ∧ v < 2048 ∧ v / 64 + 192 = a.toNat ∧
        v % 64 + 128 = b.toNat) ∨
      (∃ a b c, bytes = [a, b, c] ∧ 2048 ≤ v ∧ v < 65536 ∧ v / 4096 + 224 = a.toNat ∧
        v / 64 % 64 + 128 = b.toNat ∧ v % 64 + 128 = c.toNat) ∨
      (∃ a b c d, bytes = [a, b, c, d] ∧ 65536 ≤ v ∧ v / 262144 + 240 = a.toNat ∧
        v / 4096 % 64 + 128 = b.toNat ∧ v / 64 % 64 + 128 = c.toNat ∧
        v % 64 + 128 = d.toNat)) :
    encoding (charOf v hv) = bytes := by
  have he := encoding_cases (charOf v hv)
  rw [charOf_val] at he
  rcases h with ⟨a, rfl, hlt, ha⟩ | ⟨a, b, rfl, hle, hlt, ha, hb⟩ |
      ⟨a, b, c, rfl, hle, hlt, ha, hb, hc⟩ | ⟨a, b, c, d, rfl, hle, ha, hb, hc, hd⟩
  · rcases he with ⟨_, he⟩ | he | he | he
    · rw [he, ofNat_eq ha]
    all_goals omega
  · rcases he with he | ⟨_, _, he⟩ | he | he
    · omega
    · rw [he, ofNat_eq ha, ofNat_eq hb]
    all_goals omega
  · rcases he with he | he | ⟨_, _, he⟩ | he
    · omega
    · omega
    · rw [he, ofNat_eq ha, ofNat_eq hb, ofNat_eq hc]
    · omega
  · rcases he with he | he | he | ⟨_, he⟩
    · omega
    · omega
    · omega
    · rw [he, ofNat_eq ha, ofNat_eq hb, ofNat_eq hc, ofNat_eq hd]

theorem scalar_of_checks {value minimum : Nat}
    (h : ¬ (value < minimum ∨ value > 1114111 ∨ (value ≥ 55296 ∧ value ≤ 57343))) :
    Scalar value ∧ minimum ≤ value := by
  unfold Scalar
  omega

theorem decodeTail_byte {n at_ value v : Nat} {b : UInt8} (hb : text.getD at_ 0 = b)
    (h : decodeTail text (n + 1) at_ value = some v) : 128 ≤ b.toNat ∧ b.toNat ≤ 191 ∧
      decodeTail text n (at_ + 1) (value * 64 + b.toNat % 64) = some v := by
  rw [decodeTail_succ, hb] at h
  split_ifs at h
  exact ⟨by omega, by omega, h⟩

theorem decode_ok {text : List UInt8} (h : (decode text 0).ok = true) :
    ∃ c rest, text = encoding c ++ rest := by
  unfold decode at h
  cases text with
  | nil => simp at h
  | cons a text =>
    simp only [length_cons, getD_cons_zero] at h
    rw [if_neg (by omega)] at h
    by_cases hascii : a.toNat < 128
    · have hv : Scalar a.toNat := by
        unfold Scalar
        omega
      exact ⟨charOf a.toNat hv, text, by
        rw [encoding_of_bytes hv (.inl ⟨a, rfl, hascii, rfl⟩)]
        rfl⟩
    rw [if_neg hascii] at h
    have hwide : ∀ {width value minimum : Nat}, lead a.toNat = some (width, value, minimum) →
        width ≤ text.length + 1 ∧ ∃ v, Scalar v ∧ minimum ≤ v ∧
          decodeTail (a :: text) (width - 1) 1 value = some v := by
      intro width value minimum hlead
      rw [hlead] at h
      simp only at h
      split_ifs at h with hlen
      split at h
      · cases h
      rename_i v htail
      split_ifs at h with hbad
      obtain ⟨hv, hmin⟩ := scalar_of_checks hbad
      exact ⟨by omega, v, hv, hmin, htail⟩
    rcases lead_cases a.toNat with ⟨_, _, hlead⟩ | ⟨_, _, hlead⟩ | ⟨_, _, hlead⟩ | ⟨_, hlead⟩
    · obtain ⟨hlen, v, hv, hmin, htail⟩ := hwide hlead
      obtain _ | ⟨b, rest⟩ := text <;> simp at hlen
      obtain ⟨_, _, htail⟩ := decodeTail_byte _ (b := b) rfl htail
      cases htail
      refine ⟨charOf _ hv, rest, ?_⟩
      rw [encoding_of_bytes hv (.inr (.inl ⟨a, b, rfl, by omega, by omega, by omega, by omega⟩))]
      rfl
    · obtain ⟨hlen, v, hv, hmin, htail⟩ := hwide hlead
      obtain _ | ⟨b, _ | ⟨c, rest⟩⟩ := text <;> simp at hlen
      obtain ⟨_, _, htail⟩ := decodeTail_byte _ (b := b) rfl htail
      obtain ⟨_, _, htail⟩ := decodeTail_byte _ (b := c) rfl htail
      cases htail
      refine ⟨charOf _ hv, rest, ?_⟩
      rw [encoding_of_bytes hv (.inr (.inr (.inl
        ⟨a, b, c, rfl, by omega, by omega, by omega, by omega, by omega⟩)))]
      rfl
    · obtain ⟨hlen, v, hv, hmin, htail⟩ := hwide hlead
      obtain _ | ⟨b, _ | ⟨c, _ | ⟨d, rest⟩⟩⟩ := text <;> simp at hlen
      obtain ⟨_, _, htail⟩ := decodeTail_byte _ (b := b) rfl htail
      obtain ⟨_, _, htail⟩ := decodeTail_byte _ (b := c) rfl htail
      obtain ⟨_, _, htail⟩ := decodeTail_byte _ (b := d) rfl htail
      cases htail
      refine ⟨charOf _ hv, rest, ?_⟩
      rw [encoding_of_bytes hv (.inr (.inr (.inr
        ⟨a, b, c, d, rfl, by omega, by omega, by omega, by omega, by omega⟩)))]
      rfl
    · rw [hlead] at h
      cases h

theorem decode_spec :
    (∃ c rest, text = encoding c ++ rest ∧
        decode text 0 = ⟨c.val.toNat, (encoding c).length, true⟩) ∨
      ((decode text 0).ok = false ∧ ∀ c rest, text ≠ encoding c ++ rest) := by
  cases h : (decode text 0).ok with
  | true =>
    obtain ⟨c, rest, rfl⟩ := decode_ok h
    exact .inl ⟨c, rest, rfl, decode_encoding c rest⟩
  | false =>
    refine .inr ⟨rfl, fun c rest he => ?_⟩
    rw [he, decode_encoding] at h
    cases h

theorem decodeTail_drop (text : List UInt8) (offset : Nat) :
    ∀ n at_ value, decodeTail (text.drop offset) n at_ value =
      decodeTail text n (offset + at_) value
  | 0, _, _ => rfl
  | n + 1, at_, value => by
    have hget : (text.drop offset).getD at_ 0 = text.getD (offset + at_) 0 := by
      rw [getD_eq_getElem?_getD, getD_eq_getElem?_getD, getElem?_drop]
    rw [decodeTail_succ, decodeTail_succ, hget, decodeTail_drop text offset n, add_assoc]

theorem decode_drop {offset : Nat} (h : offset ≤ text.length) :
    decode text offset = decode (text.drop offset) 0 := by
  have hget : (text.drop offset).getD 0 0 = text.getD offset 0 := by
    rw [getD_eq_getElem?_getD, getD_eq_getElem?_getD, getElem?_drop, add_zero]
  have hlen : offset ≥ text.length ↔ 0 ≥ (text.drop offset).length := by
    rw [length_drop]
    omega
  unfold decode
  simp only [hlen, hget, decodeTail_drop, length_drop, Nat.sub_zero, zero_add]

/-- A text is the encoding of some scalar values. -/
def Utf8 (text : List UInt8) : Prop := ∃ cs : List Char, text = cs.flatMap encoding

theorem utf8_nil : Utf8 [] := ⟨[], rfl⟩

theorem Utf8.cons {text : List UInt8} (c : Char) (h : Utf8 text) : Utf8 (encoding c ++ text) := by
  obtain ⟨cs, rfl⟩ := h
  exact ⟨c :: cs, rfl⟩

theorem encoding_pos : 0 < (encoding c).length := by
  rcases encoding_cases c with ⟨_, he⟩ | ⟨_, _, he⟩ | ⟨_, _, he⟩ | ⟨_, he⟩ <;> rw [he] <;> simp

theorem utf8_split {text : List UInt8} {c : Char} {rest : List UInt8} (h : Utf8 text)
    (he : text = encoding c ++ rest) : Utf8 rest := by
  obtain ⟨cs, rfl⟩ := h
  cases cs with
  | nil =>
    have := encoding_pos c
    have hlen := congrArg length he
    rw [length_append, flatMap_nil, length_nil] at hlen
    omega
  | cons d cs =>
    rw [flatMap_cons] at he
    have hd := decode_encoding d (cs.flatMap encoding)
    rw [he, decode_encoding] at hd
    injection hd with hv hw _
    obtain rfl : c = d := char_ext hv
    exact ⟨cs, (append_cancel_left he).symm⟩

theorem validLoop_iff (text : List UInt8) :
    ∀ fuel offset, offset ≤ text.length → text.length ≤ offset + fuel →
      (validLoop text fuel offset = true ↔ Utf8 (text.drop offset))
  | 0, offset, hle, hfuel => by
    have : text.drop offset = [] := drop_eq_nil_iff.mpr (by omega)
    rw [this]
    exact ⟨fun _ => utf8_nil, fun _ => rfl⟩
  | fuel + 1, offset, hle, hfuel => by
    unfold validLoop
    split
    · rename_i hend
      have hdrop : text.drop offset = text.getD offset 0 :: text.drop (offset + 1) := by
        rw [drop_eq_getElem_cons hend, getD_eq_getElem _ _ hend]
      split_ifs with hascii
      · rw [validLoop_iff text fuel (offset + 1) hend (by omega), hdrop]
        have hv : Scalar (text.getD offset 0).toNat := by
          unfold Scalar
          omega
        have he := encoding_of_bytes hv (.inl ⟨text.getD offset 0, rfl, hascii, rfl⟩)
        have hsplit : text.getD offset 0 :: text.drop (offset + 1) =
            encoding (charOf _ hv) ++ text.drop (offset + 1) := by
          rw [he]
          rfl
        constructor
        · intro h
          rw [hsplit]
          exact h.cons _
        · intro h
          exact utf8_split h hsplit
      rw [decode_drop text hle]
      rcases decode_spec (text.drop offset) with ⟨c, rest, hsplit, hdec⟩ | ⟨hbad, hno⟩
      · rw [hdec]
        have hlen := congrArg length hsplit
        have hpos := encoding_pos c
        rw [length_drop, length_append] at hlen
        have hrest : text.drop (offset + (encoding c).length) = rest := by
          rw [← drop_drop, hsplit, drop_left]
        simp only [Bool.not_true, Bool.false_eq_true, if_false]
        rw [validLoop_iff text fuel _ (by omega) (by omega), hrest]
        constructor
        · intro h
          rw [hsplit]
          exact h.cons c
        · intro h
          exact utf8_split h hsplit
      simp only [hbad, Bool.not_false, if_true]
      constructor
      · intro h
        cases h
      rintro ⟨cs, hcs⟩
      cases cs with
      | nil =>
        have := congrArg length hcs
        rw [length_drop, flatMap_nil, length_nil] at this
        omega
      | cons c cs => exact absurd hcs (hno c _)
    · have : text.drop offset = [] := drop_eq_nil_iff.mpr (by omega)
      rw [this]
      exact ⟨fun _ => utf8_nil, fun _ => rfl⟩

theorem valid_iff : valid text = true ↔ Utf8 text := by
  have := validLoop_iff text text.length 0 (Nat.zero_le _) (by omega)
  rwa [drop_zero] at this

end Dyn.Unicode
