import Dyn.Mem.Arena
import Mathlib.Tactic

/-!
# std/encoding/binary: little-endian numbers and unsigned LEB128

Arithmetic of the source that could overflow is checked here as the language checks it: an
overflow is a panic.  `uleb128_decode_total` says that there is none.
-/

namespace Dyn.Binary

open List
open Mem (Panic)

def loadU32LE (source : List UInt8) : UInt32 :=
  (source.getD 0 0).toUInt32 ||| ((source.getD 1 0).toUInt32 <<< 8) |||
    ((source.getD 2 0).toUInt32 <<< 16) ||| ((source.getD 3 0).toUInt32 <<< 24)

def loadU64LE (source : List UInt8) : UInt64 :=
  (loadU32LE (source.take 4)).toUInt64 ||| ((loadU32LE ((source.drop 4).take 4)).toUInt64 <<< 32)

/-- The bytes that `store_u32_le` stores. -/
def storeU32LE (value : UInt32) : List UInt8 :=
  [value.toUInt8, (value >>> 8).toUInt8, (value >>> 16).toUInt8, (value >>> 24).toUInt8]

def storeU64LE (value : UInt64) : List UInt8 :=
  storeU32LE value.toUInt32 ++ storeU32LE (value >>> 32).toUInt32

@[simp] theorem storeU32LE_length (value : UInt32) : (storeU32LE value).length = 4 := rfl

variable (value : UInt64)

@[simp] theorem storeU64LE_length : (storeU64LE value).length = 8 := rfl

theorem or_byte {x : UInt32} {k : Nat} (b : UInt8) (hk : k ≤ 24) (hx : x.toNat < 2 ^ k) :
    (x ||| (b.toUInt32 <<< UInt32.ofNat k)).toNat = x.toNat + b.toNat * 2 ^ k := by
  have hb := b.toNat_lt
  have hmod : (UInt32.ofNat k).toNat % 32 = k := by
    rw [UInt32.toNat_ofNat']
    omega
  have hpow : 2 ^ k ≤ 2 ^ 24 := Nat.pow_le_pow_right (by decide) hk
  have hsmall : b.toNat * 2 ^ k < 2 ^ 32 := by nlinarith
  have hshift : (b.toUInt32 <<< UInt32.ofNat k).toNat = 2 ^ k * b.toNat := by
    rw [UInt32.toNat_shiftLeft, hmod, UInt8.toNat_toUInt32, Nat.shiftLeft_eq,
      Nat.mod_eq_of_lt hsmall, mul_comm]
  rw [UInt32.toNat_or, hshift, Nat.or_comm, ← Nat.two_pow_add_eq_or_of_lt hx]
  ring

theorem byte_toNat (value : UInt32) {k : Nat} (hk : k < 32) :
    ((value >>> UInt32.ofNat k).toUInt8).toNat = value.toNat / 2 ^ k % 256 := by
  have hmod : (UInt32.ofNat k).toNat % 32 = k := by
    rw [UInt32.toNat_ofNat']
    omega
  rw [UInt32.toNat_toUInt8, UInt32.toNat_shiftRight, hmod, Nat.shiftRight_eq_div_pow]

theorem loadU32LE_store (value : UInt32) : loadU32LE (storeU32LE value) = value := by
  have hlt := value.toNat_lt
  have h0 : (value.toUInt8.toUInt32).toNat = value.toNat % 256 := by
    rw [UInt8.toNat_toUInt32, UInt32.toNat_toUInt8]
  have h1 := byte_toNat value (show 8 < 32 by decide)
  have h2 := byte_toNat value (show 16 < 32 by decide)
  have h3 := byte_toNat value (show 24 < 32 by decide)
  have h01 := @or_byte value.toUInt8.toUInt32 8 (value >>> 8).toUInt8 (by decide)
    (by rw [h0]; omega)
  have h012 := @or_byte _ 16 (value >>> 16).toUInt8 (by decide) (by rw [h01, h0]; erw [h1]; omega)
  have h0123 := @or_byte _ 24 (value >>> 24).toUInt8 (by decide)
    (by rw [h012, h01, h0]; erw [h1, h2]; omega)
  apply UInt32.toNat_inj.mp
  refine h0123.trans ?_
  rw [h012, h01, h0]
  erw [h1, h2, h3]
  omega

theorem loadU64LE_store : loadU64LE (storeU64LE value) = value := by
  have hlt := value.toNat_lt
  have hlow : value.toUInt32.toUInt64.toNat = value.toNat % 2 ^ 32 := by
    rw [UInt32.toNat_toUInt64, UInt64.toNat_toUInt32]
  have hhigh : (value >>> 32).toUInt32.toUInt64.toNat = value.toNat / 2 ^ 32 := by
    rw [UInt32.toNat_toUInt64, UInt64.toNat_toUInt32, UInt64.toNat_shiftRight]
    change value.toNat >>> 32 % _ = _
    rw [Nat.shiftRight_eq_div_pow]
    omega
  have hshift : ((value >>> 32).toUInt32.toUInt64 <<< 32).toNat =
      2 ^ 32 * (value.toNat / 2 ^ 32) := by
    rw [UInt64.toNat_shiftLeft, hhigh]
    change (_ <<< 32) % 2 ^ 64 = _
    rw [Nat.shiftLeft_eq]
    omega
  have hparts : loadU64LE (storeU64LE value) = (loadU32LE (storeU32LE value.toUInt32)).toUInt64 |||
        ((loadU32LE (storeU32LE (value >>> 32).toUInt32)).toUInt64 <<< 32) := rfl
  rw [hparts, loadU32LE_store, loadU32LE_store]
  apply UInt64.toNat_inj.mp
  rw [UInt64.toNat_or, hlow, hshift, Nat.or_comm, ← Nat.two_pow_add_eq_or_of_lt (Nat.mod_lt _ (by decide))]
  omega

structure Decode where
  value : UInt64 := 0
  consumed : Nat := 0
  ok : Bool := false
deriving DecidableEq, Repr

/-- The loop of `uleb128_size`; a 64-bit number takes at most ten rounds. -/
def sizeLoop : Nat → Nat → Nat → Nat
  | 0, _, size => size
  | fuel + 1, value, size =>
      if value ≥ 128 then sizeLoop fuel (value >>> 7) (size + 1) else size

def uleb128Size (value : UInt64) : Nat := sizeLoop 10 value.toNat 1

/-- The loop of `uleb128_encode`. -/
def encodeLoop : Nat → Nat → List UInt8
  | 0, _ => []
  | fuel + 1, value =>
      if value ≥ 128 then (UInt8.ofNat (value &&& 127) ||| 128) :: encodeLoop fuel (value >>> 7)
      else [UInt8.ofNat value]

/-- The bytes written to a destination of the given size. -/
def uleb128Encode (room : Nat) (value : UInt64) : List UInt8 :=
  if uleb128Size value > room then [] else encodeLoop 10 value.toNat

/-- Arithmetic on `u64`. -/
def checked (n : Nat) : Except Panic Nat :=
  if n < 2 ^ 64 then .ok n else .error "integer overflow"

/-- The loop of `uleb128_decode` at index `i`. -/
def decodeLoop : List UInt8 → Nat → Nat → Nat → Except Panic Decode
  | [], _, _, _ => .ok {}
  | byte :: rest, i, value, factor =>
      if i < 10 then
        if i = 9 then
          if byte > 1 then .ok {}
          else
            let value := if byte = 1 then value ||| 9223372036854775808 else value
            if byte < 128 then .ok { value := UInt64.ofNat value, consumed := i + 1, ok := true }
            else decodeLoop rest (i + 1) value factor
        else do
          let product ← checked ((byte &&& 127).toNat * factor)
          let value ← checked (value + product)
          if byte < 128 then
            return { value := UInt64.ofNat value, consumed := i + 1, ok := true }
          else do
            let factor ← checked (if i < 8 then factor * 128 else factor)
            decodeLoop rest (i + 1) value factor
      else .ok {}

def uleb128Decode (source : List UInt8) : Except Panic Decode := decodeLoop source 0 0 1

theorem checked_of_lt {n : Nat} (h : n < 2 ^ 64) : checked n = .ok n := if_pos h

theorem low_bits (byte : UInt8) : (byte &&& 127).toNat = byte.toNat % 128 := by
  rw [UInt8.toNat_and]
  exact Nat.and_two_pow_sub_one_eq_mod byte.toNat 7

variable {i : Nat} (source rest : List UInt8)

theorem pow_le_nine (h : i < 9) : 128 ^ (i + 1) ≤ 2 ^ 63 :=
  le_trans (Nat.pow_le_pow_right (by decide) h) (by decide)

theorem decodeLoop_step {byte : UInt8} {rest : List UInt8} {value : Nat} (hi : i < 9)
    (hvalue : value < 128 ^ i) :
    decodeLoop (byte :: rest) i value (128 ^ i) =
      if byte.toNat < 128 then
        .ok { value := UInt64.ofNat (value + byte.toNat * 128 ^ i), consumed := i + 1, ok := true }
      else
        decodeLoop rest (i + 1) (value + (byte.toNat - 128) * 128 ^ i)
          (if i < 8 then 128 ^ (i + 1) else 128 ^ i) := by
  have hpow := pow_le_nine hi
  have hbyte := byte.toNat_lt
  have hlow : byte.toNat % 128 < 128 := Nat.mod_lt _ (by decide)
  have hproduct : byte.toNat % 128 * 128 ^ i + 128 ^ i ≤ 128 ^ (i + 1) := by
    rw [pow_succ]
    nlinarith
  rw [decodeLoop, if_pos (by omega), if_neg (by omega), low_bits]
  simp only [checked_of_lt (show byte.toNat % 128 * 128 ^ i < 2 ^ 64 by omega),
    checked_of_lt (show value + byte.toNat % 128 * 128 ^ i < 2 ^ 64 by omega), bind, Except.bind]
  have htest : byte < 128 ↔ byte.toNat < 128 := UInt8.lt_iff_toNat_lt
  by_cases hlast : byte.toNat < 128
  · rw [if_pos (htest.mpr hlast), if_pos hlast, Nat.mod_eq_of_lt hlast]
    rfl
  rw [if_neg (fun h => hlast (htest.mp h)), if_neg hlast]
  have hmod : byte.toNat % 128 = byte.toNat - 128 := by omega
  have hfactor : (if i < 8 then 128 ^ i * 128 else 128 ^ i) =
      if i < 8 then 128 ^ (i + 1) else 128 ^ i := by rw [pow_succ]
  have hsmall : (if i < 8 then 128 ^ (i + 1) else 128 ^ i) < 2 ^ 64 := by
    split_ifs
    · omega
    · have : 128 ^ i ≤ 128 ^ (i + 1) := Nat.pow_le_pow_right (by decide) (Nat.le_succ i)
      omega
  rw [hfactor]
  simp only [checked_of_lt hsmall, hmod]

theorem decodeLoop_last (byte : UInt8) (rest : List UInt8) {value factor : Nat}
    (hvalue : value < 2 ^ 63) :
    decodeLoop (byte :: rest) 9 value factor =
      if byte.toNat ≤ 1 then
        .ok { value := UInt64.ofNat (value + byte.toNat * 2 ^ 63), consumed := 10, ok := true }
      else .ok {} := by
  have hgt : byte > 1 ↔ ¬ byte.toNat ≤ 1 := by
    rw [gt_iff_lt, UInt8.lt_iff_toNat_lt]
    exact Nat.not_le.symm
  rw [decodeLoop, if_pos (by decide), if_pos rfl]
  by_cases hone : byte.toNat ≤ 1
  · rw [if_neg (fun h => hgt.mp h hone), if_pos hone]
    have hlt : byte < 128 := UInt8.lt_iff_toNat_lt.mpr (lt_of_le_of_lt hone (by decide))
    rw [if_pos hlt]
    by_cases h1 : byte = 1
    · subst h1
      have hor : value ||| 9223372036854775808 = value + 2 ^ 63 := by
        have := Nat.two_pow_add_eq_or_of_lt hvalue 1
        rw [mul_one, Nat.or_comm] at this
        exact this.symm.trans (add_comm _ _)
      rw [if_pos rfl, hor]
      rfl
    have hzero : byte.toNat = 0 := by
      by_contra hne
      exact h1 (UInt8.toNat_inj.mp (show byte.toNat = 1 by omega))
    rw [if_neg h1, hzero, zero_mul]
    rfl
  · rw [if_pos (hgt.mpr hone), if_neg hone]

/-- The state of the decode loop: the bytes so far are below `factor`. -/
structure Decoding (i value factor : Nat) : Prop where
  small : i ≤ 9
  value : value < 128 ^ i
  factor : i < 9 → factor = 128 ^ i

theorem Decoding.next {value : Nat} {byte : UInt8} (hi : i < 9) (hvalue : value < 128 ^ i)
    (hbyte : ¬ byte.toNat < 128) :
    Decoding (i + 1) (value + (byte.toNat - 128) * 128 ^ i)
      (if i < 8 then 128 ^ (i + 1) else 128 ^ i) := by
  have hlt := byte.toNat_lt
  refine ⟨hi, ?_, fun h => if_pos (by omega)⟩
  rw [pow_succ]
  have hle : byte.toNat - 128 ≤ 127 := by omega
  nlinarith [Nat.mul_le_mul_right (128 ^ i) hle]

/-- What the loop gives: nothing, or a number that ends within the source. -/
theorem decodeLoop_ok : ∀ (source : List UInt8) {i value factor : Nat},
    Decoding i value factor → ∃ decode, decodeLoop source i value factor = .ok decode ∧
      (decode.ok = true → i < decode.consumed ∧ decode.consumed ≤ i + source.length)
  | [], i, value, factor, _ => ⟨{}, rfl, fun h => by cases h⟩
  | byte :: rest, i, value, factor, h => by
    by_cases hi : i < 9
    · have hfactor := h.factor hi
      subst hfactor
      rw [decodeLoop_step hi h.value]
      split
      · refine ⟨_, rfl, fun _ => ?_⟩
        rw [length_cons]
        dsimp only
        omega
      rename_i hlast
      obtain ⟨decode, hdecode, hbounds⟩ := decodeLoop_ok rest (Decoding.next hi h.value hlast)
      refine ⟨decode, hdecode, fun hok => ?_⟩
      have := hbounds hok
      rw [length_cons]
      omega
    have hnine : i = 9 := le_antisymm h.small (by omega)
    subst hnine
    rw [decodeLoop_last byte rest (by exact h.value)]
    split_ifs
    · refine ⟨_, rfl, fun _ => ?_⟩
      rw [length_cons]
      dsimp only
      omega
    · exact ⟨{}, rfl, nofun⟩

theorem decoding_start : Decoding 0 0 1 := ⟨by decide, by decide, fun _ => rfl⟩

theorem uleb128Decode_ok : ∃ decode, uleb128Decode source = .ok decode ∧
    (decode.ok = true → 0 < decode.consumed ∧ decode.consumed ≤ source.length) := by
  obtain ⟨decode, hdecode, hbounds⟩ := decodeLoop_ok source decoding_start
  refine ⟨decode, hdecode, fun hok => ?_⟩
  have := hbounds hok
  omega

/-- What decoding gives, now that it cannot panic. -/
def decoded (source : List UInt8) : Decode :=
  match uleb128Decode source with
  | .ok decode => decode
  | .error _ => {}

/-- A number below `128 ^ (fuel + 1)` takes at most `fuel + 1` bytes. -/
theorem encodeLoop_length : ∀ {fuel value : Nat} (size : Nat), value < 128 ^ (fuel + 1) →
    (encodeLoop (fuel + 1) value).length + size = sizeLoop (fuel + 1) value (size + 1)
  | 0, value, size, h => by
    rw [encodeLoop, sizeLoop, if_neg (by omega), if_neg (by omega), length_singleton, add_comm]
  | fuel + 1, value, size, h => by
    rw [encodeLoop, sizeLoop]
    split_ifs with hlarge
    · have hshift : value >>> 7 = value / 128 := Nat.shiftRight_eq_div_pow value 7
      have hrest : value >>> 7 < 128 ^ (fuel + 1) := by
        rw [hshift, Nat.div_lt_iff_lt_mul (by decide), ← pow_succ]
        exact h
      have := encodeLoop_length (size + 1) hrest
      rw [length_cons]
      omega
    · rw [length_singleton, add_comm]

theorem u64_lt_pow : value.toNat < 128 ^ 10 :=
  lt_trans value.toNat_lt (by decide)

/-- **`uleb128_size` is the length of what `uleb128_encode` writes.** -/
theorem uleb128Size_eq : (encodeLoop 10 value.toNat).length = uleb128Size value :=
  encodeLoop_length 0 (u64_lt_pow value)

theorem encodeLoop_le : ∀ (fuel value : Nat), (encodeLoop fuel value).length ≤ fuel
  | 0, _ => le_refl _
  | fuel + 1, value => by
    have := encodeLoop_le fuel (value >>> 7)
    rw [encodeLoop]
    split_ifs
    · rw [length_cons]
      omega
    · rw [length_singleton]
      omega

theorem encodeLoop_le_of_lt : ∀ {k value : Nat} (fuel : Nat), value < 128 ^ (k + 1) →
    (encodeLoop fuel value).length ≤ k + 1
  | _, _, 0, _ => Nat.zero_le _
  | 0, value, fuel + 1, h => by
    rw [encodeLoop, if_neg (by omega), length_singleton]
  | k + 1, value, fuel + 1, h => by
    rw [encodeLoop]
    split_ifs
    · have hrest : value >>> 7 < 128 ^ (k + 1) := by
        rw [show value >>> 7 = value / 128 from Nat.shiftRight_eq_div_pow value 7,
          Nat.div_lt_iff_lt_mul (by decide), ← pow_succ]
        exact h
      have := encodeLoop_le_of_lt fuel hrest
      rw [length_cons]
      omega
    · rw [length_singleton]
      omega

theorem decodeLoop_encodeLoop : ∀ {fuel i value factor n : Nat} (rest : List UInt8),
    fuel + i = 9 → Decoding i value factor → n * 128 ^ i < 2 ^ 64 →
    decodeLoop (encodeLoop (fuel + 1) n ++ rest) i value factor =
      .ok { value := UInt64.ofNat (value + n * 128 ^ i),
            consumed := i + (encodeLoop (fuel + 1) n).length, ok := true }
  | 0, i, value, factor, n, rest, hi, h, hn => by
    have hnine : i = 9 := by omega
    subst hnine
    have hone : n ≤ 1 := by omega
    have hbyte : (UInt8.ofNat n).toNat = n := by
      rw [UInt8.toNat_ofNat']
      omega
    rw [encodeLoop, if_neg (by omega), singleton_append,
      decodeLoop_last _ rest (by exact h.value), hbyte, if_pos hone]
    rfl
  | fuel + 1, i, value, factor, n, rest, hi, h, hn => by
    have hlt : i < 9 := by omega
    have hfactor := h.factor hlt
    subst hfactor
    rw [encodeLoop]
    split_ifs with hlarge
    · have hshift : n >>> 7 = n / 128 := Nat.shiftRight_eq_div_pow n 7
      have hbyte : (UInt8.ofNat (n &&& 127) ||| 128).toNat = n % 128 + 128 := by
        have hlow : n % 128 < 2 ^ 7 := Nat.mod_lt _ (by decide)
        have hand : n &&& 127 = n % 128 := Nat.and_two_pow_sub_one_eq_mod n 7
        have hnat : (UInt8.ofNat (n % 128)).toNat = n % 128 := by
          rw [UInt8.toNat_ofNat']
          omega
        rw [UInt8.toNat_or, hand, hnat, Nat.or_comm]
        have := Nat.two_pow_add_eq_or_of_lt hlow 1
        rw [mul_one] at this
        exact this.symm.trans (add_comm _ _)
      have hdecoding := Decoding.next hlt h.value
        (show ¬ (UInt8.ofNat (n &&& 127) ||| 128).toNat < 128 by omega)
      have hsplit : n * 128 ^ i = (n % 128) * 128 ^ i + n / 128 * 128 ^ (i + 1) := by
        conv_lhs => rw [← Nat.mod_add_div n 128]
        rw [pow_succ]
        ring
      have hrest := decodeLoop_encodeLoop rest (show fuel + (i + 1) = 9 by omega) hdecoding
        (show n >>> 7 * 128 ^ (i + 1) < 2 ^ 64 by rw [hshift]; omega)
      rw [cons_append, decodeLoop_step hlt h.value, if_neg (by omega), hrest, hbyte, hshift,
        length_cons, hsplit, Nat.add_sub_cancel, add_assoc]
      congr 2
      omega
    · have hbyte : (UInt8.ofNat n).toNat = n := by
        rw [UInt8.toNat_ofNat']
        omega
      rw [singleton_append, decodeLoop_step hlt h.value, hbyte, if_pos (by omega), length_singleton]

theorem uleb128Decode_encode :
    uleb128Decode (encodeLoop 10 value.toNat ++ rest) =
      .ok { value := value, consumed := uleb128Size value, ok := true } := by
  have h := @decodeLoop_encodeLoop 9 0 0 1 value.toNat rest rfl decoding_start
    (by rw [pow_zero, mul_one]; exact value.toNat_lt)
  rw [pow_zero, mul_one, zero_add, zero_add, UInt64.ofNat_toNat, uleb128Size_eq] at h
  exact h

theorem decoded_encode :
    decoded (encodeLoop 10 value.toNat ++ rest) =
      { value := value, consumed := uleb128Size value, ok := true } := by
  rw [decoded, uleb128Decode_encode]

end Dyn.Binary
