import Dyn.Encoding.Binary
import Dyn.Encoding.Tokens

/-!
# std/encoding/protobuf

Schema-free wire fields.  Groups are explicit start and end fields; reader and writer each
keep the stack of open groups.
-/

namespace Dyn.Protobuf

open BitVec
open Mem (Panic Room maximum)
open Encoding
open Binary (decoded encodeLoop loadU32LE loadU64LE storeU32LE storeU64LE uleb128Encode
  uleb128Size)
open Sequence (Grammar Reads)

inductive Wire where
  | Varint
  | Fixed64
  | Bytes
  | StartGroup
  | EndGroup
  | Fixed32
deriving DecidableEq, Repr

structure Field where
  number : UInt32 := 0
  wire : Wire := .Varint
  value : UInt64 := 0
  bytes : List UInt8 := []
deriving DecidableEq, Repr

instance : Inhabited Field := ⟨{}⟩

/-- The stack holds the numbers of the open groups, the innermost first. -/
def reader (source : List UInt8) : Reader (List UInt32) := { rest := source, stack := [] }

/-- `#cast(Wire, wire)` for the wire types up to 5. -/
def wireOf (wire : UInt64) : Wire :=
  match wire.toNat with
  | 0 => .Varint
  | 1 => .Fixed64
  | 2 => .Bytes
  | 3 => .StartGroup
  | 4 => .EndGroup
  | _ => .Fixed32

def fieldValue (field : Field) (at_ : Nat) (rest : List UInt8) :
    Except Failure (Field × Nat × List UInt8) :=
  match field.wire with
  | .Varint =>
      let value := decoded rest
      if !value.ok then .error (at_, .InvalidInput)
      else .ok ({ field with value := value.value }, at_ + value.consumed, rest.drop value.consumed)
  | .Fixed64 =>
      if rest.length < 8 then .error (at_, .InvalidInput)
      else .ok ({ field with value := loadU64LE (rest.take 8) }, at_ + 8, rest.drop 8)
  | .Fixed32 =>
      if rest.length < 4 then .error (at_, .InvalidInput)
      else .ok ({ field with value := (loadU32LE (rest.take 4)).toUInt64 }, at_ + 4, rest.drop 4)
  | .Bytes =>
      let length := decoded rest
      if !length.ok then .error (at_, .InvalidInput)
      else
        let at_ := at_ + length.consumed
        let rest := rest.drop length.consumed
        if length.value.toNat > rest.length then .error (at_, .InvalidInput)
        else
          .ok ({ field with bytes := rest.take length.value.toNat }, at_ + length.value.toNat,
            rest.drop length.value.toNat)
  | .StartGroup | .EndGroup => .ok (field, at_, rest)

def fieldAt (source : List UInt8) : Except Failure (Field × Nat × List UInt8) :=
  let key := decoded source
  if !key.ok ∨ key.value >>> 3 = 0 ∨ key.value >>> 3 > 536870911 ∨ key.value &&& 7 > 5 then
    .error (0, .InvalidInput)
  else
    fieldValue { number := (key.value >>> 3).toUInt32, wire := wireOf (key.value &&& 7) }
      key.consumed (source.drop key.consumed)

def item (tag : UInt8) (rest : List UInt8) : Except Failure (Field × Nat × List UInt8) :=
  fieldAt (tag :: rest)

def accept (groups : List UInt32) (field : Field) : Errors.Kind × List UInt32 :=
  match field.wire with
  | .StartGroup =>
      if groups.length = 64 then (.Capacity, groups) else (.None, field.number :: groups)
  | .EndGroup =>
      match groups with
      | [] => (.InvalidInput, groups)
      | group :: outer => if group ≠ field.number then (.InvalidInput, groups) else (.None, outer)
  | _ => (.None, groups)

def next : Reader (List UInt32) → ReadResult Field × Reader (List UInt32) :=
  nextWith item accept id List.isEmpty

def zigzag (value : Int64) : UInt64 := (value.toUInt64 <<< 1) ^^^ (value >>> 63).toUInt64

def unzigzag (value : UInt64) : Int64 := ((value >>> 1) ^^^ (0 - (value &&& 1))).toInt64

/-- `#cast(u64, wire)`. -/
def wireNumber : Wire → UInt64
  | .Varint => 0
  | .Fixed64 => 1
  | .Bytes => 2
  | .StartGroup => 3
  | .EndGroup => 4
  | .Fixed32 => 5

def key (field : Field) : UInt64 := (field.number.toUInt64 <<< 3) ||| wireNumber field.wire

/-- The first pass of `encode`, for one field. -/
def measureField (w : Nat) (groups : List UInt32) (field : Field) :
    Except Errors.Kind (List UInt32 × Nat) :=
  if field.number = 0 ∨ field.number > 536870911 then .error .InvalidInput
  else
    let extra := uleb128Size (key field)
    match field.wire with
    | .Varint => .ok (groups, extra + uleb128Size field.value)
    | .Fixed32 =>
        if field.value > 0xffffffff then .error .InvalidInput else .ok (groups, extra + 4)
    | .Fixed64 => .ok (groups, extra + 8)
    | .Bytes =>
        let lengthSize := uleb128Size (UInt64.ofNat field.bytes.length)
        if field.bytes.length > maximum w - extra - lengthSize then .error .Overflow
        else .ok (groups, extra + (lengthSize + field.bytes.length))
    | .StartGroup =>
        if groups.length = 64 then .error .Capacity else .ok (field.number :: groups, extra)
    | .EndGroup =>
        match groups with
        | [] => .error .InvalidInput
        | group :: outer =>
            if group ≠ field.number then .error .InvalidInput else .ok (outer, extra)

/-- A number written to the rest of the block. -/
def writeUleb (total : Nat) (output : List UInt8) (value : UInt64) : List UInt8 :=
  output ++ uleb128Encode (total - output.length) value

/-- Bytes stored in a slice of the block. -/
def storeSlice (total : Nat) (output bytes : List UInt8) : Except Panic (List UInt8) :=
  if output.length + bytes.length ≤ total then .ok (output ++ bytes)
  else .error "slice out of bounds"

/-- The second pass of `encode`, for one field. -/
def writeField (total : Nat) (output : List UInt8) (field : Field) : Except Panic (List UInt8) :=
  let output := writeUleb total output (key field)
  match field.wire with
  | .Varint => .ok (writeUleb total output field.value)
  | .Fixed32 => storeSlice total output (storeU32LE field.value.toUInt32)
  | .Fixed64 => storeSlice total output (storeU64LE field.value)
  | .Bytes =>
      storeSlice total (writeUleb total output (UInt64.ofNat field.bytes.length)) field.bytes
  | .StartGroup | .EndGroup => .ok output

def encode (w : Nat) (room : Room) (fields : List Field) : Except Panic EncodeResult :=
  encodeWith w room [] (measureField w) List.isEmpty writeField fields

/-- What a field says: the parts that its wire type has, the others zero. -/
def Field.normal (field : Field) : Field :=
  match field.wire with
  | .Varint | .Fixed64 | .Fixed32 =>
      { number := field.number, wire := field.wire, value := field.value }
  | .Bytes => { number := field.number, wire := field.wire, bytes := field.bytes }
  | .StartGroup | .EndGroup => { number := field.number, wire := field.wire }

variable (v : BitVec 64)

theorem sshiftRight_sign : v.sshiftRight 63 = if v.msb then BitVec.allOnes 64 else 0#64 := by
  apply eq_of_toInt_eq
  rw [toInt_sshiftRight, Int.shiftRight_eq_div_pow]
  cases h : v.msb with
  | true =>
    have hneg := toInt_neg_of_msb_true h
    have hle := @le_toInt 64 v
    rw [if_pos rfl, show (BitVec.allOnes 64).toInt = -1 by decide]
    omega
  | false =>
    have hnonneg := toInt_nonneg_of_msb_false h
    have hlt := @toInt_lt 64 v
    rw [if_neg (by simp), toInt_zero]
    omega

theorem neg_low : -(v &&& 1#64) = if v.toNat % 2 = 1 then BitVec.allOnes 64 else 0#64 := by
  have hand : v &&& 1#64 = if v.toNat % 2 = 1 then 1#64 else 0#64 := by
    apply eq_of_toNat_eq
    rw [toNat_and]
    change v.toNat &&& 1 = _
    rw [Nat.and_one_is_mod]
    split_ifs with h
    · exact h
    · change _ = 0
      omega
  rw [hand]
  split_ifs <;> decide

theorem unzigzag_bits :
    (v <<< 1 ^^^ v.sshiftRight 63) >>> 1 ^^^ -((v <<< 1 ^^^ v.sshiftRight 63) &&& 1#64) = v := by
  have hmsb := msb_eq_decide v
  rw [sshiftRight_sign, neg_low]
  apply eq_of_toNat_eq
  cases h : v.msb with
  | true =>
    have hbig : 2 ^ 63 ≤ v.toNat := by simpa [h] using hmsb
    rw [if_pos rfl, xor_allOnes]
    have hnot : (~~~(v <<< 1)).toNat = 2 ^ 65 - 1 - 2 * v.toNat := by
      rw [toNat_not, toNat_shiftLeft, Nat.shiftLeft_eq]
      omega
    rw [if_pos (by omega), xor_allOnes, toNat_not, toNat_ushiftRight, hnot,
      Nat.shiftRight_eq_div_pow]
    omega
  | false =>
    have hsmall : v.toNat < 2 ^ 63 := by simpa [h] using hmsb
    rw [if_neg (by simp), xor_zero]
    have hshift : (v <<< 1).toNat = 2 * v.toNat := by
      rw [toNat_shiftLeft, Nat.shiftLeft_eq]
      omega
    rw [if_neg (by omega), xor_zero, toNat_ushiftRight, hshift, Nat.shiftRight_eq_div_pow]
    omega

theorem zigzag_bits :
    (v >>> 1 ^^^ -(v &&& 1#64)) <<< 1 ^^^ (v >>> 1 ^^^ -(v &&& 1#64)).sshiftRight 63 = v := by
  have hhalf : (v >>> 1).toNat = v.toNat / 2 := by
    rw [toNat_ushiftRight, Nat.shiftRight_eq_div_pow]
  rw [sshiftRight_sign, neg_low]
  apply eq_of_toNat_eq
  split
  · rw [xor_allOnes]
    have hnot : (~~~(v >>> 1)).toNat = 2 ^ 64 - 1 - v.toNat / 2 := by
      rw [toNat_not, hhalf]
    have hmsb : (~~~(v >>> 1)).msb = true := by
      rw [msb_eq_decide, hnot, decide_eq_true_iff]
      omega
    rw [hmsb, if_pos rfl, xor_allOnes, toNat_not, toNat_shiftLeft, hnot, Nat.shiftLeft_eq]
    omega
  rw [xor_zero]
  have hmsb : (v >>> 1).msb = false := by
    rw [msb_eq_decide, hhalf, decide_eq_false_iff_not]
    omega
  rw [hmsb, if_neg (by simp), xor_zero, toNat_shiftLeft, hhalf, Nat.shiftLeft_eq]
  omega

theorem unzigzag_zigzag (value : Int64) : unzigzag (zigzag value) = value := by
  have h := unzigzag_bits value.toBitVec
  unfold unzigzag zigzag
  apply Int64.toBitVec_inj.mp
  simpa using h

theorem zigzag_unzigzag (value : UInt64) : zigzag (unzigzag value) = value := by
  have h := zigzag_bits value.toBitVec
  unfold unzigzag zigzag
  apply UInt64.toBitVec_inj.mp
  simpa using h

end Dyn.Protobuf
