import Dyn.Mem.Trial
import Mathlib.Tactic

/-!
# std/encoding: what the token encoders share

The error kinds, the arena block an encoder fills through a running index, and the loops
that store and load a number of several bytes, most significant byte first.
-/

namespace Dyn
namespace Errors

inductive Kind where
  | None
  | InvalidInput
  | InvalidState
  | NotFound
  | PermissionDenied
  | AlreadyExists
  | Capacity
  | Overflow
  | Interrupted
  | WouldBlock
  | Unsupported
  | System
deriving DecidableEq, Repr

end Errors

namespace Encoding

open List
open Mem (Panic Room maximum)

structure EncodeResult where
  value : List UInt8 := []
  kind : Errors.Kind := .None
  offset : Nat := 0
  ok : Bool := false
deriving DecidableEq, Repr

/-- The block that `push_array(u8, arena, size)` gives: `size` zeros, or nothing to write
to when the size is zero. -/
def pushArray (room : Room) (size : Nat) : Except Panic Unit :=
  if size = 0 then .ok ()
  else
    match room.push size with
    | some _ => .ok ()
    | none => .error "arena exhausted or alignment invalid"

/-- `output[at] = byte`, `at += 1`, with the bytes before the index. -/
def store (size : Nat) (output : List UInt8) (byte : UInt8) : Except Panic (List UInt8) :=
  if output.length < size then .ok (output ++ [byte]) else .error "index out of bounds"

def storeAll (size : Nat) : List UInt8 → List UInt8 → Except Panic (List UInt8)
  | output, [] => .ok output
  | output, byte :: bytes =>
      match store size output byte with
      | .ok output => storeAll size output bytes
      | .error e => .error e

/-- The whole block: what lies behind the index is still zero. -/
def block (size : Nat) (output : List UInt8) : List UInt8 :=
  output ++ List.replicate (size - output.length) 0

variable {size : Nat}

theorem storeAll_fits : ∀ (bytes output : List UInt8),
    output.length + bytes.length ≤ size → storeAll size output bytes = .ok (output ++ bytes)
  | [], output, _ => by rw [storeAll, append_nil]
  | byte :: bytes, output, h => by
    rw [length_cons] at h
    have hstore : store size output byte = .ok (output ++ [byte]) := if_pos (by omega)
    have hfits : (output ++ [byte]).length + bytes.length ≤ size := by
      rw [length_append, length_singleton]
      omega
    have hrest := storeAll_fits bytes (output ++ [byte]) hfits
    rw [storeAll, hstore]
    dsimp only
    rw [hrest, append_assoc, singleton_append]

theorem block_full {output : List UInt8} (h : output.length = size) :
    block size output = output := by
  rw [block, h, Nat.sub_self, replicate_zero, append_nil]

def HasRoom (room : Room) (size : Nat) : Prop := size = 0 ∨ (room.push size).isSome

theorem pushArray_ok {room : Room} (h : HasRoom room size) : pushArray room size = .ok () := by
  unfold pushArray
  rcases h with h | h
  · rw [if_pos h]
  · obtain ⟨space, hspace⟩ := Option.isSome_iff_exists.mp h
    rw [hspace, ite_self]

theorem maximum_le {w : Nat} (hw : w ≤ 64) : maximum w ≤ 2 ^ 64 - 1 :=
  Nat.sub_le_sub_right (Nat.pow_le_pow_right (by decide) hw) 1

/-- One round of the loop that loads a number. -/
def load (value : UInt64) (byte : UInt8) : UInt64 := (value <<< 8) ||| byte.toUInt64

def number (source : List UInt8) : UInt64 := source.foldl load 0

/-- The bytes that `put` stores. -/
def numberBytes (value : UInt64) (count : Nat) : List UInt8 :=
  (List.range count).map fun i => (value >>> UInt64.ofNat ((count - i - 1) * 8)).toUInt8

def put (size : Nat) (output : List UInt8) (value : UInt64) (count : Nat) :
    Except Panic (List UInt8) :=
  storeAll size output (numberBytes value count)

variable (value : UInt64)

@[simp] theorem numberBytes_length (count : Nat) : (numberBytes value count).length = count := by
  rw [numberBytes, length_map, length_range]

theorem numberBytes_succ (count : Nat) :
    numberBytes value (count + 1) =
      (value >>> UInt64.ofNat (count * 8)).toUInt8 :: numberBytes value count := by
  rw [numberBytes, range_succ_eq_map, map_cons, map_map, numberBytes]
  congr 1
  refine map_congr_left ?_
  intro i _
  have hindex : count + 1 - (i + 1) - 1 = count - i - 1 := by omega
  rw [Function.comp_apply, Nat.succ_eq_add_one, hindex]

theorem load_toNat (byte : UInt8) :
    (load value byte).toNat = (value.toNat * 256 + byte.toNat) % 2 ^ 64 := by
  have hbyte : byte.toNat < 2 ^ 8 := byte.toNat_lt
  have hshift : (value <<< 8).toNat = 2 ^ 8 * (value.toNat % 2 ^ 56) := by
    rw [UInt64.toNat_shiftLeft]
    change value.toNat <<< 8 % 2 ^ 64 = _
    rw [Nat.shiftLeft_eq]
    omega
  rw [load, UInt64.toNat_or, hshift, UInt8.toNat_toUInt64, ← Nat.two_pow_add_eq_or_of_lt hbyte]
  omega

theorem byte_toNat {count : Nat} (h : count < 8) :
    ((value >>> UInt64.ofNat (count * 8)).toUInt8).toNat = value.toNat / 256 ^ count % 256 := by
  have hcount : (UInt64.ofNat (count * 8)).toNat % 64 = count * 8 := by
    rw [UInt64.toNat_ofNat']
    omega
  have hpow : 2 ^ (count * 8) = 256 ^ count := by
    rw [Nat.mul_comm, Nat.pow_mul]
  rw [UInt64.toNat_toUInt8, UInt64.toNat_shiftRight, hcount, Nat.shiftRight_eq_div_pow, hpow]

theorem load_numberBytes (value : UInt64) : ∀ (count : Nat) (start : UInt64), count ≤ 8 →
    ((numberBytes value count).foldl load start).toNat =
      (start.toNat * 256 ^ count + value.toNat % 256 ^ count) % 2 ^ 64
  | 0, start, _ => by
    have := start.toNat_lt
    simp only [numberBytes, range_zero, map_nil, foldl_nil]
    omega
  | count + 1, start, h => by
    have ih := load_numberBytes value count
      (load start (value >>> UInt64.ofNat (count * 8)).toUInt8) (by omega)
    rw [numberBytes_succ, foldl_cons, ih, load_toNat, byte_toNat value (by omega)]
    have hsplit : value.toNat % 256 ^ (count + 1) =
        256 ^ count * (value.toNat / 256 ^ count % 256) + value.toNat % 256 ^ count := by
      rw [pow_succ, Nat.mod_mul, add_comm]
    rw [hsplit, Nat.add_mod, Nat.mod_mul_mod, ← Nat.add_mod]
    congr 1
    ring

theorem number_numberBytes {value : UInt64} {count : Nat} (hcount : count ≤ 8)
    (h : value.toNat < 256 ^ count) : number (numberBytes value count) = value := by
  have hload := load_numberBytes value count 0 hcount
  have hlt := value.toNat_lt
  apply UInt64.toNat_inj.mp
  rw [number, hload, Nat.mod_eq_of_lt h, UInt64.toNat_zero, zero_mul, zero_add]
  exact Nat.mod_eq_of_lt hlt

theorem number_lt (source : List UInt8) :
    (number source).toNat < 256 ^ source.length := by
  have hgen : ∀ (bytes : List UInt8) (start : UInt64) (n : Nat), start.toNat < 256 ^ n →
      (bytes.foldl load start).toNat < 256 ^ (n + bytes.length) := by
    intro bytes
    induction bytes with
    | nil => exact fun start n hn => hn
    | cons byte bytes ih =>
      intro start n hn
      rw [foldl_cons, length_cons, add_comm bytes.length 1, ← add_assoc]
      refine ih _ (n + 1) ?_
      rw [load_toNat, pow_succ]
      have := byte.toNat_lt
      refine lt_of_le_of_lt (Nat.mod_le _ _) ?_
      omega
  have := hgen source 0 0 (by decide)
  rwa [zero_add] at this

end Encoding
end Dyn
