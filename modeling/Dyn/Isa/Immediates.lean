import Dyn.Backend.Transfers
import Dyn.Lib.CodeStream

/-!
# backend: constants

The machine code that leaves a constant in a register, on the five targets, as bytes.  A word is the
number of its bits; only the lower 32 of them are written.  Thumb code can fail to be emitted.
-/

namespace Dyn.Isa

open Backend (low12 sub_low12_toNat rvImm_decreases)

inductive Reg where
  | a | c | d | si | di | r8 | r10 | r11
deriving DecidableEq, Repr

/-- The fields of a `BackendContext` that the target is chosen by. -/
structure Context where
  t32 : Bool := false
  rv32 : Bool := false
  rv64 : Bool := false
  a64 : Bool := false
  softFloat : Bool := false
deriving DecidableEq, Repr

abbrev Code := List UInt8

def byte (x : Nat) : Code := [UInt8.ofNat x]

def word (n : Nat) : Code := byte n ++ byte (n >>> 8) ++ byte (n >>> 16) ++ byte (n >>> 24)

def immediate (n : BitVec 64) : Code := word n.toNat ++ word (n.toNat >>> 32)

def rvReg : Reg → Nat
  | .a => 10 | .c => 5 | .d => 11 | .si => 12 | .di => 13 | .r8 => 14 | .r10 => 15 | .r11 => 16

def rvR (op rd rs rt f3 f7 : Nat) : Code := word (op ||| rd <<< 7 ||| f3 <<< 12 ||| rs <<< 15 ||| rt <<< 20 ||| f7 <<< 25)

def rvI (op rd rs : Nat) (imm : BitVec 64) (f3 : Nat) : Code :=
  word (op ||| rd <<< 7 ||| f3 <<< 12 ||| rs <<< 15 ||| ((imm.setWidth 32).toNat &&& 4095) <<< 20)

def rvImm (d : Nat) (value : BitVec 64) : Code :=
  if -2048 ≤ value.toInt ∧ value.toInt ≤ 2047 then rvI 0x13 d 0 value 0
  else
    rvImm d ((value - low12 value) >>> 12) ++ rvI 0x13 d d 12 1 ++
      if low12 value ≠ 0 then rvI 0x13 d d (low12 value) 0 else []
termination_by value.toNat
decreasing_by exact rvImm_decreases (by assumption)

def rvAddress (d base : Nat) (offset : BitVec 64) : Code :=
  if -2048 ≤ offset.toInt ∧ offset.toInt ≤ 2047 then rvI 0x13 d base offset 0
  else rvImm 7 offset ++ rvR 0x33 d base 7 0 0

def r32Lo : Reg → Nat
  | .a => 10 | .c => 5 | .d => 11 | .si => 12 | .di => 13 | .r8 => 14 | .r10 => 15 | .r11 => 16

def r32Hi : Reg → Nat
  | .a => 18 | .c => 19 | .d => 20 | .si => 21 | .di => 22 | .r8 => 23 | .r10 => 24 | .r11 => 25

def r32Li (d : Nat) (value : BitVec 32) : Code :=
  if -2048 ≤ value.toInt ∧ value.toInt ≤ 2047 then rvI 0x13 d 0 (value.signExtend 64) 0
  else
    let low := (value <<< 20).sshiftRight 20
    word (0x37 ||| d <<< 7 ||| ((value - low) &&& 0xfffff000).toNat) ++
      if low ≠ 0 then rvI 0x13 d d (low.signExtend 64) 0 else []

def r32Immediate (r : Reg) (n : BitVec 64) : Code :=
  r32Li (r32Lo r) (n.setWidth 32) ++ r32Li (r32Hi r) ((n >>> 32).setWidth 32)

def a64Reg : Reg → Nat
  | .a => 0 | .c => 9 | .d => 1 | .si => 14 | .di => 15 | .r8 => 10 | .r10 => 11 | .r11 => 12

/-- The loop of `a64_immediate` over the shifts that are left. -/
def a64Parts (rd : Nat) (n : BitVec 64) : Bool → List Nat → Code
  | _, [] => []
  | first, shift :: shifts =>
      let part := ((n >>> shift).setWidth 32).toNat &&& 0xffff
      if part = 0 ∧ ¬(first ∧ shift = 48) then a64Parts rd n first shifts
      else
        word ((if first then 0xd2800000 else 0xf2800000) ||| (shift / 16) <<< 21 ||| part <<< 5 ||| rd) ++
          a64Parts rd n false shifts

def a64Immediate (rd : Nat) (n : BitVec 64) : Code := a64Parts rd n true [0, 16, 32, 48]

def t32Lo : Reg → Nat
  | .a => 0 | .c => 2 | .d => 1 | .si => 3 | .di => 6 | .r8 => 7 | .r10 => 8 | .r11 => 9

/-- Core registers for `a` and `c`, else registers of the floating-point bank. -/
def t32Hi : Reg → Nat
  | .a => 4 | .c => 5 | .d => 16 | .si => 17 | .di => 18 | .r8 => 19 | .r10 => 20 | .r11 => 21

def t32T2 : Nat := 12
def t32Address : Nat := 14
def t32Fp : Nat := 11
def t32Saved : Nat := 64
def t32Bias : Nat := 4092
def t32Orr : Nat := 2
def t32Orn : Nat := 3
def t32Add : Nat := 8

def t16 (h : Nat) : Code := byte (h &&& 0xff) ++ byte ((h >>> 8) &&& 0xff)

/-- A pair of halfwords; one of the coprocessor space fails without hardware floating point. -/
def t32w (ctx : Context) (h1 h2 : Nat) : Option Code :=
  if ctx.softFloat ∧ h1 &&& 0xEC00 = 0xEC00 then none else some (t16 h1 ++ t16 h2)

def t32Dp (ctx : Context) (op : Nat) (s : Bool) (d n m type amount : Nat) : Option Code :=
  t32w ctx (0xEA00 ||| op <<< 5 ||| s.toNat <<< 4 ||| n)
    ((amount >>> 2) <<< 12 ||| d <<< 8 ||| (amount &&& 3) <<< 6 ||| type <<< 4 ||| m)

/-- The loop of `t32_modimm`, over the rotations that are left. -/
def t32Rotations (v : BitVec 32) : List Nat → Option Nat
  | [] => none
  | rot :: rots =>
      let x := v <<< rot ||| v >>> (32 - rot)
      if 0x80 ≤ x.toNat ∧ x.toNat ≤ 0xff then some (rot <<< 7 ||| (x.toNat &&& 0x7f)) else t32Rotations v rots

/-- A modified immediate (i:imm3:imm8), if there is one. -/
def t32Modimm (v : BitVec 32) : Option Nat :=
  if v.toNat ≤ 0xff then some v.toNat
  else
    let b := v &&& 0xff
    let b₂ := (v >>> 8) &&& 0xff
    if v = b ||| b <<< 16 then some (0x100 ||| b.toNat)
    else if v = b₂ <<< 8 ||| b₂ <<< 24 then some (0x200 ||| b₂.toNat)
    else if v = b * 0x01010101 then some (0x300 ||| b.toNat)
    else t32Rotations v (List.range' 8 24)

def t32Dpi (ctx : Context) (op : Nat) (s : Bool) (d n e : Nat) : Option Code :=
  t32w ctx (0xF000 ||| (e >>> 11) <<< 10 ||| op <<< 5 ||| s.toNat <<< 4 ||| n)
    (((e >>> 8) &&& 7) <<< 12 ||| d <<< 8 ||| (e &&& 0xff))

def t32Movw (ctx : Context) (top d v : Nat) : Option Code :=
  t32w ctx (top ||| ((v >>> 11) &&& 1) <<< 10 ||| ((v >>> 12) &&& 15)) (((v >>> 8) &&& 7) <<< 12 ||| d <<< 8 ||| (v &&& 0xff))

def t32Li (ctx : Context) (d : Nat) (value : BitVec 32) : Option Code :=
  match t32Modimm value with
  | some e => t32Dpi ctx t32Orr false d 15 e
  | none =>
      match t32Modimm (~~~value) with
      | some e => t32Dpi ctx t32Orn false d 15 e
      | none => do
          let low ← t32Movw ctx 0xF240 d (value.toNat &&& 0xffff)
          let high ← (if value >>> 16 ≠ 0 then t32Movw ctx 0xF2C0 d (value >>> 16).toNat else some [])
          return low ++ high

/-- A store of a word: `t32_mem` for `T32_STR`. -/
def t32Str (ctx : Context) (t n : Nat) (offset : BitVec 64) : Option Code :=
  if 0 ≤ offset.toInt ∧ offset.toInt ≤ 4095 then t32w ctx (0xF8C0 ||| n) (t <<< 12 ||| offset.toNat)
  else if offset.toInt < 0 ∧ -255 ≤ offset.toInt then
    t32w ctx (0xF840 ||| n) (t <<< 12 ||| 0xC00 ||| (-offset).toNat)
  else do
    let address ← t32Li ctx t32Address (offset.setWidth 32)
    let sum ← t32Dp ctx t32Add false t32Address n t32Address 0 0
    let store ← t32w ctx (0xF8C0 ||| t32Address) (t <<< 12)
    return address ++ sum ++ store

/-- The slot that stands for a floating-point register without hardware floating point. -/
def t32SoftSlot (ctx : Context) (r s : Nat) : Option Code :=
  if s < 16 ∨ s > 31 then none else t32Str ctx r t32Fp (BitVec.ofInt 64 (t32Bias - t32Saved + 4 * (s - 16)))

def t32ToS (ctx : Context) (s r : Nat) : Option Code :=
  if ctx.softFloat then t32SoftSlot ctx r s else t32w ctx (0xEE00 ||| s >>> 1) (r <<< 12 ||| 0x0A10 ||| (s &&& 1) <<< 7)

def t32CoreHigh (r : Reg) : Bool := r = .a ∨ r = .c

def t32HighImm (ctx : Context) (r : Reg) (value : BitVec 32) : Option Code :=
  if t32CoreHigh r then t32Li ctx (t32Hi r) value
  else do
    let code ← t32Li ctx t32T2 value
    let move ← t32ToS ctx (t32Hi r) t32T2
    return code ++ move

def t32Immediate (ctx : Context) (r : Reg) (n : BitVec 64) : Option Code := do
  let low ← t32Li ctx (t32Lo r) (n.setWidth 32)
  let high ← t32HighImm ctx r ((n >>> 32).setWidth 32)
  return low ++ high

def x86Code : Reg → Nat
  | .a => 0 | .c => 1 | .d => 2 | .si => 6 | .di => 7 | .r8 => 0 | .r10 => 2 | .r11 => 3

def x86Extended : Reg → Bool
  | .r8 => true | .r10 => true | .r11 => true | _ => false

def x86Immediate (r : Reg) (n : BitVec 64) : Code :=
  if n.toNat ≤ 4294967295 then
    (if x86Extended r then byte 0x41 else []) ++ byte (0xb8 + x86Code r) ++ word n.toNat
  else if -2147483648 ≤ n.toInt ∧ n.toInt ≤ 2147483647 then
    byte (if x86Extended r then 0x49 else 0x48) ++ byte 0xc7 ++ byte (0xc0 ||| x86Code r) ++ word (n.setWidth 32).toNat
  else byte (if x86Extended r then 0x49 else 0x48) ++ byte (0xb8 + x86Code r) ++ immediate n

def isaImmediate (ctx : Context) (r : Reg) (n : BitVec 64) : Option Code :=
  if ctx.t32 then t32Immediate ctx r n
  else if ctx.rv32 then some (r32Immediate r n)
  else if ctx.rv64 then some (rvImm (rvReg r) n)
  else if ctx.a64 then some (a64Immediate (a64Reg r) n)
  else some (x86Immediate r n)

end Dyn.Isa
