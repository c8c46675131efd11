import Dyn.Lib.CodeStream

/-!
# The instructions that form constants

What the processors do with an instruction that stands at the front of their code, by the fields of
its encoding.  Only the instructions that constants are made of are decoded, and an instruction whose
effect the architecture leaves open is not.
-/

namespace Dyn.Isa

open Function
open Lib.CodeStream (field littleEndian)

abbrev Registers (w : Nat) := Nat → BitVec w

/-- The value of some bits, with their sign. -/
def signed (bits n : Nat) (w : Nat) : BitVec w := (BitVec.ofNat bits n).signExtend w

def rvRead {w : Nat} (regs : Registers w) (n : Nat) : BitVec w := if n = 0 then 0 else regs n

def rvWrite {w : Nat} (regs : Registers w) (n : Nat) (v : BitVec w) : Registers w :=
  if n = 0 then regs else update regs n v

/-- ADDI, SLLI, ADD and LUI on registers of `w` bits. -/
def rvExec {w : Nat} (insn : Nat) (regs : Registers w) : Option (Registers w) :=
  let op := field insn 0 7
  let rd := field insn 7 5
  let f3 := field insn 12 3
  let rs := field insn 15 5
  if op = 0x13 ∧ f3 = 0 then some (rvWrite regs rd (rvRead regs rs + signed 12 (field insn 20 12) w))
  else if op = 0x13 ∧ f3 = 1 ∧ field insn 26 6 = 0 ∧ field insn 20 6 < w then
    some (rvWrite regs rd (rvRead regs rs <<< field insn 20 6))
  else if op = 0x33 ∧ f3 = 0 ∧ field insn 25 7 = 0 then
    some (rvWrite regs rd (rvRead regs rs + rvRead regs (field insn 20 5)))
  else if op = 0x37 then some (rvWrite regs rd (signed 32 (field insn 12 20 * 4096) w))
  else none

def rvStep {w : Nat} (code : List UInt8) (regs : Registers w) : Option (List UInt8 × Registers w) :=
  match code with
  | b₀ :: b1 :: b2 :: b3 :: code => (rvExec (littleEndian [b₀, b1, b2, b3]) regs).map (code, ·)
  | _ => none

/-- MOVZ and MOVK on registers of 64 bits. -/
def a64Exec (insn : Nat) (regs : Registers 64) : Option (Registers 64) :=
  let rd := field insn 0 5
  let part := BitVec.ofNat 64 (field insn 5 16)
  let shift := 16 * field insn 21 2
  if rd = 31 then none
  else if field insn 23 9 = 0x1a5 then some (update regs rd (part <<< shift))
  else if field insn 23 9 = 0x1e5 then
    some (update regs rd (regs rd &&& ~~~((0xffff : BitVec 64) <<< shift) ||| part <<< shift))
  else none

def a64Step (code : List UInt8) (regs : Registers 64) : Option (List UInt8 × Registers 64) :=
  match code with
  | b₀ :: b1 :: b2 :: b3 :: code => (a64Exec (littleEndian [b₀, b1, b2, b3]) regs).map (code, ·)
  | _ => none

structure T32State where
  core : Registers 32
  single : Registers 32
  memory : BitVec 32 → BitVec 32

def T32State.setCore (s : T32State) (n : Nat) (v : BitVec 32) : T32State :=
  { s with core := update s.core n v }

/-- The expansion of a modified immediate i:imm3:imm8. -/
def thumbExpandImm (imm : Nat) : Option (BitVec 32) :=
  let low := BitVec.ofNat 32 (field imm 0 8)
  if field imm 10 2 ≠ 0 then some ((BitVec.ofNat 32 (128 + field imm 0 7)).rotateRight (field imm 7 5))
  else if field imm 8 2 = 0 then some low
  else if field imm 0 8 = 0 then none
  else if field imm 8 2 = 1 then some (low <<< 16 ||| low)
  else if field imm 8 2 = 2 then some (low <<< 24 ||| low <<< 8)
  else some (low <<< 24 ||| low <<< 16 ||| low <<< 8 ||| low)

/-- MOV and MVN of a modified immediate, MOVW, MOVT, a move to a floating-point register, and STR. -/
def t32Exec (h1 h2 : Nat) (s : T32State) : Option T32State :=
  let i := field h1 10 1
  let imm₃ := field h2 12 3
  let imm₈ := field h2 0 8
  let rd := field h2 8 4
  let imm12 := i * 2048 + imm₃ * 256 + imm₈
  let imm16 := field h1 0 4 * 4096 + imm12
  let immediate := field h1 11 5 = 0x1e ∧ field h2 15 1 = 0 ∧ rd ≠ 13 ∧ rd ≠ 15
  if immediate ∧ field h1 0 10 = 0x04f then (thumbExpandImm imm12).map fun v => s.setCore rd v
  else if immediate ∧ field h1 0 10 = 0x06f then (thumbExpandImm imm12).map fun v => s.setCore rd (~~~v)
  else if immediate ∧ field h1 4 6 = 0x24 then some (s.setCore rd (BitVec.ofNat 32 imm16))
  else if immediate ∧ field h1 4 6 = 0x2c then
    some (s.setCore rd (BitVec.ofNat 32 imm16 <<< 16 ||| s.core rd &&& 0xffff))
  else if field h1 4 12 = 0xee0 ∧ field h2 8 4 = 0xa ∧ field h2 0 7 = 0x10 then
    some { s with single := update s.single (2 * field h1 0 4 + field h2 7 1) (s.core (field h2 12 4)) }
  else if field h1 4 12 = 0xf8c ∧ field h1 0 4 ≠ 15 then
    let address := s.core (field h1 0 4) + BitVec.ofNat 32 (field h2 0 12)
    some { s with memory := update s.memory address (s.core (field h2 12 4)) }
  else none

def t32Step (code : List UInt8) (s : T32State) : Option (List UInt8 × T32State) :=
  match code with
  | b₀ :: b1 :: b2 :: b3 :: code => (t32Exec (littleEndian [b₀, b1]) (littleEndian [b2, b3]) s).map (code, ·)
  | _ => none

/-- The number of some bytes at the front of the code. -/
def x86Fetch (count : Nat) (code : List UInt8) : Option (Nat × List UInt8) :=
  if code.length < count then none else some (littleEndian (code.take count), code.drop count)

/-- MOV of an immediate (B8+r, and C7 /0 to a register), behind a prefix with the bits W and B. -/
def x86Exec (wide : Bool) (extension : Nat) (code : List UInt8) (regs : Registers 64) :
    Option (List UInt8 × Registers 64) :=
  match code with
  | [] => none
  | op :: code =>
      if field op.toNat 3 5 = 0x17 then do
        let (n, code) ← x86Fetch (if wide then 8 else 4) code
        return (code, update regs (field op.toNat 0 3 + 8 * extension) (BitVec.ofNat 64 n))
      else if op.toNat = 0xc7 then
        match code with
        | [] => none
        | modrm :: code =>
            if field modrm.toNat 3 5 = 0x18 then do
              let (n, code) ← x86Fetch 4 code
              let value := if wide then signed 32 n 64 else BitVec.ofNat 64 n
              return (code, update regs (field modrm.toNat 0 3 + 8 * extension) value)
            else none
      else none

def x86Step (code : List UInt8) (regs : Registers 64) : Option (List UInt8 × Registers 64) :=
  match code with
  | [] => none
  | b :: rest =>
      if field b.toNat 4 4 = 4 then x86Exec (field b.toNat 3 1 = 1) (field b.toNat 0 1) rest regs
      else x86Exec false 0 code regs

end Dyn.Isa
