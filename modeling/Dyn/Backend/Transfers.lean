import Mathlib.Tactic
import Dyn.Backend.Ssa

/-!
# backend/ssa, ssa_a64, ssa_rv64: one transfer

The instructions that move a value between two locations, on x86-64, AArch64 and RISC-V.
Registers 0 to 31 are integer ones and floating registers are numbered from 32 on.  Memory is
cells of eight bytes, each named by its address: slots are eight bytes apart.  Emitted code is a
list of instructions, and no code (`none`) is a function that is given up.
-/

namespace Dyn.Backend

open Function

inductive Place where
  | reg (n : Nat)
  | cell (a : BitVec 64)
deriving DecidableEq

structure Machine where
  reg : Nat → BitVec 64
  cell : BitVec 64 → BitVec 64

namespace Machine

def get (σ : Machine) : Place → BitVec 64
  | .reg n => σ.reg n
  | .cell a => σ.cell a

def set (σ : Machine) (p : Place) (v : BitVec 64) : Machine :=
  match p with
  | .reg n => { σ with reg := update σ.reg n v }
  | .cell a => { σ with cell := update σ.cell a v }

variable (σ : Machine)

@[simp] theorem get_set (p : Place) (v : BitVec 64) : (σ.set p v).get p = v := by
  cases p <;> simp [get, set]

theorem get_set_of_ne {p q : Place} (v : BitVec 64) (h : q ≠ p) : (σ.set p v).get q = σ.get q := by
  cases p <;> cases q <;> simp_all [get, set, update]

@[simp] theorem reg_eq_get (n : Nat) : σ.reg n = σ.get (.reg n) := rfl

end Machine

/-- The instructions of the three targets that transfers use. -/
inductive Insn where
  /-- A copy between registers of either bank. -/
  | mov (target source : Nat)
  | load (reg base : Nat) (disp : BitVec 64)
  | store (reg base : Nat) (disp : BitVec 64)
  -- x86-64
  | xor (reg : Nat)
  | movUnsigned (reg : Nat) (n : BitVec 32)
  | movSigned (reg : Nat) (n : BitVec 32)
  | movabs (reg : Nat) (n : BitVec 64)
  | storeSigned (n : BitVec 32) (base : Nat) (disp : BitVec 64)
  | lea (reg base : Nat) (disp : BitVec 64)
  /-- A load into a floating register, numbered from 0. -/
  | movsd (xmm base : Nat) (disp : BitVec 64)
  -- AArch64
  | fmovZero (reg : Nat)
  | movz (rd : Nat) (part : BitVec 16) (shift : Nat)
  | movk (rd : Nat) (part : BitVec 16) (shift : Nat)
  | movn (rd : Nat) (part : BitVec 16)
  | addImmediate (rd rn : Nat) (n : BitVec 12) (shift : Nat)
  | subImmediate (rd rn : Nat) (n : BitVec 12)
  | addRegister (rd rn rm : Nat)
  -- RISC-V
  | addi (rd rs : Nat) (n : BitVec 12)
  | slli (rd rs shift : Nat)
  | add (rd rs rt : Nat)
  | fmvD (rd rs : Nat)
  | fmvW (rd rs : Nat)
deriving DecidableEq

/-- A single-precision value in a register of 64 bits. -/
def nanBoxed (n : BitVec 64) : BitVec 64 := 0xffffffff00000000 ||| (n.setWidth 32).setWidth 64

namespace Insn

/-- A register of which one number reads as zero. -/
def read (hardwired : Nat) (σ : Machine) (n : Nat) : BitVec 64 := if n = hardwired then 0 else σ.reg n

def exec (σ : Machine) : Insn → Machine
  | mov target source => σ.set (.reg target) (σ.reg source)
  | load reg base disp => σ.set (.reg reg) (σ.cell (σ.reg base + disp))
  | store reg base disp => σ.set (.cell (σ.reg base + disp)) (σ.reg reg)
  | xor reg => σ.set (.reg reg) 0
  | movUnsigned reg n => σ.set (.reg reg) (n.setWidth 64)
  | movSigned reg n => σ.set (.reg reg) (n.signExtend 64)
  | movabs reg n => σ.set (.reg reg) n
  | storeSigned n base disp => σ.set (.cell (σ.reg base + disp)) (n.signExtend 64)
  | lea reg base disp => σ.set (.reg reg) (σ.reg base + disp)
  | movsd xmm base disp => σ.set (.reg (32 + xmm)) (σ.cell (σ.reg base + disp))
  | fmovZero reg => σ.set (.reg reg) 0
  | movz rd part shift => σ.set (.reg rd) (part.setWidth 64 <<< shift)
  | movk rd part shift =>
      σ.set (.reg rd) (σ.reg rd &&& ~~~((0xffff : BitVec 64) <<< shift) ||| part.setWidth 64 <<< shift)
  | movn rd part => σ.set (.reg rd) (~~~(part.setWidth 64))
  -- Register 31 is the stack pointer in an addition of an immediate and zero in one of a register.
  | addImmediate rd rn n shift => σ.set (.reg rd) (σ.reg rn + n.setWidth 64 <<< shift)
  | subImmediate rd rn n => σ.set (.reg rd) (σ.reg rn - n.setWidth 64)
  | addRegister rd rn rm => σ.set (.reg rd) (read 31 σ rn + read 31 σ rm)
  | addi rd rs n => σ.set (.reg rd) (read 0 σ rs + n.signExtend 64)
  | slli rd rs shift => σ.set (.reg rd) (read 0 σ rs <<< shift)
  | add rd rs rt => σ.set (.reg rd) (read 0 σ rs + read 0 σ rt)
  | fmvD rd rs => σ.set (.reg rd) (read 0 σ rs)
  | fmvW rd rs => σ.set (.reg rd) (nanBoxed (read 0 σ rs))

end Insn

def Insn.access (store : Bool) (reg base : Nat) (disp : BitVec 64) : Insn :=
  if store then .store reg base disp else .load reg base disp

/-- Emitted code runs from its start to its end. -/
def runCode (code : List Insn) (σ : Machine) : Machine := code.foldl Insn.exec σ

theorem runCode_append (code code' : List Insn) (σ : Machine) :
    runCode (code ++ code') σ = runCode code' (runCode code σ) := List.foldl_append

@[simp] theorem runCode_singleton (i : Insn) (σ : Machine) : runCode [i] σ = i.exec σ := rfl

def xXmm0 : Nat := 32

def ssaFloatClass (cls : SsaClass) : Bool := cls = .f64 ∨ cls = .f32

/-- The bits from 0 to 31, as a signed number. -/
def int32 (n : BitVec 64) : BitVec 64 := (n.setWidth 32).signExtend 64

def xR10 : Nat := 10
def xR11 : Nat := 11
def xRsp : Nat := 4
def xRbp : Nat := 5

def ssaXs1 (ctx : BackendContext) : Nat := if ctx.win64 then xXmm0 + 5 else xXmm0 + 15
def ssaXs2 (ctx : BackendContext) : Nat := if ctx.win64 then xXmm0 + 4 else xXmm0 + 14

def x86Mov (target source : Nat) : List Insn := if target = source then [] else [.mov target source]

/-- `x86_move_immediate` into an integer register. -/
def x86MoveInteger (reg : Nat) (n : BitVec 64) : List Insn :=
  if n = 0 then [.xor reg]
  else if n.toNat ≤ 4294967295 then [.movUnsigned reg (n.setWidth 32)]
  else if -2147483648 ≤ n.toInt ∧ n.toInt ≤ 2147483647 then [.movSigned reg (n.setWidth 32)]
  else [.movabs reg n]

def x86MoveImmediate (reg : Nat) (n : BitVec 64) : List Insn :=
  if xXmm0 ≤ reg then
    if n = 0 then [.xor reg] else x86MoveInteger xR10 n ++ x86Mov reg xR10
  else x86MoveInteger reg n

def aS2 : Nat := 17
def aS3 : Nat := 15
def aS4 : Nat := 14
def aF2 : Nat := 30
def a64Fp : Nat := 29
def a64Sp : Nat := 31

def a64sMov (target source : Nat) : List Insn := if target = source then [] else [.mov target source]

/-- One turn of the loop of `a64_immediate`: whether nothing is emitted yet, and the code. -/
def a64Part (rd : Nat) (n : BitVec 64) (acc : Bool × List Insn) (shift : Nat) : Bool × List Insn :=
  let part := (n >>> shift).setWidth 16
  if part = 0 ∧ ¬ (acc.1 ∧ shift = 48) then acc
  else (false, acc.2 ++ [if acc.1 then .movz rd part shift else .movk rd part shift])

def a64Immediate (rd : Nat) (n : BitVec 64) : List Insn :=
  ([0, 16, 32, 48].foldl (a64Part rd n) (true, [])).2

def a64sImmediate (reg : Nat) (n : BitVec 64) : List Insn :=
  if xXmm0 ≤ reg then
    if n = 0 then [.fmovZero reg] else a64Immediate aS2 n ++ a64sMov reg aS2
  else if n = 0 then [.movz reg 0 0]
  else if (~~~n).toNat ≤ 0xffff then [.movn reg ((~~~n).setWidth 16)]
  else a64Immediate reg n

def a64sAddImmediate (rd rn : Nat) (n : BitVec 64) : List Insn :=
  if 0 ≤ n.toInt ∧ n.toInt < 4096 then
    if n ≠ 0 ∨ rd ≠ rn then [.addImmediate rd rn (n.setWidth 12) 0] else []
  else if n.toInt < 0 ∧ -n.toInt < 4096 then [.subImmediate rd rn ((-n).setWidth 12)]
  else if 0 ≤ n.toInt ∧ n.toInt < 2 ^ 24 ∧ n &&& 0xfff = 0 then
    [.addImmediate rd rn ((n >>> 12).setWidth 12) 12]
  else
    let temp := if rd = rn then aS4 else rd
    a64sImmediate temp n ++ [.addRegister rd rn temp]

/-- A load or store of eight bytes: `a64s_access` with no index, for either bank. -/
def a64sSlotAccess (store : Bool) (reg base : Nat) (disp : BitVec 64) : List Insn :=
  if 0 ≤ disp.toInt ∧ disp &&& 7 = 0 ∧ disp.toInt / 8 < 4096 then [.access store reg base disp]
  else if -256 ≤ disp.toInt ∧ disp.toInt < 256 then [.access store reg base disp]
  else a64sAddImmediate aS3 base disp ++ [.access store reg aS3 0]

def rS2 : Nat := 31
def rS4 : Nat := 7
def rT : Nat := 28
def rF2 : Nat := 30
def rvFp : Nat := 8
def rvSp : Nat := 2

/-- The bits from 0 to 11, as a signed number. -/
def low12 (value : BitVec 64) : BitVec 64 := (value.setWidth 12).signExtend 64

theorem low12_toNat (value : BitVec 64) : (low12 value).toNat =
    value.toNat % 4096 + if 2048 ≤ value.toNat % 4096 then 2 ^ 64 - 4096 else 0 := by
  unfold low12
  rw [BitVec.toNat_signExtend, BitVec.msb_eq_decide, BitVec.toNat_setWidth, BitVec.toNat_setWidth]
  have hlt : value.toNat % 2 ^ 12 < 2 ^ 64 := by omega
  rw [Nat.mod_eq_of_lt hlt]
  by_cases hle : 2048 ≤ value.toNat % 4096
  · simp [hle]
  · simp [hle]

variable {value : BitVec 64}

/-- What is left above the low bits is a multiple of 4096, rounded. -/
theorem sub_low12_toNat (h : ¬ (-2048 ≤ value.toInt ∧ value.toInt ≤ 2047)) :
    (value - low12 value).toNat = 4096 * ((value.toNat + 2048) / 4096) ∧ 2048 ≤ value.toNat := by
  have hlow := low12_toNat value
  rw [BitVec.toInt_eq_toNat_cond] at h
  rw [BitVec.toNat_sub, hlow]
  split_ifs at h ⊢ <;> omega

theorem rvImm_decreases (h : ¬ (-2048 ≤ value.toInt ∧ value.toInt ≤ 2047)) :
    ((value - low12 value) >>> 12).toNat < value.toNat := by
  obtain ⟨hsub, hle⟩ := sub_low12_toNat h
  rw [BitVec.toNat_ushiftRight, hsub, Nat.shiftRight_eq_div_pow]
  omega

def rvImm (d : Nat) (value : BitVec 64) : List Insn :=
  if -2048 ≤ value.toInt ∧ value.toInt ≤ 2047 then [.addi d 0 (value.setWidth 12)]
  else
    rvImm d ((value - low12 value) >>> 12) ++ [.slli d d 12] ++
      if low12 value ≠ 0 then [.addi d d ((low12 value).setWidth 12)] else []
termination_by value.toNat
decreasing_by exact rvImm_decreases (by assumption)

def rvsMov (target source : Nat) : List Insn :=
  if target = source then []
  else if xXmm0 ≤ target ∨ xXmm0 ≤ source then [.mov target source]
  else [.addi target source 0]

def rvsImmediateClass (reg : Nat) (n : BitVec 64) (cls : SsaClass) : List Insn :=
  if xXmm0 ≤ reg then
    let source := if n = 0 then 0 else rS4
    (if n = 0 then [] else rvImm rS4 n) ++ [if cls = .f32 then .fmvW reg source else .fmvD reg source]
  else rvImm reg n

def rvsAddImmediate (rd rn : Nat) (n : BitVec 64) : List Insn :=
  if -2048 ≤ n.toInt ∧ n.toInt ≤ 2047 then
    if n ≠ 0 ∨ rd ≠ rn then [.addi rd rn (n.setWidth 12)] else []
  else rvImm rS4 n ++ [.add rd rn rS4]

/-- A load or store of eight bytes: `rvs_access` with no index, for either bank. -/
def rvsSlotAccess (store : Bool) (reg base : Nat) (disp : BitVec 64) : List Insn :=
  if disp.toInt < -2048 ∨ 2047 < disp.toInt then
    rvImm rT disp ++ [.add rT rT base] ++ [.access store reg rT 0]
  else [.access store reg base disp]

inductive LocationKind where
  | reg | slot | out | const | frame
deriving DecidableEq

structure SsaMove where
  dstKind : LocationKind
  srcKind : LocationKind
  cls : SsaClass
  dst : BitVec 64
  src : BitVec 64
deriving DecidableEq

def a64sTransfer (dstKind : LocationKind) (dst : BitVec 64) (srcKind : LocationKind) (src : BitVec 64)
    (cls : SsaClass) : List Insn :=
  let fl := ssaFloatClass cls
  let reg := if dstKind = .reg then dst.toNat else if fl then xXmm0 + aF2 else aS2
  let base (kind : LocationKind) := if kind = .slot then a64Fp else a64Sp
  let put (reg : Nat) :=
    if dstKind = .reg then [] else a64sSlotAccess true reg (base dstKind) (int32 dst)
  match srcKind with
  | .reg => if dstKind = .reg then a64sMov reg src.toNat else put src.toNat
  | .const => a64sImmediate reg src ++ put reg
  | .frame => a64sAddImmediate reg a64Fp src ++ put reg
  | kind => a64sSlotAccess false reg (base kind) (int32 src) ++ put reg

def rvsTransfer (dstKind : LocationKind) (dst : BitVec 64) (srcKind : LocationKind) (src : BitVec 64)
    (cls : SsaClass) : List Insn :=
  let fl := ssaFloatClass cls
  let reg := if dstKind = .reg then dst.toNat else if fl then xXmm0 + rF2 else rS2
  let base (kind : LocationKind) := if kind = .slot then rvFp else rvSp
  let put (reg : Nat) :=
    if dstKind = .reg then [] else rvsSlotAccess true reg (base dstKind) (int32 dst)
  match srcKind with
  | .reg => if dstKind = .reg then rvsMov reg src.toNat else put src.toNat
  | .const => rvsImmediateClass reg src cls ++ put reg
  | .frame => rvsAddImmediate reg rvFp src ++ put reg
  | kind => rvsSlotAccess false reg (base kind) (int32 src) ++ put reg

/-- Moves one value between two locations, with `via` as the scratch between cells. -/
def ssaTransfer (ctx : BackendContext) (dstKind : LocationKind) (dst : BitVec 64)
    (srcKind : LocationKind) (src : BitVec 64) (cls : SsaClass) (via : Nat) : Option (List Insn) :=
  if ctx.a64 then some (a64sTransfer dstKind dst srcKind src cls)
  else if ctx.rv64 then some (rvsTransfer dstKind dst srcKind src cls)
  else
    let fl := ssaFloatClass cls
    let via := if fl ∧ via < xXmm0 then ssaXs2 ctx else via
    let reg := if dstKind = .reg then dst.toNat else via
    let base (kind : LocationKind) := if kind = .slot then xRbp else xRsp
    let put (reg : Nat) : List Insn :=
      if dstKind = .reg then [] else [.store reg (base dstKind) (int32 dst)]
    match srcKind with
    | .reg => some (if dstKind = .reg then x86Mov reg src.toNat else put src.toNat)
    | .const =>
        if dstKind ≠ .reg ∧ ¬ fl ∧ src = int32 src then
          some [.storeSigned (src.setWidth 32) (base dstKind) (int32 dst)]
        else some (x86MoveImmediate reg src ++ put reg)
    | .frame => if fl then none else some ([.lea reg xRbp (int32 src)] ++ put reg)
    | kind =>
        let load : Insn := if fl then .movsd (reg - xXmm0) (base kind) (int32 src)
          else .load reg (base kind) (int32 src)
        some ([load] ++ put reg)

end Dyn.Backend
