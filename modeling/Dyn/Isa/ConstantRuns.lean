import Dyn.Backend.TransferRuns
import Dyn.Isa.Immediates
import Dyn.Isa.Machines

/-!
# backend: constants of RISC-V, AArch64 and x86-64

Each word is decoded to the fields that it was put together from.  The code then leaves the constant
in its register and changes no other one.
-/

namespace Dyn.Isa

open List Function
open Backend (low12 low12_eq low12_low12 shift_low12 lowBits lowBits_add lowBits_and partAt)
open Lib.CodeStream

theorem littleEndian_cons (b : UInt8) (bytes : List UInt8) :
    littleEndian (b :: bytes) = b.toNat + 256 * littleEndian bytes := by
  unfold littleEndian
  rw [map_cons, Nat.ofDigits_cons]

theorem littleEndian_nil : littleEndian [] = 0 := rfl

theorem byte_toNat (n : Nat) : (UInt8.ofNat n).toNat = n % 256 := UInt8.toNat_ofNat'

theorem littleEndian_word (n : Nat) : littleEndian (word n) = n % 4294967296 := by
  unfold word byte
  simp only [cons_append, nil_append, littleEndian_cons, littleEndian_nil, byte_toNat,
    Nat.shiftRight_eq_div_pow]
  omega

section

variable {w : Nat} {regs : Registers w}

theorem rvStep_word {n : Nat} (h : n < 4294967296) (rest : Code) :
    rvStep (word n ++ rest) regs = (rvExec n regs).map (rest, ·) := by
  have hstep : rvStep (word n ++ rest) regs = (rvExec (littleEndian (word n)) regs).map (rest, ·) := rfl
  rw [hstep, littleEndian_word, Nat.mod_eq_of_lt h]

variable (imm : BitVec 64) {rs d : Nat}

theorem and_4095 : (imm.setWidth 32).toNat &&& 4095 = imm.toNat % 4096 := by
  rw [show (4095 : Nat) = 2 ^ 12 - 1 from rfl, Nat.and_two_pow_sub_one_eq_mod, BitVec.toNat_setWidth]
  omega

theorem signed_imm : signed 12 (imm.toNat % 4096) w = (imm.setWidth 12).signExtend w := by
  unfold signed
  congr 1
  apply BitVec.eq_of_toNat_eq
  rw [BitVec.toNat_ofNat, BitVec.toNat_setWidth]
  omega

theorem rvI_eq {op rd rs : Nat} (hop : op < 128) (hrd : rd < 32) (hrs : rs < 32) (imm : BitVec 64) {f3 : Nat} (hf : f3 < 8) :
    rvI op rd rs imm f3 = word (op + rd * 2 ^ 7 + f3 * 2 ^ 12 + rs * 2 ^ 15 + imm.toNat % 4096 * 2 ^ 20) := by
  unfold rvI
  rw [and_4095, or_shiftLeft rd (show op < 2 ^ 7 by omega), or_shiftLeft f3 (show op + rd * 2 ^ 7 < 2 ^ 12 by omega),
    or_shiftLeft rs (show op + rd * 2 ^ 7 + f3 * 2 ^ 12 < 2 ^ 15 by omega),
    or_shiftLeft _ (show op + rd * 2 ^ 7 + f3 * 2 ^ 12 + rs * 2 ^ 15 < 2 ^ 20 by omega)]

/-- The fields that a word of the formats I and R was put together from. -/
theorem fields_eq (top : Nat) {op rd f3 rs : Nat} (hop : op < 128) (hrd : rd < 32) (hf : f3 < 8) (hrs : rs < 32) :
    field (op + rd * 2 ^ 7 + f3 * 2 ^ 12 + rs * 2 ^ 15 + top * 2 ^ 20) 0 7 = op ∧
      field (op + rd * 2 ^ 7 + f3 * 2 ^ 12 + rs * 2 ^ 15 + top * 2 ^ 20) 7 5 = rd ∧
      field (op + rd * 2 ^ 7 + f3 * 2 ^ 12 + rs * 2 ^ 15 + top * 2 ^ 20) 12 3 = f3 ∧
      field (op + rd * 2 ^ 7 + f3 * 2 ^ 12 + rs * 2 ^ 15 + top * 2 ^ 20) 15 5 = rs ∧
      ∀ low width, field (op + rd * 2 ^ 7 + f3 * 2 ^ 12 + rs * 2 ^ 15 + top * 2 ^ 20) (20 + low) width =
        field top low width := by
  have htop : (op + rd * 2 ^ 7 + f3 * 2 ^ 12 + rs * 2 ^ 15 + top * 2 ^ 20) / 2 ^ 20 = top := by omega
  refine ⟨by unfold field; omega, by unfold field; omega, by unfold field; omega, by unfold field; omega, ?_⟩
  intro low width
  unfold field
  rw [pow_add, ← Nat.div_div_eq_div_mul, htop]

theorem addi_executes (regs : Registers w) (hd : d < 32) (hne : d ≠ 0) (hrs : rs < 32)
    (imm : BitVec 64) :
    Executes rvStep (rvI 0x13 d rs imm 0) regs
      (update regs d (rvRead regs rs + (imm.setWidth 12).signExtend w)) := by
  refine Executes.one fun rest => ?_
  rw [rvI_eq (by decide) hd hrs imm (by decide), rvStep_word (by omega), ← signed_imm]
  obtain ⟨hop, hrd, hf, hsource, htop⟩ :=
    fields_eq (imm.toNat % 4096) (by decide : 0x13 < 128) hd (by decide : 0 < 8) hrs
  have hvalue : field (imm.toNat % 4096) 0 12 = imm.toNat % 4096 := by unfold field; omega
  unfold rvExec
  rw [hop, hrd, hf, hsource, htop 0 12, hvalue]
  simp only [and_self, if_true, rvWrite, if_neg hne, Option.map_some]

theorem slli_executes (hd : d < 32) (hne : d ≠ 0) (hw : 12 < w) :
    Executes rvStep (rvI 0x13 d d 12 1) regs (update regs d (regs d <<< 12)) := by
  refine Executes.one fun rest => ?_
  have hlow : (12 : BitVec 64).toNat % 4096 = 12 := rfl
  rw [rvI_eq (by decide) hd hd 12 (by decide), hlow, rvStep_word (by omega)]
  obtain ⟨hop, hrd, hf, hsource, htop⟩ := fields_eq 12 (by decide : 0x13 < 128) hd (by decide : 1 < 8) hd
  have hshift : field 12 0 6 = 12 := rfl
  have hzero : field 12 6 6 = 0 := rfl
  unfold rvExec
  rw [hop, hrd, hf, hsource, htop 0 6, htop 6 6, hshift, hzero, if_neg (by decide), if_pos ⟨rfl, rfl, rfl, hw⟩]
  simp only [rvWrite, rvRead, if_neg hne, Option.map_some]

theorem add_executes {rt : Nat} (hd : d < 32) (hne : d ≠ 0) (hrs : rs < 32) (hrt : rt < 32) :
    Executes rvStep (rvR 0x33 d rs rt 0 0) regs (update regs d (rvRead regs rs + rvRead regs rt)) := by
  refine Executes.one fun rest => ?_
  have hword : rvR 0x33 d rs rt 0 0 = word (0x33 + d * 2 ^ 7 + 0 * 2 ^ 12 + rs * 2 ^ 15 + rt * 2 ^ 20) := by
    unfold rvR
    rw [or_shiftLeft d (show (0x33 : Nat) < 2 ^ 7 by decide), or_shiftLeft 0 (show 0x33 + d * 2 ^ 7 < 2 ^ 12 by omega),
      or_shiftLeft rs (show 0x33 + d * 2 ^ 7 + 0 * 2 ^ 12 < 2 ^ 15 by omega),
      or_shiftLeft rt (show 0x33 + d * 2 ^ 7 + 0 * 2 ^ 12 + rs * 2 ^ 15 < 2 ^ 20 by omega), Nat.zero_shiftLeft, Nat.or_zero]
  rw [hword, rvStep_word (by omega)]
  obtain ⟨hop, hrd, hf, hsource, htop⟩ := fields_eq rt (by decide : 0x33 < 128) hd (by decide : 0 < 8) hrs
  have hother : field rt 0 5 = rt := by unfold field; omega
  have hzero : field rt 5 7 = 0 := by unfold field; omega
  unfold rvExec
  rw [hop, hrd, hf, hsource, htop 0 5, htop 5 7, hother, hzero, if_neg (by decide), if_neg (by simp),
    if_pos ⟨rfl, rfl, rfl⟩]
  simp only [rvWrite, if_neg hne, Option.map_some]

theorem lui_executes (hd : d < 32) (hne : d ≠ 0) {high : BitVec 32} (hhigh : high.toNat % 4096 = 0) :
    Executes rvStep (word (0x37 ||| d <<< 7 ||| high.toNat)) regs (update regs d (high.signExtend w)) := by
  refine Executes.one fun rest => ?_
  obtain ⟨upper, hupper⟩ : ∃ upper, high.toNat = upper * 2 ^ 12 := ⟨high.toNat / 4096, by omega⟩
  have hword : 0x37 ||| d <<< 7 ||| high.toNat = 55 + d * 2 ^ 7 + upper * 2 ^ 12 := by
    have hshift : high.toNat = upper <<< 12 := hupper.trans (Nat.shiftLeft_eq upper 12).symm
    rw [or_shiftLeft d (show (0x37 : Nat) < 2 ^ 7 by decide), hshift,
      or_shiftLeft upper (show 0x37 + d * 2 ^ 7 < 2 ^ 12 by omega)]
  rw [hword, rvStep_word (by omega)]
  have hop : field (55 + d * 2 ^ 7 + upper * 2 ^ 12) 0 7 = 0x37 := by unfold field; omega
  have hrd : field (55 + d * 2 ^ 7 + upper * 2 ^ 12) 7 5 = d := by unfold field; omega
  have hvalue : field (55 + d * 2 ^ 7 + upper * 2 ^ 12) 12 20 * 4096 = high.toNat := by unfold field; omega
  have hsigned : signed 32 high.toNat w = high.signExtend w := by
    unfold signed
    rw [BitVec.ofNat_toNat, BitVec.setWidth_eq]
  unfold rvExec
  rw [hop, hrd, hvalue, if_neg (by simp), if_neg (by simp), if_neg (by simp), if_pos rfl, hsigned]
  simp only [rvWrite, if_neg hne, Option.map_some]

theorem signExtend_low12 (hw : w ≤ 64) (imm : BitVec 64) :
    (imm.setWidth 12).signExtend w = (low12 imm).setWidth w := by
  apply BitVec.eq_of_getLsbD_eq
  intro i hi
  unfold low12
  rw [BitVec.getLsbD_setWidth, BitVec.getLsbD_signExtend, BitVec.getLsbD_signExtend]
  simp [hi, (by omega : i < 64)]

theorem setWidth_shift (hw : w ≤ 64) (value : BitVec 64) : (value <<< 12).setWidth w = value.setWidth w <<< 12 :=
  BitVec.setWidth_shiftLeft_of_le hw

/-- **The constant is exact** on registers of any width, where its lower bits count. -/
theorem rvImm_executes (regs : Registers w) (hw : 12 < w) (hw' : w ≤ 64) (hd : d < 32) (hne : d ≠ 0)
    (value : BitVec 64) :
    Executes rvStep (rvImm d value) regs (update regs d (value.setWidth w)) := by
  induction value using rvImm.induct generalizing regs with
  | case1 value h =>
    rw [rvImm, if_pos h]
    have hrun := addi_executes regs hd hne (by decide : 0 < 32) value
    rw [signExtend_low12 hw', low12_eq h, rvRead, if_pos rfl] at hrun
    have hsum : 0 + value.setWidth w = value.setWidth w := BitVec.zero_add _
    rwa [hsum] at hrun
  | case2 value h ih =>
    rw [rvImm, if_neg h, append_assoc]
    refine (ih regs).append ((slli_executes hd hne hw).append ?_)
    rw [update_self, ← setWidth_shift hw', shift_low12 h, update_idem]
    split_ifs with hzero
    · have hrun := addi_executes (update regs d ((value - low12 value).setWidth w)) hd hne hd (low12 value)
      rwa [signExtend_low12 hw', low12_low12, rvRead, if_neg hne, update_self, update_idem,
        ← BitVec.setWidth_add _ _ hw', BitVec.sub_add_cancel] at hrun
    rw [not_not] at hzero
    have hsub : value - low12 value = value := by
      rw [hzero]
      exact BitVec.sub_zero value
    rw [hsub]
    exact Executes.nil

/-- **The address is exact**: a base that is not the scratch register is still there for the sum. -/
theorem rvAddress_executes (hw : 12 < w) (hw' : w ≤ 64) {d base : Nat} (hd : d < 32) (hne : d ≠ 0) (hbase : base < 32)
    (offset : BitVec 64) (hscratch : base ≠ 7 ∨ (-2048 ≤ offset.toInt ∧ offset.toInt ≤ 2047)) : ∃ regs',
      Executes rvStep (rvAddress d base offset) regs regs' ∧ regs' d = rvRead regs base + offset.setWidth w ∧
      ∀ n, n ≠ d → n ≠ 7 → regs' n = regs n := by
  unfold rvAddress
  split_ifs with h
  · have hrun := addi_executes regs hd hne hbase offset
    rw [signExtend_low12 hw', low12_eq h] at hrun
    exact ⟨_, hrun, update_self .., fun n hn _ => update_of_ne hn ..⟩
  have hother : base ≠ 7 := hscratch.resolve_right h
  have hrun := (rvImm_executes regs hw hw' (by decide : 7 < 32) (by decide) offset).append
    (add_executes hd hne hbase (by decide : 7 < 32))
  refine ⟨_, hrun, ?_, fun n hn hn' => ?_⟩
  · have hkept : rvRead (update regs 7 (offset.setWidth w)) base = rvRead regs base := by
      unfold rvRead
      rw [update_of_ne hother]
    have hscratch' : rvRead (update regs 7 (offset.setWidth w)) 7 = offset.setWidth w := by
      unfold rvRead
      rw [if_neg (by decide), update_self]
    rw [update_self, hkept, hscratch']
  · rw [update_of_ne hn, update_of_ne hn']

end

/-- The bits from 0 to 11, as a signed number of 32 bits. -/
def low12Word (value : BitVec 32) : BitVec 32 := (value.setWidth 12).signExtend 32

variable (value : BitVec 32)

theorem shifted_low12 : (value <<< 20).sshiftRight 20 = low12Word value := by
  apply BitVec.eq_of_getLsbD_eq
  intro i hi
  unfold low12Word
  rw [BitVec.getLsbD_sshiftRight, BitVec.getLsbD_signExtend, BitVec.getLsbD_shiftLeft, BitVec.msb_eq_getLsbD_last,
    BitVec.msb_eq_getLsbD_last, BitVec.getLsbD_shiftLeft, BitVec.getLsbD_setWidth, BitVec.getLsbD_setWidth]
  by_cases hlow : i < 12
  · simp [hi, hlow, (by omega : 20 + i < 32)]
  · have hfar : ¬20 + i < 32 := by omega
    simp [hi, hlow, hfar, Nat.not_le.mpr hi]

theorem low12Word_toNat : (low12Word value).toNat =
    value.toNat % 4096 + if 2048 ≤ value.toNat % 4096 then 2 ^ 32 - 4096 else 0 := by
  unfold low12Word
  rw [BitVec.toNat_signExtend, BitVec.msb_eq_decide, BitVec.toNat_setWidth, BitVec.toNat_setWidth]
  have hlt : value.toNat % 2 ^ 12 < 2 ^ 32 := by omega
  rw [Nat.mod_eq_of_lt hlt]
  by_cases hle : 2048 ≤ value.toNat % 4096
  · simp [hle]
  · simp [hle]

/-- The immediate of an addition, from a number that is one of 12 bits with its sign. -/
theorem signExtend_low12Word :
    ((value.signExtend 64).setWidth 12).signExtend 32 = low12Word value := by
  congr 1
  apply BitVec.eq_of_getLsbD_eq
  intro i hi
  rw [BitVec.getLsbD_setWidth, BitVec.getLsbD_setWidth, BitVec.getLsbD_signExtend]
  simp [hi, (by omega : i < 64), (by omega : i < 32)]

theorem low12Word_eq {value : BitVec 32} (h : -2048 ≤ value.toInt ∧ value.toInt ≤ 2047) : low12Word value = value := by
  apply BitVec.eq_of_toNat_eq
  rw [BitVec.toInt_eq_toNat_cond] at h
  rw [low12Word_toNat]
  split_ifs at h ⊢ <;> omega

theorem low12Word_low12Word : low12Word (low12Word value) = low12Word value := by
  apply low12Word_eq
  rw [BitVec.toInt_eq_toNat_cond, low12Word_toNat]
  split_ifs <;> omega

theorem high_mod : (value - low12Word value).toNat % 4096 = 0 := by
  rw [BitVec.toNat_sub, low12Word_toNat]
  split_ifs <;> omega

theorem high_and : (value - low12Word value) &&& 0xfffff000 = value - low12Word value := by
  have hmod := high_mod value
  generalize value - low12Word value = high at *
  apply BitVec.eq_of_getLsbD_eq
  intro i hi
  have hmask : (0xfffff000 : BitVec 32).getLsbD i = decide (12 ≤ i) := by
    interval_cases i <;> rfl
  rw [BitVec.getLsbD_and, hmask]
  by_cases hlow : 12 ≤ i
  · simp [hlow]
  have hbit : high.getLsbD i = false := by
    have htest : (high.toNat % 2 ^ 12).testBit i = high.toNat.testBit i := by
      rw [Nat.testBit_mod_two_pow, decide_eq_true (by omega), Bool.true_and]
    rw [show (2 ^ 12 : Nat) = 4096 from rfl, hmod, Nat.zero_testBit] at htest
    exact htest.symm
  simp [hbit]

theorem r32Li_executes {regs : Registers 32} {d : Nat} (hd : d < 32) (hne : d ≠ 0) (value : BitVec 32) :
    Executes rvStep (r32Li d value) regs (update regs d value) := by
  unfold r32Li
  split_ifs with h
  · have hrun := addi_executes regs hd hne (by decide : 0 < 32) (value.signExtend 64)
    have hlow : low12Word value = value := low12Word_eq h
    rw [signExtend_low12Word, hlow, rvRead, if_pos rfl] at hrun
    have hsum : 0 + value = value := BitVec.zero_add value
    rwa [hsum] at hrun
  dsimp only
  rw [shifted_low12, high_and]
  refine (lui_executes hd hne (high_mod value)).append ?_
  rw [BitVec.signExtend_eq]
  split_ifs with hzero
  · have hrun := addi_executes (update regs d (value - low12Word value)) hd hne hd
      ((low12Word value).signExtend 64)
    rwa [signExtend_low12Word, low12Word_low12Word, rvRead, if_neg hne, update_self, update_idem,
      BitVec.sub_add_cancel] at hrun
  rw [not_not] at hzero
  have hsub : value - low12Word value = value := by
    rw [hzero]
    exact BitVec.sub_zero value
  rw [hsub]
  exact Executes.nil

section

variable {rd : Nat} {n : BitVec 64} {regs start : Registers 64}

theorem a64Step_word {i : Nat} (h : i < 4294967296) (rest : Code) :
    a64Step (word i ++ rest) regs = (a64Exec i regs).map (rest, ·) := by
  have hstep : a64Step (word i ++ rest) regs = (a64Exec (littleEndian (word i)) regs).map (rest, ·) := rfl
  rw [hstep, littleEndian_word, Nat.mod_eq_of_lt h]

variable {place : Nat}

theorem a64Word_eq (top : Nat) {part : Nat} (hrd : rd < 32) (hpart : part < 65536)
    (hplace : place < 4) :
    top <<< 23 ||| place <<< 21 ||| part <<< 5 ||| rd = rd + part * 2 ^ 5 + place * 2 ^ 21 + top * 2 ^ 23 := by
  rw [Nat.or_comm _ rd, Nat.or_comm _ (part <<< 5), Nat.or_comm (top <<< 23), ← Nat.or_assoc, ← Nat.or_assoc,
    or_shiftLeft part (show rd < 2 ^ 5 by omega), or_shiftLeft place (show rd + part * 2 ^ 5 < 2 ^ 21 by omega),
    or_shiftLeft top (show rd + part * 2 ^ 5 + place * 2 ^ 21 < 2 ^ 23 by omega)]

theorem a64Move_executes (regs : Registers 64) (first : Bool) {part : Nat} (hrd : rd < 31)
    (hpart : part < 65536) (hplace : place < 4) :
    Executes a64Step (word ((if first then 0xd2800000 else 0xf2800000) ||| place <<< 21 ||| part <<< 5 ||| rd)) regs
      (update regs rd (if first then BitVec.ofNat 64 part <<< (16 * place)
        else regs rd &&& ~~~((0xffff : BitVec 64) <<< (16 * place)) ||| BitVec.ofNat 64 part <<< (16 * place))) := by
  refine Executes.one fun rest => ?_
  have htop : (if first then 0xd2800000 else 0xf2800000 : Nat) = (if first then 0x1a5 else 0x1e5) <<< 23 := by
    cases first <;> rfl
  generalize hchoice : (if first then 0x1a5 else 0x1e5 : Nat) = top at htop
  have hbound : top < 512 := by
    rw [← hchoice]
    cases first <;> decide
  rw [htop, a64Word_eq top (by omega) hpart hplace, a64Step_word (by omega)]
  have hfield : field (rd + part * 2 ^ 5 + place * 2 ^ 21 + top * 2 ^ 23) 0 5 = rd := by unfold field; omega
  have hfield' : field (rd + part * 2 ^ 5 + place * 2 ^ 21 + top * 2 ^ 23) 5 16 = part := by unfold field; omega
  have hshift : field (rd + part * 2 ^ 5 + place * 2 ^ 21 + top * 2 ^ 23) 21 2 = place := by unfold field; omega
  have hop : field (rd + part * 2 ^ 5 + place * 2 ^ 21 + top * 2 ^ 23) 23 9 = top := by unfold field; omega
  unfold a64Exec
  rw [hfield, hfield', hshift, hop, if_neg (by omega), ← hchoice]
  cases first <;> rfl

theorem a64Part_toNat (k : Nat) : ((n >>> k).setWidth 32).toNat &&& 0xffff = ((n >>> k).setWidth 16).toNat := by
  rw [show (0xffff : Nat) = 2 ^ 16 - 1 from rfl, Nat.and_two_pow_sub_one_eq_mod, BitVec.toNat_setWidth,
    BitVec.toNat_setWidth]
  omega

theorem partAt_eq (k : Nat) : BitVec.ofNat 64 ((n >>> k).setWidth 16).toNat <<< k = partAt n k := by
  congr 1
  apply BitVec.eq_of_toNat_eq
  rw [BitVec.toNat_ofNat, BitVec.toNat_setWidth _ ((n >>> k).setWidth 16)]

/-- What the parts below `k` have done: nothing as long as they are zero, else their bits are in the register. -/
def PartsSet (start : Registers 64) (rd : Nat) (n : BitVec 64) (k : Nat) (first : Bool) (regs : Registers 64) : Prop :=
  if first then regs = start ∧ lowBits n k = 0 else regs = update start rd (lowBits n k)

theorem a64Parts_step (hrd : rd < 31) {first : Bool} (hplace : place < 4) (shifts : List Nat)
    (h : PartsSet start rd n (16 * place) first regs) : ∃ piece first' regs',
      a64Parts rd n first (16 * place :: shifts) = piece ++ a64Parts rd n first' shifts ∧
      Executes a64Step piece regs regs' ∧ PartsSet start rd n (16 * place + 16) first' regs' ∧
      (place = 3 → first' = false) := by
  rw [a64Parts, a64Part_toNat]
  have hpart := ((n >>> (16 * place)).setWidth 16).isLt
  split
  · rename_i hskip
    obtain ⟨hzero, hlast⟩ := hskip
    have hnone : partAt n (16 * place) = 0 := by
      rw [← partAt_eq, hzero]
      simp
    refine ⟨[], first, regs, rfl, Executes.nil, ?_, fun hthree => ?_⟩
    · unfold PartsSet at h ⊢
      rw [lowBits_add, hnone]
      simpa using h
    · subst hthree
      simpa using hlast
  have hrun := a64Move_executes regs first hrd hpart hplace
  rw [Nat.mul_div_cancel_left place (by decide : 0 < 16)]
  refine ⟨_, false, _, rfl, hrun, ?_, fun _ => rfl⟩
  unfold PartsSet at h ⊢
  rw [if_neg (by decide), partAt_eq, lowBits_add]
  cases first with
  | true =>
    obtain ⟨rfl, hlow⟩ := h
    have hor : 0 ||| partAt n (16 * place) = partAt n (16 * place) := BitVec.zero_or
    rw [if_pos rfl, hlow, hor]
  | false =>
    have hregs : regs = update start rd (lowBits n (16 * place)) := h
    rw [hregs, if_neg (by decide), update_self, update_idem, lowBits_and]

theorem a64Immediate_executes (hrd : rd < 31) (n : BitVec 64) :
    Executes a64Step (a64Immediate rd n) regs (update regs rd n) := by
  have hstart : PartsSet regs rd n (16 * 0) true regs :=
    ⟨rfl, BitVec.eq_of_getLsbD_eq fun i _ => by simp [Backend.lowBits_getLsbD]⟩
  obtain ⟨c0, f0, r0, hcode0, hrun0, hset0, -⟩ := a64Parts_step hrd (by decide : 0 < 4) [16, 32, 48] hstart
  obtain ⟨c1, f1, r1, hcode1, hrun1, hset1, -⟩ := a64Parts_step hrd (by decide : 1 < 4) [32, 48] hset0
  obtain ⟨c2, f2, r2, hcode2, hrun2, hset2, -⟩ := a64Parts_step hrd (by decide : 2 < 4) [48] hset1
  obtain ⟨c3, f₃, r3, hcode3, hrun3, hset3, hlast⟩ := a64Parts_step hrd (by decide : 3 < 4) [] hset2
  have hcode : a64Immediate rd n = c0 ++ (c1 ++ (c2 ++ (c3 ++ []))) := by
    exact hcode0.trans (congrArg (c0 ++ ·) (hcode1.trans (congrArg (c1 ++ ·) (hcode2.trans (congrArg (c2 ++ ·) hcode3)))))
  have hregs : r3 = update regs rd n := by
    unfold PartsSet at hset3
    rw [hlast rfl, if_neg (by decide)] at hset3
    rw [hset3]
    exact congrArg _ (Backend.lowBits_full n)
  rw [hcode, append_nil, ← hregs]
  exact hrun0.append (hrun1.append (hrun2.append hrun3))

end

def x86Number (r : Reg) : Nat := x86Code r + 8 * (x86Extended r).toNat

section

variable {regs : Registers 64}

theorem x86Fetch_word (n : Nat) (rest : Code) : x86Fetch 4 (word n ++ rest) = some (n % 4294967296, rest) := by
  have hfetch : x86Fetch 4 (word n ++ rest) = some (littleEndian (word n), rest) := rfl
  rw [hfetch, littleEndian_word]

theorem littleEndian_append (low high : List UInt8) :
    littleEndian (low ++ high) = littleEndian low + 256 ^ low.length * littleEndian high := by
  unfold littleEndian
  rw [map_append, Nat.ofDigits_append, length_map]

theorem x86Fetch_immediate (n : BitVec 64) (rest : Code) : x86Fetch 8 (immediate n ++ rest) = some (n.toNat, rest) := by
  have hfetch : x86Fetch 8 (immediate n ++ rest) = some (littleEndian (immediate n), rest) := rfl
  have hlength : (word n.toNat).length = 4 := rfl
  have hvalue : littleEndian (immediate n) = n.toNat := by
    unfold immediate
    rw [littleEndian_append, littleEndian_word, littleEndian_word, hlength, Nat.shiftRight_eq_div_pow]
    omega
  rw [hfetch, hvalue]

variable {extension c : Nat} (code : Code)

theorem x86Exec_b8 {wide : Bool} {n : Nat} {value rest : Code} (hc : c < 8)
    (hfetch : x86Fetch (if wide then 8 else 4) (value ++ rest) = some (n, rest)) :
    x86Exec wide extension (byte (0xb8 + c) ++ (value ++ rest)) regs =
      some (rest, update regs (c + 8 * extension) (BitVec.ofNat 64 n)) := by
  have hop : field (UInt8.ofNat (0xb8 + c)).toNat 3 5 = 0x17 := by
    unfold field
    rw [byte_toNat]
    omega
  have hreg : field (UInt8.ofNat (0xb8 + c)).toNat 0 3 = c := by
    unfold field
    rw [byte_toNat]
    omega
  unfold byte x86Exec
  rw [singleton_append]
  dsimp only
  rw [hop, hreg, if_pos rfl, hfetch]
  rfl

theorem x86Exec_c7 (hc : c < 8) (n : Nat) (rest : Code) :
    x86Exec true extension (byte 0xc7 ++ (byte (0xc0 ||| c) ++ (word n ++ rest))) regs =
      some (rest, update regs (c + 8 * extension) (signed 32 (n % 4294967296) 64)) := by
  have hor : 0xc0 ||| c = 0xc0 + c := by interval_cases c <;> rfl
  have hop : field (UInt8.ofNat (0xc0 + c)).toNat 3 5 = 0x18 := by
    unfold field
    rw [byte_toNat]
    omega
  have hreg : field (UInt8.ofNat (0xc0 + c)).toNat 0 3 = c := by
    unfold field
    rw [byte_toNat]
    omega
  have hfirst : field (UInt8.ofNat 0xc7).toNat 3 5 ≠ 0x17 := by decide
  unfold byte x86Exec
  rw [singleton_append, singleton_append, hor]
  dsimp only
  rw [if_neg hfirst, if_pos (by decide), hop, hreg, if_pos rfl, x86Fetch_word]
  rfl

/-! The three prefixes, with their bits W and B. -/

theorem x86Step_41 : x86Step (byte 0x41 ++ code) regs = x86Exec false 1 code regs := rfl

theorem x86Step_48 : x86Step (byte 0x48 ++ code) regs = x86Exec true 0 code regs := rfl

theorem x86Step_49 : x86Step (byte 0x49 ++ code) regs = x86Exec true 1 code regs := rfl

theorem x86Step_opcode (hc : c < 8) (code : Code) :
    x86Step (byte (0xb8 + c) ++ code) regs = x86Exec false 0 (byte (0xb8 + c) ++ code) regs := by
  have hop : field (UInt8.ofNat (0xb8 + c)).toNat 4 4 ≠ 4 := by
    unfold field
    rw [byte_toNat]
    omega
  unfold byte x86Step
  rw [singleton_append]
  exact if_neg hop

theorem signed_word (n : BitVec 64) (h : -2147483648 ≤ n.toInt ∧ n.toInt ≤ 2147483647) :
    signed 32 ((n.setWidth 32).toNat % 4294967296) 64 = n := by
  have hvalue : BitVec.ofNat 32 ((n.setWidth 32).toNat % 4294967296) = n.setWidth 32 := by
    apply BitVec.eq_of_toNat_eq
    rw [BitVec.toNat_ofNat]
    omega
  unfold signed
  rw [hvalue]
  exact Backend.int32_eq h

theorem x86Immediate_executes (r : Reg) (n : BitVec 64) :
    Executes x86Step (x86Immediate r n) regs (update regs (x86Number r) n) := by
  have hcode : x86Code r < 8 := by cases r <;> decide
  have hextended : x86Number r = x86Code r + 8 * (if x86Extended r then 1 else 0) := by cases r <;> rfl
  refine Executes.one fun rest => ?_
  unfold x86Immediate
  rw [hextended]
  split
  · -- An immediate of 32 bits without a sign.
    have hfetch : x86Fetch (if false then 8 else 4) (word n.toNat ++ rest) = some (n.toNat, rest) :=
      (x86Fetch_word n.toNat rest).trans (by rw [Nat.mod_eq_of_lt (by omega)])
    rw [append_assoc, append_assoc]
    split_ifs with hlong
    · rw [x86Step_41, x86Exec_b8 hcode hfetch, BitVec.ofNat_toNat, BitVec.setWidth_eq]
    · rw [nil_append, x86Step_opcode hcode, x86Exec_b8 hcode hfetch, BitVec.ofNat_toNat, BitVec.setWidth_eq]
  split
  · rename_i hsigned
    have hvalue := signed_word n hsigned
    rw [append_assoc, append_assoc, append_assoc]
    split_ifs with hlong
    · rw [x86Step_49, x86Exec_c7 hcode, hvalue]
    · rw [x86Step_48, x86Exec_c7 hcode, hvalue]
  have hfetch : x86Fetch (if true then 8 else 4) (immediate n ++ rest) = some (n.toNat, rest) :=
    x86Fetch_immediate n rest
  rw [append_assoc, append_assoc]
  split_ifs with hlong
  · rw [x86Step_49, x86Exec_b8 hcode hfetch, BitVec.ofNat_toNat, BitVec.setWidth_eq]
  · rw [x86Step_48, x86Exec_b8 hcode hfetch, BitVec.ofNat_toNat, BitVec.setWidth_eq]

end

end Dyn.Isa
