import Dyn.Backend.Transfers

/-!
# What a transfer does

The code of one transfer leaves in its destination what its source held and changes nothing else
but scratch registers (`ssaTransfer_puts`), on the three targets.
-/

namespace Dyn.Backend

open List

variable {value : BitVec 64}

theorem shift_low12 (h : ¬ (-2048 ≤ value.toInt ∧ value.toInt ≤ 2047)) :
    ((value - low12 value) >>> 12) <<< 12 = value - low12 value := by
  obtain ⟨hsub, -⟩ := sub_low12_toNat h
  apply BitVec.eq_of_toNat_eq
  rw [BitVec.toNat_shiftLeft, BitVec.toNat_ushiftRight, Nat.shiftLeft_eq, Nat.shiftRight_eq_div_pow]
  omega

theorem low12_eq (h : -2048 ≤ value.toInt ∧ value.toInt ≤ 2047) : low12 value = value := by
  apply BitVec.eq_of_toNat_eq
  rw [BitVec.toInt_eq_toNat_cond] at h
  rw [low12_toNat]
  split_ifs at h ⊢ <;> omega

theorem low12_low12 (value : BitVec 64) : low12 (low12 value) = low12 value := by
  apply low12_eq
  rw [BitVec.toInt_eq_toNat_cond, low12_toNat]
  split_ifs <;> omega

theorem int32_eq {n : BitVec 64} (h : -2147483648 ≤ n.toInt ∧ n.toInt ≤ 2147483647) : int32 n = n := by
  apply BitVec.eq_of_toNat_eq
  rw [BitVec.toInt_eq_toNat_cond] at h
  unfold int32
  rw [BitVec.toNat_signExtend, BitVec.msb_eq_decide, BitVec.toNat_setWidth, BitVec.toNat_setWidth]
  simp only [decide_eq_true_eq]
  split_ifs at h ⊢ <;> omega

/-- The code leaves `v` in `p` and changes nothing else but the registers `K`. -/
def Puts (K : List Nat) (code : List Insn) (p : Place) (v : BitVec 64) (σ : Machine) : Prop :=
  (runCode code σ).get p = v ∧
    ∀ q, q ≠ p → (∀ r ∈ K, q ≠ .reg r) → (runCode code σ).get q = σ.get q

theorem Puts.nil {K : List Nat} {p : Place} {v : BitVec 64} {σ : Machine} (h : σ.get p = v) :
    Puts K [] p v σ := ⟨h, fun _ _ _ => rfl⟩

theorem Puts.one {K : List Nat} {i : Insn} {p : Place} {v : BitVec 64} {σ : Machine}
    (h : i.exec σ = σ.set p v) : Puts K [i] p v σ := by
  unfold Puts
  rw [runCode_singleton, h]
  exact ⟨Machine.get_set _ _ _, fun q hne _ => Machine.get_set_of_ne _ _ hne⟩

theorem Puts.append {K : List Nat} {code code' : List Insn} {r : Nat} {p : Place} {v v' : BitVec 64}
    {σ : Machine} (h : Puts K code (.reg r) v σ) (hr : r ∈ K ∨ p = .reg r)
    (h' : ∀ σ', σ'.get (.reg r) = v →
      (∀ q, q ≠ .reg r → (∀ r' ∈ K, q ≠ .reg r') → σ'.get q = σ.get q) → Puts K code' p v' σ') :
    Puts K (code ++ code') p v' σ := by
  obtain ⟨hget, hrest⟩ := h' _ h.1 h.2
  unfold Puts
  rw [runCode_append]
  refine ⟨hget, fun q hne hq => (hrest q hne hq).trans (h.2 q ?_ hq)⟩
  rcases hr with hmem | rfl
  · exact hq r hmem
  · exact hne

variable (K : List Nat) (n : BitVec 64)

theorem rvImm_puts {d : Nat} (hd : d ≠ 0) (value : BitVec 64) (σ : Machine) :
    Puts K (rvImm d value) (.reg d) value σ := by
  induction value using rvImm.induct generalizing σ with
  | case1 value h =>
    rw [rvImm, if_pos h]
    apply Puts.one
    have hlow : (value.setWidth 12).signExtend 64 = value := low12_eq h
    simp [Insn.exec, Insn.read, hlow]
  | case2 value h ih =>
    rw [rvImm, if_neg h, append_assoc]
    refine (ih σ).append (.inr rfl) fun σ1 h1 _ => ?_
    have hshift : Puts K [.slli d d 12] (.reg d) (value - low12 value) σ1 := by
      apply Puts.one
      simp [Insn.exec, Insn.read, hd, h1, shift_low12 h]
    refine hshift.append (.inr rfl) fun σ2 h2 _ => ?_
    split_ifs with hzero
    · apply Puts.one
      have hlow : ((low12 value).setWidth 12).signExtend 64 = low12 value := low12_low12 value
      simp only [Insn.exec, Insn.read, if_neg hd, hlow, Machine.reg_eq_get, h2]
      rw [BitVec.sub_add_cancel]
    rw [not_not] at hzero
    refine Puts.nil (h2.trans ?_)
    rw [hzero]
    exact BitVec.sub_zero value

/-- The bits below `k`. -/
def lowBits (n : BitVec 64) (k : Nat) : BitVec 64 := (n.setWidth k).setWidth 64

variable (k : Nat) {rd reg : Nat} {code : List Insn} {disp : BitVec 64} (store : Bool)

theorem lowBits_getLsbD (i : Nat) : (lowBits n k).getLsbD i = (decide (i < k) && n.getLsbD i) := by
  unfold lowBits
  rw [BitVec.getLsbD_setWidth, BitVec.getLsbD_setWidth]
  by_cases hi : i < 64
  · simp [hi]
  · simp [hi, BitVec.getLsbD_of_ge n i (by omega)]

theorem lowBits_full : lowBits n 64 = n := by
  simp [lowBits]

/-- The sixteen bits from `k` on, in their place. -/
def partAt (n : BitVec 64) (k : Nat) : BitVec 64 := ((n >>> k).setWidth 16).setWidth 64 <<< k

theorem partAt_getLsbD (i : Nat) :
    (partAt n k).getLsbD i = (decide (k ≤ i ∧ i < k + 16) && n.getLsbD i) := by
  unfold partAt
  rw [BitVec.getLsbD_shiftLeft, BitVec.getLsbD_setWidth, BitVec.getLsbD_setWidth,
    BitVec.getLsbD_ushiftRight]
  by_cases hi : i < 64
  · by_cases hk : k ≤ i
    · have hsub : k + (i - k) = i := by omega
      by_cases hlt : i < k + 16
      · simp [hi, hk, hlt, hsub, (by omega : i - k < 16), (by omega : i - k < 64)]
      · have hfar : ¬ i - k < 16 := by omega
        simp [hlt, hfar]
    · simp [hk, (by omega : i < k)]
  · simp [hi, BitVec.getLsbD_of_ge n i (by omega)]

theorem lowBits_add : lowBits n (k + 16) = lowBits n k ||| partAt n k := by
  apply BitVec.eq_of_getLsbD_eq
  intro i _
  rw [BitVec.getLsbD_or, lowBits_getLsbD, lowBits_getLsbD, partAt_getLsbD]
  by_cases hk : i < k
  · simp [hk, (by omega : i < k + 16)]
  by_cases hlt : i < k + 16
  · simp [hk, hlt, (by omega : k ≤ i)]
  · simp [hk, hlt]

theorem lowBits_and : lowBits n k &&& ~~~((0xffff : BitVec 64) <<< k) = lowBits n k := by
  apply BitVec.eq_of_getLsbD_eq
  intro i hi
  rw [BitVec.getLsbD_and, BitVec.getLsbD_not, BitVec.getLsbD_shiftLeft, lowBits_getLsbD]
  by_cases hk : i < k <;> simp [hk, hi]

/-- What the parts up to `k` have done. -/
def PartsDone (rd : Nat) (n : BitVec 64) (k : Nat) (acc : Bool × List Insn) : Prop :=
  if acc.1 then acc.2 = [] ∧ lowBits n k = 0
  else ∀ K σ, Puts K acc.2 (.reg rd) (lowBits n k) σ

theorem a64Part_done {n : BitVec 64} {k : Nat} {acc : Bool × List Insn} (h : PartsDone rd n k acc) :
    PartsDone rd n (k + 16) (a64Part rd n acc k) ∧ (k = 48 → (a64Part rd n acc k).1 = false) := by
  obtain ⟨first, code⟩ := acc
  unfold a64Part
  dsimp only
  split_ifs with hskip hfirst
  · obtain ⟨hpart, hlast⟩ := hskip
    have hzero : partAt n k = 0 := by unfold partAt; rw [hpart]; simp
    refine ⟨?_, fun hk => by simp_all⟩
    unfold PartsDone at h ⊢
    rw [lowBits_add, hzero]
    simpa using h
  · subst hfirst
    obtain ⟨hcode, hlow⟩ := h
    refine ⟨?_, fun _ => rfl⟩
    dsimp only at hcode
    rw [hcode, nil_append]
    intro K σ
    apply Puts.one
    rw [lowBits_add, hlow]
    simp [Insn.exec, partAt]
  have hcode : ∀ K σ, Puts K code (.reg rd) (lowBits n k) σ := by
    unfold PartsDone at h
    rwa [if_neg hfirst] at h
  refine ⟨fun K σ => (hcode K σ).append (.inr rfl) fun σ' h' _ => ?_, fun _ => rfl⟩
  apply Puts.one
  simp only [Insn.exec, Machine.reg_eq_get, h']
  rw [lowBits_and, lowBits_add]
  rfl

theorem a64Immediate_puts (rd : Nat) (n : BitVec 64) (σ : Machine) :
    Puts K (a64Immediate rd n) (.reg rd) n σ := by
  have hstart : PartsDone rd n 0 (true, []) := ⟨rfl, BitVec.eq_of_getLsbD_eq fun i _ => by simp [lowBits_getLsbD]⟩
  have hdone := a64Part_done (a64Part_done (a64Part_done (a64Part_done hstart).1).1).1
  have hparts := hdone.1
  unfold PartsDone at hparts
  rw [hdone.2 rfl, if_neg (by simp), lowBits_full] at hparts
  exact hparts K σ

theorem mov_puts {target source : Nat} (σ : Machine) :
    Puts K (if target = source then [] else [.mov target source]) (.reg target) (σ.get (.reg source)) σ := by
  split_ifs with heq
  · exact Puts.nil (by rw [heq])
  · exact Puts.one rfl

theorem a64sImmediate_puts {K : List Nat} (hK : xXmm0 ≤ reg → aS2 ∈ K) (n : BitVec 64) (σ : Machine) :
    Puts K (a64sImmediate reg n) (.reg reg) n σ := by
  unfold a64sImmediate
  split_ifs with hfloat hzero hzero hnot
  · exact Puts.one (by rw [hzero]; rfl)
  · refine (a64Immediate_puts K aS2 n σ).append (.inl (hK hfloat)) fun σ' h' _ => ?_
    rw [← h']
    exact mov_puts K σ'
  · exact Puts.one (by rw [hzero]; rfl)
  · apply Puts.one
    have hwide : ((~~~n).setWidth 16).setWidth 64 = ~~~n := by
      apply BitVec.eq_of_toNat_eq
      rw [BitVec.toNat_setWidth, BitVec.toNat_setWidth]
      omega
    rw [Insn.exec, hwide, BitVec.not_not]
  · exact a64Immediate_puts K reg n σ

theorem toInt_nonneg {n : BitVec 64} (h : 0 ≤ n.toInt) : n.toInt = n.toNat ∧ n.toNat < 2 ^ 63 := by
  rw [BitVec.toInt_eq_toNat_cond] at h ⊢
  split_ifs at h ⊢ <;> omega

theorem a64sAddImmediate_puts {K : List Nat} {rn : Nat} (hne : rd ≠ rn) (hrd : rd < 31)
    (hrn : rn ≠ 31) (hbase : rn ∉ K) (n : BitVec 64) (σ : Machine) :
    Puts K (a64sAddImmediate rd rn n) (.reg rd) (σ.get (.reg rn) + n) σ := by
  unfold a64sAddImmediate
  split_ifs with hsmall hzero hneg hshift
  · apply Puts.one
    obtain ⟨hint, -⟩ := toInt_nonneg hsmall.1
    have hwide : (n.setWidth 12).setWidth 64 = n := by
      apply BitVec.eq_of_toNat_eq
      rw [BitVec.toNat_setWidth, BitVec.toNat_setWidth]
      omega
    simp [Insn.exec, hwide]
  · exact absurd (.inr hne) hzero
  · apply Puts.one
    have hwide : ((-n).setWidth 12).setWidth 64 = -n := by
      apply BitVec.eq_of_toNat_eq
      rw [BitVec.toNat_setWidth, BitVec.toNat_setWidth, BitVec.toNat_neg]
      rw [BitVec.toInt_eq_toNat_cond] at hneg
      split_ifs at hneg <;> omega
    simp only [Insn.exec, hwide, Machine.reg_eq_get]
    rw [BitVec.sub_neg]
  · apply Puts.one
    obtain ⟨hint, -⟩ := toInt_nonneg hshift.1
    have hlow : n.toNat % 4096 = 0 := by
      have hand := congrArg BitVec.toNat hshift.2.2
      rw [BitVec.toNat_and] at hand
      have hmask : (0xfff : BitVec 64).toNat = 2 ^ 12 - 1 := rfl
      rw [hmask, Nat.and_two_pow_sub_one_eq_mod] at hand
      exact hand
    have hwide : ((n >>> 12).setWidth 12).setWidth 64 <<< 12 = n := by
      apply BitVec.eq_of_toNat_eq
      rw [BitVec.toNat_shiftLeft, BitVec.toNat_setWidth, BitVec.toNat_setWidth, BitVec.toNat_ushiftRight,
        Nat.shiftLeft_eq, Nat.shiftRight_eq_div_pow]
      omega
    simp [Insn.exec, hwide]
  · refine (a64sImmediate_puts (fun hfloat => absurd hfloat (by unfold xXmm0; omega)) n σ).append (.inr rfl) fun σ' h' hrest => ?_
    apply Puts.one
    have hkept : σ'.get (.reg rn) = σ.get (.reg rn) :=
      hrest _ (by simpa using hne.symm) fun r hr heq => hbase (Place.reg.inj heq ▸ hr)
    simp only [Insn.exec, Insn.read, if_neg hrd.ne, if_neg hrn, Machine.reg_eq_get, h', hkept]

theorem Puts.mono {K K' : List Nat} {p : Place} {v : BitVec 64} {σ : Machine}
    (h : Puts K code p v σ) (hK : K ⊆ K') : Puts K' code p v σ :=
  ⟨h.1, fun q hne hq => h.2 q hne fun r hr => hq r (hK hr)⟩

/-- Displacements that a load or store of AArch64 takes from any register. -/
def Near (disp : BitVec 64) : Prop := disp.toInt % 8 = 0 ∧ 0 ≤ disp.toInt ∧ disp.toInt < 2 ^ 15

instance (disp : BitVec 64) : Decidable (Near disp) :=
  inferInstanceAs (Decidable (disp.toInt % 8 = 0 ∧ 0 ≤ disp.toInt ∧ disp.toInt < 2 ^ 15))

theorem Near.direct (h : Near disp) : 0 ≤ disp.toInt ∧ disp &&& 7 = 0 ∧ disp.toInt / 8 < 4096 := by
  obtain ⟨hmod, hle, hlt⟩ := h
  refine ⟨hle, ?_, by omega⟩
  apply BitVec.eq_of_toNat_eq
  have hmask : (7 : BitVec 64).toNat = 2 ^ 3 - 1 := rfl
  rw [BitVec.toNat_and, hmask, Nat.and_two_pow_sub_one_eq_mod]
  obtain ⟨hint, -⟩ := toInt_nonneg hle
  have hzero : (0 : BitVec 64).toNat = 0 := rfl
  omega

/-- What an access writes: the cell for a store and the register for a load. -/
def accessed (store : Bool) (reg : Nat) (a : BitVec 64) : Place := if store then .cell a else .reg reg

theorem access_puts (reg base : Nat) (disp : BitVec 64) (σ : Machine) :
    Puts K [.access store reg base disp] (accessed store reg (σ.get (.reg base) + disp))
      (σ.get (accessed (!store) reg (σ.get (.reg base) + disp))) σ := by
  cases store
  · exact Puts.one rfl
  · exact Puts.one rfl

theorem access_through {r : Nat} {a : BitVec 64} {store : Bool} {σ : Machine}
    (h : Puts [r] code (.reg r) a σ) (hreg : store = true → reg ≠ r) :
    Puts [r] (code ++ [.access store reg r 0]) (accessed store reg a) (σ.get (accessed (!store) reg a)) σ := by
  refine h.append (.inl mem_cons_self) fun σ' h' hrest => ?_
  have hput := access_puts [r] store reg r 0 σ'
  rw [h', show a + 0 = a from BitVec.add_zero a] at hput
  have hkept : σ'.get (accessed (!store) reg a) = σ.get (accessed (!store) reg a) := by
    cases store with
    | false => exact hrest _ (by simp [accessed]) (by simp [accessed])
    | true => exact hrest _ (by simpa [accessed] using hreg rfl) (by simpa [accessed] using hreg rfl)
  rwa [hkept] at hput

theorem a64sSlotAccess_puts {base : Nat} (hbase : base ≠ aS3) (hreg : store = true → reg ≠ aS3)
    (hstack : base = 31 → Near disp) (σ : Machine) :
    Puts [aS3] (a64sSlotAccess store reg base disp) (accessed store reg (σ.get (.reg base) + disp))
      (σ.get (accessed (!store) reg (σ.get (.reg base) + disp))) σ := by
  unfold a64sSlotAccess
  split_ifs with hdirect hsmall
  · exact access_puts _ store reg base disp σ
  · exact access_puts _ store reg base disp σ
  have hrn : base ≠ 31 := fun heq => hdirect (hstack heq).direct
  have hsum := a64sAddImmediate_puts (K := []) (Ne.symm hbase) (by decide) hrn not_mem_nil disp σ
  exact access_through (hsum.mono (nil_subset _)) hreg

theorem rvsSlotAccess_puts {base : Nat} (hbase : base ≠ rT) (hzero : base ≠ 0)
    (hreg : store = true → reg ≠ rT) (σ : Machine) :
    Puts [rT] (rvsSlotAccess store reg base disp) (accessed store reg (σ.get (.reg base) + disp))
      (σ.get (accessed (!store) reg (σ.get (.reg base) + disp))) σ := by
  unfold rvsSlotAccess
  split_ifs with hfar
  · refine access_through ?_ hreg
    refine (rvImm_puts [rT] (by decide) disp σ).append (.inr rfl) fun σ' h' hrest => ?_
    have hkept : σ'.get (.reg base) = σ.get (.reg base) :=
      hrest _ (by simpa using hbase) (by simpa using hbase)
    apply Puts.one
    simp only [Insn.exec, Insn.read, if_neg hzero, Machine.reg_eq_get, h', hkept]
    rw [if_neg (by decide), BitVec.add_comm]
  · exact access_puts _ store reg base disp σ

theorem rvsMov_puts {target source : Nat} (hsource : source ≠ 0) (σ : Machine) :
    Puts K (rvsMov target source) (.reg target) (σ.get (.reg source)) σ := by
  unfold rvsMov
  split_ifs with heq hfloat
  · exact Puts.nil (by rw [heq])
  · exact Puts.one rfl
  · apply Puts.one
    simp [Insn.exec, Insn.read, hsource]

/-- A constant as it is in a register or cell of its class. -/
def constantBits (ctx : BackendContext) (cls : SsaClass) (n : BitVec 64) : BitVec 64 :=
  if ¬ ctx.a64 ∧ ctx.rv64 ∧ cls = .f32 then nanBoxed n else n

theorem rvsImmediateClass_puts (hreg : reg ≠ 0) (n : BitVec 64) (cls : SsaClass) (σ : Machine) :
    Puts [rS4] (rvsImmediateClass reg n cls) (.reg reg)
      (if xXmm0 ≤ reg ∧ cls = .f32 then nanBoxed n else n) σ := by
  unfold rvsImmediateClass
  split
  · rename_i hfloat
    have hmove : ∀ (σ' : Machine) (source : Nat), Insn.read 0 σ' source = n →
        Puts [rS4] [if cls = .f32 then .fmvW reg source else .fmvD reg source] (.reg reg)
          (if xXmm0 ≤ reg ∧ cls = .f32 then nanBoxed n else n) σ' := by
      intro σ' source hread
      by_cases hcls : cls = .f32
      · rw [if_pos hcls, if_pos ⟨hfloat, hcls⟩]
        exact Puts.one (by rw [Insn.exec, hread])
      · rw [if_neg hcls, if_neg fun h => hcls h.2]
        exact Puts.one (by rw [Insn.exec, hread])
    split
    · rename_i hzero
      rw [nil_append]
      exact hmove σ 0 hzero.symm
    · exact (rvImm_puts [rS4] (by decide) n σ).append (.inl mem_cons_self) fun σ' h' _ =>
        hmove σ' rS4 h'
  · rename_i hfloat
    rw [if_neg fun h => hfloat h.1]
    exact rvImm_puts [rS4] hreg n σ

theorem rvsAddImmediate_puts {rn : Nat} (hne : rd ≠ rn) (hrn : rn ≠ 0) (hbase : rn ≠ rS4)
    (n : BitVec 64) (σ : Machine) :
    Puts [rS4] (rvsAddImmediate rd rn n) (.reg rd) (σ.get (.reg rn) + n) σ := by
  unfold rvsAddImmediate
  split_ifs with hsmall hnone
  · apply Puts.one
    have hlow : (n.setWidth 12).signExtend 64 = n := low12_eq hsmall
    simp only [Insn.exec, Insn.read, if_neg hrn, hlow, Machine.reg_eq_get]
  · exact absurd (.inr hne) hnone
  refine (rvImm_puts [rS4] (by decide) n σ).append (.inl mem_cons_self) fun σ' h' hrest => ?_
  have hkept : σ'.get (.reg rn) = σ.get (.reg rn) :=
    hrest _ (by simpa using hbase) (by simpa using hbase)
  apply Puts.one
  simp only [Insn.exec, Insn.read, if_neg hrn, Machine.reg_eq_get, h', hkept]
  rw [if_neg (by decide)]

theorem x86MoveInteger_puts (reg : Nat) (n : BitVec 64) (σ : Machine) :
    Puts K (x86MoveInteger reg n) (.reg reg) n σ := by
  unfold x86MoveInteger
  split_ifs with hzero hsmall hsigned
  · exact Puts.one (by rw [hzero]; rfl)
  · apply Puts.one
    have hwide : (n.setWidth 32).setWidth 64 = n := by
      apply BitVec.eq_of_toNat_eq
      rw [BitVec.toNat_setWidth, BitVec.toNat_setWidth]
      omega
    rw [Insn.exec, hwide]
  · apply Puts.one
    rw [Insn.exec, show (n.setWidth 32).signExtend 64 = n from int32_eq hsigned]
  · exact Puts.one rfl

theorem x86MoveImmediate_puts (reg : Nat) (n : BitVec 64) (σ : Machine) :
    Puts [xR10] (x86MoveImmediate reg n) (.reg reg) n σ := by
  unfold x86MoveImmediate
  split_ifs with hfloat hzero
  · exact Puts.one (by rw [hzero]; rfl)
  · refine (x86MoveInteger_puts [xR10] xR10 n σ).append (.inl mem_cons_self) fun σ' h' _ => ?_
    rw [← h']
    exact mov_puts _ σ'
  · exact x86MoveInteger_puts _ reg n σ

section Transfer

variable (ctx : BackendContext)

/-- The register that cells are addressed from. -/
def baseRegister (kind : LocationKind) : Nat :=
  if ctx.a64 then if kind = .slot then a64Fp else a64Sp
  else if ctx.rv64 then if kind = .slot then rvFp else rvSp
  else if kind = .slot then xRbp else xRsp

/-- Registers that hold no values: the frame, the stack and zero. -/
def reserved : List Nat :=
  if ctx.a64 then [a64Fp, a64Sp] else if ctx.rv64 then [0, rvFp, rvSp] else [xRbp, xRsp]

/-- The registers that a transfer may overwrite on its way. -/
def transferScratch : List Nat :=
  if ctx.a64 then [aS3, aS2, xXmm0 + aF2]
  else if ctx.rv64 then [rS4, rT, rS2, xXmm0 + rF2]
  else [xR10, ssaXs2 ctx]

/-- A register or a cell of the frame or of the outgoing area. -/
def place (σ : Machine) (kind : LocationKind) (location : BitVec 64) : Place :=
  if kind = .reg then .reg location.toNat
  else .cell (σ.get (.reg (baseRegister ctx kind)) + int32 location)

def sourceValue (σ : Machine) (m : SsaMove) : BitVec 64 :=
  match m.srcKind with
  | .const => constantBits ctx m.cls m.src
  | .frame => σ.get (.reg (baseRegister ctx .slot)) + m.src
  | kind => σ.get (place ctx σ kind m.src)

/-- What callers see to: registers that hold values, a destination register of the move's class
unless another register is copied, addresses that are integers, displacements of 32 bits, and on
AArch64 an outgoing area that loads and stores reach: there `ssa_call_emit` leaves arguments on the
stack to `a64s_store_outgoing`, so that no caller moves to or from that area. -/
structure Movable (m : SsaMove) : Prop where
  kind : m.dstKind = .reg ∨ m.dstKind = .slot ∨ m.dstKind = .out
  dst : m.dstKind = .reg → m.dst.toNat ∉ reserved ctx
  src : m.srcKind = .reg → m.src.toNat ∉ reserved ctx
  bank : m.dstKind = .reg → m.srcKind ≠ .reg → (xXmm0 ≤ m.dst.toNat ↔ ssaFloatClass m.cls = true)
  dstInt : m.dstKind ≠ .reg → int32 m.dst = m.dst
  srcInt : m.srcKind = .slot ∨ m.srcKind = .out → int32 m.src = m.src
  frame : m.srcKind = .frame → ssaFloatClass m.cls = false ∧ int32 m.src = m.src
  dstOut : ctx.a64 = true → m.dstKind = .out → Near (int32 m.dst)
  srcOut : ctx.a64 = true → m.srcKind = .out → Near (int32 m.src)

variable {ctx}

/-- The skeleton that the transfers of the three targets share, with their ways to move, to load
and to store. -/
def transferCode (m : SsaMove) (reg : Nat) (move : Nat → List Insn) (const frame load : List Insn)
    (store : Nat → List Insn) : List Insn :=
  let put (reg : Nat) := if m.dstKind = .reg then [] else store reg
  match m.srcKind with
  | .reg => if m.dstKind = .reg then move m.src.toNat else put m.src.toNat
  | .const => const ++ put reg
  | .frame => frame ++ put reg
  | _ => load ++ put reg

theorem baseRegister_notMem (kind : LocationKind) : baseRegister ctx kind ∉ transferScratch ctx := by
  have hxs2 : ssaXs2 ctx = 36 ∨ ssaXs2 ctx = 46 := by unfold ssaXs2; split_ifs <;> simp [xXmm0]
  unfold baseRegister transferScratch
  split_ifs <;> simp [a64Fp, a64Sp, aS2, aS3, aF2, rvFp, rvSp, rS4, rT, rS2, rF2, xRbp, xRsp, xR10, xXmm0]
    <;> omega

theorem place_congr {σ σ' : Machine} {r : Nat} (hr : r ∈ transferScratch ctx)
    (h : ∀ q, q ≠ .reg r → (∀ r' ∈ transferScratch ctx, q ≠ .reg r') → σ'.get q = σ.get q)
    (kind : LocationKind) (location : BitVec 64) : place ctx σ' kind location = place ctx σ kind location := by
  have hbase : ∀ r' ∈ transferScratch ctx, Place.reg (baseRegister ctx kind) ≠ .reg r' :=
    fun r' hr' heq => baseRegister_notMem kind (Place.reg.inj heq ▸ hr')
  unfold place
  rw [h _ (hbase r hr) hbase]

variable {m : SsaMove}

theorem transferCode_puts {reg : Nat} {move : Nat → List Insn} {const frame load : List Insn}
    {store : Nat → List Insn} {σ : Machine}
    (hreg : m.dstKind = .reg ∧ reg = m.dst.toNat ∨ m.dstKind ≠ .reg ∧ reg ∈ transferScratch ctx)
    (hmove : m.dstKind = .reg → m.srcKind = .reg → Puts (transferScratch ctx) (move m.src.toNat)
      (.reg m.dst.toNat) (σ.get (.reg m.src.toNat)) σ)
    (hconst : m.srcKind = .const → Puts (transferScratch ctx) const (.reg reg) (sourceValue ctx σ m) σ)
    (hframe : m.srcKind = .frame → Puts (transferScratch ctx) frame (.reg reg) (sourceValue ctx σ m) σ)
    (hload : m.srcKind = .slot ∨ m.srcKind = .out →
      Puts (transferScratch ctx) load (.reg reg) (sourceValue ctx σ m) σ)
    (hstore : ∀ r σ', m.dstKind ≠ .reg → r = reg ∨ m.srcKind = .reg ∧ r = m.src.toNat →
      Puts (transferScratch ctx) (store r) (place ctx σ' m.dstKind m.dst) (σ'.get (.reg r)) σ') :
    Puts (transferScratch ctx) (transferCode m reg move const frame load store)
      (place ctx σ m.dstKind m.dst) (sourceValue ctx σ m) σ := by
  -- A value that is in the register is put where it belongs.
  have hput : ∀ {code v}, Puts (transferScratch ctx) code (.reg reg) v σ →
      Puts (transferScratch ctx) (code ++ if m.dstKind = .reg then [] else store reg)
        (place ctx σ m.dstKind m.dst) v σ := by
    intro code v hcode
    rcases hreg with ⟨hdst, rfl⟩ | ⟨hdst, hscratch⟩
    · rw [if_pos hdst, append_nil, place, if_pos hdst]
      exact hcode
    rw [if_neg hdst]
    refine hcode.append (.inl hscratch) fun σ' h' hrest => ?_
    have hstored := hstore reg σ' hdst (.inl rfl)
    rwa [h', place_congr hscratch hrest] at hstored
  unfold transferCode
  cases hsrc : m.srcKind with
  | reg =>
    have hvalue : sourceValue ctx σ m = σ.get (.reg m.src.toNat) := by
      simp [sourceValue, hsrc, place]
    rw [hvalue]
    split_ifs with hdst
    · rw [place, if_pos hdst]
      exact hmove hdst hsrc
    · exact hstore _ σ hdst (.inr ⟨hsrc, rfl⟩)
  | const => exact hput (hconst hsrc)
  | frame => exact hput (hframe hsrc)
  | slot => exact hput (hload (.inl hsrc))
  | out => exact hput (hload (.inr hsrc))

/-- A load or store as it is emitted for a slot or an outgoing slot. -/
theorem place_cell {kind : LocationKind} (h : kind ≠ .reg) (σ : Machine) (location : BitVec 64) :
    place ctx σ kind location = .cell (σ.get (.reg (baseRegister ctx kind)) + int32 location) := by
  rw [place, if_neg h]

theorem sourceValue_cell (h : m.srcKind = .slot ∨ m.srcKind = .out) (σ : Machine) :
    sourceValue ctx σ m =
      σ.get (.cell (σ.get (.reg (baseRegister ctx m.srcKind)) + int32 m.src)) := by
  unfold sourceValue
  rcases h with h | h <;> rw [h] <;> rfl

theorem Movable.dst_out (hm : Movable ctx m) (h : m.dstKind ≠ .reg) (hslot : m.dstKind ≠ .slot) :
    m.dstKind = .out := by
  rcases hm.kind with heq | heq | heq
  · exact absurd heq h
  · exact absurd heq hslot
  · exact heq

/-- A transfer goes through its destination register, or through a scratch register. -/
theorem target_cases {c : Prop} [Decidable c] {a b reg : Nat}
    (hreg : (if m.dstKind = .reg then m.dst.toNat else if c then a else b) = reg) :
    m.dstKind = .reg ∧ reg = m.dst.toNat ∨ m.dstKind ≠ .reg ∧ (reg = a ∨ reg = b) := by
  split_ifs at hreg with hd <;> simp [hd, ← hreg]

theorem a64sTransfer_puts (ha64 : ctx.a64 = true) (hm : Movable ctx m)
    (hsrc : m.srcKind = .reg → m.src.toNat ∉ transferScratch ctx) (σ : Machine) :
    Puts (transferScratch ctx) (a64sTransfer m.dstKind m.dst m.srcKind m.src m.cls)
      (place ctx σ m.dstKind m.dst) (sourceValue ctx σ m) σ := by
  have hscratch : transferScratch ctx = [aS3, aS2, xXmm0 + aF2] := by rw [transferScratch, if_pos ha64]
  have hbase : ∀ kind, baseRegister ctx kind = if kind = .slot then a64Fp else a64Sp := by
    intro kind
    rw [baseRegister, if_pos ha64]
  have hfar : ∀ kind, baseRegister ctx kind ≠ aS3 := by
    intro kind
    rw [hbase]
    split_ifs <;> decide
  have hstack : ∀ kind, baseRegister ctx kind = 31 → kind ≠ .slot := by
    rintro kind h rfl
    rw [hbase] at h
    exact absurd h (by decide)
  have haS3 : [aS3] ⊆ transferScratch ctx := by simp [hscratch]
  have hconstant : constantBits ctx m.cls m.src = m.src := by rw [constantBits, if_neg (by simp [ha64])]
  generalize hreg : (if m.dstKind = .reg then m.dst.toNat
    else if ssaFloatClass m.cls then xXmm0 + aF2 else aS2) = reg
  have hcode : a64sTransfer m.dstKind m.dst m.srcKind m.src m.cls =
      transferCode m reg (a64sMov m.dst.toNat) (a64sImmediate reg m.src) (a64sAddImmediate reg a64Fp m.src)
        (a64sSlotAccess false reg (baseRegister ctx m.srcKind) (int32 m.src))
        fun reg => a64sSlotAccess true reg (baseRegister ctx m.dstKind) (int32 m.dst) := by
    unfold a64sTransfer transferCode
    simp only [hbase, hreg]
    by_cases hd : m.dstKind = .reg
    · rw [if_pos hd] at hreg
      cases m.srcKind <;> simp [hd, hreg]
    · cases m.srcKind <;> simp [hd]
  have hwhere := target_cases hreg
  rw [hcode]
  refine transferCode_puts ?_ (fun _ _ => mov_puts _ σ) (fun h => ?_) (fun h => ?_) (fun h => ?_) ?_
  · exact hwhere.imp_right (And.imp_right fun h => by rcases h with rfl | rfl <;> simp [hscratch])
  · rw [sourceValue, h]
    rw [hconstant]
    exact a64sImmediate_puts (fun _ => by simp [hscratch]) _ σ
  · -- An address is an integer.
    have hint : reg < 31 ∧ reg ≠ a64Fp := by
      rcases hwhere with ⟨hd, rfl⟩ | ⟨hd, -⟩
      · have hbank := (hm.bank hd (by rw [h]; decide)).not
        rw [(hm.frame h).1] at hbank
        have hheld := hm.dst hd
        rw [reserved, if_pos ha64] at hheld
        simp [a64Fp, a64Sp, xXmm0] at hheld hbank ⊢
        omega
      rw [if_neg hd, (hm.frame h).1] at hreg
      rw [← hreg]
      decide
    rw [sourceValue, h]
    rw [hbase, if_pos rfl]
    exact a64sAddImmediate_puts hint.2 hint.1 (by decide) (by simp [hscratch, a64Fp, aS2, aS3, aF2, xXmm0]) _ σ
  · rw [sourceValue_cell h]
    refine (a64sSlotAccess_puts false (hfar _) (by simp) (fun hs => hm.srcOut ha64 ?_) σ).mono haS3
    exact h.resolve_left (hstack _ hs)
  · intro r σ' hd hr
    rw [place_cell hd]
    refine (a64sSlotAccess_puts true (hfar _) (fun _ => ?_) (fun hs => hm.dstOut ha64 ?_) σ').mono haS3
    · rcases hr with rfl | ⟨hs, rfl⟩
      · rcases hwhere with ⟨hd', -⟩ | ⟨-, rfl | rfl⟩
        · exact absurd hd' hd
        · decide
        · decide
      · exact fun heq => hsrc hs (by rw [hscratch, heq]; simp)
    · exact hm.dst_out hd (hstack _ hs)

theorem rvsTransfer_puts (ha64 : ctx.a64 = false) (hrv64 : ctx.rv64 = true) (hm : Movable ctx m)
    (hsrc : m.srcKind = .reg → m.src.toNat ∉ transferScratch ctx) (σ : Machine) :
    Puts (transferScratch ctx) (rvsTransfer m.dstKind m.dst m.srcKind m.src m.cls)
      (place ctx σ m.dstKind m.dst) (sourceValue ctx σ m) σ := by
  have hscratch : transferScratch ctx = [rS4, rT, rS2, xXmm0 + rF2] := by
    simp [transferScratch, ha64, hrv64]
  have hreserved : reserved ctx = [0, rvFp, rvSp] := by simp [reserved, ha64, hrv64]
  have hbase : ∀ kind, baseRegister ctx kind = if kind = .slot then rvFp else rvSp := by
    intro kind
    simp [baseRegister, ha64, hrv64]
  have hfar : ∀ kind, baseRegister ctx kind ≠ rT ∧ baseRegister ctx kind ≠ 0 := by
    intro kind
    rw [hbase]
    split_ifs <;> decide
  have hrT : [rT] ⊆ transferScratch ctx := by simp [hscratch]
  have hrS4 : [rS4] ⊆ transferScratch ctx := by simp [hscratch]
  generalize hreg : (if m.dstKind = .reg then m.dst.toNat
    else if ssaFloatClass m.cls then xXmm0 + rF2 else rS2) = reg
  have hcode : rvsTransfer m.dstKind m.dst m.srcKind m.src m.cls =
      transferCode m reg (rvsMov m.dst.toNat) (rvsImmediateClass reg m.src m.cls)
        (rvsAddImmediate reg rvFp m.src)
        (rvsSlotAccess false reg (baseRegister ctx m.srcKind) (int32 m.src))
        fun reg => rvsSlotAccess true reg (baseRegister ctx m.dstKind) (int32 m.dst) := by
    unfold rvsTransfer transferCode
    simp only [hbase, hreg]
    by_cases hd : m.dstKind = .reg
    · rw [if_pos hd] at hreg
      cases m.srcKind <;> simp [hd, hreg]
    · cases m.srcKind <;> simp [hd]
  have hwhere := target_cases hreg
  have hheld : reg ≠ 0 ∧ reg ≠ rvFp := by
    rcases hwhere with ⟨hd, rfl⟩ | ⟨-, rfl | rfl⟩
    · have hheld := hm.dst hd
      rw [hreserved] at hheld
      simp only [mem_cons, not_or] at hheld
      exact ⟨hheld.1, hheld.2.1⟩
    · decide
    · decide
  rw [hcode]
  refine transferCode_puts ?_ (fun _ hs => rvsMov_puts _ ?_ σ) (fun h => ?_) (fun h => ?_) (fun h => ?_) ?_
  · exact hwhere.imp_right (And.imp_right fun h => by rcases h with rfl | rfl <;> simp [hscratch])
  · have hheld := hm.src hs
    rw [hreserved] at hheld
    exact fun heq => hheld (by simp [heq])
  · -- A single-precision constant goes to a floating register.
    have hbank : m.cls = .f32 → xXmm0 ≤ reg := by
      intro hcls
      have hfl : ssaFloatClass m.cls = true := by rw [hcls]; rfl
      rcases hwhere with ⟨hd, rfl⟩ | ⟨hd, -⟩
      · exact (hm.bank hd (by rw [h]; decide)).mpr hfl
      rw [if_neg hd, hfl] at hreg
      rw [← hreg]
      decide
    have hvalue : sourceValue ctx σ m = if xXmm0 ≤ reg ∧ m.cls = .f32 then nanBoxed m.src else m.src := by
      rw [sourceValue, h]
      unfold constantBits
      by_cases hcls : m.cls = .f32
      · simp [ha64, hrv64, hcls, hbank hcls]
      · simp [hcls]
    rw [hvalue]
    exact (rvsImmediateClass_puts hheld.1 m.src m.cls σ).mono hrS4
  · rw [sourceValue, h]
    rw [hbase, if_pos rfl]
    exact (rvsAddImmediate_puts hheld.2 (by decide) (by decide) _ σ).mono hrS4
  · rw [sourceValue_cell h]
    exact (rvsSlotAccess_puts false (hfar _).1 (hfar _).2 (by simp) σ).mono hrT
  · intro r σ' hd hr
    rw [place_cell hd]
    refine (rvsSlotAccess_puts true (hfar _).1 (hfar _).2 (fun _ => ?_) σ').mono hrT
    rcases hr with rfl | ⟨hs, rfl⟩
    · rcases hwhere with ⟨hd', -⟩ | ⟨-, rfl | rfl⟩
      · exact absurd hd' hd
      · decide
      · decide
    · exact fun heq => hsrc hs (by rw [hscratch, heq]; simp)

/-- **A transfer** leaves in its destination what its source held. -/
theorem ssaTransfer_puts (hm : Movable ctx m)
    (hsrc : m.srcKind = .reg → m.src.toNat ∉ transferScratch ctx) :
    ∃ code, ssaTransfer ctx m.dstKind m.dst m.srcKind m.src m.cls xR10 = some code ∧
      ∀ σ, Puts (transferScratch ctx) code (place ctx σ m.dstKind m.dst) (sourceValue ctx σ m) σ := by
  cases ha64 : ctx.a64 with
  | true => exact ⟨_, by rw [ssaTransfer, if_pos ha64], a64sTransfer_puts ha64 hm hsrc⟩
  | false =>
  cases hrv64 : ctx.rv64 with
  | true =>
    exact ⟨_, by rw [ssaTransfer, if_neg (by simp [ha64]), if_pos hrv64],
      rvsTransfer_puts ha64 hrv64 hm hsrc⟩
  | false =>
  have hscratch : transferScratch ctx = [xR10, ssaXs2 ctx] := by simp [transferScratch, ha64, hrv64]
  have hbase : ∀ kind, baseRegister ctx kind = if kind = .slot then xRbp else xRsp := by
    intro kind
    simp [baseRegister, ha64, hrv64]
  have hconstant : constantBits ctx m.cls m.src = m.src := by rw [constantBits, if_neg (by simp [hrv64])]
  unfold ssaTransfer
  rw [if_neg (by simp [ha64]), if_neg (by simp [hrv64])]
  simp only [← hbase]
  by_cases hdirect : m.srcKind = .const ∧ m.dstKind ≠ .reg ∧ ¬ ssaFloatClass m.cls = true ∧ m.src = int32 m.src
  · obtain ⟨hs, hdirect⟩ := hdirect
    rw [hs]
    rw [if_pos hdirect]
    refine ⟨_, rfl, fun σ => ?_⟩
    rw [place_cell hdirect.1, sourceValue, hs]
    rw [hconstant]
    apply Puts.one
    rw [Insn.exec, show (m.src.setWidth 32).signExtend 64 = m.src from hdirect.2.2.symm]
    rfl
  generalize hreg : (if m.dstKind = .reg then m.dst.toNat
    else if ssaFloatClass m.cls = true ∧ xR10 < xXmm0 then ssaXs2 ctx else xR10) = reg
  have hwhere : m.dstKind = .reg ∧ reg = m.dst.toNat ∨ m.dstKind ≠ .reg ∧ reg ∈ transferScratch ctx :=
    (target_cases hreg).imp_right (And.imp_right fun h => by rcases h with rfl | rfl <;> simp [hscratch])
  refine ⟨transferCode m reg (x86Mov m.dst.toNat) (x86MoveImmediate reg m.src)
    [.lea reg xRbp (int32 m.src)]
    [if ssaFloatClass m.cls = true then .movsd (reg - xXmm0) (baseRegister ctx m.srcKind) (int32 m.src)
      else .load reg (baseRegister ctx m.srcKind) (int32 m.src)]
    fun reg => [.store reg (baseRegister ctx m.dstKind) (int32 m.dst)], ?_, fun σ =>
      transferCode_puts hwhere (fun _ _ => mov_puts _ σ) (fun h => ?_) (fun h => ?_) (fun h => ?_) ?_⟩
  · unfold transferCode
    cases hs : m.srcKind with
    | reg =>
      by_cases hd : m.dstKind = .reg
      · rw [if_pos hd] at hreg
        simp [hd, hreg]
      · simp [hd]
    | const =>
      rw [if_neg fun h => hdirect ⟨hs, h⟩]
    | frame =>
      dsimp only
      rw [if_neg (by simp [(hm.frame hs).1])]
    | slot | out => rfl
  · rw [sourceValue, h]
    rw [hconstant]
    exact (x86MoveImmediate_puts reg m.src σ).mono (by simp [hscratch])
  · rw [sourceValue, h]
    rw [hbase, if_pos rfl]
    apply Puts.one
    rw [Insn.exec, (hm.frame h).2]
    rfl
  · rw [sourceValue_cell h]
    split_ifs with hfl
    · have hxmm : 32 + (reg - xXmm0) = reg := by
        suffices hle : xXmm0 ≤ reg from Nat.add_sub_of_le hle
        rcases hwhere with ⟨hd, rfl⟩ | ⟨hd, -⟩
        · exact (hm.bank hd (by rcases h with h | h <;> rw [h] <;> decide)).mpr hfl
        rw [if_neg hd, if_pos ⟨hfl, by decide⟩] at hreg
        rw [← hreg]
        unfold ssaXs2
        split_ifs <;> omega
      apply Puts.one
      rw [Insn.exec, hxmm]
      rfl
    · exact Puts.one rfl
  · intro r σ' hd _
    rw [place_cell hd]
    exact Puts.one rfl

end Transfer

end Dyn.Backend
