import Dyn.Isa.ConstantRuns

/-!
# backend: constants of Thumb-2, and of all targets

A modified immediate expands to the constant that it was found for.  With it or its complement a
constant takes one instruction, and else two with half of it each.  The last section puts the targets
together.
-/

namespace Dyn.Isa

open List Function
open Lib.CodeStream

theorem or_byte {b : Nat} (hb : b < 256) (top : Nat) : top <<< 8 ||| b = b + top * 2 ^ 8 := by
  rw [Nat.or_comm, or_shiftLeft top (show b < 2 ^ 8 from hb)]

theorem field_byte {b top : Nat} (hb : b < 256) (htop : top < 4) :
    field (b + top * 2 ^ 8) 0 8 = b ∧ field (b + top * 2 ^ 8) 8 2 = top ∧ field (b + top * 2 ^ 8) 10 2 = 0 := by
  refine ⟨?_, ?_, ?_⟩
  · unfold field
    omega
  · unfold field
    omega
  · unfold field
    omega

theorem and_255 (v : BitVec 32) : (v &&& 0xff).toNat = v.toNat % 256 := by
  rw [BitVec.toNat_and]
  exact Nat.and_two_pow_sub_one_eq_mod v.toNat 8

theorem mul_eq_bytes {b : BitVec 32} (hb : b.toNat < 256) :
    b * (0x01010101 : BitVec 32) = b <<< 24 ||| b <<< 16 ||| b <<< 8 ||| b := by
  apply BitVec.eq_of_toNat_eq
  have hor : b.toNat <<< 24 ||| b.toNat <<< 16 ||| b.toNat <<< 8 ||| b.toNat =
      b.toNat + b.toNat * 2 ^ 8 + b.toNat * 2 ^ 16 + b.toNat * 2 ^ 24 := by
    rw [Nat.or_comm _ b.toNat, Nat.or_comm _ (b.toNat <<< 8), Nat.or_comm (b.toNat <<< 24), ← Nat.or_assoc,
      ← Nat.or_assoc, or_shiftLeft _ (show b.toNat < 2 ^ 8 from hb),
      or_shiftLeft _ (show b.toNat + b.toNat * 2 ^ 8 < 2 ^ 16 by omega),
      or_shiftLeft _ (show b.toNat + b.toNat * 2 ^ 8 + b.toNat * 2 ^ 16 < 2 ^ 24 by omega)]
  have hshift : ∀ k ≤ 24, (b <<< k).toNat = b.toNat <<< k := by
    intro k hk
    rw [BitVec.toNat_shiftLeft, Nat.shiftLeft_eq]
    have hpow : 2 ^ k ≤ 2 ^ 24 := Nat.pow_le_pow_right (by decide) hk
    exact Nat.mod_eq_of_lt (by nlinarith)
  rw [BitVec.toNat_or, BitVec.toNat_or, BitVec.toNat_or, hshift 24 (by decide), hshift 16 (by decide),
    hshift 8 (by decide), hor, BitVec.toNat_mul]
  have hconst : (0x01010101 : BitVec 32).toNat = 16843009 := rfl
  rw [hconst]
  omega

theorem rotate_back (v : BitVec 32) {rot : Nat} (hrot : rot < 32) :
    (v <<< rot ||| v >>> (32 - rot)).rotateRight rot = v := by
  have hleft : v <<< rot ||| v >>> (32 - rot) = v.rotateLeft rot := by
    unfold BitVec.rotateLeft BitVec.rotateLeftAux
    rw [Nat.mod_eq_of_lt hrot]
  rw [hleft]
  apply BitVec.eq_of_getLsbD_eq
  intro i hi
  rw [BitVec.getLsbD_rotateRight, BitVec.getLsbD_rotateLeft, BitVec.getLsbD_rotateLeft, Nat.mod_eq_of_lt hrot]
  by_cases hlow : i < 32 - rot
  · simp [hlow, (by omega : rot + i < 32)]
  · simp [hlow, hi, (by omega : i - (32 - rot) < rot), (by omega : 32 - rot + (i - (32 - rot)) = i)]

theorem t32Rotations_mem {v : BitVec 32} {e : Nat} : ∀ {rots : List Nat}, t32Rotations v rots = some e →
    ∃ rot ∈ rots, 0x80 ≤ (v <<< rot ||| v >>> (32 - rot)).toNat ∧ (v <<< rot ||| v >>> (32 - rot)).toNat ≤ 0xff ∧
      e = rot <<< 7 ||| ((v <<< rot ||| v >>> (32 - rot)).toNat &&& 0x7f)
  | [], h => by cases h
  | rot :: rots, h => by
    rw [t32Rotations] at h
    split_ifs at h with hfits
    · exact ⟨rot, mem_cons_self, hfits.1, hfits.2, (Option.some.inj h).symm⟩
    · obtain ⟨rot', hmem, hrest⟩ := t32Rotations_mem h
      exact ⟨rot', mem_cons_of_mem _ hmem, hrest⟩

theorem expand_pattern {b : BitVec 32} (hb : b.toNat < 256) (hne : b.toNat ≠ 0) {kind : Nat} (hpos : kind ≠ 0) (hkind : kind < 4) :
    kind <<< 8 ||| b.toNat < 4096 ∧ thumbExpandImm (kind <<< 8 ||| b.toNat) =
      if kind = 1 then some (b <<< 16 ||| b) else if kind = 2 then some (b <<< 24 ||| b <<< 8)
      else some (b <<< 24 ||| b <<< 16 ||| b <<< 8 ||| b) := by
  obtain ⟨hlow, hplace, htop⟩ := field_byte hb hkind
  rw [or_byte hb]
  refine ⟨by omega, ?_⟩
  unfold thumbExpandImm
  rw [hlow, hplace, htop, if_neg (by decide), if_neg hpos, if_neg hne, BitVec.ofNat_toNat, BitVec.setWidth_eq]

theorem t32Modimm_expands {v : BitVec 32} {e : Nat} (h : t32Modimm v = some e) :
    e < 4096 ∧ thumbExpandImm e = some v := by
  unfold t32Modimm at h
  dsimp only at h
  have hb := and_255 v
  have hb2 := and_255 (v >>> 8)
  split_ifs at h with hshort hpair hpair' hfour
  · obtain rfl := Option.some.inj h
    have hlt : v.toNat < 256 := by omega
    obtain ⟨hlow, hkind, htop⟩ := field_byte hlt (by decide : 0 < 4)
    rw [zero_mul, add_zero] at hlow hkind htop
    refine ⟨by omega, ?_⟩
    unfold thumbExpandImm
    rw [hlow, hkind, htop, if_neg (by decide), if_pos rfl, BitVec.ofNat_toNat, BitVec.setWidth_eq]
  · obtain rfl := Option.some.inj h
    have hne : (v &&& 0xff).toNat ≠ 0 := by
      intro hzero
      have hbyte : v &&& 0xff = 0 := BitVec.eq_of_toNat_eq hzero
      rw [hbyte] at hpair
      rw [hpair] at hshort
      exact hshort (by decide)
    obtain ⟨hlt, hexpand⟩ := expand_pattern (by omega) hne (by decide : 1 ≠ 0) (by decide)
    refine ⟨hlt, hexpand.trans ?_⟩
    rw [if_pos rfl, BitVec.or_comm, ← hpair]
  · obtain rfl := Option.some.inj h
    have hne : ((v >>> 8) &&& 0xff).toNat ≠ 0 := by
      intro hzero
      have hbyte : (v >>> 8) &&& 0xff = 0 := BitVec.eq_of_toNat_eq hzero
      rw [hbyte] at hpair'
      rw [hpair'] at hshort
      exact hshort (by decide)
    obtain ⟨hlt, hexpand⟩ := expand_pattern (by omega) hne (by decide : 2 ≠ 0) (by decide)
    refine ⟨hlt, hexpand.trans ?_⟩
    rw [if_neg (by decide), if_pos rfl, BitVec.or_comm, ← hpair']
  · obtain rfl := Option.some.inj h
    have hne : (v &&& 0xff).toNat ≠ 0 := by
      intro hzero
      have hbyte : v &&& 0xff = 0 := BitVec.eq_of_toNat_eq hzero
      rw [hbyte] at hfour
      rw [hfour] at hshort
      exact hshort (by decide)
    obtain ⟨hlt, hexpand⟩ := expand_pattern (by omega) hne (by decide : 3 ≠ 0) (by decide)
    refine ⟨hlt, hexpand.trans ?_⟩
    rw [if_neg (by decide), if_neg (by decide), ← mul_eq_bytes (by omega), ← hfour]
  · obtain ⟨rot, hmem, hge, hle, rfl⟩ := t32Rotations_mem h
    rw [mem_range'_1] at hmem
    have hback := rotate_back v (by omega : rot < 32)
    generalize v <<< rot ||| v >>> (32 - rot) = x at *
    have hor : rot <<< 7 ||| (x.toNat &&& 0x7f) = x.toNat % 128 + rot * 2 ^ 7 := by
      rw [show (0x7f : Nat) = 2 ^ 7 - 1 from rfl, Nat.and_two_pow_sub_one_eq_mod, Nat.or_comm,
        or_shiftLeft rot (Nat.mod_lt _ (by decide))]
      rfl
    have hplace : field (x.toNat % 128 + rot * 2 ^ 7) 7 5 = rot := by unfold field; omega
    have hlow : 128 + field (x.toNat % 128 + rot * 2 ^ 7) 0 7 = x.toNat := by unfold field; omega
    have hkind : field (x.toNat % 128 + rot * 2 ^ 7) 10 2 ≠ 0 := by unfold field; omega
    rw [hor]
    refine ⟨by omega, ?_⟩
    unfold thumbExpandImm
    rw [if_pos hkind, hplace, hlow, BitVec.ofNat_toNat, BitVec.setWidth_eq, hback]

section

variable {ctx : Context} {s s' : T32State}

/-- The code is emitted, and leads from one state to another. -/
def Leads (code : Option Code) (s s' : T32State) : Prop := ∃ bytes, code = some bytes ∧ Executes t32Step bytes s s'

theorem Leads.append {first second : Option Code} {s s' s'' : T32State} (h : Leads first s s') (h' : Leads second s' s'') :
    Leads (do let low ← first; let high ← second; return low ++ high) s s'' := by
  obtain ⟨low, rfl, hlow⟩ := h
  obtain ⟨high, rfl, hhigh⟩ := h'
  exact ⟨low ++ high, rfl, hlow.append hhigh⟩

theorem t16_littleEndian (h : Nat) : littleEndian (t16 h) = h % 65536 := by
  have hmask : ∀ n : Nat, n &&& 0xff = n % 256 := fun n => Nat.and_two_pow_sub_one_eq_mod n 8
  unfold t16 byte
  simp only [cons_append, nil_append, littleEndian_cons, littleEndian_nil, byte_toNat, hmask,
    Nat.shiftRight_eq_div_pow]
  omega

/-- A pair of halfwords is one instruction, outside the coprocessor space or with hardware floating point. -/
theorem t32w_leads {h1 h2 : Nat} (hlt1 : h1 < 65536) (hlt2 : h2 < 65536)
    (hspace : ¬(ctx.softFloat = true ∧ h1 &&& 0xEC00 = 0xEC00))
    (hexec : t32Exec h1 h2 s = some s') : Leads (t32w ctx h1 h2) s s' := by
  refine ⟨t16 h1 ++ t16 h2, if_neg hspace, Executes.one fun rest => ?_⟩
  have hstep : t32Step (t16 h1 ++ t16 h2 ++ rest) s =
      (t32Exec (littleEndian (t16 h1)) (littleEndian (t16 h2)) s).map (rest, ·) := rfl
  rw [hstep, t16_littleEndian, t16_littleEndian, Nat.mod_eq_of_lt hlt1, Nat.mod_eq_of_lt hlt2, hexec]
  rfl

variable {d : Nat} {r q : Reg}

theorem second_eq {v : Nat} (hd : d < 16) :
    ((v >>> 8) &&& 7) <<< 12 ||| d <<< 8 ||| (v &&& 0xff) = v % 256 + d * 2 ^ 8 + v / 256 % 8 * 2 ^ 12 := by
  have hlow : v &&& 0xff = v % 256 := Nat.and_two_pow_sub_one_eq_mod v 8
  have hhigh : (v >>> 8) &&& 7 = v / 256 % 8 := by
    rw [Nat.shiftRight_eq_div_pow]
    exact Nat.and_two_pow_sub_one_eq_mod (v / 2 ^ 8) 3
  rw [hlow, hhigh, Nat.or_comm _ (v % 256), Nat.or_comm _ (d <<< 8), ← Nat.or_assoc,
    or_shiftLeft d (show v % 256 < 2 ^ 8 from Nat.mod_lt _ (by decide)),
    or_shiftLeft _ (show v % 256 + d * 2 ^ 8 < 2 ^ 12 by omega)]

theorem second_fields {low high : Nat} (hlow : low < 256) (hd : d < 16) (hhigh : high < 8) :
    field (low + d * 2 ^ 8 + high * 2 ^ 12) 0 8 = low ∧ field (low + d * 2 ^ 8 + high * 2 ^ 12) 8 4 = d ∧
      field (low + d * 2 ^ 8 + high * 2 ^ 12) 12 3 = high ∧ field (low + d * 2 ^ 8 + high * 2 ^ 12) 15 1 = 0 := by
  refine ⟨?_, ?_, ?_, ?_⟩
  · unfold field
    omega
  · unfold field
    omega
  · unfold field
    omega
  · unfold field
    omega

theorem t32Dpi_leads (ctx : Context) (s : T32State) {e : Nat} {v : BitVec 32} (hd : d < 16)
    (hsp : d ≠ 13) (hpc : d ≠ 15) (he : e < 4096) (hexpand : thumbExpandImm e = some v) :
    Leads (t32Dpi ctx t32Orr false d 15 e) s (s.setCore d v) ∧
      Leads (t32Dpi ctx t32Orn false d 15 e) s (s.setCore d (~~~v)) := by
  obtain ⟨hlow, hrd, hhigh, hzero⟩ := second_fields (Nat.mod_lt e (by decide : 0 < 256)) hd
    (Nat.mod_lt (e / 256) (by decide : 0 < 8))
  have hi : e >>> 11 < 2 := by
    rw [Nat.shiftRight_eq_div_pow]
    omega
  have hsplit : (e >>> 11) * 2048 + e / 256 % 8 * 256 + e % 256 = e := by
    rw [Nat.shiftRight_eq_div_pow]
    omega
  unfold t32Dpi
  rw [second_eq hd]
  have hmov : ∀ op ∈ [t32Orr, t32Orn], ∀ i < 2, (0xF000 ||| i <<< 10 ||| op <<< 5 ||| false.toNat <<< 4 ||| 15) < 65536 ∧
      (0xF000 ||| i <<< 10 ||| op <<< 5 ||| false.toNat <<< 4 ||| 15) &&& 0xEC00 ≠ 0xEC00 ∧
      field (0xF000 ||| i <<< 10 ||| op <<< 5 ||| false.toNat <<< 4 ||| 15) 10 1 = i ∧
      field (0xF000 ||| i <<< 10 ||| op <<< 5 ||| false.toNat <<< 4 ||| 15) 11 5 = 0x1e ∧
      field (0xF000 ||| i <<< 10 ||| op <<< 5 ||| false.toNat <<< 4 ||| 15) 0 10 = if op = t32Orr then 0x04f else 0x06f := by
    decide
  constructor
  · obtain ⟨hlt, hspace, hfield, htop, hop⟩ := hmov t32Orr (by decide) (e >>> 11) hi
    refine t32w_leads hlt (by omega) (fun hand => hspace hand.2) ?_
    unfold t32Exec
    rw [hfield, htop, hop, hlow, hrd, hhigh, hzero, if_pos ⟨⟨rfl, rfl, hsp, hpc⟩, rfl⟩, hsplit, hexpand]
    rfl
  obtain ⟨hlt, hspace, hfield, htop, hop⟩ := hmov t32Orn (by decide) (e >>> 11) hi
  refine t32w_leads hlt (by omega) (fun hand => hspace hand.2) ?_
  unfold t32Exec
  rw [hfield, htop, hop, hlow, hrd, hhigh, hzero, if_neg (by simp [t32Orn, t32Orr]), if_pos ⟨⟨rfl, rfl, hsp, hpc⟩, rfl⟩,
    hsplit, hexpand]
  rfl

theorem t32Movw_leads (ctx : Context) (s : T32State) {d v : Nat} (hd : d < 16) (hsp : d ≠ 13) (hpc : d ≠ 15) (hv : v < 65536) :
    Leads (t32Movw ctx 0xF240 d v) s (s.setCore d (BitVec.ofNat 32 v)) ∧
      Leads (t32Movw ctx 0xF2C0 d v) s (s.setCore d (BitVec.ofNat 32 v <<< 16 ||| s.core d &&& 0xffff)) := by
  obtain ⟨hlow, hrd, hhigh, hzero⟩ := second_fields (Nat.mod_lt v (by decide : 0 < 256)) hd
    (Nat.mod_lt (v / 256) (by decide : 0 < 8))
  have hone : (v >>> 11) &&& 1 = v / 2048 % 2 := by
    rw [Nat.shiftRight_eq_div_pow]
    exact Nat.and_two_pow_sub_one_eq_mod (v / 2 ^ 11) 1
  have hfour : (v >>> 12) &&& 15 = v / 4096 % 16 := by
    rw [Nat.shiftRight_eq_div_pow]
    exact Nat.and_two_pow_sub_one_eq_mod (v / 2 ^ 12) 4
  have hsplit : v / 4096 % 16 * 4096 + (v / 2048 % 2 * 2048 + v / 256 % 8 * 256 + v % 256) = v := by omega
  have hfirst : ∀ top ∈ [0xF240, 0xF2C0], ∀ i < 2, ∀ k < 16, (top ||| i <<< 10 ||| k) < 65536 ∧
      (top ||| i <<< 10 ||| k) &&& 0xEC00 ≠ 0xEC00 ∧ field (top ||| i <<< 10 ||| k) 10 1 = i ∧
      field (top ||| i <<< 10 ||| k) 11 5 = 0x1e ∧ field (top ||| i <<< 10 ||| k) 0 4 = k ∧
      field (top ||| i <<< 10 ||| k) 4 6 = (if top = 0xF240 then 0x24 else 0x2c) ∧
      field (top ||| i <<< 10 ||| k) 0 10 ≠ 0x04f ∧ field (top ||| i <<< 10 ||| k) 0 10 ≠ 0x06f := by
    decide
  unfold t32Movw
  rw [second_eq hd, hone, hfour]
  constructor
  · obtain ⟨hlt, hspace, hi, htop, hk, hop, hmov, hmvn⟩ := hfirst 0xF240 (by decide) _ (Nat.mod_lt _ (by decide)) _
      (Nat.mod_lt (v / 4096) (by decide))
    refine t32w_leads hlt (by omega) (fun hand => hspace hand.2) ?_
    unfold t32Exec
    rw [hi, htop, hk, hop, hlow, hrd, hhigh, hzero, if_neg fun hand => hmov hand.2, if_neg fun hand => hmvn hand.2,
      if_pos ⟨⟨rfl, rfl, hsp, hpc⟩, rfl⟩, hsplit]
  obtain ⟨hlt, hspace, hi, htop, hk, hop, hmov, hmvn⟩ := hfirst 0xF2C0 (by decide) _ (Nat.mod_lt _ (by decide)) _
    (Nat.mod_lt (v / 4096) (by decide))
  refine t32w_leads hlt (by omega) (fun hand => hspace hand.2) ?_
  unfold t32Exec
  rw [hi, htop, hk, hop, hlow, hrd, hhigh, hzero, if_neg fun hand => hmov hand.2, if_neg fun hand => hmvn hand.2,
    if_neg (by simp), if_pos ⟨⟨rfl, rfl, hsp, hpc⟩, rfl⟩, hsplit]

theorem setCore_setCore (d : Nat) (v v' : BitVec 32) : (s.setCore d v).setCore d v' = s.setCore d v' := by
  unfold T32State.setCore
  rw [update_idem]

theorem setCore_core (d : Nat) (v : BitVec 32) : (s.setCore d v).core d = v := update_self ..

theorem and_half (n : Nat) : n &&& 0xffff = n % 65536 := Nat.and_two_pow_sub_one_eq_mod n 16

theorem halves_eq (value : BitVec 32) :
    BitVec.ofNat 32 (value >>> 16).toNat <<< 16 ||| BitVec.ofNat 32 (value.toNat &&& 0xffff) &&& 0xffff = value := by
  have hmask : (0xffff : BitVec 32).toNat = 0xffff := rfl
  apply BitVec.eq_of_toNat_eq
  rw [BitVec.ofNat_toNat, BitVec.setWidth_eq, BitVec.toNat_or, BitVec.toNat_shiftLeft, BitVec.toNat_ushiftRight,
    BitVec.toNat_and, BitVec.toNat_ofNat, hmask, and_half, and_half, Nat.shiftRight_eq_div_pow, Nat.shiftLeft_eq]
  have hhigh : value.toNat / 2 ^ 16 * 2 ^ 16 % 2 ^ 32 = (value.toNat / 2 ^ 16) <<< 16 := by
    rw [Nat.shiftLeft_eq]
    omega
  have hlow : value.toNat % 65536 % 2 ^ 32 % 65536 = value.toNat % 65536 := by omega
  rw [hhigh, hlow, Nat.or_comm, or_shiftLeft _ (show value.toNat % 65536 < 2 ^ 16 by omega)]
  omega

/-- **A constant of 32 bits is exact**, in each of the three forms. -/
theorem t32Li_leads (hd : d < 16) (hsp : d ≠ 13) (hpc : d ≠ 15) (value : BitVec 32) :
    Leads (t32Li ctx d value) s (s.setCore d value) := by
  unfold t32Li
  cases hdirect : t32Modimm value with
  | some e =>
    obtain ⟨hlt, hexpand⟩ := t32Modimm_expands hdirect
    exact (t32Dpi_leads ctx s hd hsp hpc hlt hexpand).1
  | none =>
    cases hcomplement : t32Modimm (~~~value) with
    | some e =>
      obtain ⟨hlt, hexpand⟩ := t32Modimm_expands hcomplement
      have hrun := (t32Dpi_leads ctx s hd hsp hpc hlt hexpand).2
      rwa [BitVec.not_not] at hrun
    | none =>
      have hhalves := halves_eq value
      have hlt : value.toNat &&& 0xffff < 65536 := by
        rw [and_half]
        exact Nat.mod_lt _ (by decide)
      have hlow := (t32Movw_leads ctx s hd hsp hpc hlt).1
      refine hlow.append ?_
      split_ifs with hhigh
      · have hlt' : (value >>> 16).toNat < 65536 := by
          rw [BitVec.toNat_ushiftRight, Nat.shiftRight_eq_div_pow]
          omega
        have hrun := (t32Movw_leads ctx
          (s.setCore d (BitVec.ofNat 32 (value.toNat &&& 0xffff))) hd hsp hpc hlt').2
        rwa [setCore_setCore, setCore_core, hhalves] at hrun
      rw [not_not] at hhigh
      have hshort : BitVec.ofNat 32 (value.toNat &&& 0xffff) = value := by
        have hzero : value.toNat / 65536 = 0 := by
          have hnat := congrArg BitVec.toNat hhigh
          rw [BitVec.toNat_ushiftRight, Nat.shiftRight_eq_div_pow] at hnat
          exact hnat
        apply BitVec.eq_of_toNat_eq
        rw [BitVec.toNat_ofNat, and_half]
        omega
      rw [hshort]
      exact ⟨[], rfl, Executes.nil⟩

def highWord (ctx : Context) (s : T32State) (r : Reg) : BitVec 32 :=
  if t32CoreHigh r then s.core (t32Hi r)
  else if ctx.softFloat then s.memory (s.core t32Fp + BitVec.ofNat 32 (t32Bias - t32Saved + 4 * (t32Hi r - 16)))
  else s.single (t32Hi r)

def t32Value (ctx : Context) (s : T32State) (r : Reg) : BitVec 64 := highWord ctx s r ++ s.core (t32Lo r)

/-- The address of the slot that stands for a floating-point register. -/
def softSlot (s : T32State) (hi : Nat) : BitVec 32 := s.core t32Fp + BitVec.ofNat 32 (t32Bias - t32Saved + 4 * (hi - 16))

theorem t32Hi_mem (h : t32CoreHigh r = false) : t32Hi r ∈ [16, 17, 18, 19, 20, 21] := by
  cases r <;> first | decide | cases h

/-- A move from the scratch register to a floating-point register, or to its slot. -/
theorem t32ToS_leads (ctx : Context) (s : T32State) {hi : Nat} (hmem : hi ∈ [16, 17, 18, 19, 20, 21]) :
    Leads (t32ToS ctx hi t32T2) s (if ctx.softFloat then
        { s with memory := update s.memory (softSlot s hi) (s.core t32T2) }
      else { s with single := update s.single hi (s.core t32T2) }) := by
  unfold t32ToS
  split_ifs with hsoft
  · have hslot : t32SoftSlot ctx t32T2 hi = t32w ctx 0xF8CB (0xC000 + (t32Bias - t32Saved + 4 * (hi - 16))) := by
      fin_cases hmem <;> rfl
    rw [hslot]
    refine t32w_leads (by decide) (by fin_cases hmem <;> decide) (fun hand => absurd hand.2 (by decide)) ?_
    fin_cases hmem <;> rfl
  · refine t32w_leads (by fin_cases hmem <;> decide) (by fin_cases hmem <;> decide) (fun hand => hsoft hand.1) ?_
    fin_cases hmem <;> rfl

theorem highWord_setCore (r : Reg) (v : BitVec 32)
    (hd : ∀ q, t32CoreHigh q = true → q = r ∨ d ≠ t32Hi q) (hfp : d ≠ t32Fp) (hq : q ≠ r) :
    highWord ctx (s.setCore d v) q = highWord ctx s q := by
  unfold highWord
  split_ifs with hcore hsoft
  · rcases hd q hcore with heq | hne
    · exact absurd heq hq
    · exact update_of_ne hne.symm ..
  · have hbase : (s.setCore d v).core t32Fp = s.core t32Fp := update_of_ne hfp.symm ..
    rw [hbase]
    rfl
  · rfl

theorem t32Hi_injective (h : t32Hi q = t32Hi r) : q = r := by
  cases q <;> cases r <;> first | rfl | exact absurd h (by decide)

theorem t32Hi_bounds (h : t32CoreHigh r = false) : 16 ≤ t32Hi r ∧ t32Hi r ≤ 21 := by
  have hmem := t32Hi_mem h
  simp only [mem_cons, not_mem_nil, or_false] at hmem
  omega

theorem slots_ne (hq : q ≠ r) (hcore : t32CoreHigh q = false) (hcore' : t32CoreHigh r = false) :
    softSlot s (t32Hi q) ≠ softSlot s (t32Hi r) := by
  intro heq
  have hoffset := congrArg BitVec.toNat ((BitVec.add_right_inj (s.core t32Fp)).mp heq)
  have hbounds := t32Hi_bounds hcore
  have hbounds' := t32Hi_bounds hcore'
  rw [BitVec.toNat_ofNat, BitVec.toNat_ofNat, t32Bias, t32Saved] at hoffset
  exact hq (t32Hi_injective (by omega))

theorem t32HighImm_leads (ctx : Context) (s : T32State) (r : Reg) (value : BitVec 32) : ∃ s', Leads (t32HighImm ctx r value) s s' ∧
    highWord ctx s' r = value ∧ (∀ q, s'.core (t32Lo q) = s.core (t32Lo q)) ∧
    ∀ q ≠ r, highWord ctx s' q = highWord ctx s q := by
  unfold t32HighImm
  cases hcore : t32CoreHigh r with
  | true =>
    refine ⟨s.setCore (t32Hi r) value, ?_, ?_, fun q => ?_, fun q hq => ?_⟩
    · exact t32Li_leads (by cases r <;> first | decide | cases hcore) (by cases r <;> decide) (by cases r <;> decide) value
    · unfold highWord
      rw [if_pos hcore]
      exact setCore_core ..
    · exact update_of_ne (by cases q <;> cases r <;> decide) ..
    · refine highWord_setCore r value (fun q _ => ?_) (by cases r <;> decide) hq
      cases q <;> cases r <;> first | exact .inl rfl | exact .inr (by decide)
  | false =>
    have hmem := t32Hi_mem hcore
    have hload : Leads (t32Li ctx t32T2 value) s (s.setCore t32T2 value) :=
      t32Li_leads (by decide) (by decide) (by decide) value
    have hvalue : (s.setCore t32T2 value).core t32T2 = value := setCore_core ..
    have hrun := hload.append (t32ToS_leads ctx (s.setCore t32T2 value) hmem)
    have hlow : ∀ q, (s.setCore t32T2 value).core (t32Lo q) = s.core (t32Lo q) :=
      fun q => update_of_ne (by cases q <;> decide) ..
    have hkept : ∀ q ≠ r, highWord ctx (s.setCore t32T2 value) q = highWord ctx s q := fun q hq =>
      highWord_setCore r value (fun q _ => .inr (by cases q <;> decide)) (by decide) hq
    rw [hvalue] at hrun
    refine ⟨_, hrun, ?_, fun q => ?_, fun q hq => ?_⟩
    · unfold highWord
      rw [hcore, if_neg (by decide)]
      split_ifs with hsoft
      · exact update_self ..
      · exact update_self ..
    · split_ifs with hsoft
      · exact hlow q
      · exact hlow q
    rw [← hkept q hq]
    unfold highWord
    split_ifs with hcoreq hsoft
    · rfl
    · rfl
    · exact update_of_ne (slots_ne hq (by simpa using hcoreq) hcore) ..
    · exact update_of_ne (fun heq => hq (t32Hi_injective heq)) ..

theorem words_eq (n : BitVec 64) : ((n >>> 32).setWidth 32 ++ n.setWidth 32 : BitVec 64) = n := by
  apply BitVec.eq_of_toNat_eq
  rw [BitVec.toNat_append, BitVec.toNat_setWidth, BitVec.toNat_setWidth, BitVec.toNat_ushiftRight, Nat.or_comm,
    or_shiftLeft _ (Nat.mod_lt _ (by decide)), Nat.shiftRight_eq_div_pow]
  omega

/-- **The constant is exact** on pairs of registers, and no other register of the model changes. -/
theorem t32Immediate_leads (ctx : Context) (s : T32State) (r : Reg) (n : BitVec 64) : ∃ s', Leads (t32Immediate ctx r n) s s' ∧
    t32Value ctx s' r = n ∧ ∀ q ≠ r, t32Value ctx s' q = t32Value ctx s q := by
  have hload : Leads (t32Li ctx (t32Lo r) (n.setWidth 32)) s (s.setCore (t32Lo r) (n.setWidth 32)) :=
    t32Li_leads (by cases r <;> decide) (by cases r <;> decide) (by cases r <;> decide) _
  obtain ⟨s', hrun, hhigh, hlow, hkept⟩ :=
    t32HighImm_leads ctx (s.setCore (t32Lo r) (n.setWidth 32)) r ((n >>> 32).setWidth 32)
  refine ⟨s', hload.append hrun, ?_, fun q hq => ?_⟩
  · unfold t32Value
    rw [hhigh, hlow, setCore_core, words_eq]
  have hword : highWord ctx (s.setCore (t32Lo r) (n.setWidth 32)) q = highWord ctx s q := by
    refine highWord_setCore r _ (fun q _ => .inr ?_) (by cases r <;> decide) hq
    cases q <;> cases r <;> decide
  have hother : (s.setCore (t32Lo r) (n.setWidth 32)).core (t32Lo q) = s.core (t32Lo q) := by
    refine update_of_ne (fun heq => hq ?_) ..
    cases q <;> cases r <;> first | rfl | exact absurd heq (by decide)
  unfold t32Value
  rw [hkept q hq, hlow, hword, hother]

end

/-- The value of a register of the model on RV32. -/
def r32Value (regs : Registers 32) (r : Reg) : BitVec 64 := regs (r32Hi r) ++ regs (r32Lo r)

theorem r32Immediate_executes (regs : Registers 32) (r : Reg) (n : BitVec 64) : ∃ regs',
    Executes rvStep (r32Immediate r n) regs regs' ∧ r32Value regs' r = n ∧
    ∀ k, k ≠ r32Lo r → k ≠ r32Hi r → regs' k = regs k := by
  have hlow : Executes rvStep (r32Li (r32Lo r) (n.setWidth 32)) regs (update regs (r32Lo r) (n.setWidth 32)) :=
    r32Li_executes (by cases r <;> decide) (by cases r <;> decide) _
  refine ⟨_, hlow.append (r32Li_executes (by cases r <;> decide) (by cases r <;> decide) _), ?_, fun k hk hk' => ?_⟩
  · have hne : r32Lo r ≠ r32Hi r := by cases r <;> decide
    unfold r32Value
    rw [update_self, update_of_ne hne, update_self, words_eq]
  · rw [update_of_ne hk', update_of_ne hk]

/-- The emitted code leaves the constant in the register, from every state of the target's processor, and
changes no other register of the model. -/
def Materializes (ctx : Context) (r : Reg) (n : BitVec 64) : Prop :=
  if ctx.t32 then
    ∀ s, ∃ code s', isaImmediate ctx r n = some code ∧ Executes t32Step code s s' ∧ t32Value ctx s' r = n ∧
      ∀ q ≠ r, t32Value ctx s' q = t32Value ctx s q
  else if ctx.rv32 then
    ∀ regs : Registers 32, ∃ code regs', isaImmediate ctx r n = some code ∧ Executes rvStep code regs regs' ∧
      r32Value regs' r = n ∧ ∀ q ≠ r, r32Value regs' q = r32Value regs q
  else if ctx.rv64 then
    ∀ regs : Registers 64, ∃ code, isaImmediate ctx r n = some code ∧
      Executes rvStep code regs (update regs (rvReg r) n)
  else if ctx.a64 then
    ∀ regs, ∃ code, isaImmediate ctx r n = some code ∧ Executes a64Step code regs (update regs (a64Reg r) n)
  else
    ∀ regs, ∃ code, isaImmediate ctx r n = some code ∧ Executes x86Step code regs (update regs (x86Number r) n)

theorem isaImmediate_materializes (ctx : Context) (r : Reg) (n : BitVec 64) : Materializes ctx r n := by
  unfold Materializes isaImmediate
  split_ifs
  · intro s
    obtain ⟨s', ⟨code, hcode, hrun⟩, hvalue, hrest⟩ := t32Immediate_leads ctx s r n
    exact ⟨code, s', hcode, hrun, hvalue, hrest⟩
  · intro regs
    obtain ⟨regs', hrun, hvalue, hrest⟩ := r32Immediate_executes regs r n
    refine ⟨_, regs', rfl, hrun, hvalue, fun q hq => ?_⟩
    have hlow : regs' (r32Lo q) = regs (r32Lo q) :=
      hrest _ (by cases q <;> cases r <;> first | exact absurd rfl hq | decide) (by cases q <;> cases r <;> decide)
    have hhigh : regs' (r32Hi q) = regs (r32Hi q) :=
      hrest _ (by cases q <;> cases r <;> decide) (by cases q <;> cases r <;> first | exact absurd rfl hq | decide)
    unfold r32Value
    rw [hlow, hhigh]
  · intro regs
    refine ⟨_, rfl, ?_⟩
    have hrun := rvImm_executes regs (by decide) (le_refl 64) (by cases r <;> decide : rvReg r < 32)
      (by cases r <;> decide) n
    rwa [BitVec.setWidth_eq] at hrun
  · exact fun regs => ⟨_, rfl, a64Immediate_executes (by cases r <;> decide) n⟩
  · exact fun regs => ⟨_, rfl, x86Immediate_executes r n⟩

/-- **Constants are exact** on every target.  `rv_imm` and `rv_address` are for every value and offset, on
registers of 64 bits and of 32; a sum that needs the scratch register takes another one for its base. -/
theorem constants_exact :
    (∀ ctx r n, Materializes ctx r n) ∧
      ∀ w, w = 32 ∨ w = 64 → ∀ (regs : Registers w) (d : Nat), d < 32 → d ≠ 0 →
        (∀ value, Executes rvStep (rvImm d value) regs (update regs d (value.setWidth w))) ∧
        ∀ base < 32, ∀ offset : BitVec 64, base ≠ 7 ∨ (-2048 ≤ offset.toInt ∧ offset.toInt ≤ 2047) → ∃ regs',
          Executes rvStep (rvAddress d base offset) regs regs' ∧
          regs' d = rvRead regs base + offset.setWidth w ∧ ∀ k, k ≠ d → k ≠ 7 → regs' k = regs k := by
  refine ⟨isaImmediate_materializes, fun w hw regs d hd hne => ?_⟩
  have hw' : 12 < w ∧ w ≤ 64 := by omega
  refine ⟨rvImm_executes regs hw'.1 hw'.2 hd hne, fun base hbase offset hscratch => ?_⟩
  exact rvAddress_executes hw'.1 hw'.2 hd hne hbase offset hscratch

/-- The upper part is rounded up here, and the sum has the sign bit of 32 bits only; and an address whose offset
takes the scratch register, in which it is rounded down. -/
theorem constants_exact_rounded :
    Executes rvStep (rvImm 10 0x7ffff800) (fun _ => (0 : BitVec 32))
      (update (fun _ => 0) 10 ((0x7ffff800 : BitVec 64).setWidth 32)) ∧
    ∃ regs', Executes rvStep (rvAddress 10 2 (-0x12345)) (fun _ => (0x80000000 : BitVec 64)) regs' ∧
      regs' 10 = 0x7ffedcbb ∧ regs' 2 = 0x80000000 := by
  obtain ⟨-, hexact⟩ := constants_exact
  refine ⟨(hexact 32 (.inl rfl) (fun _ => 0) 10 (by decide) (by decide)).1 0x7ffff800, ?_⟩
  obtain ⟨regs', hrun, hsum, hothers⟩ := (hexact 64 (.inr rfl) (fun _ => 0x80000000) 10 (by decide) (by decide)).2
    2 (by decide) (-0x12345) (.inl (by decide))
  exact ⟨regs', hrun, hsum, hothers 2 (by decide) (by decide)⟩

end Dyn.Isa
