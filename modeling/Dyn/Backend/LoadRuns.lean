import Dyn.Backend.LoadFacts
import Mathlib.Data.BitVec

/-!
# backend/ssa: reused loads read the same value

In every run, a load that is replaced would have read the value that replaces it.
-/

namespace Dyn.Backend

open List Function
open Lib Lib.Flow

section

variable {s : Ssa} {order : List Nat} {r0 r r' : Reuse} {i k b n id w : Nat} {stays : Bool} {σ σ' : SsaMachine}

theorem Ssa.lea_value (hform : s.Formed) (h : s.Visits b n σ) {v : Nat} (hv : s.Before v b n)
    (hop : (s.value v).op = .lea) : σ.env v = addressOf σ.env (s.value v) := by
  have hoperand : ∀ {v u : Nat}, (s.value v).op = .lea → (s.value v).a = some u ∨ (s.value v).b = some u →
      u ∈ operandList s v := fun hop hu =>
    mem_operands rfl (.inl hop) (hu.elim .inl fun hb => .inr (.inl hb))
  refine Visits.facts (P := fun v (σ : SsaMachine) => (s.value v).op = .lea → σ.env v = addressOf σ.env (s.value v))
    (U := fun v u => (s.value v).op = .lea ∧ ((s.value v).a = some u ∨ (s.value v).b = some u))
    hform.placed (fun c m v u hplace hreached hu => ?_) (fun c m v σ σ' hvisits hplace _ hstep hop => ?_)
    (fun v w σ σ' hstep hne hnot hold hop => ?_) (fun v p c σ σ' henter hmem hnot hold hop => ?_) h v hv hop
  · exact hform.operands c m v u hplace hreached (by rw [hu.1]; decide) (hoperand hu.1 hu.2)
  · have hself : ∀ u, (s.value v).a = some u ∨ (s.value v).b = some u → u ≠ v := by
      rintro u hu rfl
      have hbefore := hform.operands c m u u hplace hvisits.reached (by rw [hop]; decide) (hoperand hop hu)
      exact hform.placed.not_before hplace hbefore
    cases hstep with
    | phi hphi =>
      rw [hop] at hphi
      cases hphi
    | value _ hexec =>
      cases hexec with
      | lea _ =>
        dsimp only
        rw [update_self]
        exact (addressOf_congr fun u hu => update_of_ne (hself u hu) _ _).symm
      | load hop' | store x hop' =>
        rw [hop] at hop'
        cases hop'
      | other x mem' hlea _ _ _ => exact absurd hop hlea
  · rw [hstep.env_other hne.symm, hold hop]
    refine (addressOf_congr fun u hu => hstep.env_other ?_).symm
    rintro rfl
    exact hnot ⟨hop, hu⟩
  · rw [henter.env_other hmem, hold hop]
    exact (addressOf_congr fun u hu => henter.env_other fun hin => hnot u hin ⟨hop, hu⟩).symm

def SsaPlace.address (env : Nat → BitVec 64) (p : SsaPlace) : BitVec 64 :=
  operandOf env p.base + operandOf env p.index * BitVec.ofNat 64 p.scale + p.displacement

theorem placeLoop_address (hform : s.Formed) (h : s.Visits b n σ)
    (hrecords : ∀ j, r.ssa.value j = s.value j ∨ (s.value j).op = .load ∧ (r.ssa.value j).op = .copy) :
    ∀ (depth : Nat) (p : SsaPlace), (∀ u, p.base = some u → s.Before u b n) →
      (placeLoop r.ssa depth p).address σ.env = p.address σ.env := by
  intro depth
  induction depth with
  | zero => exact fun _ _ => rfl
  | succ depth ih =>
    intro p hbase
    unfold placeLoop
    split
    · rfl
    rename_i u hu
    dsimp only
    split
    · rfl
    rename_i hcase
    rw [not_or, not_ne_iff, not_ne_iff] at hcase
    obtain ⟨hop, hindex⟩ := hcase
    have hrecord : r.ssa.value u = s.value u := by
      rcases hrecords u with hsame | ⟨-, hcopy⟩
      · exact hsame
      · rw [hop] at hcopy
        cases hcopy
    rw [hrecord] at hop hindex ⊢
    have hbefore := hbase u hu
    rw [ih]
    · have hvalue := Ssa.lea_value hform h hbefore hop
      unfold SsaPlace.address
      dsimp only
      have hu' : operandOf σ.env p.base = operandOf σ.env (s.value u).a + (s.value u).aux := by
        rw [hu]
        change σ.env u = _
        rw [hvalue]
        unfold addressOf
        rw [hindex]
        change operandOf σ.env (s.value u).a + 0#64 * _ + _ = _
        rw [BitVec.zero_mul, BitVec.add_zero]
      rw [hu']
      ac_rfl
    intro w hw
    obtain ⟨d, hd, hdom⟩ := hbefore.mem
    obtain ⟨m, hm, hget⟩ := getElem_of_mem hd
    have hplace : (s.items d)[m]? = some u := List.getElem?_eq_some_iff.mpr ⟨hm, hget⟩
    have hoperand := hform.operands d m u w hplace (hdom.reached h.reached) (by rw [hop]; decide)
      (mem_operands rfl (.inl hop) (.inl hw))
    exact .trans hform.placed h.reached hplace hbefore hoperand

theorem Noted.op_records (h : Noted s order r0 i k r) (j : Nat) :
    r.ssa.value j = s.value j ∨ (s.value j).op = .load ∧ (r.ssa.value j).op = .copy := by
  rcases h.records j with hsame | ⟨-, hload, hcopy, -⟩
  · exact .inl hsame
  · exact .inr ⟨hload, hcopy⟩

variable {v : SsaValue}

theorem ssaPlace_address (hform : s.Formed) (h : s.Visits b n σ)
    (hrecords : ∀ j, r.ssa.value j = s.value j ∨ (s.value j).op = .load ∧ (r.ssa.value j).op = .copy)
    (hbase : ∀ u, v.a = some u → s.Before u b n) :
    (ssaPlace r.ssa v).address σ.env = addressOf σ.env v :=
  placeLoop_address hform h hrecords 8 ⟨v.a, v.b, v.scale, v.aux⟩ hbase

theorem placeLoop_same (hrecords : ∀ j, r.ssa.value j = s.value j ∨ (s.value j).op = .load ∧ (r.ssa.value j).op = .copy) :
    ∀ (depth : Nat) (p : SsaPlace), placeLoop r.ssa depth p = placeLoop s depth p := by
  intro depth
  induction depth with
  | zero => exact fun _ => rfl
  | succ depth ih =>
    intro p
    unfold placeLoop
    split
    · rfl
    rename_i u _
    dsimp only
    rcases hrecords u with hsame | ⟨hload, hcopy⟩
    · rw [hsame, ih]
    · rw [if_pos (.inl (by rw [hcopy]; decide)), if_pos (.inl (by rw [hload]; decide))]

/-- The width of a store does not take its displacement past the 64-bit integers. -/
def Ssa.StoresFit (s : Ssa) : Prop :=
  ∀ b v, v ∈ s.items b → (s.value v).op = .store →
    (ssaPlace s (s.value v)).displacement.toInt + placeBytes (s.value v).aux2 < 2 ^ 63

theorem apart_bytes {base d1 d2 : BitVec 64} {n1 n2 i : Nat} (h1 : d1.toInt + n1 < 2 ^ 63)
    (h2 : d2.toInt + n2 < 2 ^ 63) (hi : i < n1)
    (h : (d2 + BitVec.ofNat 64 n2).sle d1 = true ∨ (d1 + BitVec.ofNat 64 n1).sle d2 = true) :
    ¬ (base + d1 + BitVec.ofNat 64 i - (base + d2)).toNat < n2 := by
  have hdiff : base + d1 + BitVec.ofNat 64 i - (base + d2) = d1 + BitVec.ofNat 64 i - d2 := by ring
  rw [hdiff]
  rw [BitVec.sle_iff_toInt_le, BitVec.sle_iff_toInt_le] at h
  simp only [BitVec.toInt_eq_toNat_cond, BitVec.toNat_add, BitVec.toNat_sub, BitVec.toNat_ofNat] at *
  omega

theorem accessBytes_eq {type : BitVec 64} (h : placeBytes type ≠ 0) : accessBytes type = placeBytes type := by
  unfold accessBytes placeBytes memoryBits at *
  rw [if_neg (by omega)]

theorem accessBytes_le (type : BitVec 64) : accessBytes type ≤ 32 := by
  have hbits : memoryBits type ≤ 255 := by
    unfold memoryBits
    rw [BitVec.toNat_and]
    exact Nat.and_le_right
  unfold accessBytes
  split
  · decide
  · omega

/-- The known loads have the values of the memory, and the known stores are in it. -/
structure Accurate (s : Ssa) (r : Reuse) (σ : SsaMachine) : Prop where
  loads : ∀ slot, (r.table.getD slot {}).epoch = r.epoch →
    σ.env (r.table.getD slot {}).value = loadValue σ.env σ.mem (s.value (r.table.getD slot {}).value)
  stores : ∀ id ∈ r.stores, ∀ j < accessBytes (s.value id).aux2,
    σ.mem (addressOf σ.env (s.value id) + BitVec.ofNat 64 j) = byteOf (operandOf σ.env (s.value id).c) j

/-- An operand of a load or a store before the point is before the point. -/
theorem Ssa.Formed.operand_before (hform : s.Formed) (hb : s.Reached b) {v u : Nat} (hv : s.Before v b n)
    (hop : (s.value v).op = .load ∨ (s.value v).op = .store)
    (hu : (s.value v).a = some u ∨ (s.value v).b = some u ∨ (s.value v).c = some u) : s.Before u b n := by
  obtain ⟨d, hd, hdom⟩ := hv.mem
  obtain ⟨m, hm, hget⟩ := getElem_of_mem hd
  have hplace : (s.items d)[m]? = some v := List.getElem?_eq_some_iff.mpr ⟨hm, hget⟩
  have hphi : (s.value v).op ≠ .phi := by
    rcases hop with hop | hop <;> rw [hop] <;> decide
  have hoperand := hform.operands d m v u hplace (hdom.reached hb) hphi (mem_operands rfl (.inr hop) hu)
  exact .trans hform.placed hb hplace hv hoperand

/-- What is known stays known when neither the memory nor the values before the point change. -/
theorem Accurate.same (h : Accurate s r σ) (hform : s.Formed) (hnoted : Noted s order r0 i k r) (hb : order[i]? = some b)
    (hreached : s.Reached b) (hmem : σ'.mem = σ.mem) (henv : ∀ v, s.Before v b k → σ'.env v = σ.env v) :
    Accurate s r σ' := by
  refine ⟨fun slot hepoch => ?_, fun id hid j hj => ?_⟩
  · obtain ⟨hop, -, hbefore⟩ := hnoted.loads b hb hreached slot hepoch
    rw [henv _ hbefore, h.loads slot hepoch]
    refine (loadValue_congr (fun u hu => henv u ?_) hmem).symm
    exact hform.operand_before hreached hbefore (.inl hop) (hu.elim .inl fun hb => .inr (.inl hb))
  obtain ⟨hop, hbefore⟩ := hnoted.stores b hb hreached id hid
  have hoperand : ∀ u, (s.value id).a = some u ∨ (s.value id).b = some u ∨ (s.value id).c = some u →
      σ'.env u = σ.env u := fun u hu => henv u (hform.operand_before hreached hbefore (.inr hop) hu)
  rw [hmem, addressOf_congr fun u hu => hoperand u (hu.elim .inl fun hb => .inr (.inl hb)),
    operandOf_congr fun u hu => hoperand u (.inr (.inr hu))]
  exact h.stores id hid j hj

theorem SsaOp.mayWrite_of_hasEffect {op : SsaOp} (h : op.hasEffect = false) : op.mayWrite = false ∧ op ≠ .store := by
  revert h
  cases op <;> decide

theorem SsaOp.mayWrite_of_keepsMemory {op : SsaOp} (h : op.keepsMemory = true) : op.mayWrite = false ∧ op ≠ .store := by
  revert h
  cases op <;> decide

theorem Accurate.fresh (h : ∀ slot, (r.table.getD slot {}).epoch ≤ r.epoch) :
    Accurate s { r with epoch := r.epoch + 1, stores := [] } σ := by
  refine ⟨fun slot hepoch => ?_, fun id hid => absurd hid not_mem_nil⟩
  have hle := h slot
  dsimp only at hepoch
  omega

theorem Accurate.noted (h : Accurate s r σ') (hform : s.Formed) (hreached : s.Reached b) (hid : (s.items b)[k]? = some id)
    (hload : (s.value id).op = .load) (hstep : s.Step id σ σ') (slot : Nat) :
    Accurate s { r with table := r.table.set slot ⟨r.epoch, id⟩ } σ' := by
  have hoperand : ∀ u, (s.value id).a = some u ∨ (s.value id).b = some u → u ≠ id := by
    rintro u hu rfl
    have hbefore := hform.operands b k u u hid hreached (by rw [hload]; decide)
      (mem_operands rfl (.inr (.inl hload)) (hu.elim .inl fun hb => .inr (.inl hb)))
    exact hform.placed.not_before hid hbefore
  have hvalue : σ'.env id = loadValue σ'.env σ'.mem (s.value id) := by
    rw [hstep.env_load hload]
    exact (loadValue_congr (fun u hu => hstep.env_other (hoperand u hu))
      (hstep.mem_same (by rw [hload]; decide) (by rw [hload]; rfl))).symm
  refine ⟨fun m hepoch => ?_, h.stores⟩
  rw [table_set_getD] at hepoch ⊢
  split
  · exact hvalue
  rename_i hcase
  rw [if_neg hcase] at hepoch
  exact h.loads m hepoch

/-- A store of the run that the new store cannot overlap keeps its bytes. -/
theorem store_apart (hform : s.Formed) (h : s.Visits b n σ) (hfit : s.StoresFit) {v w : Nat}
    (hv : ∃ c, v ∈ s.items c) (hw : ∃ c, w ∈ s.items c) (hvop : (s.value v).op = .store) (hwop : (s.value w).op = .store)
    (hvbase : ∀ u, (s.value v).a = some u → s.Before u b n) (hwbase : ∀ u, (s.value w).a = some u → s.Before u b n)
    (hapart : disjointPlaces (ssaPlace s (s.value v)) (placeBytes (s.value v).aux2) (ssaPlace s (s.value w))
      (placeBytes (s.value w).aux2) = true) (value : BitVec 64) :
    ∀ j < accessBytes (s.value v).aux2, writeBytes σ.mem (addressOf σ.env (s.value w)) (accessBytes (s.value w).aux2) value
      (addressOf σ.env (s.value v) + BitVec.ofNat 64 j) = σ.mem (addressOf σ.env (s.value v) + BitVec.ofNat 64 j) := by
  obtain ⟨hbase, hindex, hscale, hbytes2, hbytes1, hsides⟩ := of_decide_eq_true hapart
  obtain ⟨c, hc⟩ := hv
  obtain ⟨d, hd⟩ := hw
  intro j hj
  have hsame : ∀ j, s.value j = s.value j ∨ (s.value j).op = .load ∧ (s.value j).op = .copy := fun j => .inl rfl
  rw [accessBytes_eq hbytes1] at hj
  rw [accessBytes_eq hbytes2, ← ssaPlace_address (r := ⟨s, [], 0, []⟩) hform h hsame hvbase,
    ← ssaPlace_address (r := ⟨s, [], 0, []⟩) hform h hsame hwbase]
  unfold SsaPlace.address writeBytes
  rw [hbase, hindex, hscale, if_neg]
  exact apart_bytes (hfit c v hc hvop) (hfit d w hd hwop) hj hsides

theorem Accurate.value (h : Accurate s r σ) (hform : s.Formed) (hfit : s.StoresFit) (hnoted : Noted s order r0 i k r)
    (hbegins : Begins s order r0) (hvisits : s.Visits b k σ) (hb : order[i]? = some b)
    (hid : (s.items b)[k]? = some id) (hreused : Reused r id r' stays) (hstep : s.Step id σ σ') : Accurate s r' σ' := by
  have hrecord := hnoted.record hform hbegins hb hid
  have henv : ∀ v, s.Before v b k → σ'.env v = σ.env v := fun v hv => hstep.env_other fun heq =>
    hform.placed.not_before hid (heq ▸ hv)
  have hmem : id ∈ s.items b := by
    obtain ⟨hk, hget⟩ := List.getElem?_eq_some_iff.mp hid
    exact hget ▸ getElem_mem hk
  have hquiet : (s.value id).op ≠ .store → (s.value id).op.mayWrite = false → Accurate s r σ' := fun hstore hwrite =>
    h.same hform hnoted hb hvisits.reached (hstep.mem_same hstore hwrite) henv
  cases hreused with
  | replaced value hload _ =>
    rw [hrecord] at hload
    have hold := hquiet (by rw [hload]; decide) (by rw [hload]; rfl)
    exact ⟨hold.loads, hold.stores⟩
  | noted slot hload =>
    rw [hrecord] at hload
    exact (hquiet (by rw [hload]; decide) (by rw [hload]; rfl)).noted hform hvisits.reached hid hload hstep slot
  | passed hload hkeeps =>
    rw [hrecord] at hkeeps
    have hop : (s.value id).op.mayWrite = false ∧ (s.value id).op ≠ .store := by
      rcases hkeeps with heffect | hkeeps
      · refine SsaOp.mayWrite_of_hasEffect (Bool.eq_false_iff.mpr fun hhas => ?_)
        rw [hform.effects b id hmem hhas] at heffect
        cases heffect
      · exact SsaOp.mayWrite_of_keepsMemory hkeeps
    exact hquiet hop.2 hop.1
  | barrier stores hload hstores =>
    rw [hrecord] at hstores
    rcases hstores with ⟨-, hnil⟩ | ⟨hstore, hjoin⟩
    · rw [hnil]
      exact .fresh hnoted.epochs
    refine ⟨(Accurate.fresh hnoted.epochs).loads, fun j hj => ?_⟩
    have hbefore : ∀ u, (s.value id).a = some u ∨ (s.value id).b = some u ∨ (s.value id).c = some u →
        s.Before u b k := fun u hu =>
      hform.operands b k id u hid hvisits.reached (by rw [hstore]; decide) (mem_operands rfl (.inr (.inr hstore)) hu)
    have hwritten : σ'.mem = writeBytes σ.mem (addressOf σ.env (s.value id)) (accessBytes (s.value id).aux2)
        (operandOf σ.env (s.value id).c) := by
      cases hstep with
      | phi hphi =>
        rw [hstore] at hphi
        cases hphi
      | value _ hexec =>
        cases hexec with
        | lea hop | load hop =>
          rw [hstore] at hop
          cases hop
        | store x _ => rfl
        | other x mem' _ _ hop _ => exact absurd hstore hop
    rw [hjoin] at hj
    rcases mem_append.mp hj with hold | hnew
    · -- An earlier store of the run is apart from this one.
      split at hold
      · rename_i hdisjoint
        obtain ⟨hop, hother⟩ := hnoted.stores b hb hvisits.reached j hold
        have hapart := all_eq_true.mp hdisjoint.2 j hold
        have hplaces : ∀ v, ssaPlace r.ssa v = ssaPlace s v := fun v =>
          placeLoop_same hnoted.op_records 8 ⟨v.a, v.b, v.scale, v.aux⟩
        have hjrecord : r.ssa.value j = s.value j := by
          rcases hnoted.op_records j with hsame | ⟨hload, -⟩
          · exact hsame
          · rw [hop] at hload
            cases hload
        rw [hplaces, hplaces, hrecord, hjrecord] at hapart
        have hoperand : ∀ u, (s.value j).a = some u ∨ (s.value j).b = some u ∨ (s.value j).c = some u →
            s.Before u b k := fun u hu => hform.operand_before hvisits.reached hother (.inr hop) hu
        obtain ⟨c, hc, -⟩ := hother.mem
        intro n hn
        rw [addressOf_congr fun u hu => henv u (hoperand u (hu.elim .inl fun hb => .inr (.inl hb))),
          operandOf_congr fun u hu => henv u (hoperand u (.inr (.inr hu))), hwritten,
          store_apart hform hvisits hfit ⟨c, hc⟩ ⟨b, hmem⟩ hop hstore (fun u hu => hoperand u (.inl hu))
            (fun u hu => hbefore u (.inl hu)) hapart _ n hn]
        exact h.stores j hold n hn
      · cases hold
    · rw [mem_singleton.mp hnew]
      intro n hn
      rw [addressOf_congr fun u hu => henv u (hbefore u (hu.elim .inl fun hb => .inr (.inl hb))),
        operandOf_congr fun u hu => henv u (hbefore u (.inr (.inr hu))), hwritten]
      exact writeBytes_self _ _ _ hn (lt_of_lt_of_le hn (le_trans (accessBytes_le _) (by decide)))

/-- **What is known goes on into a block that is only entered from the one before.** -/
theorem Accurate.enter (h : Accurate s r σ) (hform : s.Formed) (hnoted : Noted s order r0 i (s.items b).length r)
    (hbegins : Begins s order r0) (hvisits : s.Visits b (s.items b).length σ) {c : Nat} (hb : order[i]? = some b)
    (hc : order[i + 1]? = some c) (hedge : s.Edge b c) (henter : s.Enter b c σ σ') {q : Ssa}
    (hcontinues : (s.block c).preds = [b]) : Accurate s { r with ssa := q } σ' := by
  have hentry : c ≠ 0 := hbegins.next_ne hc
  have hsingle : ∀ u, s.Edge u c → u = b := fun u hu => by
    unfold Ssa.Edge at hu
    rw [hcontinues] at hu
    exact mem_singleton.mp hu
  have hold := h.same hform hnoted hb hvisits.reached henter.mem_same fun v hv => henter.env_other fun hmem => by
    obtain ⟨-, d, hd, hne, -⟩ := (hv.single (hvisits.reached.step hedge) hentry hsingle).pred hedge
    exact hne (hform.placed.once d c v hd hmem)
  exact ⟨hold.loads, hold.stores⟩

/-- **What the pass knows at a point holds in every run that comes to it.** -/
theorem Ssa.Visits.accurate (hform : s.Formed) (hfit : s.StoresFit) (hbegins : Begins s order r0) (h : s.Visits b n σ) :
    ∀ {i : Nat} {r : Reuse}, order[i]? = some b → PassAt s order r0 i n r → Accurate s r σ := by
  induction h with
  | start _ =>
    intro i r hb hpass
    cases hpass with
    | first _ => exact .fresh fun slot => le_of_eq ((hbegins.table slot).trans hbegins.epoch.symm)
    | block kept _ _ hc =>
      rw [hb] at hc
      exact absurd rfl (hbegins.next_ne hb)
  | @step b n v σ σ' hvisits hv hstep ih =>
    intro i r hb hpass
    cases hpass with
    | value hpass hb' hid hreused =>
      rw [hb] at hb'
      cases hb'
      rw [hv] at hid
      cases hid
      exact (ih hb hpass).value hform hfit (hpass.noted hform hbegins) hbegins hvisits hb hv hreused hstep
  | @enter b c σ σ' hvisits hedge henter ih =>
    intro i r hc hpass
    cases hpass with
    | first _ => exact .fresh fun slot => le_of_eq ((hbegins.table slot).trans hbegins.epoch.symm)
    | @block i p _ r kept hpass hp hc' =>
      rw [hc] at hc'
      cases hc'
      have hnoted := hpass.noted hform hbegins
      unfold beginBlock
      split
      · rename_i hcontinues
        have hpreds : (s.block c).preds = [p] := by
          have hall := (of_decide_eq_true hcontinues).1
          rw [Ssa.updateBlock_preds, hnoted.preds c] at hall
          exact hall
        have hpb : b = p := by
          unfold Ssa.Edge at hedge
          rw [hpreds] at hedge
          exact mem_singleton.mp hedge
        subst hpb
        exact (ih hp hpass).enter hform hnoted hbegins hvisits hp hc hedge henter hpreds
      · exact .fresh hnoted.epochs

/-- The place of a replaced load is the one that the pass came to. -/
theorem Replaces.source (h : Replaces s order r0 id w) (hform : s.Formed) (hid : (s.items b)[n]? = some id) :
    ∃ i r, PassAt s order r0 i n r ∧ order[i]? = some b ∧ (s.value id).op = .load ∧ Source r (s.value id) w := by
  obtain ⟨i, k, c, r, hpass, hc, hplace, hload, hsource⟩ := h
  obtain ⟨hn, hget⟩ := List.getElem?_eq_some_iff.mp hid
  obtain ⟨hk, hget'⟩ := List.getElem?_eq_some_iff.mp hplace
  have heq := hform.placed.once c b id (hget' ▸ getElem_mem hk) (hget ▸ getElem_mem hn)
  subst heq
  have hindex : k = n := (List.Nodup.getElem_inj_iff (hform.placed.nodup c)).mp (hget'.trans hget.symm)
  subst hindex
  exact ⟨i, r, hpass, hc, hload, hsource⟩

theorem Replaces.anchored (h : Replaces s order r0 id w) (hform : s.Formed) (hbegins : Begins s order r0) :
    Anchored s id w := by
  obtain ⟨i, k, c, r, hpass, hc, hplace, -, hsource⟩ := h
  exact (hpass.noted hform hbegins).anchored hform hc hplace hsource

/-- Looking through copies keeps the value, when the replaced loads have the values that replace them. -/
theorem resolveLoop_value (hform : s.Formed) (hnoted : Noted s order r0 i k r) (hreached : s.Reached b)
    (hfacts : ∀ v, s.Before v b n → ∀ u, Replaces s order r0 v u → σ.env v = σ.env u) :
    ∀ (fuel y value : Nat), resolveLoop r.ssa fuel y = some value → s.Before y b n → σ.env y = σ.env value := by
  intro fuel
  induction fuel with
  | zero =>
    intro y value hresolve
    cases hresolve
  | succ fuel ih =>
    intro y value hresolve hy
    unfold resolveLoop at hresolve
    split at hresolve
    · rename_i hcopy
      obtain ⟨d, hd, hdom⟩ := hy.mem
      rcases hnoted.records y with hsame | ⟨u, -, -, ha, hrep, hanchored, -⟩
      · rw [hsame] at hcopy
        exact absurd hcopy (hform.copies d y hd)
      rw [ha] at hresolve
      obtain ⟨m, hm, hget⟩ := getElem_of_mem hd
      have hplace : (s.items d)[m]? = some y := List.getElem?_eq_some_iff.mpr ⟨hm, hget⟩
      have hu := Before.trans hform.placed hreached hplace hy (hanchored d m hplace (hdom.reached hreached))
      exact (hfacts y hy u hrep).trans (ih u value hresolve hu)
    · cases hresolve
      rfl

theorem loadValue_same {w : SsaValue} (h : ssaSame v w = true) (env : Nat → BitVec 64)
    (mem : Memory) : loadValue env mem v = loadValue env mem w := by
  obtain ⟨-, -, ha, hb, -, haux, haux2, -, hscale⟩ := of_decide_eq_true h
  unfold loadValue addressOf
  rw [ha, hb, haux, haux2, hscale]

theorem loadValue_whole {env : Nat → BitVec 64} {mem : Memory} {x : BitVec 64}
    (hbits : memoryBits v.aux2 = 64)
    (hbytes : ∀ j < 8, mem (addressOf env v + BitVec.ofNat 64 j) = byteOf x j) :
    loadValue env mem v = x := by
  have hsize : accessBytes v.aux2 = 8 := by
    unfold accessBytes
    rw [hbits]
    rfl
  unfold loadValue
  rw [hsize, readBytes_eight hbytes, hbits]
  split
  · rfl
  · exact if_pos (le_refl 64)

theorem and_eq_of_xor {x y mask : BitVec 64} (h : (x ^^^ y) &&& mask = 0) : x &&& mask = y &&& mask := by
  refine BitVec.xor_eq_zero_iff.mp (Eq.trans ?_ h)
  refine BitVec.eq_of_getLsbD_eq fun i _ => ?_
  rw [BitVec.getLsbD_xor, BitVec.getLsbD_and, BitVec.getLsbD_and, BitVec.getLsbD_and, BitVec.getLsbD_xor]
  exact (Bool.and_xor_distrib_right _ _ _).symm

theorem forwards_spec {q : Ssa} {store : SsaValue} (h : forwards q store v w = true) :
    ssaPlace q store = ssaPlace q v ∧ memoryBits v.aux2 = 64 ∧ accessBytes store.aux2 = 8 := by
  obtain ⟨-, hwide, hplace, htype⟩ := of_decide_eq_true h
  have hbits : memoryBits v.aux2 = 64 := by
    unfold memoryBits
    rcases hwide with ⟨-, hbits, -⟩ | ⟨-, htype⟩
    · rw [hbits]
      rfl
    · rw [htype]
      decide
  have hstore : memoryBits store.aux2 = memoryBits v.aux2 := by
    unfold memoryBits
    rcases htype with heq | ⟨-, hsign⟩
    · rw [heq]
    -- The types differ in the bit of the sign at most.
    have hlow : (store.aux2 ^^^ v.aux2) &&& 0xff = 0 := by
      have hmask : (~~~(256 : BitVec 64)) &&& 0xff = 0xff := by decide
      rw [← hmask, ← BitVec.and_assoc, hsign]
      decide
    have heq : store.aux2 &&& 0xff = v.aux2 &&& 0xff := and_eq_of_xor hlow
    rw [heq]
  refine ⟨hplace, hbits, ?_⟩
  unfold accessBytes
  rw [hstore, hbits]
  rfl

/-- **A replaced load would read the value that replaces it**, when the loads before it did. -/
theorem Replaces.value (h : Replaces s order r0 id w) (hform : s.Formed) (hfit : s.StoresFit)
    (hbegins : Begins s order r0) (hvisits : s.Visits b n σ) (hid : (s.items b)[n]? = some id)
    (hfacts : ∀ v, s.Before v b n → ∀ u, Replaces s order r0 v u → σ.env v = σ.env u) :
    loadValue σ.env σ.mem (s.value id) = σ.env w := by
  obtain ⟨i, r, hpass, hb, hload, hsource⟩ := h.source hform hid
  have hnoted := hpass.noted hform hbegins
  have haccurate := hvisits.accurate hform hfit hbegins hb hpass
  cases hsource with
  | load slot hepoch hvalue hsame =>
    obtain ⟨-, hrecord, -⟩ := hnoted.loads b hb hvisits.reached slot hepoch
    rw [← hvalue, hrecord] at hsame
    rw [← hvalue, haccurate.loads slot hepoch]
    exact (loadValue_same hsame _ _).symm
  | store store hmem hresolve hforwards =>
    obtain ⟨hop, hbefore⟩ := hnoted.stores b hb hvisits.reached store hmem
    have hrecord : r.ssa.value store = s.value store := by
      rcases hnoted.op_records store with hsame | ⟨hload', -⟩
      · exact hsame
      · rw [hop] at hload'
        cases hload'
    rw [hrecord] at hresolve hforwards
    obtain ⟨hplace, hbits, hbytes⟩ := forwards_spec hforwards
    have haddress : addressOf σ.env (s.value store) = addressOf σ.env (s.value id) := by
      rw [← ssaPlace_address hform hvisits hnoted.op_records fun u hu =>
          hform.operand_before hvisits.reached hbefore (.inr hop) (.inl hu), hplace,
        ssaPlace_address hform hvisits hnoted.op_records fun u hu =>
          hform.operands b n id u hid hvisits.reached (by rw [hload]; decide)
            (mem_operands rfl (.inr (.inl hload)) (.inl hu))]
    obtain ⟨y, hy, hresolve⟩ := Option.bind_eq_some_iff.mp hresolve
    have hoperand := hform.operand_before hvisits.reached hbefore (.inr hop) (.inr (.inr hy))
    have hvalue := resolveLoop_value hform hnoted hvisits.reached hfacts _ y w hresolve hoperand
    have hstored := haccurate.stores store hmem
    rw [hbytes, haddress, hy] at hstored
    exact (loadValue_whole hbits hstored).trans hvalue

/-- **Every replaced load that is before a point has the value that replaces it.** -/
theorem Ssa.Visits.replaced (hform : s.Formed) (hfit : s.StoresFit) (hbegins : Begins s order r0) (h : s.Visits b n σ) :
    ∀ v, s.Before v b n → ∀ u, Replaces s order r0 v u → σ.env v = σ.env u := by
  refine Visits.facts (P := fun v (σ : SsaMachine) => ∀ u, Replaces s order r0 v u → σ.env v = σ.env u)
    (U := fun v u => Replaces s order r0 v u) hform.placed (fun c m v u hplace hreached hu => ?_)
    (fun c m v σ σ' hvisits hplace hfacts hstep u hu => ?_) (fun v w σ σ' hstep hne hnot hold u hu => ?_)
    (fun v p c σ σ' henter hmem hnot hold u hu => ?_) h
  · exact hu.anchored hform hbegins c m hplace hreached
  · have hload := hu.value hform hfit hbegins hvisits hplace hfacts
    obtain ⟨-, -, -, -, hop, -⟩ := hu.source hform hplace
    have hbefore := hu.anchored hform hbegins c m hplace hvisits.reached
    have hne : u ≠ v := by
      rintro rfl
      exact hform.placed.not_before hplace hbefore
    rw [hstep.env_other hne, ← hload]
    exact hstep.env_load hop
  · rw [hstep.env_other hne.symm, hold u hu]
    refine (hstep.env_other ?_).symm
    rintro rfl
    exact hnot hu
  · rw [henter.env_other hmem, hold u hu]
    exact (henter.env_other fun hin => hnot u hin hu).symm

/-- **Reused loads read the value that replaces them.**  In a function in SSA form whose stores fit, in
every run, a load that the pass replaces would have read the value that it becomes a copy of. -/
theorem load_reuse_agrees {s' : Ssa} (hform : s.Formed) (hfit : s.StoresFit) (hnodup : order.Nodup)
    (hentry : ∀ b, order[0]? = some b → b = 0) (h : ssaReuseLoads s order = some s') (hvisits : s.Visits b n σ)
    (hid : (s.items b)[n]? = some id) (hreplaced : s'.value id ≠ s.value id) :
    ∃ value, (s.value id).op = .load ∧ (s'.value id).op = .copy ∧ (s'.value id).a = some value ∧
      loadValue σ.env σ.mem (s.value id) = σ.env value := by
  obtain ⟨r0, hbegins, hvalues⟩ := ssaReuseLoads_replaces hform hnodup hentry h
  rcases hvalues id with hsame | ⟨value, hload, hcopy, ha, hrep⟩
  · exact absurd hsame hreplaced
  · exact ⟨value, hload, hcopy, ha, hrep.value hform hfit hbegins hvisits hid (hvisits.replaced hform hfit hbegins)⟩

end

/-- Stores two parameters through a third, falls out of the block, loads the first of them again and another
place twice. -/
def twoStores (d1 d2 : BitVec 64) : Ssa :=
  { values := [{ op := .param, cls := .int, effect := true }, { op := .param, cls := .int, effect := true },
      { op := .param, cls := .int, effect := true },
      { op := .store, effect := true, a := some 0, c := some 1, aux := d1, aux2 := 64 },
      { op := .store, effect := true, a := some 0, c := some 2, aux := d2, aux2 := 64 },
      { op := .load, cls := .int, effect := true, a := some 0, aux := d1, aux2 := 64 },
      { op := .load, cls := .int, effect := true, a := some 0, aux := 64, aux2 := 64 },
      { op := .load, cls := .int, effect := true, a := some 0, aux := 64, aux2 := 64 }]
    blocks := [{ values := [0, 1, 2, 3, 4], kind := .plain, succ0 := some 1 },
      { values := [5, 6, 7], preds := [0], kind := .ret, control := some 7 }] }

section

variable (d1 d2 : BitVec 64)

theorem twoStores_items {b v : Nat} (h : v ∈ (twoStores d1 d2).items b) : b = (if v < 5 then 0 else 1) ∧ v < 8 := by
  match b with
  | 0 =>
    have hmem : v ∈ [0, 1, 2, 3, 4] := h
    simp only [mem_cons, not_mem_nil, or_false] at hmem
    split_ifs <;> omega
  | 1 =>
    have hmem : v ∈ [5, 6, 7] := h
    simp only [mem_cons, not_mem_nil, or_false] at hmem
    split_ifs <;> omega
  | b + 2 => cases h

theorem twoStores_formed : (twoStores d1 d2).Formed := by
  refine ⟨⟨fun b c v hb hc => ?_, fun b => ?_⟩, fun b v hv => ?_, fun b v hv => ?_, fun b n v u hv _ _ hu => ?_⟩
  · rw [(twoStores_items d1 d2 hb).1, (twoStores_items d1 d2 hc).1]
  · match b with
    | 0 => exact (by decide : [0, 1, 2, 3, 4].Nodup)
    | 1 => exact (by decide : [5, 6, 7].Nodup)
    | b + 2 => exact nodup_nil
  · obtain ⟨-, hlt⟩ := twoStores_items d1 d2 hv
    interval_cases v <;> exact SsaOp.noConfusion
  · obtain ⟨-, hlt⟩ := twoStores_items d1 d2 hv
    interval_cases v <;> exact fun _ => rfl
  obtain ⟨hn, hget⟩ := List.getElem?_eq_some_iff.mp hv
  obtain ⟨hb, hlt⟩ := twoStores_items d1 d2 (hget ▸ getElem_mem hn)
  have hlow : u < v ∧ u < 3 := by
    interval_cases v <;> simp [operandList, twoStores, Ssa.value] at hu <;> omega
  by_cases hfive : v < 5
  · rw [if_pos hfive] at hb
    subst hb
    have hn' : n < 5 := hn
    have hsame : n = v := by interval_cases n <;> exact hget
    subst hsame
    refine .inl (?_ : u ∈ [0, 1, 2, 3, 4].take n)
    obtain ⟨hlt', hthree⟩ := hlow
    interval_cases n <;> interval_cases u <;> decide
  rw [if_neg hfive] at hb
  subst hb
  refine .inr ⟨0, (?_ : u ∈ [0, 1, 2, 3, 4]), by decide, Flow.entry_dominates 1⟩
  obtain ⟨-, hthree⟩ := hlow
  interval_cases u <;> decide

theorem twoStores_address {env : Nat → BitVec 64} (h : env 0 = 0) :
    addressOf env ((twoStores d1 d2).value 3) = d1 ∧ addressOf env ((twoStores d1 d2).value 4) = d2 ∧
      addressOf env ((twoStores d1 d2).value 5) = d1 := by
  have haddress : ∀ d : BitVec 64, env 0 + 0 * BitVec.ofNat 64 1 + d = d := fun d => by
    rw [h, BitVec.ofNat_eq_ofNat, BitVec.zero_mul, BitVec.add_zero, BitVec.zero_add]
  exact ⟨haddress d1, haddress d2, haddress d1⟩

theorem wordType : accessBytes 64 = 8 ∧ memoryBits 64 = 64 := by decide

theorem twoStores_visits (x y : BitVec 64) : ∃ σ, (twoStores d1 d2).Visits 1 0 σ ∧ σ.env 0 = 0 ∧ σ.env 1 = x ∧
    σ.mem = writeBytes (writeBytes (fun _ => 0) d1 8 x) d2 8 y := by
  obtain ⟨s, hs⟩ : ∃ s, s = twoStores d1 d2 := ⟨_, rfl⟩
  have hparam : ∀ {n v : Nat} {env : Nat → BitVec 64} {mem : Memory} (x : BitVec 64), s.Visits 0 n ⟨env, mem⟩ →
      (s.items 0)[n]? = some v → (s.value v).op = .param → s.Visits 0 (n + 1) ⟨update env v x, mem⟩ :=
    fun x hvisits hv hop => .step hvisits hv (.value (by rw [hop]; decide)
      (.other x _ (by rw [hop]; decide) (by rw [hop]; decide) (by rw [hop]; decide) fun _ => rfl))
  have hstore : ∀ {n v : Nat} {env : Nat → BitVec 64} {mem : Memory}, s.Visits 0 n ⟨env, mem⟩ →
      (s.items 0)[n]? = some v → (s.value v).op = .store → s.Visits 0 (n + 1) ⟨update env v 0,
        writeBytes mem (addressOf env (s.value v)) (accessBytes (s.value v).aux2) (operandOf env (s.value v).c)⟩ :=
    fun hvisits hv hop => .step hvisits hv (.value (by rw [hop]; decide) (.store 0 hop))
  have h0 : s.Visits 0 0 ⟨fun _ => 0, fun _ => 0⟩ := .start trivial
  have h3 := hparam y (hparam x (hparam 0 h0 (v := 0) (by rw [hs]; rfl) (by rw [hs]; rfl)) (v := 1) (by rw [hs]; rfl)
    (by rw [hs]; rfl)) (v := 2) (by rw [hs]; rfl) (by rw [hs]; rfl)
  have h5 := hstore (hstore h3 (v := 3) (by rw [hs]; rfl) (by rw [hs]; rfl)) (v := 4) (by rw [hs]; rfl) (by rw [hs]; rfl)
  subst hs
  have hnone : ∀ v, ¬ (v ∈ ((twoStores d1 d2).block 1).values ∧ ((twoStores d1 d2).value v).op = .phi) := by
    rintro v ⟨hv, hphi⟩
    obtain ⟨-, hlt⟩ := twoStores_items d1 d2 hv
    interval_cases v <;> cases hphi
  have hedge : (twoStores d1 d2).Edge 0 1 := mem_singleton_self 0
  have hnext := Flow.Visits.enter h5 hedge (.edge (rfl : ((twoStores d1 d2).block 1).preds[0]? = some 0))
  refine ⟨_, hnext, ?_, ?_, ?_⟩
  · dsimp only
    rw [if_neg (hnone 0)]
    rfl
  · dsimp only
    rw [if_neg (hnone 1)]
    rfl
  rw [(twoStores_address d1 d2 rfl).1, (twoStores_address d1 d2 rfl).2.1]
  change writeBytes (writeBytes _ d1 (accessBytes 64) x) d2 (accessBytes 64) y = _
  rw [wordType.1]

theorem twoStores_load {σ : SsaMachine} (h : σ.env 0 = 0) :
    loadValue σ.env σ.mem ((twoStores d1 d2).value 5) = readBytes σ.mem d1 8 := by
  unfold loadValue ssaExtend
  rw [(twoStores_address d1 d2 h).2.2]
  change (if (64 : BitVec 64).getLsbD 9 = true then readBytes σ.mem d1 (accessBytes 64) else
    if memoryBits 64 ≥ 64 then readBytes σ.mem d1 (accessBytes 64) else _) = _
  rw [wordType.1, wordType.2, if_neg (by decide), if_pos (le_refl 64)]

end

/-- Stores at one base that do not overlap: behind the block the first load takes the first value, and the last
load the value of the one before it. -/
theorem load_reuse_agrees_twoStores : ∃ s' σ τ, ssaReuseLoads (twoStores 0 8) [0, 1] = some s' ∧
    (twoStores 0 8).Visits 1 0 σ ∧ (s'.value 5).a = some 1 ∧
      loadValue σ.env σ.mem ((twoStores 0 8).value 5) = σ.env 1 ∧
    (twoStores 0 8).Visits 1 2 τ ∧ (s'.value 7).a = some 6 ∧
      loadValue τ.env τ.mem ((twoStores 0 8).value 7) = τ.env 6 := by
  obtain ⟨s', hpass, hcopy⟩ : ∃ s', ssaReuseLoads (twoStores 0 8) [0, 1] = some s' ∧
      ((s'.value 5).op = .copy ∧ (s'.value 5).a = some 1) ∧ (s'.value 7).op = .copy ∧ (s'.value 7).a = some 6 :=
    ⟨_, rfl, ⟨rfl, rfl⟩, rfl, rfl⟩
  obtain ⟨σ, hvisits, -⟩ := twoStores_visits 0 8 3 5
  have hlater : ∃ τ, (twoStores 0 8).Visits 1 2 τ :=
    ⟨_, .step (.step hvisits rfl (.value SsaOp.noConfusion (.load rfl))) rfl (.value SsaOp.noConfusion (.load rfl))⟩
  obtain ⟨τ, hlater⟩ := hlater
  have hfit : (twoStores 0 8).StoresFit := by
    intro b v hv _
    obtain ⟨-, hlt⟩ := twoStores_items 0 8 hv
    interval_cases v <;> decide
  have hreads : ∀ {n id value : Nat} {σ : SsaMachine}, (twoStores 0 8).Visits 1 n σ →
      ((twoStores 0 8).items 1)[n]? = some id → ((twoStores 0 8).value id).op = .load → (s'.value id).op = .copy →
      (s'.value id).a = some value → loadValue σ.env σ.mem ((twoStores 0 8).value id) = σ.env value := by
    intro n id value σ hvisits hid hload hcopy ha
    obtain ⟨value', -, -, ha', hread⟩ := load_reuse_agrees (twoStores_formed 0 8) hfit (by decide)
      (fun b hb => (Option.some.inj hb).symm) hpass hvisits hid
      (fun heq => by rw [heq, hload] at hcopy; cases hcopy)
    rw [ha] at ha'
    cases ha'
    exact hread
  exact ⟨s', σ, τ, hpass, hvisits, hcopy.1.2, hreads hvisits rfl rfl hcopy.1.1 hcopy.1.2, hlater, hcopy.2.2,
    hreads hlater rfl rfl hcopy.2.1 hcopy.2.2⟩

/-- The end of the first store is past the 64-bit integers, and so the second one, 2 bytes on, counts as
apart from it. -/
theorem load_reuse_overlap : ¬ ∀ (s s' : Ssa) (order : List Nat) (b n id : Nat) (σ : SsaMachine), s.Formed → order.Nodup →
    (∀ b, order[0]? = some b → b = 0) → ssaReuseLoads s order = some s' → s.Visits b n σ →
    (s.items b)[n]? = some id → s'.value id ≠ s.value id →
    ∃ value, (s'.value id).a = some value ∧ loadValue σ.env σ.mem (s.value id) = σ.env value := by
  intro h
  obtain ⟨d1, hd1⟩ : ∃ d1, d1 = BitVec.ofNat 64 (2 ^ 63 - 4) := ⟨_, rfl⟩
  obtain ⟨d2, hd2⟩ : ∃ d2, d2 = BitVec.ofNat 64 (2 ^ 63 - 2) := ⟨_, rfl⟩
  obtain ⟨s', hpass, hcopy, ha⟩ : ∃ s', ssaReuseLoads (twoStores d1 d2) [0, 1] = some s' ∧ (s'.value 5).op = .copy ∧
      (s'.value 5).a = some 1 := by
    subst hd1 hd2
    exact ⟨_, rfl, rfl, rfl⟩
  obtain ⟨σ, hvisits, hbase, hx, hmem⟩ := twoStores_visits d1 d2 0 (BitVec.allOnes 64)
  obtain ⟨value, hvalue, hload⟩ := h _ s' [0, 1] 1 0 5 σ (twoStores_formed d1 d2) (by decide)
    (fun b hb => (Option.some.inj hb).symm) hpass hvisits rfl (fun heq => by rw [heq] at hcopy; cases hcopy)
  rw [ha] at hvalue
  cases hvalue
  rw [twoStores_load d1 d2 hbase, hx, hmem, hd1, hd2] at hload
  exact absurd hload (by decide)

end Dyn.Backend
