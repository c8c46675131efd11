import Dyn.Backend.ReadInvariant

/-!
# backend/ssa: the steps of a read

What a read does to the function is a new phi, a new definition or the end of a phi, and each
keeps the invariant of the construction.
-/

namespace Dyn.Backend

open List
open Lib Lib.Flow

variable {final now : Plan} {t : Build} {opens opens' : List SsaPending}

theorem Sound.op_open (h : Sound final now t opens) : ∀ e ∈ opens, (t.ssa.value e.phi).op = .phi :=
  fun e he => (h.opened e he).2.1

theorem Sound.lt_room (h : Sound final now t opens) {b : Nat} (hb : b < t.ssa.blocks.length) : b < 2 ^ 32 := by
  have hlength := h.shaped.length
  have hpart := h.part.length
  have hroom := h.part.room
  omega

/-- What a step keeps carries the invariant to what it does not change. -/
theorem Sound.step (h : Sound final now t opens) {now' : Plan} {t' : Build}
    (hlater : Keeps final t.ssa opens t'.ssa opens')
    (part : Part final now') (shaped : Shaped now' t'.ssa) (defs : DefsOk t'.ssa) (copies : CopiesEnd t'.ssa)
    (length : t.ssa.blocks.length ≤ t'.ssa.blocks.length)
    (opened : ∀ e ∈ opens', e ∈ opens ∨ (e.phi < t'.ssa.values.length ∧ (t'.ssa.value e.phi).op = .phi ∧
      (t'.ssa.value e.phi).block = e.block ∧ e.block < t'.ssa.blocks.length ∧
      (final.Reached e.block → final.Needed e.var e.block) ∧ ssaDefined t'.ssa e.var e.block ≠ none))
    (still : ∀ e ∈ opens, e ∈ opens' → (t'.ssa.value e.phi).op = .phi)
    (homes : ∀ e ∈ opens, (t'.ssa.value e.phi).block = (t.ssa.value e.phi).block)
    (distinct : (opens'.map SsaPending.phi).Nodup) (waiting : ∀ e ∈ t'.ssa.pending, e ∈ opens')
    (phis : ∀ phi < t'.ssa.values.length, t.ssa.values.length ≤ phi →
      (t'.ssa.value phi).op = .phi ∨ (t'.ssa.value phi).op = .copy → ∃ e ∈ opens', e.phi = phi)
    (still_defined : ∀ x b, ssaDefined t.ssa x b ≠ none → ssaDefined t'.ssa x b ≠ none)
    (table : ∀ x b v, final.Reached b → ssaDefined t'.ssa x b = some v →
      (∃ w, ssaDefined t.ssa x b = some w ∧ root t'.ssa w = root t'.ssa v ∧
        lastWrite x (blockLog t'.log b) = lastWrite x (blockLog t.log b)) ∨
        (Current final t'.ssa opens' (blockLog t'.log b) b x v ∧ Available final t'.ssa b v))
    (wrote : ∀ b x, (b, x) ∈ now'.written ↔ lastWrite x (blockLog t'.log b) ≠ none)
    (held : ∀ b x, (b, x) ∈ now'.written → (b, x) ∈ now.written ∨ ssaDefined t'.ssa x b ≠ none)
    (log : ∀ b, blockLog t.log b <+: blockLog t'.log b)
    (handles : t'.handles.length = now'.homes.length)
    (handle : ∀ k home id : Nat, now'.homes[k]? = some home → t'.handles[k]? = some id → final.Reached home →
      (now.homes[k]? = some home ∧ t.handles[k]? = some id) ∨ (Available final t'.ssa home id ∧
        (.define id ∈ blockLog t'.log home ∨ ∃ x, .read x id ∈ blockLog t'.log home)))
    (events : ∀ b earlier e later, final.Reached b → blockLog t'.log b = earlier ++ e :: later →
      (∃ later', blockLog t.log b = earlier ++ e :: later') ∨ EventOk final t'.ssa opens' earlier b e) :
    Sound final now' t' opens' := by
  refine ⟨part, shaped, defs, copies, fun e he => ?_, distinct, waiting, fun phi hphi hop => ?_, ?_, wrote,
    fun b x hw => (held b x hw).elim (fun hold => still_defined x b (h.held b x hold)) id, ⟨handles, ?_⟩, ?_⟩
  · rcases opened e he with hold | hnew
    · obtain ⟨hlt, -, hblock, hin, hneeded, hdefined⟩ := h.opened e hold
      exact ⟨Nat.lt_of_lt_of_le hlt hlater.values, still e hold he, (homes e hold).trans hblock,
        Nat.lt_of_lt_of_le hin length, hneeded, still_defined _ _ hdefined⟩
    · exact hnew
  · rcases Nat.lt_or_ge phi t.ssa.values.length with hlt | hge
    · by_cases hclosed : ∃ e ∈ opens, e.phi = phi
      · obtain ⟨e, he, rfl⟩ := hclosed
        rcases hlater.opened e he with he' | hf
        · exact .inl ⟨e, he', rfl⟩
        refine .inr fun hreached => ?_
        rw [homes e he, (h.opened e he).2.2.1] at hreached ⊢
        exact ⟨e.var, (h.opened e he).2.2.2.2.1 hreached, hf⟩
      have hne : ∀ e ∈ opens, e.phi ≠ phi := fun e he heq => hclosed ⟨e, he, heq⟩
      obtain ⟨hblock, -, hop', -⟩ := hlater.closed phi hlt hne
      rw [hop'] at hop
      rcases h.phis phi hlt hop with hopen | hfinished
      · exact absurd hopen hclosed
      refine .inr fun hreached => ?_
      rw [hblock] at hreached ⊢
      obtain ⟨x, hneeded, hf⟩ := hfinished hreached
      exact ⟨x, hneeded, hf.later hlater⟩
    · exact .inl (phis phi hphi hge hop)
  · intro x b v hb hv
    rcases table x b v hb hv with ⟨w, hw, hroot, hlast⟩ | hnew
    · obtain ⟨hcurrent, havailable⟩ := h.table x b w hb hw
      refine ⟨?_, (hlater.available b w hb havailable).congr hroot⟩
      have hcurrent' := (hcurrent.later hlater).congr hroot
      unfold Current at hcurrent' ⊢
      rw [hlast]
      exact hcurrent'
    · exact hnew
  · intro k home id hhome hid hreached
    rcases handle k home id hhome hid hreached with ⟨hhome', hid'⟩ | hnew
    · obtain ⟨havailable, hwhere⟩ := h.homes.2 k home id hhome' hid' hreached
      exact ⟨hlater.available home id hreached havailable,
        hwhere.imp (fun hmem => (log home).subset hmem) fun ⟨x, hmem⟩ => ⟨x, (log home).subset hmem⟩⟩
    · exact hnew
  · intro b earlier e later hb hlog
    rcases events b earlier e later hb hlog with ⟨later', hold⟩ | hnew
    · exact (h.events b earlier e later' hb hold).later hb h.op_open hlater
    · exact hnew

/-- A step inside of a call leaves the plan, the log and the results. -/
theorem Sound.later (h : Sound final now t opens) {s' : Ssa} (hlater : Keeps final t.ssa opens s' opens')
    (shaped : Shaped now s') (defs : DefsOk s') (copies : CopiesEnd s')
    (opened : ∀ e ∈ opens', e ∈ opens ∨ (e.phi < s'.values.length ∧ (s'.value e.phi).op = .phi ∧
      (s'.value e.phi).block = e.block ∧ e.block < s'.blocks.length ∧
      (final.Reached e.block → final.Needed e.var e.block) ∧ ssaDefined s' e.var e.block ≠ none))
    (still : ∀ e ∈ opens, e ∈ opens' → (s'.value e.phi).op = .phi)
    (homes : ∀ e ∈ opens, (s'.value e.phi).block = (t.ssa.value e.phi).block)
    (distinct : (opens'.map SsaPending.phi).Nodup) (waiting : ∀ e ∈ s'.pending, e ∈ opens')
    (phis : ∀ phi < s'.values.length, t.ssa.values.length ≤ phi → (s'.value phi).op = .phi ∨ (s'.value phi).op = .copy →
      ∃ e ∈ opens', e.phi = phi)
    (still_defined : ∀ x b, ssaDefined t.ssa x b ≠ none → ssaDefined s' x b ≠ none)
    (table : ∀ x b v, final.Reached b → ssaDefined s' x b = some v →
      (∃ w, ssaDefined t.ssa x b = some w ∧ root s' w = root s' v) ∨
        (Current final s' opens' (blockLog t.log b) b x v ∧ Available final s' b v)) :
    Sound final now { t with ssa := s' } opens' := by
  refine h.step hlater h.part shaped defs copies ?_ opened still homes distinct waiting phis still_defined
    (fun x b v hb hv => ?_) h.wrote (fun b x hw => .inl hw) (fun b => prefix_refl _) h.homes.1
    (fun k home id hhome hid _ => .inl ⟨hhome, hid⟩) fun b earlier e later _ hlog => .inl ⟨later, hlog⟩
  · exact Nat.le_of_eq (h.shaped.length.trans shaped.length.symm)
  rcases table x b v hb hv with ⟨w, hw, hroot⟩ | hnew
  · exact .inl ⟨w, hw, hroot, rfl⟩
  · exact .inr hnew

variable {s : Ssa} {e : SsaPending}

theorem value_appended {t : Ssa} {v : SsaValue} (h : t.values = s.values ++ [v]) (i : Nat) :
    t.value i = if i = s.values.length then v else s.value i := by
  unfold Ssa.value
  rw [h, getD_eq_getElem?_getD, getD_eq_getElem?_getD]
  rcases Nat.lt_trichotomy i s.values.length with hlt | rfl | hgt
  · rw [getElem?_append_left hlt, if_neg (by omega)]
  · rw [getElem?_append_right (Nat.le_refl _), if_pos rfl, Nat.sub_self]
    rfl
  · rw [if_neg (by omega), getElem?_eq_none (by simp; omega), getElem?_eq_none (by omega)]

theorem CopiesEnd.append {s s' : Ssa} (h : CopiesEnd s) {v : SsaValue} (hvalues : s'.values = s.values ++ [v])
    (hop : v.op ≠ .copy) : CopiesEnd s' ∧ ∀ u, root s' u = root s u := by
  refine h.congr fun u => ?_
  rw [value_appended hvalues]
  split_ifs
  · have hout : s.value u = default := value_outside (by omega)
    rw [hout]
    exact ⟨iff_of_false hop (by decide), fun hcopy => absurd hcopy (by decide)⟩
  · exact ⟨Iff.rfl, fun _ => rfl⟩

theorem Keeps.append {s s' : Ssa} (h : CopiesEnd s) {v : SsaValue} (hvalues : s'.values = s.values ++ [v])
    (hop : v.op ≠ .copy) (hlists : s'.lists = s.lists) (hdefs : s'.defs = s.defs)
    (hblocks : ∀ b, (s'.block b).sealed = (s.block b).sealed ∧ (s'.block b).preds = (s.block b).preds)
    (hopens : ∀ e ∈ opens, e ∈ opens') (hnew : ∀ e ∈ opens', e ∈ opens ∨ s.values.length ≤ e.phi) :
    Keeps final s opens s' opens' := by
  obtain ⟨-, hroot⟩ := h.append hvalues hop
  refine ⟨fun u w huw => ?_, fun b u _ hu => ?_, fun b hb => ?_, fun x p w _ _ hw => ⟨w, ?_, rfl⟩, ?_,
    fun phi hphi hclosed => ?_, ?_, fun e he => .inl (hopens e he)⟩
  · rw [hroot, hroot]
    exact huw
  · obtain ⟨hlt, hdom⟩ := hu
    unfold Available
    rw [hroot, value_appended hvalues, if_neg (by omega), hvalues, length_append]
    exact ⟨by omega, hdom⟩
  · rw [(hblocks b).1, (hblocks b).2]
    exact ⟨hb, rfl⟩
  · rw [ssaDefined_congr hdefs]
    exact hw
  · rw [hvalues, length_append]
    omega
  · rw [value_appended hvalues, if_neg (by omega)]
    refine ⟨rfl, rfl, rfl, fun e he heq => ?_⟩
    rcases hnew e he with hold | hge
    · exact hclosed e hold heq
    · omega
  · rewrite [hlists]
    exact prefix_refl _

theorem ssaNewPhi_values (s : Ssa) (b : Nat) (cls : SsaClass) :
    (ssaNewPhi s b cls).1.values = s.values ++ [{ op := .phi, cls := cls, block := b, effect := SsaOp.phi.hasEffect }] ∧
      (ssaNewPhi s b cls).2 = s.values.length := ⟨rfl, rfl⟩

theorem updateBlock_keeps (s : Ssa) (b : Nat) (change : SsaBlock → SsaBlock)
    (hkeep : ∀ blk, (change blk).sealed = blk.sealed ∧ (change blk).preds = blk.preds) (c : Nat) :
    ((s.updateBlock b change).block c).sealed = (s.block c).sealed ∧
      ((s.updateBlock b change).block c).preds = (s.block c).preds := by
  by_cases hc : c = b
  · subst hc
    by_cases hin : c < s.blocks.length
    · rw [Ssa.updateBlock_self hin]
      exact hkeep _
    · rw [Ssa.updateBlock_outside hin]
      exact ⟨rfl, rfl⟩
  · rw [Ssa.updateBlock_other hc]
    exact ⟨rfl, rfl⟩

theorem ssaNewPhi_block (s : Ssa) (b : Nat) (cls : SsaClass) (c : Nat) :
    ((ssaNewPhi s b cls).1.block c).sealed = (s.block c).sealed ∧
      ((ssaNewPhi s b cls).1.block c).preds = (s.block c).preds :=
  updateBlock_keeps (ssaValue s b .phi cls none none none 0 0).1 b
    (fun blk => { blk with values := s.values.length :: blk.values }) (fun _ => ⟨rfl, rfl⟩) c

theorem Shaped.congr {s' : Ssa} (h : Shaped now s) (hlength : s'.blocks.length = s.blocks.length)
    (hblocks : ∀ b, (s'.block b).sealed = (s.block b).sealed ∧ (s'.block b).preds = (s.block b).preds)
    (hcurrent : s'.current = s.current) : Shaped now s' := by
  refine ⟨hlength.trans h.length, fun b => ?_, fun b => ?_, hcurrent.trans h.current⟩
  · rw [(hblocks b).2]
    exact h.preds b
  · rw [(hblocks b).1]
    exact h.sealed b

theorem Keeps.refl (h : ∀ e ∈ opens, e ∈ opens') (h' : ∀ e ∈ opens', e ∈ opens) (s : Ssa) :
    Keeps final s opens s opens' :=
  ⟨fun _ _ huw => huw, fun _ _ _ hv => hv, fun _ hb => ⟨hb, rfl⟩, fun _ _ w _ _ hw => ⟨w, hw, rfl⟩,
    Nat.le_refl _, fun _ _ hclosed => ⟨rfl, rfl, rfl, fun e he => hclosed e (h' e he)⟩, prefix_refl _,
    fun e he => .inl (h e he)⟩

theorem Keeps.trans {s1 s2 s3 : Ssa} {opens1 opens2 opens3 : List SsaPending}
    (h : Keeps final s1 opens1 s2 opens2) (h' : Keeps final s2 opens2 s3 opens3) :
    Keeps final s1 opens1 s3 opens3 := by
  refine ⟨fun u w huw => h'.roots u w (h.roots u w huw), fun b v hb hv => h'.available b v hb (h.available b v hb hv),
    fun b hb => ?_, fun x p w hp hfeeds hw => ?_, Nat.le_trans h.values h'.values, fun phi hphi hclosed => ?_,
    h.lists.trans h'.lists, fun e he => ?_⟩
  · obtain ⟨hsealed, hpreds⟩ := h.preds b hb
    obtain ⟨hsealed', hpreds'⟩ := h'.preds b hsealed
    exact ⟨hsealed', hpreds'.trans hpreds⟩
  · obtain ⟨w', hw', hroot⟩ := h.defined x p w hp hfeeds hw
    obtain ⟨c, hc, hmem⟩ := hfeeds
    obtain ⟨hsealed, hpreds⟩ := h.preds c hc
    obtain ⟨w'', hw'', hroot'⟩ := h'.defined x p w' hp ⟨c, hsealed, hpreds ▸ hmem⟩ hw'
    exact ⟨w'', hw'', hroot'.trans (h'.roots _ _ hroot)⟩
  · obtain ⟨hblock, hlist, hop, hclosed'⟩ := h.closed phi hphi hclosed
    obtain ⟨hblock', hlist', hop', hclosed''⟩ := h'.closed phi (Nat.lt_of_lt_of_le hphi h.values) hclosed'
    exact ⟨hblock'.trans hblock, hlist'.trans hlist, hop'.trans hop, hclosed''⟩
  · rcases h.opened e he with he' | hf
    · exact h'.opened e he'
    · exact .inr (hf.later h')

theorem ssaDefine_value (s : Ssa) (x b v u : Nat) : (ssaDefine s x b v).value u = s.value u := by
  unfold Ssa.value
  rw [(ssaDefine_fields s x b v).1]

theorem ssaDefine_copies (h : CopiesEnd s) (x b v : Nat) :
    CopiesEnd (ssaDefine s x b v) ∧ ∀ u, root (ssaDefine s x b v) u = root s u :=
  h.congr fun u => ⟨by rw [ssaDefine_value], fun _ => by rw [ssaDefine_value]⟩

/-- A definition that stands for the same value as the one before changes nothing that is known. -/
theorem Keeps.define {s : Ssa} (hpart : Part final now) (hdefs : DefsOk s) (hcopies : CopiesEnd s) {x b v : Nat}
    (hb : b < 2 ^ 32) (hsame : final.Reached b → (∃ c, (s.block c).sealed = true ∧ b ∈ (s.block c).preds) →
      ∀ w, ssaDefined s x b = some w → root s w = root s v) :
    Keeps final s opens (ssaDefine s x b v) opens := by
  obtain ⟨hvalues, hblocks, hlists, -, -⟩ := ssaDefine_fields s x b v
  obtain ⟨-, hget⟩ := ssaDefine_spec hdefs x b v
  obtain ⟨-, hroot⟩ := ssaDefine_copies hcopies x b v
  refine ⟨fun u w huw => ?_, fun c u _ hu => ?_, fun c hc => ?_, fun y p w hp hfeeds hw => ?_, ?_,
    fun phi _ hclosed => ?_, ?_, fun e he => .inl he⟩
  · rw [hroot, hroot]
    exact huw
  · unfold Available
    rw [hroot, ssaDefine_value, hvalues]
    exact hu
  · rw [Ssa.block_congr hblocks]
    exact ⟨hc, rfl⟩
  · by_cases hkey : defKey y p = defKey x b
    · obtain ⟨rfl, rfl⟩ := defKey_inj (hpart.reached_lt hp) hb hkey
      refine ⟨v, ?_, ?_⟩
      · rw [hget, if_pos rfl]
      · rw [hroot, hroot]
        exact (hsame hp hfeeds w hw).symm
    refine ⟨w, ?_, rfl⟩
    rw [hget, if_neg hkey]
    exact hw
  · rewrite [hvalues]
    exact Nat.le_refl _
  · rw [ssaDefine_value]
    exact ⟨rfl, rfl, rfl, hclosed⟩
  · rewrite [hlists]
    exact prefix_refl _

theorem Sound.define (h : Sound final now t opens) {x b v : Nat} (hb : b < t.ssa.blocks.length)
    (hcurrent : final.Reached b →
      Current final t.ssa opens (blockLog t.log b) b x v ∧ Available final t.ssa b v)
    (hsame : final.Reached b → ∀ w, ssaDefined t.ssa x b = some w → root t.ssa w = root t.ssa v) :
    Sound final now { t with ssa := ssaDefine t.ssa x b v } opens := by
  obtain ⟨hvalues, hblocks, -, hpending, hcur⟩ := ssaDefine_fields t.ssa x b v
  obtain ⟨hdefs, hget⟩ := ssaDefine_spec h.defs x b v
  have hvalue := ssaDefine_value t.ssa x b v
  have hblock := Ssa.block_congr hblocks
  have hlater : Keeps final t.ssa opens (ssaDefine t.ssa x b v) opens :=
    .define h.part h.defs h.copies (h.lt_room hb) fun hreached _ => hsame hreached
  refine h.later hlater (h.shaped.congr (by rw [hblocks]) (fun c => ?_) hcur) hdefs
    (ssaDefine_copies h.copies x b v).1 (fun e he => .inl he) (fun e he _ => ?_) (fun e he => ?_) h.distinct
    (fun e he => ?_) (fun phi hphi hge _ => ?_) (fun y c hne => ?_) fun y c u hc hu => ?_
  · rw [hblock]
    exact ⟨rfl, rfl⟩
  · rw [hvalue]
    exact h.op_open e he
  · rw [hvalue]
  · rw [hpending] at he
    exact h.waiting e he
  · rw [hvalues] at hphi
    omega
  · rw [hget]
    split
    · exact Option.some_ne_none _
    · exact hne
  rw [hget] at hu
  split_ifs at hu with hkey
  · cases hu
    obtain ⟨rfl, rfl⟩ := defKey_inj (h.part.reached_lt hc) (h.lt_room hb) hkey
    obtain ⟨hcur', havailable⟩ := hcurrent hc
    exact .inr ⟨hcur'.later hlater, hlater.available c v hc havailable⟩
  · exact .inl ⟨u, hu, rfl⟩

/-- A new phi as the definition of a variable. -/
def enterPhi (s : Ssa) (x b : Nat) (cls : SsaClass) : Ssa := ssaDefine (ssaNewPhi s b cls).1 x b s.values.length

theorem Sound.enterPhi (h : Sound final now t opens) {x b : Nat} (cls : SsaClass) (hb : b < t.ssa.blocks.length)
    (hneeded : final.Reached b → final.Needed x b) (hnone : ssaDefined t.ssa x b = none) :
    Keeps final t.ssa opens (Backend.enterPhi t.ssa x b cls) (⟨b, x, t.ssa.values.length⟩ :: opens) ∧
      Sound final now { t with ssa := Backend.enterPhi t.ssa x b cls } (⟨b, x, t.ssa.values.length⟩ :: opens) := by
  obtain ⟨hvalues, -⟩ := ssaNewPhi_values t.ssa b cls
  have hlength : (ssaNewPhi t.ssa b cls).1.blocks.length = t.ssa.blocks.length := Ssa.updateBlock_length ..
  have hop : SsaOp.phi ≠ SsaOp.copy := by decide
  obtain ⟨hcopies, -⟩ := h.copies.append hvalues hop
  have hdefs : DefsOk (ssaNewPhi t.ssa b cls).1 := h.defs.congr rfl rfl
  obtain ⟨hvalues', hblocks', -, hpending', hcur'⟩ := ssaDefine_fields (ssaNewPhi t.ssa b cls).1 x b t.ssa.values.length
  obtain ⟨hdefs', hget⟩ := ssaDefine_spec hdefs x b t.ssa.values.length
  have hvalue : ∀ i, (Backend.enterPhi t.ssa x b cls).value i =
      if i = t.ssa.values.length then
        { op := .phi, cls := cls, block := b, effect := SsaOp.phi.hasEffect } else t.ssa.value i := by
    intro i
    rw [← value_appended hvalues]
    exact ssaDefine_value ..
  have hblock : ∀ c, ((Backend.enterPhi t.ssa x b cls).block c).sealed = (t.ssa.block c).sealed ∧
      ((Backend.enterPhi t.ssa x b cls).block c).preds = (t.ssa.block c).preds := by
    intro c
    have heq : (Backend.enterPhi t.ssa x b cls).block c = (ssaNewPhi t.ssa b cls).1.block c := Ssa.block_congr hblocks' c
    rw [heq]
    exact ssaNewPhi_block t.ssa b cls c
  have hold : ∀ e ∈ opens, (Backend.enterPhi t.ssa x b cls).value e.phi = t.ssa.value e.phi := by
    intro e he
    have hlt := (h.opened e he).1
    rw [hvalue, if_neg (by omega)]
  have hnew : Keeps final t.ssa opens (ssaNewPhi t.ssa b cls).1 (⟨b, x, t.ssa.values.length⟩ :: opens) := by
    refine .append h.copies hvalues hop rfl rfl (ssaNewPhi_block t.ssa b cls)
      (fun e he => mem_cons_of_mem _ he) fun e he => ?_
    rcases mem_cons.mp he with rfl | he
    · exact .inr (Nat.le_refl _)
    · exact .inl he
  have hlater : Keeps final t.ssa opens (Backend.enterPhi t.ssa x b cls) (⟨b, x, t.ssa.values.length⟩ :: opens) := by
    refine hnew.trans (.define h.part hdefs hcopies (h.lt_room hb) fun _ _ w hw => ?_)
    change ssaDefined t.ssa x b = some w at hw
    rw [hnone] at hw
    cases hw
  refine ⟨hlater, h.later hlater (h.shaped.congr ?_ hblock hcur') hdefs' (ssaDefine_copies hcopies x b _).1
    (fun e he => ?_) (fun e he _ => ?_) (fun e he => ?_) ?_ (fun e he => ?_) (fun phi hphi hge _ => ?_)
    (fun y c hne => ?_) fun y c v hc hv => ?_⟩
  · rw [← hlength]
    exact congrArg length hblocks'
  · rcases mem_cons.mp he with rfl | he
    · refine .inr ⟨?_, ?_, ?_, ?_, hneeded, ?_⟩
      · change t.ssa.values.length < (ssaDefine _ x b _).values.length
        rw [hvalues', hvalues, length_append]
        exact Nat.lt_succ_self _
      · rw [hvalue, if_pos rfl]
      · rw [hvalue, if_pos rfl]
      · change b < (ssaDefine _ x b _).blocks.length
        rw [hblocks', hlength]
        exact hb
      · exact fun hnone' => by cases (ssaDefined_self hdefs x b t.ssa.values.length).symm.trans hnone'
    · exact .inl he
  · rw [hold e he]
    exact h.op_open e he
  · rw [hold e he]
  · refine nodup_cons.mpr ⟨fun hmem => ?_, h.distinct⟩
    obtain ⟨e, he, heq⟩ := mem_map.mp hmem
    exact absurd heq (Nat.ne_of_lt (h.opened e he).1)
  · change e ∈ (ssaDefine _ x b _).pending at he
    rw [hpending'] at he
    exact mem_cons_of_mem _ (h.waiting e he)
  · change phi < (ssaDefine _ x b _).values.length at hphi
    rw [hvalues', hvalues, length_append, length_singleton] at hphi
    exact ⟨_, mem_cons_self, by dsimp only; omega⟩
  · change ssaDefined (ssaDefine _ x b _) y c ≠ none
    rw [hget]
    split
    · exact Option.some_ne_none _
    · exact hne
  change ssaDefined (ssaDefine _ x b _) y c = some v at hv
  rw [hget] at hv
  split_ifs at hv with hkey
  · cases hv
    obtain ⟨rfl, rfl⟩ := defKey_inj (h.part.reached_lt hc) (h.lt_room hb) hkey
    have hself : root (Backend.enterPhi t.ssa y c cls) t.ssa.values.length = t.ssa.values.length :=
      (ssaDefine_copies hcopies y c _).1.root_self (by
        change ((Backend.enterPhi t.ssa y c cls).value _).op ≠ _
        rw [hvalue, if_pos rfl]
        exact hop)
    have hunwritten : lastWrite y (blockLog t.log c) = none := by
      by_contra hw
      exact h.held c y ((h.wrote c y).mpr hw) hnone
    refine .inr ⟨?_, ?_, ?_⟩
    · unfold Current
      rw [hunwritten]
      exact ⟨hneeded hc, .opened _ mem_cons_self rfl⟩
    · rw [hself]
      change t.ssa.values.length < (ssaDefine _ y c _).values.length
      rw [hvalues', hvalues, length_append]
      exact Nat.lt_succ_self _
    · rw [hself, hvalue, if_pos rfl]
      exact Dominates.refl c
  · exact .inl ⟨v, hv, rfl⟩

theorem Sound.reshape (h : Sound final now t opens) {now' : Plan} {q : Ssa} (hvalues : q.values = t.ssa.values)
    (hlists : q.lists = t.ssa.lists) (hdefs : q.defs = t.ssa.defs) (hcount : q.defCount = t.ssa.defCount)
    (hblocks : ∀ b, (t.ssa.block b).sealed = true →
      (q.block b).sealed = true ∧ (q.block b).preds = (t.ssa.block b).preds)
    (hlength : t.ssa.blocks.length ≤ q.blocks.length) (hpart : Part final now') (hshaped : Shaped now' q)
    (hwritten : now'.written = now.written) (hhomes : now'.homes = now.homes) (hperm : opens.Perm opens')
    (hpending : ∀ e ∈ q.pending, e ∈ opens) :
    Keeps final t.ssa opens q opens' ∧ Sound final now' { t with ssa := q } opens' := by
  have hvalue : ∀ u, q.value u = t.ssa.value u := by
    intro u
    unfold Ssa.value
    rw [hvalues]
  obtain ⟨hcopies, hroot⟩ := h.copies.congr fun u =>
    ⟨by rw [hvalue u], fun _ => by rw [hvalue u]⟩
  have hlater : Keeps final t.ssa opens q opens' := by
    refine ⟨fun u w huw => ?_, fun c u _ hu => ?_, hblocks, fun y p w _ _ hw => ⟨w, ?_, rfl⟩, ?_,
      fun phi _ hclosed => ?_, ?_, fun e he => .inl (hperm.mem_iff.mp he)⟩
    · rw [hroot, hroot]
      exact huw
    · unfold Available
      rw [hroot, hvalue, hvalues]
      exact hu
    · rw [ssaDefined_congr hdefs]
      exact hw
    · rewrite [hvalues]
      exact Nat.le_refl _
    · rw [hvalue]
      exact ⟨rfl, rfl, rfl, fun e he => hclosed e (hperm.mem_iff.mpr he)⟩
    · rewrite [hlists]
      exact prefix_refl _
  refine ⟨hlater, h.step hlater hpart hshaped (h.defs.congr hdefs hcount) hcopies hlength
    (fun e he => .inl (hperm.mem_iff.mpr he)) (fun e he _ => ?_) (fun e he => ?_)
    ((hperm.map _).nodup_iff.mp h.distinct) (fun e he => hperm.mem_iff.mp (hpending e he))
    (fun phi hphi hge _ => ?_) (fun y c hne => ?_) (fun y c u hc hu => ?_) (fun b x => ?_) (fun b x hw => ?_)
    (fun b => prefix_refl _) ?_ (fun k home id hhome hid _ => ?_) fun b earlier e later _ hlog => .inl ⟨later, hlog⟩⟩
  · rw [hvalue]
    exact h.op_open e he
  · rw [hvalue]
  · rw [hvalues] at hphi
    omega
  · rw [ssaDefined_congr hdefs]
    exact hne
  · rw [ssaDefined_congr hdefs] at hu
    exact .inl ⟨u, hu, rfl, rfl⟩
  · rw [hwritten]
    exact h.wrote b x
  · rw [hwritten] at hw
    exact .inl hw
  · rw [hhomes]
    exact h.homes.1
  · rw [hhomes] at hhome
    exact .inl ⟨hhome, hid⟩

/-- Changes of what the invariant does not read, and of the order of the open phis. -/
theorem Sound.same (h : Sound final now t opens) {q : Ssa} (hvalues : q.values = t.ssa.values)
    (hblocks : q.blocks = t.ssa.blocks) (hlists : q.lists = t.ssa.lists) (hdefs : q.defs = t.ssa.defs)
    (hcount : q.defCount = t.ssa.defCount) (hcur : q.current = t.ssa.current) (hperm : opens.Perm opens')
    (hpending : ∀ e ∈ q.pending, e ∈ opens) :
    Keeps final t.ssa opens q opens' ∧ Sound final now { t with ssa := q } opens' := by
  have hblock := Ssa.block_congr hblocks
  refine h.reshape hvalues hlists hdefs hcount (fun b hb => ?_) (Nat.le_of_eq (by rw [hblocks])) h.part
    (h.shaped.congr (by rw [hblocks]) (fun c => ?_) hcur) rfl rfl hperm hpending
  · rw [hblock]
    exact ⟨hb, rfl⟩
  · rw [hblock]
    exact ⟨rfl, rfl⟩

/-- The operands of a phi as they are listed. -/
def listOperands (s : Ssa) (phi : Nat) (items : List Nat) (count : Nat) : Ssa :=
  (ssaList s items).1.updateValue phi ({ · with list := s.lists.length, count := count })

variable {phi : Nat}

theorem listOperands_value (hphi : phi < s.values.length) (items : List Nat) (count v : Nat) :
    (listOperands s phi items count).value v =
      if v = phi then { s.value phi with list := s.lists.length, count := count } else s.value v := by
  by_cases hv : v = phi
  · subst hv
    rw [if_pos rfl]
    exact Ssa.updateValue_self (s := (ssaList s items).1) hphi _
  · rw [if_neg hv]
    exact Ssa.updateValue_other (s := (ssaList s items).1) hv _

theorem listOperands_keeps (hphi : phi < s.values.length) (items : List Nat) (count v : Nat) :
    ((listOperands s phi items count).value v).op = (s.value v).op ∧
      ((listOperands s phi items count).value v).a = (s.value v).a ∧
      ((listOperands s phi items count).value v).block = (s.value v).block := by
  rw [listOperands_value hphi]
  split_ifs with hv
  · rw [hv]
    exact ⟨rfl, rfl, rfl⟩
  · exact ⟨rfl, rfl, rfl⟩

theorem Sound.listOperands (h : Sound final now t opens) (he : e ∈ opens) (items : List Nat)
    (count : Nat) :
    Keeps final t.ssa opens (Backend.listOperands t.ssa e.phi items count) opens ∧
      (∀ v, root (Backend.listOperands t.ssa e.phi items count) v = root t.ssa v) ∧
      Sound final now { t with ssa := Backend.listOperands t.ssa e.phi items count } opens := by
  have hphi := (h.opened e he).1
  have hkeeps := listOperands_keeps hphi items count
  have hlength : (Backend.listOperands t.ssa e.phi items count).values.length = t.ssa.values.length :=
    Ssa.updateValue_length ..
  obtain ⟨hcopies, hroot⟩ := h.copies.congr fun u =>
    ⟨by rw [(hkeeps u).1], fun _ => (hkeeps u).2.1⟩
  have hlater : Keeps final t.ssa opens (Backend.listOperands t.ssa e.phi items count) opens := by
    refine ⟨fun u w huw => ?_, fun c u _ hu => ?_, fun c hc => ⟨hc, rfl⟩, fun y p w _ _ hw => ⟨w, hw, rfl⟩, ?_,
      fun phi _ hclosed => ?_, prefix_append _ _, fun e he => .inl he⟩
    · rw [hroot, hroot]
      exact huw
    · unfold Available
      rw [hroot, (hkeeps _).2.2, hlength]
      exact hu
    · rewrite [hlength]
      exact Nat.le_refl _
    · rw [listOperands_value hphi, if_neg fun heq => hclosed e he heq.symm]
      exact ⟨rfl, rfl, rfl, hclosed⟩
  refine ⟨hlater, hroot, h.later hlater (h.shaped.congr rfl (fun _ => ⟨rfl, rfl⟩) rfl) (h.defs.congr rfl rfl) hcopies
    (fun e he => .inl he) (fun d hd _ => ?_) (fun d _ => (hkeeps _).2.2) h.distinct h.waiting
    (fun phi hlt hge _ => ?_) (fun y c hd => hd) fun y c u hc hu => .inl ⟨u, hu, rfl⟩⟩
  · rw [(hkeeps _).1]
    exact h.op_open d hd
  · rw [hlength] at hlt
    omega

theorem Sound.close (h : Sound final now t (e :: opens)) (hwaiting : e ∉ t.ssa.pending)
    (hf : Finished final t.ssa opens e.block e.var e.phi) :
    Keeps final t.ssa (e :: opens) t.ssa opens ∧ Sound final now t opens := by
  have hlater : Keeps final t.ssa (e :: opens) t.ssa opens := by
    refine ⟨fun _ _ huw => huw, fun _ _ _ hv => hv, fun _ hb => ⟨hb, rfl⟩, fun _ _ w _ _ hw => ⟨w, hw, rfl⟩,
      Nat.le_refl _, fun _ _ hclosed => ⟨rfl, rfl, rfl, fun d hd => hclosed d (mem_cons_of_mem _ hd)⟩,
      prefix_refl _, fun d hd => ?_⟩
    rcases mem_cons.mp hd with rfl | hd
    · exact .inr hf
    · exact .inl hd
  refine ⟨hlater, h.later hlater h.shaped h.defs h.copies (fun d hd => .inl (mem_cons_of_mem _ hd))
    (fun d hd _ => h.op_open d hd) (fun _ _ => rfl) ?_ (fun d hd => ?_) (fun phi hlt hge _ => absurd hlt (by omega))
    (fun y c hd => hd) fun y c u hc hu => .inl ⟨u, hu, rfl⟩⟩
  · have hdistinct := h.distinct
    rw [map_cons] at hdistinct
    exact (nodup_cons.mp hdistinct).2
  · exact (mem_cons.mp (h.waiting d hd)).resolve_left fun heq => hwaiting (heq ▸ hd)

/-- What the operand of a reached predecessor stands for is there at the end of the predecessor. -/
theorem Sound.operand (h : Sound final now t (e :: opens))
    (hf : Listed final t.ssa opens e.block e.var e.phi) {u : Nat} (hu : final.Reached u)
    (hedge : final.Edge u e.block) :
    ∃ i < (t.ssa.block e.block).preds.length,
      Available final t.ssa u (t.ssa.lists.getD ((t.ssa.value e.phi).list + i) 0) := by
  have hpreds : (t.ssa.block e.block).preds = final.predsOf e.block := by
    rw [h.shaped.preds, h.part.complete _ ((h.shaped.sealed _).mp hf.sealed)]
  unfold Plan.Edge at hedge
  rw [← hpreds] at hedge
  obtain ⟨i, hi, hget⟩ := getElem_of_mem hedge
  obtain ⟨w, hw, hroot⟩ := hf.operands i u (List.getElem?_eq_some_iff.mpr ⟨hi, hget⟩) hu
  exact ⟨i, hi, (h.table e.var u w hu hw).2.congr hroot⟩

/-- Not every operand of a phi in a reached block is the phi itself. -/
theorem Sound.not_self (h : Sound final now t (e :: opens))
    (hf : Listed final t.ssa opens e.block e.var e.phi) (hreached : final.Reached e.block)
    (hall : ∀ i < (t.ssa.block e.block).preds.length,
      root t.ssa (t.ssa.lists.getD ((t.ssa.value e.phi).list + i) 0) = e.phi) : False := by
  obtain ⟨-, -, hblock, -, hneeded, -⟩ := h.opened e mem_cons_self
  obtain ⟨u, hu, hedge, hnot⟩ := Flow.Reached.enters hreached (needed_ne_entry (hneeded hreached))
  obtain ⟨i, hi, -, hdom⟩ := h.operand hf hu hedge
  rw [hall i hi, hblock] at hdom
  exact hnot hdom

/-- The one value that the operands of a phi have in common is there in the block of the phi. -/
theorem Sound.common (h : Sound final now t (e :: opens))
    (hf : Listed final t.ssa opens e.block e.var e.phi) {same : Nat}
    (hall : ∀ i < (t.ssa.block e.block).preds.length,
      root t.ssa (t.ssa.lists.getD ((t.ssa.value e.phi).list + i) 0) = e.phi ∨
        root t.ssa (t.ssa.lists.getD ((t.ssa.value e.phi).list + i) 0) = same)
    (hreached : final.Reached e.block) :
    same < t.ssa.values.length ∧ final.Dominates (t.ssa.value same).block e.block := by
  obtain ⟨-, -, hblock, -, hneeded, -⟩ := h.opened e mem_cons_self
  have hentry : e.block ≠ 0 := needed_ne_entry (hneeded hreached)
  have hpred : ∀ u, final.Reached u → final.Edge u e.block →
      final.Dominates e.block u ∨ (same < t.ssa.values.length ∧ final.Dominates (t.ssa.value same).block u) := by
    intro u hu hedge
    obtain ⟨i, hi, hlt, hdom⟩ := h.operand hf hu hedge
    rcases hall i hi with hself | hsame
    · rw [hself, hblock] at hdom
      exact .inl hdom
    · rw [hsame] at hlt hdom
      exact .inr ⟨hlt, hdom⟩
  refine ⟨?_, dominates_of_preds hentry fun u hu hedge => (hpred u hu hedge).imp_right And.right⟩
  obtain ⟨u, hu, hedge, hnot⟩ := Flow.Reached.enters hreached hentry
  exact ((hpred u hu hedge).resolve_left hnot).1

def mergePhi (s : Ssa) (phi same : Nat) : Ssa :=
  s.updateValue phi ({ · with op := .copy, a := some same, count := 0 })

theorem mergePhi_other {v : Nat} (hv : v ≠ phi) (same : Nat) :
    (mergePhi s phi same).value v = s.value v := Ssa.updateValue_other hv _

theorem mergePhi_root (h : CopiesEnd s) {same : Nat} (hphi : phi < s.values.length)
    (hop : (s.value phi).op = .phi) (hne : same ≠ phi) (hsame : (s.value same).op ≠ .copy) :
    CopiesEnd (mergePhi s phi same) ∧ ∀ v, root (mergePhi s phi same) v = if root s v = phi then same else root s v := by
  have hself : (mergePhi s phi same).value phi = { s.value phi with op := .copy, a := some same, count := 0 } :=
    Ssa.updateValue_self hphi _
  refine h.merge (by rw [hop]; decide) hsame hne (by rw [hself]) (by rw [hself]) fun v hv => ?_
  rw [mergePhi_other hv]
  exact ⟨Iff.rfl, rfl⟩

theorem Sound.merge (h : Sound final now t (e :: opens)) (hwaiting : e ∉ t.ssa.pending)
    (hf : Listed final t.ssa opens e.block e.var e.phi) {same : Nat} (hne : same ≠ e.phi)
    (hsame : (t.ssa.value same).op ≠ .copy) (hall : ∀ i < (t.ssa.block e.block).preds.length,
      root t.ssa (t.ssa.lists.getD ((t.ssa.value e.phi).list + i) 0) = e.phi ∨
        root t.ssa (t.ssa.lists.getD ((t.ssa.value e.phi).list + i) 0) = same) :
    Keeps final t.ssa (e :: opens) (mergePhi t.ssa e.phi same) opens ∧
      Sound final now { t with ssa := mergePhi t.ssa e.phi same } opens := by
  obtain ⟨hphi, hop, hblock, -, -, -⟩ := h.opened e mem_cons_self
  obtain ⟨hcopies, hroot⟩ := mergePhi_root h.copies hphi hop hne hsame
  have hself : (mergePhi t.ssa e.phi same).value e.phi =
      { t.ssa.value e.phi with op := .copy, a := some same, count := 0 } := Ssa.updateValue_self hphi _
  have hlength : (mergePhi t.ssa e.phi same).values.length = t.ssa.values.length := Ssa.updateValue_length ..
  have hkeeps : ∀ v, ((mergePhi t.ssa e.phi same).value v).block = (t.ssa.value v).block ∧
      ((mergePhi t.ssa e.phi same).value v).list = (t.ssa.value v).list := by
    intro v
    by_cases hv : v = e.phi
    · rw [hv, hself]
      exact ⟨rfl, rfl⟩
    · rw [mergePhi_other hv]
      exact ⟨rfl, rfl⟩
  have hroots : ∀ u w, root t.ssa u = root t.ssa w →
      root (mergePhi t.ssa e.phi same) u = root (mergePhi t.ssa e.phi same) w := by
    intro u w huw
    rw [hroot, hroot, huw]
  have hselfRoot : root (mergePhi t.ssa e.phi same) e.phi = same := by
    rw [hroot, h.copies.root_self (by rw [hop]; decide), if_pos rfl]
  have hclosed : ∀ d ∈ opens, d.phi ≠ e.phi := by
    intro d hd heq
    have hdistinct := h.distinct
    rw [map_cons] at hdistinct
    exact (nodup_cons.mp hdistinct).1 (heq ▸ mem_map_of_mem hd)
  have hfinished : Finished final (mergePhi t.ssa e.phi same) opens e.block e.var e.phi := by
    refine ⟨⟨?_, (hkeeps _).1.trans hblock, hf.sealed, hclosed, ?_, fun i p hp hreached => ?_⟩,
      .inr ⟨by rw [hself], fun i hi => ?_⟩⟩
    · rw [hlength]
      exact hphi
    · rw [(hkeeps _).2]
      exact hf.listed
    · obtain ⟨w, hw, hw'⟩ := hf.operands i p hp hreached
      rw [(hkeeps _).2]
      exact ⟨w, hw, hroots _ _ hw'⟩
    rw [(hkeeps _).2, hselfRoot]
    change root (mergePhi t.ssa e.phi same) (t.ssa.lists.getD ((t.ssa.value e.phi).list + i) 0) = same
    rw [hroot]
    rcases hall i hi with hcase | hcase
    · rw [if_pos hcase]
    · rw [hcase, if_neg hne]
  have hlater : Keeps final t.ssa (e :: opens) (mergePhi t.ssa e.phi same) opens := by
    refine ⟨hroots, fun c u hc hu => ?_, fun c hc => ⟨hc, rfl⟩, fun y p w _ _ hw => ⟨w, hw, rfl⟩, ?_,
      fun phi _ hopen => ?_, prefix_refl _, fun d hd => ?_⟩
    · obtain ⟨hlt, hdom⟩ := hu
      unfold Available
      rw [hroot, hlength, (hkeeps _).1]
      split_ifs with hcase
      · rw [hcase, hblock] at hdom
        obtain ⟨hlt', hdom'⟩ := h.common hf hall (hdom.reached hc)
        exact ⟨hlt', hdom'.trans hdom⟩
      · exact ⟨hlt, hdom⟩
    · rewrite [hlength]
      exact Nat.le_refl _
    · have hphi' : phi ≠ e.phi := fun heq => hopen e mem_cons_self heq.symm
      rw [mergePhi_other hphi']
      exact ⟨rfl, rfl, rfl, fun d hd => hopen d (mem_cons_of_mem _ hd)⟩
    · rcases mem_cons.mp hd with rfl | hd
      · exact .inr hfinished
      · exact .inl hd
  refine ⟨hlater, h.later hlater (h.shaped.congr rfl (fun _ => ⟨rfl, rfl⟩) rfl) (h.defs.congr rfl rfl) hcopies
    (fun d hd => .inl (mem_cons_of_mem _ hd)) (fun d hd hd' => ?_) (fun d _ => (hkeeps _).1) ?_
    (fun d hd => ?_) (fun phi hlt hge _ => ?_) (fun y c hd => hd) fun y c u hc hu => .inl ⟨u, hu, rfl⟩⟩
  · rw [mergePhi_other (hclosed d hd')]
    exact h.op_open d hd
  · have hdistinct := h.distinct
    rw [map_cons] at hdistinct
    exact (nodup_cons.mp hdistinct).2
  · exact (mem_cons.mp (h.waiting d hd)).resolve_left fun heq => hwaiting (heq ▸ hd)
  · rw [hlength] at hlt
    omega

theorem commonOperand_spec (h : CopiesEnd s) (phi : Nat) : ∀ (items : List Nat) (same : Option Nat),
    (∀ m, same = some m → m ≠ phi ∧ (s.value m).op ≠ .copy) →
    ∃ c, commonOperand s phi items same = some c ∧
      (c = .different → 2 ≤ items.length + same.toList.length) ∧
      (c = .same none → same = none ∧ ∀ item ∈ items, root s item = phi) ∧
      ∀ m, c = .same (some m) → m ≠ phi ∧ (s.value m).op ≠ .copy ∧ (∀ n, same = some n → n = m) ∧
        ∀ item ∈ items, root s item = phi ∨ root s item = m := by
  intro items
  induction items with
  | nil =>
    intro same hsame
    refine ⟨_, rfl, nofun, (fun hd => ?_), fun m hm => ?_⟩
    · cases hd
      exact ⟨rfl, fun item hitem => absurd hitem not_mem_nil⟩
    cases hm
    exact ⟨(hsame m rfl).1, (hsame m rfl).2, fun n hn => (Option.some.inj hn).symm,
      fun item hitem => absurd hitem not_mem_nil⟩
  | cons item items ih =>
    intro same hsame
    unfold commonOperand
    rw [h.resolve item, length_cons]
    dsimp only [Option.bind_eq_bind, Option.bind_some]
    split_ifs with hskip
    · obtain ⟨c, hc, hdifferent, hnone, hspec⟩ := ih same hsame
      refine ⟨c, hc, fun hd => ?_, fun hn => ?_, fun m hm => ?_⟩
      · have hlength := hdifferent hd
        omega
      · obtain ⟨hsameNone, hall⟩ := hnone hn
        refine ⟨hsameNone, fun item' hitem => ?_⟩
        rcases mem_cons.mp hitem with rfl | hitem
        · exact hskip.resolve_right fun hsome => by
            rw [hsameNone] at hsome
            cases hsome
        · exact hall item' hitem
      obtain ⟨hne, hop, heq, hall⟩ := hspec m hm
      refine ⟨hne, hop, heq, fun item' hitem => ?_⟩
      rcases mem_cons.mp hitem with rfl | hitem
      · exact hskip.imp_right fun hsome => heq _ hsome.symm
      · exact hall item' hitem
    cases same with
    | some n =>
      refine ⟨_, rfl, fun _ => ?_, nofun, nofun⟩
      rw [Option.toList_some, length_singleton]
      omega
    | none =>
      have hroot : root s item ≠ phi := fun heq => hskip (.inl heq)
      obtain ⟨c, hc, hdifferent, hnone, hspec⟩ := ih (some (root s item)) fun m hm => by
        cases hm
        exact ⟨hroot, h.root_op item⟩
      refine ⟨c, hc, fun hd => ?_, fun hn => ?_, fun m hm => ?_⟩
      · have hlength := hdifferent hd
        rw [Option.toList_some, length_singleton] at hlength
        rw [Option.toList_none, length_nil]
        omega
      · cases (hnone hn).1
      obtain ⟨hne, hop, heq, hall⟩ := hspec m hm
      refine ⟨hne, hop, nofun, fun item' hitem => ?_⟩
      rcases mem_cons.mp hitem with rfl | hitem
      · exact .inr (heq _ rfl)
      · exact hall item' hitem

end Dyn.Backend
