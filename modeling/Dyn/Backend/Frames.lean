import Dyn.Backend.ReadRuns

/-!
# backend/ssa: what added code leaves alone

Code is added at the end of blocks that are still open.  The other blocks keep their values and how
they end: reads at most put phis in front of the values, and phis at most become copies.
-/

namespace Dyn.Backend

open List

def SsaValue.Merges (v : SsaValue) : Prop := v.op = .phi ∨ v.op = .copy

def SsaBlock.ends (b : SsaBlock) : SsaKind × Option Nat × Option Nat × Option Nat × Option Nat × Nat :=
  (b.kind, b.succ0, b.succ1, b.control, b.control2, b.table)

/-- The values of the list are phis put in front of a block. -/
def NewPhis (s s' : Ssa) (phis : List Nat) : Prop :=
  ∀ v ∈ phis, s.values.length ≤ v ∧ v < s'.values.length ∧ (s'.value v).Merges

/-- A block has kept its values and its end. -/
structure KeepsBlock (s s' : Ssa) (b : Nat) : Prop where
  ends : (s'.block b).ends = (s.block b).ends
  values : ∃ phis, (s'.block b).values = phis ++ (s.block b).values ∧ NewPhis s s' phis

/-- The phis whose operands are read later are phis. -/
def Waits (s : Ssa) : Prop := ∀ p ∈ s.pending, p.phi < s.values.length ∧ (s.value p.phi).Merges

/-- What later code leaves of a function; the blocks of `closed` have ended. -/
structure Leaves (closed : Nat → Prop) (s s' : Ssa) : Prop where
  length : s.values.length ≤ s'.values.length
  value : ∀ v < s.values.length, ¬ (s.value v).Merges → s'.value v = s.value v
  merges : ∀ v < s.values.length, (s.value v).Merges → (s'.value v).Merges
  lists : s.lists <+: s'.lists
  blocks : s.blocks.length ≤ s'.blocks.length
  preds : ∀ b, (s.block b).preds <+: (s'.block b).preds
  kept : ∀ b < s.blocks.length, closed b → KeepsBlock s s' b
  unsupported : s.unsupported = true → s'.unsupported = true
  waits : Waits s → Waits s'

section

variable {closed closed' : Nat → Prop} {s s' s1 s2 s3 : Ssa}

theorem NewPhis.nil (s s' : Ssa) : NewPhis s s' [] := forall_mem_nil _

variable {b : Nat} {read : Ssa → Nat → Option (Ssa × Nat)}

theorem KeepsBlock.of_eq (h : s'.block b = s.block b) : KeepsBlock s s' b := by
  constructor
  · rw [h]
  · rw [h]
    exact ⟨[], rfl, NewPhis.nil s s'⟩

theorem Leaves.refl (closed : Nat → Prop) (s : Ssa) : Leaves closed s s :=
  ⟨Nat.le_refl _, fun _ _ _ => rfl, fun _ _ hm => hm, prefix_refl _, Nat.le_refl _,
    fun _ => prefix_refl _, fun _ _ _ => .of_eq rfl, fun h => h, fun h => h⟩

theorem KeepsBlock.trans (h : KeepsBlock s1 s2 b) (h' : KeepsBlock s2 s3 b)
    (hlength : s1.values.length ≤ s2.values.length) (hlength' : s2.values.length ≤ s3.values.length)
    (hmerges : ∀ v < s2.values.length, (s2.value v).Merges → (s3.value v).Merges) :
    KeepsBlock s1 s3 b := by
  obtain ⟨phis, hvalues, hphis⟩ := h.values
  obtain ⟨phis', hvalues', hphis'⟩ := h'.values
  refine ⟨h'.ends.trans h.ends, phis' ++ phis, ?_, fun v hv => ?_⟩
  · rw [hvalues', hvalues, append_assoc]
  rcases mem_append.mp hv with hmem | hmem
  · obtain ⟨hle, hlt, hm⟩ := hphis' v hmem
    exact ⟨Nat.le_trans hlength hle, hlt, hm⟩
  · obtain ⟨hle, hlt, hm⟩ := hphis v hmem
    exact ⟨hle, Nat.lt_of_lt_of_le hlt hlength', hmerges v hlt hm⟩

theorem Leaves.comp (h : Leaves closed s1 s2) (h' : Leaves closed' s2 s3)
    (hclosed : ∀ b < s1.blocks.length, closed b → closed' b) : Leaves closed s1 s3 := by
  refine ⟨Nat.le_trans h.length h'.length, fun v hv hm => ?_, fun v hv hm => ?_, h.lists.trans h'.lists,
    Nat.le_trans h.blocks h'.blocks, fun b => (h.preds b).trans (h'.preds b), fun b hb hc => ?_,
    fun hu => h'.unsupported (h.unsupported hu), fun hw => h'.waits (h.waits hw)⟩
  · have hvalue := h.value v hv hm
    rw [h'.value v (Nat.lt_of_lt_of_le hv h.length) (hvalue.symm ▸ hm), hvalue]
  · exact h'.merges v (Nat.lt_of_lt_of_le hv h.length) (h.merges v hv hm)
  · exact (h.kept b hb hc).trans (h'.kept b (Nat.lt_of_lt_of_le hb h.blocks) (hclosed b hb hc)) h.length h'.length
      h'.merges

theorem Leaves.trans (h : Leaves closed s1 s2) (h' : Leaves closed s2 s3) : Leaves closed s1 s3 :=
  h.comp h' fun _ _ hc => hc

theorem Leaves.mono (h : Leaves closed s s') (hclosed : ∀ b < s.blocks.length, closed' b → closed b) :
    Leaves closed' s s' :=
  { h with kept := fun b hb hc => h.kept b hb (hclosed b hb hc) }

theorem Leaves.change (closed : Nat → Prop) (hvalues : s'.values = s.values) (hblocks : s'.blocks = s.blocks)
    (hlists : s.lists <+: s'.lists)
    (hpending : ∀ p ∈ s'.pending, p ∈ s.pending ∨ p.phi < s.values.length ∧ (s.value p.phi).Merges)
    (hunsupported : s.unsupported = true → s'.unsupported = true) : Leaves closed s s' := by
  have hvalue : ∀ v, s'.value v = s.value v := fun v => by
    unfold Ssa.value
    rw [hvalues]
  have hblock := Ssa.block_congr hblocks
  refine ⟨Nat.le_of_eq (by rw [hvalues]), fun v _ _ => hvalue v, fun v _ hm => (hvalue v).symm ▸ hm, hlists,
    Nat.le_of_eq (by rw [hblocks]), fun b => ?_, fun b _ _ => .of_eq (hblock b), hunsupported, fun hw p hp => ?_⟩
  · rewrite [hblock]
    exact prefix_refl _
  rw [hvalues, hvalue]
  rcases hpending p hp with hold | hnew
  · exact hw p hold
  · exact hnew

theorem Leaves.same (closed : Nat → Prop) (hvalues : s'.values = s.values) (hblocks : s'.blocks = s.blocks)
    (hlists : s'.lists = s.lists) (hpending : s'.pending = s.pending)
    (hunsupported : s.unsupported = true → s'.unsupported = true) : Leaves closed s s' :=
  .change closed hvalues hblocks (hlists ▸ prefix_refl _) (fun _ hp => .inl (hpending ▸ hp)) hunsupported

theorem Leaves.append (closed : Nat → Prop) {v : SsaValue} (hvalues : s'.values = s.values ++ [v])
    (hblocks : s'.blocks = s.blocks) (hlists : s'.lists = s.lists) (hpending : s'.pending = s.pending)
    (hunsupported : s'.unsupported = s.unsupported) : Leaves closed s s' := by
  have hlength : s'.values.length = s.values.length + 1 := by
    rw [hvalues, length_append, length_singleton]
  have hold : ∀ i < s.values.length, s'.value i = s.value i := fun i hi => by
    rw [value_appended hvalues, if_neg (Nat.ne_of_lt hi)]
  have hblock := Ssa.block_congr hblocks
  refine ⟨by omega, fun i hi _ => hold i hi, fun i hi hm => (hold i hi).symm ▸ hm, ?_,
    Nat.le_of_eq (by rw [hblocks]), fun b => ?_, fun b _ _ => .of_eq (hblock b), fun hu => hunsupported.trans hu,
    fun hw p hp => ?_⟩
  · rewrite [hlists]
    exact prefix_refl _
  · rewrite [hblock]
    exact prefix_refl _
  rw [hpending] at hp
  obtain ⟨hlt, hm⟩ := hw p hp
  exact ⟨by omega, (hold _ hlt).symm ▸ hm⟩

/-- A block that changes, and is not one of those that have ended. -/
theorem Leaves.updateBlock {change : SsaBlock → SsaBlock}
    (hb : closed b → ∀ blk, (change blk).ends = blk.ends ∧ (change blk).values = blk.values)
    (hpreds : ∀ blk, blk.preds <+: (change blk).preds) :
    Leaves closed s (s.updateBlock b change) := by
  refine ⟨Nat.le_refl _, fun _ _ _ => rfl, fun _ _ hm => hm, prefix_refl _,
    Nat.le_of_eq (Ssa.updateBlock_length s b change).symm, fun c => ?_, fun c hc hclosed => ?_, fun h => h, fun h => h⟩
  · by_cases hcb : c = b
    · subst hcb
      by_cases hc : c < s.blocks.length
      · rw [Ssa.updateBlock_self hc]
        exact hpreds _
      · rewrite [Ssa.updateBlock_outside hc]
        exact prefix_refl _
    · rewrite [Ssa.updateBlock_other hcb]
      exact prefix_refl _
  by_cases hcb : c = b
  · subst hcb
    obtain ⟨hends, hvalues⟩ := hb hclosed (s.block c)
    constructor
    · rw [Ssa.updateBlock_self hc]
      exact hends
    · rw [Ssa.updateBlock_self hc]
      exact ⟨[], hvalues, NewPhis.nil s _⟩
  · exact .of_eq (Ssa.updateBlock_other hcb change)

theorem Leaves.updateValue (closed : Nat → Prop) {phi : Nat} {change : SsaValue → SsaValue}
    (hphi : (s.value phi).Merges) (hchange : ∀ v, v.Merges → (change v).Merges) :
    Leaves closed s (s.updateValue phi change) := by
  have hmerges : ∀ v < s.values.length, (s.value v).Merges → ((s.updateValue phi change).value v).Merges := by
    intro v hv hm
    by_cases heq : v = phi
    · subst heq
      rw [Ssa.updateValue_self hv]
      exact hchange _ hm
    · rw [Ssa.updateValue_other heq]
      exact hm
  refine ⟨Nat.le_of_eq (Ssa.updateValue_length s phi change).symm, fun v _ hm => ?_, hmerges, prefix_refl _,
    Nat.le_refl _, fun _ => prefix_refl _, fun b _ _ => .of_eq rfl, fun h => h, fun hw p hp => ?_⟩
  · refine Ssa.updateValue_other (fun heq => ?_) change
    rw [heq] at hm
    exact hm hphi
  · obtain ⟨hlt, hm⟩ := hw p hp
    exact ⟨Nat.lt_of_lt_of_eq hlt (Ssa.updateValue_length s phi change).symm, hmerges _ hlt hm⟩

theorem Leaves.define (closed : Nat → Prop) (s : Ssa) (x b v : Nat) : Leaves closed s (ssaDefine s x b v) := by
  obtain ⟨hvalues, hblocks, hlists, hpending, -⟩ := ssaDefine_fields s x b v
  refine .same closed hvalues hblocks hlists hpending fun h => ?_
  unfold ssaDefine growDefs
  split <;> exact h

theorem Leaves.newPhi (closed : Nat → Prop) (s : Ssa) (b : Nat) (cls : SsaClass) :
    Leaves closed s (ssaNewPhi s b cls).1 := by
  have hgrown : Leaves closed s (ssaValue s b .phi cls none none none 0 0).1 := .append closed rfl rfl rfl rfl rfl
  have hopen : Leaves (fun c => closed c ∧ c ≠ b) (ssaValue s b .phi cls none none none 0 0).1 (ssaNewPhi s b cls).1 :=
    .updateBlock (fun hc => absurd rfl hc.2) fun _ => prefix_refl _
  have hleaves : Leaves (fun c => closed c ∧ c ≠ b) s (ssaNewPhi s b cls).1 :=
    (hgrown.mono fun _ _ hc => hc.1).trans hopen
  refine { hleaves with kept := fun c hc hclosed => ?_ }
  by_cases hcb : c = b
  · subst hcb
    have hblock : (ssaNewPhi s c cls).1.block c =
        { (s.block c) with values := s.values.length :: (s.block c).values } :=
      Ssa.updateBlock_self (s := (ssaValue s c .phi cls none none none 0 0).1) hc _
    refine ⟨by rw [hblock]; rfl, [s.values.length], by rw [hblock]; rfl, fun v hv => ?_⟩
    rw [mem_singleton.mp hv]
    refine ⟨Nat.le_refl _, ?_, .inl ?_⟩
    · rw [(ssaNewPhi_values s c cls).1, length_append, length_singleton]
      exact Nat.lt_succ_self _
    · rw [value_appended (ssaNewPhi_values s c cls).1, if_pos rfl]
  · exact hleaves.kept c hc ⟨hclosed, hcb⟩

theorem newPhi_merges (s : Ssa) (b : Nat) (cls : SsaClass) :
    s.values.length < (ssaNewPhi s b cls).1.values.length ∧
      ((ssaNewPhi s b cls).1.value s.values.length).Merges := by
  refine ⟨?_, .inl ?_⟩
  · rw [(ssaNewPhi_values s b cls).1, length_append, length_singleton]
    exact Nat.lt_succ_self _
  · rw [value_appended (ssaNewPhi_values s b cls).1, if_pos rfl]

theorem Leaves.readOperands (hread : ∀ s p s' v, read s p = some (s', v) → Leaves closed s s') :
    ∀ (preds : List Nat) (s s' : Ssa) (items : List Nat),
      readOperands read preds s = some (s', items) → Leaves closed s s' := by
  intro preds
  induction preds with
  | nil =>
    intro s s' items h
    cases h
    exact .refl closed s
  | cons p preds ih =>
    intro s s' items h
    obtain ⟨⟨s1, item⟩, hfirst, h⟩ := Option.bind_eq_some_iff.mp h
    obtain ⟨⟨s2, items'⟩, hrest, h⟩ := Option.bind_eq_some_iff.mp h
    cases h
    exact (hread s p s1 item hfirst).trans (ih s1 s' items' hrest)

theorem Leaves.phiOperands (hread : ∀ s p s' v, read s p = some (s', v) → Leaves closed s s')
    {s s' : Ssa} {phi v : Nat} (hlt : phi < s.values.length) (hphi : (s.value phi).Merges)
    (h : ssaPhiOperands read s phi = some (s', v)) : Leaves closed s s' := by
  rw [ssaPhiOperands_eq] at h
  obtain ⟨⟨s1, items⟩, hread', h⟩ := Option.bind_eq_some_iff.mp h
  obtain ⟨c, -, h⟩ := Option.bind_eq_some_iff.mp h
  have hreads := Leaves.readOperands hread _ s s1 items hread'
  have hphi1 := hreads.merges phi hlt hphi
  have hlist : Leaves closed s1 (ssaList s1 items).1 :=
    .change closed rfl rfl (prefix_append _ _) (fun _ hp => .inl hp) fun hu => hu
  have hlisted : Leaves closed s (listOperands s1 phi items (s.block (s.value phi).block).preds.length) :=
    hreads.trans (hlist.trans (.updateValue closed hphi1 fun _ hm => hm))
  have hphi2 := hlisted.merges phi hlt hphi
  rcases c with _ | _ | same
  · cases h
    exact hlisted
  · cases h
    exact hlisted.trans (.same closed rfl rfl rfl rfl fun _ => rfl)
  · cases h
    exact hlisted.trans (.updateValue closed hphi2 fun _ _ => .inr rfl)

theorem Leaves.readLoop (closed : Nat → Prop) : ∀ (fuel : Nat) (s : Ssa) (x b : Nat) (cls : SsaClass) (s' : Ssa) (v : Nat),
    readLoop fuel s x b cls = some (s', v) → Leaves closed s s' := by
  intro fuel
  induction fuel with
  | zero =>
    intro s x b cls s' v h
    cases h
  | succ fuel ih =>
    intro s x b cls s' v h
    unfold Backend.readLoop at h
    split at h
    · obtain ⟨r, -, h⟩ := Option.bind_eq_some_iff.mp h
      cases h
      exact .refl closed s
    dsimp only at h
    split at h
    · cases h
      have hwaits : Leaves closed (ssaNewPhi s b cls).1 { (ssaNewPhi s b cls).1 with
          pending := (ssaNewPhi s b cls).1.pending ++ [⟨b, x, s.values.length⟩] } := by
        refine .change closed rfl rfl (prefix_refl _) (fun p hp => ?_) fun hu => hu
        rcases mem_append.mp hp with hp | hp
        · exact .inl hp
        rw [mem_singleton.mp hp]
        refine .inr ?_
        exact newPhi_merges s b cls
      exact (Leaves.newPhi closed s b cls).trans (hwaits.trans (.define closed _ x b _))
    split at h
    · cases h
      exact .same closed rfl rfl rfl rfl fun _ => rfl
    · obtain ⟨⟨s1, u⟩, hread, h⟩ := Option.bind_eq_some_iff.mp h
      cases h
      exact (ih _ _ _ _ _ _ hread).trans (.define closed _ x b _)
    obtain ⟨⟨s1, u⟩, hread, h⟩ := Option.bind_eq_some_iff.mp h
    cases h
    obtain ⟨hlt, hm⟩ := newPhi_merges s b cls
    have hdefine := Leaves.define closed (ssaNewPhi s b cls).1 x b s.values.length
    have hphi := Leaves.phiOperands (fun s p s' v hr => ih s x p _ s' v hr)
      (Nat.lt_of_lt_of_le hlt hdefine.length) (hdefine.merges _ hlt hm) hread
    exact (Leaves.newPhi closed s b cls).trans (hdefine.trans (hphi.trans (.define closed _ x b _)))

theorem mem_takePending {s : Ssa} {i : Nat} {p : SsaPending} (hp : p ∈ (takePending s i).pending) : p ∈ s.pending := by
  unfold takePending at hp
  split at hp
  · exact hp
  rename_i last hlast
  have hmem := mem_of_getLast? hlast
  rcases mem_or_eq_of_mem_set (dropLast_subset _ hp) with h | h
  · exact h
  · rw [h]
    exact hmem

theorem Leaves.takePending (closed : Nat → Prop) (s : Ssa) (i : Nat) : Leaves closed s (takePending s i) := by
  have hfields : (Backend.takePending s i).values = s.values ∧ (Backend.takePending s i).blocks = s.blocks ∧
      (Backend.takePending s i).lists = s.lists ∧ (Backend.takePending s i).unsupported = s.unsupported := by
    unfold Backend.takePending
    split <;> exact ⟨rfl, rfl, rfl, rfl⟩
  obtain ⟨hvalues, hblocks, hlists, hunsupported⟩ := hfields
  exact .change closed hvalues hblocks (hlists ▸ prefix_refl _) (fun _ hp => .inl (mem_takePending hp))
    fun hu => hunsupported.trans hu

theorem Leaves.sealLoop (closed : Nat → Prop) (b : Nat) : ∀ (fuel i : Nat) (s s' : Ssa), Waits s →
    sealLoop b fuel i s = some s' → Leaves closed s s' := by
  intro fuel
  induction fuel with
  | zero =>
    intro i s s' _ h
    cases h
  | succ fuel ih =>
    intro i s s' hw h
    unfold Backend.sealLoop at h
    split at h
    · cases h
      exact .refl closed s
    rename_i p hp
    split at h
    · exact ih (i + 1) s s' hw h
    obtain ⟨⟨s1, v⟩, hread, h⟩ := Option.bind_eq_some_iff.mp h
    obtain ⟨hlt, hm⟩ := hw p (mem_of_getElem? hp)
    have htake := Leaves.takePending closed s i
    have hphi := Leaves.phiOperands (fun s q s' v hr => Leaves.readLoop closed _ s p.var q _ s' v hr)
      (Nat.lt_of_lt_of_le hlt htake.length) (htake.merges _ hlt hm) hread
    have hfirst := htake.trans hphi
    exact hfirst.trans (ih i s1 s' (hfirst.waits hw) h)

theorem Leaves.sealed (closed : Nat → Prop) (hw : Waits s) (h : ssaSeal s b = some s') :
    Leaves closed s s' := by
  unfold ssaSeal at h
  split at h
  · cases h
    exact .refl closed s
  have hmark : Leaves closed s (s.updateBlock b ({ · with sealed := true })) :=
    .updateBlock (fun _ _ => ⟨rfl, rfl⟩) fun _ => prefix_refl _
  exact hmark.trans (.sealLoop closed b _ _ _ _ (hmark.waits hw) h)

/-- A value with all its fields, at the end of a block. -/
def placeValue (s : Ssa) (b : Nat) (v : SsaValue) : Ssa :=
  ({ s with values := s.values ++ [v] } : Ssa).updateBlock b fun blk =>
    { blk with values := blk.values ++ [s.values.length] }

/-- A step of the construction that adds to the values and the ends of the blocks that `own` holds of. -/
inductive AddStep (own : Nat → Prop) (s : Ssa) : Ssa → Prop
  | block : AddStep own s (ssaBlock s).1
  | value (v : SsaValue) : AddStep own s { s with values := s.values ++ [v] }
  | place {b : Nat} (v : SsaValue) : own b → AddStep own s (placeValue s b v)
  | list (items : List Nat) : AddStep own s (ssaList s items).1
  | edge {u : Nat} (v : Nat) : own u → AddStep own s (ssaEdge s u v)
  | finish {b : Nat} (change : SsaBlock → SsaBlock) : own b →
      (∀ blk, (change blk).values = blk.values ∧ (change blk).preds = blk.preds) → AddStep own s (s.updateBlock b change)
  | current (b : Option Nat) : AddStep own s { s with current := b }
  | loopDepth (depth : Nat) : AddStep own s { s with loopDepth := depth }
  | define (x b v : Nat) : AddStep own s (ssaDefine s x b v)
  | read {x b v : Nat} {cls : SsaClass} {s' : Ssa} : ssaRead s x b cls = some (s', v) → AddStep own s s'
  | sealed {b : Nat} {s' : Ssa} : ssaSeal s b = some s' → AddStep own s s'
  | giveUp : AddStep own s { s with unsupported := true }

abbrev Adds (own : Nat → Prop) : Ssa → Ssa → Prop := Relation.ReflTransGen (AddStep own)

theorem block_appended {s t : Ssa} {blk : SsaBlock} (h : t.blocks = s.blocks ++ [blk]) (b : Nat) :
    t.block b = if b = s.blocks.length then blk else s.block b := by
  unfold Ssa.block
  rw [h, getD_eq_getElem?_getD, getD_eq_getElem?_getD]
  rcases Nat.lt_trichotomy b s.blocks.length with hlt | rfl | hgt
  · rw [getElem?_append_left hlt, if_neg (by omega)]
  · rw [getElem?_append_right (Nat.le_refl _), if_pos rfl, Nat.sub_self]
    rfl
  · rw [if_neg (by omega), getElem?_eq_none (by simp; omega), getElem?_eq_none (by omega)]

theorem block_outside {s : Ssa} (hb : s.blocks.length ≤ b) : s.block b = default := by
  unfold Ssa.block
  rw [getD_eq_getElem?_getD, getElem?_eq_none hb, Option.getD_none]

theorem Leaves.block (closed : Nat → Prop) (s : Ssa) : Leaves closed s (ssaBlock s).1 := by
  have hblock := block_appended (s := s) (t := (ssaBlock s).1) rfl
  refine ⟨Nat.le_refl _, fun _ _ _ => rfl, fun _ _ hm => hm, prefix_refl _, ?_, fun b => ?_, fun b hb _ => ?_,
    fun h => h, fun h => h⟩
  · change s.blocks.length ≤ (s.blocks ++ [_]).length
    rw [length_append]
    exact Nat.le_add_right _ _
  · rw [hblock]
    split
    · rename_i heq
      rw [block_outside (Nat.le_of_eq heq.symm)]
      exact nil_prefix
    · exact prefix_refl _
  · refine .of_eq ?_
    rw [hblock, if_neg (Nat.ne_of_lt hb)]

theorem Leaves.edge {u v : Nat} (hu : ¬ closed u) : Leaves closed s (ssaEdge s u v) := by
  have hfirst : Leaves closed s (s.updateBlock u fun blk =>
      if blk.succ0 = none then { blk with succ0 := some v } else { blk with succ1 := some v }) := by
    refine .updateBlock (fun hc => absurd hc hu) fun blk => ?_
    split <;> exact prefix_refl _
  exact hfirst.trans (.updateBlock (fun _ _ => ⟨rfl, rfl⟩) fun _ => prefix_append _ _)

theorem Leaves.place (hb : ¬ closed b) (v : SsaValue) : Leaves closed s (placeValue s b v) := by
  have hvalue : Leaves closed s { s with values := s.values ++ [v] } := .append closed rfl rfl rfl rfl rfl
  exact hvalue.trans (.updateBlock (fun hc => absurd hc hb) fun _ => prefix_refl _)

theorem Adds.leaves {own : Nat → Prop} (hw : Waits s) (h : Adds own s s') : Leaves (fun b => ¬ own b) s s' := by
  induction h with
  | refl => exact .refl _ s
  | tail _ hstep ih =>
    refine ih.trans ?_
    cases hstep with
    | block => exact .block _ _
    | value v => exact .append _ rfl rfl rfl rfl rfl
    | place v hb => exact .place (not_not_intro hb) v
    | list items => exact .change _ rfl rfl (prefix_append _ _) (fun _ hp => .inl hp) fun hu => hu
    | edge v hu => exact .edge (not_not_intro hu)
    | finish change hb hsame =>
      refine .updateBlock (fun hc => absurd hb hc) fun blk => ?_
      rewrite [(hsame blk).2]
      exact prefix_refl _
    | current b | loopDepth depth => exact .same _ rfl rfl rfl rfl fun hu => hu
    | define x b v => exact .define _ _ x b v
    | read hr => exact .readLoop _ _ _ _ _ _ _ _ hr
    | sealed hs => exact .sealed _ (ih.waits hw) hs
    | giveUp => exact .same _ rfl rfl rfl rfl fun _ => rfl

end

end Dyn.Backend
