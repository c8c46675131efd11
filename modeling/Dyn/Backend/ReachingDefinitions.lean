import Dyn.Backend.ReadTermination

/-!
# backend/ssa: reads reach definitions

A finished function runs from its entry along the edges of its graph.  At the entry of a block
its phis take the values of their operands for the edge; an emitted value is anything.  What a
read returned then has the value that the variable was last given on the way.
-/

namespace Dyn.Backend

open List Function
open Lib Lib.Flow

section

variable {Val : Type}

/-- Where a run is: the events that its block has done, the values, and what was written to variables. -/
structure Point (Val : Type) where
  block : Nat
  done : Nat
  env : Nat → Val
  vars : Nat → Option Val

/-- The values after the phis of a block that is entered by its `i`-th edge. -/
def enterPhis (s : Ssa) (block i : Nat) (env : Nat → Val) : Nat → Val := fun v =>
  if (s.value v).op = .phi ∧ (s.value v).block = block then
    env (root s (s.lists.getD ((s.value v).list + i) 0))
  else env v

/-- The points that the runs of a function come to. -/
inductive Comes (t : Build) : Point Val → Prop
  | start (env : Nat → Val) : Comes t ⟨0, 0, env, fun _ => none⟩
  | define {pt : Point Val} {id : Nat} (v : Val) : Comes t pt →
      (blockLog t.log pt.block)[pt.done]? = some (.define id) →
      Comes t { pt with done := pt.done + 1, env := update pt.env id v }
  | write {pt : Point Val} {x id : Nat} : Comes t pt → (blockLog t.log pt.block)[pt.done]? = some (.write x id) →
      Comes t { pt with done := pt.done + 1, vars := update pt.vars x (some (pt.env (root t.ssa id))) }
  | read {pt : Point Val} {x id : Nat} : Comes t pt → (blockLog t.log pt.block)[pt.done]? = some (.read x id) →
      Comes t { pt with done := pt.done + 1 }
  | edge {pt : Point Val} {c i : Nat} : Comes t pt → pt.done = (blockLog t.log pt.block).length →
      (t.ssa.block c).preds[i]? = some pt.block → Comes t ⟨c, 0, enterPhis t.ssa c i pt.env, pt.vars⟩

end

section

variable {final now : Plan} {t : Build}

theorem Sound.entered_reached (h : Sound final now t [])
    (hsealed : ∀ b < t.ssa.blocks.length, (t.ssa.block b).sealed = true) {c i p : Nat}
    (hp : (t.ssa.block c).preds[i]? = some p) (hreached : final.Reached p) : final.Reached c := by
  have hmem := mem_of_getElem? hp
  rw [h.shaped.preds] at hmem
  have hc : c < t.ssa.blocks.length := by
    rw [h.shaped.length]
    exact Plan.edge_lt hmem
  refine Flow.Reached.step hreached ?_
  unfold Plan.Edge
  rw [h.part.complete c ((h.shaped.sealed c).mp (hsealed c hc))]
  exact hmem

/-- A value that is there at the ends of all predecessors is not of the block itself. -/
theorem Sound.block_ne (h : Sound final now t []) {c r : Nat} (hc : final.Reached c) (hentry : c ≠ 0)
    (hsealed : (t.ssa.block c).sealed = true)
    (hall : ∀ p ∈ (t.ssa.block c).preds, final.Reached p → final.Dominates (t.ssa.value r).block p) :
    (t.ssa.value r).block ≠ c := by
  intro heq
  obtain ⟨p, hp, hedge, hnot⟩ := Flow.Reached.enters hc hentry
  unfold Plan.Edge at hedge
  rw [h.part.complete c ((h.shaped.sealed c).mp hsealed), ← h.shaped.preds] at hedge
  have hdom := hall p hedge hp
  rw [heq] at hdom
  exact hnot hdom

/-- A phi that became a copy stands for a value of another block. -/
theorem Finished.block_ne (h : Sound final now t []) {c x phi : Nat} (hc : final.Reached c) (hneeded : final.Needed x c)
    (hf : Finished final t.ssa [] c x phi)
    (hall : ∀ i < (t.ssa.block c).preds.length,
      root t.ssa (t.ssa.lists.getD ((t.ssa.value phi).list + i) 0) = root t.ssa phi) :
    (t.ssa.value (root t.ssa phi)).block ≠ c := by
  refine h.block_ne hc (needed_ne_entry hneeded) hf.sealed fun p hp hreached => ?_
  obtain ⟨i, hi, hget⟩ := getElem_of_mem hp
  obtain ⟨w, hw, hroot⟩ := hf.operands i p (List.getElem?_eq_some_iff.mpr ⟨hi, hget⟩) hreached
  have hdom := (h.table x p w hreached hw).2.2
  rw [hroot, hall i hi] at hdom
  exact hdom

/-- The value at the entry of a block is one of its phis, or a value of another block. -/
theorem Entering.phi_or_other (h : Sound final now t []) {c x v : Nat} (hc : final.Reached c)
    (hneeded : final.Needed x c) (he : Entering final t.ssa [] c x v) :
    (∃ phi, Finished final t.ssa [] c x phi ∧ (t.ssa.value phi).op = .phi ∧ root t.ssa v = phi) ∨
      (t.ssa.value (root t.ssa v)).block ≠ c := by
  cases he with
  | through p w hsealed hpreds hp hw hroot =>
    refine .inr (h.block_ne hc (needed_ne_entry hneeded) hsealed fun q hq _ => ?_)
    rw [hpreds] at hq
    cases mem_singleton.mp hq
    rw [← hroot]
    exact (h.table x p w hp hw).2.2
  | phi phi hf hroot =>
    rcases hf.kept with ⟨hop, -⟩ | ⟨-, hall⟩
    · refine .inl ⟨phi, hf, hop, hroot.symm.trans (h.copies.root_self ?_)⟩
      rw [hop]
      decide
    · rw [← hroot]
      exact .inr (hf.block_ne h hc hneeded hall)
  | opened phi hmem _ => cases hmem

/-- The value at the entry of a block is that at the end of the predecessor by which it is entered. -/
theorem Entering.enters {Val : Type} (h : Sound final now t []) {c x v i p : Nat} (hc : final.Reached c)
    (hneeded : final.Needed x c) (he : Entering final t.ssa [] c x v) (hp : (t.ssa.block c).preds[i]? = some p)
    (hreached : final.Reached p) (env : Nat → Val) :
    ∃ w, ssaDefined t.ssa x p = some w ∧ enterPhis t.ssa c i env (root t.ssa v) = env (root t.ssa w) := by
  cases he with
  | through q w hsealed hpreds hq hw hroot =>
    have heq : p = q := by
      have hmem := mem_of_getElem? hp
      rw [hpreds] at hmem
      exact mem_singleton.mp hmem
    subst heq
    refine ⟨w, hw, ?_⟩
    have hne : (t.ssa.value (root t.ssa v)).block ≠ c := by
      refine h.block_ne hc (needed_ne_entry hneeded) hsealed fun q hq' _ => ?_
      rw [hpreds] at hq'
      cases mem_singleton.mp hq'
      rw [← hroot]
      exact (h.table x p w hq hw).2.2
    unfold enterPhis
    rw [if_neg fun hphi => hne hphi.2, hroot]
  | phi phi hf hroot =>
    obtain ⟨w, hw, hoperand⟩ := hf.operands i p hp hreached
    refine ⟨w, hw, ?_⟩
    unfold enterPhis
    rw [hoperand, ← hroot]
    rcases hf.kept with ⟨hop, -⟩ | ⟨-, hall⟩
    · have hself : root t.ssa phi = phi := h.copies.root_self (by
        rw [hop]
        decide)
      rw [hself, if_pos ⟨hop, hf.home⟩]
    · rw [if_neg fun hphi => hf.block_ne h hc hneeded hall hphi.2,
        hall i (List.getElem?_eq_some_iff.mp hp).1]
  | opened phi hmem _ => cases hmem

theorem Current.ne_define (h : Sound final now t []) {b id : Nat} (hb : final.Reached b)
    {earlier later : List BuildEvent} (hlog : blockLog t.log b = earlier ++ .define id :: later) :
    ∀ (n : Nat) (known rest : List BuildEvent) (x v : Nat), known.length ≤ n → earlier = known ++ rest →
      Current final t.ssa [] known b x v → root t.ssa v ≠ id := by
  obtain ⟨-, hphi, -, hblock, hfresh⟩ := h.events b earlier (.define id) later hb hlog
  intro n
  induction n with
  | zero =>
    intro known rest x v hlength _ hcurrent heq
    rw [length_eq_zero_iff.mp (Nat.le_zero.mp hlength)] at hcurrent
    obtain ⟨hneeded, hentering⟩ := hcurrent
    rcases hentering.phi_or_other h hb hneeded with ⟨phi, -, hop, hroot⟩ | hne
    · rw [heq] at hroot
      exact hphi (hroot ▸ hop)
    · rw [heq] at hne
      exact hne hblock
  | succ n ih =>
    intro known rest x v hlength hsplit hcurrent heq
    unfold Current at hcurrent
    cases hlast : lastWrite x known with
    | none =>
      rw [hlast] at hcurrent
      rcases hcurrent.2.phi_or_other h hb hcurrent.1 with ⟨phi, -, hop, hroot⟩ | hne
      · rw [heq] at hroot
        exact hphi (hroot ▸ hop)
      · rw [heq] at hne
        exact hne hblock
    | some w =>
      rw [hlast] at hcurrent
      have hw : root t.ssa w = id := Eq.trans hcurrent heq
      have hmem : BuildEvent.write x w ∈ known := by
        obtain ⟨e, he, hsome⟩ := mem_filterMap.mp (mem_of_getLast? hlast)
        cases e with
        | write y u =>
          dsimp only at hsome
          split at hsome
          · rename_i hy
            cases hsome
            exact hy ▸ he
          · cases hsome
        | _ => cases hsome
      obtain ⟨before, after, hknown⟩ := append_of_mem hmem
      have hevent := h.events b before (.write x w) (after ++ rest ++ .define id :: later) hb (by
        rw [hlog, hsplit, hknown]
        simp)
      rcases hevent with ⟨home, hne, hdom, -, hdom'⟩ | hdefine | ⟨y, hread⟩
      · rw [hw, hblock] at hdom'
        exact hne (Dominates.antisymm hdom hdom' (hdom.reached hb))
      · obtain ⟨before', after', hbefore⟩ := append_of_mem hdefine
        obtain ⟨-, -, hcopy, -⟩ := h.events b before' (.define w) (after' ++ .write x w :: (after ++ rest ++ .define id :: later)) hb (by
          rw [hlog, hsplit, hknown, hbefore]
          simp)
        rw [h.copies.root_self hcopy] at hw
        subst hw
        refine hfresh ?_
        rw [hsplit, hknown]
        exact mem_append_left _ (mem_append_left _ hdefine)
      obtain ⟨before', after', hbefore⟩ := append_of_mem hread
      have hcurrent' : Current final t.ssa [] before' b y w :=
        h.events b before' (.read y w) (after' ++ .write x w :: (after ++ rest ++ .define id :: later)) hb (by
          rw [hlog, hsplit, hknown, hbefore]
          simp)
      refine ih before' (.read y w :: after' ++ .write x w :: (after ++ rest)) y w ?_ ?_ hcurrent' hw
      · rw [hknown, hbefore] at hlength
        simp only [length_append, length_cons] at hlength
        omega
      · rw [hsplit, hknown, hbefore]
        simp

/-- What a run knows at a point: a value that stands for a variable has what was written to it. -/
structure AtPoint {Val : Type} (final : Plan) (t : Build) (pt : Point Val) : Prop where
  reached : final.Reached pt.block
  current : ∀ x v, Current final t.ssa [] ((blockLog t.log pt.block).take pt.done) pt.block x v →
    pt.vars x = some (pt.env (root t.ssa v))

theorem take_event {α : Type} {xs : List α} {n : Nat} {e : α} (h : xs[n]? = some e) :
    xs.take (n + 1) = xs.take n ++ [e] ∧ xs = xs.take n ++ e :: xs.drop (n + 1) := by
  obtain ⟨hn, hget⟩ := List.getElem?_eq_some_iff.mp h
  refine ⟨?_, ?_⟩
  · rw [take_add_one, h]
    rfl
  · rw [← hget, cons_getElem_drop_succ, take_append_drop]

/-- **Every point of a run knows what its variables were given.** -/
theorem Comes.at {Val : Type} (h : Sound final now t []) (hsealed : ∀ b < t.ssa.blocks.length, (t.ssa.block b).sealed = true)
    {pt : Point Val} (hpt : Comes t pt) : AtPoint final t pt := by
  induction hpt with
  | start env =>
    refine ⟨entry_reached, fun x v hcurrent => ?_⟩
    rw [take_zero] at hcurrent
    exact absurd rfl (needed_ne_entry hcurrent.1)
  | @define pt id value _ hevent ih =>
    obtain ⟨htake, hlog⟩ := take_event hevent
    refine ⟨ih.reached, fun x v hcurrent => ?_⟩
    dsimp only at hcurrent ⊢
    rw [htake] at hcurrent
    unfold Current at hcurrent
    rw [lastWrite_append] at hcurrent
    have hne := Current.ne_define h ih.reached hlog _ _ [] x v le_rfl (append_nil _).symm hcurrent
    rw [update_of_ne hne]
    exact ih.current x v hcurrent
  | @write pt y id _ hevent ih =>
    obtain ⟨htake, -⟩ := take_event hevent
    refine ⟨ih.reached, fun x v hcurrent => ?_⟩
    dsimp only at hcurrent ⊢
    rw [htake] at hcurrent
    unfold Current at hcurrent
    rw [lastWrite_append] at hcurrent
    dsimp only at hcurrent
    split_ifs at hcurrent with hy
    · rw [hy, update_self, hcurrent]
    · rw [update_of_ne (Ne.symm hy)]
      exact ih.current x v hcurrent
  | @read pt y id _ hevent ih =>
    obtain ⟨htake, -⟩ := take_event hevent
    refine ⟨ih.reached, fun x v hcurrent => ?_⟩
    rw [htake] at hcurrent
    unfold Current at hcurrent
    rw [lastWrite_append] at hcurrent
    exact ih.current x v hcurrent
  | @edge pt c i _ hdone hpred ih =>
    have hc : final.Reached c := h.entered_reached hsealed hpred ih.reached
    refine ⟨hc, fun x v hcurrent => ?_⟩
    dsimp only at hcurrent ⊢
    rw [take_zero] at hcurrent
    obtain ⟨hneeded, hentering⟩ := hcurrent
    obtain ⟨w, hw, henter⟩ := hentering.enters h hc hneeded hpred ih.reached pt.env
    rw [henter]
    refine ih.current x w ?_
    rw [hdone, take_length]
    exact (h.table x pt.block w ih.reached hw).1

variable {calls : List BuildCall}

theorem Describes.run (h : Describes calls) : ∀ (before after : List BuildCall) {t : Build},
    calls = before ++ after → build before = some t → BuildOk (plan calls) (plan before) t := by
  intro before
  induction before using reverseRecOn with
  | nil =>
    intro after t heq hrun
    cases hrun
    have hempty : ∀ v, ({} : Ssa).value v = default := fun v => value_outside (Nat.not_lt_zero v)
    have hcopies : CopiesEnd ({} : Ssa) := by
      refine ⟨fun v hv => ?_, fun v => ⟨0, v, .stop ?_⟩⟩
      · rw [hempty] at hv
        cases hv
      unfold copyOf
      rw [hempty]
      rfl
    refine ⟨⟨h.part [] after heq, ⟨rfl, fun b => rfl, fun b => ?_, rfl⟩, defsOk_empty _ rfl rfl, hcopies,
      fun e he => absurd he not_mem_nil, nodup_nil, fun e he => absurd he not_mem_nil,
      fun phi hphi => absurd hphi (Nat.not_lt_zero _), fun x b v _ hv => ?_, fun b x => ?_, fun b x hw => ?_,
      ⟨rfl, fun k home id hhome => ?_⟩, fun b earlier e later _ hlog => ?_⟩, fun e he => absurd he not_mem_nil⟩
    · exact iff_of_false nofun not_mem_nil
    · rw [ssaDefined_empty rfl] at hv
      cases hv
    · exact iff_of_false not_mem_nil (not_not_intro rfl)
    · cases hw
    · rw [show (plan []).homes = [] from rfl, getElem?_nil] at hhome
      cases hhome
    · exact absurd hlog (by simp [blockLog])
  | append_singleton before call ih =>
    intro after t heq hrun
    have heq' : calls = before ++ call :: after := by rw [heq, append_assoc, singleton_append]
    unfold build buildFrom at hrun
    rw [foldlM_append] at hrun
    obtain ⟨t0, hrun0, hrun⟩ := Option.bind_eq_some_iff.mp hrun
    have hstep : buildStep t0 call = some t := by
      simpa using hrun
    have hok := ih (call :: after) heq' hrun0
    have hpart := h.part _ after heq
    rw [plan_append] at hpart ⊢
    exact hok.step (h.allowed before call after heq') hpart hstep

theorem Describes.sound (h : Describes calls) (hrun : build calls = some t) :
    Sound (plan calls) (plan calls) t [] ∧ ∀ b < t.ssa.blocks.length, (t.ssa.block b).sealed = true := by
  have hok := h.run calls [] (append_nil _).symm hrun
  have hsealed : ∀ b < t.ssa.blocks.length, (t.ssa.block b).sealed = true := by
    intro b hb
    rw [hok.sound.shaped.length] at hb
    exact (hok.sound.shaped.sealed b).mpr (h.sealed b hb)
  have hpending : t.ssa.pending = [] := by
    refine eq_nil_iff_forall_not_mem.mpr fun e he => ?_
    have hwaits := hok.waiting e he
    rw [hsealed _ (hok.sound.opened e he).2.2.2.1] at hwaits
    cases hwaits
  refine ⟨?_, hsealed⟩
  have hsound := hok.sound
  rw [hpending] at hsound
  exact hsound

/-- Every construction without a circle that is never reached ends. -/
theorem Describes.run_total (h : Describes calls)
    (hground : ∀ b < (plan calls).preds.length, Grounded (plan calls) b) :
    ∀ (before after : List BuildCall),
    calls = before ++ after → ∃ t, build before = some t := by
  intro before
  induction before using reverseRecOn with
  | nil => exact fun _ _ => ⟨{}, rfl⟩
  | append_singleton before call ih =>
    intro after heq
    have heq' : calls = before ++ call :: after := by rw [heq, append_assoc, singleton_append]
    obtain ⟨t0, hrun⟩ := ih (call :: after) heq'
    have hok := h.run before (call :: after) heq' hrun
    have hpart := h.part _ after heq
    rw [plan_append] at hpart
    have hground0 : ∀ b < t0.ssa.blocks.length, Grounded (plan calls) b := by
      intro b hb
      rw [hok.sound.shaped.length] at hb
      exact hground b (Nat.lt_of_lt_of_le hb hok.sound.part.length)
    obtain ⟨t, hstep⟩ := hok.step_total hground0 (h.allowed before call after heq') hpart
    refine ⟨t, ?_⟩
    unfold build buildFrom at hrun ⊢
    rw [foldlM_append, hrun]
    simpa using hstep

end

/-- **What a read returned has the value last written to the variable on the way**, and a phi that
became a copy has the value of the operand by which its block is entered. -/
theorem reads_reaching_definition (calls : List BuildCall) (h : Describes calls) :
    ((∀ b < (plan calls).preds.length, Grounded (plan calls) b) → ∃ t, build calls = some t) ∧
      ∀ t : Build, build calls = some t → ∀ (Val : Type) (pt : Point Val), Comes t pt →
        (∀ x id, (blockLog t.log pt.block)[pt.done]? = some (.read x id) →
          ∃ r, ssaResolve t.ssa id = some r ∧ pt.vars x = some (pt.env r)) ∧
        ∀ c i phi, pt.done = (blockLog t.log pt.block).length → (t.ssa.block c).preds[i]? = some pt.block →
          (t.ssa.value phi).op = .copy → (t.ssa.value phi).block = c →
          ∃ r operand, ssaResolve t.ssa phi = some r ∧
            ssaResolve t.ssa (t.ssa.lists.getD ((t.ssa.value phi).list + i) 0) = some operand ∧
            enterPhis t.ssa c i pt.env r = pt.env operand := by
  refine ⟨fun hground => h.run_total hground calls [] (append_nil _).symm, fun t hrun Val pt hpt => ?_⟩
  obtain ⟨hsound, hsealed⟩ := h.sound hrun
  have hpoint := hpt.at hsound hsealed
  refine ⟨fun x id hevent => ?_, fun c i phi _ hpred hop hblock => ?_⟩
  · obtain ⟨-, hlog⟩ := take_event hevent
    have hcurrent : Current (plan calls) t.ssa [] ((blockLog t.log pt.block).take pt.done) pt.block x id :=
      hsound.events pt.block _ _ _ hpoint.reached hlog
    exact ⟨root t.ssa id, hsound.copies.resolve id, hpoint.current x id hcurrent⟩
  have hc : (plan calls).Reached c := hsound.entered_reached hsealed hpred hpoint.reached
  have hphi : phi < t.ssa.values.length := by
    by_contra hlt
    rw [value_outside hlt] at hop
    cases hop
  subst hblock
  obtain ⟨x, hneeded, hf⟩ := (hsound.phis phi hphi (.inr hop)).resolve_left (fun ⟨e, he, _⟩ => by cases he) hc
  refine ⟨root t.ssa phi, _, hsound.copies.resolve phi, hsound.copies.resolve _, ?_⟩
  rcases hf.kept with ⟨hop', -⟩ | ⟨-, hall⟩
  · rw [hop] at hop'
    cases hop'
  · unfold enterPhis
    rw [if_neg fun h => hf.block_ne hsound hc hneeded hall h.2, hall i (List.getElem?_eq_some_iff.mp hpred).1]

/-- A variable is set before a loop whose header reads it before the edge back is there. -/
def loopCalls : List BuildCall :=
  [.block, .sealBlock 0, .enter (some 0), .emit .const .int none none none 7 0, .write 0 0,
    .block, .edge 0 1, .enter (some 1), .read 0 1 .int, .emit .add .int (some 1) (some 0) none 0 0, .write 0 2,
    .block, .edge 1 1, .edge 1 2, .sealBlock 1, .sealBlock 2, .read 0 2 .int]

theorem Plan.needed_of_entry {p : Plan} {x b : Nat} (hwritten : (0, x) ∈ p.written) (hb : b ≠ 0) : p.Needed x b := by
  intro before htrail
  exact ⟨0, (mem_cons.mp htrail.entry_mem).resolve_left (Ne.symm hb), hwritten⟩

/-- Calls that are allowed one after another. -/
def AllowedFrom (final : Plan) : Plan → List BuildCall → Prop
  | _, [] => True
  | now, call :: calls => Allowed final now call ∧ AllowedFrom final (now.step call) calls

theorem AllowedFrom.split {final : Plan} : ∀ {calls : List BuildCall} {now : Plan}, AllowedFrom final now calls →
    ∀ before call after, calls = before ++ call :: after → Allowed final (before.foldl Plan.step now) call := by
  intro calls
  induction calls with
  | nil =>
    intro now _ before call after heq
    simp at heq
  | cons first calls ih =>
    intro now h before call after heq
    cases before with
    | nil =>
      cases heq
      exact h.1
    | cons head before =>
      rw [cons_append, cons.injEq] at heq
      obtain ⟨rfl, heq⟩ := heq
      exact ih h.2 before call after heq

theorem loopCalls_describes : Describes loopCalls := by
  have hneeded : ∀ b, b ≠ 0 → (plan loopCalls).Needed 0 b := fun b hb => Plan.needed_of_entry (by decide) hb
  have hwrite : ∀ {now : Plan} {handle home b : Nat}, now.current = some b → now.homes[handle]? = some home →
      (plan loopCalls).Dominates home b → (∀ v, b ∉ now.predsOf v) → Allowed (plan loopCalls) now (.write 0 handle) := by
    intro now handle home b hb hhome hdom hunfilled c hc
    cases hb.symm.trans hc
    exact ⟨⟨home, hhome, hdom⟩, hunfilled⟩
  have henter : ∀ {now : Plan} {b : Nat}, b < now.preds.length → Allowed (plan loopCalls) now (.enter (some b)) := by
    intro now b hb c hc
    cases hc
    exact hb
  have hfrom : AllowedFrom (plan loopCalls) {} loopCalls := by
    refine ⟨trivial, ⟨by decide, rfl⟩, henter (by decide), ⟨by decide, by decide, by decide⟩,
      hwrite rfl rfl (entry_dominates 0) ?_, trivial, ⟨by decide, by decide⟩, henter (by decide),
      ⟨by decide, .inr (hneeded 1 (by decide))⟩, ⟨by decide, by decide, by decide⟩,
      hwrite rfl rfl (Dominates.refl 1) ?_, trivial, ⟨by decide, by decide⟩, ⟨by decide, by decide⟩,
      ⟨by decide, rfl⟩, ⟨by decide, rfl⟩, ⟨by decide, .inr (hneeded 2 (by decide))⟩, trivial⟩
    · rintro (_ | v)
      · decide
      · exact not_mem_nil
    rintro (_ | _ | v)
    · decide
    · decide
    · exact not_mem_nil
  exact ⟨hfrom.split, by decide, by decide⟩

theorem loopCalls_grounded : ∀ b < (plan loopCalls).preds.length, Grounded (plan loopCalls) b := by
  have hheader : Grounded (plan loopCalls) 1 := .several (by decide)
  intro b hb
  have hlt : b < 3 := hb
  interval_cases b
  · exact .several (by decide)
  · exact hheader
  · exact .one rfl hheader

/-- What the calls of the loop build, as far as a run depends on it. -/
def LoopBuilt (t : Build) : Prop :=
  blockLog t.log 0 = [.define 0, .write 0 0] ∧ blockLog t.log 1 = [.read 0 1, .define 2, .write 0 2] ∧
    (t.ssa.block 1).preds = [0, 1] ∧ root t.ssa 2 = 2

instance (t : Build) : Decidable (LoopBuilt t) := inferInstanceAs (Decidable (_ ∧ _))

/-- A run that goes round once: when the header is entered again the read has the sum of the first round. -/
theorem reads_reaching_definition_loop : ∃ t, build loopCalls = some t ∧
    ∃ pt : Point Nat, Comes t pt ∧ pt.block = 1 ∧ pt.vars 0 = some 14 ∧
      ∃ r, ssaResolve t.ssa 1 = some r ∧ pt.vars 0 = some (pt.env r) := by
  obtain ⟨htotal, hreads⟩ := reads_reaching_definition loopCalls loopCalls_describes
  obtain ⟨t, hbuild⟩ := htotal loopCalls_grounded
  have hbuilt : (build loopCalls).all (fun t => decide (LoopBuilt t)) = true := by decide +kernel
  rw [hbuild, Option.all_some, decide_eq_true_eq] at hbuilt
  obtain ⟨hentry, hheader, hpreds, htwo⟩ := hbuilt
  have hset := (Comes.start (t := t) fun _ : Nat => 0).define 7
    (by rw [hentry]; rfl : (blockLog t.log 0)[0]? = some (.define 0))
  have hwritten := hset.write (by rw [hentry]; rfl : (blockLog t.log 0)[1]? = some (.write 0 0))
  have hentered := hwritten.edge (by rw [hentry]; rfl) (by rw [hpreds]; rfl : (t.ssa.block 1).preds[0]? = some 0)
  have hread := hentered.read (by rw [hheader]; rfl : (blockLog t.log 1)[0]? = some (.read 0 1))
  have hsum := hread.define 14 (by rw [hheader]; rfl : (blockLog t.log 1)[1]? = some (.define 2))
  have hrewritten := hsum.write (by rw [hheader]; rfl : (blockLog t.log 1)[2]? = some (.write 0 2))
  have hagain := hrewritten.edge (by rw [hheader]; rfl) (by rw [hpreds]; rfl : (t.ssa.block 1).preds[1]? = some 1)
  have hvar := (hreads t hbuild Nat _ hagain).1 0 1 (by rw [hheader]; rfl)
  refine ⟨t, hbuild, _, hagain, rfl, ?_, hvar⟩
  dsimp only
  rw [htwo]
  rfl

end Dyn.Backend
