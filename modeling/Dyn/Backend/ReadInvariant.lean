import Dyn.Backend.Construction

/-!
# backend/ssa: what holds while phis are built

Between two calls, and inside of a read, the value of a variable at the entry of a block is known
as the value at the end of the one predecessor, as a phi with the values at the ends of the
predecessors, or as a phi whose operands are still to be read.  A phi that became a copy agrees
with all its operands.
-/

namespace Dyn.Backend

open List
open Lib Lib.Flow

section

variable (final : Plan) (s : Ssa) (opens : List SsaPending)

/-- The operands of a phi are the values of a variable at the ends of the predecessors. -/
structure Listed (b x phi : Nat) : Prop where
  lt : phi < s.values.length
  home : (s.value phi).block = b
  sealed : (s.block b).sealed = true
  closed : ∀ e ∈ opens, e.phi ≠ phi
  listed : (s.value phi).list + (s.block b).preds.length ≤ s.lists.length
  operands : ∀ (i p : Nat), (s.block b).preds[i]? = some p → final.Reached p →
    ∃ w, ssaDefined s x p = some w ∧ root s w = root s (s.lists.getD ((s.value phi).list + i) 0)

/-- A phi has its operands, or it became a copy that agrees with them. -/
structure Finished (b x phi : Nat) : Prop extends Listed final s opens b x phi where
  kept : ((s.value phi).op = .phi ∧ (final.Reached b → (s.block b).preds.length ≠ 1)) ∨
    ((s.value phi).op = .copy ∧ ∀ i < (s.block b).preds.length,
      root s (s.lists.getD ((s.value phi).list + i) 0) = root s phi)

/-- The value is the one that the variable has at the entry of the block. -/
inductive Entering (b x v : Nat) : Prop
  | through (p w : Nat) : (s.block b).sealed = true → (s.block b).preds = [p] → final.Reached p →
      ssaDefined s x p = some w → root s w = root s v → Entering b x v
  | phi (phi : Nat) : Finished final s opens b x phi → root s phi = root s v → Entering b x v
  | opened (phi : Nat) : ⟨b, x, phi⟩ ∈ opens → root s phi = root s v → Entering b x v

/-- The value is the one that the variable has in the block after the events. -/
def Current (events : List BuildEvent) (b x v : Nat) : Prop :=
  match lastWrite x events with
  | some w => root s w = root s v
  | none => final.Needed x b ∧ Entering final s opens b x v

/-- The value is there, from a block that dominates `b` on. -/
def Available (b v : Nat) : Prop :=
  root s v < s.values.length ∧ final.Dominates (s.value (root s v)).block b

/-- What is known of an event of a block after the events before it. -/
def EventOk (earlier : List BuildEvent) (b : Nat) : BuildEvent → Prop
  | .define id => id < s.values.length ∧ (s.value id).op ≠ .phi ∧ (s.value id).op ≠ .copy ∧
      (s.value id).block = b ∧ .define id ∉ earlier
  | .write _ w => (∃ home, home ≠ b ∧ final.Dominates home b ∧ Available final s home w) ∨
      .define w ∈ earlier ∨ ∃ y, .read y w ∈ earlier
  | .read x id => Current final s opens earlier b x id

end

/-- The graph of the calls so far is a part of the finished one. -/
structure Part (final now : Plan) : Prop where
  length : now.preds.length ≤ final.preds.length
  preds : ∀ b, now.predsOf b <+: final.predsOf b
  complete : ∀ b ∈ now.sealed, final.predsOf b = now.predsOf b
  inside : ∀ u v, now.Edge u v → u < now.preds.length
  current : ∀ b, now.current = some b → b < now.preds.length
  written : ∀ e ∈ now.written, e ∈ final.written
  filled : ∀ b v x, now.Edge b v → (b, x) ∈ final.written → (b, x) ∈ now.written
  room : final.preds.length < 2 ^ 32

theorem Plan.edge_lt {p : Plan} {u v : Nat} (h : p.Edge u v) : v < p.preds.length := by
  by_contra hlt
  unfold Plan.Edge Plan.predsOf at h
  rw [getD_eq_getElem?_getD, getElem?_eq_none (Nat.le_of_not_lt hlt), Option.getD_none] at h
  cases h

theorem Part.reached_lt {final now : Plan} (h : Part final now) {b : Nat} (hb : final.Reached b) : b < 2 ^ 32 := by
  by_cases hzero : b = 0
  · rw [hzero]
    exact Nat.two_pow_pos 32
  · obtain ⟨u, -, hedge⟩ := Flow.Reached.pred hb hzero
    exact Nat.lt_trans (Plan.edge_lt hedge) h.room

structure Shaped (now : Plan) (s : Ssa) : Prop where
  length : s.blocks.length = now.preds.length
  preds : ∀ b, (s.block b).preds = now.predsOf b
  sealed : ∀ b, (s.block b).sealed = true ↔ b ∈ now.sealed
  current : s.current = now.current

structure Sound (final now : Plan) (t : Build) (opens : List SsaPending) : Prop where
  part : Part final now
  shaped : Shaped now t.ssa
  defs : DefsOk t.ssa
  copies : CopiesEnd t.ssa
  opened : ∀ e ∈ opens, e.phi < t.ssa.values.length ∧ (t.ssa.value e.phi).op = .phi ∧
    (t.ssa.value e.phi).block = e.block ∧ e.block < t.ssa.blocks.length ∧
    (final.Reached e.block → final.Needed e.var e.block) ∧ ssaDefined t.ssa e.var e.block ≠ none
  distinct : (opens.map SsaPending.phi).Nodup
  waiting : ∀ e ∈ t.ssa.pending, e ∈ opens
  phis : ∀ phi < t.ssa.values.length, (t.ssa.value phi).op = .phi ∨ (t.ssa.value phi).op = .copy →
    (∃ e ∈ opens, e.phi = phi) ∨ (final.Reached (t.ssa.value phi).block →
      ∃ x, final.Needed x (t.ssa.value phi).block ∧ Finished final t.ssa opens (t.ssa.value phi).block x phi)
  table : ∀ x b v, final.Reached b → ssaDefined t.ssa x b = some v →
    Current final t.ssa opens (blockLog t.log b) b x v ∧ Available final t.ssa b v
  wrote : ∀ b x, (b, x) ∈ now.written ↔ lastWrite x (blockLog t.log b) ≠ none
  held : ∀ b x, (b, x) ∈ now.written → ssaDefined t.ssa x b ≠ none
  homes : t.handles.length = now.homes.length ∧ ∀ k home id : Nat, now.homes[k]? = some home →
    t.handles[k]? = some id → final.Reached home → Available final t.ssa home id ∧
      (.define id ∈ blockLog t.log home ∨ ∃ x, .read x id ∈ blockLog t.log home)
  events : ∀ b earlier e later, final.Reached b → blockLog t.log b = earlier ++ e :: later →
    EventOk final t.ssa opens earlier b e

section

variable {final now : Plan} {s s' : Ssa} {opens opens' : List SsaPending}

/-- What a step of the construction keeps. -/
structure Keeps (final : Plan) (s : Ssa) (opens : List SsaPending) (s' : Ssa) (opens' : List SsaPending) :
    Prop where
  roots : ∀ u w, root s u = root s w → root s' u = root s' w
  available : ∀ b v, final.Reached b → Available final s b v → Available final s' b v
  preds : ∀ b, (s.block b).sealed = true → (s'.block b).sealed = true ∧ (s'.block b).preds = (s.block b).preds
  defined : ∀ x p w, final.Reached p → (∃ b, (s.block b).sealed = true ∧ p ∈ (s.block b).preds) →
    ssaDefined s x p = some w → ∃ w', ssaDefined s' x p = some w' ∧ root s' w' = root s' w
  values : s.values.length ≤ s'.values.length
  closed : ∀ phi < s.values.length, (∀ e ∈ opens, e.phi ≠ phi) →
    (s'.value phi).block = (s.value phi).block ∧ (s'.value phi).list = (s.value phi).list ∧
      (s'.value phi).op = (s.value phi).op ∧ ∀ e ∈ opens', e.phi ≠ phi
  lists : s.lists <+: s'.lists
  opened : ∀ e ∈ opens, e ∈ opens' ∨ Finished final s' opens' e.block e.var e.phi

theorem Keeps.getD_lists (h : Keeps final s opens s' opens') {i : Nat} (hi : i < s.lists.length) :
    s'.lists.getD i 0 = s.lists.getD i 0 := by
  obtain ⟨more, hmore⟩ := h.lists
  rw [← hmore, getD_eq_getElem?_getD, getD_eq_getElem?_getD, getElem?_append_left hi]

theorem Listed.later {b x phi : Nat} (hf : Listed final s opens b x phi) (h : Keeps final s opens s' opens') :
    Listed final s' opens' b x phi := by
  obtain ⟨hblock, hlist, -, hclosed⟩ := h.closed phi hf.lt hf.closed
  obtain ⟨hsealed, hpreds⟩ := h.preds b hf.sealed
  refine ⟨Nat.lt_of_lt_of_le hf.lt h.values, hblock.trans hf.home, hsealed, hclosed, ?_, fun i p hp hreached => ?_⟩
  · rw [hlist, hpreds]
    exact Nat.le_trans hf.listed h.lists.length_le
  rw [hpreds] at hp
  obtain ⟨w, hw, hroot⟩ := hf.operands i p hp hreached
  obtain ⟨w', hw', hroot'⟩ := h.defined x p w hreached ⟨b, hf.sealed, mem_of_getElem? hp⟩ hw
  obtain ⟨hi, -⟩ := List.getElem?_eq_some_iff.mp hp
  have hlisted := hf.listed
  rw [hlist, h.getD_lists (by omega)]
  exact ⟨w', hw', hroot'.trans (h.roots _ _ hroot)⟩

theorem Finished.later {b x phi : Nat} (hf : Finished final s opens b x phi) (h : Keeps final s opens s' opens') :
    Finished final s' opens' b x phi := by
  obtain ⟨-, hlist, hop, -⟩ := h.closed phi hf.lt hf.closed
  obtain ⟨-, hpreds⟩ := h.preds b hf.sealed
  refine ⟨hf.toListed.later h, ?_⟩
  rw [hop, hlist, hpreds]
  rcases hf.kept with hphi | ⟨hcopy, hall⟩
  · exact .inl hphi
  refine .inr ⟨hcopy, fun i hi => ?_⟩
  have hlisted := hf.listed
  rw [h.getD_lists (by omega)]
  exact h.roots _ _ (hall i hi)

theorem Entering.later {b x v : Nat} (he : Entering final s opens b x v) (h : Keeps final s opens s' opens') :
    Entering final s' opens' b x v := by
  cases he with
  | through p w hsealed hpreds hp hw hroot =>
    obtain ⟨hsealed', hpreds'⟩ := h.preds b hsealed
    have hmem : p ∈ (s.block b).preds := by
      rw [hpreds]
      exact mem_singleton_self p
    obtain ⟨w', hw', hroot'⟩ := h.defined x p w hp ⟨b, hsealed, hmem⟩ hw
    exact .through p w' hsealed' (hpreds'.trans hpreds) hp hw' (hroot'.trans (h.roots _ _ hroot))
  | phi phi hf hroot => exact .phi phi (hf.later h) (h.roots _ _ hroot)
  | opened phi hmem hroot =>
    rcases h.opened _ hmem with hmem' | hf
    · exact .opened phi hmem' (h.roots _ _ hroot)
    · exact .phi phi hf (h.roots _ _ hroot)

theorem Current.later {events : List BuildEvent} {b x v : Nat} (hc : Current final s opens events b x v)
    (h : Keeps final s opens s' opens') : Current final s' opens' events b x v := by
  unfold Current at hc ⊢
  split at hc
  · exact h.roots _ _ hc
  exact ⟨hc.1, hc.2.later h⟩

variable {b x v w : Nat}

theorem Entering.congr (he : Entering final s opens b x v) (hroot : root s v = root s w) :
    Entering final s opens b x w := by
  cases he with
  | through p u hsealed hpreds hp hu hv => exact .through p u hsealed hpreds hp hu (hv.trans hroot)
  | phi phi hf hv => exact .phi phi hf (hv.trans hroot)
  | opened phi hmem hv => exact .opened phi hmem (hv.trans hroot)

theorem Current.congr {events : List BuildEvent} (hc : Current final s opens events b x v)
    (hroot : root s v = root s w) : Current final s opens events b x w := by
  unfold Current at hc ⊢
  split at hc
  · exact Eq.trans hc hroot
  exact ⟨hc.1, hc.2.congr hroot⟩

theorem Available.congr (ha : Available final s b v) (hroot : root s v = root s w) :
    Available final s b w := by
  unfold Available at ha ⊢
  rw [← hroot]
  exact ha

theorem needed_ne_entry (h : final.Needed x b) : b ≠ 0 := by
  rintro rfl
  obtain ⟨c, hc, -⟩ := h [] .start
  cases hc

theorem EventOk.later {earlier : List BuildEvent} {b : Nat} {e : BuildEvent} (hb : final.Reached b)
    (he : EventOk final s opens earlier b e)
    (hopened : ∀ e ∈ opens, (s.value e.phi).op = .phi) (h : Keeps final s opens s' opens') :
    EventOk final s' opens' earlier b e := by
  cases e with
  | define id =>
    obtain ⟨hlt, hphi, hcopy, hblock, hfresh⟩ := he
    obtain ⟨hblock', -, hop', -⟩ := h.closed id hlt fun e he heq => hphi (heq ▸ hopened e he)
    refine ⟨Nat.lt_of_lt_of_le hlt h.values, ?_, ?_, hblock'.trans hblock, hfresh⟩
    · rw [hop']
      exact hphi
    · rw [hop']
      exact hcopy
  | write x w =>
    rcases he with ⟨home, hne, hdom, havailable⟩ | hearlier
    · exact .inl ⟨home, hne, hdom, h.available _ _ (hdom.reached hb) havailable⟩
    · exact .inr hearlier
  | read x id => exact Current.later he h

end

end Dyn.Backend
