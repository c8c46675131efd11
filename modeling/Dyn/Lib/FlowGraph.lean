import Mathlib.Logic.Relation
import Mathlib.Data.List.Basic

/-!
# Flow graphs and dominance

A flow graph is a relation of edges and an entry.  A trail is a way from the entry to a vertex,
the last vertex first; a vertex dominates another one when every trail to the second passes
through the first.
-/

namespace Dyn.Lib
namespace Flow

open List

variable {V : Type} {edge : V → V → Prop} {entry : V}

/-- The vertices on a way from the entry, the last one first. -/
inductive Trail (edge : V → V → Prop) (entry : V) : List V → V → Prop
  | start : Trail edge entry [entry] entry
  | step {u v : V} {trail : List V} : Trail edge entry trail u → edge u v → Trail edge entry (v :: trail) v

def Reached (edge : V → V → Prop) (entry v : V) : Prop := ∃ trail, Trail edge entry trail v

/-- Every way from the entry to `b` passes through `a`. -/
def Dominates (edge : V → V → Prop) (entry a b : V) : Prop := ∀ trail, Trail edge entry trail b → a ∈ trail

/-- The dominator of `b` other than `b` that all the others dominate. -/
structure ImmediateDominator (edge : V → V → Prop) (entry a b : V) : Prop where
  ne : a ≠ b
  dominates : Dominates edge entry a b
  last : ∀ d, d ≠ b → Dominates edge entry d b → Dominates edge entry d a

variable {trail : List V} {v : V}

theorem Trail.eq_cons (h : Trail edge entry trail v) : ∃ before, trail = v :: before := by
  cases h with
  | start => exact ⟨[], rfl⟩
  | step h _ => exact ⟨_, rfl⟩

theorem Trail.last_mem (h : Trail edge entry trail v) : v ∈ trail := by
  obtain ⟨-, rfl⟩ := h.eq_cons
  exact mem_cons_self

theorem Trail.entry_mem (h : Trail edge entry trail v) : entry ∈ trail := by
  induction h with
  | start => exact mem_cons_self
  | step _ _ ih => exact mem_cons_of_mem _ ih

theorem Trail.cut (h : Trail edge entry trail v) {later before : List V} {u : V}
    (hcut : trail = later ++ u :: before) : Trail edge entry (u :: before) u := by
  induction h generalizing later with
  | start =>
    cases later with
    | nil =>
      cases hcut
      exact .start
    | cons w later => simp at hcut
  | step h hedge ih =>
    cases later with
    | nil =>
      cases hcut
      exact .step h hedge
    | cons w later =>
      rw [cons_append, cons.injEq] at hcut
      exact ih hcut.2

theorem Trail.mem_reached {u : V} (h : Trail edge entry trail v) (hu : u ∈ trail) :
    Reached edge entry u := by
  obtain ⟨later, before, hcut⟩ := append_of_mem hu
  exact ⟨_, h.cut hcut⟩

/-- A trail has a part that ends at the first visit of its last vertex. -/
theorem Trail.first (h : Trail edge entry trail v) :
    ∃ before, Trail edge entry (v :: before) v ∧ v ∉ before ∧ ∀ w ∈ v :: before, w ∈ trail := by
  generalize hlength : trail.length = n
  induction n using Nat.strongRecOn generalizing trail with
  | _ n ih =>
    obtain ⟨before, rfl⟩ := h.eq_cons
    by_cases hmem : v ∈ before
    · obtain ⟨later, rest, hcut⟩ := append_of_mem hmem
      have hshorter : Trail edge entry (v :: rest) v :=
        h.cut (show _ = (v :: later) ++ v :: rest by rw [hcut, cons_append])
      obtain ⟨first, htrail, hfresh, hsub⟩ := ih (v :: rest).length (by
        rw [← hlength, hcut]
        simp only [length_cons, length_append]
        omega) hshorter rfl
      refine ⟨first, htrail, hfresh, fun w hw => ?_⟩
      rw [hcut]
      exact mem_cons_of_mem _ (mem_append_right _ (hsub w hw))
    · exact ⟨before, h, hmem, fun w hw => hw⟩

theorem Reached.first (h : Reached edge entry v) :
    ∃ before, Trail edge entry (v :: before) v ∧ v ∉ before := by
  obtain ⟨trail, htrail⟩ := h
  obtain ⟨before, hfirst, hfresh, -⟩ := htrail.first
  exact ⟨before, hfirst, hfresh⟩

theorem entry_reached : Reached edge entry entry := ⟨_, .start⟩

theorem Reached.step {u v : V} (h : Reached edge entry u) (hedge : edge u v) : Reached edge entry v := by
  obtain ⟨trail, htrail⟩ := h
  exact ⟨_, htrail.step hedge⟩

/-- What holds of the entry and passes along the edges holds of what is reached. -/
theorem Reached.induct {P : V → Prop} (hentry : P entry)
    (hstep : ∀ u v, Reached edge entry u → P u → edge u v → P v) (h : Reached edge entry v) :
    P v := by
  obtain ⟨trail, htrail⟩ := h
  induction htrail with
  | start => exact hentry
  | step h hedge ih => exact hstep _ _ ⟨_, h⟩ ih hedge

theorem Reached.pred (h : Reached edge entry v) (hv : v ≠ entry) :
    ∃ u, Reached edge entry u ∧ edge u v := by
  obtain ⟨trail, htrail⟩ := h
  cases htrail with
  | start => exact absurd rfl hv
  | step h hedge => exact ⟨_, ⟨_, h⟩, hedge⟩

theorem Dominates.refl (v : V) : Dominates edge entry v v := fun _ h => h.last_mem

variable {a b : V}

theorem Dominates.trans {c : V} (hab : Dominates edge entry a b) (hbc : Dominates edge entry b c) :
    Dominates edge entry a c := by
  intro trail htrail
  obtain ⟨later, before, hcut⟩ := append_of_mem (hbc trail htrail)
  rw [hcut]
  exact mem_append_right _ (hab _ (htrail.cut hcut))

theorem entry_dominates (v : V) : Dominates edge entry entry v := fun _ h => h.entry_mem

theorem Dominates.reached (h : Dominates edge entry a b) (hb : Reached edge entry b) :
    Reached edge entry a := by
  obtain ⟨trail, htrail⟩ := hb
  exact htrail.mem_reached (h _ htrail)

theorem Dominates.pred {u : V} (h : Dominates edge entry a v) (hne : a ≠ v) (hedge : edge u v) :
    Dominates edge entry a u := by
  intro trail htrail
  rcases mem_cons.mp (h _ (htrail.step hedge)) with heq | hmem
  · exact absurd heq hne
  · exact hmem

theorem Dominates.antisymm (hab : Dominates edge entry a b) (hba : Dominates edge entry b a)
    (ha : Reached edge entry a) : a = b := by
  by_contra hne
  obtain ⟨before, htrail, hfresh⟩ := ha.first
  have hb : b ∈ before := (mem_cons.mp (hba _ htrail)).resolve_left (Ne.symm hne)
  obtain ⟨later, rest, hcut⟩ := append_of_mem hb
  have hshort : Trail edge entry (b :: rest) b :=
    htrail.cut (show _ = (a :: later) ++ b :: rest by rw [hcut, cons_append])
  refine hfresh ?_
  rw [hcut]
  exact mem_append_right _ (hab _ hshort)

/-- A vertex other than the entry is entered from a vertex that it does not dominate. -/
theorem Reached.enters (h : Reached edge entry v) (hv : v ≠ entry) :
    ∃ u, Reached edge entry u ∧ edge u v ∧ ¬ Dominates edge entry v u := by
  obtain ⟨before, htrail, hfresh⟩ := h.first
  cases htrail with
  | start => exact absurd rfl hv
  | step hbefore hedge => exact ⟨_, ⟨_, hbefore⟩, hedge, fun hdom => hfresh (hdom _ hbefore)⟩

/-- What dominates the predecessors that the vertex does not dominate itself dominates the vertex. -/
theorem dominates_of_preds (hv : v ≠ entry)
    (h : ∀ u, Reached edge entry u → edge u v → Dominates edge entry v u ∨ Dominates edge entry a u) :
    Dominates edge entry a v := by
  intro trail htrail
  obtain ⟨before, hfirst, hfresh, hsub⟩ := htrail.first
  cases hfirst with
  | start => exact absurd rfl hv
  | step hbefore hedge =>
    rcases h _ ⟨_, hbefore⟩ hedge with hself | ha
    · exact absurd (hself _ hbefore) hfresh
    · exact hsub a (mem_cons_of_mem _ (ha _ hbefore))

theorem ImmediateDominator.unique {a' : V} (h : ImmediateDominator edge entry a b)
    (h' : ImmediateDominator edge entry a' b) (hb : Reached edge entry b) : a = a' :=
  Dominates.antisymm (h'.last _ h.ne h.dominates) (h.last _ h'.ne h'.dominates) (h.dominates.reached hb)

end Flow
end Dyn.Lib
