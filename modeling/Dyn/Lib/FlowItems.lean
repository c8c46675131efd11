import Dyn.Lib.FlowGraph
import Mathlib.Data.List.Nodup

/-!
# Items of a flow graph

Each vertex of a flow graph has a list of items that a run passes one after another.  An item is
before a point when every run that comes to the point has passed it in its last visit of the item's
vertex.  What holds of an item once it is passed, and depends only on items before it, holds at
every point that the item is before.
-/

namespace Dyn.Lib
namespace Flow

open List

variable {V I S : Type} {edge : V → V → Prop} {entry : V} {items : V → List I}

/-- The item is before the point of `b` that has `n` items before it. -/
def Before (edge : V → V → Prop) (entry : V) (items : V → List I) (v : I) (b : V) (n : Nat) : Prop :=
  v ∈ (items b).take n ∨ ∃ c, v ∈ items c ∧ c ≠ b ∧ Dominates edge entry c b

structure Placed (items : V → List I) : Prop where
  once : ∀ b c v, v ∈ items b → v ∈ items c → b = c
  nodup : ∀ b, (items b).Nodup

variable {v : I} {b : V} {n : Nat}

theorem Before.mono {m : Nat} (h : Before edge entry items v b m) (hle : m ≤ n) :
    Before edge entry items v b n := by
  rcases h with hmem | hother
  · refine .inl ?_
    rw [← Nat.min_eq_left hle, ← take_take] at hmem
    exact mem_of_mem_take hmem
  · exact .inr hother

theorem take_succ_of_getElem? {xs : List I} (h : xs[n]? = some v) :
    xs.take (n + 1) = xs.take n ++ [v] := by
  rw [take_add_one, h]
  rfl

theorem before_succ (h : (items b)[n]? = some v) : Before edge entry items v b (n + 1) := by
  refine .inl ?_
  rw [take_succ_of_getElem? h]
  exact mem_append_right _ (mem_singleton_self v)

/-- What is before the next point is the item between the two, or before the first one. -/
theorem Before.cases_succ {w : I} (hw : (items b)[n]? = some w)
    (h : Before edge entry items v b (n + 1)) : v = w ∨ Before edge entry items v b n := by
  rcases h with hmem | hother
  · rw [take_succ_of_getElem? hw] at hmem
    rcases mem_append.mp hmem with hold | hnew
    · exact .inr (.inl hold)
    · exact .inl (mem_singleton.mp hnew)
  · exact .inr (.inr hother)

theorem Before.mem (h : Before edge entry items v b n) :
    ∃ c, v ∈ items c ∧ Dominates edge entry c b := by
  rcases h with hmem | ⟨c, hmem, -, hdom⟩
  · exact ⟨b, mem_of_mem_take hmem, .refl b⟩
  · exact ⟨c, hmem, hdom⟩

theorem Placed.not_before (h : Placed items) (hv : (items b)[n]? = some v) :
    ¬ Before edge entry items v b n := by
  obtain ⟨hn, hget⟩ := List.getElem?_eq_some_iff.mp hv
  rintro (hmem | ⟨c, hmem, hne, -⟩)
  · obtain ⟨k, hk, heq⟩ := mem_take_iff_getElem.mp hmem
    rw [← hget] at heq
    have hsame := (List.Nodup.getElem_inj_iff (h.nodup b)).mp heq
    omega
  · exact hne (h.once c b v hmem (hget ▸ getElem_mem hn))

variable {c : V}

theorem Placed.before_lt {k : Nat} (h : Placed items) (hv : (items c)[k]? = some v)
    (hbefore : Before edge entry items v b n) :
    c = b ∧ k < n ∨ c ≠ b ∧ Dominates edge entry c b := by
  obtain ⟨hk, hget⟩ := List.getElem?_eq_some_iff.mp hv
  have hmem : v ∈ items c := hget ▸ getElem_mem hk
  rcases hbefore with htake | ⟨d, hd, hne, hdom⟩
  · have heq := h.once c b v hmem (mem_of_mem_take htake)
    subst heq
    refine .inl ⟨rfl, ?_⟩
    by_contra hle
    have hbefore : Before edge entry items v c n := .inl htake
    exact h.not_before hv (hbefore.mono (Nat.le_of_not_lt hle))
  have heq := h.once c d v hmem hd
  subst heq
  exact .inr ⟨hne, hdom⟩

/-- What is before an item is before all that the item is before. -/
theorem Before.trans {u : I} {k : Nat} (h : Placed items) (hb : Reached edge entry b)
    (hv : (items c)[k]? = some v) (hbefore : Before edge entry items v b n)
    (hu : Before edge entry items u c k) : Before edge entry items u b n := by
  rcases h.before_lt hv hbefore with ⟨rfl, hlt⟩ | ⟨hne, hdom⟩
  · exact hu.mono (Nat.le_of_lt hlt)
  obtain ⟨d, hd, hdom'⟩ := hu.mem
  refine .inr ⟨d, hd, ?_, hdom'.trans hdom⟩
  rintro rfl
  exact hne (Dominates.antisymm hdom hdom' (hdom.reached hb))

/-- What is before the beginning of a vertex is before the ends of its predecessors, and not in it. -/
theorem Before.pred (h : Before edge entry items v c 0) (hedge : edge b c) :
    Before edge entry items v b (items b).length ∧ ∃ d, v ∈ items d ∧ d ≠ c ∧ Dominates edge entry d c := by
  rcases h with hmem | ⟨d, hd, hne, hdom⟩
  · cases hmem
  refine ⟨?_, d, hd, hne, hdom⟩
  by_cases hdb : d = b
  · subst hdb
    refine .inl ?_
    rw [take_length]
    exact hd
  · exact .inr ⟨d, hd, hdb, hdom.pred hne hedge⟩

/-- What is before the end of the only predecessor is before the vertex. -/
theorem Before.single (hc : Reached edge entry c) (hentry : c ≠ entry)
    (hsingle : ∀ u, edge u c → u = b) (h : Before edge entry items v b (items b).length) :
    Before edge entry items v c 0 := by
  obtain ⟨d, hd, hdom⟩ := h.mem
  have hnot : ¬ Dominates edge entry c b := by
    obtain ⟨u, -, hedge, hnot⟩ := hc.enters hentry
    rw [hsingle u hedge] at hnot
    exact hnot
  refine .inr ⟨d, hd, ?_, ?_⟩
  · rintro rfl
    exact hnot hdom
  refine dominates_of_preds hentry fun u _ hedge => .inr ?_
  rw [hsingle u hedge]
  exact hdom

section

variable (edge entry items) (step : I → S → S → Prop) (enter : V → V → S → S → Prop) (start : S → Prop)

/-- A run comes to the point with a state. -/
inductive Visits : V → Nat → S → Prop
  | start {σ : S} : start σ → Visits entry 0 σ
  | step {b : V} {n : Nat} {v : I} {σ σ' : S} : Visits b n σ → (items b)[n]? = some v → step v σ σ' →
      Visits b (n + 1) σ'
  | enter {b c : V} {σ σ' : S} : Visits b (items b).length σ → edge b c → enter b c σ σ' → Visits c 0 σ'

end

section

variable {step : I → S → S → Prop} {enter : V → V → S → S → Prop} {start : S → Prop}

theorem Visits.reached {b : V} {n : Nat} {σ : S} (h : Visits edge entry items step enter start b n σ) :
    Reached edge entry b := by
  induction h with
  | start _ => exact entry_reached
  | step _ _ _ ih => exact ih
  | enter _ hedge _ ih => exact ih.step hedge

/-- **What holds of an item once it is passed holds where the item is before.**  It may use items that
are before the item. -/
theorem Visits.facts {P : I → S → Prop} {U : I → I → Prop} (hplaced : Placed items)
    (huses : ∀ c k v u, (items c)[k]? = some v → Reached edge entry c → U v u → Before edge entry items u c k)
    (hown : ∀ b n v σ σ', Visits edge entry items step enter start b n σ → (items b)[n]? = some v →
      (∀ u, Before edge entry items u b n → P u σ) → step v σ σ' → P v σ')
    (hother : ∀ v w σ σ', step w σ σ' → w ≠ v → ¬ U v w → P v σ → P v σ')
    (henter : ∀ v b c σ σ', enter b c σ σ' → v ∉ items c → (∀ w ∈ items c, ¬ U v w) → P v σ → P v σ')
    {b : V} {n : Nat} {σ : S} (h : Visits edge entry items step enter start b n σ) :
    ∀ v, Before edge entry items v b n → P v σ := by
  induction h with
  | start _ =>
    rintro v (hmem | ⟨c, hmem, hne, hdom⟩)
    · cases hmem
    · have heq := mem_singleton.mp (hdom _ .start)
      exact absurd heq hne
  | @step b n w σ σ' hvisits hw hstep ih =>
    intro v hv
    rcases hv.cases_succ hw with rfl | hold
    · exact hown b n v σ σ' hvisits hw ih hstep
    have hne : w ≠ v := by
      rintro rfl
      exact hplaced.not_before hw hold
    refine hother v w σ σ' hstep hne (fun hused => ?_) (ih v hold)
    -- An item that `v` uses is before `v`, and so not at the point.
    obtain ⟨c, hc, hdom⟩ := hold.mem
    obtain ⟨k, hk, hget⟩ := getElem_of_mem hc
    have hplace : (items c)[k]? = some v := List.getElem?_eq_some_iff.mpr ⟨hk, hget⟩
    have hbefore := huses c k v w hplace (hdom.reached hvisits.reached) hused
    exact hplaced.not_before hw (.trans hplaced hvisits.reached hplace hold hbefore)
  | @enter b c σ σ' hvisits hedge henters ih =>
    intro v hv
    obtain ⟨hpred, d, hd, hne, hdom⟩ := hv.pred hedge
    have hc : Reached edge entry c := hvisits.reached.step hedge
    refine henter v b c σ σ' henters (fun hmem => hne (hplaced.once d c v hd hmem)) (fun w hw hused => ?_) (ih v hpred)
    obtain ⟨k, hk, hget⟩ := getElem_of_mem hd
    have hplace : (items d)[k]? = some v := List.getElem?_eq_some_iff.mpr ⟨hk, hget⟩
    obtain ⟨e, he, hdom'⟩ := (huses d k v w hplace (hdom.reached hc) hused).mem
    have heq := hplaced.once e c w he hw
    subst heq
    exact hne (Dominates.antisymm hdom hdom' (hdom.reached hc))

end

end Flow
end Dyn.Lib
