import Mathlib.Data.List.Perm.Subperm

/-!
# Descents

A partial function is followed from a point until it has no value.  A descent visits no point
twice, so that a list of the points where the function has a value bounds its length.  Where these
points are finitely many, a point has a descent or leads into a circle.
-/

namespace Dyn.Lib

open List

variable {V : Type} {next : V → Option V}

/-- Following `next` for `n` steps from `v` ends in `r`. -/
inductive Descent (next : V → Option V) : Nat → V → V → Prop
  | stop {v : V} : next v = none → Descent next 0 v v
  | step {v u r : V} {n : Nat} : next v = some u → Descent next n u r → Descent next (n + 1) v r

namespace Descent

theorem last {n : Nat} {v r : V} (h : Descent next n v r) : next r = none := by
  induction h with
  | stop hnone => exact hnone
  | step _ _ ih => exact ih

theorem unique {n m : Nat} {v r r' : V} (h : Descent next n v r) (h' : Descent next m v r') : n = m ∧ r = r' := by
  induction h generalizing m r' with
  | stop hnone =>
    cases h' with
    | stop _ => exact ⟨rfl, rfl⟩
    | step hsome _ => simp [hnone] at hsome
  | step hsome _ ih =>
    cases h' with
    | stop hnone => simp [hnone] at hsome
    | step hsome' hrest =>
      rw [hsome] at hsome'
      cases hsome'
      obtain ⟨rfl, rfl⟩ := ih hrest
      exact ⟨rfl, rfl⟩

theorem left {n : Nat} {v r : V} (h : Descent next n v r) :
    ∃ vs : List V, vs.length = n ∧ vs.Nodup ∧ ∀ u ∈ vs, next u ≠ none ∧ ∃ m ≤ n, m ≠ 0 ∧ Descent next m u r := by
  induction h with
  | stop _ => exact ⟨[], rfl, nodup_nil, fun u hu => absurd hu not_mem_nil⟩
  | @step v u r n hsome hrest ih =>
    obtain ⟨vs, hlength, hnodup, hvs⟩ := ih
    refine ⟨v :: vs, by rw [length_cons, hlength], nodup_cons.mpr ⟨fun hv => ?_, hnodup⟩, ?_⟩
    · obtain ⟨-, m, hm, -, hdescent⟩ := hvs v hv
      have heq := (hdescent.unique (.step hsome hrest)).1
      omega
    intro w hw
    rcases mem_cons.mp hw with rfl | hw
    · exact ⟨by simp [hsome], n + 1, Nat.le_refl _, by omega, .step hsome hrest⟩
    · obtain ⟨hne, m, hm, hzero, hdescent⟩ := hvs w hw
      exact ⟨hne, m, by omega, hzero, hdescent⟩

theorem le_length {n : Nat} {v r : V} (h : Descent next n v r) (points : List V)
    (hpoints : ∀ u, next u ≠ none → u ∈ points) : n ≤ points.length := by
  obtain ⟨vs, hlength, hnodup, hvs⟩ := h.left
  rw [← hlength]
  exact (hnodup.subperm fun u hu => hpoints u (hvs u hu).1).length_le

theorem later {n : Nat} {v r u : V} (h : Descent next n v r) (hvu : Relation.TransGen (fun a b => next a = some b) v u) :
    ∃ m < n, Descent next m u r := by
  have hone : ∀ {n a b}, Descent next n a r → next a = some b → ∃ m < n, Descent next m b r := by
    intro n a b hd hnext
    cases hd with
    | stop hnone =>
      rw [hnone] at hnext
      cases hnext
    | step hsome hrest =>
      rw [hsome] at hnext
      cases hnext
      exact ⟨_, Nat.lt_succ_self _, hrest⟩
  induction hvu with
  | single hnext => exact hone h hnext
  | tail _ hnext ih =>
    obtain ⟨m, hm, hd⟩ := ih
    obtain ⟨k, hk, hd'⟩ := hone hd hnext
    exact ⟨k, Nat.lt_trans hk hm, hd'⟩

theorem no_circle {n : Nat} {v r u : V} (h : Descent next n v r)
    (hvu : Relation.ReflTransGen (fun a b => next a = some b) v u) :
    ¬ Relation.TransGen (fun a b => next a = some b) u u := by
  intro hcircle
  have hdown : ∃ m, Descent next m u r := by
    rcases Relation.reflTransGen_iff_eq_or_transGen.mp hvu with rfl | htrans
    · exact ⟨n, h⟩
    · obtain ⟨m, -, hd⟩ := h.later htrans
      exact ⟨m, hd⟩
  obtain ⟨m, hd⟩ := hdown
  obtain ⟨k, hk, hd'⟩ := hd.later hcircle
  have heq := (hd.unique hd').1
  omega

end Descent

theorem descent_or_circle [DecidableEq V] (points : List V) (v : V)
    (hpoints : ∀ u, Relation.ReflTransGen (fun a b => next a = some b) v u → next u ≠ none → u ∈ points) :
    (∃ n r, Descent next n v r) ∨ ∃ u, Relation.ReflTransGen (fun a b => next a = some b) v u ∧
      Relation.TransGen (fun a b => next a = some b) u u := by
  generalize hlength : points.length = length
  induction length using Nat.strongRecOn generalizing points v with
  | _ length ih =>
    cases hnext : next v with
    | none => exact .inl ⟨0, v, .stop hnext⟩
    | some u =>
      by_cases hback : Relation.ReflTransGen (fun a b => next a = some b) u v
      · exact .inr ⟨v, .refl, .head' hnext hback⟩
      have hv : v ∈ points := hpoints v .refl (by rw [hnext]; exact Option.some_ne_none u)
      have hshorter : (points.erase v).length < length := by
        have hpos := length_pos_of_mem hv
        rw [length_erase_of_mem hv, hlength]
        omega
      have hrest := ih _ hshorter (points.erase v) u (fun w hw hne => ?_) rfl
      · rcases hrest with ⟨n, r, hd⟩ | ⟨w, hw, hcircle⟩
        · exact .inl ⟨n + 1, r, .step hnext hd⟩
        · exact .inr ⟨w, .head hnext hw, hcircle⟩
      refine (mem_erase_of_ne ?_).mpr (hpoints w (.head hnext hw) hne)
      rintro rfl
      exact hback hw

end Dyn.Lib
