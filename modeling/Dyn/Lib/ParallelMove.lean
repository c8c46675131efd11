import Mathlib.Data.Fintype.EquivFin

/-!
# Parallel moves

A move gives a location what another location holds, or a value.  A list of moves with distinct
destinations is done in parallel when all sources are read before anything is written
(`after`).  A program that does one move after the other, with scratch locations, keeps
`Pending`: the moves that are left, done in parallel from here, still lead to the wanted
contents.

A move that nothing left reads the destination of can be done (`Pending.transfer`).  When there is
none, every source is the destination of a move that is left (`stuck`), so that no scratch
location is in use and the contents of a destination can be put there (`Pending.park`).
-/

namespace Dyn.Lib

open List

/-- A location gets what another one holds, or a value. -/
structure ParallelMove (L V : Type) where
  dst : L
  src : L ⊕ V

namespace ParallelMove

variable {L V : Type}

def held (σ : L → V) : L ⊕ V → V
  | .inl l => σ l
  | .inr v => v

def Reads (m : ParallelMove L V) (l : L) : Prop := m.src = .inl l

/-- The move reads no location of the set. -/
def Avoids (m : ParallelMove L V) (K : Set L) : Prop := ∀ l ∈ K, ¬ m.Reads l

variable {m : ParallelMove L V}

theorem held_congr {σ σ' : L → V} (h : ∀ l, m.Reads l → σ' l = σ l) :
    held σ' m.src = held σ m.src := by
  cases hsrc : m.src with
  | inl l => exact h l hsrc
  | inr v => rfl

section After

variable [DecidableEq L]

/-- The contents after the moves are done in parallel. -/
def after (σ : L → V) (ms : List (ParallelMove L V)) (l : L) : V :=
  match ms.find? fun m => m.dst = l with
  | some m => held σ m.src
  | none => σ l

variable {ms : List (ParallelMove L V)}

theorem after_dst {σ : L → V} (hdistinct : (ms.map ParallelMove.dst).Nodup) {m : ParallelMove L V}
    (hm : m ∈ ms) : after σ ms m.dst = held σ m.src := by
  have hfind : ms.find? (fun m' => m'.dst = m.dst) = some m := by
    induction ms with
    | nil => cases hm
    | cons m' ms ih =>
      rw [map_cons, nodup_cons] at hdistinct
      rcases mem_cons.mp hm with rfl | hmem
      · simp
      have hne : m'.dst ≠ m.dst := fun heq =>
        hdistinct.1 (heq ▸ mem_map_of_mem hmem)
      rw [find?_cons_of_neg (by simpa using hne)]
      exact ih hdistinct.2 hmem
  rw [after, hfind]

theorem after_of_notMem {σ : L → V} {l : L} (hl : l ∉ ms.map ParallelMove.dst) :
    after σ ms l = σ l := by
  have hfind : ms.find? (fun m => m.dst = l) = none := by
    rw [find?_eq_none]
    intro m hm
    rw [decide_eq_true_eq]
    exact fun heq => hl (heq ▸ mem_map_of_mem hm)
  rw [after, hfind]

end After

/-- The move with one source put in the place of another. -/
def redirect [DecidableEq L] (l t : L) (m : ParallelMove L V) : ParallelMove L V :=
  { m with src := m.src.map (fun k => if k = l then t else k) id }

theorem redirect_reads [DecidableEq L] {l t k : L} (h : (redirect l t m).Reads k) :
    k ≠ l ∧ m.Reads k ∨ k = t ∧ m.Reads l := by
  unfold redirect Reads at h
  unfold Reads
  cases hsrc : m.src with
  | inr v => rw [hsrc] at h; cases h
  | inl k' =>
    rw [hsrc, Sum.map_inl, Sum.inl.injEq] at h
    split_ifs at h with hk
    · exact .inr ⟨h.symm, by rw [hk]⟩
    · exact .inl ⟨h ▸ hk, by rw [h]⟩

/-- The moves `ms`, done in parallel from `σ`, lead to the contents `w` outside the scratch. -/
structure Pending (scratch : Set L) (w : L → V) (ms : List (ParallelMove L V)) (σ : L → V) : Prop where
  distinct : (ms.map ParallelMove.dst).Nodup
  apart : ∀ m ∈ ms, m.dst ∉ scratch
  wanted : ∀ m ∈ ms, held σ m.src = w m.dst
  rest : ∀ l, l ∉ scratch → l ∉ ms.map ParallelMove.dst → σ l = w l

namespace Pending

variable {scratch : Set L} {w σ σ' : L → V} {ms ms' : List (ParallelMove L V)}

theorem start [DecidableEq L] (hdistinct : (ms.map ParallelMove.dst).Nodup)
    (hapart : ∀ m ∈ ms, m.dst ∉ scratch) : Pending scratch (after σ ms) ms σ :=
  ⟨hdistinct, hapart, fun _ hm => (after_dst hdistinct hm).symm,
    fun _ _ hl => (after_of_notMem hl).symm⟩

theorem finish (h : Pending scratch w [] σ) {l : L} (hl : l ∉ scratch) : σ l = w l :=
  h.rest l hl not_mem_nil

theorem perm (h : Pending scratch w ms σ) (hperm : ms.Perm ms') : Pending scratch w ms' σ := by
  have hmap := hperm.map ParallelMove.dst
  exact ⟨hmap.nodup_iff.mp h.distinct, fun m hm => h.apart m (hperm.mem_iff.mpr hm),
    fun m hm => h.wanted m (hperm.mem_iff.mpr hm),
    fun l hl hnot => h.rest l hl fun hmem => hnot (hmap.mem_iff.mp hmem)⟩

theorem sublist (h : Pending scratch w ms σ) (hsub : ms'.Sublist ms)
    (hself : ∀ m ∈ ms, m ∉ ms' → m.Reads m.dst) : Pending scratch w ms' σ := by
  refine ⟨h.distinct.sublist (hsub.map _), fun m hm => h.apart m (hsub.subset hm),
    fun m hm => h.wanted m (hsub.subset hm), fun l hl hnot => ?_⟩
  by_cases hmem : l ∈ ms.map ParallelMove.dst
  · obtain ⟨m, hm, rfl⟩ := mem_map.mp hmem
    have hwanted := h.wanted m hm
    rw [hself m hm fun hm' => hnot (mem_map_of_mem hm')] at hwanted
    exact hwanted
  · exact h.rest l hl hmem

/-- **A transfer** does a move that nothing left reads the destination of. -/
theorem transfer {m : ParallelMove L V} {K : Set L} (h : Pending scratch w (m :: ms) σ)
    (hunread : ∀ m' ∈ ms, ¬ m'.Reads m.dst) (havoid : ∀ m' ∈ ms, m'.Avoids K) (hK : K ⊆ scratch)
    (hdst : σ' m.dst = held σ m.src) (hother : ∀ l, l ∉ K → l ≠ m.dst → σ' l = σ l) :
    Pending scratch w ms σ' := by
  have hdistinct := h.distinct
  rw [map_cons, nodup_cons] at hdistinct
  refine ⟨hdistinct.2, fun m' hm' => h.apart m' (mem_cons_of_mem _ hm'), fun m' hm' => ?_,
    fun l hl hnot => ?_⟩
  · rw [held_congr (σ := σ) fun l hread => hother l (fun hmem => havoid m' hm' l hmem hread)
      (fun heq => hunread m' hm' (heq ▸ hread))]
    exact h.wanted m' (mem_cons_of_mem _ hm')
  by_cases heq : l = m.dst
  · rw [heq, hdst]
    exact h.wanted m mem_cons_self
  rw [hother l (fun hmem => hl (hK hmem)) heq]
  refine h.rest l hl ?_
  rw [map_cons, mem_cons, not_or]
  exact ⟨heq, hnot⟩

/-- **Parking** puts what a location holds into an unused scratch location, for all its readers. -/
theorem park [DecidableEq L] {l t : L} {K : Set L} (h : Pending scratch w ms σ) (ht : t ∈ scratch)
    (hunused : ∀ m ∈ ms, ¬ m.Reads t) (havoid : ∀ m ∈ ms, m.Avoids K) (hK : K ⊆ scratch)
    (htemp : σ' t = σ l) (hother : ∀ k, k ∉ K → k ≠ t → σ' k = σ k) :
    Pending scratch w (ms.map (redirect l t)) σ' := by
  have hmap : (ms.map (redirect l t)).map ParallelMove.dst = ms.map ParallelMove.dst := by
    rw [map_map]
    exact map_congr_left fun _ _ => rfl
  refine ⟨hmap ▸ h.distinct, ?_, ?_, fun k hk hnot => ?_⟩
  · intro m' hm'
    obtain ⟨m, hm, rfl⟩ := mem_map.mp hm'
    exact h.apart m hm
  · intro m' hm'
    obtain ⟨m, hm, rfl⟩ := mem_map.mp hm'
    refine Eq.trans ?_ (h.wanted m hm)
    unfold redirect
    cases hsrc : m.src with
    | inr v => rfl
    | inl k =>
      rw [Sum.map_inl]
      split_ifs with hk
      · exact htemp.trans (by rw [hk]; rfl)
      · exact hother k (fun hmem => havoid m hm k hmem hsrc) fun heq => hunused m hm (heq ▸ hsrc)
  · rw [hother k (fun hmem => hk (hK hmem)) fun heq => hk (heq ▸ ht)]
    exact h.rest k hk (hmap ▸ hnot)

end Pending

/-- **Cycles only.**  When every destination is read by another move, every move reads the
destination of a move: as the destinations are distinct, the readers are all the moves. -/
theorem stuck {ms : List (ParallelMove L V)} (hdistinct : (ms.map ParallelMove.dst).Nodup)
    (hblocked : ∀ i : Fin ms.length, ∃ j : Fin ms.length, (ms.get j).Reads (ms.get i).dst) :
    ∀ m ∈ ms, ∃ m' ∈ ms, m.Reads m'.dst := by
  choose reader hreader using hblocked
  have hinjective : Function.Injective reader := by
    intro i j heq
    have hi := hreader i
    rw [heq] at hi
    have hdst : (ms.get i).dst = (ms.get j).dst := Sum.inl.inj (hi.symm.trans (hreader j))
    have hmap : (ms.map ParallelMove.dst).get ⟨i.val, by simp⟩ = (ms.map ParallelMove.dst).get ⟨j.val, by simp⟩ := by
      simpa using hdst
    exact Fin.ext ((hdistinct.getElem_inj_iff).mp hmap)
  have hsurjective := Finite.injective_iff_surjective.mp hinjective
  intro m hm
  obtain ⟨j, rfl⟩ := get_of_mem hm
  obtain ⟨i, rfl⟩ := hsurjective j
  exact ⟨ms.get i, get_mem _ _, hreader i⟩

end ParallelMove

end Dyn.Lib
