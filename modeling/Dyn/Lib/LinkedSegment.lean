import Mathlib.Data.List.Nodup

/-!
# Linked segments

Nodes that point to one another describe a list: a segment of a doubly linked list, with what lies before and
behind it, and a chain with links in one direction.
-/

namespace Dyn.Lib

open List

variable {ν : Type}

/-- The nodes of a list are linked in both directions, between what is before and behind them. -/
def Segment (next prev : ν → Option ν) : Option ν → List ν → Option ν → Prop
  | _, [], _ => True
  | before, n :: rest, behind =>
      prev n = before ∧ next n = rest.head?.or behind ∧ Segment next prev (some n) rest behind

/-- The nodes of a list are linked from a link on, up to where a link stops. -/
def Chained (next : ν → Option ν) : Option ν → List ν → Option ν → Prop
  | link, [], stop => link = stop
  | link, n :: rest, stop => link = some n ∧ Chained next (next n) rest stop

namespace Segment

variable {next prev next' prev' : ν → Option ν} {before behind : Option ν}

@[simp] theorem nil : Segment next prev before [] behind := trivial

theorem cons_iff {n : ν} {rest : List ν} :
    Segment next prev before (n :: rest) behind ↔
      prev n = before ∧ next n = rest.head?.or behind ∧ Segment next prev (some n) rest behind := Iff.rfl

theorem singleton_iff {n : ν} : Segment next prev before [n] behind ↔ prev n = before ∧ next n = behind := by
  rw [cons_iff]
  simp

theorem append_iff {front back : List ν} :
    Segment next prev before (front ++ back) behind ↔
      Segment next prev before front (back.head?.or behind) ∧
        Segment next prev (front.getLast?.or before) back behind := by
  induction front generalizing before with
  | nil => simp
  | cons n front ih =>
    rw [cons_append, cons_iff, cons_iff, ih, and_assoc, and_assoc]
    cases front with
    | nil => simp
    | cons m front => simp [getLast?_cons]

variable {nodes : List ν}

theorem congr (hframe : ∀ n ∈ nodes, next' n = next n ∧ prev' n = prev n)
    (h : Segment next prev before nodes behind) : Segment next' prev' before nodes behind := by
  induction nodes generalizing before with
  | nil => trivial
  | cons n rest ih =>
    obtain ⟨hprev, hnext, hrest⟩ := h
    have hn := hframe n mem_cons_self
    exact ⟨hn.2.trans hprev, hn.1.trans hnext, ih (fun m hm => hframe m (mem_cons_of_mem _ hm)) hrest⟩

theorem congr_behind [DecidableEq ν] {behind' : Option ν} (hnodup : nodes.Nodup)
    (hprev : ∀ n ∈ nodes, prev' n = prev n)
    (hnext : ∀ n ∈ nodes, next' n = if nodes.getLast? = some n then behind' else next n)
    (h : Segment next prev before nodes behind) : Segment next' prev' before nodes behind' := by
  induction nodes generalizing before with
  | nil => trivial
  | cons n rest ih =>
    obtain ⟨hn, hlink, hrest⟩ := h
    obtain ⟨hout, hnodup⟩ := nodup_cons.1 hnodup
    have hnext' := hnext n mem_cons_self
    refine ⟨(hprev n mem_cons_self).trans hn, ?_, ih hnodup (fun m hm => hprev m (mem_cons_of_mem _ hm)) ?_ hrest⟩
    · cases rest with
      | nil =>
        rw [getLast?_singleton, if_pos rfl] at hnext'
        exact hnext'
      | cons m rest =>
        have hne : (n :: m :: rest).getLast? ≠ some n := by
          rw [getLast?_cons_cons]
          exact fun hlast => hout (mem_of_getLast? hlast)
        rw [if_neg hne] at hnext'
        rw [hnext', hlink]
        simp
    intro m hm
    have hm' := hnext m (mem_cons_of_mem _ hm)
    cases rest with
    | nil => cases hm
    | cons first rest =>
      rw [getLast?_cons_cons] at hm'
      exact hm'

theorem congr_before [DecidableEq ν] {before' : Option ν} (hnodup : nodes.Nodup)
    (hnext : ∀ n ∈ nodes, next' n = next n)
    (hprev : ∀ n ∈ nodes, prev' n = if nodes.head? = some n then before' else prev n)
    (h : Segment next prev before nodes behind) : Segment next' prev' before' nodes behind := by
  cases nodes with
  | nil => trivial
  | cons n rest =>
    obtain ⟨-, hlink, hrest⟩ := h
    have hout := (nodup_cons.1 hnodup).1
    have hn := hprev n mem_cons_self
    rw [head?_cons, if_pos rfl] at hn
    refine ⟨hn, (hnext n mem_cons_self).trans hlink, hrest.congr fun m hm => ?_⟩
    have hm' := hprev m (mem_cons_of_mem _ hm)
    have hne : (n :: rest).head? ≠ some m := by
      rw [head?_cons]
      exact fun heq => hout (Option.some.inj heq ▸ hm)
    rw [if_neg hne] at hm'
    exact ⟨hnext m (mem_cons_of_mem _ hm), hm'⟩

end Segment

namespace Chained

variable {next next' : ν → Option ν} {link stop : Option ν}

variable {nodes front : List ν}

theorem congr (hframe : ∀ n ∈ nodes, next' n = next n) (h : Chained next link nodes stop) :
    Chained next' link nodes stop := by
  induction nodes generalizing link with
  | nil => exact h
  | cons n rest ih =>
    obtain ⟨hlink, hrest⟩ := h
    refine ⟨hlink, ?_⟩
    rw [hframe n mem_cons_self]
    exact ih (fun m hm => hframe m (mem_cons_of_mem _ hm)) hrest

theorem append {front back : List ν} {middle : Option ν} (hfront : Chained next link front middle)
    (hback : Chained next middle back stop) : Chained next link (front ++ back) stop := by
  induction front generalizing link with
  | nil =>
    rw [show link = middle from hfront]
    exact hback
  | cons n front ih => exact ⟨hfront.1, ih hfront.2⟩

theorem split {back : List ν} {n : ν} (h : Chained next link (front ++ n :: back) stop) :
    Chained next link front (some n) ∧ Chained next (next n) back stop := by
  induction front generalizing link with
  | nil => exact ⟨h.1, h.2⟩
  | cons m front ih =>
    obtain ⟨hfront, hback⟩ := ih h.2
    exact ⟨⟨h.1, hfront⟩, hback⟩

theorem congr_stop [DecidableEq ν] {stop' : Option ν} (hne : nodes ≠ []) (hnodup : nodes.Nodup)
    (hnext : ∀ n ∈ nodes, next' n = if nodes.getLast? = some n then stop' else next n)
    (h : Chained next link nodes stop) : Chained next' link nodes stop' := by
  induction nodes generalizing link with
  | nil => exact absurd rfl hne
  | cons n rest ih =>
    obtain ⟨hlink, hrest⟩ := h
    obtain ⟨hout, hnodup⟩ := nodup_cons.1 hnodup
    have hn := hnext n mem_cons_self
    cases rest with
    | nil =>
      rw [getLast?_singleton, if_pos rfl] at hn
      exact ⟨hlink, hn⟩
    | cons m rest =>
      have hlast : (n :: m :: rest).getLast? ≠ some n := by
        rw [getLast?_cons_cons]
        exact fun hlast => hout (mem_of_getLast? hlast)
      rw [if_neg hlast] at hn
      refine ⟨hlink, ?_⟩
      rw [hn]
      refine ih (cons_ne_nil _ _) hnodup (fun k hk => ?_) hrest
      have hk' := hnext k (mem_cons_of_mem _ hk)
      rw [getLast?_cons_cons] at hk'
      exact hk'

/-- One node is taken out of a chain: what pointed to it points to what it pointed to. -/
theorem remove [DecidableEq ν] {node : ν} {back : List ν} (hnodup : (front ++ node :: back).Nodup)
    (hnext : ∀ n, n ≠ node → next' n = if front.getLast? = some n then next node else next n)
    (h : Chained next link (front ++ node :: back) stop) :
    Chained next' (if front = [] then next node else link) (front ++ back) stop := by
  obtain ⟨hfront, hback⟩ := h.split
  obtain ⟨hnodupFront, hnodupBack, hcross⟩ := nodup_append.1 hnodup
  have hback' : Chained next' (next node) back stop := by
    refine hback.congr fun n hn => ?_
    have hne : n ≠ node := fun heq => (nodup_cons.1 hnodupBack).1 (heq ▸ hn)
    have hlast : front.getLast? ≠ some n := fun hlast =>
      hcross n (mem_of_getLast? hlast) n (mem_cons_of_mem _ hn) rfl
    rw [hnext n hne, if_neg hlast]
  split_ifs with hempty
  · rw [hempty]
    exact hback'
  · refine (hfront.congr_stop hempty hnodupFront fun n hn => ?_).append hback'
    exact hnext n fun heq => hcross n hn node mem_cons_self heq

end Chained

end Dyn.Lib
