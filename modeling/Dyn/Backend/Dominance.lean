import Dyn.Backend.BlockOrder
import Dyn.Lib.DominatorTree
import Mathlib.Algebra.Group.Action.Defs
import Mathlib.Algebra.Order.BigOperators.Group.Finset

/-!
# backend/ssa: dominators

The passes over the order approximate the dominators from above, each turn moving an entry
towards the entry block, and end where the table is that of the immediate dominators.
-/

namespace Dyn.Backend

open List
open Lib Lib.Flow

section Dominance

variable {s0 s1 : Ssa} {order : List Nat}

/-- The entries of the table for the blocks of the order. -/
def dominatorTable (order : List Nat) (s : Ssa) (b : Nat) : Option Nat :=
  if b ∈ order then (s.block b).idom else none

/-- The places and the predecessors of the blocks are those of `s1`. -/
structure Placed (s1 s : Ssa) : Prop where
  length : s.blocks.length = s1.blocks.length
  order : ∀ b, (s.block b).order = (s1.block b).order
  preds : ∀ b, (s.block b).preds = (s1.block b).preds

theorem Placed.update {s : Ssa} (h : Placed s1 s) (b : Nat) {change : SsaBlock → SsaBlock}
    (horder : ∀ block, (change block).order = block.order) (hpreds : ∀ block, (change block).preds = block.preds) :
    Placed s1 (s.updateBlock b change) := by
  have hsame : ∀ c, ((s.updateBlock b change).block c).order = (s.block c).order ∧
      ((s.updateBlock b change).block c).preds = (s.block c).preds := by
    intro c
    by_cases hc : c = b
    · subst hc
      by_cases hlt : c < s.blocks.length
      · rw [Ssa.updateBlock_self hlt]
        exact ⟨horder _, hpreds _⟩
      · rw [Ssa.updateBlock_outside hlt]
        exact ⟨rfl, rfl⟩
    · rw [Ssa.updateBlock_other hc]
      exact ⟨rfl, rfl⟩
  exact ⟨by rw [Ssa.updateBlock_length, h.length], fun c => (hsame c).1.trans (h.order c),
    fun c => (hsame c).2.trans (h.preds c)⟩

/-- A block of the order before `b`, from which control goes to `b`. -/
noncomputable def earlierPred (s0 s1 : Ssa) (order : List Nat) (b : Nat) : Nat :=
  open Classical in
  if h : ∃ p ∈ order, Edge s0 p b ∧ (s1.block p).order < (s1.block b).order then h.choose else 0

variable {b : Nat}

theorem earlierPred_spec (h : OrderSpec s0 s1 order) (hb : b ∈ order) (hne : b ≠ 0) :
    earlierPred s0 s1 order b ∈ order ∧ Edge s0 (earlierPred s0 s1 order b) b ∧
      (s1.block (earlierPred s0 s1 order b)).order < (s1.block b).order := by
  have hexists := h.earlier b hb hne
  unfold earlierPred
  rw [dif_pos hexists]
  exact hexists.choose_spec

theorem OrderSpec.ordered (h : OrderSpec s0 s1 order) :
    Ordered (Edge s0) 0 (fun b => (s1.block b).order) (earlierPred s0 s1 order) where
  entry_rank := h.place 0 0 (by rw [← head?_eq_getElem?]; exact h.head)
  inj x y hx hy heq := by
    obtain ⟨i, hi⟩ := getElem?_of_mem ((h.mem x).mpr hx)
    obtain ⟨j, hj⟩ := getElem?_of_mem ((h.mem y).mpr hy)
    rw [h.place i x hi, h.place j y hj] at heq
    subst heq
    exact Option.some.inj (hi.symm.trans hj)
  tree_reached x hx hne := (h.mem _).mp (earlierPred_spec h ((h.mem x).mpr hx) hne).1
  tree_edge x hx hne := (earlierPred_spec h ((h.mem x).mpr hx) hne).2.1
  tree_rank x hx hne := (earlierPred_spec h ((h.mem x).mpr hx) hne).2.2

theorem OrderSpec.place_lt (h : OrderSpec s0 s1 order) (hb : b ∈ order) :
    (s1.block b).order < order.length := by
  obtain ⟨i, hi⟩ := getElem?_of_mem hb
  rw [h.place i b hi]
  exact (List.getElem?_eq_some_iff.mp hi).1

theorem OrderSpec.length_le (h : OrderSpec s0 s1 order) : order.length ≤ s1.blocks.length := by
  have hsub : order.toFinset ⊆ Finset.range s1.blocks.length := by
    intro b hb
    rw [Finset.mem_range, h.length]
    exact h.inside b (mem_toFinset.mp hb)
  have hcard := Finset.card_le_card hsub
  rwa [toFinset_card_of_nodup h.nodup, Finset.card_range] at hcard

/-- The table of `s` is an approximation before the turn of the block in place `i`. -/
abbrev Approximates (s0 s1 : Ssa) (order : List Nat) (i : Nat) (s : Ssa) : Prop :=
  Approximation (Edge s0) 0 (fun b => (s1.block b).order) (earlierPred s0 s1 order) i (dominatorTable order s)

variable {s : Ssa} {i : Nat}

theorem dominatorTable_some {d : Nat} (h : dominatorTable order s b = some d) :
    b ∈ order ∧ (s.block b).idom = some d := by
  unfold dominatorTable at h
  split at h
  · rename_i hb
    exact ⟨hb, h⟩
  · cases h

theorem dominatorTable_of_mem (hb : b ∈ order) :
    dominatorTable order s b = (s.block b).idom := if_pos hb

theorem climb_spec (horder : OrderSpec s0 s1 order) (hplaced : Placed s1 s) (happrox : Approximates s0 s1 order i s) :
    ∀ (fuel : Nat) {x y : Nat}, (dominatorTable order s x).isSome → (s1.block x).order < fuel →
    ∃ z, climb s fuel x y = some z ∧ (dominatorTable order s z).isSome ∧
      (s1.block z).order ≤ (s1.block y).order ∧ (s1.block z).order ≤ (s1.block x).order ∧
      ∀ a, (s1.block a).order ≤ (s1.block y).order →
        (Above 0 (dominatorTable order s) a x ↔ Above 0 (dominatorTable order s) a z) := by
  intro fuel
  induction fuel with
  | zero => exact fun _ hlt => absurd hlt (Nat.not_lt_zero _)
  | succ fuel ih =>
    intro x y hx hlt
    unfold climb
    rw [hplaced.order, hplaced.order]
    split_ifs with hafter
    · obtain ⟨up, hup⟩ := Option.isSome_iff_exists.mp hx
      rw [(dominatorTable_some hup).2]
      have hx0 : x ≠ 0 := by
        rintro rfl
        have hentry := horder.ordered.entry_rank
        omega
      have hlower := happrox.lower x up hx0 hup
      obtain ⟨z, hz, hsome, hzy, -, habove⟩ := ih (y := y) (happrox.target x up hup) (by omega)
      refine ⟨z, hz, hsome, hzy, by omega, fun a ha => ?_⟩
      rw [above_iff hx0 hup, habove a ha]
      refine or_iff_right ?_
      rintro rfl
      omega
    · exact ⟨x, rfl, hx, Nat.le_of_not_lt hafter, le_rfl, fun _ _ => Iff.rfl⟩

theorem intersect_spec (horder : OrderSpec s0 s1 order) (hplaced : Placed s1 s)
    (happrox : Approximates s0 s1 order i s) : ∀ (fuel : Nat) {x y : Nat},
    (dominatorTable order s x).isSome → (dominatorTable order s y).isSome →
    (s1.block x).order + (if (s1.block x).order < (s1.block y).order then 1 else 0) < fuel →
    ∃ z, intersect s fuel x y = some z ∧ (dominatorTable order s z).isSome ∧
      ∀ a, Above 0 (dominatorTable order s) a z ↔
        Above 0 (dominatorTable order s) a x ∧ Above 0 (dominatorTable order s) a y := by
  intro fuel
  induction fuel with
  | zero => exact fun _ _ hlt => absurd hlt (Nat.not_lt_zero _)
  | succ fuel ih =>
    intro x y hx hy hlt
    unfold intersect
    by_cases heq : x = y
    · subst heq
      exact ⟨x, if_pos rfl, hx, fun _ => (and_self_iff).symm⟩
    have hbound : ∀ {b}, (dominatorTable order s b).isSome → (s1.block b).order < s.blocks.length + 1 := by
      intro b hb
      have hplace := horder.place_lt ((horder.mem b).mpr (happrox.reached b hb))
      have hle := horder.length_le
      rw [hplaced.length]
      omega
    obtain ⟨x', hclimb, hx', hx'y, hx'x, hxx'⟩ := climb_spec horder hplaced happrox _ (y := y) hx (hbound hx)
    obtain ⟨y', hclimb', hy', hy'x', -, hyy'⟩ := climb_spec horder hplaced happrox _ (y := x') hy (hbound hy)
    have hdiff : (s1.block x).order ≠ (s1.block y).order := fun h =>
      heq (horder.ordered.inj x y (happrox.reached x hx) (happrox.reached y hy) h)
    have hless : (s1.block x').order + (if (s1.block x').order < (s1.block y').order then 1 else 0) < fuel := by
      rw [if_neg (Nat.not_lt_of_le hy'x')]
      split at hlt <;> omega
    obtain ⟨z, hz, hsome, habove⟩ := ih hx' hy' hless
    refine ⟨z, ?_, hsome, fun a => ?_⟩
    · rw [if_neg heq]
      simp only [hclimb, hclimb', Option.bind_eq_bind, Option.bind_some, hz]
    rw [habove]
    constructor
    · rintro ⟨hax', hay'⟩
      have hle := happrox.above_rank hax'
      have hay := (hyy' a hle).mpr hay'
      exact ⟨(hxx' a (hle.trans hx'y)).mpr hax', hay⟩
    rintro ⟨hax, hay⟩
    have hax' := (hxx' a (happrox.above_rank hay)).mp hax
    exact ⟨hax', (hyy' a (happrox.above_rank hax')).mp hay⟩

/-- The processed predecessors and the block that stands for the earlier ones. -/
theorem meetPreds_spec (horder : OrderSpec s0 s1 order) (hplaced : Placed s1 s)
    (happrox : Approximates s0 s1 order i s) : ∀ (preds : List Nat) (idom : Option Nat),
    (∀ p ∈ preds, p ∈ order) → (∀ y, idom = some y → (dominatorTable order s y).isSome) →
    ∃ result, meetPreds s preds idom = some result ∧
      ((idom.isSome ∨ ∃ p ∈ preds, (dominatorTable order s p).isSome) → result.isSome) ∧
      ∀ z, result = some z → (dominatorTable order s z).isSome ∧
        ∀ a, Above 0 (dominatorTable order s) a z ↔
          (∀ y, idom = some y → Above 0 (dominatorTable order s) a y) ∧
            ∀ p ∈ preds, (dominatorTable order s p).isSome → Above 0 (dominatorTable order s) a p := by
  intro preds
  induction preds with
  | nil =>
    intro idom _ hidom
    refine ⟨idom, rfl, ?_, fun z hz => ⟨hidom z hz, fun a => ?_⟩⟩
    · rintro (h | ⟨p, hp, -⟩)
      · exact h
      · cases hp
    · subst hz
      simp
  | cons pred preds ih =>
    intro idom hpreds hidom
    have hpred := hpreds pred mem_cons_self
    have hrest : ∀ p ∈ preds, p ∈ order := fun p hp => hpreds p (mem_cons_of_mem _ hp)
    have htable := dominatorTable_of_mem (s := s) hpred
    unfold meetPreds
    cases hentry : (s.block pred).idom with
    | none =>
      rw [hentry] at htable
      obtain ⟨result, hresult, hsome, habove⟩ := ih idom hrest hidom
      refine ⟨result, by cases idom <;> exact hresult, ?_, fun z hz => ⟨(habove z hz).1, fun a => ?_⟩⟩
      · rintro (h | ⟨p, hp, hps⟩)
        · exact hsome (.inl h)
        rcases mem_cons.mp hp with rfl | hp
        · rw [htable] at hps
          cases hps
        · exact hsome (.inr ⟨p, hp, hps⟩)
      · rw [(habove z hz).2 a, forall_mem_cons]
        simp [htable]
    | some above =>
      rw [hentry] at htable
      have hprocessed : (dominatorTable order s pred).isSome := by
        rw [htable]
        rfl
      cases idom with
      | none =>
        obtain ⟨result, hresult, hsome, habove⟩ := ih (some pred) hrest fun y hy => by
          cases hy
          exact hprocessed
        refine ⟨result, hresult, fun _ => hsome (.inl rfl), fun z hz => ⟨(habove z hz).1, fun a => ?_⟩⟩
        rw [(habove z hz).2 a, forall_mem_cons]
        simp [hprocessed]
      | some y =>
        have hlt : (s1.block pred).order +
            (if (s1.block pred).order < (s1.block y).order then 1 else 0) < s.blocks.length + 1 := by
          have hplace := horder.place_lt hpred
          have hle := horder.length_le
          rw [hplaced.length]
          split <;> omega
        obtain ⟨x, hx, hxsome, hxabove⟩ :=
          intersect_spec horder hplaced happrox _ hprocessed (hidom y rfl) hlt
        obtain ⟨result, hresult, hsome, habove⟩ := ih (some x) hrest fun x' hx' => by
          cases hx'
          exact hxsome
        refine ⟨result, ?_, fun _ => hsome (.inl rfl), fun z hz => ⟨(habove z hz).1, fun a => ?_⟩⟩
        · simp only [hx, Option.bind_eq_bind, Option.bind_some, hresult]
        rw [(habove z hz).2 a, forall_mem_cons]
        simp only [Option.some.injEq, forall_eq', hxabove a, hprocessed, true_implies]
        tauto

/-- The part of a pass that is still to come grows with the entries of the table. -/
def tableWeight (s1 : Ssa) (order : List Nat) (s : Ssa) : Nat :=
  ∑ b ∈ order.toFinset, match (s.block b).idom with
    | none => order.length
    | some d => (s1.block d).order

theorem dominatorTurn_spec (horder : OrderSpec s0 s1 order) (hplaced : Placed s1 s)
    (happrox : Approximates s0 s1 order i s) (hb : order[i]? = some b) (hb0 : b ≠ 0) (flag : Bool) :
    ∃ s' flag', dominatorTurn (s, flag) b = some (s', flag') ∧ Placed s1 s' ∧
      Approximates s0 s1 order (i + 1) s' ∧
      (s' = s ∧ flag' = flag ∧ (∃ d, (s.block b).idom = some d ∧ Meet (Edge s0) 0 (dominatorTable order s) b d) ∨
        flag' = true ∧ tableWeight s1 order s' < tableWeight s1 order s) := by
  have hmem := mem_of_getElem? hb
  have hpreds : ∀ p, p ∈ (s.block b).preds ↔ p ∈ order ∧ Edge s0 p b := by
    intro p
    rw [hplaced.preds, horder.preds b hmem p]
  obtain ⟨hpred, hedge, hlt⟩ := earlierPred_spec horder hmem hb0
  have hreached := (horder.mem b).mp hmem
  rw [horder.place i b hb] at hlt
  have hprocessed := happrox.early _ ((horder.mem _).mp hpred) hlt
  obtain ⟨result, hresult, hsome, habove⟩ := meetPreds_spec horder hplaced happrox (s.block b).preds none
    (fun p hp => ((hpreds p).mp hp).1) nofun
  obtain ⟨d, rfl⟩ := Option.isSome_iff_exists.mp (hsome (.inr ⟨_, (hpreds _).mpr ⟨hpred, hedge⟩, hprocessed⟩))
  obtain ⟨hd, habove⟩ := habove d rfl
  have hmeet : Meet (Edge s0) 0 (dominatorTable order s) b d := by
    refine ⟨hd, fun y => ?_⟩
    rw [habove]
    constructor
    · rintro ⟨-, hall⟩ p hedge hp
      exact hall p ((hpreds p).mpr ⟨(horder.mem p).mpr (happrox.reached p hp), hedge⟩) hp
    · exact fun hall => ⟨fun y hy => (by cases hy), fun p hp hsome => hall p ((hpreds p).mp hp).2 hsome⟩
  unfold dominatorTurn
  simp only [hresult, Option.bind_eq_bind, Option.bind_some]
  by_cases hsame : some d = (s.block b).idom
  · have hturned : Turned (dominatorTable order s) b d (dominatorTable order s) :=
      ⟨(dominatorTable_of_mem hmem).trans hsame.symm, fun _ _ => rfl⟩
    exact ⟨s, flag, if_pos hsame, hplaced,
      happrox.turn horder.ordered ⟨hb0, hreached, horder.place i b hb, hmeet, hturned⟩,
      .inl ⟨rfl, rfl, d, hsame.symm, hmeet⟩⟩
  have hin : b < s.blocks.length := by
    rw [hplaced.length, horder.length]
    exact horder.inside b hmem
  have hself := Ssa.updateBlock_self hin ({ · with idom := some d })
  have hother : ∀ c, c ≠ b → (s.updateBlock b ({ · with idom := some d })).block c = s.block c :=
    fun c hc => Ssa.updateBlock_other hc _
  have hturned : Turned (dominatorTable order s) b d
      (dominatorTable order (s.updateBlock b ({ · with idom := some d }))) := by
    refine ⟨?_, fun c hc => ?_⟩
    · rw [dominatorTable_of_mem hmem, hself]
    · unfold dominatorTable
      rw [hother c hc]
  have hturn : Turn (Edge s0) 0 (fun b => (s1.block b).order) i (dominatorTable order s) b d
      (dominatorTable order (s.updateBlock b ({ · with idom := some d }))) :=
    ⟨hb0, hreached, horder.place i b hb, hmeet, hturned⟩
  refine ⟨_, true, if_neg hsame, hplaced.update b (fun _ => rfl) (fun _ => rfl),
    happrox.turn horder.ordered hturn, .inr ⟨rfl, ?_⟩⟩
  have hless : (match ((s.updateBlock b ({ · with idom := some d })).block b).idom with
        | none => order.length
        | some d => (s1.block d).order) <
      match (s.block b).idom with
        | none => order.length
        | some d => (s1.block d).order := by
    rw [hself]
    cases hold : (s.block b).idom with
    | none => exact horder.place_lt (dominatorTable_some (Option.eq_some_of_isSome hd)).1
    | some old =>
      refine turn_moves_up horder.ordered happrox hturn ((dominatorTable_of_mem hmem).trans hold) fun h => ?_
      rw [hold, h] at hsame
      exact hsame rfl
  refine Finset.sum_lt_sum (fun c _ => ?_) ⟨b, mem_toFinset.mpr hmem, hless⟩
  by_cases hc : c = b
  · subst hc
    exact le_of_lt hless
  · rw [hother c hc]

theorem dominatorTurns_spec (horder : OrderSpec s0 s1 order) : ∀ (rest : List Nat) (i : Nat) (s : Ssa) (flag : Bool),
    order.drop i = rest → 0 < i → Placed s1 s → Approximates s0 s1 order i s →
    ∃ s' flag', rest.foldlM dominatorTurn (s, flag) = some (s', flag') ∧ Placed s1 s' ∧
      Approximates s0 s1 order (i + rest.length) s' ∧
      (s' = s ∧ flag' = flag ∧ (∀ b ∈ rest, ∃ d, (s.block b).idom = some d ∧
          Meet (Edge s0) 0 (dominatorTable order s) b d) ∨
        flag' = true ∧ tableWeight s1 order s' < tableWeight s1 order s) := by
  intro rest
  induction rest with
  | nil =>
    intro i s flag _ _ hplaced happrox
    exact ⟨s, flag, rfl, hplaced, happrox, .inl ⟨rfl, rfl, nofun⟩⟩
  | cons b rest ih =>
    intro i s flag hdrop hi hplaced happrox
    have hb : order[i]? = some b := by
      rw [← head?_drop, hdrop]
      rfl
    have hb0 : b ≠ 0 := by
      rintro rfl
      have hzero := horder.place 0 0 (by rw [← head?_eq_getElem?]; exact horder.head)
      have hplace := horder.place i 0 hb
      omega
    have hnext : order.drop (i + 1) = rest := by
      rw [← drop_drop, hdrop]
      rfl
    obtain ⟨s', flag', hturn, hplaced', happrox', hcase⟩ := dominatorTurn_spec horder hplaced happrox hb hb0 flag
    obtain ⟨s'', flag'', hturns, hplaced'', happrox'', hcase'⟩ := ih (i + 1) s' flag' hnext (by omega) hplaced' happrox'
    refine ⟨s'', flag'', ?_, hplaced'', ?_, ?_⟩
    · rw [foldlM_cons, hturn]
      exact hturns
    · rw [length_cons, add_comm rest.length, ← add_assoc]
      exact happrox''
    rcases hcase with ⟨rfl, rfl, hstable⟩ | ⟨rfl, hless⟩
    · rcases hcase' with ⟨rfl, rfl, hstables⟩ | hchanged
      · exact .inl ⟨rfl, rfl, forall_mem_cons.mpr ⟨hstable, hstables⟩⟩
      · exact .inr hchanged
    rcases hcase' with ⟨rfl, rfl, -⟩ | ⟨rfl, hless'⟩
    · exact .inr ⟨rfl, hless⟩
    · exact .inr ⟨rfl, hless'.trans hless⟩

structure Converged (s0 s1 : Ssa) (order : List Nat) (s : Ssa) : Prop where
  placed : Placed s1 s
  approx : Approximates s0 s1 order order.length s
  stable : ∀ b, Reached (Edge s0) 0 b → b ≠ 0 →
    ∃ d, dominatorTable order s b = some d ∧ Meet (Edge s0) 0 (dominatorTable order s) b d

theorem order_split (horder : OrderSpec s0 s1 order) : order = 0 :: order.tail := by
  have hhead := horder.head
  cases horder' : order with
  | nil =>
    rw [horder'] at hhead
    cases hhead
  | cons b rest =>
    rw [horder'] at hhead
    cases hhead
    rfl

theorem dominatorLoop_spec (horder : OrderSpec s0 s1 order) : ∀ (fuel : Nat) {s : Ssa}, Placed s1 s →
    Approximates s0 s1 order 1 s → tableWeight s1 order s < fuel →
    ∃ s', dominatorLoop order fuel s = some s' ∧ Converged s0 s1 order s' := by
  intro fuel
  induction fuel with
  | zero => exact fun _ _ hlt => absurd hlt (Nat.not_lt_zero _)
  | succ fuel ih =>
    intro s hplaced happrox hlt
    have hsplit := order_split horder
    have hlength : 1 + order.tail.length = order.length := by
      rw [hsplit]
      exact add_comm ..
    obtain ⟨s', flag', hpass, hplaced', happrox', hcase⟩ :=
      dominatorTurns_spec horder order.tail 1 s false (by rw [drop_one]) Nat.one_pos hplaced happrox
    rw [hlength] at happrox'
    unfold dominatorLoop dominatorPass
    simp only [hpass, Option.bind_eq_bind, Option.bind_some]
    rcases hcase with ⟨rfl, rfl, hstable⟩ | ⟨rfl, hless⟩
    · refine ⟨s', if_neg Bool.false_ne_true, hplaced', happrox', fun b hb hne => ?_⟩
      have hmem := (horder.mem b).mpr hb
      rw [hsplit] at hmem
      obtain ⟨d, hd, hmeet⟩ := hstable b ((mem_cons.mp hmem).resolve_left hne)
      exact ⟨d, (dominatorTable_of_mem ((horder.mem b).mpr hb)).trans hd, hmeet⟩
    · rw [if_pos rfl]
      exact ih hplaced' (happrox'.again fun b hb => horder.place_lt ((horder.mem b).mpr hb)) (by omega)

theorem cleared_spec : ∀ (rest : List Nat) {s : Ssa}, Placed s1 s → (∀ b ∈ rest, b < s1.blocks.length) →
    Placed s1 (rest.foldl (fun s b => s.updateBlock b ({ · with idom := none })) s) ∧
      ∀ b, ((rest.foldl (fun s b => s.updateBlock b ({ · with idom := none })) s).block b).idom =
        if b ∈ rest then none else (s.block b).idom := by
  intro rest
  induction rest with
  | nil => exact fun hplaced _ => ⟨hplaced, fun _ => rfl⟩
  | cons c rest ih =>
    intro s hplaced hinside
    obtain ⟨hplaced', hidom⟩ := ih (s := s.updateBlock c ({ · with idom := none }))
      (hplaced.update c (fun _ => rfl) (fun _ => rfl)) fun b hb => hinside b (mem_cons_of_mem _ hb)
    refine ⟨hplaced', fun b => (hidom b).trans ?_⟩
    by_cases hb : b ∈ rest
    · rw [if_pos hb, if_pos (mem_cons_of_mem _ hb)]
    rw [if_neg hb]
    by_cases hbc : b = c
    · subst hbc
      rw [Ssa.updateBlock_self (by rw [hplaced.length]; exact hinside b mem_cons_self),
        if_pos mem_cons_self]
    · rw [Ssa.updateBlock_other hbc, if_neg (fun h => (mem_cons.mp h).elim hbc hb)]

theorem dominators_start (horder : OrderSpec s0 s1 order) :
    ∃ s, (order.foldl (fun s b => s.updateBlock b ({ · with idom := none })) s1).updateBlock 0
        ({ · with idom := some 0 }) = s ∧ Placed s1 s ∧ Approximates s0 s1 order 1 s ∧
      tableWeight s1 order s < order.length * order.length + 1 := by
  have hself : Placed s1 s1 := ⟨rfl, fun _ => rfl, fun _ => rfl⟩
  obtain ⟨hplaced, hidom⟩ := cleared_spec order hself fun b hb => by
    rw [horder.length]
    exact horder.inside b hb
  generalize order.foldl (fun s b => s.updateBlock b ({ · with idom := none })) s1 = s at hplaced hidom
  have hentry : 0 ∈ order := (horder.mem 0).mpr entry_reached
  have hself := Ssa.updateBlock_self (s := s) (b := 0)
    (by rw [hplaced.length, horder.length]; exact horder.inside 0 hentry) ({ · with idom := some 0 })
  have hother : ∀ b, b ≠ 0 → b ∈ order → ((s.updateBlock 0 ({ · with idom := some 0 })).block b).idom = none := by
    intro b hb hmem
    rw [Ssa.updateBlock_other hb, hidom, if_pos hmem]
  refine ⟨_, rfl, hplaced.update 0 (fun _ => rfl) (fun _ => rfl), approximation_start horder.ordered ?_ ?_, ?_⟩
  · rw [dominatorTable_of_mem hentry, hself]
  · intro b hb
    unfold dominatorTable
    by_cases hmem : b ∈ order
    · rw [if_pos hmem, hother b hb hmem]
    · rw [if_neg hmem]
  have hbound : ∀ b ∈ order.toFinset,
      (match ((s.updateBlock 0 ({ · with idom := some 0 })).block b).idom with
        | none => order.length
        | some d => (s1.block d).order) ≤ order.length := by
    intro b hb
    by_cases hb0 : b = 0
    · rw [hb0, hself]
      exact le_of_lt (horder.place_lt hentry)
    · rw [hother b hb0 (mem_toFinset.mp hb)]
  have hsum := Finset.sum_le_card_nsmul _ _ _ hbound
  rw [toFinset_card_of_nodup horder.nodup, smul_eq_mul] at hsum
  exact Nat.lt_succ_of_le hsum

/-- The depths of the blocks in the tree. -/
structure Deep (order : List Nat) (s : Ssa) : Prop where
  entry : (s.block 0).depth = 0
  step : ∀ b ∈ order, b ≠ 0 → ∃ d, (s.block b).idom = some d ∧ (s.block b).depth = (s.block d).depth + 1

theorem depthTurns_spec (horder : OrderSpec s0 s1 order) : ∀ (rest : List Nat) (i : Nat) (s : Ssa),
    order.drop i = rest → 0 < i → Placed s1 s →
    (∀ b ∈ order, b ≠ 0 → ∃ d ∈ order, (s.block b).idom = some d ∧ (s1.block d).order < (s1.block b).order) →
    (s.block 0).depth = 0 →
    (∀ b ∈ order, b ≠ 0 → (s1.block b).order < i →
      ∃ d, (s.block b).idom = some d ∧ (s.block b).depth = (s.block d).depth + 1) →
    ∃ s', rest.foldlM depthTurn s = some s' ∧ Placed s1 s' ∧ (∀ b, (s'.block b).idom = (s.block b).idom) ∧
      Deep order s' := by
  intro rest
  induction rest with
  | nil =>
    intro i s hdrop _ hplaced _ hentry hdone
    have hle : order.length ≤ i := drop_eq_nil_iff.mp hdrop
    exact ⟨s, rfl, hplaced, fun _ => rfl, hentry, fun b hb hne =>
      hdone b hb hne ((horder.place_lt hb).trans_le hle)⟩
  | cons b rest ih =>
    intro i s hdrop hi hplaced htable hentry hdone
    have hb : order[i]? = some b := by
      rw [← head?_drop, hdrop]
      rfl
    have hmem := mem_of_getElem? hb
    have hplace := horder.place i b hb
    have hb0 : b ≠ 0 := by
      rintro rfl
      have hzero := horder.ordered.entry_rank
      omega
    obtain ⟨d, -, hidom, hlt⟩ := htable b hmem hb0
    have hin : b < s.blocks.length := by
      rw [hplaced.length, horder.length]
      exact horder.inside b hmem
    have hself := Ssa.updateBlock_self hin ({ · with depth := (s.block d).depth + 1 })
    have hother : ∀ c, c ≠ b →
        (s.updateBlock b ({ · with depth := (s.block d).depth + 1 })).block c = s.block c :=
      fun c hc => Ssa.updateBlock_other hc _
    have hidoms : ∀ c, ((s.updateBlock b ({ · with depth := (s.block d).depth + 1 })).block c).idom =
        (s.block c).idom := by
      intro c
      by_cases hc : c = b
      · rw [hc, hself]
      · rw [hother c hc]
    have hdb : d ≠ b := by
      rintro rfl
      omega
    obtain ⟨s', hfold, hplaced', hidoms', hdeep⟩ := ih (i + 1)
      (s.updateBlock b ({ · with depth := (s.block d).depth + 1 })) (by rw [← drop_drop, hdrop]; rfl) (by omega)
      (hplaced.update b (fun _ => rfl) (fun _ => rfl))
      (fun c hc hne => by
        rw [hidoms]
        exact htable c hc hne)
      (by rw [hother 0 (Ne.symm hb0)]; exact hentry)
      (fun c hc hne hlt' => by
        by_cases hcb : c = b
        · subst hcb
          refine ⟨d, by rw [hidoms, hidom], ?_⟩
          rw [hself, hother d hdb]
        have hdiff : (s1.block c).order ≠ (s1.block b).order := fun h =>
          hcb (horder.ordered.inj c b ((horder.mem c).mp hc) ((horder.mem b).mp hmem) h)
        obtain ⟨e, he, hdepth⟩ := hdone c hc hne (by omega)
        obtain ⟨e', -, he', hlower⟩ := htable c hc hne
        cases he.symm.trans he'
        have heb : e ≠ b := by
          rintro rfl
          omega
        exact ⟨e, by rw [hidoms, he], by rw [hother c hcb, hother e heb, hdepth]⟩)
    refine ⟨s', ?_, hplaced', fun c => (hidoms' c).trans (hidoms c), hdeep⟩
    rw [foldlM_cons]
    unfold depthTurn
    simp only [hidom, Option.bind_eq_bind, Option.bind_some]
    exact hfold

theorem ssaDominators_spec (horder : OrderSpec s0 s1 order) :
    ∃ s2, ssaDominators s1 order = some s2 ∧ Converged s0 s1 order s2 ∧ Deep order s2 := by
  obtain ⟨s, hstart, hplaced, happrox, hweight⟩ := dominators_start horder
  obtain ⟨s', hloop, hsettled⟩ := dominatorLoop_spec horder _ hplaced happrox hweight
  have hentry : 0 ∈ order := (horder.mem 0).mpr entry_reached
  have hin : 0 < s'.blocks.length := by
    rw [hsettled.placed.length, horder.length]
    exact horder.inside 0 hentry
  have hself := Ssa.updateBlock_self hin ({ · with depth := 0 })
  have hidoms : ∀ b, ((s'.updateBlock 0 ({ · with depth := 0 })).block b).idom = (s'.block b).idom := by
    intro b
    by_cases hb : b = 0
    · rw [hb, hself]
    · rw [Ssa.updateBlock_other hb]
  have htable : ∀ b ∈ order, b ≠ 0 → ∃ d ∈ order,
      ((s'.updateBlock 0 ({ · with depth := 0 })).block b).idom = some d ∧
        (s1.block d).order < (s1.block b).order := by
    intro b hb hne
    obtain ⟨d, hd, hmeet⟩ := hsettled.stable b ((horder.mem b).mp hb) hne
    refine ⟨d, (dominatorTable_some (Option.eq_some_of_isSome hmeet.processed)).1, ?_,
      hsettled.approx.lower b d hne hd⟩
    rw [hidoms]
    exact (dominatorTable_some hd).2
  obtain ⟨s2, hfold, hplaced2, hidoms2, hdeep⟩ := depthTurns_spec horder order.tail 1
    (s'.updateBlock 0 ({ · with depth := 0 })) (by rw [drop_one]) Nat.one_pos (hsettled.placed.update 0 (fun _ => rfl) (fun _ => rfl)) htable (by rw [hself])
    (fun b hb hne hlt => by
      obtain ⟨d, -, -, hlower⟩ := htable b hb hne
      omega)
  have hsame : dominatorTable order s2 = dominatorTable order s' := by
    funext b
    unfold dominatorTable
    rw [hidoms2, hidoms]
  refine ⟨s2, ?_, ⟨hplaced2, ?_, ?_⟩, hdeep⟩
  · have hhead : order.headD 0 = 0 := by
      rw [order_split horder]
      rfl
    unfold ssaDominators
    simp only [hhead]
    rw [hstart, hloop]
    exact hfold
  · unfold Approximates
    rw [hsame]
    exact hsettled.approx
  · rw [hsame]
    exact hsettled.stable

theorem Converged.above_iff (h : Converged s0 s1 order s) {a : Nat} (hb : Reached (Edge s0) 0 b) :
    Above 0 (dominatorTable order s) a b ↔ Dominates (Edge s0) 0 a b :=
  h.approx.exact h.stable hb

theorem Converged.idom_iff (h : Converged s0 s1 order s) (horder : OrderSpec s0 s1 order) {d : Nat}
    (hb : Reached (Edge s0) 0 b) (hne : b ≠ 0) :
    (s.block b).idom = some d ↔ ImmediateDominator (Edge s0) 0 d b := by
  rw [← dominatorTable_of_mem ((horder.mem b).mpr hb)]
  exact h.approx.immediate h.stable hb hne

theorem Deep.above_depth (h : Deep order s) {a : Nat} (ha : Above 0 (dominatorTable order s) a b) :
    a = b ∨ (s.block a).depth < (s.block b).depth := by
  induction ha using Relation.ReflTransGen.head_induction_on with
  | refl => exact .inl rfl
  | @head x y hparent _ ih =>
    obtain ⟨hx, hidom⟩ := dominatorTable_some hparent.2
    obtain ⟨d, hd, hdepth⟩ := h.step x hx hparent.1
    cases hd.symm.trans hidom
    rcases ih with rfl | hlt
    · exact .inr (by omega)
    · exact .inr (by omega)

theorem dominatesLoop_spec (horder : OrderSpec s0 s1 order) (h : Converged s0 s1 order s) (hdeep : Deep order s) (a : Nat) :
    ∀ (fuel : Nat) {b : Nat}, b ∈ order → (s1.block b).order < fuel →
    ∃ answer, dominatesLoop s a fuel b = some answer ∧
      (answer = true ↔ Above 0 (dominatorTable order s) a b) := by
  intro fuel
  induction fuel with
  | zero => exact fun _ hlt => absurd hlt (Nat.not_lt_zero _)
  | succ fuel ih =>
    intro b hb hlt
    unfold dominatesLoop
    by_cases hdepth : (s.block b).depth > (s.block a).depth
    · have hb0 : b ≠ 0 := by
        rintro rfl
        have hentry := hdeep.entry
        omega
      obtain ⟨d, hd, hmeet⟩ := h.stable b ((horder.mem b).mp hb) hb0
      have hlower := h.approx.lower b d hb0 hd
      have hmem := (dominatorTable_some (Option.eq_some_of_isSome hmeet.processed)).1
      obtain ⟨answer, hanswer, hiff⟩ := ih hmem (by omega)
      refine ⟨answer, ?_, ?_⟩
      · rw [if_pos hdepth, (dominatorTable_some hd).2]
        exact hanswer
      rw [hiff, Flow.above_iff hb0 hd]
      refine (or_iff_right ?_).symm
      rintro rfl
      omega
    refine ⟨decide (a = b), if_neg hdepth, ?_⟩
    rw [decide_eq_true_iff]
    constructor
    · rintro rfl
      exact .refl _
    intro habove
    rcases hdeep.above_depth habove with heq | hless
    · exact heq
    · omega

theorem ssaDominates_spec (horder : OrderSpec s0 s1 order) (h : Converged s0 s1 order s)
    (hdeep : Deep order s) (a : Nat) (hb : b ∈ order) :
    ∃ answer, ssaDominates s a b = some answer ∧ (answer = true ↔ Dominates (Edge s0) 0 a b) := by
  have hplace := horder.place_lt hb
  have hle := horder.length_le
  obtain ⟨answer, hanswer, hiff⟩ := dominatesLoop_spec horder h hdeep a (s.blocks.length + 1) hb (by
    rw [h.placed.length]
    omega)
  exact ⟨answer, hanswer, hiff.trans (h.above_iff ((horder.mem b).mp hb))⟩

end Dominance

end Dyn.Backend
