import Dyn.Backend.Dominators
import Mathlib.Algebra.BigOperators.Group.Finset.Basic

/-!
# backend/ssa: the order of the blocks

The search visits every reachable block once and leaves it after its successors, apart from
those that it is still in.  In the order of the result every block but the entry has an earlier
predecessor.
-/

namespace Dyn.Backend

open List
open Lib Lib.Flow

/-- Control goes from `u` to `v`. -/
def Edge (s : Ssa) (u v : Nat) : Prop :=
  ∃ i < ssaSuccessors s (s.block u), ssaSuccessor s (s.block u) i = some v

/-- The blocks form a control-flow graph, whose predecessors are those of its edges. -/
structure ControlFlow (s : Ssa) : Prop where
  entry : 0 < s.blocks.length
  -- `ssa_grow` refuses larger tables.
  bound : s.blocks.length ≤ 2 ^ 31
  target : ∀ u v, u < s.blocks.length → Edge s u v → v < s.blocks.length
  preds : ∀ u v, v < s.blocks.length → (u ∈ (s.block v).preds ↔ u < s.blocks.length ∧ Edge s u v)

/-- The same values and blocks, apart from what the passes note about a block. -/
structure SameShape (s s' : Ssa) : Prop where
  values : s'.values = s.values
  lists : s'.lists = s.lists
  length : s'.blocks.length = s.blocks.length
  block : ∀ b, ∃ reachable order idom depth, s'.block b =
    { s.block b with reachable := reachable, order := order, idom := idom, depth := depth }

theorem SameShape.refl (s : Ssa) : SameShape s s := ⟨rfl, rfl, rfl, fun _ => ⟨_, _, _, _, rfl⟩⟩

variable {s : Ssa} {below : List (Nat × Nat)}

variable {s' : Ssa} {st : OrderState} (phis : List Nat)

theorem SameShape.trans {s s' s'' : Ssa} (h : SameShape s s') (h' : SameShape s' s'') : SameShape s s'' := by
  refine ⟨h'.values.trans h.values, h'.lists.trans h.lists, h'.length.trans h.length, fun b => ?_⟩
  obtain ⟨_, _, _, _, hb⟩ := h.block b
  obtain ⟨reachable, order, idom, depth, hb'⟩ := h'.block b
  exact ⟨reachable, order, idom, depth, by rw [hb', hb]⟩

theorem SameShape.update (s : Ssa) (b : Nat) {change : SsaBlock → SsaBlock}
    (hchange : ∀ block, ∃ reachable order idom depth, change block =
      { block with reachable := reachable, order := order, idom := idom, depth := depth }) :
    SameShape s (s.updateBlock b change) := by
  refine ⟨rfl, rfl, by simp, fun c => ?_⟩
  by_cases hc : c = b
  · subst hc
    by_cases hlt : c < s.blocks.length
    · rw [Ssa.updateBlock_self hlt]
      exact hchange _
    · rw [Ssa.updateBlock_outside hlt]
      exact ⟨_, _, _, _, rfl⟩
  · rw [Ssa.updateBlock_other hc]
    exact ⟨_, _, _, _, rfl⟩

theorem SameShape.successors (h : SameShape s s') (b : Nat) :
    ssaSuccessors s' (s'.block b) = ssaSuccessors s (s.block b) := by
  obtain ⟨_, _, _, _, hb⟩ := h.block b
  unfold ssaSuccessors
  rw [hb, h.lists]

theorem SameShape.successor (h : SameShape s s') (b i : Nat) :
    ssaSuccessor s' (s'.block b) i = ssaSuccessor s (s.block b) i := by
  obtain ⟨_, _, _, _, hb⟩ := h.block b
  unfold ssaSuccessor
  rw [hb, h.lists]

theorem SameShape.preds (h : SameShape s s') (b : Nat) :
    (s'.block b).preds = (s.block b).preds := by
  obtain ⟨_, _, _, _, hb⟩ := h.block b
  rw [hb]

theorem SameShape.pick (h : SameShape s s') (b next : Nat) :
    orderPick s' (s'.block b) next = orderPick s (s.block b) next := by
  have hdepth : ∀ c, (s'.block c).loopDepth = (s.block c).loopDepth := by
    intro c
    obtain ⟨_, _, _, _, hc⟩ := h.block c
    rw [hc]
  have hkind : (s'.block b).kind = (s.block b).kind := by
    obtain ⟨_, _, _, _, hb⟩ := h.block b
    rw [hb]
  unfold orderPick
  simp only [h.successors, h.successor, hdepth, hkind]

theorem orderPick_covers (s : Ssa) (b : SsaBlock) {i : Nat} (hi : i < ssaSuccessors s b) :
    ∃ j < ssaSuccessors s b, orderPick s b j = i := by
  unfold orderPick
  split
  next htwo =>
    split
    next first second _ _ =>
      by_cases hdepth : (s.block first).loopDepth > (s.block second).loopDepth
      · refine ⟨1 - i, by omega, ?_⟩
        rw [if_pos hdepth]
        omega
      · exact ⟨i, hi, by rw [if_neg hdepth]⟩
    next => exact ⟨i, hi, rfl⟩
  next => exact ⟨i, hi, rfl⟩

def OrderState.visited (st : OrderState) (b : Nat) : Prop := b ∈ st.post ∨ b ∈ st.stack.map Prod.fst

/-- The blocks on the stack are a way from the entry. -/
inductive Piled (s : Ssa) : List (Nat × Nat) → Prop
  | empty : Piled s []
  | entry (next : Nat) : Piled s [(0, next)]
  | push {b c next next' : Nat} {below : List (Nat × Nat)} : Edge s b c → Piled s ((b, next) :: below) →
      Piled s ((c, next') :: (b, next) :: below)

theorem Piled.next {b next : Nat} (h : Piled s ((b, next) :: below)) (next' : Nat) :
    Piled s ((b, next') :: below) := by
  cases h with
  | entry => exact .entry next'
  | push hedge h => exact .push hedge h

theorem Piled.pop {s : Ssa} {b next : Nat} {below : List (Nat × Nat)} (h : Piled s ((b, next) :: below)) :
    Piled s below := by
  cases h with
  | entry => exact .empty
  | push _ h => exact h

theorem Piled.pred {b next : Nat} (h : Piled s ((b, next) :: below)) (hb : b ≠ 0) :
    ∃ p, Edge s p b ∧ p ∈ below.map Prod.fst := by
  cases h with
  | entry => exact absurd rfl hb
  | push hedge _ => exact ⟨_, hedge, mem_cons_self⟩

/-- The state of the search of the blocks of `s`. -/
structure Searching (s : Ssa) (st : OrderState) : Prop where
  shape : SameShape s st.s
  flags : ∀ b < s.blocks.length, (st.s.block b).reachable = true ↔ st.visited b
  inside : ∀ b, st.visited b → b < s.blocks.length
  nodup : (st.post ++ st.stack.map Prod.fst).Nodup
  piled : Piled s st.stack
  closed : ∀ b ∈ st.post, ∀ c, Edge s b c → st.visited c
  picked : ∀ b next, (b, next) ∈ st.stack → ∀ j < next, ∀ c,
    ssaSuccessor s (s.block b) (orderPick s (s.block b) j) = some c → st.visited c
  earlier : ∀ later b before, st.post = later ++ b :: before → b ≠ 0 →
    ∃ p, Edge s p b ∧ (p ∈ later ∨ p ∈ st.stack.map Prod.fst)
  reached : ∀ b, st.visited b → Reached (Edge s) 0 b
  root : st.visited 0

theorem Searching.advance {s : Ssa} {st : OrderState} {b next : Nat} {below : List (Nat × Nat)}
    (h : Searching s st) (hstack : st.stack = (b, next) :: below)
    (hseen : ∀ c, ssaSuccessor s (s.block b) (orderPick s (s.block b) next) = some c → st.visited c) :
    Searching s { st with stack := (b, next + 1) :: below } := by
  have hmap : st.stack.map Prod.fst = b :: below.map Prod.fst := by
    rw [hstack]
    rfl
  have hvisited : ∀ c, ({ st with stack := (b, next + 1) :: below } : OrderState).visited c ↔ st.visited c := by
    intro c
    unfold OrderState.visited
    rw [hmap]
    rfl
  refine ⟨h.shape, fun c hc => ?_, fun c hc => h.inside c ((hvisited c).mp hc), ?_, (hstack ▸ h.piled).next _,
    fun c hc d hd => (hvisited d).mpr (h.closed c hc d hd), ?_, ?_,
    fun c hc => h.reached c ((hvisited c).mp hc), (hvisited 0).mpr h.root⟩
  · rw [hvisited]
    exact h.flags c hc
  · have hnodup := h.nodup
    rwa [hmap] at hnodup
  · intro c next' hmem j hj d hd
    rw [hvisited]
    rcases mem_cons.mp hmem with heq | hmem
    · cases heq
      rcases Nat.lt_succ_iff_lt_or_eq.mp hj with hlt | rfl
      · exact h.picked b next (by rw [hstack]; exact mem_cons_self) j hlt d hd
      · exact hseen d hd
    · exact h.picked c next' (by rw [hstack]; exact mem_cons_of_mem _ hmem) j hj d hd
  · intro later c before hcut hc
    have hearlier := h.earlier later c before hcut hc
    rwa [hmap] at hearlier

theorem Searching.enter {s : Ssa} {st : OrderState} {b next c : Nat} {below : List (Nat × Nat)}
    (h : Searching s st) (hflow : ControlFlow s) (hstack : st.stack = (b, next) :: below)
    (hnext : next < ssaSuccessors s (s.block b))
    (hsucc : ssaSuccessor s (s.block b) (orderPick s (s.block b) next) = some c) (hedge : Edge s b c)
    (hnew : ¬ st.visited c) :
    Searching s { st with
      s := st.s.updateBlock c ({ · with reachable := true })
      stack := (c, 0) :: (b, next + 1) :: below } := by
  have hmap : st.stack.map Prod.fst = b :: below.map Prod.fst := by
    rw [hstack]
    rfl
  have hb : b < s.blocks.length := h.inside b (.inr (by rw [hmap]; exact mem_cons_self))
  have hc : c < s.blocks.length := hflow.target b c hb hedge
  have hvisited : ∀ d, ({ st with
      s := st.s.updateBlock c ({ · with reachable := true })
      stack := (c, 0) :: (b, next + 1) :: below } : OrderState).visited d ↔ d = c ∨ st.visited d := by
    intro d
    unfold OrderState.visited
    rw [hmap]
    simp only [map_cons, mem_cons]
    tauto
  refine ⟨h.shape.trans (.update _ _ fun block => ⟨true, block.order, block.idom, block.depth, rfl⟩),
    fun d hd => ?_, ?_, ?_, .push hedge ((hstack ▸ h.piled).next _), ?_, ?_, ?_, ?_, ?_⟩
  · rw [hvisited]
    by_cases hdc : d = c
    · subst hdc
      rw [Ssa.updateBlock_self (by rw [h.shape.length]; exact hc)]
      simp
    · rw [Ssa.updateBlock_other hdc, h.flags d hd]
      simp [hdc]
  · intro d hd
    rcases (hvisited d).mp hd with rfl | hd
    · exact hc
    · exact h.inside d hd
  · have hnodup := h.nodup
    rw [hmap] at hnodup
    change (st.post ++ c :: b :: below.map Prod.fst).Nodup
    rw [nodup_middle, nodup_cons]
    refine ⟨fun hmem => hnew ?_, hnodup⟩
    unfold OrderState.visited
    rw [hmap]
    exact mem_append.mp hmem
  · intro d hd e he
    exact (hvisited e).mpr (.inr (h.closed d hd e he))
  · intro d next' hmem j hj e he
    rw [hvisited]
    rcases mem_cons.mp hmem with heq | hmem
    · cases heq
      exact absurd hj (Nat.not_lt_zero _)
    rcases mem_cons.mp hmem with heq | hmem
    · cases heq
      rcases Nat.lt_succ_iff_lt_or_eq.mp hj with hlt | rfl
      · exact .inr (h.picked b next (by rw [hstack]; exact mem_cons_self) j hlt e he)
      · rw [hsucc] at he
        exact .inl (Option.some.inj he).symm
    · exact .inr (h.picked d next' (by rw [hstack]; exact mem_cons_of_mem _ hmem) j hj e he)
  · intro later d before hcut hd
    obtain ⟨p, hp, hplace⟩ := h.earlier later d before hcut hd
    rw [hmap] at hplace
    exact ⟨p, hp, hplace.imp_right (mem_cons_of_mem _)⟩
  · intro d hd
    rcases (hvisited d).mp hd with rfl | hd
    · exact (h.reached b (.inr (by rw [hmap]; exact mem_cons_self))).step hedge
    · exact h.reached d hd
  · exact (hvisited 0).mpr (.inr h.root)

theorem Searching.leave {b next : Nat} (h : Searching s st) (hstack : st.stack = (b, next) :: below)
    (hnext : ssaSuccessors s (s.block b) ≤ next) :
    Searching s { st with stack := below, post := b :: st.post } := by
  have hmap : st.stack.map Prod.fst = b :: below.map Prod.fst := by
    rw [hstack]
    rfl
  have hvisited : ∀ d, ({ st with stack := below, post := b :: st.post } : OrderState).visited d ↔
      st.visited d := by
    intro d
    unfold OrderState.visited
    rw [hmap]
    simp only [mem_cons]
    tauto
  refine ⟨h.shape, fun d hd => ?_, fun d hd => h.inside d ((hvisited d).mp hd), ?_, (hstack ▸ h.piled).pop, ?_, ?_,
    ?_, fun d hd => h.reached d ((hvisited d).mp hd), (hvisited 0).mpr h.root⟩
  · rw [hvisited]
    exact h.flags d hd
  · have hnodup := h.nodup
    rw [hmap, nodup_middle] at hnodup
    exact hnodup
  · intro d hd e he
    rw [hvisited]
    rcases mem_cons.mp hd with rfl | hd
    · obtain ⟨i, hi, hsucc⟩ := he
      obtain ⟨j, hj, hpick⟩ := orderPick_covers s (s.block d) hi
      exact h.picked d next (by rw [hstack]; exact mem_cons_self) j (hj.trans_le hnext) e (by rw [hpick, hsucc])
    · exact h.closed d hd e he
  · intro d next' hmem j hj e he
    rw [hvisited]
    exact h.picked d next' (by rw [hstack]; exact mem_cons_of_mem _ hmem) j hj e he
  intro later d before hcut hd
  cases later with
  | nil =>
    cases hcut
    obtain ⟨p, hp, hplace⟩ := (hstack ▸ h.piled).pred hd
    exact ⟨p, hp, .inr hplace⟩
  | cons b' later =>
    rw [cons_append, cons.injEq] at hcut
    obtain ⟨rfl, hcut⟩ := hcut
    obtain ⟨p, hp, hplace⟩ := h.earlier later d before hcut hd
    rw [hmap] at hplace
    refine ⟨p, hp, ?_⟩
    rcases hplace with hplace | hplace
    · exact .inl (mem_cons_of_mem _ hplace)
    rcases mem_cons.mp hplace with rfl | hplace
    · exact .inl mem_cons_self
    · exact .inr hplace

/-- The turns that are left: all those of the blocks not seen, and the rest of those on the stack. -/
def turnsLeft (s : Ssa) (st : OrderState) : Nat :=
  ∑ b ∈ (Finset.range s.blocks.length).filter (fun b => (st.s.block b).reachable = false),
      (ssaSuccessors s (s.block b) + 1) +
    (st.stack.map fun e => ssaSuccessors s (s.block e.1) - e.2 + 1).sum

theorem turnsLeft_enter {b next c : Nat} (hshape : SameShape s st.s)
    (hstack : st.stack = (b, next) :: below) (hnext : next < ssaSuccessors s (s.block b))
    (hc : c < s.blocks.length) (hnew : (st.s.block c).reachable = false) :
    turnsLeft s { st with
      s := st.s.updateBlock c ({ · with reachable := true })
      stack := (c, 0) :: (b, next + 1) :: below } < turnsLeft s st := by
  have hrest : (Finset.range s.blocks.length).filter
      (fun d => ((st.s.updateBlock c ({ · with reachable := true })).block d).reachable = false) =
      ((Finset.range s.blocks.length).filter (fun d => (st.s.block d).reachable = false)).erase c := by
    ext d
    simp only [Finset.mem_filter, Finset.mem_range, Finset.mem_erase]
    by_cases hdc : d = c
    · subst hdc
      rw [Ssa.updateBlock_self (by rw [hshape.length]; exact hc)]
      simp
    · rw [Ssa.updateBlock_other hdc]
      simp [hdc]
  have hmem : c ∈ (Finset.range s.blocks.length).filter (fun d => (st.s.block d).reachable = false) :=
    Finset.mem_filter.mpr ⟨Finset.mem_range.mpr hc, hnew⟩
  unfold turnsLeft
  rw [hrest, hstack, ← Finset.add_sum_erase _ _ hmem]
  simp only [map_cons, sum_cons]
  omega

theorem Searching.step {s : Ssa} {st : OrderState} (h : Searching s st) (hflow : ControlFlow s)
    (hstack : st.stack ≠ []) : Searching s (orderStep st) ∧ turnsLeft s (orderStep st) < turnsLeft s st := by
  obtain ⟨⟨b, next⟩, below, hcons⟩ := exists_cons_of_ne_nil hstack
  have hmap : st.stack.map Prod.fst = b :: below.map Prod.fst := by
    rw [hcons]
    rfl
  have hb : b < s.blocks.length := h.inside b (.inr (by rw [hmap]; exact mem_cons_self))
  unfold orderStep
  rw [hcons]
  simp only [h.shape.successors, h.shape.pick, h.shape.successor]
  split_ifs with hnext
  · have hadvance : ∀ st' : OrderState, st' = { st with stack := (b, next + 1) :: below } →
        turnsLeft s st' < turnsLeft s st := by
      rintro _ rfl
      unfold turnsLeft
      rw [hcons]
      simp only [map_cons, sum_cons]
      omega
    cases hsucc : ssaSuccessor s (s.block b) (orderPick s (s.block b) next) with
    | none =>
      refine ⟨h.advance hcons fun c hc => ?_, hadvance _ rfl⟩
      rw [hsucc] at hc
      cases hc
    | some c =>
      have hedge : Edge s b c := by
        refine ⟨orderPick s (s.block b) next, ?_, hsucc⟩
        unfold orderPick
        split
        next htwo =>
          split
          next => split <;> omega
          next => exact hnext
        next => exact hnext
      have hc : c < s.blocks.length := hflow.target b c hb hedge
      dsimp only
      split_ifs with hflag
      · refine ⟨h.advance hcons fun d hd => ?_, hadvance _ rfl⟩
        rw [hsucc] at hd
        cases hd
        exact (h.flags c hc).mp hflag
      have hnew : ¬ st.visited c := fun hv => hflag ((h.flags c hc).mpr hv)
      exact ⟨h.enter hflow hcons hnext hsucc hedge hnew,
        turnsLeft_enter h.shape hcons hnext hc (by simpa using hflag)⟩
  · refine ⟨h.leave hcons (Nat.le_of_not_lt hnext), ?_⟩
    unfold turnsLeft
    rw [hcons]
    simp only [map_cons, sum_cons]
    omega

theorem Searching.loop (hflow : ControlFlow s) : ∀ (fuel : Nat) {st : OrderState}, Searching s st →
    turnsLeft s st < fuel → ∃ st', orderLoop fuel st = some st' ∧ Searching s st' ∧ st'.stack = [] := by
  intro fuel
  induction fuel with
  | zero => exact fun _ hlt => absurd hlt (Nat.not_lt_zero _)
  | succ fuel ih =>
    intro st h hlt
    unfold orderLoop
    by_cases hstack : st.stack = []
    · exact ⟨st, if_pos hstack, h, hstack⟩
    rw [if_neg hstack]
    obtain ⟨hstep, hless⟩ := h.step hflow hstack
    exact ih hstep (by omega)

def clearedBlocks (s : Ssa) : Ssa :=
  { s with blocks := s.blocks.map ({ · with reachable := false, order := UINT32_MAX }) }

theorem clearedBlocks_block {b : Nat} (hb : b < s.blocks.length) :
    (clearedBlocks s).block b = { s.block b with reachable := false, order := UINT32_MAX } := by
  simp [clearedBlocks, Ssa.block, getD_eq_getElem?_getD, hb]

theorem clearedBlocks_shape (s : Ssa) : SameShape s (clearedBlocks s) := by
  refine ⟨rfl, rfl, length_map _, fun b => ?_⟩
  by_cases hb : b < s.blocks.length
  · exact ⟨_, _, _, _, clearedBlocks_block hb⟩
  · refine ⟨(s.block b).reachable, (s.block b).order, (s.block b).idom, (s.block b).depth, ?_⟩
    simp [clearedBlocks, Ssa.block, getD_eq_getElem?_getD, hb]

theorem searching_start (hflow : ControlFlow s) :
    Searching s { s := (clearedBlocks s).updateBlock 0 ({ · with reachable := true }), stack := [(0, 0)] } := by
  have hcleared : (clearedBlocks s).blocks.length = s.blocks.length := (clearedBlocks_shape s).length
  refine ⟨(clearedBlocks_shape s).trans (.update _ _ fun block => ⟨true, block.order, block.idom, block.depth, rfl⟩),
    fun b hb => ?_, fun b hb => ?_, nodup_singleton 0, .entry 0, fun b hb => absurd hb not_mem_nil, ?_,
    fun later b before hcut => ?_, fun b hb => ?_, .inr mem_cons_self⟩
  · by_cases hb0 : b = 0
    · subst hb0
      rw [Ssa.updateBlock_self (by omega)]
      simp [OrderState.visited]
    · rw [Ssa.updateBlock_other hb0, clearedBlocks_block hb]
      simp [OrderState.visited, hb0]
  · have hb0 : b = 0 := by simpa [OrderState.visited] using hb
    exact hb0 ▸ hflow.entry
  · intro b next hmem j hj
    cases mem_singleton.mp hmem
    exact absurd hj (Nat.not_lt_zero _)
  · simp at hcut
  · have hb0 : b = 0 := by simpa [OrderState.visited] using hb
    exact hb0 ▸ entry_reached

theorem turnsLeft_start (hflow : ControlFlow s) :
    turnsLeft s { s := (clearedBlocks s).updateBlock 0 ({ · with reachable := true }), stack := [(0, 0)] } <
      orderFuel s := by
  have hcleared : (clearedBlocks s).blocks.length = s.blocks.length := (clearedBlocks_shape s).length
  have hrest : (Finset.range s.blocks.length).filter (fun d =>
      (((clearedBlocks s).updateBlock 0 ({ · with reachable := true })).block d).reachable = false) =
      (Finset.range s.blocks.length).erase 0 := by
    ext d
    simp only [Finset.mem_filter, Finset.mem_range, Finset.mem_erase]
    by_cases hd0 : d = 0
    · subst hd0
      rw [Ssa.updateBlock_self (by rw [hcleared]; exact hflow.entry)]
      simp
    rw [Ssa.updateBlock_other hd0]
    simp only [hd0, not_false_eq_true, ne_eq, true_and, and_iff_left_iff_imp]
    intro hd
    rw [clearedBlocks_block hd]
  have hsum : ((range s.blocks.length).map fun b => ssaSuccessors s (s.block b) + 1).sum =
      ∑ b ∈ Finset.range s.blocks.length, (ssaSuccessors s (s.block b) + 1) := rfl
  unfold turnsLeft orderFuel
  rw [hrest, hsum, ← Finset.add_sum_erase _ _ (Finset.mem_range.mpr hflow.entry)]
  simp only [map_cons, map_nil, sum_cons, sum_nil]
  omega

theorem placeBlocks_shape : ∀ (order : List Nat) (n : Nat) (s : Ssa), SameShape s (placeBlocks n order s) := by
  intro order
  induction order with
  | nil => exact fun _ s => .refl s
  | cons b order ih =>
    intro n s
    exact (SameShape.update s b fun block =>
      ⟨block.reachable, n, block.idom, block.depth, rfl⟩).trans (ih (n + 1) _)

theorem placeBlocks_other : ∀ (order : List Nat) (n : Nat) (s : Ssa) (c : Nat), c ∉ order →
    (placeBlocks n order s).block c = s.block c := by
  intro order
  induction order with
  | nil => exact fun _ _ _ _ => rfl
  | cons b order ih =>
    intro n s c hc
    rw [mem_cons, not_or] at hc
    exact (ih (n + 1) _ c hc.2).trans (Ssa.updateBlock_other hc.1 _)

theorem placeBlocks_place : ∀ (order : List Nat) (n : Nat) (s : Ssa), order.Nodup →
    (∀ b ∈ order, b < s.blocks.length) → ∀ i b, order[i]? = some b →
    (placeBlocks n order s).block b = { s.block b with order := n + i } := by
  intro order
  induction order with
  | nil =>
    intro n s _ _ i b hb
    simp at hb
  | cons c order ih =>
    intro n s hnodup hinside i b hb
    obtain ⟨hc, hnodup⟩ := nodup_cons.mp hnodup
    cases i with
    | zero =>
      cases hb
      rw [placeBlocks, placeBlocks_other order _ _ c hc, Ssa.updateBlock_self (hinside c mem_cons_self)]
      rfl
    | succ i =>
      rw [getElem?_cons_succ] at hb
      have hne : b ≠ c := by
        rintro rfl
        exact hc (mem_of_getElem? hb)
      rw [placeBlocks, ih (n + 1) _ hnodup (fun d hd => by
        simpa using hinside d (mem_cons_of_mem _ hd)) i b hb, Ssa.updateBlock_other hne,
        add_assoc, add_comm 1]

theorem keepOperands_blocks (kept p : Nat) :
    ∀ s : Ssa, (keepOperands phis kept p s).blocks = s.blocks := by
  induction phis with
  | nil => exact fun _ => rfl
  | cons id phis ih => exact fun s => ih _

theorem prunePreds_spec : ∀ (preds : List Nat) (kept p : Nat) (s : Ssa),
    (prunePreds phis kept p preds s).1.blocks = s.blocks ∧
      (prunePreds phis kept p preds s).2 = preds.filter fun b => (s.block b).reachable := by
  intro preds
  induction preds with
  | nil => exact fun _ _ _ => ⟨rfl, rfl⟩
  | cons pred preds ih =>
    intro kept p s
    unfold prunePreds
    split_ifs with hflag
    · have hblocks := keepOperands_blocks phis kept p s
      have hblock := Ssa.block_congr hblocks
      obtain ⟨hrest, hfilter⟩ := ih (kept + 1) (p + 1) (keepOperands phis kept p s)
      rw [filter_cons_of_pos (by exact hflag)]
      refine ⟨hrest.trans hblocks, ?_⟩
      dsimp only
      rw [hfilter]
      simp only [hblock]
    · rw [filter_cons_of_neg (by exact hflag)]
      exact ih kept (p + 1) s

/-- The blocks after a turn: those of `s`, with other predecessors in `b`. -/
theorem pruneBlock_eq (s : Ssa) (b : Nat) : ∃ s' : Ssa, s'.blocks = s.blocks ∧ pruneBlock s b =
    s'.updateBlock b ({ · with preds := (s.block b).preds.filter fun p => (s.block p).reachable }) := by
  obtain ⟨hblocks, hpreds⟩ := prunePreds_spec (leadingPhis s (s.block b)) (s.block b).preds 0 0 s
  unfold pruneBlock
  dsimp only
  rw [hpreds]
  refine ⟨_, ?_, rfl⟩
  exact hblocks

theorem pruneBlock_length (s : Ssa) (b : Nat) : (pruneBlock s b).blocks.length = s.blocks.length := by
  obtain ⟨s', hblocks, heq⟩ := pruneBlock_eq s b
  rw [heq, Ssa.updateBlock_length, hblocks]

theorem pruneBlock_self {b : Nat} (hb : b < s.blocks.length) :
    (pruneBlock s b).block b =
      { s.block b with preds := (s.block b).preds.filter fun p => (s.block p).reachable } := by
  obtain ⟨s', hblocks, heq⟩ := pruneBlock_eq s b
  rw [heq, Ssa.updateBlock_self (by rw [hblocks]; exact hb), Ssa.block_congr hblocks]

theorem pruneBlock_other {b c : Nat} (hc : c ≠ b) : (pruneBlock s b).block c = s.block c := by
  obtain ⟨s', hblocks, heq⟩ := pruneBlock_eq s b
  rw [heq, Ssa.updateBlock_other hc, Ssa.block_congr hblocks]

theorem pruneBlocks_spec : ∀ (order : List Nat) (s : Ssa), order.Nodup → (∀ b ∈ order, b < s.blocks.length) →
    (order.foldl pruneBlock s).blocks.length = s.blocks.length ∧
      (∀ b ∉ order, (order.foldl pruneBlock s).block b = s.block b) ∧
      ∀ b ∈ order, (order.foldl pruneBlock s).block b =
        { s.block b with preds := (s.block b).preds.filter fun p => (s.block p).reachable } := by
  intro order
  induction order with
  | nil => exact fun _ _ _ => ⟨rfl, fun _ _ => rfl, fun b hb => absurd hb not_mem_nil⟩
  | cons b order ih =>
    intro s hnodup hinside
    obtain ⟨hb, hnodup⟩ := nodup_cons.mp hnodup
    obtain ⟨hlength, hout, hin⟩ := ih (pruneBlock s b) hnodup fun c hc => by
      rw [pruneBlock_length]
      exact hinside c (mem_cons_of_mem _ hc)
    have hself := pruneBlock_self (hinside b mem_cons_self)
    have hflags : ∀ p, ((pruneBlock s b).block p).reachable = (s.block p).reachable := by
      intro p
      by_cases hp : p = b
      · rw [hp, hself]
      · rw [pruneBlock_other hp]
    refine ⟨hlength.trans (pruneBlock_length s b), fun c hc => ?_, fun c hc => ?_⟩
    · rw [mem_cons, not_or] at hc
      exact (hout c hc.2).trans (pruneBlock_other hc.1)
    rcases mem_cons.mp hc with rfl | hmem
    · exact (hout c hb).trans hself
    have hne : c ≠ b := by
      rintro rfl
      exact hb hmem
    rw [foldl_cons, hin c hmem, pruneBlock_other hne]
    simp only [hflags]

/-- What the order of the blocks of `s` is. -/
structure OrderSpec (s s' : Ssa) (order : List Nat) : Prop where
  length : s'.blocks.length = s.blocks.length
  head : order.head? = some 0
  nodup : order.Nodup
  mem : ∀ b, b ∈ order ↔ Reached (Edge s) 0 b
  inside : ∀ b ∈ order, b < s.blocks.length
  place : ∀ i b, order[i]? = some b → (s'.block b).order = i
  preds : ∀ b ∈ order, ∀ p, p ∈ (s'.block b).preds ↔ p ∈ order ∧ Edge s p b
  earlier : ∀ b ∈ order, b ≠ 0 → ∃ p ∈ order, Edge s p b ∧ (s'.block p).order < (s'.block b).order

/-- **The order is a reverse postorder of the reachable blocks.** -/
theorem ssaOrder_spec (hflow : ControlFlow s) :
    ∃ s' order, ssaOrder s = some (s', order) ∧ OrderSpec s s' order := by
  have hfuel : orderFuel ((clearedBlocks s).updateBlock 0 ({ · with reachable := true })) = orderFuel s := by
    have hshape := (searching_start hflow).shape
    unfold orderFuel
    simp only [hshape.length, hshape.successors]
  obtain ⟨st, hloop, h, hstack⟩ := Searching.loop hflow (orderFuel s) (searching_start hflow) (turnsLeft_start hflow)
  have hvisited : ∀ b, st.visited b ↔ b ∈ st.post := by
    intro b
    simp [OrderState.visited, hstack]
  have hinside : ∀ b ∈ st.post, b < s.blocks.length := fun b hb => h.inside b ((hvisited b).mpr hb)
  have hnodup : st.post.Nodup := by
    have hnodup := h.nodup
    rwa [hstack, map_nil, append_nil] at hnodup
  have hmem : ∀ b, b ∈ st.post ↔ Reached (Edge s) 0 b := by
    refine fun b => ⟨fun hb => h.reached b ((hvisited b).mpr hb), fun hb => ?_⟩
    refine hb.induct ((hvisited 0).mp h.root) fun u v _ hu hedge => (hvisited v).mp (h.closed u hu v hedge)
  have hplaced := placeBlocks_shape st.post 0 st.s
  have hlength : (placeBlocks 0 st.post st.s).blocks.length = s.blocks.length := hplaced.length.trans h.shape.length
  have hplace := placeBlocks_place st.post 0 st.s hnodup fun b hb => by
    rw [h.shape.length]
    exact hinside b hb
  obtain ⟨hpruned, -, hkept⟩ := pruneBlocks_spec st.post (placeBlocks 0 st.post st.s) hnodup fun b hb => by
    rw [hlength]
    exact hinside b hb
  have horder : ∀ i b, st.post[i]? = some b →
      ((st.post.foldl pruneBlock (placeBlocks 0 st.post st.s)).block b).order = i := by
    intro i b hb
    rw [hkept b (mem_of_getElem? hb), hplace i b hb, zero_add]
  refine ⟨_, st.post, ?_, hpruned.trans hlength, ?_, hnodup, hmem, hinside, horder, fun b hb p => ?_,
    fun b hb hne => ?_⟩
  · change (orderLoop (orderFuel ((clearedBlocks s).updateBlock 0 ({ · with reachable := true }))) _).bind _ = _
    rw [hfuel]
    change (orderLoop (orderFuel s)
      { s := (clearedBlocks s).updateBlock 0 ({ · with reachable := true }), stack := [(0, 0)] }).bind _ = _
    rw [hloop]
    rfl
  · cases hpost : st.post with
    | nil =>
      have hroot := (hvisited 0).mp h.root
      rw [hpost] at hroot
      cases hroot
    | cons b before =>
      by_cases hb : b = 0
      · rw [hb]
        rfl
      obtain ⟨p, -, hp | hp⟩ := h.earlier [] b before (by rw [hpost]; rfl) hb
      · cases hp
      · rw [hstack] at hp
        cases hp
  · have hlt := hinside b hb
    rw [hkept b hb, mem_filter, hplaced.preds, h.shape.preds, hflow.preds p b hlt]
    have hflag : ∀ q < s.blocks.length, ((placeBlocks 0 st.post st.s).block q).reachable = true ↔ q ∈ st.post := by
      intro q hq
      rw [← hvisited q, ← h.flags q hq]
      by_cases hmem : q ∈ st.post
      · obtain ⟨i, hi⟩ := getElem?_of_mem hmem
        rw [hplace i q hi]
      · rw [placeBlocks_other st.post 0 st.s q hmem]
    constructor
    · rintro ⟨⟨hp, hedge⟩, hreach⟩
      exact ⟨(hflag p hp).mp hreach, hedge⟩
    rintro ⟨hp, hedge⟩
    have hp' := hinside p hp
    exact ⟨⟨hp', hedge⟩, (hflag p hp').mpr hp⟩
  · obtain ⟨later, before, hcut⟩ := append_of_mem hb
    obtain ⟨p, hedge, hp | hp⟩ := h.earlier later b before hcut hne
    · have hpb : st.post[later.length]? = some b := by
        rw [hcut]
        simp
      obtain ⟨i, hi⟩ := getElem?_of_mem hp
      have hilt : i < later.length := (List.getElem?_eq_some_iff.mp hi).1
      have hpp : st.post[i]? = some p := by
        rw [hcut, getElem?_append_left hilt, hi]
      refine ⟨p, mem_of_getElem? hpp, hedge, ?_⟩
      rw [horder i p hpp, horder _ b hpb]
      exact hilt
    · rw [hstack] at hp
      cases hp

end Dyn.Backend
