import Dyn.Backend.Dominance
import Mathlib.Algebra.BigOperators.Group.Finset.Piecewise

/-!
# backend/ssa: the numbering of the dominator tree

The search enters a block before everything below it and leaves it after, so that the intervals
of the numbers nest as the tree does.
-/

namespace Dyn.Backend

open List Function
open Lib Lib.Flow

/-- The list that starts at `head` and goes on along the links. -/
def Linked (sibling : List (Option Nat)) : Option Nat → List Nat → Prop
  | head, [] => head = none
  | head, c :: rest => head = some c ∧ Linked sibling (sibling.getD c none) rest

theorem Linked.set {sibling : List (Option Nat)} {b : Nat} {link : Option Nat} : ∀ {list : List Nat} {head : Option Nat},
    Linked sibling head list → b ∉ list → Linked (sibling.set b link) head list := by
  intro list
  induction list with
  | nil => exact fun h _ => h
  | cons c rest ih =>
    intro head h hb
    rw [mem_cons, not_or] at hb
    refine ⟨h.1, ?_⟩
    rw [getD_eq_getElem?_getD, getElem?_set_ne hb.1, ← getD_eq_getElem?_getD]
    exact ih h.2 hb.2

section Numbers

variable {s0 s1 s : Ssa} {order : List Nat}

/-- The blocks directly below `p`, in their order. -/
def childrenOf (order : List Nat) (s : Ssa) (p : Nat) : List Nat :=
  order.tail.filter fun b => (s.block b).idom = some p

variable {b : Nat} {sibling : List (Option Nat)}

theorem mem_childrenOf (horder : OrderSpec s0 s1 order) {p : Nat} :
    b ∈ childrenOf order s p ↔ Parent 0 (dominatorTable order s) b p := by
  have hsplit := order_split horder
  have htail : b ∈ order.tail ↔ b ∈ order ∧ b ≠ 0 := by
    have hnodup := horder.nodup
    rw [hsplit] at hnodup ⊢
    rw [tail_cons, mem_cons]
    constructor
    · intro hb
      exact ⟨.inr hb, fun h => (nodup_cons.mp hnodup).1 (h ▸ hb)⟩
    rintro ⟨rfl | hb, hne⟩
    · exact absurd rfl hne
    · exact hb
  unfold childrenOf Parent
  rw [mem_filter, htail, decide_eq_true_iff]
  constructor
  · rintro ⟨⟨hb, hne⟩, hidom⟩
    exact ⟨hne, (dominatorTable_of_mem hb).trans hidom⟩
  rintro ⟨hne, htable⟩
  obtain ⟨hb, hidom⟩ := dominatorTable_some htable
  exact ⟨⟨hb, hne⟩, hidom⟩

theorem linkChild_spec : ∀ (rest : List Nat), rest.Nodup → (∀ b ∈ rest, b < s.blocks.length) →
    (∀ b ∈ rest, ∃ d < s.blocks.length, (s.block b).idom = some d) →
    ∀ links, links = rest.foldr (linkChild s)
        (List.replicate s.blocks.length none, List.replicate s.blocks.length none) →
      links.1.length = s.blocks.length ∧ links.2.length = s.blocks.length ∧
      ∀ p < s.blocks.length, Linked links.2 (links.1.getD p none)
        (rest.filter fun b => (s.block b).idom = some p) := by
  intro rest
  induction rest with
  | nil =>
    rintro _ _ _ _ rfl
    refine ⟨length_replicate, length_replicate, fun p hp => ?_⟩
    simp [Linked, hp]
  | cons b rest ih =>
    rintro hnodup hinside hidoms _ rfl
    obtain ⟨hb, hnodup⟩ := nodup_cons.mp hnodup
    obtain ⟨hchild, hsibling, hlinked⟩ := ih hnodup (fun c hc => hinside c (mem_cons_of_mem _ hc))
      (fun c hc => hidoms c (mem_cons_of_mem _ hc)) _ rfl
    rw [foldr_cons]
    generalize rest.foldr (linkChild s)
      (replicate s.blocks.length none, replicate s.blocks.length none) = links at hchild hsibling hlinked
    obtain ⟨d, hd, hidom⟩ := hidoms b mem_cons_self
    have hlt := hinside b mem_cons_self
    unfold linkChild
    rw [hidom]
    dsimp only
    rw [if_neg (Nat.not_le_of_lt hd)]
    refine ⟨by simpa using hchild, by simpa using hsibling, fun p hp => ?_⟩
    have hfresh : b ∉ rest.filter fun c => (s.block c).idom = some p := fun h => hb (mem_filter.mp h).1
    by_cases hpd : p = d
    · subst hpd
      rw [filter_cons_of_pos (by simp [hidom])]
      refine ⟨by simp [getD_eq_getElem?_getD, hchild, hp], ?_⟩
      have hself : (links.2.set b (links.1.getD p none)).getD b none = links.1.getD p none := by
        rw [getD_eq_getElem?_getD, getElem?_set_self (by rw [hsibling]; exact hlt)]
        rfl
      rw [hself]
      exact (hlinked p hp).set hfresh
    rw [filter_cons_of_neg (by simp [hidom, Ne.symm hpd])]
    have hother : (links.1.set d (some b)).getD p none = links.1.getD p none := by
      rw [getD_eq_getElem?_getD, getElem?_set_ne (Ne.symm hpd), ← getD_eq_getElem?_getD]
    rw [hother]
    exact (hlinked p hp).set hfresh

/-- The lists of the state and what is left of the lists of children. -/
structure Counted (sibling : List (Option Nat)) (n : Nat) (rest : Nat → List Nat) (st : Numbering) : Prop where
  enter : st.enter.length = n
  leave : st.leave.length = n
  child : st.child.length = n
  linked : ∀ p < n, Linked sibling (st.child.getD p none) (rest p)
  stack : ∀ b ∈ st.stack, b < n

def numbersLeft (n : Nat) (rest : Nat → List Nat) (st : Numbering) : Nat :=
  2 * ∑ p ∈ Finset.range n, (rest p).length + st.stack.length

theorem Counted.step {sibling : List (Option Nat)} {n : Nat} {rest : Nat → List Nat} {st : Numbering}
    (h : Counted sibling n rest st) (hinside : ∀ p, ∀ c ∈ rest p, c < n) (hstack : st.stack ≠ []) :
    ∃ rest', Counted sibling n rest' (numberStep sibling st) ∧ (∀ p, ∀ c ∈ rest' p, c < n) ∧
      numbersLeft n rest st = numbersLeft n rest' (numberStep sibling st) + 1 ∧
      (numberStep sibling st).clock = st.clock + 1 := by
  obtain ⟨b, below, hcons⟩ := exists_cons_of_ne_nil hstack
  have hb : b < n := h.stack b (by rw [hcons]; exact mem_cons_self)
  have hlinked := h.linked b hb
  unfold numberStep
  rw [hcons]
  dsimp only
  cases hrest : rest b with
  | nil =>
    rw [hrest] at hlinked
    rw [hlinked]
    refine ⟨rest, ⟨h.enter, by simpa using h.leave, h.child, h.linked, fun c hc =>
      h.stack c (by rw [hcons]; exact mem_cons_of_mem _ hc)⟩, hinside, ?_, rfl⟩
    unfold numbersLeft
    rw [hcons]
    rfl
  | cons c more =>
    rw [hrest] at hlinked
    rw [hlinked.1]
    have hc : c < n := hinside b c (by rw [hrest]; exact mem_cons_self)
    refine ⟨update rest b more, ⟨by simpa using h.enter, h.leave, by simpa using h.child, fun p hp => ?_,
      fun d hd => ?_⟩, fun p d hd => ?_, ?_, rfl⟩
    · by_cases hpb : p = b
      · subst hpb
        rw [update_self]
        simp only [getD_eq_getElem?_getD, getElem?_set_self (h.child.symm ▸ hp), Option.getD_some]
        rw [← getD_eq_getElem?_getD]
        exact hlinked.2
      rw [update_of_ne hpb]
      simp only [getD_eq_getElem?_getD, getElem?_set_ne (Ne.symm hpb)]
      rw [← getD_eq_getElem?_getD]
      exact h.linked p hp
    · rcases mem_cons.mp hd with rfl | hd
      · exact hc
      · exact h.stack d (by rw [hcons]; exact hd)
    · by_cases hpb : p = b
      · subst hpb
        rw [update_self] at hd
        exact hinside p d (by rw [hrest]; exact mem_cons_of_mem _ hd)
      · rw [update_of_ne hpb] at hd
        exact hinside p d hd
    · unfold numbersLeft
      have hmem : b ∈ Finset.range n := Finset.mem_range.mpr hb
      have hsame : ∑ p ∈ (Finset.range n).erase b, (update rest b more p).length =
          ∑ p ∈ (Finset.range n).erase b, (rest p).length :=
        Finset.sum_congr rfl fun p hp => by rw [update_of_ne (Finset.ne_of_mem_erase hp)]
      rw [← Finset.add_sum_erase _ _ hmem, ← Finset.add_sum_erase _ _ hmem, hsame, update_self, hrest, hcons]
      simp only [length_cons]
      omega

theorem numberStep_idle {st : Numbering} (hstack : st.stack = []) (k : Nat) :
    (numberStep sibling)^[k] st = st := by
  have hfix : numberStep sibling st = st := by
    unfold numberStep
    rw [hstack]
  exact Function.iterate_fixed hfix k

theorem Counted.loop {n : Nat} : ∀ (fuel : Nat) {rest : Nat → List Nat} {st : Numbering},
    Counted sibling n rest st → (∀ p, ∀ c ∈ rest p, c < n) → numbersLeft n rest st < fuel →
    ∃ k, numberLoop sibling fuel st = some ((numberStep sibling)^[k] st) ∧
      ((numberStep sibling)^[k] st).stack = [] ∧
      ((numberStep sibling)^[k] st).clock ≤ st.clock + numbersLeft n rest st := by
  intro fuel
  induction fuel with
  | zero => exact fun _ _ hlt => absurd hlt (Nat.not_lt_zero _)
  | succ fuel ih =>
    intro rest st h hinside hlt
    unfold numberLoop
    by_cases hstack : st.stack = []
    · exact ⟨0, if_pos hstack, hstack, Nat.le_add_right _ _⟩
    obtain ⟨rest', h', hinside', hleft, hclock⟩ := h.step hinside hstack
    obtain ⟨k, hloop, hempty, hbound⟩ := ih h' hinside' (by omega)
    refine ⟨k + 1, ?_, hempty, ?_⟩
    · rw [if_neg hstack, hloop, Function.iterate_succ_apply]
    · rw [Function.iterate_succ_apply]
      omega

def Numbering.enterOf (st : Numbering) (b : Nat) : Nat := st.enter.getD b UINT32_MAX

def Numbering.leaveOf (st : Numbering) (b : Nat) : Nat := st.leave.getD b 0

/-- The interval of `y` lies in that of `x`. -/
def Numbering.contains (st : Numbering) (x y : Nat) : Prop :=
  st.enterOf x ≤ st.enterOf y ∧ st.leaveOf y ≤ st.leaveOf x

/-- The tables have one entry for each block. -/
structure Numbering.Sized (st : Numbering) (n : Nat) : Prop where
  enter : st.enter.length = n
  leave : st.leave.length = n
  child : st.child.length = n

/-- What the search of the vertices in `part` has done. -/
structure Toured (above : Nat → Nat → Prop) (part : Nat → Prop) (st st' : Numbering) : Prop where
  clock : st.clock ≤ st'.clock
  apart : ∀ d, ¬ part d → st'.enterOf d = st.enterOf d ∧ st'.leaveOf d = st.leaveOf d
  lower : ∀ d, part d → st.clock ≤ st'.enterOf d
  ordered : ∀ d, part d → st'.enterOf d < st'.leaveOf d
  upper : ∀ d, part d → st'.leaveOf d < st'.clock
  nested : ∀ x y, part x → part y → (above x y ↔ st'.contains x y)

theorem Toured.append {above : Nat → Nat → Prop} {part part' : Nat → Prop} {st st' st'' : Numbering}
    (h : Toured above part st st') (h' : Toured above part' st' st'')
    (hdisjoint : ∀ x y, part x → part' y → ¬ above x y ∧ ¬ above y x ∧ x ≠ y) :
    Toured above (fun d => part d ∨ part' d) st st'' := by
  have hkept : ∀ d, part d → st''.enterOf d = st'.enterOf d ∧ st''.leaveOf d = st'.leaveOf d :=
    fun d hd => h'.apart d fun hd' => (hdisjoint d d hd hd').2.2 rfl
  refine ⟨h.clock.trans h'.clock, fun d hd => ?_, fun d hd => ?_, fun d hd => ?_, fun d hd => ?_, fun x y hx hy => ?_⟩
  · rw [not_or] at hd
    obtain ⟨henter, hleave⟩ := h'.apart d hd.2
    obtain ⟨henter', hleave'⟩ := h.apart d hd.1
    exact ⟨henter.trans henter', hleave.trans hleave'⟩
  · rcases hd with hd | hd
    · rw [(hkept d hd).1]
      exact h.lower d hd
    · exact h.clock.trans (h'.lower d hd)
  · rcases hd with hd | hd
    · rw [(hkept d hd).1, (hkept d hd).2]
      exact h.ordered d hd
    · exact h'.ordered d hd
  · rcases hd with hd | hd
    · rw [(hkept d hd).2]
      exact (h.upper d hd).trans_le h'.clock
    · exact h'.upper d hd
  rcases hx with hx | hx <;> rcases hy with hy | hy
  · rw [h.nested x y hx hy]
    unfold Numbering.contains
    rw [(hkept x hx).1, (hkept x hx).2, (hkept y hy).1, (hkept y hy).2]
  · refine iff_of_false (hdisjoint x y hx hy).1 fun hcontains => ?_
    have hleave := hcontains.2
    rw [(hkept x hx).2] at hleave
    have hx' := h.upper x hx
    have hy' := h'.lower y hy
    have hy'' := h'.ordered y hy
    omega
  · refine iff_of_false (hdisjoint y x hy hx).2.1 fun hcontains => ?_
    have henter := hcontains.1
    rw [(hkept y hy).1] at henter
    have hy' := h.upper y hy
    have hy'' := h.ordered y hy
    have hx' := h'.lower x hx
    omega
  · exact h'.nested x y hx hy

theorem getD_set_other {α : Type} {list : List α} {d : Nat} {a fallback : α} (h : d ≠ b) :
    (list.set b a).getD d fallback = list.getD d fallback := by
  rw [getD_eq_getElem?_getD, getElem?_set_ne (Ne.symm h), ← getD_eq_getElem?_getD]

theorem getD_set_self {α : Type} {list : List α} {a fallback : α} (h : b < list.length) :
    (list.set b a).getD b fallback = a := by
  rw [getD_eq_getElem?_getD, getElem?_set_self h, Option.getD_some]

/-- A tree over the blocks below `n`, with lists of children and ranks that grow downwards. -/
structure Branching (n bound : Nat) (rank : Nat → Nat) (idom : Nat → Option Nat) (children : Nat → List Nat) :
    Prop where
  mem : ∀ c p, c ∈ children p ↔ Parent 0 idom c p
  nodup : ∀ p, (children p).Nodup
  inside : ∀ c p, Parent 0 idom c p → c < n
  lower : ∀ c p, Parent 0 idom c p → rank p < rank c
  bounded : ∀ c p, Parent 0 idom c p → rank c < bound

section Tree

variable {sibling : List (Option Nat)} {n bound : Nat} {rank : Nat → Nat} {idom : Nat → Option Nat}
  {children : Nat → List Nat}

theorem Branching.rank_le (h : Branching n bound rank idom children) {a x : Nat} (ha : Above 0 idom a x) :
    rank a ≤ rank x := by
  induction ha with
  | refl => exact le_rfl
  | tail _ hparent ih => exact (le_of_lt (h.lower _ _ hparent)).trans ih

theorem Branching.child_not_above (h : Branching n bound rank idom children) {c p : Nat}
    (hparent : Parent 0 idom c p) : ¬ Above 0 idom c p := by
  intro habove
  have hle := h.rank_le habove
  have hlt := h.lower c p hparent
  omega

variable {b : Nat}

theorem Branching.siblings_apart (h : Branching n bound rank idom children) {c c' x y : Nat}
    (hc : Parent 0 idom c b) (hc' : Parent 0 idom c' b) (hne : c ≠ c') (hx : Above 0 idom c x)
    (hy : Above 0 idom c' y) : ¬ Above 0 idom x y ∧ ¬ Above 0 idom y x ∧ x ≠ y := by
  have hapart : ∀ {c c'}, Parent 0 idom c b → Parent 0 idom c' b → c ≠ c' → ¬ Above 0 idom c c' := by
    intro c c' hc hc' hne habove
    rcases (above_iff hc'.1 hc'.2).mp habove with heq | habove
    · exact hne heq
    · exact h.child_not_above hc habove
  have hboth : ∀ z, Above 0 idom c z → ¬ Above 0 idom c' z := by
    intro z hz hz'
    rcases hz.total hz' with habove | habove
    · exact hapart hc hc' hne habove
    · exact hapart hc' hc (Ne.symm hne) habove
  exact ⟨fun hxy => hboth y (hx.trans hxy) hy, fun hyx => hboth x hx (hy.trans hyx), fun heq => hboth x hx (heq ▸ hy)⟩

/-- The part below a block is the block and the parts below its children. -/
theorem Branching.above_iff_child (h : Branching n bound rank idom children) {d : Nat} :
    Above 0 idom b d ↔ d = b ∨ ∃ c ∈ children b, Above 0 idom c d := by
  constructor
  · intro habove
    rcases Relation.ReflTransGen.cases_tail habove with heq | ⟨c, hdc, hparent⟩
    · exact .inl heq.symm
    · exact .inr ⟨c, (h.mem c b).mpr hparent, hdc⟩
  rintro (rfl | ⟨c, hc, hcd⟩)
  · exact .refl _
  · have hparent := (h.mem c b).mp hc
    exact ((Above.refl b).up hparent.1 hparent.2).trans hcd

/-- The search of `b` and what is below it, from the turn after `b` was entered to that after it was left. -/
def Visits (sibling : List (Option Nat)) (n : Nat) (idom : Nat → Option Nat) (children : Nat → List Nat) (b : Nat) : Prop :=
  ∀ (st st' : Numbering) (below : List Nat), st'.Sized n → st'.stack = b :: below → st'.clock = st.clock + 1 →
    st'.enterOf b = st.clock → (∀ d, d ≠ b → st'.enterOf d = st.enterOf d) → (∀ d, st'.leaveOf d = st.leaveOf d) →
    (∀ d, Above 0 idom b d → Linked sibling (st'.child.getD d none) (children d)) →
    ∃ k, ((numberStep sibling)^[k] st').Sized n ∧ ((numberStep sibling)^[k] st').stack = below ∧
      (∀ d, ¬ Above 0 idom b d → ((numberStep sibling)^[k] st').child.getD d none = st'.child.getD d none) ∧
      Toured (Above 0 idom) (Above 0 idom b) st ((numberStep sibling)^[k] st')

/-- The searches of the children `rest` of `b`, one after another. -/
theorem Branching.tours (h : Branching n bound rank idom children) (hb : b < n) :
    ∀ (rest : List Nat),
    rest.Nodup → (∀ c ∈ rest, Parent 0 idom c b) → (∀ c ∈ rest, Visits sibling n idom children c) →
    ∀ (st : Numbering) (below : List Nat), st.Sized n → st.stack = b :: below →
    Linked sibling (st.child.getD b none) rest →
    (∀ c ∈ rest, ∀ d, Above 0 idom c d → Linked sibling (st.child.getD d none) (children d)) →
    ∃ k, ((numberStep sibling)^[k] st).Sized n ∧ ((numberStep sibling)^[k] st).stack = b :: below ∧
      ((numberStep sibling)^[k] st).child.getD b none = none ∧
      (∀ d, d ≠ b → (¬ ∃ c ∈ rest, Above 0 idom c d) →
        ((numberStep sibling)^[k] st).child.getD d none = st.child.getD d none) ∧
      Toured (Above 0 idom) (fun d => ∃ c ∈ rest, Above 0 idom c d) st ((numberStep sibling)^[k] st) := by
  intro rest
  induction rest with
  | nil =>
    intro _ _ _ st below hsized hstack hlinked _
    refine ⟨0, hsized, hstack, hlinked, fun _ _ _ => rfl, le_rfl, fun _ _ => ⟨rfl, rfl⟩, ?_, ?_, ?_, ?_⟩
    · rintro d ⟨c, hc, -⟩
      cases hc
    · rintro d ⟨c, hc, -⟩
      cases hc
    · rintro d ⟨c, hc, -⟩
      cases hc
    · rintro x y ⟨c, hc, -⟩
      cases hc
  | cons c rest ih =>
    intro hnodup hparents hvisits st below hsized hstack hlinked hlinks
    obtain ⟨hfresh, hnodup⟩ := nodup_cons.mp hnodup
    have hparent := hparents c mem_cons_self
    have hc := h.inside c b hparent
    have hpush : numberStep sibling st =
        { enter := st.enter.set c st.clock
          leave := st.leave
          child := st.child.set b (sibling.getD c none)
          stack := c :: b :: below
          clock := st.clock + 1 } := by
      unfold numberStep
      rw [hstack]
      dsimp only
      rw [hlinked.1]
    have hnotb : ∀ c' ∈ c :: rest, ∀ d, Above 0 idom c' d → d ≠ b := by
      rintro c' hc' d habove rfl
      exact h.child_not_above (hparents c' hc') habove
    obtain ⟨k, hsized', hstack', hchild', htoured⟩ := hvisits c mem_cons_self st (numberStep sibling st) (b :: below)
      (by rw [hpush]; exact ⟨by simpa using hsized.enter, hsized.leave, by simpa using hsized.child⟩)
      (by rw [hpush]) (by rw [hpush])
      (by rw [hpush]; exact getD_set_self (by rw [hsized.enter]; exact hc))
      (fun d hd => by rw [hpush]; exact getD_set_other hd) (fun d => by rw [hpush]; rfl)
      (fun d hd => by
        rw [hpush]
        rw [getD_set_other (hnotb c mem_cons_self d hd)]
        exact hlinks c mem_cons_self d hd)
    generalize hst : (numberStep sibling)^[k] (numberStep sibling st) = st1 at hsized' hstack' hchild' htoured
    have hapart : ∀ c' ∈ rest, ∀ x y, Above 0 idom c x → Above 0 idom c' y →
        ¬ Above 0 idom x y ∧ ¬ Above 0 idom y x ∧ x ≠ y := by
      intro c' hc' x y hx hy
      refine h.siblings_apart hparent (hparents c' (mem_cons_of_mem _ hc')) ?_ hx hy
      rintro rfl
      exact hfresh hc'
    obtain ⟨k', hsized'', hstack'', hempty, hchild'', htoured'⟩ := ih hnodup
      (fun c' hc' => hparents c' (mem_cons_of_mem _ hc')) (fun c' hc' => hvisits c' (mem_cons_of_mem _ hc'))
      st1 below hsized' hstack'
      (by
        rw [hchild' b (h.child_not_above hparent), hpush]
        rw [getD_set_self (by rw [hsized.child]; exact hb)]
        exact hlinked.2)
      (fun c' hc' d hd => by
        rw [hchild' d fun hcd => (hapart c' hc' d d hcd hd).2.2 rfl, hpush]
        rw [getD_set_other (hnotb c' (mem_cons_of_mem _ hc') d hd)]
        exact hlinks c' (mem_cons_of_mem _ hc') d hd)
    have hrun : (numberStep sibling)^[k' + (k + 1)] st = (numberStep sibling)^[k'] st1 := by
      rw [Function.iterate_add_apply, Function.iterate_succ_apply, hst]
    refine ⟨k' + (k + 1), ?_, ?_, ?_, fun d hdb hd => ?_, ?_⟩
    · rw [hrun]
      exact hsized''
    · rw [hrun]
      exact hstack''
    · rw [hrun]
      exact hempty
    · rw [hrun, hchild'' d hdb fun ⟨c', hc', hd'⟩ => hd ⟨c', mem_cons_of_mem _ hc', hd'⟩,
        hchild' d fun hcd => hd ⟨c, mem_cons_self, hcd⟩, hpush]
      exact getD_set_other hdb
    rw [hrun]
    have happend := htoured.append htoured' fun x y hx ⟨c', hc', hy⟩ => hapart c' hc' x y hx hy
    have hpart : (fun d => ∃ c' ∈ c :: rest, Above 0 idom c' d) =
        fun d => Above 0 idom c d ∨ ∃ c' ∈ rest, Above 0 idom c' d := by
      funext d
      simp
    rw [hpart]
    exact happend

theorem Branching.visits (h : Branching n bound rank idom children) (hb : b < n) :
    Visits sibling n idom children b := by
  generalize hheight : bound - rank b = height
  induction height using Nat.strongRecOn generalizing b with
  | _ height ih =>
    intro st st' below hsized hstack hclock henter hother hleave hlinks
    have hchildren : ∀ c ∈ children b, Parent 0 idom c b := fun c hc => (h.mem c b).mp hc
    have hvisits : ∀ c ∈ children b, Visits sibling n idom children c := by
      intro c hc
      have hparent := hchildren c hc
      have hlower := h.lower c b hparent
      have hbounded := h.bounded c b hparent
      exact ih (bound - rank c) (by omega) (h.inside c b hparent) rfl
    obtain ⟨k, hsized', hstack', hempty, hchild, htoured⟩ := h.tours hb (children b) (h.nodup b) hchildren hvisits
      st' below hsized hstack (hlinks b (.refl b)) fun c hc d hd =>
        hlinks d (h.above_iff_child.mpr (.inr ⟨c, hc, hd⟩))
    generalize hst : (numberStep sibling)^[k] st' = st1 at hsized' hstack' hempty hchild htoured
    have hrun : (numberStep sibling)^[k + 1] st' =
        { st1 with leave := st1.leave.set b st1.clock, stack := below, clock := st1.clock + 1 } := by
      rw [Function.iterate_succ_apply', hst]
      unfold numberStep
      rw [hstack']
      dsimp only
      rw [hempty]
    have hbelow : ∀ d, Above 0 idom b d → d ≠ b → ∃ c ∈ children b, Above 0 idom c d := fun d hd hne =>
      (h.above_iff_child.mp hd).resolve_left hne
    have hself : ¬ ∃ c ∈ children b, Above 0 idom c b := fun ⟨c, hc, hcb⟩ =>
      h.child_not_above (hchildren c hc) hcb
    have hup : ∀ d, Above 0 idom b d → d ≠ b → ¬ Above 0 idom d b := by
      intro d hd hne hdb
      obtain ⟨c, hc, hcd⟩ := hbelow d hd hne
      exact hself ⟨c, hc, hcd.trans hdb⟩
    refine ⟨k + 1, ?_, ?_, fun d hd => ?_, ?_⟩
    · rw [hrun]
      exact ⟨hsized'.enter, by simpa using hsized'.leave, hsized'.child⟩
    · rw [hrun]
    · rw [hrun]
      refine hchild d ?_ fun ⟨c, hc, hcd⟩ => hd (h.above_iff_child.mpr (.inr ⟨c, hc, hcd⟩))
      rintro rfl
      exact hd (.refl _)
    rw [hrun]
    generalize hst2 : { st1 with leave := st1.leave.set b st1.clock, stack := below, clock := st1.clock + 1 } = st2
    have hclock2 : st2.clock = st1.clock + 1 := by rw [← hst2]
    have henter2 : ∀ d, st2.enterOf d = st1.enterOf d := fun d => by
      rw [← hst2]
      rfl
    have hleave2 : ∀ d, d ≠ b → st2.leaveOf d = st1.leaveOf d := fun d hd => by
      rw [← hst2]
      exact getD_set_other hd
    have hleaveb : st2.leaveOf b = st1.clock := by
      rw [← hst2]
      exact getD_set_self (by rw [hsized'.leave]; exact hb)
    have henterb : st2.enterOf b = st.clock := by rw [henter2, (htoured.apart b hself).1, henter]
    have hgrow := htoured.clock
    refine ⟨by omega, fun d hd => ?_, fun d hd => ?_, fun d hd => ?_, fun d hd => ?_, fun x y hx hy => ?_⟩
    · have hne : d ≠ b := by
        rintro rfl
        exact hd (.refl _)
      obtain ⟨henter', hleave'⟩ := htoured.apart d fun ⟨c, hc, hcd⟩ =>
        hd (h.above_iff_child.mpr (.inr ⟨c, hc, hcd⟩))
      rw [henter2, henter', hother d hne, hleave2 d hne, hleave', hleave]
      exact ⟨rfl, rfl⟩
    · by_cases hne : d = b
      · rw [hne, henterb]
      have hlow := htoured.lower d (hbelow d hd hne)
      rw [henter2]
      omega
    · by_cases hne : d = b
      · rw [hne, henterb, hleaveb]
        omega
      · rw [henter2, hleave2 d hne]
        exact htoured.ordered d (hbelow d hd hne)
    · by_cases hne : d = b
      · rw [hne, hleaveb, hclock2]
        exact Nat.lt_succ_self _
      have hup := htoured.upper d (hbelow d hd hne)
      rw [hleave2 d hne]
      omega
    by_cases hxb : x = b
    · subst hxb
      refine iff_of_true hy ?_
      by_cases hyb : y = x
      · rw [hyb]
        exact ⟨le_rfl, le_rfl⟩
      have hlow := htoured.lower y (hbelow y hy hyb)
      have hupper := htoured.upper y (hbelow y hy hyb)
      refine ⟨?_, ?_⟩
      · rw [henterb, henter2]
        omega
      · rw [hleaveb, hleave2 y hyb]
        omega
    by_cases hyb : y = b
    · subst hyb
      refine iff_of_false (hup x hx hxb) fun hcontains => ?_
      have hlow := htoured.lower x (hbelow x hx hxb)
      have hle := hcontains.1
      rw [henterb, henter2] at hle
      omega
    rw [htoured.nested x y (hbelow x hx hxb) (hbelow y hy hyb)]
    unfold Numbering.contains
    rw [henter2, henter2, hleave2 x hxb, hleave2 y hyb]

end Tree

theorem Converged.branching (h : Converged s0 s1 order s) (horder : OrderSpec s0 s1 order) :
    Branching s.blocks.length order.length (fun b => (s1.block b).order) (dominatorTable order s)
      (childrenOf order s) where
  mem c p := mem_childrenOf horder
  nodup p := (horder.nodup.sublist (tail_sublist order)).filter _
  inside c p hparent := by
    rw [h.placed.length, horder.length]
    exact horder.inside c (dominatorTable_some hparent.2).1
  lower c p hparent := h.approx.lower c p hparent.1 hparent.2
  bounded c p hparent := horder.place_lt (dominatorTable_some hparent.2).1

theorem children_sum (s : Ssa) (n : Nat) : ∀ rest : List Nat,
    ∑ p ∈ Finset.range n, (rest.filter fun b => (s.block b).idom = some p).length ≤ rest.length := by
  intro rest
  induction rest with
  | nil => simp
  | cons b rest ih =>
    have hone : ∑ p ∈ Finset.range n, (if (s.block b).idom = some p then 1 else 0) ≤ 1 := by
      cases hidom : (s.block b).idom with
      | none => simp
      | some d =>
        simp only [Option.some.injEq]
        rw [Finset.sum_ite_eq]
        split <;> omega
    have hsplit : ∀ p, ((b :: rest).filter fun c => (s.block c).idom = some p).length =
        (if (s.block b).idom = some p then 1 else 0) +
          (rest.filter fun c => (s.block c).idom = some p).length := by
      intro p
      split_ifs with hp
      · rw [filter_cons_of_pos (by simpa using hp), length_cons, add_comm]
      · rw [filter_cons_of_neg (by simpa using hp), zero_add]
    simp only [hsplit, Finset.sum_add_distrib, length_cons]
    omega

theorem ssaDominatorNumbers_spec (hflow : ControlFlow s0) (horder : OrderSpec s0 s1 order)
    (h : Converged s0 s1 order s) :
    ∃ numbers, ssaDominatorNumbers s order = some numbers ∧
      (∀ a b, a < s0.blocks.length → b ∈ order → (Dominates (Edge s0) 0 a b ↔ numbers.contains a b)) ∧
      ∀ a b, a < s0.blocks.length → a ∉ order → b ∈ order → ¬ numbers.contains a b := by
  have hlength : s.blocks.length = s0.blocks.length := h.placed.length.trans horder.length
  have hbranching := h.branching horder
  have hsplit := order_split horder
  have hentry : 0 < s.blocks.length := by
    rw [hlength]
    exact hflow.entry
  have hinside : ∀ b ∈ order.tail, b < s.blocks.length := fun b hb => by
    rw [hlength]
    exact horder.inside b (mem_of_mem_tail hb)
  obtain ⟨hchild, -, hlinked⟩ := linkChild_spec (s := s) order.tail (horder.nodup.sublist (tail_sublist order))
    hinside (fun b hb => by
      have hmem := mem_of_mem_tail hb
      have hb0 : b ≠ 0 := by
        rintro rfl
        have hnodup := horder.nodup
        rw [hsplit] at hnodup
        exact (nodup_cons.mp hnodup).1 hb
      obtain ⟨d, hd, hmeet⟩ := h.stable b ((horder.mem b).mp hmem) hb0
      refine ⟨d, ?_, (dominatorTable_some hd).2⟩
      rw [hlength]
      exact horder.inside d (dominatorTable_some (Option.eq_some_of_isSome hmeet.processed)).1) _ rfl
  have hhead : order.headD 0 = 0 := by
    rw [hsplit]
    rfl
  unfold ssaDominatorNumbers
  dsimp only
  rw [hhead]
  generalize order.tail.foldr (linkChild s)
    (replicate s.blocks.length none, replicate s.blocks.length none) = links at hchild hlinked ⊢
  generalize hst : ({
      enter := (replicate s.blocks.length UINT32_MAX).set 0 0
      leave := replicate s.blocks.length 0
      child := links.1
      stack := [0]
      clock := 1 } : Numbering) = st
  have hsized : st.Sized s.blocks.length := by
    rw [← hst]
    exact ⟨by simp, by simp, hchild⟩
  have hnumbered : Counted links.2 s.blocks.length (childrenOf order s) st := by
    refine ⟨hsized.enter, hsized.leave, hsized.child, ?_, ?_⟩
    · rw [← hst]
      exact hlinked
    · rw [← hst]
      simpa using hentry
  have hleft : numbersLeft s.blocks.length (childrenOf order s) st ≤ 2 * order.length - 1 := by
    have hsum := children_sum s s.blocks.length order.tail
    have hlen : order.length = order.tail.length + 1 := by
      conv_lhs => rw [hsplit]
      rfl
    unfold numbersLeft childrenOf
    rw [← hst]
    dsimp only [length_singleton]
    omega
  obtain ⟨k, hloop, hempty, hclock⟩ := hnumbered.loop (2 * order.length + 1)
    (fun p c hc => hbranching.inside c p ((hbranching.mem c p).mp hc)) (by omega)
  generalize hst0 : ({
      enter := replicate s.blocks.length UINT32_MAX
      leave := replicate s.blocks.length 0
      child := links.1
      stack := []
      clock := 0 } : Numbering) = st0
  have hvisits : Visits links.2 s.blocks.length _ _ 0 := hbranching.visits hentry
  obtain ⟨k', -, hempty', -, htoured⟩ := hvisits st0 st [] hsized
    (by rw [← hst]) (by rw [← hst, ← hst0]) (by rw [← hst, ← hst0]; exact getD_set_self (by simpa using hentry))
    (fun d hd => by rw [← hst, ← hst0]; exact getD_set_other hd) (fun d => by rw [← hst, ← hst0]; rfl)
    (fun d hd => by
      have hdn : d < s.blocks.length := by
        rcases Relation.ReflTransGen.cases_head hd with heq | ⟨_, hparent, _⟩
        · exact heq ▸ hentry
        · exact hbranching.inside _ _ hparent
      rw [← hst]
      exact hlinked d hdn)
  have hsame : (numberStep links.2)^[k] st = (numberStep links.2)^[k'] st := by
    rw [← numberStep_idle hempty k', ← numberStep_idle hempty' k, ← Function.iterate_add_apply,
      ← Function.iterate_add_apply, add_comm]
  rw [hsame] at hloop hclock
  have hinit : st.clock = 1 := by rw [← hst]
  have hbound := hflow.bound
  have hroot : ∀ b ∈ order, Above 0 (dominatorTable order s) 0 b := fun b hb =>
    (h.above_iff ((horder.mem b).mp hb)).mpr (entry_dominates b)
  have hreached : ∀ b, Above 0 (dominatorTable order s) 0 b → b ∈ order := by
    intro b hb
    rcases Relation.ReflTransGen.cases_head hb with heq | ⟨_, hparent, _⟩
    · rw [heq]
      exact (horder.mem 0).mpr entry_reached
    · exact (dominatorTable_some hparent.2).1
  have hout : ∀ a b, a < s0.blocks.length → a ∉ order → b ∈ order →
      ¬ ((numberStep links.2)^[k'] st).contains a b := by
    intro a b ha hmem hb hcontains
    have henter : ((numberStep links.2)^[k'] st).enterOf a = UINT32_MAX := by
      rw [(htoured.apart a fun h => hmem (hreached a h)).1, ← hst0]
      simp [Numbering.enterOf, hlength, ha]
    have hle := hcontains.1
    have hlt := htoured.ordered b (hroot b hb)
    have hupper := htoured.upper b (hroot b hb)
    have hsmall : order.length < s0.blocks.length := by
      have hsub : insert a order.toFinset ⊆ Finset.range s0.blocks.length := by
        intro c hc
        rw [Finset.mem_range]
        rcases Finset.mem_insert.mp hc with rfl | hc
        · exact ha
        · exact horder.inside c (mem_toFinset.mp hc)
      have hcard := Finset.card_le_card hsub
      rw [Finset.card_insert_of_notMem (fun h => hmem (mem_toFinset.mp h)),
        toFinset_card_of_nodup horder.nodup, Finset.card_range] at hcard
      omega
    rw [henter] at hle
    unfold UINT32_MAX at hle
    omega
  refine ⟨_, hloop, fun a b ha hb => ?_, hout⟩
  have hbr := (horder.mem b).mp hb
  by_cases hmem : a ∈ order
  · rw [← h.above_iff hbr]
    exact htoured.nested a b (hroot a hmem) (hroot b hb)
  · exact iff_of_false (fun hdom => hmem ((horder.mem a).mpr (hdom.reached hbr))) (hout a b ha hmem hb)

end Numbers

/-- **Dominator data is exact** for the reachable blocks, and no interval of another block contains
that of a reachable one. -/
theorem dominator_data_exact (s : Ssa) (hflow : ControlFlow s) :
    ∃ s1 order s2 numbers, ssaOrder s = some (s1, order) ∧ ssaDominators s1 order = some s2 ∧
      ssaDominatorNumbers s2 order = some numbers ∧
      (∀ b, b ∈ order ↔ Reached (Edge s) 0 b) ∧
      (∀ b, Reached (Edge s) 0 b → b ≠ 0 → ∃ d, (s2.block b).idom = some d ∧
        ImmediateDominator (Edge s) 0 d b ∧ ∀ e, ImmediateDominator (Edge s) 0 e b → e = d) ∧
      (∀ a b, a < s.blocks.length → Reached (Edge s) 0 b →
        (∃ answer, ssaDominates s2 a b = some answer ∧ (answer = true ↔ Dominates (Edge s) 0 a b)) ∧
        (Dominates (Edge s) 0 a b ↔ numbers.contains a b)) ∧
      ∀ a b, a < s.blocks.length → ¬ Reached (Edge s) 0 a → Reached (Edge s) 0 b → ¬ numbers.contains a b := by
  obtain ⟨s1, order, hs1, horder⟩ := ssaOrder_spec hflow
  obtain ⟨s2, hs2, hsettled, hdeep⟩ := ssaDominators_spec horder
  obtain ⟨numbers, hnumbers, hcontains, hout⟩ := ssaDominatorNumbers_spec hflow horder hsettled
  refine ⟨s1, order, s2, numbers, hs1, hs2, hnumbers, horder.mem, fun b hb hne => ?_, fun a b ha hb => ?_,
    fun a b ha hna hb => hout a b ha (fun h => hna ((horder.mem a).mp h)) ((horder.mem b).mpr hb)⟩
  · obtain ⟨d, hd, -⟩ := hsettled.stable b hb hne
    have hidom := (dominatorTable_some hd).2
    have himmediate := (hsettled.idom_iff horder hb hne).mp hidom
    exact ⟨d, hidom, himmediate, fun e he => he.unique himmediate hb⟩
  · exact ⟨ssaDominates_spec horder hsettled hdeep a ((horder.mem b).mpr hb),
      hcontains a b ha ((horder.mem b).mpr hb)⟩

def loopGraph : Ssa :=
  { blocks := [
      { succ0 := some 1 },
      { preds := [0, 1], kind := .branch, succ0 := some 1, succ1 := some 2 },
      { preds := [1], kind := .ret }] }

theorem loopGraph_flow : ControlFlow loopGraph := by
  have hedge : ∀ u < 3, ∀ v, Edge loopGraph u v ↔ u = 0 ∧ v = 1 ∨ u = 1 ∧ (v = 1 ∨ v = 2) := by
    intro u hu v
    have hcases : u = 0 ∨ u = 1 ∨ u = 2 := by omega
    rcases hcases with rfl | rfl | rfl
    · simp [Edge, loopGraph, Ssa.block, ssaSuccessors, ssaSuccessor, eq_comm]
    · constructor
      · rintro ⟨i, hi, hv⟩
        have hi' : i < 2 := hi
        have hcases : i = 0 ∨ i = 1 := by omega
        rcases hcases with rfl | rfl
        · exact .inr ⟨rfl, .inl (Option.some.inj hv).symm⟩
        · exact .inr ⟨rfl, .inr (Option.some.inj hv).symm⟩
      rintro (⟨h, -⟩ | ⟨-, rfl | rfl⟩)
      · cases h
      · exact ⟨0, by decide, rfl⟩
      · exact ⟨1, by decide, rfl⟩
    · simp [Edge, loopGraph, Ssa.block, ssaSuccessors]
  refine ⟨by decide, by decide, fun u v hu h => ?_, fun u v hv => ?_⟩
  · have hv := (hedge u hu v).mp h
    change v < 3
    omega
  have hcases : v = 0 ∨ v = 1 ∨ v = 2 := by
    change v < 3 at hv
    omega
  constructor
  · intro hu
    rcases hcases with rfl | rfl | rfl
    · simp [loopGraph, Ssa.block] at hu
    · have hu' : u = 0 ∨ u = 1 := by simpa [loopGraph, Ssa.block] using hu
      have hlt : u < 3 := by omega
      exact ⟨hlt, (hedge u hlt 1).mpr (by omega)⟩
    have hu' : u = 1 := by simpa [loopGraph, Ssa.block] using hu
    subst hu'
    exact ⟨by decide, (hedge 1 (by decide) 2).mpr (by omega)⟩
  · rintro ⟨hu, h⟩
    rcases (hedge u hu v).mp h with ⟨rfl, rfl⟩ | ⟨rfl, rfl | rfl⟩ <;> simp [loopGraph, Ssa.block]

theorem dominator_data_exact_loopGraph :
    ∃ s1 order s2 numbers, ssaOrder loopGraph = some (s1, order) ∧ ssaDominators s1 order = some s2 ∧
      ssaDominatorNumbers s2 order = some numbers ∧
      (∀ b, b ∈ order ↔ Reached (Edge loopGraph) 0 b) ∧
      (∀ b, Reached (Edge loopGraph) 0 b → b ≠ 0 → ∃ d, (s2.block b).idom = some d ∧
        ImmediateDominator (Edge loopGraph) 0 d b ∧ ∀ e, ImmediateDominator (Edge loopGraph) 0 e b → e = d) ∧
      (∀ a b, a < loopGraph.blocks.length → Reached (Edge loopGraph) 0 b →
        (∃ answer, ssaDominates s2 a b = some answer ∧ (answer = true ↔ Dominates (Edge loopGraph) 0 a b)) ∧
        (Dominates (Edge loopGraph) 0 a b ↔ numbers.contains a b)) ∧
      ∀ a b, a < loopGraph.blocks.length → ¬ Reached (Edge loopGraph) 0 a → Reached (Edge loopGraph) 0 b →
        ¬ numbers.contains a b :=
  dominator_data_exact loopGraph loopGraph_flow

/-- An entry and a block that nothing leads to. -/
def apartGraph : Ssa := { blocks := [{ kind := .ret }, { kind := .ret }] }

/-- The interval of a block that nothing leads to lies in that of the entry; every way to it passes
through the entry, as there is none, and the test denies it. -/
theorem apartGraph_contained :
    ControlFlow apartGraph ∧ 1 < apartGraph.blocks.length ∧ ¬ Reached (Edge apartGraph) 0 1 ∧
      ∃ s1 order s2 numbers, ssaOrder apartGraph = some (s1, order) ∧ ssaDominators s1 order = some s2 ∧
        ssaDominatorNumbers s2 order = some numbers ∧ numbers.contains 0 1 ∧
        Dominates (Edge apartGraph) 0 0 1 ∧ ssaDominates s2 0 1 = some false := by
  have hedge : ∀ u v, ¬ Edge apartGraph u v := by
    rintro u v ⟨i, hi, hv⟩
    match u, hi, hv with
    | 0, hi, _ => exact absurd hi (Nat.not_lt_zero i)
    | 1, hi, _ => exact absurd hi (Nat.not_lt_zero i)
    | u + 2, hi, hv =>
      have hi0 : i = 0 := Nat.lt_one_iff.mp hi
      subst hi0
      cases hv
  have hflow : ControlFlow apartGraph := by
    refine ⟨by decide, by decide, fun u v _ huv => absurd huv (hedge u v), fun u v hv => ?_⟩
    have hcases : v = 0 ∨ v = 1 := by
      change v < 2 at hv
      omega
    rcases hcases with rfl | rfl
    · exact iff_of_false not_mem_nil fun h => hedge u 0 h.2
    · exact iff_of_false not_mem_nil fun h => hedge u 1 h.2
  have hapart : ¬ Reached (Edge apartGraph) 0 1 := by
    intro hreached
    have hentry := hreached.induct (P := fun v => v = 0) rfl fun u v _ _ huv => absurd huv (hedge u v)
    cases hentry
  refine ⟨hflow, by decide, hapart, _, _, _, _, rfl, rfl, rfl, ⟨by decide, by decide⟩, fun trail htrail => ?_, by decide⟩
  exact absurd ⟨trail, htrail⟩ hapart

end Dyn.Backend
