import Dyn.Sema.ConstantExprs

/-!
# sema: the answer of a query does not depend on the queries before it

A frame of the stack owes that what it stands for is a compile-time expression, and a global is marked
as done when nothing is owed for it any more.  So a query that succeeds is right, and marks that stay
from failed queries are right as well.  In the other direction, everything above the mark of a global
under way is reached from its initializer, so that only a circle meets a global under way.
-/

namespace Dyn.Sema

open Ast Lib List Function

section

variable {a : DynAstProgram} {globals : GlobalStates} {stack : List ConstantFrame}

/-- The expressions of allowed kinds that are made of such ones already built. -/
inductive Constant (a : DynAstProgram) : DynExprId → Prop
  | node {id : DynExprId} {e : DynAstExpr} :
      a.expression id = some e →
      Allowed a e →
      (∀ d, d ∈ references a e → Constant a d) →
      Constant a id

variable {e : DynAstExpr} {id : DynExprId} {frame : ConstantFrame}

variable {g : DynAstGlobal} {d root : DynExprId}

theorem mem_references_global (hkind : e.kind = .global) (hg : a.globals[e.target]? = some g) :
    d ∈ references a e ↔ d = g.initializer := by
  rw [references, hkind]
  simp [hg]

theorem Constant.global (he : a.expression id = some e) (hkind : e.kind = .global)
    (hg : a.globals[e.target]? = some g) (hconst : g.isConst = true)
    (hinitializer : Constant a g.initializer) : Constant a id := by
  refine .node he (by rw [Allowed, hkind]; exact ⟨g, hg, hconst⟩) fun d hd => ?_
  rw [mem_references_global hkind hg] at hd
  rw [hd]
  exact hinitializer

theorem Constant.refers {id d : DynExprId} (h : Constant a id) (href : Refers a id d) : Constant a d := by
  obtain ⟨e, he, hd⟩ := href
  cases h with
  | node he' _ hall =>
    rw [he] at he'
    cases he'
    exact hall d hd

theorem Constant.reaches {id d : DynExprId} (h : Constant a id) (hreach : Reaches a id d) : Constant a d := by
  induction hreach with
  | refl => exact h
  | tail _ href ih => exact ih.refers href

theorem Constant.grounded (h : Constant a id) : Grounded (Refers a) id := by
  induction h with
  | node he _ _ ih =>
    refine .intro _ fun d href => ?_
    obtain ⟨e', he', hd⟩ := href
    rw [he] at he'
    cases he'
    exact ih d hd

theorem constant_iff : Constant a id ↔ CompileTime a id := by
  constructor
  · intro h
    refine ⟨fun d hreach => ?_, fun d hreach => (h.reaches hreach).grounded.no_circle⟩
    cases h.reaches hreach with
    | node he hallowed _ => exact ⟨_, he, hallowed⟩
  intro h
  have hfinite : {d | Reaches a id d}.Finite := by
    refine (Set.finite_lt_nat a.expressions.length).subset fun d hd => ?_
    obtain ⟨e, he, -⟩ := h.allowed d hd
    unfold DynAstProgram.expression at he
    split at he
    · cases he
    · exact (List.getElem?_eq_some_iff.mp he).1
  have hgrounded := grounded_of_no_circle hfinite (fun d hd u hu => hd.tail hu) h.acyclic id .refl
  have hall : ∀ d, Grounded (Refers a) d → Reaches a id d → Constant a d := by
    intro d hd
    induction hd with
    | intro d _ ih =>
      intro hreach
      obtain ⟨e, he, hallowed⟩ := h.allowed d hreach
      exact .node he hallowed fun u hu => ih u ⟨e, he, hu⟩ (hreach.tail ⟨e, he, hu⟩)
  exact hall id hgrounded .refl

theorem constantOperands_some {ids : List DynExprId} (hkind : e.kind ≠ .global)
    (h : constantOperands a e = some ids) : Allowed a e ∧ ∀ d, d ∈ ids ↔ d ∈ references a e := by
  unfold constantOperands at h
  unfold Allowed references
  cases he : e.kind <;> simp_all <;> grind

theorem constantOperands_none (hkind : e.kind ≠ .global) (h : constantOperands a e = none) :
    ¬ Allowed a e := by
  unfold constantOperands at h
  unfold Allowed
  cases he : e.kind <;> simp_all

/-- What a turn that does not fail can do. -/
inductive Turn (a : DynAstProgram) (globals : GlobalStates) (stack : List ConstantFrame) :
    ConstantFrame → List ConstantFrame × GlobalStates → Prop
  | leave (g : Nat) : Turn a globals stack ⟨g, true⟩ (stack, update globals g .visited)
  | known {id : DynExprId} {e : DynAstExpr} {g : DynAstGlobal} :
      a.expression id = some e →
      e.kind = .global →
      a.globals[e.target]? = some g →
      g.isConst = true →
      globals e.target = .visited →
      Turn a globals stack ⟨id, false⟩ (stack, globals)
  | enter {id : DynExprId} {e : DynAstExpr} {g : DynAstGlobal} :
      a.expression id = some e →
      e.kind = .global →
      a.globals[e.target]? = some g →
      g.isConst = true →
      globals e.target = .unseen →
      Turn a globals stack ⟨id, false⟩
        (⟨g.initializer, false⟩ :: ⟨e.target, true⟩ :: stack, update globals e.target .visiting)
  | operands {id : DynExprId} {e : DynAstExpr} {ids : List DynExprId} :
      a.expression id = some e →
      e.kind ≠ .global →
      Allowed a e →
      (∀ d, d ∈ ids ↔ d ∈ references a e) →
      Turn a globals stack ⟨id, false⟩ (ids.map (⟨·, false⟩) ++ stack, globals)

theorem constantTurn_some {next : List ConstantFrame × GlobalStates}
    (h : constantTurn a frame stack globals = some next) : Turn a globals stack frame next := by
  obtain ⟨id, leaveGlobal⟩ := frame
  unfold constantTurn at h
  cases leaveGlobal with
  | true =>
    rw [if_pos rfl] at h
    cases h
    exact .leave id
  | false =>
    rw [if_neg Bool.false_ne_true] at h
    cases he : a.expression id with
    | none => simp [he] at h
    | some e =>
      rw [he] at h
      dsimp only at h
      split_ifs at h with hkind
      · cases hg : a.globals[e.target]? with
        | none => simp [hg] at h
        | some g =>
          rw [hg] at h
          dsimp only at h
          split at h
          · rename_i hconst
            cases hmark : globals e.target with
            | unseen =>
              simp only [hmark, Option.some.injEq] at h
              subst h
              exact .enter he hkind hg hconst hmark
            | visiting => simp [hmark] at h
            | visited =>
              simp only [hmark, Option.some.injEq] at h
              subst h
              exact .known he hkind hg hconst hmark
          · cases h
      · obtain ⟨ids, hids, rfl⟩ := Option.map_eq_some_iff.mp h
        obtain ⟨hallowed, hmem⟩ := constantOperands_some hkind hids
        exact .operands he hkind hallowed hmem

/-- A turn fails at an expression that is not allowed, or at a global under way. -/
theorem constantTurn_none (h : constantTurn a frame stack globals = none) :
    frame.leaveGlobal = false ∧ ∀ e, a.expression frame.id = some e → Allowed a e →
      e.kind = .global ∧ globals e.target = .visiting := by
  obtain ⟨id, leaveGlobal⟩ := frame
  unfold constantTurn at h
  cases leaveGlobal with
  | true =>
    rw [if_pos rfl] at h
    cases h
  | false =>
    refine ⟨rfl, fun e he hallowed => ?_⟩
    rw [if_neg Bool.false_ne_true] at h
    rw [he] at h
    dsimp only at h
    split_ifs at h with hkind
    · have hdeclared := hallowed
      rw [Allowed, hkind] at hdeclared
      obtain ⟨g, hg, hconst⟩ := hdeclared
      rw [hg] at h
      dsimp only at h
      rw [if_pos hconst] at h
      cases hmark : globals e.target with
      | visiting => exact ⟨hkind, rfl⟩
      | unseen | visited => simp [hmark] at h
    · exact absurd hallowed (constantOperands_none hkind (Option.map_eq_none_iff.mp h))

/-- The initializer of a global is a compile-time expression. -/
def ConstantGlobal (a : DynAstProgram) (g : Nat) : Prop :=
  ∀ declared, a.globals[g]? = some declared → Constant a declared.initializer

/-- What the frames stand for is owed to the marks below them, and in the end to the query.  `paid`
is what the frames above stand for. -/
def Owed (a : DynAstProgram) (root : DynExprId) : Prop → List ConstantFrame → Prop
  | paid, [] => paid → Constant a root
  | paid, frame :: stack =>
      if frame.leaveGlobal then (paid → ConstantGlobal a frame.id) ∧ Owed a root paid stack
      else Owed a root (paid ∧ Constant a frame.id) stack

theorem Owed.mono {paid paid' : Prop} (himp : paid' → paid) (h : Owed a root paid stack) :
    Owed a root paid' stack := by
  induction stack generalizing paid paid' with
  | nil => exact fun hpaid => h (himp hpaid)
  | cons frame stack ih =>
    unfold Owed at h ⊢
    split at h
    · rename_i hleave
      rw [if_pos hleave]
      exact ⟨fun hpaid => h.1 (himp hpaid), ih himp h.2⟩
    rename_i hleave
    rw [if_neg hleave]
    exact ih (fun hpaid => ⟨himp hpaid.1, hpaid.2⟩) h

theorem Owed.push {root : DynExprId} {paid : Prop} {ids : List DynExprId}
    (h : Owed a root (paid ∧ ∀ d ∈ ids, Constant a d) stack) :
    Owed a root paid (ids.map (⟨·, false⟩) ++ stack) := by
  induction ids generalizing paid with
  | nil => exact h.mono fun hpaid => ⟨hpaid, fun d hd => absurd hd not_mem_nil⟩
  | cons d ids ih =>
    refine ih (h.mono fun hpaid => ⟨hpaid.1.1, fun u hu => ?_⟩)
    rcases mem_cons.mp hu with rfl | hu
    · exact hpaid.1.2
    · exact hpaid.2 u hu

/-- An expression above the mark of a global under way is reached from its initializer. -/
def Above (a : DynAstProgram) (frame mark : ConstantFrame) : Prop :=
  mark.leaveGlobal = true → frame.leaveGlobal = false →
    ∀ declared, a.globals[mark.id]? = some declared → Reaches a declared.initializer frame.id

/-- What all queries keep of the marks between them. -/
structure Settled (a : DynAstProgram) (globals : GlobalStates) : Prop where
  visited : ∀ g, globals g = .visited → ConstantGlobal a g
  closed : ∀ g, globals g ≠ .visiting

structure Walking (a : DynAstProgram) (root : DynExprId) (stack : List ConstantFrame) (globals : GlobalStates) :
    Prop where
  visited : ∀ g, globals g = .visited → ConstantGlobal a g
  visiting : ∀ g, globals g = .visiting → ⟨g, true⟩ ∈ stack
  owed : Owed a root True stack
  above : stack.Pairwise (Above a)

theorem Settled.walking (h : Settled a globals) (id : DynExprId) : Walking a id [⟨id, false⟩] globals where
  visited := h.visited
  visiting g hg := absurd hg (h.closed g)
  owed := fun hpaid => hpaid.2
  above := pairwise_singleton _ _

theorem Walking.turn {root : DynExprId} {frame : ConstantFrame} {next : List ConstantFrame × GlobalStates}
    (h : Walking a root (frame :: stack) globals) (hturn : Turn a globals stack frame next) :
    Walking a root next.1 next.2 := by
  obtain ⟨hvisited, hvisiting, howed, habove⟩ := h
  obtain ⟨hframe, hstack⟩ := pairwise_cons.mp habove
  have hkeep : ∀ {id : DynExprId}, frame = ⟨id, false⟩ → ∀ g, globals g = .visiting → ⟨g, true⟩ ∈ stack := by
    intro id heq g hg
    rcases mem_cons.mp (hvisiting g hg) with hhead | hmem
    · rw [heq] at hhead
      cases hhead
    · exact hmem
  cases hturn with
  | leave g =>
    unfold Owed at howed
    rw [if_pos rfl] at howed
    change Walking a root stack (update globals g .visited)
    refine ⟨fun g' hg' => ?_, fun g' hg' => ?_, howed.2, hstack⟩
    · by_cases heq : g' = g
      · rw [heq]
        exact howed.1 trivial
      · rw [update_of_ne heq] at hg'
        exact hvisited g' hg'
    by_cases heq : g' = g
    · rw [heq, update_self] at hg'
      cases hg'
    rw [update_of_ne heq] at hg'
    rcases mem_cons.mp (hvisiting g' hg') with hhead | hmem
    · cases hhead
      exact absurd rfl heq
    · exact hmem
  | @known id e g he hkind hg hconst hmark =>
    have hconstant := Constant.global he hkind hg hconst (hvisited _ hmark g hg)
    exact ⟨hvisited, hkeep rfl, howed.mono fun hpaid => ⟨hpaid, hconstant⟩, hstack⟩
  | @enter id e g he hkind hg hconst hmark =>
    have hrefers : Refers a id g.initializer := ⟨e, he, (mem_references_global hkind hg).mpr rfl⟩
    change Walking a root (⟨g.initializer, false⟩ :: ⟨e.target, true⟩ :: stack)
      (update globals e.target .visiting)
    refine ⟨fun g' hg' => ?_, fun g' hg' => ?_, ?_, ?_⟩
    · by_cases heq : g' = e.target
      · rw [heq, update_self] at hg'
        cases hg'
      · rw [update_of_ne heq] at hg'
        exact hvisited g' hg'
    · by_cases heq : g' = e.target
      · rw [heq]
        exact mem_cons_of_mem _ mem_cons_self
      · rw [update_of_ne heq] at hg'
        exact mem_cons_of_mem _ (mem_cons_of_mem _ (hkeep rfl g' hg'))
    · refine ⟨fun hpaid declared hdeclared => ?_, howed.mono fun hpaid => ⟨trivial, ?_⟩⟩
      · rw [hg] at hdeclared
        cases hdeclared
        exact hpaid.2
      · exact .global he hkind hg hconst hpaid.2
    · refine pairwise_cons.mpr ⟨fun mark hmem hleave _ declared hdeclared => ?_,
        pairwise_cons.mpr ⟨fun mark _ _ hexpr => Bool.noConfusion hexpr, hstack⟩⟩
      rcases mem_cons.mp hmem with rfl | hmem
      · rw [hg] at hdeclared
        cases hdeclared
        exact .refl
      · exact (hframe mark hmem hleave rfl declared hdeclared).tail hrefers
  | @operands id e ids he hkind hallowed hmem =>
    have hconstant : True ∧ (∀ d ∈ ids, Constant a d) → True ∧ Constant a id :=
      fun hpaid => ⟨trivial, .node he hallowed fun d hd => hpaid.2 d ((hmem d).mpr hd)⟩
    refine ⟨hvisited, fun g hg => mem_append_right _ (hkeep rfl g hg), (howed.mono hconstant).push, ?_⟩
    refine pairwise_append.mpr ⟨?_, hstack, fun frame hpushed mark hmark hleave _ declared hdeclared => ?_⟩
    · refine pairwise_map.mpr (pairwise_of_forall fun d u hleave => Bool.noConfusion hleave)
    · obtain ⟨d, hd, rfl⟩ := mem_map.mp hpushed
      exact (hframe mark hmark hleave rfl declared hdeclared).tail ⟨e, he, (hmem d).mp hd⟩

theorem Walking.loop {work : Nat} (h : Walking a root stack globals) :
    Settled a (constantLoop a work stack globals).2 ∧
      ((constantLoop a work stack globals).1 = true → Constant a root) := by
  have hback : ∀ {stack : List ConstantFrame} {globals : GlobalStates}, Walking a root stack globals →
      Settled a (takeBack globals) := by
    intro stack globals h
    refine ⟨fun g hg => ?_, fun g hg => ?_⟩
    · unfold takeBack at hg
      split at hg
      · cases hg
      · exact h.visited g hg
    unfold takeBack at hg
    split at hg
    · cases hg
    · rename_i hne
      exact hne hg
  induction work generalizing stack globals with
  | zero =>
    cases stack with
    | nil => exact ⟨⟨h.visited, fun g hg => absurd (h.visiting g hg) not_mem_nil⟩, fun _ => h.owed trivial⟩
    | cons frame stack => exact ⟨hback h, nofun⟩
  | succ work ih =>
    cases stack with
    | nil => exact ⟨⟨h.visited, fun g hg => absurd (h.visiting g hg) not_mem_nil⟩, fun _ => h.owed trivial⟩
    | cons frame stack =>
      unfold constantLoop
      cases hnext : constantTurn a frame stack globals with
      | none => exact ⟨hback h, nofun⟩
      | some next => exact ih (h.turn (constantTurn_some hnext))

theorem Queried.settled (h : Queried a globals) : Settled a globals := by
  induction h with
  | start => exact ⟨nofun, nofun⟩
  | query work id _ ih => exact (ih.walking id).loop.1

/-- A walk that comes to an empty stack, or fails, when no limit is set to its work. -/
inductive Finishes (a : DynAstProgram) : List ConstantFrame → GlobalStates → Prop
  | empty {globals : GlobalStates} : Finishes a [] globals
  | fails {frame : ConstantFrame} {stack : List ConstantFrame} {globals : GlobalStates} :
      constantTurn a frame stack globals = none → Finishes a (frame :: stack) globals
  | turn {frame : ConstantFrame} {stack : List ConstantFrame} {globals : GlobalStates}
      {next : List ConstantFrame × GlobalStates} :
      constantTurn a frame stack globals = some next → Finishes a next.1 next.2 → Finishes a (frame :: stack) globals

theorem Finishes.of_turns (h : ∀ next, Turn a globals stack frame next → Finishes a next.1 next.2) :
    Finishes a (frame :: stack) globals := by
  cases hnext : constantTurn a frame stack globals with
  | none => exact .fails hnext
  | some next => exact .turn hnext (h next (constantTurn_some hnext))

theorem Finishes.stable (h : Finishes a stack globals) :
    ∃ enough, ∀ work, enough ≤ work → constantLoop a work stack globals = constantLoop a enough stack globals := by
  induction h with
  | empty => exact ⟨0, fun work _ => by cases work <;> rfl⟩
  | @fails frame stack globals hnone =>
    refine ⟨1, fun work hwork => ?_⟩
    obtain ⟨work, rfl⟩ := Nat.exists_eq_add_of_le' hwork
    simp only [constantLoop, hnone]
  | @turn frame stack globals next hnext _ ih =>
    obtain ⟨enough, hstable⟩ := ih
    refine ⟨enough + 1, fun work hwork => ?_⟩
    obtain ⟨more, rfl⟩ := Nat.exists_eq_add_of_le' hwork
    simp only [constantLoop, hnext]
    exact hstable (more + enough) (by omega)

/-- A walk over compile-time expressions does not fail before it ends. -/
theorem Finishes.succeeds (h : Finishes a stack globals) (hwalking : Walking a root stack globals)
    (hconstant : ∀ frame ∈ stack, frame.leaveGlobal = false → Constant a frame.id) :
    ∃ work, (constantLoop a work stack globals).1 = true := by
  induction h with
  | empty => exact ⟨0, rfl⟩
  | @fails frame stack globals hnone =>
    obtain ⟨hexpr, hcause⟩ := constantTurn_none hnone
    have hconst := hconstant frame mem_cons_self hexpr
    have hall := hconst
    cases hall with
    | @node _ e he hallowed _ =>
      obtain ⟨hkind, hmark⟩ := hcause e he hallowed
      rw [Allowed, hkind] at hallowed
      obtain ⟨g, hg, -⟩ := hallowed
      -- The global under way has its mark further down, so that its initializer leads back to it.
      rcases mem_cons.mp (hwalking.visiting _ hmark) with hhead | hmem
      · rw [← hhead] at hexpr
        cases hexpr
      have hdown := (pairwise_cons.mp hwalking.above).1 _ hmem rfl hexpr g hg
      have hstep : Refers a frame.id g.initializer := ⟨e, he, (mem_references_global hkind hg).mpr rfl⟩
      exact absurd (Relation.TransGen.tail' hdown hstep) (hconst.refers hstep).grounded.no_circle
  | @turn frame stack globals next hnext _ ih =>
    have hturn := constantTurn_some hnext
    have hrest : ∀ f ∈ stack, f.leaveGlobal = false → Constant a f.id :=
      fun f hf => hconstant f (mem_cons_of_mem _ hf)
    obtain ⟨work, hwork⟩ := ih (hwalking.turn hturn) (by
      cases hturn with
      | leave g | known => exact hrest
      | @enter id e g he hkind hg _ _ =>
        have hid := hconstant _ mem_cons_self rfl
        intro f hf hexpr
        rcases mem_cons.mp hf with rfl | hf
        · exact hid.refers ⟨e, he, (mem_references_global hkind hg).mpr rfl⟩
        rcases mem_cons.mp hf with rfl | hf
        · cases hexpr
        · exact hrest f hf hexpr
      | @operands id e ids he _ _ hmem =>
        have hid := hconstant _ mem_cons_self rfl
        intro f hf hexpr
        rcases mem_append.mp hf with hf | hf
        · obtain ⟨d, hd, rfl⟩ := mem_map.mp hf
          exact hid.refers ⟨e, he, (hmem d).mp hd⟩
        · exact hrest f hf hexpr)
    refine ⟨work + 1, ?_⟩
    simp only [constantLoop, hnext]
    exact hwork

/-- No expression that is reached is made of itself. -/
def Trees (a : DynAstProgram) (id : DynExprId) : Prop := ∀ d, Reaches a id d → Grounded (Contains a) d

theorem Trees.refers (h : Trees a id) (href : Refers a id d) : Trees a d :=
  fun u hu => h u (.head href hu)

theorem Constant.trees (h : Constant a id) : Trees a id := by
  intro d hd
  have hgrounded := (h.reaches hd).grounded
  induction hgrounded with
  | intro d _ ih =>
    refine .intro _ fun u hu => ?_
    obtain ⟨e, he, -, hmem⟩ := hu
    exact ih u ⟨e, he, hmem⟩ (hd.tail ⟨e, he, hmem⟩)

def unseenGlobals (a : DynAstProgram) (globals : GlobalStates) : Finset Nat :=
  (Finset.range a.globals.length).filter fun g => globals g = .unseen

theorem unseenGlobals_update {g : Nat} {state : GlobalState} (hstate : state ≠ .unseen) :
    unseenGlobals a (update globals g state) ⊆ unseenGlobals a globals := by
  intro x hx
  obtain ⟨hrange, hunseen⟩ := Finset.mem_filter.mp hx
  refine Finset.mem_filter.mpr ⟨hrange, ?_⟩
  by_cases heq : x = g
  · rw [heq, update_self] at hunseen
    exact absurd hunseen hstate
  · rw [update_of_ne heq] at hunseen
    exact hunseen

theorem unseenGlobals_visit {g : Nat} (hg : g < a.globals.length) (hunseen : globals g = .unseen) :
    (unseenGlobals a (update globals g .visiting)).card < (unseenGlobals a globals).card := by
  refine Finset.card_lt_card (Finset.ssubset_iff_subset_ne.mpr ⟨unseenGlobals_update nofun, fun heq => ?_⟩)
  have hmem : g ∈ unseenGlobals a globals := Finset.mem_filter.mpr ⟨Finset.mem_range.mpr hg, hunseen⟩
  rw [← heq] at hmem
  have hupdated := (Finset.mem_filter.mp hmem).2
  rw [update_self] at hupdated
  cases hupdated

/-- The expressions of a stack that are made of no circles. -/
def TreeStack (a : DynAstProgram) (stack : List ConstantFrame) : Prop :=
  ∀ frame ∈ stack, frame.leaveGlobal = false → Trees a frame.id

theorem TreeStack.cons {id : DynExprId} (hid : Trees a id) (h : TreeStack a stack) :
    TreeStack a (⟨id, false⟩ :: stack) := by
  intro frame hframe hleave
  rcases mem_cons.mp hframe with rfl | hframe
  · exact hid
  · exact h frame hframe hleave

theorem TreeStack.mark {g : Nat} (h : TreeStack a stack) : TreeStack a (⟨g, true⟩ :: stack) := by
  intro frame hframe hleave
  rcases mem_cons.mp hframe with rfl | hframe
  · cases hleave
  · exact h frame hframe hleave

theorem TreeStack.push {ids : List DynExprId} (hids : ∀ d ∈ ids, Trees a d) (h : TreeStack a stack) :
    TreeStack a (ids.map (⟨·, false⟩) ++ stack) := by
  intro frame hframe hleave
  rcases mem_append.mp hframe with hframe | hframe
  · obtain ⟨d, hd, rfl⟩ := mem_map.mp hframe
    exact hids d hd
  · exact h frame hframe hleave

/-- An expression on top ends where everything below it ends, with as few globals left to begin. -/
theorem finishes_expr {count : Nat}
    (hfewer : ∀ stack globals, (unseenGlobals a globals).card < count → TreeStack a stack → Finishes a stack globals)
    (hid : Grounded (Contains a) id) : ∀ (stack : List ConstantFrame), Trees a id →
      TreeStack a stack → (∀ globals, (unseenGlobals a globals).card ≤ count → Finishes a stack globals) →
      ∀ globals, (unseenGlobals a globals).card ≤ count → Finishes a (⟨id, false⟩ :: stack) globals := by
  induction hid with
  | intro id _ ih =>
    intro stack htrees hrest hbelow globals hle
    refine .of_turns fun next hturn => ?_
    cases hturn with
    | known => exact hbelow globals hle
    | @enter _ e g he hkind hg _ hmark =>
      have hlt := unseenGlobals_visit (List.getElem?_eq_some_iff.mp hg).1 hmark
      have hinitializer := htrees.refers ⟨e, he, (mem_references_global hkind hg).mpr rfl⟩
      exact hfewer _ _ (lt_of_lt_of_le hlt hle) (hrest.mark.cons hinitializer)
    | @operands _ e ids he hkind _ hmem =>
      have hcontains : ∀ d ∈ ids, Contains a id d := fun d hd => ⟨e, he, hkind, (hmem d).mp hd⟩
      have hids : ∀ d ∈ ids, Trees a d := fun d hd => htrees.refers ⟨e, he, (hmem d).mp hd⟩
      clear hmem
      induction ids generalizing globals with
      | nil => exact hbelow globals hle
      | cons d ids ihs =>
        have htail : ∀ u ∈ ids, Trees a u := fun u hu => hids u (mem_cons_of_mem _ hu)
        exact ih d (hcontains d mem_cons_self) _ (hids d mem_cons_self) (hrest.push htail)
          (fun globals hle =>
            ihs globals hle (fun u hu => hcontains u (mem_cons_of_mem _ hu)) htail) globals hle

theorem finishes_of_trees (hstack : TreeStack a stack) : Finishes a stack globals := by
  induction hcount : (unseenGlobals a globals).card using Nat.strong_induction_on generalizing stack globals with
  | h count outer =>
    have hle : (unseenGlobals a globals).card ≤ count := hcount.le
    clear hcount
    induction stack generalizing globals with
    | nil => exact .empty
    | cons frame stack ih =>
      have hrest : TreeStack a stack := fun f hf => hstack f (mem_cons_of_mem _ hf)
      obtain ⟨id, leaveGlobal⟩ := frame
      cases leaveGlobal with
      | true =>
        refine .of_turns fun next hturn => ?_
        cases hturn with
        | leave g =>
          have hsame : unseenGlobals a (update globals id .visited) ⊆ unseenGlobals a globals :=
            unseenGlobals_update nofun
          exact ih hrest ((Finset.card_le_card hsame).trans hle)
      | false =>
        have htrees := hstack _ mem_cons_self rfl
        exact finishes_expr (fun stack globals hlt htrees => outer _ hlt htrees rfl) (htrees id .refl) stack
          htrees hrest (fun globals hle => ih hrest hle) globals hle

/-- **The answer of a query does not depend on the queries before it.**  With enough work it succeeds
exactly for a compile-time expression, and over trees every query comes to its end. -/
theorem compile_time_expr_iff (h : Queried a globals) (id : DynExprId) :
    ((∃ work, (compileTimeExpr a work id globals).1 = true) ↔ CompileTime a id) ∧
      (Trees a id → ∃ enough, ∀ work, enough ≤ work →
        compileTimeExpr a work id globals = compileTimeExpr a enough id globals) := by
  have hwalking := h.settled.walking id
  have hone : ∀ {P : DynExprId → Prop}, P id →
      ∀ frame ∈ [(⟨id, false⟩ : ConstantFrame)], frame.leaveGlobal = false → P frame.id := by
    intro P hP frame hframe _
    rw [mem_singleton.mp hframe]
    exact hP
  refine ⟨⟨?_, fun hcompile => ?_⟩, fun htrees => (finishes_of_trees (hone htrees)).stable⟩
  · rintro ⟨work, hwork⟩
    exact constant_iff.mp (hwalking.loop.2 hwork)
  · have hconstant := constant_iff.mpr hcompile
    exact (finishes_of_trees (hone hconstant.trees)).succeeds hwalking (hone hconstant)

end

/-- Two constants that are each other's initializer, and one that is a number. -/
def circleProgram : DynAstProgram :=
  let reference (g : Nat) : DynAstExpr := ⟨.global, DynType.i32, .none, noExpr, noExpr, BitVec.ofNat 64 g, false, 0, 0, false⟩
  { expressions := [reference 0, reference 1, ⟨.int, DynType.i32, .none, noExpr, noExpr, 7, false, 0, 0, false⟩, reference 2]
    items := []
    structs := []
    fields := []
    statements := []
    children := []
    caseArms := []
    functions := []
    globals := [⟨1, true⟩, ⟨0, true⟩, ⟨2, true⟩]
    aliases := [] }

/-- The query that fails on the circle leaves the next one its answer. -/
theorem compile_time_expr_iff_afterCircle :
    (compileTimeExpr circleProgram 9 0 fun _ => .unseen).1 = false ∧ CompileTime circleProgram 3 :=
  ⟨by decide, (compile_time_expr_iff (.query 9 0 .start) 3).1.mp ⟨4, by decide⟩⟩

end Dyn.Sema
