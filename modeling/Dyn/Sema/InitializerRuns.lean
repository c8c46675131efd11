import Dyn.Sema.InitializerOrder

/-!
# sema: initializers come behind the globals that the walk meets

Code is handled when the globals that it reads are done and the functions that it calls are marked.  A
walk leaves its code handled, and the bodies of all functions that it marked.  At the end of an
initializer everything that the walk follows from there is handled, so that the globals read are in
the order already.
-/

namespace Dyn.Sema

open Ast List Function

section

variable {a : DynAstProgram} {g g' g'' : InitGraph} {code : Code}

def Handled (a : DynAstProgram) (g : InitGraph) (code : Code) : Prop :=
  ∀ part, Relation.ReflTransGen (Inside a) code part →
    (∀ h, ReadsHere a part h → g.state h = .visited) ∧
      ∀ id f, Calls a part id → a.functions[id]? = some f → g.functions id = true

theorem Handled.intro (hreads : ∀ h, ReadsHere a code h → g.state h = .visited)
    (hcalls : ∀ id f, Calls a code id → a.functions[id]? = some f → g.functions id = true)
    (hparts : ∀ part, Inside a code part → Handled a g part) : Handled a g code := by
  intro part hpart
  rcases Relation.ReflTransGen.cases_head hpart with rfl | ⟨first, hfirst, hrest⟩
  · exact ⟨hreads, hcalls⟩
  · exact hparts first hfirst part hrest

theorem Handled.parts (hcode : ∀ d, code ≠ .expr d) (hparts : ∀ part, Inside a code part → Handled a g part) :
    Handled a g code := by
  refine .intro (fun x hx => ?_) (fun id f hid _ => ?_) hparts
  · obtain ⟨d, e, heq, -⟩ := hx
    exact absurd heq (hcode d)
  · obtain ⟨d, e, heq, -⟩ := hid
    exact absurd heq (hcode d)

theorem Handled.inside {part : Code} (h : Handled a g code) (hpart : Inside a code part) : Handled a g part :=
  fun p hp => h p (.head hpart hp)

theorem handled_noExpr {id : DynExprId} (h : a.expression id = none) : Handled a g (.expr id) := by
  refine .intro (fun x hx => ?_) (fun x f hx _ => ?_) fun part hpart => ?_
  · obtain ⟨d, e, heq, he, -⟩ := hx
    cases heq
    rw [h] at he
    cases he
  · obtain ⟨d, e, heq, he, -⟩ := hx
    cases heq
    rw [h] at he
    cases he
  · cases hpart with
    | left he | right he | item he _ => rw [h] at he; cases he

theorem expression_noExpr : a.expression noExpr = none := by
  unfold DynAstProgram.expression
  rw [if_pos rfl]

/-- What the walk keeps of the marks, and what it has done for the new ones. -/
structure Kept (a : DynAstProgram) (g g' : InitGraph) : Prop where
  visited : ∀ x, g.state x = .visited → g'.state x = .visited
  visiting : ∀ x, g.state x = .visiting → g'.state x = .visiting
  functions : ∀ id, g.functions id = true → g'.functions id = true
  walked : ∀ id f, g'.functions id = true → g.functions id = false → a.functions[id]? = some f →
    Handled a g' (bodyOf f)

theorem Handled.kept (h : Handled a g code) (hkept : Kept a g g') : Handled a g' code := by
  intro part hpart
  obtain ⟨hreads, hcalls⟩ := h part hpart
  exact ⟨fun x hx => hkept.visited x (hreads x hx), fun id f hid hf => hkept.functions id (hcalls id f hid hf)⟩

theorem Kept.refl : Kept a g g where
  visited _ h := h
  visiting _ h := h
  functions _ h := h
  walked id f h h' _ := by
    rw [h] at h'
    cases h'

theorem Kept.trans (h : Kept a g g') (h' : Kept a g' g'') : Kept a g g'' where
  visited x hx := h'.visited x (h.visited x hx)
  visiting x hx := h'.visiting x (h.visiting x hx)
  functions id hid := h'.functions id (h.functions id hid)
  walked id f hnew hold hf := by
    cases hmiddle : g'.functions id with
    | true => exact (h.walked id f hmiddle hold hf).kept h'
    | false => exact h'.walked id f hnew hmiddle hf

structure Ordered (a : DynAstProgram) (g : InitGraph) : Prop where
  listed : ∀ x, g.state x = .visited → Initialized a x → x ∈ g.order
  visited : ∀ x ∈ g.order, g.state x = .visited ∧ Initialized a x
  nodup : g.order.Nodup
  before : ∀ x front back, g.order = front ++ x :: back →
    ∀ h, ReadsBy a (Follow a) x h → Initialized a h → h ∈ front

variable {states : GlobalStates} {id : Nat} {state mark : GlobalState}

theorem update_of_state {x : Nat} (hx : states x = state) (hid : states id ≠ state) :
    update states id mark x = state := by
  rw [update_of_ne, hx]
  rintro rfl
  exact hid hx

theorem state_of_update {x : Nat} (hx : update states id mark x = state)
    (hmark : mark ≠ state) : states x = state := by
  rwa [update_of_ne] at hx
  rintro rfl
  rw [update_self] at hx
  exact hmark hx

theorem Ordered.enter {id : Nat} (h : Ordered a g) (hstate : g.state id = .unseen) :
    Ordered a { g with state := update g.state id .visiting, functions := fun _ => false } where
  listed x hx hinit := h.listed x (state_of_update hx nofun) hinit
  visited x hx := ⟨update_of_state (h.visited x hx).1 (by rw [hstate]; nofun), (h.visited x hx).2⟩
  nodup := h.nodup
  before := h.before

/-- The walk of a global ends, with all globals done that it met. -/
theorem Ordered.finish {declared : DynAstGlobal} {functions : Nat → Bool} (h : Ordered a g)
    (hdeclared : a.globals[id]? = some declared) (hunder : g.state id = .visiting)
    (hread : ∀ x, ReadsBy a (Follow a) id x → g.state x = .visited) :
    Ordered a { g with
      state := update g.state id .visited
      functions := functions
      order := if declared.initializer = noExpr then g.order else g.order ++ [id] } := by
  have hstay : ∀ x ∈ g.order, update g.state id .visited x = .visited :=
    fun x hx => update_of_state (h.visited x hx).1 (by rw [hunder]; nofun)
  have hold : ∀ {x : Nat}, x ≠ id → update g.state id .visited x = .visited → g.state x = .visited :=
    fun hne hx => (update_of_ne hne ..).symm.trans hx
  by_cases hnone : declared.initializer = noExpr
  · simp only [if_pos hnone]
    refine ⟨fun x hx hinit => h.listed x (hold ?_ hx) hinit, fun x hx => ⟨hstay x hx, (h.visited x hx).2⟩, h.nodup,
      h.before⟩
    rintro rfl
    obtain ⟨declared', hdeclared', hne⟩ := hinit
    rw [hdeclared] at hdeclared'
    cases hdeclared'
    exact hne hnone
  simp only [if_neg hnone]
  have hfresh : id ∉ g.order := fun hmem => by cases hunder.symm.trans (h.visited id hmem).1
  refine ⟨fun x hx hinit => ?_, fun x hx => ?_, ?_, fun x front back hsplit y hreads hinit => ?_⟩
  · by_cases heq : x = id
    · rw [heq]
      exact mem_append_right _ mem_cons_self
    · exact mem_append_left _ (h.listed x (hold heq hx) hinit)
  · rcases mem_append.mp hx with hx | hx
    · exact ⟨hstay x hx, (h.visited x hx).2⟩
    · rw [mem_singleton.mp hx]
      exact ⟨update_self .., declared, hdeclared, hnone⟩
  · refine nodup_append.mpr ⟨h.nodup, nodup_singleton id, fun x hx y hy heq => ?_⟩
    rw [heq, mem_singleton.mp hy] at hx
    exact hfresh hx
  change g.order ++ [id] = front ++ x :: back at hsplit
  rcases eq_nil_or_concat back with rfl | ⟨back, last, rfl⟩
  · obtain ⟨rfl, hlast⟩ := append_inj' hsplit rfl
    cases hlast
    exact h.listed y (hread y hreads) hinit
  have hlonger : g.order ++ [id] = (front ++ x :: back) ++ [last] := by
    rw [hsplit, concat_eq_append, append_assoc, cons_append]
  exact h.before x front back (append_inj' hlonger rfl).1 y hreads hinit

/-- A walk that keeps the marks and the order, and leaves its code handled. -/
def Handles (a : DynAstProgram) (code : Code) (visit : InitGraph → Option InitGraph) : Prop :=
  ∀ g g', Ordered a g → visit g = some g' → Kept a g g' ∧ Ordered a g' ∧ Handled a g' code

theorem handles_foldlM {α : Type} {visit : α → InitGraph → Option InitGraph} {codes : α → Code} {xs : List α}
    (h : ∀ x ∈ xs, Handles a (codes x) (visit x)) (hg : Ordered a g)
    (hrun : xs.foldlM (fun g x => visit x g) g = some g') :
    Kept a g g' ∧ Ordered a g' ∧ ∀ x ∈ xs, Handled a g' (codes x) := by
  induction xs generalizing g with
  | nil =>
    cases hrun
    exact ⟨.refl, hg, fun x hx => absurd hx not_mem_nil⟩
  | cons x xs ih =>
    obtain ⟨middle, hone, hrest⟩ := Option.bind_eq_some_iff.mp hrun
    obtain ⟨hkept, hordered, hhandled⟩ := h x mem_cons_self g middle hg hone
    obtain ⟨hkept', hordered', hall⟩ := ih (fun y hy => h y (mem_cons_of_mem _ hy)) hordered hrest
    refine ⟨hkept.trans hkept', hordered', fun y hy => ?_⟩
    rcases mem_cons.mp hy with rfl | hy
    · exact hhandled.kept hkept'
    · exact hall y hy

/-- Everything that the walk follows is handled, where all marked functions are. -/
theorem Handled.follow (h : Handled a g code)
    (hwalked : ∀ id f, g.functions id = true → a.functions[id]? = some f → Handled a g (bodyOf f)) {part : Code}
    (hpart : Relation.ReflTransGen (Follow a) code part) : Handled a g part := by
  induction hpart with
  | refl => exact h
  | tail _ hstep ih =>
    cases hstep with
    | inside hinside => exact ih.inside hinside
    | call hcall hf => exact hwalked _ _ ((ih _ .refl).2 _ _ hcall hf) hf

section

variable {visitExpr : DynExprId → InitGraph → Option InitGraph} {visitBlock : Nat → Nat → InitGraph → Option InitGraph}

theorem visitFunction_keeps (hblock : ∀ start count, Handles a (.block start count) (visitBlock start count))
    {id : Nat} (hg : Ordered a g) (h : visitFunction a visitBlock id g = some g') :
    Kept a g g' ∧ Ordered a g' ∧ ∀ f, a.functions[id]? = some f → g'.functions id = true := by
  unfold visitFunction at h
  cases hf : a.functions[id]? with
  | none =>
    rw [hf] at h
    cases h
    exact ⟨.refl, hg, nofun⟩
  | some f =>
    rw [hf] at h
    dsimp only at h
    split at h
    · rename_i hmarked
      cases h
      exact ⟨.refl, hg, fun _ _ => hmarked⟩
    have hmarked : Ordered a { g with functions := update g.functions id true } :=
      ⟨hg.listed, hg.visited, hg.nodup, hg.before⟩
    obtain ⟨hkept, hordered, hhandled⟩ := hblock _ _ _ _ hmarked h
    have hself := hkept.functions id (update_self ..)
    refine ⟨⟨hkept.visited, hkept.visiting, fun id' hid' => hkept.functions id' ?_, fun id' f' hnew hold hf' => ?_⟩,
      hordered, fun _ _ => hself⟩
    · by_cases heq : id' = id
      · rw [heq]
        exact update_self ..
      · exact (update_of_ne heq ..).trans hid'
    by_cases heq : id' = id
    · rw [heq, hf] at hf'
      cases hf'
      exact hhandled
    · exact hkept.walked id' f' hnew ((update_of_ne heq ..).trans hold) hf'

theorem visitGlobal_keeps (hexpr : ∀ id, Handles a (.expr id) (visitExpr id)) {id : Nat} (hg : Ordered a g)
    (h : visitGlobal a visitExpr id g = some g') :
    Kept a g g' ∧ Ordered a g' ∧ g'.state id = .visited := by
  unfold visitGlobal at h
  split at h
  · cases h
  rename_i declared hdeclared
  cases hstate : g.state id with
  | visited =>
    rw [hstate] at h
    cases h
    exact ⟨.refl, hg, hstate⟩
  | visiting =>
    rw [hstate] at h
    cases h
  | unseen =>
    rw [hstate] at h
    obtain ⟨walked, hwalk, rfl⟩ := Option.map_eq_some_iff.mp h
    obtain ⟨hkept, hordered, hhandled⟩ := hexpr _ _ _ (hg.enter hstate) hwalk
    have hunder : walked.state id = .visiting := hkept.visiting id (update_self ..)
    -- Every global that the walk meets from the initializer is done.
    have hread : ∀ h, ReadsBy a (Follow a) id h → walked.state h = .visited := by
      rintro x ⟨declared', code, hdeclared', hcode, hx⟩
      rw [hdeclared] at hdeclared'
      cases hdeclared'
      have hwalked := hhandled.follow (fun id f hid hf => hkept.walked id f hid rfl hf) hcode
      exact (hwalked _ .refl).1 x hx
    refine ⟨⟨fun x hx => ?_, fun x hx => ?_, fun _ hf => hf,
      fun _ _ hnew hold => absurd (hnew.symm.trans hold) (by decide)⟩,
      hordered.finish hdeclared hunder hread, update_self ..⟩
    · have hbelow := hkept.visited x (update_of_state hx (by rw [hstate]; nofun))
      exact update_of_state hbelow (by rw [hunder]; nofun)
    have hne : x ≠ id := by
      rintro rfl
      cases hx.symm.trans hstate
    have hbelow := hkept.visiting x (update_of_state hx (by rw [hstate]; nofun))
    exact (update_of_ne hne ..).trans hbelow

theorem visitExprBody_handles (hexpr : ∀ id, Handles a (.expr id) (visitExpr id))
    (hblock : ∀ start count, Handles a (.block start count) (visitBlock start count)) (id : DynExprId) :
    Handles a (.expr id) (visitExprBody a visitExpr visitBlock id) := by
  intro g g' hg h
  unfold visitExprBody at h
  split at h
  · rename_i he
    cases h
    exact ⟨.refl, hg, handled_noExpr he⟩
  rename_i e he
  obtain ⟨g1, hglobal, h⟩ := Option.bind_eq_some_iff.mp h
  obtain ⟨g2, hcall, h⟩ := Option.bind_eq_some_iff.mp h
  obtain ⟨g3, hleft, h⟩ := Option.bind_eq_some_iff.mp h
  obtain ⟨g4, hright, hitems⟩ := Option.bind_eq_some_iff.mp h
  have h1 : Kept a g g1 ∧ Ordered a g1 ∧ (e.kind = .global → g1.state e.target = .visited) := by
    split at hglobal
    · obtain ⟨hkept, hordered, hstate⟩ := visitGlobal_keeps hexpr hg hglobal
      exact ⟨hkept, hordered, fun _ => hstate⟩
    rename_i hkind
    cases hglobal
    exact ⟨.refl, hg, fun hglobal => absurd hglobal hkind⟩
  have h2 : Kept a g1 g2 ∧ Ordered a g2 ∧
      (e.kind = .call → ∀ f, a.functions[e.target]? = some f → g2.functions e.target = true) := by
    split at hcall
    · obtain ⟨hkept, hordered, hmarked⟩ := visitFunction_keeps hblock h1.2.1 hcall
      exact ⟨hkept, hordered, fun _ => hmarked⟩
    rename_i hkind
    cases hcall
    exact ⟨.refl, h1.2.1, fun hcall => absurd hcall hkind⟩
  obtain ⟨hkept3, hordered3, hhandled3⟩ := hexpr _ _ _ h2.2.1 hleft
  obtain ⟨hkept4, hordered4, hhandled4⟩ := hexpr _ _ _ hordered3 hright
  obtain ⟨hkept5, hordered5, hhandled5⟩ := handles_foldlM (fun d _ => hexpr d) hordered4 hitems
  have hkept25 := hkept3.trans (hkept4.trans hkept5)
  refine ⟨h1.1.trans (h2.1.trans hkept25), hordered5, .intro ?_ ?_ ?_⟩
  · rintro x ⟨d, e', heq, he', hkind, rfl⟩
    cases heq
    rw [he] at he'
    cases he'
    exact hkept25.visited _ (h2.1.visited _ (h1.2.2 hkind))
  · rintro x f ⟨d, e', heq, he', hkind, rfl⟩ hf
    cases heq
    rw [he] at he'
    cases he'
    exact hkept25.functions _ (h2.2.2 hkind f hf)
  intro part hpart
  cases hpart with
  | left he' =>
    rw [he] at he'
    cases he'
    exact hhandled3.kept (hkept4.trans hkept5)
  | right he' =>
    rw [he] at he'
    cases he'
    exact hhandled4.kept hkept5
  | item he' hd =>
    rw [he] at he'
    cases he'
    exact hhandled5 _ hd

theorem visitStmt_handles (hexpr : ∀ id, Handles a (.expr id) (visitExpr id))
    (hblock : ∀ start count, Handles a (.block start count) (visitBlock start count)) (st : DynAstStmt) :
    Handles a (.stmt st) (visitStmt a visitExpr visitBlock st) := by
  intro g g' hg h
  obtain ⟨g1, hexpression, h⟩ := Option.bind_eq_some_iff.mp h
  obtain ⟨g2, htarget, h⟩ := Option.bind_eq_some_iff.mp h
  obtain ⟨g3, hbody, h⟩ := Option.bind_eq_some_iff.mp h
  obtain ⟨g4, helse, harms⟩ := Option.bind_eq_some_iff.mp h
  obtain ⟨hkept1, hordered1, hhandled1⟩ := hexpr _ _ _ hg hexpression
  obtain ⟨hkept2, hordered2, hhandled2⟩ := hexpr _ _ _ hordered1 htarget
  obtain ⟨hkept3, hordered3, hhandled3⟩ := hblock _ _ _ _ hordered2 hbody
  obtain ⟨hkept4, hordered4, hhandled4⟩ := hblock _ _ _ _ hordered3 helse
  obtain ⟨hkept5, hordered5, hhandled5⟩ :=
    handles_foldlM (fun (arm : Ast.DynAstCaseArm) _ => hblock arm.bodyStart arm.bodyCount) hordered4 harms
  have hkept35 := hkept4.trans hkept5
  have hkept25 := hkept3.trans hkept35
  refine ⟨hkept1.trans (hkept2.trans hkept25), hordered5, .parts nofun fun part hpart => ?_⟩
  cases hpart with
  | expression => exact hhandled1.kept (hkept2.trans hkept25)
  | target => exact hhandled2.kept hkept25
  | body => exact hhandled3.kept hkept35
  | orElse => exact hhandled4.kept hkept5
  | arm harm => exact hhandled5 _ harm

theorem visitBlockBody_handles (hexpr : ∀ id, Handles a (.expr id) (visitExpr id))
    (hblock : ∀ start count, Handles a (.block start count) (visitBlock start count)) (start count : Nat) :
    Handles a (.block start count) (visitBlockBody a visitExpr visitBlock start count) := by
  intro g g' hg h
  obtain ⟨hkept, hordered, hhandled⟩ := handles_foldlM (fun st _ => visitStmt_handles hexpr hblock st) hg h
  refine ⟨hkept, hordered, .parts nofun fun part hpart => ?_⟩
  cases hpart with
  | statement hst => exact hhandled _ hst

end

variable {visit : InitGraph → Option InitGraph}

theorem Handles.entered (h : Handles a code visit) :
    Handles a code fun g => (enterGraph g).bind visit := by
  intro g g' hg hrun
  obtain ⟨entered, henter, hvisit⟩ := Option.bind_eq_some_iff.mp hrun
  have hsame : ∃ work, entered = { g with work := work } := by
    unfold enterGraph at henter
    split at henter
    · cases henter
      exact ⟨g.work, rfl⟩
    · cases henter
    · cases henter
      exact ⟨_, rfl⟩
  obtain ⟨work, rfl⟩ := hsame
  obtain ⟨hkept, hordered, hhandled⟩ := h { g with work := work } g' ⟨hg.listed, hg.visited, hg.nodup, hg.before⟩ hvisit
  exact ⟨⟨hkept.visited, hkept.visiting, hkept.functions, hkept.walked⟩, hordered, hhandled⟩

theorem visit_handles (a : DynAstProgram) (room : Nat) :
    (∀ id, Handles a (.expr id) (visitExpr a room id)) ∧
      ∀ start count, Handles a (.block start count) (visitBlock a room start count) := by
  have hnoExpr : ∀ {g g' : InitGraph}, Ordered a g → some g = some g' →
      Kept a g g' ∧ Ordered a g' ∧ Handled a g' (.expr noExpr) := by
    intro g g' hg h
    cases h
    exact ⟨.refl, hg, handled_noExpr expression_noExpr⟩
  have hempty : ∀ {g g' : InitGraph} {start : Nat}, Ordered a g → some g = some g' →
      Kept a g g' ∧ Ordered a g' ∧ Handled a g' (.block start 0) := by
    intro g g' start hg h
    cases h
    refine ⟨.refl, hg, .parts nofun fun part hpart => ?_⟩
    cases hpart with
    | statement hst => cases hst
  induction room with
  | zero =>
    refine ⟨fun id g g' hg h => ?_, fun start count g g' hg h => ?_⟩
    · unfold visitExpr at h
      split at h
      · rename_i hid
        rw [hid]
        exact hnoExpr hg h
      · cases h
    unfold visitBlock at h
    split at h
    · rename_i hcount
      rw [hcount]
      exact hempty hg h
    · cases h
  | succ room ih =>
    refine ⟨fun id g g' hg h => ?_, fun start count g g' hg h => ?_⟩
    · unfold visitExpr at h
      split at h
      · rename_i hid
        rw [hid]
        exact hnoExpr hg h
      · exact (visitExprBody_handles ih.1 ih.2 id).entered g g' hg h
    unfold visitBlock at h
    split at h
    · rename_i hcount
      rw [hcount]
      exact hempty hg h
    · exact (visitBlockBody_handles ih.1 ih.2 start count).entered g g' hg h

theorem visitGlobals_keep {ids : List Nat} (hg : Ordered a g)
    (h : ids.foldlM (fun g id => visitGlobal a (visitExpr a depthLimit) id g) g = some g') :
    Kept a g g' ∧ Ordered a g' ∧ ∀ id ∈ ids, g'.state id = .visited := by
  induction ids generalizing g with
  | nil =>
    cases h
    exact ⟨.refl, hg, fun id hid => absurd hid not_mem_nil⟩
  | cons id ids ih =>
    obtain ⟨middle, hone, hrest⟩ := Option.bind_eq_some_iff.mp h
    obtain ⟨hkept, hordered, hstate⟩ := visitGlobal_keeps (visit_handles a depthLimit).1 hg hone
    obtain ⟨hkept', hordered', hall⟩ := ih hordered hrest
    refine ⟨hkept.trans hkept', hordered', fun id' hid' => ?_⟩
    rcases mem_cons.mp hid' with rfl | hid'
    · exact hkept'.visited _ hstate
    · exact hall id' hid'

variable {work : Option Nat} {order : List Nat}

/-- What is read while the initializer of `x` is evaluated is read by an initializer that there is. -/
theorem ReadsBy.initialized {x y : Nat} (h : ReadsBy a (Follow a) x y) : Initialized a x := by
  obtain ⟨declared, code, hdeclared, hcode, hreads⟩ := h
  refine ⟨declared, hdeclared, fun hnone => ?_⟩
  rw [hnone] at hcode
  have hhandled := (handled_noExpr (g := initGraph none) expression_noExpr).follow (fun _ _ hf => absurd hf Bool.false_ne_true) hcode
  cases (hhandled code .refl).1 y hreads

/-- The order holds every initializer once, behind the globals that the walk meets from it, also through the
initializers of others. -/
theorem orderInitializers_ordered (h : orderInitializers a work = some order) :
    order.Nodup ∧ (∀ g, g ∈ order ↔ Initialized a g) ∧ ∀ g h, Initialized a g → Initialized a h →
      Relation.TransGen (ReadsBy a (Follow a)) g h → Before order h g := by
  obtain ⟨g, hrun, rfl⟩ := Option.map_eq_some_iff.mp h
  have hstart : Ordered a (initGraph work) :=
    ⟨nofun, fun x hx => absurd hx not_mem_nil, nodup_nil, fun x front back hsplit => by
      cases append_eq_nil_iff.mp hsplit.symm |>.2⟩
  obtain ⟨-, hordered, hvisited⟩ := visitGlobals_keep hstart hrun
  have hlisted : ∀ x, Initialized a x → x ∈ g.order := by
    intro x hx
    obtain ⟨declared, hdeclared, hne⟩ := hx
    exact hordered.listed x (hvisited x (mem_range.mpr (List.getElem?_eq_some_iff.mp hdeclared).1))
      ⟨declared, hdeclared, hne⟩
  refine ⟨hordered.nodup, fun x => ⟨fun hx => (hordered.visited x hx).2, hlisted x⟩, fun x y hx hy hreads => ?_⟩
  obtain ⟨front, back, hsplit⟩ := append_of_mem (hlisted x hx)
  refine ⟨front, back, hsplit, ?_⟩
  -- By the first of the reads that lead to `y`.
  induction hreads using Relation.TransGen.head_induction_on generalizing front back with
  | single hread => exact hordered.before _ front back hsplit y hread hy
  | @head x middle hread hrest ih =>
    obtain ⟨next, hnext, -⟩ := Relation.TransGen.head'_iff.mp hrest
    have hmem := hordered.before x front back hsplit middle hread hnext.initialized
    obtain ⟨before, between, rfl⟩ := append_of_mem hmem
    refine mem_append_left _ (ih hnext.initialized before (between ++ x :: back) ?_)
    rw [hsplit, append_assoc, cons_append]

def InitGraph.unlimited (g : InitGraph) : InitGraph := { g with work := none }

/-- A walk that does the same where no limit is set to its work. -/
def Free (visit : InitGraph → Option InitGraph) : Prop :=
  ∀ g g', visit g = some g' → visit g.unlimited = some g'.unlimited

theorem Free.some : Free some := by
  intro g g' h
  cases h
  rfl

theorem Free.bind {next : InitGraph → Option InitGraph} (h : Free visit) (h' : Free next) :
    Free fun g => (visit g).bind next := by
  intro g g' hrun
  obtain ⟨middle, hone, hrest⟩ := Option.bind_eq_some_iff.mp hrun
  exact Option.bind_eq_some_iff.mpr ⟨_, h g middle hone, h' middle g' hrest⟩

theorem Free.ite {c : Prop} [Decidable c] (h : Free visit) :
    Free fun g => if c then visit g else Option.some g := by
  by_cases hc : c
  · simp only [if_pos hc]
    exact h
  · simp only [if_neg hc]
    exact .some

theorem Free.fold {α : Type} {visit : α → InitGraph → Option InitGraph} (h : ∀ x, Free (visit x)) (xs : List α) :
    Free fun g => xs.foldlM (fun g x => visit x g) g := by
  induction xs with
  | nil => exact .some
  | cons x xs ih =>
    have hcons := (h x).bind ih
    exact hcons

theorem free_enterGraph : Free enterGraph := by
  intro g g' h
  unfold enterGraph at h
  split at h
  · cases h
    rfl
  · cases h
  · cases h
    rfl

section

variable {visitExpr : DynExprId → InitGraph → Option InitGraph} {visitBlock : Nat → Nat → InitGraph → Option InitGraph}

theorem free_visitGlobal (hexpr : ∀ id, Free (visitExpr id)) (id : Nat) : Free (visitGlobal a visitExpr id) := by
  intro g g' h
  unfold visitGlobal at h ⊢
  split at h
  · cases h
  rw [show g.unlimited.state = g.state from rfl]
  cases hstate : g.state id with
  | visited =>
    rw [hstate] at h
    cases h
    rfl
  | visiting =>
    rw [hstate] at h
    cases h
  | unseen =>
    rw [hstate] at h
    obtain ⟨walked, hwalk, rfl⟩ := Option.map_eq_some_iff.mp h
    exact Option.map_eq_some_iff.mpr ⟨_, hexpr _ _ _ hwalk, rfl⟩

theorem free_visitFunction (hblock : ∀ start count, Free (visitBlock start count)) (id : Nat) :
    Free (visitFunction a visitBlock id) := by
  intro g g' h
  unfold visitFunction at h ⊢
  cases hf : a.functions[id]? with
  | none =>
    rw [hf] at h
    cases h
    rfl
  | some f =>
    rw [hf] at h
    dsimp only at h ⊢
    change (if g.functions id then _ else _) = _
    split at h
    · rename_i hmarked
      rw [if_pos hmarked]
      cases h
      rfl
    rename_i hfresh
    rw [if_neg hfresh]
    exact hblock _ _ _ _ h

theorem free_visitExprBody (hexpr : ∀ id, Free (visitExpr id)) (hblock : ∀ start count, Free (visitBlock start count))
    (id : DynExprId) : Free (visitExprBody a visitExpr visitBlock id) := by
  unfold visitExprBody
  cases a.expression id with
  | none => exact .some
  | some e =>
    exact .bind (.ite (free_visitGlobal hexpr _)) (.bind (.ite (free_visitFunction hblock _))
      (.bind (hexpr _) (.bind (hexpr _) (.fold hexpr _))))

theorem free_visitStmt (hexpr : ∀ id, Free (visitExpr id)) (hblock : ∀ start count, Free (visitBlock start count))
    (st : DynAstStmt) : Free (visitStmt a visitExpr visitBlock st) :=
  .bind (hexpr _) (.bind (hexpr _) (.bind (hblock _ _) (.bind (hblock _ _)
    (.fold (fun (arm : Ast.DynAstCaseArm) => hblock arm.bodyStart arm.bodyCount) _))))

theorem free_visitBlockBody (hexpr : ∀ id, Free (visitExpr id)) (hblock : ∀ start count, Free (visitBlock start count))
    (start count : Nat) : Free (visitBlockBody a visitExpr visitBlock start count) :=
  .fold (free_visitStmt hexpr hblock) _

end

theorem free_visit (a : DynAstProgram) (room : Nat) :
    (∀ id, Free (visitExpr a room id)) ∧ ∀ start count, Free (visitBlock a room start count) := by
  induction room with
  | zero =>
    refine ⟨fun id g g' h => ?_, fun start count g g' h => ?_⟩
    · unfold visitExpr at h ⊢
      split at h
      · rename_i hid
        rw [if_pos hid]
        cases h
        rfl
      · cases h
    unfold visitBlock at h ⊢
    split at h
    · rename_i hcount
      rw [if_pos hcount]
      cases h
      rfl
    · cases h
  | succ room ih =>
    refine ⟨fun id g g' h => ?_, fun start count g g' h => ?_⟩
    · unfold visitExpr at h ⊢
      split at h
      · rename_i hid
        rw [if_pos hid]
        cases h
        rfl
      rename_i hid
      rw [if_neg hid]
      exact free_enterGraph.bind (free_visitExprBody ih.1 ih.2 id) g g' h
    unfold visitBlock at h ⊢
    split at h
    · rename_i hcount
      rw [if_pos hcount]
      cases h
      rfl
    rename_i hcount
    rw [if_neg hcount]
    exact free_enterGraph.bind (free_visitBlockBody ih.1 ih.2 start count) g g' h

/-- An order that is found with some work is the one that is found without a limit. -/
theorem orderInitializers_unlimited (h : orderInitializers a work = some order) :
    orderInitializers a none = some order := by
  obtain ⟨g, hrun, rfl⟩ := Option.map_eq_some_iff.mp h
  have hfree := Free.fold (free_visitGlobal (a := a) (free_visit a depthLimit).1) _ _ _ hrun
  exact Option.map_eq_some_iff.mpr ⟨_, hfree, rfl⟩

/-- **Where everything that can be read is read through parts that the walk follows,** in the initializer or in
those of the globals that it reads, **the order is a dependency order**, a program without one is rejected, and the
order depends on the program alone. -/
theorem order_initializers_dependency (hfollowed : ∀ g h, Initialized a g → Initialized a h → Reads a g h →
    Relation.TransGen (ReadsBy a (Follow a)) g h) :
    (∀ work order, orderInitializers a work = some order → DependencyOrder a order) ∧
      ((¬ ∃ order, DependencyOrder a order) → ∀ work, orderInitializers a work = none) ∧
      ∀ work work' order order', orderInitializers a work = some order → orderInitializers a work' = some order' →
        order = order' := by
  have hdependency : ∀ work order, orderInitializers a work = some order → DependencyOrder a order := by
    intro work order h
    obtain ⟨hnodup, hcomplete, hbefore⟩ := orderInitializers_ordered h
    exact ⟨hnodup, hcomplete, fun x y hx hy hreads => hbefore x y hx hy (hfollowed x y hx hy hreads)⟩
  refine ⟨hdependency, fun hnone work => ?_, fun work work' order order' h h' => ?_⟩
  · cases h : orderInitializers a work with
    | none => rfl
    | some order => exact absurd ⟨order, hdependency work order h⟩ hnone
  · have heq := (orderInitializers_unlimited h).symm.trans (orderInitializers_unlimited h')
    exact Option.some.inj heq

def Blind (a : DynAstProgram) (code : Code) : Prop :=
  ∀ part h, Relation.ReflTransGen (Evaluates a) code part → ¬ ReadsHere a part h

theorem blind_literal {id : DynExprId} (hliteral : ∀ e, a.expression id = some e →
    e.kind = .int ∧ e.left = noExpr ∧ e.right = noExpr ∧ a.itemExpressions e = []) : Blind a (.expr id) := by
  intro part h hpart
  have hends : ∃ d, part = .expr d ∧ ∀ e, a.expression d = some e →
      e.kind = .int ∧ e.left = noExpr ∧ e.right = noExpr ∧ a.itemExpressions e = [] := by
    have hnone : ∀ e, a.expression noExpr = some e →
        e.kind = .int ∧ e.left = noExpr ∧ e.right = noExpr ∧ a.itemExpressions e = [] := fun e he => by
      cases expression_noExpr.symm.trans he
    induction hpart with
    | refl => exact ⟨id, rfl, hliteral⟩
    | tail _ hstep ih =>
      obtain ⟨d, rfl, hd⟩ := ih
      refine ⟨noExpr, ?_, hnone⟩
      rcases hstep with (hinside | ⟨hcall, -⟩) | hhidden
      · cases hinside with
        | left he => rw [(hd _ he).2.1]
        | right he => rw [(hd _ he).2.2.1]
        | item he hitem =>
          rw [(hd _ he).2.2.2] at hitem
          cases hitem
      · obtain ⟨d, e, heq, he, hkind, -⟩ := hcall
        cases heq
        cases hkind.symm.trans (hd e he).1
      · cases hhidden with
        | sliceEnd he hkind | fieldDefault he hkind _ | functionValue he hkind _ _ _ _ =>
          cases hkind.symm.trans (hd _ he).1
  obtain ⟨d, rfl, hd⟩ := hends
  rintro ⟨d, e, heq, he, hkind, -⟩
  cases heq
  cases hkind.symm.trans (hd e he).1

/-- Where no hidden part reads a global, everything that can be read is read through parts that the walk follows. -/
theorem reads_followed_of_blind (hblind : ∀ code part, Hidden a code part → Blind a part) {x y : Nat}
    (h : Reads a x y) : ReadsBy a (Follow a) x y := by
  obtain ⟨declared, code, hdeclared, hcode, hreads⟩ := h
  refine ⟨declared, code, hdeclared, ?_, hreads⟩
  generalize Code.expr declared.initializer = start at hcode ⊢
  induction hcode using Relation.ReflTransGen.head_induction_on with
  | refl => exact .refl
  | head hstep hrest ih =>
    rcases hstep with hfollow | hhidden
    · exact .head hfollow ih
    · exact absurd hreads (hblind _ _ hhidden code y hrest)

end

def exprOf (kind : DynExprKind) (left : DynExprId) (integer : BitVec 64) : DynAstExpr :=
  ⟨kind, DynType.usize, .none, left, noExpr, integer, false, 0, 0, false⟩

def globalExpr (g : Nat) : DynAstExpr := exprOf .global noExpr (BitVec.ofNat 64 g)

def numberExpr : DynAstExpr := exprOf .int noExpr 3

/-- `total := sum()`, `size := 3` and an array `data`, where `sum` has the statements `data[0 : 3]` and `size`. -/
def calledSum : DynAstProgram :=
  { expressions := [exprOf .call noExpr 0, exprOf .slice 2 3, globalExpr 2, numberExpr, globalExpr 1,
      exprOf .array noExpr 0]
    items := []
    structs := []
    fields := []
    statements := [⟨1, noExpr, 0, 0, 0, 0, 0, 0⟩, ⟨4, noExpr, 0, 0, 0, 0, 0, 0⟩]
    children := [0, 1]
    caseArms := []
    functions := [⟨0, 2⟩]
    globals := [⟨0, false⟩, ⟨3, false⟩, ⟨5, false⟩]
    aliases := [] }

theorem order_initializers_dependency_called : DependencyOrder calledSum [2, 1, 0] := by
  have hkinds : ∀ {id e}, calledSum.expression id = some e →
      (e.kind = .slice → e.target = 3) ∧ e.kind ≠ .struct ∧ e.kind ≠ .indirectCall := by
    intro id e he
    unfold DynAstProgram.expression at he
    split at he
    · cases he
    have hall : ∀ e ∈ calledSum.expressions,
        (e.kind = .slice → e.target = 3) ∧ e.kind ≠ .struct ∧ e.kind ≠ .indirectCall := by decide
    exact hall e (mem_of_getElem? he)
  refine (order_initializers_dependency fun x y _ _ h => .single (reads_followed_of_blind ?_ h)).1 none [2, 1, 0] (by decide)
  intro code part hhidden
  cases hhidden with
  | sliceEnd he hkind =>
    rw [(hkinds he).1 hkind]
    refine blind_literal fun e he => ?_
    cases he
    decide
  | fieldDefault he hkind _ => exact absurd hkind (hkinds he).2.1
  | functionValue he hkind _ _ _ _ => exact absurd hkind (hkinds he).2.2

def globalsProgram (expressions : List DynAstExpr) (globals : List DynAstGlobal) : DynAstProgram :=
  ⟨expressions, [], [], [], [], [], [], [], globals, []⟩

def sliceExpr : DynAstExpr := ⟨.slice, DynType.sliceBase, .none, 1, noExpr, 2, false, 0, 0, false⟩

/-- `view := data[0 : size]`, `size := 3`, and the array `data`. -/
def lateSize : DynAstProgram :=
  globalsProgram
    [sliceExpr, globalExpr 2, globalExpr 1, numberExpr,
      ⟨.array, DynType.arrayBase, .none, noExpr, noExpr, 0, false, 0, 0, false⟩]
    [⟨0, false⟩, ⟨3, false⟩, ⟨4, false⟩]

/-- The size comes behind the slice that ends at it. -/
theorem order_initializers_sliceEnd :
    orderInitializers lateSize none = some [2, 0, 1] ∧ Reads lateSize 0 1 ∧ ¬ DependencyOrder lateSize [2, 0, 1] := by
  have hend : Hidden lateSize (.expr 0) (.expr 2) := @Hidden.sliceEnd lateSize 0 sliceExpr rfl rfl
  have hreads : Reads lateSize 0 1 :=
    ⟨⟨0, false⟩, .expr 2, rfl, .single (.inr hend), 2, globalExpr 1, rfl, rfl, rfl, rfl⟩
  refine ⟨by decide, hreads, fun hdependency => ?_⟩
  obtain ⟨front, back, hsplit, hmem⟩ :=
    hdependency.before 0 1 ⟨⟨0, false⟩, rfl, by decide⟩ ⟨⟨3, false⟩, rfl, by decide⟩ hreads
  have hback : 1 ∈ back := by
    have hin : (1 : Nat) ∈ front ++ 0 :: back := by rw [← hsplit]; decide
    match front, hsplit with
    | [x], hsplit =>
      cases hsplit
      decide
    | [x, y], hsplit => cases hsplit
    | x :: y :: z :: front, hsplit => simp at hsplit
  have hnodup := hdependency.nodup
  rw [hsplit] at hnodup
  exact (nodup_append.mp hnodup).2.2 1 hmem 1 (mem_cons_of_mem _ hback) rfl

end Dyn.Sema
