import Dyn.Ir.LoopRuns

/-!
# ir: soundness of the range proofs

In every run of a function of a well-formed program, each check of a marked expression holds.
-/

namespace Dyn.Ir

open List

/-- What lowering a checked program ensures.  The statements and expressions form a tree, identifiers
are below the values that stand for none, a loop over a collection has no condition, and a local that
a block declares is not in scope outside it. -/
structure WellFormed (ir : DynIrProgram) (pointerBytes : Nat) : Prop extends WellTyped ir pointerBytes where
  expressionIds : ir.expressions.length ≤ noExpr
  localIds : ir.locals.length ≤ noLocal
  functionLocals : ∀ fn ∈ ir.functions, fn.localStart + fn.localCount ≤ ir.locals.length
  parent : ∀ c p p', Parent ir c p → Parent ir c p' → p = p'
  functionOnce : ∀ fn ∈ ir.functions, (fn.body ir).Nodup
  loopOnce : ∀ s, (ir.body s).Nodup
  owner : ∀ s s' e p p', Parent ir s p → Parent ir s' p' → Owns ir s e → Owns ir s' e → s = s'
  collection : ∀ s, (ir.stmt s).kind = .forStmt → (ir.stmt s).forRange = false → (ir.stmt s).target ≠ noExpr →
    (ir.stmt s).expression = noExpr
  scope : ∀ fn ∈ ir.functions, ∀ loop ∈ fn.body ir, ∀ t ∈ ir.body loop, (ir.stmt t).kind = .localStmt →
    ∀ u ∈ fn.body ir, (ir.stmt u).kind = .localStmt ∨ (ir.stmt u).kind = .assignStmt →
      (ir.stmt u).localId ≠ (ir.stmt t).localId

variable {ir : DynIrProgram} {pointerBytes : Nat}

variable {σ : State} {es : List Event} {s e : Nat}

theorem eval_within (hids : ir.expressions.length ≤ noExpr) {id : Nat} {out : Option (Nat × State)}
    (h : Eval ir pointerBytes id σ es out) : ∀ ev ∈ es, Within ir id ev.id := by
  have hfirst : ∀ {id e : Nat}, Within ir (operands (ir.expr id)).1 e → Within ir id e := by
    intro id e h
    unfold operands at h
    split at h
    · exact .right h
    · exact .left h
  have hsecond : ∀ {id e : Nat}, Within ir (operands (ir.expr id)).2 e → Within ir id e := by
    intro id e h
    unfold operands at h
    split at h
    · exact .left h
    · exact .right h
  induction h with
  | convertStop _ _ ih | convert _ _ _ ih => exact fun ev hev => .left (ih ev hev)
  | firstStop _ _ ih => exact fun ev hev => hfirst (ih ev hev)
  | skip _ _ _ ih => exact fun ev hev => .left (ih ev hev)
  | secondStop _ _ _ ih ih' =>
    intro ev hev
    obtain hev | hev := mem_append.mp hev
    · exact hfirst (ih ev hev)
    · exact hsecond (ih' ev hev)
  | @checked id a b σ σ' σ'' es es' out hkind _ _ _ ih ih' =>
    intro ev hev
    simp only [mem_append] at hev
    obtain (hev | hev) | hev := hev
    · exact hfirst (ih ev hev)
    · exact hsecond (ih' ev hev)
    have hid : ev.id = id := by
      unfold checks at hev
      dsimp only at hev
      split_ifs at hev <;> simp at hev <;> simp [hev, Event.id]
    have hlt : id < ir.expressions.length := by
      by_contra hge
      have hdefault : ir.expr id = default := by
        unfold DynIrProgram.expr
        rw [getD_eq_getElem?_getD, getElem?_eq_none (by omega), Option.getD_none]
      rw [hdefault] at hkind
      obtain hkind | hkind := hkind <;> cases hkind
    rw [hid]
    exact .self (by simp only [DynIrProgram.hasExpr, decide_eq_true_eq]; omega)
  | other _ hes => exact hes
  | _ => exact forall_mem_nil _

/-- The expressions that stand in the code of a run. -/
def Code.Contains (ir : DynIrProgram) : Code → Nat → Prop
  | .stmt s, e => Ir.Contains ir s e
  | .loop s, e => Ir.Contains ir s e
  | .block l, e => ∃ s ∈ l, Ir.Contains ir s e

theorem run_contains (hids : ir.expressions.length ≤ noExpr) {code : Code} {out : Outcome}
    (h : Run ir pointerBytes code σ es out) : ∀ ev ∈ es, code.Contains ir ev.id := by
  have hexpression : ∀ {s σ es out}, Eval ir pointerBytes (ir.stmt s).expression σ es out →
      ∀ ev ∈ es, Ir.Contains ir s ev.id := fun h ev hev => .own (.inl (eval_within hids h ev hev))
  have hcondition : ∀ {s σ es σ'}, Enters ir pointerBytes s σ es σ' → ∀ ev ∈ es, Ir.Contains ir s ev.id := by
    intro s σ es σ' h
    unfold Enters at h
    split at h
    · rw [h.1]
      exact nofun
    · obtain ⟨v, -, h⟩ := h
      exact hexpression h
  have hbody : ∀ {s e}, (∃ t ∈ ir.body s, Ir.Contains ir t e) → Ir.Contains ir s e :=
    fun ⟨t, ht, h⟩ => .inner (.inl ht) h
  induction h with
  | writeStop _ h | write _ h => exact hexpression h
  | loop _ _ ih => exact ih
  | other _ _ hes => exact hes
  | conditionStop _ h | exit _ h => exact hexpression h
  | bodyStop hs _ ih | bodyLeave hs _ _ ih =>
    intro ev hev
    obtain hev | hev := mem_append.mp hev
    · exact hcondition hs ev hev
    · exact hbody (ih ev hev)
  | again hs _ _ _ ih ih' =>
    intro ev hev
    simp only [mem_append] at hev
    obtain (hev | hev) | hev := hev
    · exact hcondition hs ev hev
    · exact hbody (ih ev hev)
    · exact ih' ev hev
  | step _ _ ih ih' =>
    intro ev hev
    obtain hev | hev := mem_append.mp hev
    · exact ⟨_, by simp, ih ev hev⟩
    · obtain ⟨t, ht, h⟩ := ih' ev hev
      exact ⟨t, mem_cons_of_mem _ ht, h⟩
  | ended _ _ ih => exact fun ev hev => ⟨_, by simp, ih ev hev⟩
  | deferred _ _ _ hes ih =>
    intro ev hev
    obtain hev | hev := mem_append.mp hev
    · exact ih ev hev
    · obtain ⟨d, hd, -, h⟩ := hes ev hev
      exact ⟨d, hd, h⟩
  | _ => exact nofun

/-- The statements that stand in a statement or in its blocks. -/
inductive Under (ir : DynIrProgram) (s : Nat) : Nat → Prop
  | self : Under ir s s
  | child {p c : Nat} (h : Under ir s p) (hc : Parent ir c (.statement p)) : Under ir s c

theorem Under.inner {s c u : Nat} (hc : Parent ir c (.statement s)) (h : Under ir c u) : Under ir s u := by
  induction h with
  | self => exact .child .self hc
  | child _ hc' ih => exact .child ih hc'

theorem contains_under (h : Contains ir s e) : ∃ u, Under ir s u ∧ Owns ir u e := by
  induction h with
  | own h => exact ⟨_, .self, h⟩
  | inner hc _ ih =>
    obtain ⟨u, hu, hown⟩ := ih
    exact ⟨u, hu.inner hc, hown⟩

theorem parent_body {loop : Nat} (h : s ∈ ir.body loop) : Parent ir s (.statement loop) := .inl h

/-- An element of a list without repetitions stands at one place. -/
theorem prefix_eq_of_nodup {α : Type} {pre pre' post post' : List α} {a : α} (honce : (pre ++ a :: post).Nodup)
    (h : pre ++ a :: post = pre' ++ a :: post') : pre = pre' := by
  rw [nodup_append] at honce
  have hpre : a ∉ pre := fun ha => honce.2.2 a ha a (by simp) rfl
  have hpost : a ∉ post := (nodup_cons.mp honce.2.1).1
  exact ((append_cons_inj_of_notMem hpre hpost).mp h).1

/-- An expression of the body of a loop stands in no other statement of a function's body. -/
theorem WellFormed.unique (hwf : WellFormed ir pointerBytes) {fn fn' : DynIrFunction} {loop t : Nat}
    (hs : Parent ir s (.function fn)) (hloop : Parent ir loop (.function fn'))
    (ht : t ∈ ir.body loop) (howns : Owns ir t e) (h : Contains ir s e) : s = loop ∧ fn = fn' := by
  have htloop : Parent ir t (.statement loop) := .inl ht
  obtain ⟨u, hu, hown⟩ := contains_under h
  have hplaced : ∃ p, Parent ir u p := by
    cases hu with
    | self => exact ⟨_, hs⟩
    | child _ hc => exact ⟨_, hc⟩
  obtain ⟨p, hp⟩ := hplaced
  cases hwf.owner u t e p _ hp htloop hown howns
  have hsame : s = loop := by
    cases hu with
    | self => cases hwf.parent _ _ _ hs htloop
    | child hu hc =>
      cases hwf.parent _ _ _ hc htloop
      cases hu with
      | self => rfl
      | child _ hc' => cases hwf.parent _ _ _ hc' hloop
  subst hsame
  cases hwf.parent _ _ _ hs hloop
  exact ⟨rfl, rfl⟩

theorem carryRanges_has (locals : RangeLocals) (s x : Nat) :
    rangeHasLocal (carryRanges ir pointerBytes locals s) x = rangeHasLocal locals x := by
  unfold carryRanges
  split <;> simp

theorem foldl_carryRanges_has (l : List Nat) (locals : RangeLocals) (x : Nat) :
    rangeHasLocal (l.foldl (carryRanges ir pointerBytes) locals) x = rangeHasLocal locals x := by
  induction l generalizing locals with
  | nil => rfl
  | cons s l ih => rw [foldl_cons, ih, carryRanges_has]

theorem carried_get {l : List Nat} {locals : RangeLocals} {x : Nat} (hx : rangeHasLocal locals x = true)
    (hget : locals.get x = {}) (hl : ∀ s ∈ l, (ir.stmt s).kind = .localStmt ∨ (ir.stmt s).kind = .assignStmt →
      (ir.stmt s).localId ≠ x) : (l.foldl (carryRanges ir pointerBytes) locals).get x = {} := by
  induction l generalizing locals with
  | nil => exact hget
  | cons s l ih =>
    rw [foldl_cons]
    refine ih (by rw [carryRanges_has]; exact hx) ?_ fun u hu => hl u (mem_cons_of_mem s hu)
    unfold carryRanges
    split
    · rename_i hcarries
      simp only [carries, Bool.and_eq_true, Bool.or_eq_true, decide_eq_true_eq] at hcarries
      have hne := hl s (by simp) hcarries.1.1.1
      rw [RangeLocals.get_set_of_ne _ hcarries.1.2 hx (Ne.symm hne), hget]
    · exact RangeLocals.get_clear _ _

/-- The facts after a statement of a function's body describe the state after it. -/
theorem Knows.carry (hwt : WellTyped ir pointerBytes) {locals : RangeLocals}
    (htracked : Tracked locals) {σ' : State} (h : Knows ir pointerBytes locals σ)
    (hrun : Run ir pointerBytes (.stmt s) σ es (.next σ')) :
    Knows ir pointerBytes (carryRanges ir pointerBytes locals s) σ' := by
  unfold carryRanges
  split
  · rename_i hcarries
    simp only [carries, Bool.and_eq_true, Bool.or_eq_true, decide_eq_true_eq] at hcarries
    obtain ⟨⟨⟨hkind, htarget⟩, hhas⟩, hpure⟩ := hcarries
    have hno := ne_noExpr_of_hasExpr (hasExpr_of_rangePure hpure)
    have hwrite : PureWrite ir s := ⟨hkind, by obtain hkind | hkind := hkind <;> simp [writesLocal, hkind, htarget, hno], hpure⟩
    obtain ⟨-, hstop | ⟨v, es', hv, hnext⟩⟩ := hwrite.run hrun
    · cases hstop
    · cases hnext
      exact h.store hwt hwrite.writes hpure hv hhas (htracked _ hhas)
  · exact knows_clear _ _

namespace WellFormed

variable {fn : DynIrFunction}

theorem tracked (hwf : WellFormed ir pointerBytes) (hfn : fn ∈ ir.functions) (l : List Nat) :
    Tracked (l.foldl (carryRanges ir pointerBytes) fn.locals) := by
  intro x hx
  rw [foldl_carryRanges_has] at hx
  have hlocals := hwf.functionLocals fn hfn
  have hids := hwf.localIds
  simp only [rangeHasLocal, DynIrFunction.locals, length_replicate, decide_eq_true_eq] at hx
  omega

theorem nameIds (hwf : WellFormed ir pointerBytes) (id : Nat) (hkind : (ir.expr id).kind = .name) :
    (ir.expr id).integer.toNat < 2 ^ 32 := by
  have hdeclared := hwf.name id hkind
  have hlt : (ir.expr id).integer.toNat < ir.locals.length := (List.getElem?_eq_some_iff.mp hdeclared).1
  have hids := hwf.localIds
  unfold noLocal at hids
  omega

variable {id : Nat} {es : List Event}

/-- The loop that a mark is justified by, run where its facts are true. -/
theorem loop_sound (hwf : WellFormed ir pointerBytes) (hfn : fn ∈ ir.functions)
    {pre post : List Nat} {loop : Nat} (hbody : fn.body ir = pre ++ loop :: post)
    (hkind : (ir.stmt loop).kind = .forStmt)
    (hmark : LoopMark ir loop (pre.foldl (carryRanges ir pointerBytes) fn.locals) pointerBytes id)
    {σ : State} {out : Outcome}
    (hσ : Knows ir pointerBytes (pre.foldl (carryRanges ir pointerBytes) fn.locals) σ)
    (h : Run ir pointerBytes (.stmt loop) σ es out) :
    ∀ ev ∈ es, ev.id = id → ev.Sound ir pointerBytes := by
  obtain ⟨facts, hfacts, pre', s, post', hloop, hmark⟩ := hmark
  obtain ⟨x, start, bound, hc⟩ := counted_of_loopFacts hwf.nameIds hfacts
  have hmem : loop ∈ fn.body ir := by rw [hbody]; simp
  have hsmem : s ∈ ir.body loop := by rw [hloop]; simp
  have hparent : Parent ir loop (.function fn) := ⟨hfn, hmem⟩
  have hwrite := pureWrite_of_simple hc.simple hsmem
  have htarget : (ir.stmt loop).target = noExpr := by
    by_contra hne
    exact hc.present (hwf.collection loop hkind hc.plain hne)
  have hplain : plainLoop (ir.stmt loop) = true := by simp [plainLoop, hkind, hc.plain, htarget]
  have hrun : Run ir pointerBytes (.loop loop) σ es out := by
    cases h with
    | stop => exact .stop _ _
    | loop _ h => exact h
    | writeStop hw | write hw => simp [writesLocal, hkind] at hw
    | other _ hl => exact absurd hplain (by simp [hl])
  have hwithin : Within ir (ir.stmt s).expression id := by
    obtain hmark | ⟨rfl, -⟩ := hmark
    · exact hmark.within
    · exact .self (hasExpr_of_rangePure hwrite.pure)
  -- the mark is on an expression of the statement `s` alone
  have hplace : StandsAt ir loop pre' s id := by
    refine ⟨fun hcondition => ?_, fun pre'' s' post'' hsplit h => ?_⟩
    · cases hwf.owner loop s id _ _ hparent (parent_body hsmem) (.inl hcondition) (.inl hwithin)
      cases hwf.parent _ _ _ hparent (parent_body hsmem)
    have hs' : s' ∈ ir.body loop := by rw [hsplit]; simp
    cases hwf.owner s' s id _ _ (parent_body hs') (parent_body hsmem) (.inl h) (.inl hwithin)
    exact ⟨prefix_eq_of_nodup (hsplit ▸ hwf.loopOnce loop) (hsplit.symm.trans hloop), rfl⟩
  have hcondition : ∀ σ es out, Eval ir pointerBytes (ir.stmt loop).expression σ es out →
      ∀ ev ∈ es, Within ir (ir.stmt loop).expression ev.id := fun _ _ _ h => eval_within hwf.expressionIds h
  have htracked := hwf.tracked hfn pre
  obtain hmark | ⟨rfl, hmark⟩ := hmark
  · exact hc.index_sound hwf.toWellTyped htracked hcondition hplace hmark hσ hrun
  refine hc.sum_sound hwf.toWellTyped htracked hcondition (fun t ht hlocal hhas => ?_) hloop hplace hmark hσ hrun
  rw [foldl_carryRanges_has] at hhas
  have hfresh : fn.locals.get (ir.stmt t).localId = {} := by
    simp only [RangeLocals.get, DynIrFunction.locals, getD_eq_getElem?_getD, getElem?_replicate]
    split <;> rfl
  rw [carried_get hhas hfresh fun u hu => hwf.scope fn hfn loop hmem t ht hlocal u (by rw [hbody]; simp [hu])]

/-- A marked expression stands in one statement of a function's body: a loop whose examination justifies
the mark. -/
theorem mark_stands (hwf : WellFormed ir pointerBytes) (hmarked : Marked ir pointerBytes id)
    {s : Nat} (hs : Parent ir s (.function fn)) (hcontains : Contains ir s id) :
    (ir.stmt s).kind = .forStmt ∧ ∀ pre post, fn.body ir = pre ++ s :: post →
      LoopMark ir s (pre.foldl (carryRanges ir pointerBytes) fn.locals) pointerBytes id := by
  obtain ⟨fn', hfn', pre', loop, post', hbody', hkind, hmark⟩ := proveUnsignedRanges_marked hmarked
  have hloop : Parent ir loop (.function fn') := ⟨hfn', by rw [← DynIrFunction.body, hbody']; simp⟩
  obtain ⟨t, ht, howns⟩ : ∃ t ∈ ir.body loop, Owns ir t id := by
    obtain ⟨facts, hfacts, pre, u, post, hsplit, hmark⟩ := hmark
    obtain ⟨x, start, bound, hc⟩ := counted_of_loopFacts hwf.nameIds hfacts
    have hu : u ∈ ir.body loop := by rw [hsplit]; simp
    refine ⟨u, hu, .inl ?_⟩
    obtain hmark | ⟨rfl, -⟩ := hmark
    · exact hmark.within
    · exact .self (hasExpr_of_rangePure (pureWrite_of_simple hc.simple hu).pure)
  obtain ⟨rfl, rfl⟩ := hwf.unique hs hloop ht howns hcontains
  refine ⟨hkind, fun pre post hbody => ?_⟩
  have hequal := prefix_eq_of_nodup (hbody ▸ hwf.functionOnce fn hs.1) (hbody.symm.trans hbody')
  rwa [hequal]

theorem rest_sound (hwf : WellFormed ir pointerBytes) (hfn : fn ∈ ir.functions)
    (hmarked : Marked ir pointerBytes id) {code : Code} {σ : State} {out : Outcome}
    (h : Run ir pointerBytes code σ es out) {pre rest : List Nat} (hcode : code = .block rest)
    (hbody : fn.body ir = pre ++ rest)
    (hσ : Knows ir pointerBytes (pre.foldl (carryRanges ir pointerBytes) fn.locals) σ) :
    ∀ ev ∈ es, ev.id = id → ev.Sound ir pointerBytes := by
  have hstmt : ∀ {pre s rest σ es out}, fn.body ir = pre ++ s :: rest →
      Knows ir pointerBytes (pre.foldl (carryRanges ir pointerBytes) fn.locals) σ →
      Run ir pointerBytes (.stmt s) σ es out → ∀ ev ∈ es, ev.id = id → ev.Sound ir pointerBytes := by
    intro pre s rest σ es out hbody hσ h ev hev hid
    have hcontains := run_contains hwf.expressionIds h ev hev
    rw [hid] at hcontains
    obtain ⟨hkind, hmark⟩ := hwf.mark_stands hmarked ⟨hfn, by rw [← DynIrFunction.body, hbody]; simp⟩ hcontains
    exact hwf.loop_sound hfn hbody hkind (hmark pre rest hbody) hσ h ev hev hid
  induction h generalizing pre rest with
  | stop | nil => exact nofun
  | @step s l σ σ' es es' out h h' _ ih =>
    cases hcode
    intro ev hev hid
    obtain hev | hev := mem_append.mp hev
    · exact hstmt hbody hσ h ev hev hid
    have hnext := hσ.carry hwf.toWellTyped (hwf.tracked hfn pre) h
    have hfold : (pre ++ [s]).foldl (carryRanges ir pointerBytes) fn.locals =
        carryRanges ir pointerBytes (pre.foldl (carryRanges ir pointerBytes) fn.locals) s := by simp
    rw [← hfold] at hnext
    exact ih rfl (by rw [hbody]; simp) hnext ev hev hid
  | ended h _ =>
    cases hcode
    exact hstmt hbody hσ h
  | deferred _ _ _ hes ih =>
    cases hcode
    intro ev hev hid
    obtain hev | hev := mem_append.mp hev
    · exact ih rfl hbody hσ ev hev hid
    -- a deferred statement holds no marked expression
    obtain ⟨d, hd, hdefer, hcontains⟩ := hes ev hev
    rw [hid] at hcontains
    have hkind := (hwf.mark_stands hmarked ⟨hfn, by rw [← DynIrFunction.body, hbody]; simp [hd]⟩ hcontains).1
    rw [hkind] at hdefer
    cases hdefer
  | _ => cases hcode

end WellFormed

/-- In every run of a function, whatever the width of a pointer, a marked index is in bounds and a marked
sum does not overflow its unsigned type each time that it is evaluated. -/
theorem range_marks_sound {ir : DynIrProgram} {pointerBytes : Nat} (hwf : WellFormed ir pointerBytes)
    {fn : DynIrFunction} (hfn : fn ∈ ir.functions) {σ : State} {es : List Event} {out : Outcome}
    (hrun : Run ir pointerBytes (.block (fn.body ir)) σ es out) {id : Nat} (hmarked : Marked ir pointerBytes id) :
    (∀ i, .index id i ∈ es → (ir.expr (ir.expr id).left).type.isArray = true ∧
      i < ir.arrayLength (ir.expr (ir.expr id).left).type) ∧
    (∀ l r, .add id l r ∈ es → unsignedType (ir.expr id).type = true ∧
      l + r ≤ unsignedMax (ir.expr id).type pointerBytes) := by
  have hstart : Knows ir pointerBytes fn.locals σ := Lib.Describes.of_top fun x _ v => by
    have hfresh : fn.locals.get x = {} := by
      simp only [RangeLocals.get, DynIrFunction.locals, getD_eq_getElem?_getD, getElem?_replicate]
      split <;> rfl
    rw [hfresh]
    exact UIntRange.covers_unknown _ _ _
  have hsound := hwf.rest_sound hfn hmarked hrun rfl (nil_append _).symm hstart
  exact ⟨fun i hi => hsound _ hi rfl, fun l r hi => hsound _ hi rfl⟩

/-- `i: usize = 0; sum: u64 = 0; for i < 4 { sum = sum + u64(table[i]); i = i + 1 }` -/
def tableSum : DynIrProgram where
  expressions :=
    [{ kind := .int, type := .usize, integer := 0 },
     { kind := .int, type := .u64, integer := 0 },
     { kind := .name, type := .usize, integer := 0 },
     { kind := .int, type := .usize, integer := 4 },
     { kind := .binary, type := .bool, op := .lt, left := 2, right := 3 },
     { kind := .name, type := .u64, integer := 1 },
     { kind := .global, type := .array 0 },
     { kind := .name, type := .usize, integer := 0 },
     { kind := .index, type := .u8, left := 6, right := 7 },
     { kind := .convert, type := .u64, left := 8 },
     { kind := .binary, type := .u64, op := .add, left := 5, right := 9 },
     { kind := .name, type := .usize, integer := 0 },
     { kind := .int, type := .usize, integer := 1 },
     { kind := .binary, type := .usize, op := .add, left := 11, right := 12 }]
  functions := [{ bodyStart := 0, bodyCount := 3, localStart := 0, localCount := 2 }]
  arrays := [4]
  statements :=
    [{ kind := .localStmt, expression := 0, localId := 0 },
     { kind := .localStmt, expression := 1, localId := 1 },
     { kind := .forStmt, expression := 4, bodyStart := 3, bodyCount := 2 },
     { kind := .assignStmt, expression := 10, localId := 1 },
     { kind := .assignStmt, expression := 13, localId := 0 }]
  children := [0, 1, 2, 3, 4]
  locals := [.usize, .u64]

/-- The statement that an expression of `tableSum` stands in. -/
def tableSumHome (e : Nat) : Nat := [0, 1, 2, 2, 2, 3, 3, 3, 3, 3, 3, 4, 4, 4].getD e 0

example : (List.range 14).filter (fun id => ((proveUnsignedRanges tableSum 8).expr id).boolean) = [8, 10, 13] := by
  decide +kernel

theorem tableSum_expr (id : Nat) : id < 14 ∨ tableSum.expr id = default := by
  by_cases hid : id < 14
  · exact .inl hid
  unfold DynIrProgram.expr
  rw [getD_eq_getElem?_getD, getElem?_eq_none (by simpa [tableSum] using hid), Option.getD_none]
  exact .inr rfl

theorem tableSum_stmt (s : Nat) : s < 5 ∨ tableSum.stmt s = default := by
  by_cases hs : s < 5
  · exact .inl hs
  unfold DynIrProgram.stmt
  rw [getD_eq_getElem?_getD, getElem?_eq_none (by simpa [tableSum] using hs), Option.getD_none]
  exact .inr rfl

theorem tableSum_within {id e : Nat} (h : Within tableSum id e) : id < 14 ∧ tableSumHome e = tableSumHome id := by
  have hparts : ∀ i < 14, ((tableSum.expr i).left < 14 → tableSumHome (tableSum.expr i).left = tableSumHome i) ∧
      ((tableSum.expr i).right < 14 → tableSumHome (tableSum.expr i).right = tableSumHome i) ∧
      (tableSum.expr i).itemCount = 0 := by decide
  induction h with
  | @self id hid =>
    have hlt : id ≠ noExpr ∧ id < 14 := of_decide_eq_true hid
    exact ⟨hlt.2, rfl⟩
  | @left id e _ ih =>
    obtain hid | hid := tableSum_expr id
    · exact ⟨hid, ih.2.trans ((hparts id hid).1 ih.1)⟩
    · rw [hid] at ih
      exact absurd ih.1 (by decide)
  | @right id e _ ih =>
    obtain hid | hid := tableSum_expr id
    · exact ⟨hid, ih.2.trans ((hparts id hid).2.1 ih.1)⟩
    · rw [hid] at ih
      exact absurd ih.1 (by decide)
  | @item id e i hi _ _ =>
    obtain hid | hid := tableSum_expr id
    · rw [(hparts id hid).2.2] at hi
      cases hi
    · rw [hid] at hi
      cases hi

theorem tableSum_parent {c : Nat} {p : Owner} (h : Parent tableSum c p) :
    (p = .function ⟨0, 3, 0, 2⟩ ∧ c < 3) ∨ (p = .statement 2 ∧ (c = 3 ∨ c = 4)) := by
  cases p with
  | function fn =>
    obtain ⟨hfn, hc⟩ := h
    have hfn : fn = ⟨0, 3, 0, 2⟩ := by simpa [tableSum] using hfn
    subst hfn
    have hblock : tableSum.block 0 3 = [0, 1, 2] := by decide
    rw [hblock] at hc
    exact .inl ⟨rfl, by simp at hc; omega⟩
  | statement s =>
    by_cases hs : s = 2
    · subst hs
      have hbody : tableSum.body 2 = [3, 4] := by decide
      obtain hc | hc | ⟨j, hj, -⟩ := h
      · rw [hbody] at hc
        exact .inr ⟨rfl, by simpa using hc⟩
      · cases hc
      · cases hj
    have hempty : (tableSum.stmt s).bodyCount = 0 ∧ (tableSum.stmt s).elseCount = 0 ∧
        (tableSum.stmt s).caseArmCount = 0 := by
      obtain hlt | hdefault := tableSum_stmt s
      · have hall : ∀ s < 5, s ≠ 2 → (tableSum.stmt s).bodyCount = 0 ∧ (tableSum.stmt s).elseCount = 0 ∧
          (tableSum.stmt s).caseArmCount = 0 := by decide
        exact hall s hlt hs
      · rw [hdefault]
        decide
    obtain hc | hc | ⟨j, hj, -⟩ := h
    · simp [DynIrProgram.body, DynIrProgram.block, hempty.1] at hc
    · simp [DynIrProgram.block, hempty.2.1] at hc
    · rw [hempty.2.2] at hj
      cases hj

theorem tableSum_owns (hs : s < 5) (h : Owns tableSum s e) : tableSumHome e = s := by
  have hroots : ∀ s < 5, tableSumHome (tableSum.stmt s).expression = s ∧ (tableSum.stmt s).target = noExpr := by decide
  obtain h | h := h
  · rw [(tableSum_within h).2, (hroots s hs).1]
  have hlt := (tableSum_within h).1
  rw [(hroots s hs).2] at hlt
  exact absurd hlt (by decide)

theorem tableSum_wellFormed : WellFormed tableSum 8 where
  literal id := (tableSum_expr id).elim (by revert id; decide) fun h => by rw [h]; decide
  boolean id := (tableSum_expr id).elim (by revert id; decide) fun h => by rw [h]; decide
  name id := (tableSum_expr id).elim (by revert id; decide) fun h => by rw [h]; decide
  operands id := (tableSum_expr id).elim (by revert id; decide) fun h => by rw [h]; decide
  numeric id := (tableSum_expr id).elim (by revert id; decide) fun h => by rw [h]; decide
  comparison id := (tableSum_expr id).elim (by revert id; decide) fun h => by rw [h]; decide
  written s := (tableSum_stmt s).elim (by revert s; decide) fun h => by rw [h]; decide
  expressionIds := by decide
  localIds := by decide
  functionLocals := by decide
  parent c p p' h h' := by
    obtain ⟨rfl, hc⟩ | ⟨rfl, hc⟩ := tableSum_parent h <;>
      obtain ⟨rfl, hc'⟩ | ⟨rfl, hc'⟩ := tableSum_parent h' <;> first | rfl | omega
  functionOnce := by decide
  loopOnce s := by
    by_cases hs : s = 2
    · subst hs
      decide
    have hempty : tableSum.body s = [] := by
      by_contra hne
      obtain ⟨c, hc⟩ := exists_mem_of_ne_nil _ hne
      obtain ⟨hp, -⟩ | ⟨hp, -⟩ := tableSum_parent (parent_body hc)
      · cases hp
      · cases hp
        exact hs rfl
    rw [hempty]
    exact nodup_nil
  owner s s' e p p' hp hp' h h' := by
    have hlt : ∀ {s p}, Parent tableSum s p → s < 5 := by
      intro s p hp
      obtain ⟨-, hc⟩ | ⟨-, hc⟩ := tableSum_parent hp <;> omega
    rw [← tableSum_owns (hlt hp) h, ← tableSum_owns (hlt hp') h']
  collection s := (tableSum_stmt s).elim (by revert s; decide) fun h => by rw [h]; decide
  scope := by decide

theorem tableSum_run : Run tableSum 8 (.block [0, 1, 2]) (fun _ => 0) [.index 8 0] .stop := by
  have hzero : ∀ σ, Eval tableSum 8 0 σ [] (some (0, σ)) := fun σ => .literal σ (.inl rfl)
  have hzero' : ∀ σ, Eval tableSum 8 1 σ [] (some (0, σ)) := fun σ => .literal σ (.inl rfl)
  have hstart : Run tableSum 8 (.stmt 0) (fun _ => 0) [] (.next (store (fun _ => 0) 0 0)) := .write rfl (hzero _)
  have hstart' : Run tableSum 8 (.stmt 1) (store (fun _ => 0) 0 0) [] (.next (store (store (fun _ => 0) 0 0) 1 0)) :=
    .write rfl (hzero' _)
  generalize hσ : store (store (fun _ => 0) 0 0) 1 0 = σ at hstart'
  have hcounter : σ 0 = 0 := by rw [← hσ]; rfl
  -- the condition holds
  have hleft : Eval tableSum 8 2 σ [] (some (0, σ)) := by
    have hname : Eval tableSum 8 2 σ [] (some (σ 0, σ)) := .name σ rfl
    rwa [hcounter] at hname
  have hright : Eval tableSum 8 3 σ [] (some (4, σ)) := .literal σ (.inl rfl)
  have hcondition : Eval tableSum 8 4 σ ([] ++ [] ++ checks tableSum 4 0 4) (some (1, σ)) :=
    .checked (.inr rfl) hleft hright fun v τ h => by
      cases h
      exact ⟨rfl, rfl⟩
  have henters : Enters tableSum 8 2 σ [] σ := ⟨1, by decide, hcondition⟩
  -- the first element is read
  have hindex : Eval tableSum 8 7 σ [] (some (0, σ)) := by
    have hname : Eval tableSum 8 7 σ [] (some (σ 0, σ)) := .name σ rfl
    rwa [hcounter] at hname
  have helement : Eval tableSum 8 8 σ ([] ++ [] ++ checks tableSum 8 0 0) none :=
    .checked (.inl rfl) hindex (.global σ 0 rfl) nofun
  have hsum : Eval tableSum 8 10 σ ([] ++ [.index 8 0]) none :=
    .secondStop (.inr rfl) (.name σ rfl) (.convertStop (.inl rfl) helement)
  have hbody : Run tableSum 8 (.block (tableSum.body 2)) σ [.index 8 0] .stop := .ended (.writeStop rfl hsum) nofun
  have hloop : Run tableSum 8 (.block [2]) σ ([] ++ [.index 8 0]) .stop :=
    .ended (.loop rfl (.bodyStop henters hbody)) nofun
  have hrest : Run tableSum 8 (.block [1, 2]) (store (fun _ => 0) 0 0) ([] ++ [.index 8 0]) .stop := .step hstart' hloop
  have hrun : Run tableSum 8 (.block [0, 1, 2]) (fun _ => 0) ([] ++ [.index 8 0]) .stop := .step hstart hrest
  exact hrun

theorem range_marks_sound_tableSum : 0 < tableSum.arrayLength (tableSum.expr (tableSum.expr 8).left).type :=
  ((range_marks_sound tableSum_wellFormed (by decide : (⟨0, 3, 0, 2⟩ : DynIrFunction) ∈ tableSum.functions)
    tableSum_run (⟨by decide, by decide +kernel⟩ : Marked tableSum 8 8)).1 0 (by simp)).2

end Dyn.Ir
