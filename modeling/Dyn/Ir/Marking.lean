import Dyn.Ir.RangeProofs

/-!
# ir: what the range proofs mark

The pass marks the program in place while it reads it.  A mark changes nothing that the pass reads,
so each mark is justified by facts that are computed from the program before the pass:
`proveUnsignedRanges_marked` gives the loop, the statement of its body and the facts at it.
-/

namespace Dyn.Ir

open List

variable {ir ir' ir'' : DynIrProgram}

/-- The second program is the first with other marks. -/
structure Alike (ir ir' : DynIrProgram) : Prop where
  count : ir'.expressions.length = ir.expressions.length
  expr : ∀ id, ∃ b, ir'.expr id = { ir.expr id with boolean := b } ∧
    ((ir.expr id).kind = .bool → b = (ir.expr id).boolean)
  rest : ir' = { ir with expressions := ir'.expressions }

namespace Alike

theorem refl (ir : DynIrProgram) : Alike ir ir := ⟨rfl, fun id => ⟨(ir.expr id).boolean, rfl, fun _ => rfl⟩, rfl⟩

variable (id : Nat)

theorem expr_mark (i : Nat) (hid : id < ir.expressions.length) :
    (ir.mark id).expr i = if i = id then { ir.expr id with boolean := true } else ir.expr i := by
  unfold DynIrProgram.expr DynIrProgram.mark
  by_cases hi : i = id
  · subst hi
    simp [getElem?_eq_getElem hid]
  · simp [hi, Ne.symm hi]

theorem mark (h : Alike ir ir') {id : Nat} (hid : id < ir.expressions.length) (hkind : (ir.expr id).kind ≠ .bool) :
    Alike ir (ir'.mark id) where
  count := by simp [DynIrProgram.mark, h.count]
  expr i := by
    obtain ⟨b, hb, hbool⟩ := h.expr i
    rw [expr_mark id i (by rw [h.count]; exact hid)]
    by_cases hi : i = id
    · subst hi
      exact ⟨true, by simp [hb], fun hk => absurd hk hkind⟩
    · exact ⟨b, by simp [hi, hb], hbool⟩
  rest := by
    rw [h.rest]
    rfl

variable (h : Alike ir ir')
include h

theorem kind : (ir'.expr id).kind = (ir.expr id).kind := by
  obtain ⟨b, hb, -⟩ := h.expr id
  rw [hb]

theorem type : (ir'.expr id).type = (ir.expr id).type := by
  obtain ⟨b, hb, -⟩ := h.expr id
  rw [hb]

theorem op : (ir'.expr id).op = (ir.expr id).op := by
  obtain ⟨b, hb, -⟩ := h.expr id
  rw [hb]

theorem left (id : Nat) : (ir'.expr id).left = (ir.expr id).left := by
  obtain ⟨b, hb, -⟩ := h.expr id
  rw [hb]

theorem right (id : Nat) : (ir'.expr id).right = (ir.expr id).right := by
  obtain ⟨b, hb, -⟩ := h.expr id
  rw [hb]

theorem integer : (ir'.expr id).integer = (ir.expr id).integer := by
  obtain ⟨b, hb, -⟩ := h.expr id
  rw [hb]

theorem wrap : (ir'.expr id).wrap = (ir.expr id).wrap := by
  obtain ⟨b, hb, -⟩ := h.expr id
  rw [hb]

theorem itemStart : (ir'.expr id).itemStart = (ir.expr id).itemStart := by
  obtain ⟨b, hb, -⟩ := h.expr id
  rw [hb]

theorem itemCount : (ir'.expr id).itemCount = (ir.expr id).itemCount := by
  obtain ⟨b, hb, -⟩ := h.expr id
  rw [hb]

theorem boolean {id : Nat} (hkind : (ir.expr id).kind = .bool) : (ir'.expr id).boolean = (ir.expr id).boolean := by
  obtain ⟨b, hb, hbool⟩ := h.expr id
  rw [hb]
  exact hbool hkind

theorem stmt (s : Nat) : ir'.stmt s = ir.stmt s := by rw [h.rest]; rfl

theorem item (i : Nat) : ir'.item i = ir.item i := by rw [h.rest]; rfl

theorem block (start count : Nat) : ir'.block start count = ir.block start count := by rw [h.rest]; rfl

theorem body (s : Nat) : ir'.body s = ir.body s := by
  unfold DynIrProgram.body
  rw [h.stmt, h.block]

theorem arrayLength (t : DynType) : ir'.arrayLength t = ir.arrayLength t := by rw [h.rest]; rfl

theorem hasExpr : ir'.hasExpr id = ir.hasExpr id := by
  unfold DynIrProgram.hasExpr
  rw [h.count]

theorem depth : ir'.depth = ir.depth := by
  unfold DynIrProgram.depth
  rw [h.count]

theorem uintRange (locals : RangeLocals) (pointerBytes fuel id : Nat) :
    uintRange ir' locals pointerBytes fuel id = uintRange ir locals pointerBytes fuel id := by
  induction fuel generalizing id with
  | zero => rfl
  | succ fuel ih =>
    simp only [Ir.uintRange, h.hasExpr, h.kind, h.type, h.op, h.left, h.right, h.integer, h.wrap, ih]
    by_cases hkind : (ir.expr id).kind = .bool
    · simp [h.boolean hkind]
    · simp [hkind]

theorem rangeOf (locals : RangeLocals) (pointerBytes id : Nat) :
    ir'.rangeOf locals pointerBytes id = ir.rangeOf locals pointerBytes id := by
  unfold DynIrProgram.rangeOf
  rw [h.depth, h.uintRange]

theorem rangePure (fuel id : Nat) : rangePure ir' fuel id = rangePure ir fuel id := by
  induction fuel generalizing id with
  | zero => rfl
  | succ fuel ih => simp only [Ir.rangePure, h.hasExpr, h.kind, h.left, h.right, ih]

theorem simpleLoopBody (s : Nat) : simpleLoopBody ir' s = simpleLoopBody ir s := by
  simp only [Ir.simpleLoopBody, h.body, h.stmt, h.depth, h.rangePure]

theorem writes (body : List Nat) (x : Nat) : writes ir' body x = writes ir body x := by
  simp only [Ir.writes, h.stmt]

theorem forgetWritten (outer : RangeLocals) (body : List Nat) :
    forgetWritten ir' outer body = forgetWritten ir outer body := by
  simp only [Ir.forgetWritten, h.stmt]

theorem addsTo (id x : Nat) : addsTo ir' id x = addsTo ir id x := by
  simp only [Ir.addsTo, h.kind, h.op, h.left, h.integer]

theorem loopFacts (s : Nat) (outer : RangeLocals) (pointerBytes : Nat) :
    loopFacts ir' s outer pointerBytes = loopFacts ir s outer pointerBytes := by
  simp only [Ir.loopFacts, h.stmt, h.simpleLoopBody, h.kind, h.op, h.left, h.right, h.integer, h.type, h.body,
    h.forgetWritten, h.rangeOf, h.writes, h.addsTo]

theorem carries (locals : RangeLocals) (s : Nat) : carries ir' locals s = carries ir locals s := by
  simp only [Ir.carries, h.stmt, h.depth, h.rangePure]

theorem carryRanges (pointerBytes : Nat) (locals : RangeLocals) (s : Nat) :
    carryRanges ir' pointerBytes locals s = carryRanges ir pointerBytes locals s := by
  simp only [Ir.carryRanges, h.carries, h.stmt, h.rangeOf]

end Alike

/-- The third program is the second with marks on expressions of `P`; both are the first up to marks. -/
structure Extends (ir : DynIrProgram) (P : Nat → Prop) (ir' ir'' : DynIrProgram) : Prop where
  alike : Alike ir ir''
  marked : ∀ id, (ir''.expr id).boolean = true → (ir'.expr id).boolean = true ∨ P id

namespace Extends

variable {P Q : Nat → Prop}

theorem none (h : Alike ir ir') : Extends ir P ir' ir' := ⟨h, fun _ hid => .inl hid⟩

theorem mono (h : Extends ir P ir' ir'') (hsub : ∀ id, P id → Q id) : Extends ir Q ir' ir'' :=
  ⟨h.alike, fun id hid => (h.marked id hid).imp_right (hsub id)⟩

theorem trans {ir3 : DynIrProgram} (h : Extends ir P ir' ir'') (h' : Extends ir P ir'' ir3) :
    Extends ir P ir' ir3 := by
  refine ⟨h'.alike, fun id hid => ?_⟩
  obtain hid | hid := h'.marked id hid
  · exact h.marked id hid
  · exact .inr hid

theorem mark {ir ir' : DynIrProgram} (h : Alike ir ir') {id : Nat} {kind : ExprKind}
    (hkind : (ir.expr id).kind = kind) (hnil : kind ≠ .nil) (hbool : kind ≠ .bool) :
    Extends ir (· = id) ir' (ir'.mark id) := by
  have hlt : id < ir.expressions.length := by
    by_contra hge
    have hdefault : ir.expr id = default := by
      unfold DynIrProgram.expr
      rw [getD_eq_getElem?_getD, getElem?_eq_none (by omega), Option.getD_none]
    rw [hdefault] at hkind
    exact hnil hkind.symm
  refine ⟨h.mark hlt (by rwa [hkind]), fun i hi => ?_⟩
  rw [Alike.expr_mark id i (by rw [h.count]; exact hlt)] at hi
  by_cases he : i = id
  · exact .inr he
  · rw [if_neg he] at hi
    exact .inl hi

theorem foldl {α : Type} {f : DynIrProgram → α → DynIrProgram} {P : α → Nat → Prop}
    (hf : ∀ ir', Alike ir ir' → ∀ a, Extends ir (P a) ir' (f ir' a)) {ir' : DynIrProgram} (h : Alike ir ir')
    (l : List α) : Extends ir (fun id => ∃ a ∈ l, P a id) ir' (l.foldl f ir') := by
  induction l generalizing ir' with
  | nil => exact none h
  | cons a l ih =>
    have hhead := hf ir' h a
    have htail := ih hhead.alike
    rw [foldl_cons]
    refine trans (hhead.mono fun id hid => ⟨a, by simp, hid⟩) (htail.mono fun id hid => ?_)
    obtain ⟨b, hb, hid⟩ := hid
    exact ⟨b, by simp [hb], hid⟩

/-- A pass over a list that carries facts from one element to the next: what is marked for an element
is marked with the facts that the elements before it lead to. -/
theorem foldl_facts {f : DynIrProgram × RangeLocals → Nat → DynIrProgram × RangeLocals}
    {g : RangeLocals → Nat → RangeLocals} {P : RangeLocals → Nat → Nat → Prop}
    (hg : ∀ ir', Alike ir ir' → ∀ locals s, (f (ir', locals) s).2 = g locals s)
    (hf : ∀ ir', Alike ir ir' → ∀ locals s, Extends ir (P locals s) ir' (f (ir', locals) s).1)
    {ir' : DynIrProgram} (h : Alike ir ir') (l : List Nat) (locals : RangeLocals) :
    Extends ir (fun id => ∃ pre s post, l = pre ++ s :: post ∧ P (pre.foldl g locals) s id) ir'
      (l.foldl f (ir', locals)).1 := by
  induction l generalizing ir' locals with
  | nil => exact none h
  | cons a l ih =>
    have hhead := hf ir' h locals a
    have htail := ih hhead.alike (g locals a)
    rw [foldl_cons]
    have hstate : f (ir', locals) a = ((f (ir', locals) a).1, g locals a) := by rw [← hg ir' h]
    rw [hstate]
    refine trans (hhead.mono fun id hid => ⟨[], a, l, rfl, hid⟩) (htail.mono fun id hid => ?_)
    obtain ⟨pre, s, post, hl, hid⟩ := hid
    exact ⟨a :: pre, s, post, by rw [hl]; rfl, hid⟩

end Extends

/-- An index that the facts keep below the length of its array. -/
structure BoundsMark (ir : DynIrProgram) (locals : RangeLocals) (pointerBytes root id : Nat) : Prop where
  within : Within ir root id
  kind : (ir.expr id).kind = .index
  array : (ir.expr (ir.expr id).left).type.isArray = true
  valid : (ir.rangeOf locals pointerBytes (ir.expr id).right).valid = true
  below : (ir.rangeOf locals pointerBytes (ir.expr id).right).max < ir.arrayLength (ir.expr (ir.expr id).left).type

theorem proveArrayBounds_extends (locals : RangeLocals) (pointerBytes fuel root : Nat) (h : Alike ir ir') :
    Extends ir (BoundsMark ir locals pointerBytes root) ir' (proveArrayBounds locals pointerBytes fuel ir' root) := by
  induction fuel generalizing ir' root with
  | zero => exact .none h
  | succ fuel ih =>
    simp only [proveArrayBounds, h.hasExpr]
    by_cases hroot : ir.hasExpr root = true
    swap
    · simpa [hroot] using Extends.none h
    simp only [hroot, not_true_eq_false, if_false]
    -- the operands and the items first
    have hleft := (ih (ir.expr root).left h).mono fun id hid => { hid with within := .left hid.within }
    have hright := (ih (ir.expr root).right hleft.alike).mono fun id hid => { hid with within := .right hid.within }
    have hitems : ∀ ir', Alike ir ir' → ∀ i, Extends ir
        (fun id => i < (ir.expr root).itemCount → BoundsMark ir locals pointerBytes root id) ir'
        (proveArrayBounds locals pointerBytes fuel ir' (ir'.item ((ir.expr root).itemStart + i))) := by
      intro ir' h' i
      rw [h'.item]
      exact (ih _ h').mono fun id hid hi => { hid with within := .item hi hid.within }
    have hfold := (Extends.foldl hitems hright.alike (range (ir.expr root).itemCount)).mono
      (Q := BoundsMark ir locals pointerBytes root) fun id hid => by
        obtain ⟨i, hi, hid⟩ := hid
        exact hid (mem_range.mp hi)
    have hsub := (hleft.trans hright).trans hfold
    simp only [h.left, h.right, h.itemCount, h.itemStart, h.kind]
    split
    · exact hsub
    rename_i hkind
    rw [hsub.alike.type] at hkind
    rw [hsub.alike.rangeOf, hsub.alike.type, hsub.alike.arrayLength]
    split
    · rename_i hbelow
      push Not at hkind
      refine hsub.trans ((Extends.mark hsub.alike hkind.1 (by decide) (by decide)).mono fun id hid => ?_)
      subst hid
      exact ⟨.self hroot, hkind.1, hkind.2, hbelow.1, hbelow.2⟩
    · exact hsub

/-- The facts after a statement of the body of a loop. -/
def bodyRanges (ir : DynIrProgram) (pointerBytes : Nat) (inside : RangeLocals) (s : Nat) : RangeLocals :=
  let st := ir.stmt s
  if st.kind = .localStmt ∧ rangeHasLocal inside st.localId then
    inside.set st.localId (ir.rangeOf inside pointerBytes st.expression)
  else if st.kind ≠ .assignStmt ∨ ¬ rangeHasLocal inside st.localId then inside
  else inside.set st.localId {}

/-- A sum that a statement of the body assigns to one of its operands, and whose growth fits. -/
structure SumMark (ir : DynIrProgram) (outer : RangeLocals) (body : List Nat) (iterations pointerBytes : Nat)
    (inside : RangeLocals) (s : Nat) : Prop where
  kind : (ir.stmt s).kind = .assignStmt
  known : rangeHasLocal inside (ir.stmt s).localId = true
  once : writes ir body (ir.stmt s).localId = 1
  adds : addsTo ir (ir.stmt s).expression (ir.stmt s).localId = true
  unsigned : unsignedType (ir.expr (ir.stmt s).expression).type = true
  fits : growthFits (unsignedMax (ir.expr (ir.stmt s).expression).type pointerBytes) iterations
    (outer.get (ir.stmt s).localId) (ir.rangeOf (inside.set (ir.stmt s).localId {}) pointerBytes
      (ir.expr (ir.stmt s).expression).right) = true

/-- What is marked for one statement of the body. -/
def BodyMark (ir : DynIrProgram) (outer : RangeLocals) (body : List Nat) (iterations pointerBytes : Nat)
    (inside : RangeLocals) (s id : Nat) : Prop :=
  BoundsMark ir inside pointerBytes (ir.stmt s).expression id ∨
    id = (ir.stmt s).expression ∧ SumMark ir outer body iterations pointerBytes inside s

variable (outer inside : RangeLocals)

theorem proveBodyStmt_facts (body : List Nat) (iterations pointerBytes s : Nat) (h : Alike ir ir') :
    (proveBodyStmt outer body iterations pointerBytes (ir', inside) s).2 = bodyRanges ir pointerBytes inside s := by
  have hbounds := (proveArrayBounds_extends inside pointerBytes ir.depth (ir.stmt s).expression h).alike
  unfold proveBodyStmt bodyRanges
  simp only [h.stmt, h.depth, hbounds.rangeOf]
  repeat' split
  all_goals rfl

theorem proveBodyStmt_extends (body : List Nat) (iterations pointerBytes s : Nat) (h : Alike ir ir') :
    Extends ir (BodyMark ir outer body iterations pointerBytes inside s) ir'
      (proveBodyStmt outer body iterations pointerBytes (ir', inside) s).1 := by
  have hbounds := proveArrayBounds_extends inside pointerBytes ir.depth (ir.stmt s).expression h
  have hsub : Extends ir (BodyMark ir outer body iterations pointerBytes inside s) ir' _ :=
    hbounds.mono fun id hid => .inl hid
  have halike := hbounds.alike
  unfold proveBodyStmt
  simp only [h.stmt, h.depth, halike.rangeOf, halike.writes, halike.addsTo, halike.type, halike.right]
  split
  · exact hsub
  split
  · exact hsub
  rename_i hassign
  split
  · exact hsub
  rename_i hadds
  split
  · rename_i hfits
    push Not at hassign hadds
    have hkind : (ir.expr (ir.stmt s).expression).kind = .binary := by
      have hadds := hadds.2
      simp only [addsTo, Bool.and_eq_true, decide_eq_true_eq] at hadds
      exact hadds.1.1.1
    refine hsub.trans ((Extends.mark halike hkind (by decide) (by decide)).mono fun id hid => .inr ⟨hid, ?_⟩)
    exact ⟨hassign.1, hassign.2, hadds.1, hadds.2, hfits.1, hfits.2⟩
  · exact hsub

/-- A mark that is justified by the examination of a loop. -/
def LoopMark (ir : DynIrProgram) (loop : Nat) (outer : RangeLocals) (pointerBytes id : Nat) : Prop :=
  ∃ facts, loopFacts ir loop outer pointerBytes = some facts ∧ ∃ pre s post, ir.body loop = pre ++ s :: post ∧
    BodyMark ir outer (ir.body loop) facts.iterations pointerBytes
      (pre.foldl (bodyRanges ir pointerBytes) facts.inside) s id

theorem proveUnsignedLoop_extends (loop : Nat) (outer : RangeLocals) (pointerBytes : Nat) (h : Alike ir ir') :
    Extends ir (LoopMark ir loop outer pointerBytes) ir' (proveUnsignedLoop ir' loop outer pointerBytes) := by
  unfold proveUnsignedLoop
  rw [h.loopFacts, h.body]
  cases hfacts : loopFacts ir loop outer pointerBytes with
  | none => exact .none h
  | some facts =>
    have hfold := Extends.foldl_facts
      (fun ir' h' inside s => proveBodyStmt_facts outer inside (ir.body loop) facts.iterations pointerBytes s h')
      (fun ir' h' inside s => proveBodyStmt_extends outer inside (ir.body loop) facts.iterations pointerBytes s h')
      h (ir.body loop) facts.inside
    exact hfold.mono fun id hid => ⟨facts, hfacts, hid⟩

/-- A mark that is justified by a loop of a function's body, with the facts that the statements before
the loop lead to. -/
def FunctionMark (ir : DynIrProgram) (pointerBytes : Nat) (fn : DynIrFunction) (id : Nat) : Prop :=
  ∃ pre s post, fn.body ir = pre ++ s :: post ∧ (ir.stmt s).kind = .forStmt ∧
    LoopMark ir s (pre.foldl (carryRanges ir pointerBytes) fn.locals) pointerBytes id

theorem proveFunction_extends (pointerBytes : Nat) (fn : DynIrFunction) (h : Alike ir ir') :
    Extends ir (FunctionMark ir pointerBytes fn) ir' (proveFunction pointerBytes ir' fn) := by
  unfold proveFunction
  split
  · exact .none h
  have hbody : fn.body ir' = fn.body ir := h.block _ _
  rw [hbody]
  have hstep : ∀ ir', Alike ir ir' → ∀ locals s, Extends ir
      (fun id => (ir.stmt s).kind = .forStmt ∧ LoopMark ir s locals pointerBytes id) ir'
      (proveStmt pointerBytes (ir', locals) s).1 := by
    intro ir' h' locals s
    unfold proveStmt
    simp only [h'.carries, h'.stmt]
    split
    · rename_i hloop
      exact (proveUnsignedLoop_extends s locals pointerBytes h').mono fun id hid => ⟨hloop.2, hid⟩
    · exact .none h'
  have hfold := Extends.foldl_facts (g := carryRanges ir pointerBytes)
    (fun ir' h' locals s => h'.carryRanges pointerBytes locals s) hstep h (fn.body ir) fn.locals
  refine hfold.mono fun id hid => ?_
  obtain ⟨pre, s, post, hsplit, hkind, hid⟩ := hid
  exact ⟨pre, s, post, hsplit, hkind, hid⟩

def Marked (ir : DynIrProgram) (pointerBytes id : Nat) : Prop :=
  (ir.expr id).boolean = false ∧ ((proveUnsignedRanges ir pointerBytes).expr id).boolean = true

theorem proveUnsignedRanges_marked {pointerBytes id : Nat} (h : Marked ir pointerBytes id) :
    ∃ fn ∈ ir.functions, FunctionMark ir pointerBytes fn id := by
  have hfunction : ∀ ir', Alike ir ir' → ∀ fn,
      Extends ir (FunctionMark ir pointerBytes fn) ir' (proveFunction pointerBytes ir' fn) :=
    fun ir' h' fn => proveFunction_extends pointerBytes fn h'
  have hfold := Extends.foldl hfunction (Alike.refl ir) ir.functions
  obtain hid | hid := hfold.marked id h.2
  · exact absurd hid (by simp [h.1])
  · exact hid

end Dyn.Ir
