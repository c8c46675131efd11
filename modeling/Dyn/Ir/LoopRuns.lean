import Dyn.Ir.Marking
import Dyn.Ir.RangeSoundness

/-!
# ir: the runs of a counted loop

The body of a loop that the range proofs examine is a list of pure writes to locals.  The facts that
are carried through it describe the state at each of its statements, in each iteration.
-/

namespace Dyn.Ir

open List Function

variable {ir : DynIrProgram} {pointerBytes : Nat}

theorem Knows.write {locals : RangeLocals} {σ : State} (h : Knows ir pointerBytes locals σ) {x v : Nat}
    {r : UIntRange} (hx : rangeHasLocal locals x = true)
    (hr : r.Covers pointerBytes (ir.locals.getD x .void) v) :
    Knows ir pointerBytes (locals.set x r) (update σ x v) := by
  intro y hy
  rw [RangeLocals.has_set] at hy
  by_cases hyx : y = x
  · subst hyx
    rw [RangeLocals.get_set_self r hx]
    simpa using hr
  · rw [RangeLocals.get_set_of_ne r hx hy hyx]
    simpa [hyx] using h y hy

variable {locals : RangeLocals} {σ : State} {es : List Event} {id : Nat} {outer : RangeLocals}

variable {x s v loop : Nat} {inside : RangeLocals} {σ' : State}

theorem Knows.write_untracked (h : Knows ir pointerBytes locals σ) (v : Nat)
    (hx : ¬ rangeHasLocal locals x = true) : Knows ir pointerBytes locals (update σ x v) :=
  Lib.Describes.write h (fun _ _ => rfl) fun htracked => absurd htracked hx

theorem Knows.set (h : Knows ir pointerBytes locals σ) {r : UIntRange}
    (hx : rangeHasLocal locals x = true) (hr : r.Covers pointerBytes (ir.locals.getD x .void) (σ x)) :
    Knows ir pointerBytes (locals.set x r) σ := by
  simpa using h.write hx hr

theorem Knows.forget (h : Knows ir pointerBytes locals σ) (x : Nat)
    (hx : rangeHasLocal locals x = true) : Knows ir pointerBytes (locals.set x {}) σ :=
  h.set hx (UIntRange.covers_unknown _ _ _)

theorem knows_clear (locals : RangeLocals) (σ : State) : Knows ir pointerBytes locals.clear σ :=
  Lib.Describes.of_top fun x _ v => by
    rw [RangeLocals.get_clear]
    exact UIntRange.covers_unknown _ _ _

/-- The facts that are kept are kept of locals. -/
def Tracked (locals : RangeLocals) : Prop := ∀ x, rangeHasLocal locals x = true → x ≠ noLocal

/-- The fact that a statement makes about the local that it writes. -/
theorem Knows.store (hwt : WellTyped ir pointerBytes) (h : Knows ir pointerBytes locals σ)
    (hs : writesLocal (ir.stmt s) = true)
    (hpure : rangePure ir ir.depth (ir.stmt s).expression = true)
    (hv : Eval ir pointerBytes (ir.stmt s).expression σ es (some (v, σ)))
    (hx : rangeHasLocal locals (ir.stmt s).localId = true) (hlocal : (ir.stmt s).localId ≠ noLocal) :
    Knows ir pointerBytes
      (locals.set (ir.stmt s).localId (ir.rangeOf locals pointerBytes (ir.stmt s).expression))
      (Ir.store σ (ir.stmt s).localId v) := by
  rw [Ir.store, if_neg hlocal]
  refine h.write hx ?_
  rw [getD_eq_getElem?_getD, hwt.written s hs hlocal]
  exact rangeOf_covers hwt h hpure hv

/-- A statement that writes a pure value to a local. -/
structure PureWrite (ir : DynIrProgram) (s : Nat) : Prop where
  kind : (ir.stmt s).kind = .localStmt ∨ (ir.stmt s).kind = .assignStmt
  writes : writesLocal (ir.stmt s) = true
  pure : rangePure ir ir.depth (ir.stmt s).expression = true

theorem hasExpr_of_rangePure {fuel id : Nat} (h : rangePure ir fuel id = true) : ir.hasExpr id = true := by
  cases fuel with
  | zero => cases h
  | succ fuel => exact (rangePure_parts h).1

theorem ne_noExpr_of_hasExpr (h : ir.hasExpr id = true) : id ≠ noExpr := by
  simp only [DynIrProgram.hasExpr, decide_eq_true_eq] at h
  exact h.1

theorem pureWrite_of_simple (h : simpleLoopBody ir loop = true) (hs : s ∈ ir.body loop) :
    PureWrite ir s := by
  have hone := all_eq_true.mp h s hs
  dsimp only at hone
  split_ifs at hone with hlocal hassign
  · have hno := ne_noExpr_of_hasExpr (hasExpr_of_rangePure hone)
    exact ⟨.inl hlocal, by simp [writesLocal, hlocal, hno], hone⟩
  simp only [Bool.and_eq_true, decide_eq_true_eq] at hone
  have hno := ne_noExpr_of_hasExpr (hasExpr_of_rangePure hone.2)
  exact ⟨.inr hassign, by simp [writesLocal, hassign, hone.1, hno], hone.2⟩

/-- The run of a pure write: its checks are on values of the state before it. -/
theorem PureWrite.run (hs : PureWrite ir s) {out : Outcome}
    (h : Run ir pointerBytes (.stmt s) σ es out) :
    (∀ ev ∈ es, Within ir (ir.stmt s).expression ev.id ∧ ev.Grounded ir pointerBytes σ) ∧
    (out = .stop ∨ ∃ v es, Eval ir pointerBytes (ir.stmt s).expression σ es (some (v, σ)) ∧
      out = .next (store σ (ir.stmt s).localId v)) := by
  have hloop : plainLoop (ir.stmt s) = false := by
    obtain hkind | hkind := hs.kind <;> simp [plainLoop, hkind]
  cases h with
  | stop => exact ⟨nofun, .inl rfl⟩
  | writeStop _ h => exact ⟨(eval_pure (Nat.le_refl _) hs.pure h).2, .inl rfl⟩
  | write _ h =>
    cases h.state_eq hs.pure
    exact ⟨(eval_pure (Nat.le_refl _) hs.pure h).2, .inr ⟨_, _, h, rfl⟩⟩
  | loop hl h => exact absurd hl (by simp [hloop])
  | other hw hl hes => exact absurd hs.writes (by simp [hw])

/-- The states agree on the locals that the statements do not write. -/
def Agrees (ir : DynIrProgram) (l : List Nat) (σ σ' : State) : Prop :=
  ∀ x, (∀ s ∈ l, (ir.stmt s).localId ≠ x) → σ' x = σ x

theorem Agrees.cons {s v : Nat} {l : List Nat} {σ σ' : State}
    (h : Agrees ir l (store σ (ir.stmt s).localId v) σ') : Agrees ir (s :: l) σ σ' := by
  intro x hx
  have hs := hx s (by simp)
  rw [h x fun u hu => hx u (by simp [hu])]
  unfold store
  split
  · rfl
  · exact update_of_ne (Ne.symm hs) _ _

theorem bodyRanges_has (inside : RangeLocals) (s x : Nat) :
    rangeHasLocal (bodyRanges ir pointerBytes inside s) x = rangeHasLocal inside x := by
  unfold bodyRanges
  dsimp only
  split_ifs <;> simp

theorem foldl_bodyRanges_has (l : List Nat) (inside : RangeLocals) (x : Nat) :
    rangeHasLocal (l.foldl (bodyRanges ir pointerBytes) inside) x = rangeHasLocal inside x := by
  induction l generalizing inside with
  | nil => rfl
  | cons s l ih => rw [foldl_cons, ih, bodyRanges_has]

/-- The facts after a statement of the body describe the state after it. -/
theorem Knows.bodyStep (hwt : WellTyped ir pointerBytes) (htracked : Tracked inside)
    (h : Knows ir pointerBytes inside σ) (hs : PureWrite ir s)
    (hv : Eval ir pointerBytes (ir.stmt s).expression σ es (some (v, σ))) :
    Knows ir pointerBytes (bodyRanges ir pointerBytes inside s) (Ir.store σ (ir.stmt s).localId v) := by
  unfold bodyRanges
  dsimp only
  split
  · rename_i hlocal
    exact h.store hwt hs.writes hs.pure hv hlocal.2 (htracked _ hlocal.2)
  rename_i hlocal
  split
  · rename_i hassign
    -- the local is not tracked
    have hx : ¬ rangeHasLocal inside (ir.stmt s).localId = true := by
      intro hx
      obtain hkind | hkind := hs.kind
      · exact hlocal ⟨hkind, hx⟩
      · simp [hkind, hx] at hassign
    unfold Ir.store
    split
    · exact h
    · exact h.write_untracked v hx
  · rename_i hassign
    push Not at hassign
    rw [Ir.store, if_neg (htracked _ hassign.2)]
    exact h.write hassign.2 (UIntRange.covers_unknown _ _ _)

/-- The run of the rest of a body: each check is made in a state that the facts at its statement
describe, and where the run goes on, so is each write. -/
theorem body_run (hwt : WellTyped ir pointerBytes) (htracked : Tracked inside) {l : List Nat}
    (hl : ∀ s ∈ l, PureWrite ir s) {out : Outcome} (hknows : Knows ir pointerBytes inside σ)
    (h : Run ir pointerBytes (.block l) σ es out) :
    (∀ ev ∈ es, ∃ pre s post σs, l = pre ++ s :: post ∧ Agrees ir pre σ σs ∧
      Knows ir pointerBytes (pre.foldl (bodyRanges ir pointerBytes) inside) σs ∧
      Within ir (ir.stmt s).expression ev.id ∧ ev.Grounded ir pointerBytes σs) ∧
    (out = .stop ∨ ∃ σ', out = .next σ' ∧ Agrees ir l σ σ' ∧ ∀ pre s post, l = pre ++ s :: post →
      ∃ σs v es, Agrees ir pre σ σs ∧ Knows ir pointerBytes (pre.foldl (bodyRanges ir pointerBytes) inside) σs ∧
        Eval ir pointerBytes (ir.stmt s).expression σs es (some (v, σs)) ∧
        Agrees ir post (store σs (ir.stmt s).localId v) σ') := by
  induction l generalizing inside σ es out with
  | nil =>
    cases h with
    | stop => exact ⟨nofun, .inl rfl⟩
    | nil =>
      exact ⟨nofun, .inr ⟨σ, rfl, fun _ _ => rfl, fun pre s post hl => by cases pre <;> cases hl⟩⟩
    | deferred h hs hkind hes => cases hs
  | cons s l ih =>
    have hs := hl s (by simp)
    have hrest := fun u hu => hl u (mem_cons_of_mem s hu)
    cases h with
    | stop => exact ⟨nofun, .inl rfl⟩
    | deferred h hd hkind hes =>
      obtain hk | hk := (hl _ hd).kind <;> simp [hk] at hkind
    | ended h hout =>
      obtain ⟨hevents, hstop | ⟨v, es, -, hnext⟩⟩ := hs.run h
      · refine ⟨fun ev hev => ⟨[], s, l, σ, rfl, fun _ _ => rfl, hknows, hevents ev hev⟩, .inl hstop⟩
      · exact absurd hnext (hout _)
    | step h h' =>
      obtain ⟨hevents, hstop | ⟨v, es, hv, hnext⟩⟩ := hs.run h
      · cases hstop
      cases hnext
      have hstep := hknows.bodyStep hwt htracked hs hv
      have htracked' : Tracked (bodyRanges ir pointerBytes inside s) := by
        intro x hx
        rw [bodyRanges_has] at hx
        exact htracked x hx
      obtain ⟨hevents', hout⟩ := ih htracked' hrest hstep h'
      refine ⟨fun ev hev => ?_, ?_⟩
      · obtain hev | hev := mem_append.mp hev
        · exact ⟨[], s, l, σ, rfl, fun _ _ => rfl, hknows, hevents ev hev⟩
        · obtain ⟨pre, u, post, σu, hsplit, hagrees, hfacts, hcheck⟩ := hevents' ev hev
          exact ⟨s :: pre, u, post, σu, by rw [hsplit]; rfl, hagrees.cons, hfacts, hcheck⟩
      obtain hstop | ⟨σ', hnext, hagrees, hwrites⟩ := hout
      · exact .inl hstop
      refine .inr ⟨σ', hnext, hagrees.cons, fun pre u post hsplit => ?_⟩
      cases pre with
      | nil =>
        cases hsplit
        exact ⟨σ, v, es, fun _ _ => rfl, hknows, hv, hagrees⟩
      | cons first pre =>
        cases hsplit
        obtain ⟨σu, w, es', hpre, hfacts, hw, hpost⟩ := hwrites pre u post rfl
        exact ⟨σu, w, es', hpre.cons, hfacts, hw, hpost⟩

theorem eval_name (hkind : (ir.expr id).kind = .name)
    (h : Eval ir pointerBytes id σ es (some (v, σ'))) :
    v = σ (ir.expr id).integer.toNat ∧ σ' = σ := by
  cases h with
  | name => exact ⟨rfl, rfl⟩
  | other hother => exact absurd hother (by simp [hkind])
  | _ => simp_all

theorem eval_binary (hkind : (ir.expr id).kind = .binary)
    (hop : (ir.expr id).op ≠ .logicalAnd ∧ (ir.expr id).op ≠ .logicalOr)
    (h : Eval ir pointerBytes id σ es (some (v, σ'))) : ∃ a b σ1 es1 es2,
      Eval ir pointerBytes (ir.expr id).left σ es1 (some (a, σ1)) ∧
      Eval ir pointerBytes (ir.expr id).right σ1 es2 (some (b, σ')) ∧
      Computes pointerBytes (ir.expr id) (ir.expr (ir.expr id).left).type a b v := by
  cases h with
  | checked _ h h' hout =>
    obtain ⟨rfl, hresults⟩ := hout _ _ rfl
    rw [operands_of_binary hkind] at h h'
    simp only [Results, hkind, reduceCtorEq, if_false] at hresults
    exact ⟨_, _, _, _, _, h, h', hresults⟩
  | skip _ hskip => obtain ⟨hskip, -⟩ | ⟨hskip, -⟩ := hskip <;> simp [hskip] at hop
  | other hother => exact absurd hother (by simp [hkind])
  | _ => simp_all

theorem addsTo_parts {id x : Nat} (h : addsTo ir id x = true) : (ir.expr id).kind = .binary ∧ (ir.expr id).op = .add ∧
    (ir.expr (ir.expr id).left).kind = .name ∧ (ir.expr (ir.expr id).left).integer.toNat = x := by
  simp only [addsTo, Bool.and_eq_true, decide_eq_true_eq] at h
  tauto

/-- The value of a sum that is added to the local `x`: at most the sum, and exactly where that fits. -/
theorem eval_addsTo (hadds : addsTo ir id x = true)
    (hunsigned : unsignedType (ir.expr id).type = true)
    (h : Eval ir pointerBytes id σ es (some (v, σ))) :
    ∃ b es', Eval ir pointerBytes (ir.expr id).right σ es' (some (b, σ)) ∧
      v ≤ σ x + b ∧ (σ x + b ≤ unsignedMax (ir.expr id).type pointerBytes → v = σ x + b) := by
  obtain ⟨hkind, hop, hname, hx⟩ := addsTo_parts hadds
  obtain ⟨a, b, σ1, es1, es2, hleft, hright, hcomputes⟩ := eval_binary hkind (by simp [hop]) h
  obtain ⟨rfl, rfl⟩ := eval_name hname hleft
  rw [hx] at hcomputes
  have hinteger : integerType (ir.expr id).type = true := by simp [integerType, hunsigned]
  have hmax := unsignedMax_le (ir.expr id).type pointerBytes
  unfold uint64Max at hmax
  refine ⟨b, es2, hright, ?_⟩
  by_cases hwrap : (ir.expr id).wrap = true
  · have hv : v = (((σ1 x : Int) + b) % 2 ^ 64).toNat % (unsignedMax (ir.expr id).type pointerBytes + 1) := by
      simpa [Computes, hop, Arithmetic, hinteger, hwrap, normalize, hunsigned] using hcomputes
    have hsum : (((σ1 x : Int) + b) % 2 ^ 64).toNat = (σ1 x + b) % 2 ^ 64 := by omega
    rw [hsum] at hv
    have hle := Nat.mod_le ((σ1 x + b) % 2 ^ 64) (unsignedMax (ir.expr id).type pointerBytes + 1)
    refine ⟨by omega, fun hfits => ?_⟩
    rw [hv, Nat.mod_eq_of_lt (by omega), Nat.mod_eq_of_lt (by omega)]
  simp only [Computes, hop] at hcomputes
  have hsum := (arithmetic_eq (Int.natCast_add _ _).symm (asSigned_add _ _) hinteger (by simpa using hwrap)
    hcomputes).2 hunsigned
  exact ⟨Nat.le_of_eq hsum.1, fun _ => hsum.1⟩

/-- What the checks on a loop establish: the local `x` is counted from `start` to `bound`. -/
structure Counted (ir : DynIrProgram) (pointerBytes loop : Nat) (outer : RangeLocals) (facts : LoopFacts)
    (x : Nat) (start bound : UIntRange) (inclusive : Prop) [Decidable inclusive] : Prop where
  plain : (ir.stmt loop).forRange = false
  present : (ir.stmt loop).expression ≠ noExpr
  simple : simpleLoopBody ir loop = true
  kind : (ir.expr (ir.stmt loop).expression).kind = .binary
  op : (ir.expr (ir.stmt loop).expression).op = if inclusive then .le else .lt
  name : (ir.expr (ir.expr (ir.stmt loop).expression).left).kind = .name
  left : (ir.expr (ir.expr (ir.stmt loop).expression).left).integer.toNat = x
  known : rangeHasLocal outer x = true
  unsigned : unsignedType (ir.expr (ir.expr (ir.stmt loop).expression).left).type = true
  bound_eq : bound = ir.rangeOf (forgetWritten ir outer (ir.body loop)) pointerBytes
    (ir.expr (ir.stmt loop).expression).right
  bound_exact : bound.exact = true
  start_eq : start = outer.get x
  start_exact : start.exact = true
  start_le : start.value ≤ bound.value
  open_bound : inclusive →
    bound.value < unsignedMax (ir.expr (ir.expr (ir.stmt loop).expression).left).type pointerBytes
  iterations : facts.iterations = (bound.value - start.value + if inclusive then 1 else 0) % 2 ^ 64
  once : writes ir (ir.body loop) x = 1
  last : ∃ pre last, ir.body loop = pre ++ [last] ∧ (ir.stmt last).kind = .assignStmt ∧ (ir.stmt last).localId = x ∧
    addsTo ir (ir.stmt last).expression x = true ∧
    (ir.rangeOf (forgetWritten ir outer (ir.body loop)) pointerBytes (ir.expr (ir.stmt last).expression).right).exact = true ∧
    (ir.rangeOf (forgetWritten ir outer (ir.body loop)) pointerBytes (ir.expr (ir.stmt last).expression).right).value = 1
  inside : facts.inside = (forgetWritten ir outer (ir.body loop)).set x
    ⟨true, false, if inclusive then bound.value else bound.value - 1, 0⟩

theorem counted_of_loopFacts
    (hids : ∀ id, (ir.expr id).kind = .name → (ir.expr id).integer.toNat < 2 ^ 32)
    {facts : LoopFacts} (h : loopFacts ir loop outer pointerBytes = some facts) :
    ∃ x start bound, Counted ir pointerBytes loop outer facts x start bound
      ((ir.expr (ir.stmt loop).expression).op = .le) := by
  simp only [loopFacts, Option.ite_none_left_eq_some] at h
  obtain ⟨hplain, hcondition, hinduction, hexact, hopen, honce, h⟩ := h
  push Not at hplain hcondition hinduction hexact hopen honce
  have hid : (ir.expr (ir.expr (ir.stmt loop).expression).left).integer.toNat % 2 ^ 32
      = (ir.expr (ir.expr (ir.stmt loop).expression).left).integer.toNat := Nat.mod_eq_of_lt (hids _ hinduction.1)
  rw [hid] at h honce hexact
  cases hlast : (ir.body loop).getLast? with
  | none =>
    rw [hlast] at h
    cases h
  | some last =>
    simp only [hlast, Option.ite_none_left_eq_some, Option.some.injEq] at h
    obtain ⟨hassign, hadds, hone, rfl⟩ := h
    push Not at hassign hone
    obtain ⟨pre, hbody⟩ := getLast?_eq_some_iff.mp hlast
    exact ⟨_, _, _,
      { plain := by simpa using hplain.1
        present := hplain.2.1
        simple := hplain.2.2
        kind := hcondition.1
        op := by
          split
          · assumption
          rename_i hle
          by_contra hlt
          exact hle (hcondition.2 hlt)
        name := hinduction.1
        left := rfl
        known := hinduction.2.1
        unsigned := hinduction.2.2
        bound_eq := rfl
        bound_exact := hexact.1
        start_eq := rfl
        start_exact := hexact.2.1
        start_le := by
          omega
        open_bound := fun h => by
          have hlt := hopen h
          omega
        iterations := rfl
        once := honce
        last := ⟨pre, last, hbody, hassign.1, hassign.2, not_not.mp hadds, hone.1, hone.2⟩
        inside := rfl }⟩

theorem forgetWritten_has (l : List Nat) (outer : RangeLocals) (x : Nat) :
    rangeHasLocal (forgetWritten ir outer l) x = rangeHasLocal outer x := by
  unfold forgetWritten
  induction l generalizing outer with
  | nil => rfl
  | cons s l ih =>
    rw [foldl_cons, ih]
    split <;> simp

theorem forgetWritten_get (ir : DynIrProgram) (l : List Nat) (hx : rangeHasLocal outer x = true) :
    (forgetWritten ir outer l).get x = {} ∨
      (forgetWritten ir outer l).get x = outer.get x ∧ ∀ s ∈ l, (ir.stmt s).localId ≠ x := by
  unfold forgetWritten
  induction l generalizing outer with
  | nil => exact .inr ⟨rfl, nofun⟩
  | cons s l ih =>
    rw [foldl_cons]
    by_cases hs : (ir.stmt s).localId = x
    · subst hs
      rw [if_pos hx]
      have hset : rangeHasLocal (outer.set (ir.stmt s).localId {}) (ir.stmt s).localId = true := by simpa using hx
      obtain hforgot | ⟨hkept, -⟩ := ih hset
      · exact .inl hforgot
      · rw [RangeLocals.get_set_self _ hx] at hkept
        exact .inl hkept
    have hstep : ∀ inside : RangeLocals, inside = (if rangeHasLocal outer (ir.stmt s).localId = true then
        outer.set (ir.stmt s).localId {} else outer) →
        rangeHasLocal inside x = true ∧ inside.get x = outer.get x := by
      intro inside hinside
      split at hinside
      · rename_i hknown
        rw [hinside]
        exact ⟨by simpa using hx, RangeLocals.get_set_of_ne _ hknown hx (Ne.symm hs)⟩
      · rw [hinside]
        exact ⟨hx, rfl⟩
    obtain ⟨hhas, hget⟩ := hstep _ rfl
    obtain hforgot | ⟨hkept, hrest⟩ := ih hhas
    · exact .inl hforgot
    rw [hget] at hkept
    refine .inr ⟨hkept, fun u hu => ?_⟩
    obtain rfl | hu := mem_cons.mp hu
    · exact hs
    · exact hrest u hu

/-- The facts without the locals that the body writes are true in every iteration. -/
theorem Knows.forgetWritten (h : Knows ir pointerBytes outer σ) (l : List Nat) :
    Knows ir pointerBytes (forgetWritten ir outer l) σ := by
  intro x hx
  rw [forgetWritten_has] at hx
  obtain hforgot | ⟨hkept, -⟩ := forgetWritten_get ir l hx
  · rw [hforgot]
    exact UIntRange.covers_unknown _ _ _
  · rw [hkept]
    exact h x hx

theorem Knows.agrees {l l' : List Nat} (h : Knows ir pointerBytes (Ir.forgetWritten ir outer l) σ)
    (hagrees : Agrees ir l' σ σ') (hsub : l' ⊆ l) :
    Knows ir pointerBytes (Ir.forgetWritten ir outer l) σ' := by
  refine Lib.Describes.step h fun x hx => ?_
  rw [forgetWritten_has] at hx
  obtain hforgot | ⟨-, hrest⟩ := forgetWritten_get ir l hx
  · rw [hforgot]
    exact .inl (UIntRange.covers_unknown _ _ _)
  · exact .inr ⟨rfl, hagrees x fun s hs => hrest s (hsub hs)⟩

namespace Counted

variable {loop x : Nat} {outer : RangeLocals} {facts : LoopFacts} {start bound : UIntRange} {inclusive : Prop}
  [Decidable inclusive]

theorem condition (hc : Counted ir pointerBytes loop outer facts x start bound inclusive)
    (hwt : WellTyped ir pointerBytes) {σ σ' : State}
    (hknows : Knows ir pointerBytes (forgetWritten ir outer (ir.body loop)) σ) {v : Nat} {es : List Event}
    (h : Eval ir pointerBytes (ir.stmt loop).expression σ es (some (v, σ'))) :
    σ' = σ ∧ (v ≠ 0 → (if inclusive then σ x ≤ bound.value else σ x < bound.value) ∧
      bound.value ≤ unsignedMax (ir.expr (ir.expr (ir.stmt loop).expression).left).type pointerBytes) := by
  have hop := hc.op
  obtain ⟨a, b, σ1, es1, es2, hleft, hright, hcomputes⟩ :=
    eval_binary hc.kind (by rw [hop]; split <;> simp) h
  obtain ⟨rfl, rfl⟩ := eval_name hc.name hleft
  rw [hc.left] at hcomputes
  have hexact := hc.bound_exact
  rw [hc.bound_eq] at hexact
  have hpure := rangePure_of_exact hexact
  have hcovers := rangeOf_covers hwt hknows hpure hright
  obtain ⟨hvalid, hvalue⟩ := hcovers.exact hexact
  rw [← hc.bound_eq] at hvalue
  refine ⟨hright.state_eq hpure, fun hv => ⟨?_, ?_⟩⟩
  · by_cases hinclusive : inclusive
    · simp only [hinclusive, if_true] at hop ⊢
      simp only [Computes, hop, Comparison, hc.unsigned, if_true] at hcomputes
      by_contra hnot
      rw [hvalue] at hcomputes
      simp [hnot, hcomputes] at hv
    simp only [hinclusive, if_false] at hop ⊢
    simp only [Computes, hop, Comparison, hc.unsigned, if_true] at hcomputes
    by_contra hnot
    rw [hvalue] at hcomputes
    simp [hnot, hcomputes] at hv
  · have htypes := hwt.comparison _ hc.kind (by rw [hop]; split <;> simp)
    have hfits := (hcovers.valid hvalid).2.2
    rw [hvalue, ← htypes] at hfits
    exact hfits hc.unsigned

/-- The condition holds: the counted local is below the bound, and the facts are true. -/
structure Entered (ir : DynIrProgram) (pointerBytes loop x : Nat) (facts : LoopFacts) (bound : UIntRange)
    (inclusive : Prop) [Decidable inclusive] (σ : State) : Prop where
  knows : Knows ir pointerBytes facts.inside σ
  below : if inclusive then σ x ≤ bound.value else σ x < bound.value
  fits : bound.value ≤ unsignedMax (ir.expr (ir.expr (ir.stmt loop).expression).left).type pointerBytes

variable (hc : Counted ir pointerBytes loop outer facts x start bound inclusive)
include hc

theorem entered (hwt : WellTyped ir pointerBytes) {σ σ' : State}
    (hknows : Knows ir pointerBytes (forgetWritten ir outer (ir.body loop)) σ) {es : List Event}
    (h : Enters ir pointerBytes loop σ es σ') :
    σ' = σ ∧ Entered ir pointerBytes loop x facts bound inclusive σ := by
  rw [Enters, if_neg hc.present] at h
  obtain ⟨v, hv, heval⟩ := h
  obtain ⟨hstate, htrue⟩ := hc.condition hwt hknows heval
  obtain ⟨hbelow, hfits⟩ := htrue hv
  refine ⟨hstate, ?_, hbelow, hfits⟩
  rw [hc.inside]
  refine hknows.set (by rw [forgetWritten_has]; exact hc.known) ⟨fun _ => ?_, nofun⟩
  have htype := hwt.name _ hc.name
  rw [hc.left] at htype
  rw [getD_eq_getElem?_getD, htype, Option.getD_some]
  refine ⟨scalarType_of_unsigned hc.unsigned, ?_, fun _ => ?_⟩
  · dsimp only
    split_ifs at hbelow ⊢ <;> omega
  · split_ifs at hbelow <;> omega

theorem tracked (houter : Tracked outer) :
    Tracked facts.inside := by
  intro y hy
  rw [hc.inside, RangeLocals.has_set, forgetWritten_has] at hy
  exact houter y hy

/-- The run of a counted loop: what the body keeps in every iteration is true of every check. -/
theorem loop_run (hwt : WellTyped ir pointerBytes) {J : State → Prop} {P : Event → Prop}
    (hknows : ∀ σ, J σ → Knows ir pointerBytes (forgetWritten ir outer (ir.body loop)) σ)
    (hcondition : ∀ σ es out, Eval ir pointerBytes (ir.stmt loop).expression σ es out → ∀ ev ∈ es, P ev)
    (hbody : ∀ σ es out, J σ → Entered ir pointerBytes loop x facts bound inclusive σ →
      Run ir pointerBytes (.block (ir.body loop)) σ es out →
      (∀ ev ∈ es, P ev) ∧ (out = .stop ∨ ∃ σ', out = .next σ' ∧ J σ'))
    {σ : State} {es : List Event} {out : Outcome} (hσ : J σ) (h : Run ir pointerBytes (.loop loop) σ es out) :
    ∀ ev ∈ es, P ev := by
  generalize hcode : Code.loop loop = code at h
  induction h with
  | stop => exact nofun
  | conditionStop _ h | exit _ h =>
    cases hcode
    exact hcondition _ _ _ h
  | @bodyStop s σ σ' es es' hs h =>
    cases hcode
    obtain ⟨hstate, hentered⟩ := hc.entered hwt (hknows _ hσ) hs
    subst hstate
    rw [Enters, if_neg hc.present] at hs
    obtain ⟨v, -, heval⟩ := hs
    intro ev hev
    obtain hev | hev := mem_append.mp hev
    · exact hcondition _ _ _ heval ev hev
    · exact (hbody _ _ _ hσ hentered h).1 ev hev
  | @bodyLeave s σ σ' σ'' es es' out hs h hout =>
    cases hcode
    obtain ⟨hstate, hentered⟩ := hc.entered hwt (hknows _ hσ) hs
    subst hstate
    obtain hstop | ⟨τ, hnext, -⟩ := (hbody _ _ _ hσ hentered h).2
    · cases hstop
    · cases hnext
  | @again s σ σ' σ'' es es' es'' out out' hs h hout h' _ ih =>
    cases hcode
    obtain ⟨hstate, hentered⟩ := hc.entered hwt (hknows _ hσ) hs
    subst hstate
    rw [Enters, if_neg hc.present] at hs
    obtain ⟨v, -, heval⟩ := hs
    obtain ⟨hevents, hstop | ⟨τ, hnext, hτ⟩⟩ := hbody _ _ _ hσ hentered h
    · subst hstop
      obtain hout | hout := hout <;> cases hout
    subst hnext
    obtain hout | hout := hout
    · cases hout
      intro ev hev
      simp only [mem_append] at hev
      obtain (hev | hev) | hev := hev
      · exact hcondition _ _ _ heval ev hev
      · exact hevents ev hev
      · exact ih hτ rfl ev hev
    · cases hout
  | _ => cases hcode

end Counted

/-- The check of a marked expression holds. -/
def Event.Sound (ir : DynIrProgram) (pointerBytes : Nat) : Event → Prop
  | .index id i => (ir.expr (ir.expr id).left).type.isArray = true ∧ i < ir.arrayLength (ir.expr (ir.expr id).left).type
  | .add id l r => unsignedType (ir.expr id).type = true ∧ l + r ≤ unsignedMax (ir.expr id).type pointerBytes

/-- The expression stands in the body of the loop at the statement `s` behind `pre` and nowhere else. -/
def StandsAt (ir : DynIrProgram) (loop : Nat) (pre : List Nat) (s id : Nat) : Prop :=
  ¬ Within ir (ir.stmt loop).expression id ∧
    ∀ pre' s' post', ir.body loop = pre' ++ s' :: post' → Within ir (ir.stmt s').expression id → pre' = pre ∧ s' = s

theorem sound_of_boundsMark (hwt : WellTyped ir pointerBytes) {root : Nat}
    (hmark : BoundsMark ir inside pointerBytes root id) (hknows : Knows ir pointerBytes inside σ)
    {ev : Event} (hid : ev.id = id) (hev : ev.Grounded ir pointerBytes σ) :
    ev.Sound ir pointerBytes := by
  cases ev with
  | index id' i =>
    cases hid
    obtain ⟨-, hpure, es, hvalue⟩ := hev
    have hle := ((rangeOf_covers hwt hknows hpure hvalue).valid hmark.valid).2.1
    exact ⟨hmark.array, Nat.lt_of_le_of_lt hle hmark.below⟩
  | add id' l r =>
    cases hid
    have hbinary : (ir.expr id').kind = .binary := hev.1
    have hindex : (ir.expr id').kind = .index := hmark.kind
    rw [hindex] at hbinary
    cases hbinary

/-- The statement that writes a local is the only one in the body. -/
theorem only_writer {pre post : List Nat} (hsimple : simpleLoopBody ir loop = true)
    (hbody : ir.body loop = pre ++ s :: post) (hkind : (ir.stmt s).kind = .assignStmt)
    (honce : writes ir (ir.body loop) (ir.stmt s).localId = 1)
    (hscoped : ∀ t ∈ ir.body loop, (ir.stmt t).kind = .localStmt → (ir.stmt t).localId ≠ (ir.stmt s).localId)
    :
    ∀ t ∈ pre ++ post, (ir.stmt t).localId ≠ (ir.stmt s).localId := by
  intro t ht hlocal
  have hmem : t ∈ ir.body loop := by
    rw [hbody]
    simp only [mem_append, mem_cons] at ht ⊢
    tauto
  obtain hk | hk := (pureWrite_of_simple hsimple hmem).kind
  · exact hscoped t hmem hk hlocal
  have hcount : 0 < (pre ++ post).countP fun u =>
      (ir.stmt u).kind = .assignStmt ∧ (ir.stmt u).localId = (ir.stmt s).localId :=
    countP_pos_iff.mpr ⟨t, ht, by simp [hk, hlocal]⟩
  rw [writes, hbody, countP_append, countP_cons] at honce
  rw [countP_append] at hcount
  simp only [hkind, and_self, decide_true, if_true] at honce
  omega

theorem growthFits_bound {limit iterations : Nat} {initial step : UIntRange}
    (h : growthFits limit iterations initial step = true) :
    initial.valid = true ∧ step.valid = true ∧ initial.max + step.max * iterations ≤ limit := by
  simp only [growthFits, Bool.and_eq_true, Bool.or_eq_true, decide_eq_true_eq] at h
  obtain ⟨⟨⟨⟨hinitial, hstep⟩, hproduct⟩, hmax⟩, hgrowth⟩ := h
  have hsmall : step.max * iterations ≤ uint64Max := by
    obtain hzero | hdiv := hproduct
    · simp [hzero]
    · exact Nat.le_trans (Nat.mul_le_mul_right _ hdiv) (Nat.div_mul_le_self _ _)
  rw [Nat.mod_eq_of_lt (by unfold uint64Max at hsmall; omega)] at hgrowth
  exact ⟨hinitial, hstep, by omega⟩

namespace Counted

variable {loop x : Nat} {outer : RangeLocals} {facts : LoopFacts} {start bound : UIntRange} {inclusive : Prop}
  [Decidable inclusive]

variable {σ : State} {es : List Event}

variable {out : Outcome} {pre : List Nat} {s : Nat}
  (hc : Counted ir pointerBytes loop outer facts x start bound inclusive)
include hc

theorem body_events (hwt : WellTyped ir pointerBytes) (houter : Tracked outer)
    (hσ : Entered ir pointerBytes loop x facts bound inclusive σ)
    (h : Run ir pointerBytes (.block (ir.body loop)) σ es out) {id : Nat}
    (hplace : StandsAt ir loop pre s id) : ∀ ev ∈ es, ev.id = id → ∃ σs, Agrees ir pre σ σs ∧
      Knows ir pointerBytes (pre.foldl (bodyRanges ir pointerBytes) facts.inside) σs ∧
      ev.Grounded ir pointerBytes σs := by
  intro ev hev hid
  obtain ⟨hevents, -⟩ := body_run hwt (hc.tracked houter) (fun t ht => pureWrite_of_simple hc.simple ht) hσ.knows h
  obtain ⟨pre', s', post', σs, hsplit, hagrees, hknows, hwithin, hground⟩ := hevents ev hev
  rw [hid] at hwithin
  obtain ⟨rfl, rfl⟩ := hplace.2 pre' s' post' hsplit hwithin
  exact ⟨σs, hagrees, hknows, hground⟩

theorem index_sound (hwt : WellTyped ir pointerBytes) (houter : Tracked outer)
    (hcondition : ∀ σ es out, Eval ir pointerBytes (ir.stmt loop).expression σ es out →
      ∀ ev ∈ es, Within ir (ir.stmt loop).expression ev.id) {id : Nat}
    (hplace : StandsAt ir loop pre s id)
    (hmark : BoundsMark ir (pre.foldl (bodyRanges ir pointerBytes) facts.inside) pointerBytes (ir.stmt s).expression id)
    (hσ : Knows ir pointerBytes outer σ) (h : Run ir pointerBytes (.loop loop) σ es out) :
    ∀ ev ∈ es, ev.id = id → ev.Sound ir pointerBytes := by
  refine hc.loop_run (J := Knows ir pointerBytes (forgetWritten ir outer (ir.body loop))) hwt (fun _ h => h) ?_ ?_
    (hσ.forgetWritten (ir.body loop)) h
  · intro σ es out h ev hev hid
    have hwithin := hcondition σ es out h ev hev
    rw [hid] at hwithin
    exact absurd hwithin hplace.1
  intro σ es out hJ hentered hrun
  constructor
  · intro ev hev hid
    obtain ⟨σs, -, hknows, hground⟩ := hc.body_events hwt houter hentered hrun hplace ev hev hid
    exact sound_of_boundsMark hwt hmark hknows hid hground
  obtain ⟨-, hout⟩ :=
    body_run hwt (hc.tracked houter) (fun t ht => pureWrite_of_simple hc.simple ht) hentered.knows hrun
  exact hout.imp_right fun ⟨σ', hnext, hagrees, _⟩ => ⟨σ', hnext, hJ.agrees hagrees (fun _ h => h)⟩

/-- How often the body is run at most, when the condition has held. -/
theorem iterations_eq (hfits : bound.value ≤ unsignedMax (ir.expr (ir.expr (ir.stmt loop).expression).left).type pointerBytes) :
    facts.iterations = bound.value - start.value + if inclusive then 1 else 0 := by
  have hmax := unsignedMax_le (ir.expr (ir.expr (ir.stmt loop).expression).left).type pointerBytes
  have hopen := hc.open_bound
  unfold uint64Max at hmax
  rw [hc.iterations, Nat.mod_eq_of_lt]
  split
  · rename_i hinclusive
    have hlt := hopen hinclusive
    omega
  · omega

theorem count_step (hwt : WellTyped ir pointerBytes) (houter : Tracked outer)
    (hscoped : ∀ t ∈ ir.body loop, (ir.stmt t).kind = .localStmt → (ir.stmt t).localId ≠ x)
    {σ' : State} (hknows : Knows ir pointerBytes (forgetWritten ir outer (ir.body loop)) σ)
    (hσ : Entered ir pointerBytes loop x facts bound inclusive σ)
    (hwrites : ∀ pre s post, ir.body loop = pre ++ s :: post → ∃ σs v es, Agrees ir pre σ σs ∧
      Knows ir pointerBytes (pre.foldl (bodyRanges ir pointerBytes) facts.inside) σs ∧
      Eval ir pointerBytes (ir.stmt s).expression σs es (some (v, σs)) ∧
      Agrees ir post (store σs (ir.stmt s).localId v) σ') : σ' x = σ x + 1 := by
  obtain ⟨pre, last, hbody, hassign, hlocal, hadds, hexact, hone⟩ := hc.last
  obtain ⟨σs, v, es, hpre, -, hvalue, hpost⟩ := hwrites pre last [] hbody
  obtain ⟨hkind, hop, hname, hleft⟩ := addsTo_parts hadds
  -- the sum has the type of the counted local
  have htype : (ir.expr (ir.stmt last).expression).type =
      (ir.expr (ir.expr (ir.stmt loop).expression).left).type := by
    have hdeclared := hwt.name _ hname
    have hdeclared' := hwt.name _ hc.name
    rw [hleft] at hdeclared
    rw [hc.left, hdeclared, Option.some.injEq] at hdeclared'
    rw [← hdeclared', (hwt.operands _ hkind (by simp [hop])).1]
  obtain ⟨b, es', hright, -, hsum⟩ := eval_addsTo hadds (by rw [htype]; exact hc.unsigned) hvalue
  have hcovers := rangeOf_covers hwt (hknows.agrees hpre (by rw [hbody]; simp)) (rangePure_of_exact hexact) hright
  have hb : b = 1 := by rw [(hcovers.exact hexact).2, hone]
  have honly := only_writer hc.simple hbody hassign (by rw [hlocal]; exact hc.once) (by rw [hlocal]; exact hscoped)
  rw [hlocal] at honly
  have hsame : σs x = σ x := hpre x fun t ht => honly t (by simp [ht])
  have hx : x ≠ noLocal := houter x hc.known
  have hfits : σ x + 1 ≤ unsignedMax (ir.expr (ir.stmt last).expression).type pointerBytes := by
    have hbelow := hσ.below
    have hmax := hσ.fits
    rw [htype]
    split_ifs at hbelow with hinclusive
    · have hopen := hc.open_bound hinclusive
      omega
    · omega
  rw [hsame, hb] at hsum
  rw [hpost x nofun, hlocal, store, if_neg hx, update_self]
  exact hsum hfits

omit hc in
/-- The summand of a marked sum is at most its range, in every state at its statement. -/
theorem summand_le (hwt : WellTyped ir pointerBytes) {body : List Nat} {iterations b : Nat}
    {inside : RangeLocals} (hmark : SumMark ir outer body iterations pointerBytes inside s)
    (hpure : rangePure ir ir.depth (ir.stmt s).expression = true)
    (hknows : Knows ir pointerBytes inside σ)
    (h : Eval ir pointerBytes (ir.expr (ir.stmt s).expression).right σ es (some (b, σ))) :
    b ≤ (ir.rangeOf (inside.set (ir.stmt s).localId {}) pointerBytes (ir.expr (ir.stmt s).expression).right).max := by
  have hkind := (addsTo_parts hmark.adds).1
  have hright := rangePure_le (Nat.le_succ _) ((rangePure_parts hpure).2.2.2 (.inr hkind)).2
  exact ((rangeOf_covers hwt (hknows.forget _ hmark.known) hright h).valid (growthFits_bound hmark.fits).2.1).2.1

theorem sum_sound (hwt : WellTyped ir pointerBytes) (houter : Tracked outer)
    (hcondition : ∀ σ es out, Eval ir pointerBytes (ir.stmt loop).expression σ es out →
      ∀ ev ∈ es, Within ir (ir.stmt loop).expression ev.id)
    (hscoped : ∀ t ∈ ir.body loop, (ir.stmt t).kind = .localStmt → rangeHasLocal outer (ir.stmt t).localId = true →
      (outer.get (ir.stmt t).localId).valid = false) {post : List Nat}
    (hbody : ir.body loop = pre ++ s :: post)
    (hplace : StandsAt ir loop pre s (ir.stmt s).expression)
    (hmark : SumMark ir outer (ir.body loop) facts.iterations pointerBytes
      (pre.foldl (bodyRanges ir pointerBytes) facts.inside) s) (hσ : Knows ir pointerBytes outer σ)
    (h : Run ir pointerBytes (.loop loop) σ es out) :
    ∀ ev ∈ es, ev.id = (ir.stmt s).expression → ev.Sound ir pointerBytes := by
  obtain ⟨hkind, -, hname, hleft⟩ := addsTo_parts hmark.adds
  obtain ⟨hinitial, -, hgrowth⟩ := growthFits_bound hmark.fits
  have hhas : rangeHasLocal outer (ir.stmt s).localId = true := by
    have hknown := hmark.known
    rwa [foldl_bodyRanges_has, hc.inside, RangeLocals.has_set, forgetWritten_has] at hknown
  have hwrite : PureWrite ir s := pureWrite_of_simple hc.simple (by rw [hbody]; simp)
  have hstart := (hσ x hc.known).exact (by rw [← hc.start_eq]; exact hc.start_exact)
  rw [← hc.start_eq] at hstart
  -- neither local is declared in the body
  have hscoped_x : ∀ t ∈ ir.body loop, (ir.stmt t).kind = .localStmt → (ir.stmt t).localId ≠ x := by
    intro t ht hk hx
    have hinvalid := hscoped t ht hk (hx ▸ hc.known)
    rw [hx, ← hc.start_eq, hstart.1] at hinvalid
    cases hinvalid
  have hscoped_s : ∀ t ∈ ir.body loop, (ir.stmt t).kind = .localStmt →
      (ir.stmt t).localId ≠ (ir.stmt s).localId := by
    intro t ht hk hx
    have hinvalid := hscoped t ht hk (hx ▸ hhas)
    rw [hx, hinitial] at hinvalid
    cases hinvalid
  have honly := only_writer hc.simple hbody hmark.kind hmark.once hscoped_s
  -- after `k` iterations
  let J : State → Prop := fun σ => Knows ir pointerBytes (forgetWritten ir outer (ir.body loop)) σ ∧
    ∃ k, σ x = start.value + k ∧ σ (ir.stmt s).localId ≤ (outer.get (ir.stmt s).localId).max +
      (ir.rangeOf ((pre.foldl (bodyRanges ir pointerBytes) facts.inside).set (ir.stmt s).localId {}) pointerBytes
        (ir.expr (ir.stmt s).expression).right).max * k
  have hzero : J σ := ⟨hσ.forgetWritten _, 0, hstart.2, ((hσ _ hhas).valid hinitial).2.1⟩
  refine hc.loop_run hwt (fun _ h => h.1) ?_ ?_ hzero h
  · intro σ es out h ev hev hid
    have hwithin := hcondition σ es out h ev hev
    rw [hid] at hwithin
    exact absurd hwithin hplace.1
  rintro σ es out ⟨hknows, k, hcount, hsum⟩ hentered hrun
  have hlt : k < facts.iterations := by
    have hbelow := hentered.below
    rw [hc.iterations_eq hentered.fits]
    split_ifs at hbelow ⊢ <;> omega
  have hnext := Nat.le_trans (Nat.add_le_add_left (Nat.mul_le_mul_left _ (Nat.succ_le_of_lt hlt)) _) hgrowth
  rw [Nat.mul_succ, ← Nat.add_assoc] at hnext
  constructor
  · intro ev hev hid
    obtain ⟨σs, hagrees, hfacts, hground⟩ := hc.body_events hwt houter hentered hrun hplace ev hev hid
    have hsame : σs (ir.stmt s).localId = σ (ir.stmt s).localId := hagrees _ fun t ht => honly t (by simp [ht])
    cases ev with
    | index id i =>
      have hindex : (ir.expr id).kind = .index := hground.1
      have hid : id = (ir.stmt s).expression := hid
      rw [hid, hkind] at hindex
      cases hindex
    | add id l r =>
      have hid : id = (ir.stmt s).expression := hid
      subst hid
      obtain ⟨-, -, -, -, ⟨es1, hl⟩, es2, hr⟩ := hground
      have hl := (eval_name hname hl).1
      rw [hleft, hsame] at hl
      have hr := summand_le hwt hmark hwrite.pure hfacts hr
      exact ⟨hmark.unsigned, by omega⟩
  obtain ⟨-, hstop | ⟨σ', hout, hagrees, hwrites⟩⟩ :=
    body_run hwt (hc.tracked houter) (fun t ht => pureWrite_of_simple hc.simple ht) hentered.knows hrun
  · exact .inl hstop
  refine .inr ⟨σ', hout, hknows.agrees hagrees (fun _ h => h), k + 1, ?_, ?_⟩
  · rw [hc.count_step hwt houter hscoped_x hknows hentered hwrites, hcount, Nat.add_assoc]
  obtain ⟨σs, v, es', hpre, hfacts, hvalue, hpost⟩ := hwrites pre s post hbody
  have hsame : σs (ir.stmt s).localId = σ (ir.stmt s).localId := hpre _ fun t ht => honly t (by simp [ht])
  obtain ⟨b, es'', hright, hle, -⟩ := eval_addsTo hmark.adds hmark.unsigned hvalue
  have hb := summand_le hwt hmark hwrite.pure hfacts hright
  rw [hpost _ fun t ht => honly t (by simp [ht]), store, if_neg (houter _ hhas), update_self,
    Nat.mul_succ, ← Nat.add_assoc]
  omega

end Counted

end Dyn.Ir
