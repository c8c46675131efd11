import Dyn.Backend.Cases

/-!
# backend/ssa: where a case goes

Runs go through constants, compares, branches and switches of the finished function.  The compare
chain leads each value to the first arm that takes it.
-/

namespace Dyn.Backend

open List
open Function (update update_of_ne update_self)

/-- The value is in the range, in the order of the type. -/
def rangeHolds (type : CaseType) (x first last : BitVec 64) : Bool :=
  if type.signed then first.sle x && x.sle last else first.ule x && x.ule last

def patternHolds (type : CaseType) (x : BitVec 64) (p : DynIrPattern) : Bool :=
  match ssaPatternRange type p with
  | none => false
  | some (first, last) => rangeHolds type x first last

def armTakes (type : CaseType) (x : BitVec 64) (arm : DynIrCaseArm) : Bool :=
  arm.wildcard || arm.patterns.any (patternHolds type x)

/-- The first arm with a pattern that matches, or the wildcard arm, which the program keeps last. -/
def takenArm (type : CaseType) (arms : List DynIrCaseArm) (x : BitVec 64) : Option Nat :=
  arms.findIdx? (armTakes type x)

/-- All runs that have the values `rest` of a block before them come to the beginning of `goal`.  A phi
has any value. -/
inductive Leads (s : Ssa) (goal : Nat) : (Nat → BitVec 64) → List Nat → Nat → Prop
  | here (env : Nat → BitVec 64) : Leads s goal env (s.block goal).values goal
  | merge {env : Nat → BitVec 64} {id b : Nat} {rest : List Nat} : (s.value id).Merges →
      (∀ v, Leads s goal (update env id v) rest b) → Leads s goal env (id :: rest) b
  | const {env : Nat → BitVec 64} {id b : Nat} {rest : List Nat} : (s.value id).op = .const →
      (s.value id).cls = .int → Leads s goal (update env id (s.value id).aux) rest b →
      Leads s goal env (id :: rest) b
  | compare {env : Nat → BitVec 64} {id x y b : Nat} {rest : List Nat} : (s.value id).op = .cmp →
      (s.value id).a = some x → (s.value id).b = some y →
      Leads s goal (update env id (if ssaConditionHolds (s.value id).cond (env x) (env y) then 1 else 0))
        rest b → Leads s goal env (id :: rest) b
  | jump {env : Nat → BitVec 64} {b c : Nat} : (s.block b).kind = .plain → (s.block b).succ0 = some c →
      Leads s goal env (s.block c).values c → Leads s goal env [] b
  | branch {env : Nat → BitVec 64} {b v c : Nat} : (s.block b).kind = .branch → (s.block b).control = some v →
      (if env v ≠ 0 then (s.block b).succ0 else (s.block b).succ1) = some c →
      Leads s goal env (s.block c).values c → Leads s goal env [] b
  | switch {env : Nat → BitVec 64} {b v offset c : Nat} : (s.block b).kind = .switch →
      (s.block b).control = some v → (s.block b).control2 = some offset →
      -- The index is the distance to the minimum; out of range goes to the default target.
      (if (env v - (s.value offset).aux).toNat < s.lists.getD ((s.block b).table + 1) 0 then
        s.lists.getD ((s.block b).table + 3 + (env v - (s.value offset).aux).toNat) 0
      else s.lists.getD ((s.block b).table + 2) 0) = c →
      Leads s goal env (s.block c).values c → Leads s goal env [] b

/-- Control is in a block that has not ended. -/
structure OpenAt (s : Ssa) (b : Nat) : Prop where
  current : s.current = some b
  lt : b < s.blocks.length
  succ0 : (s.block b).succ0 = none
  succ1 : (s.block b).succ1 = none

section

variable (subject : Nat) (x : BitVec 64)

/-- In the finished function `u`, runs go from the entry of the block to the goal. -/
def Entered (u : Ssa) (goal b : Nat) : Prop :=
  ∀ env : Nat → BitVec 64, env subject = x → Leads u goal env (u.block b).values b

/-- In the finished function `u`, runs go from the end that a block has in `s` to the goal. -/
def Continues (s u : Ssa) (goal b : Nat) : Prop :=
  ∃ phis rest, (u.block b).values = phis ++ (s.block b).values ++ rest ∧ NewPhis s u phis ∧
    ∀ env : Nat → BitVec 64, env subject = x → Leads u goal env rest b

end

section

variable {closed : Nat → Prop} {s s' u : Ssa} {subject goal b : Nat} {x : BitVec 64}

theorem Entered.self (u : Ssa) (subject : Nat) (x : BitVec 64) (goal : Nat) : Entered subject x u goal goal :=
  fun env _ => .here env

theorem Leads.phis {rest : List Nat} (hrest : ∀ env : Nat → BitVec 64, env subject = x → Leads u goal env rest b) :
    ∀ (phis : List Nat), (∀ v ∈ phis, v ≠ subject ∧ (u.value v).Merges) →
      ∀ env : Nat → BitVec 64, env subject = x → Leads u goal env (phis ++ rest) b := by
  intro phis
  induction phis with
  | nil => exact fun _ => hrest
  | cons v phis ih =>
    intro hphis env henv
    obtain ⟨hne, hmerges⟩ := hphis v mem_cons_self
    refine .merge hmerges fun value => ih (fun w hw => hphis w (mem_cons_of_mem v hw)) _ ?_
    rw [update_of_ne hne.symm]
    exact henv

variable {s3 : Ssa}

theorem NewPhis.earlier {s1 s2 : Ssa} {phis : List Nat} (h : NewPhis s2 s3 phis)
    (hlength : s1.values.length ≤ s2.values.length) : NewPhis s1 s3 phis := fun v hv =>
  ⟨Nat.le_trans hlength (h v hv).1, (h v hv).2⟩

theorem Continues.entered {t : Ssa} (h : Continues subject x s u goal b) (hsubject : subject < t.values.length)
    (hlength : t.values.length ≤ s.values.length) (hleaves : Leaves closed s u)
    (hphis : NewPhis t s (s.block b).values) : Entered subject x u goal b := by
  obtain ⟨phis, rest, hvalues, hnew, hrest⟩ := h
  intro env henv
  rw [hvalues]
  refine Leads.phis hrest _ (fun v hv => ?_) env henv
  rcases mem_append.mp hv with hmem | hmem
  · obtain ⟨hle, -, hm⟩ := hnew v hmem
    exact ⟨by omega, hm⟩
  · obtain ⟨hle, hlt, hm⟩ := hphis v hmem
    exact ⟨by omega, hleaves.merges v hlt hm⟩

/-- A block that was new in `s` has nothing but phis, and no edges. -/
theorem Leaves.opened (h : Leaves closed (ssaBlock s).1 s') (hclosed : closed s.blocks.length) :
    (s'.block s.blocks.length).succ0 = none ∧ (s'.block s.blocks.length).succ1 = none ∧
      NewPhis s s' (s'.block s.blocks.length).values := by
  have hlt : s.blocks.length < (ssaBlock s).1.blocks.length := by
    change s.blocks.length < (s.blocks ++ [_]).length
    rw [length_append, length_singleton]
    exact Nat.lt_succ_self _
  have hnew : (ssaBlock s).1.block s.blocks.length = { loopDepth := s.loopDepth } := by
    rw [block_appended (t := (ssaBlock s).1) rfl, if_pos rfl]
  obtain ⟨hends, phis, hvalues, hphis⟩ := h.kept s.blocks.length hlt hclosed
  rw [hnew] at hends hvalues
  injection hends with _ hends
  injection hends with hsucc0 hends
  injection hends with hsucc1 _
  refine ⟨hsucc0, hsucc1, ?_⟩
  rw [hvalues, append_nil]
  exact hphis

/-- A block in which no code has begun: it has nothing but phis, and no edges. -/
structure Fresh (s : Ssa) (b : Nat) : Prop where
  lt : b < s.blocks.length
  succ0 : (s.block b).succ0 = none
  succ1 : (s.block b).succ1 = none
  phis : ∀ v ∈ (s.block b).values, v < s.values.length ∧ (s.value v).Merges

/-- A step of the builder from `s` to `s'` is the code of an arm, or the check of the tag and the trap. -/
def CaseCode.Emits (code : CaseCode) (type : CaseType) (done : Nat) (s s' : Ssa) (b : Nat) : Option Nat → Prop
  | some i => code.body s i done = some s'
  | none => ∃ m last, ssaCaseInvalidTag code type s = some m ∧ (last = b ∨ m.current = some last) ∧
      s' = emitTrap m last

/-- The finished function `u` has the code of a start: it was added from the block on, in which no code had begun,
and what came later has left its blocks alone. -/
def Emitted (code : CaseCode) (type : CaseType) (done : Nat) (u : Ssa) (start : CaseStart) : Prop :=
  ∃ s s', s.current = some start.block ∧ Fresh s start.block ∧ code.Emits type done s s' start.block start.arm ∧
    Leaves (fun c => c = start.block ∨ s.blocks.length ≤ c) s' u

/-- Each arm begins in at most one block, and its code is there. -/
structure Starts (code : CaseCode) (type : CaseType) (done : Nat) (u : Ssa) (starts : List CaseStart) : Prop where
  once : (starts.map (·.arm)).Nodup
  emitted : ∀ start ∈ starts, Emitted code type done u start

theorem Fresh.leaves (h : Fresh s b) (hleaves : Leaves closed s s') (hb : closed b) : Fresh s' b := by
  obtain ⟨hends, phis, hvalues, hphis⟩ := hleaves.kept b h.lt hb
  injection hends with _ hends
  injection hends with hsucc0 hends
  injection hends with hsucc1 _
  refine ⟨Nat.lt_of_lt_of_le h.lt hleaves.blocks, hsucc0.trans h.succ0, hsucc1.trans h.succ1, fun v hv => ?_⟩
  rw [hvalues] at hv
  rcases mem_append.mp hv with hmem | hmem
  · exact (hphis v hmem).2
  · obtain ⟨hlt, hm⟩ := h.phis v hmem
    exact ⟨Nat.lt_of_lt_of_le hlt hleaves.length, hleaves.merges v hlt hm⟩

theorem ssaBlock_length (s : Ssa) : (ssaBlock s).1.blocks.length = s.blocks.length + 1 := by
  change (s.blocks ++ [_]).length = _
  rw [length_append, length_singleton]

theorem Fresh.block (s : Ssa) : Fresh (ssaBlock s).1 s.blocks.length := by
  obtain ⟨hsucc0, hsucc1, hphis⟩ := Leaves.opened (.refl (fun _ => True) (ssaBlock s).1) trivial
  refine ⟨?_, hsucc0, hsucc1, fun v hv => (hphis v hv).2⟩
  rw [ssaBlock_length]
  exact Nat.lt_succ_self _

theorem ssaEdge_length (s : Ssa) (a c : Nat) : (ssaEdge s a c).blocks.length = s.blocks.length := by
  unfold ssaEdge
  rw [Ssa.updateBlock_length, Ssa.updateBlock_length]

theorem placeValue_length (s : Ssa) (b : Nat) (v : SsaValue) : (placeValue s b v).blocks.length = s.blocks.length :=
  Ssa.updateBlock_length ..

theorem placeValue_value (s : Ssa) (b : Nat) (v : SsaValue) (i : Nat) :
    (placeValue s b v).value i = if i = s.values.length then v else s.value i :=
  value_appended (t := placeValue s b v) rfl i

theorem placeValue_block {s : Ssa} {b : Nat} (hb : b < s.blocks.length) (v : SsaValue) :
    (placeValue s b v).block b = { (s.block b) with values := (s.block b).values ++ [s.values.length] } :=
  Ssa.updateBlock_self (s := { s with values := s.values ++ [v] }) hb _

theorem OpenAt.place (h : OpenAt s b) (v : SsaValue) : OpenAt (placeValue s b v) b := by
  obtain ⟨hcurrent, hb, hsucc0, hsucc1⟩ := h
  refine ⟨hcurrent, ?_, ?_, ?_⟩
  · rw [placeValue_length]
    exact hb
  · rw [placeValue_block hb]
    exact hsucc0
  · rw [placeValue_block hb]
    exact hsucc1

def constOf (b : Nat) (bits : BitVec 64) : SsaValue := { op := .const, cls := .int, aux := bits, block := b }

def compareOf (b p q cond : Nat) : SsaValue :=
  { op := .cmp, cls := .int, a := some p, b := some q, cond := cond, block := b }

theorem ssaConst_eq (h : s.current = some b) (bits : BitVec 64) :
    ssaConst s bits .int = (placeValue s b (constOf b bits), s.values.length) := by
  unfold ssaConst ssaEmit
  rw [h]
  rfl

theorem ssaCompare_eq (h : s.current = some b) (p q cond : Nat) :
    ssaCompare s p q cond = (placeValue s b (compareOf b p q cond), s.values.length) := by
  have hvalues : ∀ (v : SsaValue) (change : SsaValue → SsaValue),
      (s.values ++ [v]).modify s.values.length change = s.values ++ [change v] := fun v change => by
    rw [modify_eq_set_getElem?]
    simp
  unfold ssaCompare ssaEmit
  rw [h]
  unfold placeValue Ssa.updateValue Ssa.updateBlock ssaValue
  dsimp only [Option.getD_some]
  rw [hvalues]
  rfl

theorem ssaEdge_source {a : Nat} (ha : a < s.blocks.length) (c : Nat) :
    ∃ preds, (ssaEdge s a c).block a =
      { (if (s.block a).succ0 = none then { (s.block a) with succ0 := some c } else
          { (s.block a) with succ1 := some c }) with preds := preds } := by
  unfold ssaEdge
  by_cases hac : c = a
  · subst hac
    rw [Ssa.updateBlock_self (by rw [Ssa.updateBlock_length]; exact ha), Ssa.updateBlock_self ha]
    exact ⟨_, rfl⟩
  · rw [Ssa.updateBlock_other (Ne.symm hac), Ssa.updateBlock_self ha]
    exact ⟨_, rfl⟩

/-- The constant, the compare and the branch of a test at the end of the current block. -/
def emitTest (s : Ssa) (bits : BitVec 64) (subject cond yes no : Nat) : Ssa :=
  let (s, value) := ssaConst s bits .int
  let (s, condition) := ssaCompare s subject value cond
  ssaBranch s condition yes no

/-- The block and its end after a branch. -/
structure Branched (s r : Ssa) (b condition yes no : Nat) : Prop where
  leaves : Leaves (· ≠ b) s r
  blocks : r.blocks.length = s.blocks.length
  table : r.values = s.values
  values : (r.block b).values = (s.block b).values
  kind : (r.block b).kind = .branch
  control : (r.block b).control = some condition
  succ0 : (r.block b).succ0 = some yes
  succ1 : (r.block b).succ1 = some no

theorem ssaBranch_spec (h : OpenAt s b) (condition yes no : Nat) :
    Branched s (ssaBranch s condition yes no) b condition yes no := by
  obtain ⟨hcurrent, hb, hsucc0, -⟩ := h
  obtain ⟨m, hm⟩ : ∃ m, m = s.updateBlock b ({ · with kind := .branch, control := some condition }) := ⟨_, rfl⟩
  have heq : ssaBranch s condition yes no = { ssaEdge (ssaEdge m b yes) b no with current := none } := by
    unfold ssaBranch
    rw [hcurrent, hm]
  have hkind : Leaves (· ≠ b) s m := by
    rw [hm]
    exact .updateBlock (fun hne => absurd rfl hne) fun _ => prefix_refl _
  have hopen : ¬ b ≠ b := not_not_intro rfl
  have hleaves := ((hkind.trans (.edge (v := yes) hopen)).trans (.edge (v := no) hopen)).trans
    (show Leaves _ _ { ssaEdge (ssaEdge m b yes) b no with current := none } from .same _ rfl rfl rfl rfl fun hu => hu)
  have hlength : m.blocks.length = s.blocks.length := by
    rw [hm, Ssa.updateBlock_length]
  obtain ⟨preds, hfirst⟩ := ssaEdge_source (Nat.lt_of_lt_of_eq hb hlength.symm) yes
  obtain ⟨preds', hsecond⟩ := ssaEdge_source
    (Nat.lt_of_lt_of_eq hb (hlength.symm.trans (ssaEdge_length m b yes).symm)) no
  have hblock : m.block b = { (s.block b) with kind := .branch, control := some condition } := by
    rw [hm, Ssa.updateBlock_self hb]
  rw [hblock] at hfirst
  rw [hsucc0, if_pos rfl] at hfirst
  rw [hfirst] at hsecond
  rw [if_neg (Option.some_ne_none yes)] at hsecond
  have hend : (ssaBranch s condition yes no).block b = (ssaEdge (ssaEdge m b yes) b no).block b := by
    rw [heq]
    rfl
  refine ⟨heq ▸ hleaves, ?_, ?_, ?_, ?_, ?_, ?_, ?_⟩
  · rw [heq]
    exact (ssaEdge_length _ b no).trans ((ssaEdge_length m b yes).trans hlength)
  · rw [heq, hm]
    rfl
  all_goals rw [hend, hsecond]

structure Tested (s r : Ssa) (b : Nat) (bits : BitVec 64) (subject cond yes no : Nat) : Prop where
  leaves : Leaves (· ≠ b) s r
  blocks : r.blocks.length = s.blocks.length
  values : (r.block b).values = (s.block b).values ++ [s.values.length, s.values.length + 1]
  size : r.values.length = s.values.length + 2
  kind : (r.block b).kind = .branch
  control : (r.block b).control = some (s.values.length + 1)
  succ0 : (r.block b).succ0 = some yes
  succ1 : (r.block b).succ1 = some no
  const : r.value s.values.length = constOf b bits
  compare : r.value (s.values.length + 1) = compareOf b subject s.values.length cond

theorem emitTest_spec (h : OpenAt s b) (bits : BitVec 64) (subject cond yes no : Nat) :
    Tested s (emitTest s bits subject cond yes no) b bits subject cond yes no := by
  obtain ⟨m, hm⟩ : ∃ m, m = placeValue s b (constOf b bits) := ⟨_, rfl⟩
  obtain ⟨n, hn⟩ : ∃ n, n = placeValue m b (compareOf b subject s.values.length cond) := ⟨_, rfl⟩
  have hm' : OpenAt m b := hm ▸ h.place _
  have hn' : OpenAt n b := hn ▸ hm'.place _
  have hsize : m.values.length = s.values.length + 1 := by
    rw [hm]
    exact length_append
  have hsize' : n.values.length = s.values.length + 2 := by
    rw [hn]
    exact length_append.trans (congrArg (· + 1) hsize)
  have hstate : emitTest s bits subject cond yes no = ssaBranch n (s.values.length + 1) yes no := by
    unfold emitTest
    rw [ssaConst_eq h.current]
    dsimp only
    rw [← hm, ssaCompare_eq hm'.current, hsize, ← hn]
  have hvalue : ∀ i, n.value i = if i = m.values.length then compareOf b subject s.values.length cond else m.value i := by
    intro i
    rw [hn, placeValue_value]
  have hplaced : Leaves (· ≠ b) s n := by
    rw [hn]
    have hfirst : Leaves (· ≠ b) s m := by
      rw [hm]
      exact .place (fun hne => hne rfl) _
    exact hfirst.trans (.place (fun hne => hne rfl) _)
  have hend := ssaBranch_spec hn' (s.values.length + 1) yes no
  have hsame : ∀ i, (ssaBranch n (s.values.length + 1) yes no).value i = n.value i := fun i => by
    unfold Ssa.value
    rw [hend.table]
  rw [hstate]
  refine ⟨hplaced.trans hend.leaves, ?_, ?_, ?_, hend.kind, hend.control, hend.succ0, hend.succ1, ?_, ?_⟩
  · rw [hend.blocks, hn, placeValue_length, hm, placeValue_length]
  · rw [hend.values, hn, placeValue_block hm'.lt, hsize, hm, placeValue_block h.lt]
    exact append_assoc ..
  · rw [hend.table, hsize']
  · rw [hsame, hvalue, if_neg (by omega), hm, placeValue_value, if_pos rfl]
  · rw [hsame, hvalue, if_pos hsize.symm]

variable {r : Ssa}

theorem Tested.continues {bits : BitVec 64} {cond yes no : Nat}
    (h : Tested s r b bits subject cond yes no) (hleaves : Leaves closed r u) (hclosed : closed b)
    (hb : b < s.blocks.length) (hsubject : subject < s.values.length)
    (hyes : ssaConditionHolds cond x bits = true → Entered subject x u goal yes)
    (hno : ssaConditionHolds cond x bits = false → Entered subject x u goal no) :
    Continues subject x s u goal b := by
  obtain ⟨hends, phis, hvalues, hphis⟩ := hleaves.kept b (Nat.lt_of_lt_of_eq hb h.blocks.symm) hclosed
  rw [h.values] at hvalues
  unfold SsaBlock.ends at hends
  rw [h.kind, h.control, h.succ0, h.succ1] at hends
  injection hends with hkind hends
  injection hends with hsucc0 hends
  injection hends with hsucc1 hends
  injection hends with hcontrol _
  have hsize := h.size
  have hconst : u.value s.values.length = constOf b bits := by
    rw [hleaves.value _ (by omega), h.const]
    rw [h.const]
    rintro (hop | hop) <;> cases hop
  have hcompare : u.value (s.values.length + 1) = compareOf b subject s.values.length cond := by
    rw [hleaves.value _ (by omega), h.compare]
    rw [h.compare]
    rintro (hop | hop) <;> cases hop
  refine ⟨phis, [s.values.length, s.values.length + 1], ?_, hphis.earlier (by omega), fun env henv => ?_⟩
  · rw [hvalues, append_assoc]
  refine .const (by rw [hconst]; rfl) (by rw [hconst]; rfl) ?_
  rw [hconst]
  obtain ⟨env', henv'⟩ : ∃ env', env' = update env s.values.length bits := ⟨_, rfl⟩
  have hleft : env' subject = x := by
    rw [henv', update_of_ne (Nat.ne_of_lt hsubject), henv]
  have hright : env' s.values.length = bits := by
    rw [henv', update_self]
  change Leads u goal (update env s.values.length bits) _ b
  rw [← henv']
  refine .compare (x := subject) (y := s.values.length) (by rw [hcompare]; rfl) (by rw [hcompare]; rfl)
    (by rw [hcompare]; rfl) ?_
  have hholds : ssaConditionHolds (u.value (s.values.length + 1)).cond (env' subject) (env' s.values.length) =
      ssaConditionHolds cond x bits := by
    rw [hleft, hright, hcompare]
    rfl
  rw [hholds]
  have hsame : ∀ value : BitVec 64, update env' (s.values.length + 1) value subject = x := fun value => by
    rw [update_of_ne (by omega), hleft]
  split_ifs with hcase
  · refine .branch (c := yes) hkind hcontrol ?_ (hyes hcase _ (hsame _))
    rw [update_self, if_pos (by decide), hsucc0]
  · refine .branch (c := no) hkind hcontrol ?_ (hno (Bool.eq_false_iff.mpr hcase) _ (hsame _))
    rw [update_self, if_neg (by decide), hsucc1]

variable (type : CaseType)

theorem rangeHolds_self (x first : BitVec 64) :
    rangeHolds type x first first = true ↔ x = first := by
  unfold rangeHolds
  split
  · rw [Bool.and_eq_true, BitVec.sle_iff_toInt_le, BitVec.sle_iff_toInt_le]
    refine ⟨fun h => BitVec.eq_of_toInt_eq (by omega), fun h => ?_⟩
    rw [h]
    exact ⟨Int.le_refl _, Int.le_refl _⟩
  rw [Bool.and_eq_true, BitVec.ule_iff_toNat_le, BitVec.ule_iff_toNat_le]
  refine ⟨fun h => BitVec.eq_of_toNat_eq (by omega), fun h => ?_⟩
  rw [h]
  exact ⟨Nat.le_refl _, Nat.le_refl _⟩

theorem rangeHolds_eq (x first last : BitVec 64) :
    rangeHolds type x first last =
      (!ssaConditionHolds (if type.signed then ccL else ccB) x first &&
        ssaConditionHolds (if type.signed then ccLE else ccBE) x last) := by
  unfold rangeHolds
  split
  · change (first.sle x && x.sle last) = (!x.slt first && x.sle last)
    rw [BitVec.sle_eq_not_slt]
  · change (first.ule x && x.ule last) = (!x.ult first && x.ule last)
    rw [BitVec.ule_eq_not_ult]

theorem OpenAt.block (h : OpenAt s b) : OpenAt (ssaBlock s).1 b := by
  have hsame : (ssaBlock s).1.block b = s.block b := by
    rw [block_appended (t := (ssaBlock s).1) rfl, if_neg (Nat.ne_of_lt h.lt)]
  refine ⟨h.current, ?_, ?_, ?_⟩
  · rw [ssaBlock_length]
    exact Nat.lt_succ_of_lt h.lt
  · rw [hsame]
    exact h.succ0
  · rw [hsame]
    exact h.succ1

theorem Continues.block (hb : b < s.blocks.length) (h : Continues subject x (ssaBlock s).1 u goal b) :
    Continues subject x s u goal b := by
  obtain ⟨phis, rest, hvalues, hphis, hrest⟩ := h
  rw [block_appended (t := (ssaBlock s).1) rfl, if_neg (Nat.ne_of_lt hb)] at hvalues
  exact ⟨phis, rest, hvalues, hphis, hrest⟩

/-- The code comes to a new block where no test held; `body` and the blocks so far are only entered. -/
structure Misses (s s' : Ssa) (b miss : Nat) : Prop where
  leaves : Leaves (· ≠ b) s s'
  opened : OpenAt s' miss
  new : s.blocks.length ≤ miss
  phis : NewPhis s s' (s'.block miss).values

variable {last : BitVec 64} {body target : Nat} {code : CaseCode} {done : Nat} {s7 : Ssa} {b3 : Nat}

theorem Misses.of_test {s2 : Ssa} (h : OpenAt s b) (hw : Waits s)
    (hr : Leaves (· ≠ b) (ssaBlock s).1 r) (hseal : ssaSeal r s.blocks.length = some s2) :
    Misses s { s2 with current := some s.blocks.length } b s.blocks.length ∧
      ∀ (closed : Nat → Prop) (u : Ssa), Leaves closed { s2 with current := some s.blocks.length } u →
        Leaves closed r u := by
  have hw' : Waits r := hr.waits ((Leaves.block (· ≠ b) s).waits hw)
  have hlast : ∀ closed : Nat → Prop, Leaves closed r { s2 with current := some s.blocks.length } := fun closed =>
    (Leaves.sealed closed hw' hseal).trans (.same closed rfl rfl rfl rfl fun hu => hu)
  have hall := hr.trans (hlast (· ≠ b))
  obtain ⟨hsucc0, hsucc1, hphis⟩ := hall.opened (Nat.ne_of_gt h.lt)
  have hlt : s.blocks.length < s2.blocks.length := by
    have hblocks := hall.blocks
    rw [ssaBlock_length] at hblocks
    exact hblocks
  exact ⟨⟨(Leaves.block _ s).trans hall, ⟨rfl, hlt, hsucc0, hsucc1⟩, Nat.le_refl _, hphis⟩,
    fun closed u hu => (hlast closed).trans hu⟩

theorem chainPattern_single (subject body : Nat) (first : BitVec 64) (s : Ssa) :
    chainPattern type subject body first first s =
      (ssaSeal (emitTest (ssaBlock s).1 first subject ccE body s.blocks.length) s.blocks.length).bind fun t =>
        some { t with current := some s.blocks.length } := by
  exact (if_pos rfl).trans rfl

theorem chainPattern_range {first : BitVec 64} (hne : first ≠ last) (type : CaseType)
    (subject body : Nat) (s : Ssa) :
    chainPattern type subject body first last s =
      (ssaSeal (emitTest (ssaBlock (ssaBlock s).1).1 first subject (if type.signed then ccL else ccB)
        s.blocks.length (ssaBlock s).1.blocks.length) (ssaBlock s).1.blocks.length).bind fun q =>
          (ssaSeal (emitTest { q with current := some (ssaBlock s).1.blocks.length } last subject
            (if type.signed then ccLE else ccBE) body s.blocks.length) s.blocks.length).bind fun t =>
              some { t with current := some s.blocks.length } := by
  exact (if_neg hne).trans rfl

theorem chainPattern_spec {type : CaseType} {first : BitVec 64} (h : OpenAt s b) (hw : Waits s)
    (hrun : chainPattern type subject body first last s = some s') :
    Misses s s' b s.blocks.length ∧
      ∀ (closed : Nat → Prop) (u : Ssa) (goal : Nat) (x : BitVec 64), Leaves closed s' u → closed b →
        (∀ c, s.blocks.length < c → c < s'.blocks.length → closed c) → subject < s.values.length →
        (rangeHolds type x first last = true → Entered subject x u goal body) →
        (rangeHolds type x first last = false → Entered subject x u goal s.blocks.length) →
        Continues subject x s u goal b := by
  by_cases hsingle : first = last
  · subst hsingle
    rw [chainPattern_single] at hrun
    obtain ⟨s2, hseal, hrun⟩ := Option.bind_eq_some_iff.mp hrun
    cases hrun
    have hspec := emitTest_spec h.block first subject ccE body s.blocks.length
    obtain ⟨hmisses, hlater⟩ := Misses.of_test h hw hspec.leaves hseal
    refine ⟨hmisses, fun closed u goal x hu hb _ hsubject hyes hno => ?_⟩
    have hcase : rangeHolds type x first first = true ↔ ssaConditionHolds ccE x first = true := by
      rw [rangeHolds_self]
      exact beq_iff_eq.symm
    refine (hspec.continues (hlater closed u hu) hb h.block.lt hsubject (fun hc => hyes (hcase.mpr hc)) fun hc =>
      hno ?_).block h.lt
    rw [Bool.eq_false_iff] at hc ⊢
    exact fun hr => hc (hcase.mp hr)
  rw [chainPattern_range hsingle] at hrun
  obtain ⟨q, hupper, hrun⟩ := Option.bind_eq_some_iff.mp hrun
  obtain ⟨s2, hseal, hrun⟩ := Option.bind_eq_some_iff.mp hrun
  cases hrun
  obtain ⟨m, hm⟩ : ∃ m, m = (ssaBlock s).1 := ⟨_, rfl⟩
  rw [← hm] at hupper hseal
  have hlength : m.blocks.length = s.blocks.length + 1 := hm ▸ ssaBlock_length s
  have hopen : OpenAt m b := hm ▸ h.block
  have hwm : Waits m := hm ▸ (Leaves.block (· ≠ b) s).waits hw
  have hfirst := emitTest_spec hopen.block first subject (if type.signed then ccL else ccB) s.blocks.length
    m.blocks.length
  obtain ⟨hupper', hlater⟩ := Misses.of_test hopen hwm hfirst.leaves hupper
  have hsecond := emitTest_spec hupper'.opened last subject (if type.signed then ccLE else ccBE) body
    s.blocks.length
  -- Below the new blocks, the second test leaves what the first one left.
  have hboth : Leaves (· ≠ b) (ssaBlock s).1 (emitTest { q with current := some m.blocks.length } last subject
      (if type.signed then ccLE else ccBE) body s.blocks.length) := by
    rw [← hm]
    exact hupper'.leaves.comp hsecond.leaves fun c hc _ => Nat.ne_of_lt hc
  obtain ⟨hmisses, hlater'⟩ := Misses.of_test h hw hboth hseal
  refine ⟨hmisses, fun closed u goal x hu hb hclosed hsubject hyes hno => ?_⟩
  have hu2 := hlater' closed u hu
  have hblocks : m.blocks.length < s2.blocks.length := by
    have h1 := hupper'.opened.lt
    have h2 := hsecond.blocks
    have h3 := (Leaves.sealed (· ≠ b) (hboth.waits ((Leaves.block (· ≠ b) s).waits hw)) hseal).blocks
    omega
  have hupperClosed : closed m.blocks.length := hclosed m.blocks.length (by omega) hblocks
  have hsubject' : subject < q.values.length :=
    Nat.lt_of_lt_of_le (hm ▸ hsubject : subject < m.values.length) hupper'.leaves.length
  have hrest : Leaves (fun c => closed c ∧ c ≠ m.blocks.length) { q with current := some m.blocks.length } u :=
    (hsecond.leaves.mono fun _ _ hc => hc.2).trans (hu2.mono fun _ _ hc => hc.1)
  have hholds := rangeHolds_eq type x first last
  have hupperEntered : ssaConditionHolds (if type.signed then ccL else ccB) x first = false →
      Entered subject x u goal m.blocks.length := by
    intro hfalse
    rw [hfalse, Bool.not_false, Bool.true_and] at hholds
    exact Continues.entered (hsecond.continues hu2 hupperClosed hupper'.opened.lt hsubject'
      (fun hc => hyes (hholds.trans hc)) fun hc => hno (hholds.trans hc))
      (hm ▸ hsubject : subject < m.values.length) hupper'.leaves.length hrest hupper'.phis
  have hbelow : ssaConditionHolds (if type.signed then ccL else ccB) x first = true →
      Entered subject x u goal s.blocks.length := by
    intro htrue
    rw [htrue, Bool.not_true, Bool.false_and] at hholds
    exact hno hholds
  have htest := hfirst.continues (hlater _ u hrest) ⟨hb, Nat.ne_of_lt hopen.lt⟩ hopen.block.lt
    (hm ▸ hsubject : subject < m.values.length) hbelow hupperEntered
  exact (hm ▸ htest.block hopen.lt : Continues subject x (ssaBlock s).1 u goal b).block h.lt

/-- The code went on from the block `b` to the block `b'`; only the first one of those so far has changed. -/
structure Passes (s s' : Ssa) (b b' : Nat) : Prop where
  leaves : Leaves (· ≠ b) s s'
  opened : OpenAt s' b'
  new : b' = b ∨ s.blocks.length ≤ b'

/-- The blocks that the code ended on the way. -/
def Ended (closed : Nat → Prop) (s s' : Ssa) (b b' : Nat) : Prop :=
  (b ≠ b' → closed b) ∧ ∀ c, s.blocks.length ≤ c → c < s'.blocks.length → c ≠ b' → closed c

theorem chainPatterns_spec {type : CaseType} :
    ∀ (patterns : List DynIrPattern) {s s' : Ssa} {b : Nat},
    OpenAt s b → Waits s → chainPatterns type subject body patterns s = some (.on s') →
    ∃ b', Passes s s' b b' ∧
      ∀ (closed : Nat → Prop) (u : Ssa) (goal : Nat) (x : BitVec 64), Leaves closed s' u → Ended closed s s' b b' →
        subject < s.values.length →
        (patterns.any (patternHolds type x) = true → Entered subject x u goal body) →
        (patterns.any (patternHolds type x) = false → Continues subject x s' u goal b') →
        Continues subject x s u goal b := by
  intro patterns
  induction patterns with
  | nil =>
    intro s s' b h _ hrun
    cases hrun
    exact ⟨b, ⟨.refl _ s, h, .inl rfl⟩, fun _ _ _ _ _ _ _ _ hno => hno rfl⟩
  | cons p patterns ih =>
    intro s s' b h hw hrun
    unfold chainPatterns at hrun
    split at hrun
    · cases hrun
    rename_i first last hrange
    obtain ⟨s1, hfirst, hrun⟩ := Option.bind_eq_some_iff.mp hrun
    obtain ⟨hmisses, hcontinues⟩ := chainPattern_spec h hw hfirst
    obtain ⟨b', hpasses, hrest⟩ := ih hmisses.opened (hmisses.leaves.waits hw) hrun
    have hnew : s.blocks.length ≤ b' := by
      rcases hpasses.new with heq | hle
      · omega
      · exact Nat.le_trans hmisses.leaves.blocks hle
    refine ⟨b', ⟨hmisses.leaves.comp hpasses.leaves fun c hc _ => Nat.ne_of_lt hc, hpasses.opened, .inr hnew⟩,
      fun closed u goal x hu hended hsubject hyes hno => ?_⟩
    obtain ⟨hb, hblocks⟩ := hended
    have hlt := h.lt
    have hlt' := hpasses.leaves.blocks
    have hmiss := hmisses.opened.lt
    have hu1 : Leaves (fun c => closed c ∧ c ≠ s.blocks.length) s1 u :=
      (hpasses.leaves.mono fun _ _ hc => hc.2).trans (hu.mono fun _ _ hc => hc.1)
    have hholds : patternHolds type x p = rangeHolds type x first last := by
      unfold patternHolds
      rw [hrange]
    rw [any_cons, hholds] at hyes hno
    refine hcontinues _ u goal x hu1 ⟨hb (by omega), by omega⟩ (fun c hc hc' => ⟨hblocks c (by omega) (by omega) ?_,
      by omega⟩) hsubject (fun hc => hyes (by rw [hc, Bool.true_or])) fun hc => ?_
    · rcases hpasses.new with heq | hle <;> omega
    rw [hc, Bool.false_or] at hyes hno
    refine Continues.entered (hrest closed u goal x hu ⟨fun hne => hblocks _ (Nat.le_refl _) (by omega) hne,
      fun c hc => hblocks c (by omega)⟩ (Nat.lt_of_lt_of_le hsubject hmisses.leaves.length) hyes hno) hsubject
      hmisses.leaves.length hu1 hmisses.phis

structure Jumped (s r : Ssa) (b target : Nat) : Prop where
  leaves : Leaves (· ≠ b) s r
  blocks : r.blocks.length = s.blocks.length
  values : (r.block b).values = (s.block b).values
  kind : (r.block b).kind = .plain
  succ0 : (r.block b).succ0 = some target
  preds : target < s.blocks.length → (r.block target).preds ≠ []

theorem ssaEdge_preds (s : Ssa) (a : Nat) {c : Nat} (hc : c < s.blocks.length) : ((ssaEdge s a c).block c).preds ≠ [] := by
  unfold ssaEdge
  rw [Ssa.updateBlock_self (by rw [Ssa.updateBlock_length]; exact hc)]
  exact append_ne_nil_of_right_ne_nil _ (cons_ne_nil _ _)

theorem ssaJump_spec (h : OpenAt s b) (target : Nat) : Jumped s (ssaJump s target) b target := by
  obtain ⟨hcurrent, hb, hsucc0, -⟩ := h
  obtain ⟨m, hm⟩ : ∃ m, m = s.updateBlock b ({ · with kind := .plain }) := ⟨_, rfl⟩
  have heq : ssaJump s target = { ssaEdge m b target with current := none } := by
    unfold ssaJump
    rw [hcurrent, hm]
  have hkind : Leaves (· ≠ b) s m := by
    rw [hm]
    exact .updateBlock (fun hne => absurd rfl hne) fun _ => prefix_refl _
  have hlength : m.blocks.length = s.blocks.length := by
    rw [hm, Ssa.updateBlock_length]
  obtain ⟨preds, hblock⟩ := ssaEdge_source (Nat.lt_of_lt_of_eq hb hlength.symm) target
  rw [hm, Ssa.updateBlock_self hb] at hblock
  rw [hsucc0, if_pos rfl, ← hm] at hblock
  have hend : (ssaJump s target).block b = (ssaEdge m b target).block b := by
    rw [heq]
    rfl
  refine ⟨heq ▸ (hkind.trans (.edge fun hne => hne rfl)).trans (.same _ rfl rfl rfl rfl fun hu => hu), ?_, ?_, ?_, ?_,
    fun htarget => ?_⟩
  · rw [heq]
    exact (ssaEdge_length m b target).trans hlength
  · rw [hend, hblock]
  · rw [hend, hblock]
  · rw [hend, hblock]
  · rw [heq]
    exact ssaEdge_preds m b (Nat.lt_of_lt_of_eq htarget hlength.symm)

theorem Jumped.continues (h : Jumped s r b target) (hleaves : Leaves closed r u)
    (hclosed : closed b) (hb : b < s.blocks.length) (htarget : Entered subject x u goal target) :
    Continues subject x s u goal b := by
  obtain ⟨hends, phis, hvalues, hphis⟩ := hleaves.kept b (Nat.lt_of_lt_of_eq hb h.blocks.symm) hclosed
  rw [h.values] at hvalues
  unfold SsaBlock.ends at hends
  rw [h.kind, h.succ0] at hends
  injection hends with hkind hends
  injection hends with hsucc0 _
  refine ⟨phis, [], ?_, hphis.earlier h.leaves.length, fun env henv => ?_⟩
  · rw [hvalues, append_nil]
  · exact .jump hkind hsucc0 (htarget env henv)

theorem chainArms_stopped (code : CaseCode) (type : CaseType) (subject done i : Nat) (arms : List DynIrCaseArm)
    (h : s.current = none) : chainArms code type subject done i arms s = some (.on s, []) := by
  cases arms with
  | nil => rfl
  | cons arm arms =>
    unfold chainArms
    rw [if_pos (.inr h)]

/-- From the jump of an arm to the block of the next one: only the body has changed, and the code of the arm stays. -/
theorem arm_leaves {i next : Nat} {s4 s5 s6 : Ssa} (hw : Waits s4)
    (hseal : ssaSeal s4 body = some s5)
    (hbody : code.body { s5 with current := some body } i done = some s6)
    (hnext : ssaSeal s6 next = some s7) :
    Leaves (· ≠ body) s4 s7 ∧ (Fresh s4 body → ∀ u, Leaves (fun c => c = body ∨ s4.blocks.length ≤ c) s7 u →
      Emitted code type done u ⟨some i, body⟩) := by
  have h5 := Leaves.sealed (· ≠ body) hw hseal
  have hcurrent : Leaves (· ≠ body) s5 { s5 with current := some body } := .same _ rfl rfl rfl rfl fun hu => hu
  have h5' := h5.trans hcurrent
  have h6 := Adds.leaves (h5'.waits hw) (code.body_adds _ i done s6 body rfl hbody)
  have hmiddle : Leaves (· ≠ body) s4 s6 := h5'.comp h6 fun c hc hne => by
    have hblocks : s4.blocks.length ≤ s5.blocks.length := h5.blocks
    rintro (heq | hle)
    · exact hne heq
    · exact absurd (Nat.lt_of_lt_of_le hc hblocks) (Nat.not_lt_of_le hle)
  have h7 := hmiddle.trans (.sealed _ (hmiddle.waits hw) hnext)
  refine ⟨h7, fun hfresh u hu => ⟨_, s6, rfl, ?_, hbody, ?_⟩⟩
  · exact hfresh.leaves ((Leaves.sealed (fun _ => True) hw hseal).trans (.same _ rfl rfl rfl rfl fun hu => hu)) trivial
  · refine (Leaves.sealed _ (hmiddle.waits hw) hnext).trans (hu.mono fun c _ hc => ?_)
    exact hc.imp id (Nat.le_trans h5.blocks)

/-- Where the chain of the arms leads: `first` is the number of the first arm. -/
structure Chained (code : CaseCode) (type : CaseType) (subject done first : Nat) (arms : List DynIrCaseArm)
    (s s' : Ssa) (starts : List CaseStart) (b : Nat) : Prop where
  leaves : Leaves (· ≠ b) s s'
  current : ∀ b', s'.current = some b' →
    OpenAt s' b' ∧ (b' = b ∨ s.blocks.length ≤ b') ∧ (s'.unsupported = false → arms ≠ [] → Fresh s' b')
  once : starts.map (·.arm) <+ (range' first arms.length).map some
  emitted : ∀ u, Leaves (fun c => s'.current ≠ some c ∧ s.blocks.length ≤ c) s' u →
    ∀ start ∈ starts, Emitted code type done u start
  taken : ∀ (closed : Nat → Prop) (u : Ssa) (x : BitVec 64), s'.unsupported = false → Leaves closed s' u →
    (∀ c, c = b ∨ s.blocks.length ≤ c ∧ c < s'.blocks.length → s'.current ≠ some c → closed c) →
    subject < s.values.length →
    match takenArm type arms x with
    | some k => ∃ body, ⟨some (first + k), body⟩ ∈ starts ∧ Continues subject x s u body b
    | none => arms ≠ [] → ∃ b', s'.current = some b' ∧ Continues subject x s u b' b

theorem takenArm_cons (arm : DynIrCaseArm) (arms : List DynIrCaseArm) (x : BitVec 64) :
    takenArm type (arm :: arms) x =
      if armTakes type x arm then some 0 else (takenArm type arms x).map (· + 1) := findIdx?_cons

/-- The state after an arm: where the next arm goes on. -/
def afterArm (s : Ssa) (next : Nat) : Ssa :=
  { s with current := if (s.block next).preds ≠ [] then some next else none }

theorem chainArms_cons (code : CaseCode) (type : CaseType) (subject done i : Nat) (arm : DynIrCaseArm)
    (arms : List DynIrCaseArm) (hgo : ¬ (s.unsupported = true ∨ s.current = none)) :
    chainArms code type subject done i (arm :: arms) s =
      (chainPatterns type subject s.blocks.length arm.patterns (ssaBlock (ssaBlock s).1).1).bind fun c =>
        match c with
        | .gaveUp s => some (.gaveUp s, [])
        | .on s3 =>
          (ssaSeal (ssaJump s3 (if arm.wildcard then s.blocks.length else (ssaBlock s).1.blocks.length))
            s.blocks.length).bind fun s5 =>
          (code.body { s5 with current := some s.blocks.length } i done).bind fun s6 =>
          (ssaSeal s6 (ssaBlock s).1.blocks.length).bind fun s7 =>
          (chainArms code type subject done (i + 1) arms (afterArm s7 (ssaBlock s).1.blocks.length)).bind fun r =>
            some (r.1, ⟨some i, s.blocks.length⟩ :: r.2) := by
  rw [chainArms, if_neg hgo]
  rfl

/-- What one arm does: `s3` is the state after its patterns, `s7` after its code. -/
structure ArmRun (s s3 s7 : Ssa) (b b3 target : Nat) : Prop where
  passes : Passes (ssaBlock (ssaBlock s).1).1 s3 b b3
  jumped : Jumped s3 (ssaJump s3 target) b3 target
  later : Leaves (· ≠ s.blocks.length) (ssaJump s3 target) s7
  leaves : Leaves (· ≠ b) s s7
  size : s.blocks.length + 2 ≤ s3.blocks.length ∧ s3.blocks.length ≤ s7.blocks.length

theorem ArmRun.of_steps {i : Nat} {s5 s6 : Ssa} (hw : Waits s) (hpasses : Passes (ssaBlock (ssaBlock s).1).1 s3 b b3)
    (hseal : ssaSeal (ssaJump s3 target) s.blocks.length = some s5)
    (hbody : code.body { s5 with current := some s.blocks.length } i done = some s6)
    (hnext : ssaSeal s6 (ssaBlock s).1.blocks.length = some s7) : ArmRun s s3 s7 b b3 target := by
  have hlength : (ssaBlock (ssaBlock s).1).1.blocks.length = s.blocks.length + 2 := by
    rw [ssaBlock_length, ssaBlock_length]
  have hnew : Leaves (· ≠ b) s (ssaBlock (ssaBlock s).1).1 := (Leaves.block _ s).trans (.block _ _)
  have hjumped := ssaJump_spec hpasses.opened target
  have hfirst : Leaves (· ≠ b) s (ssaJump s3 target) :=
    (hnew.trans hpasses.leaves).comp hjumped.leaves fun c hc hne => by
      rcases hpasses.new with heq | hle <;> omega
  have hlater := (arm_leaves {} (hfirst.waits hw) hseal hbody hnext).1
  refine ⟨hpasses, hjumped, hlater, hfirst.comp hlater fun c hc _ => Nat.ne_of_lt hc, ?_, ?_⟩
  · rw [← hlength]
    exact hpasses.leaves.blocks
  · rw [← hjumped.blocks]
    exact hlater.blocks

theorem ArmRun.next (h : ArmRun s s3 s7 b b3 target) (hb : b < s.blocks.length) :
    (s7.block (ssaBlock s).1.blocks.length).succ0 = none ∧ (s7.block (ssaBlock s).1.blocks.length).succ1 = none ∧
      NewPhis (ssaBlock s).1 s7 (s7.block (ssaBlock s).1.blocks.length).values := by
  have hlength := ssaBlock_length s
  have hlength' := ssaBlock_length (ssaBlock s).1
  have hnew := h.passes.new
  have hall : Leaves (fun c => c ≠ b ∧ c ≠ b3 ∧ c ≠ s.blocks.length) (ssaBlock (ssaBlock s).1).1 s7 :=
    ((h.passes.leaves.mono fun _ _ hc => hc.1).comp (h.jumped.leaves.mono fun _ _ hc => hc.2.1)
      fun _ _ hc => hc).trans (h.later.mono fun _ _ hc => hc.2.2)
  refine hall.opened ⟨?_, ?_, ?_⟩
  · omega
  · rcases hnew with heq | hle <;> omega
  · omega

/-- **The tests of an arm lead to its body or to the target of its jump.** -/
theorem ArmRun.continues {type : CaseType} {arm : DynIrCaseArm} (h : ArmRun s s3 s7 b b3 target)
    (hopen : OpenAt s b) (hw : Waits s)
    (hpatterns : chainPatterns type subject s.blocks.length arm.patterns (ssaBlock (ssaBlock s).1).1 = some (.on s3))
    (hu : Leaves closed s7 u)
    (hclosed : ∀ c, c = b ∨ s.blocks.length + 2 ≤ c ∧ c < s3.blocks.length → closed c)
    (hsubject : subject < s.values.length)
    (hyes : arm.patterns.any (patternHolds type x) = true → Entered subject x u goal s.blocks.length)
    (hno : arm.patterns.any (patternHolds type x) = false → Entered subject x u goal target) :
    Continues subject x s u goal b := by
  have hlength : (ssaBlock (ssaBlock s).1).1.blocks.length = s.blocks.length + 2 := by
    rw [ssaBlock_length, ssaBlock_length]
  have hw' := (Leaves.block (· ≠ b) _).waits ((Leaves.block (· ≠ b) s).waits hw)
  obtain ⟨b', hpasses, hcontinues⟩ := chainPatterns_spec arm.patterns hopen.block.block hw' hpatterns
  have hsame : b' = b3 := by
    have h1 := hpasses.opened.current
    rw [h.passes.opened.current] at h1
    cases h1
    rfl
  subst hsame
  have hnew := hpasses.new
  have hlt := hopen.lt
  have hlt' := hpasses.opened.lt
  have hu4 : Leaves (fun c => closed c ∧ c ≠ s.blocks.length) (ssaJump s3 target) u :=
    (h.later.mono fun _ _ hc => hc.2).trans (hu.mono fun _ _ hc => hc.1)
  have hu3 : Leaves (fun c => (closed c ∧ c ≠ s.blocks.length) ∧ c ≠ b') s3 u :=
    (h.jumped.leaves.mono fun _ _ hc => hc.2).trans (hu4.mono fun _ _ hc => hc.1)
  have hended : ∀ c, c = b ∨ s.blocks.length + 2 ≤ c ∧ c < s3.blocks.length → closed c ∧ c ≠ s.blocks.length :=
    fun c hc => ⟨hclosed c hc, by omega⟩
  have hmiddle := hcontinues _ u goal x hu3
    ⟨fun hne => ⟨hended b (.inl rfl), hne⟩, fun c hc hc' hne => ⟨hended c (.inr ⟨by omega, hc'⟩), hne⟩⟩
    hsubject hyes fun hc => h.jumped.continues hu4 (hended b' (by omega)) hlt' (hno hc)
  exact (hmiddle.block hopen.block.lt).block hopen.lt

/-- **The chain leads each value to the first arm that takes it.** -/
theorem chainArms_spec {type : CaseType} : ∀ (arms : List DynIrCaseArm) {i b : Nat}
    {s s' : Ssa} {starts : List CaseStart}, OpenAt s b → Waits s →
    chainArms code type subject done i arms s = some (.on s', starts) →
    Chained code type subject done i arms s s' starts b := by
  intro arms
  induction arms with
  | nil =>
    intro i b s s' starts h _ hrun
    cases hrun
    refine ⟨.refl _ s, fun b' hb' => ?_, .slnil, fun _ _ => forall_mem_nil _, fun _ _ _ _ _ _ _ hne => absurd rfl hne⟩
    rw [h.current] at hb'
    cases hb'
    exact ⟨h, .inl rfl, fun _ hne => absurd rfl hne⟩
  | cons arm arms ih =>
    intro i b s s' starts h hw hrun
    by_cases hstop : s.unsupported = true ∨ s.current = none
    · rw [chainArms, if_pos hstop] at hrun
      cases hrun
      have hgone : s.unsupported ≠ false := fun hsupported => by
        rcases hstop with hu | hnone
        · rw [hsupported] at hu
          cases hu
        · rw [h.current] at hnone
          cases hnone
      refine ⟨.refl _ s, fun b' hb' => ?_, nil_sublist _, fun _ _ => forall_mem_nil _,
        fun _ _ _ hsupported _ _ _ => absurd hsupported hgone⟩
      rw [h.current] at hb'
      cases hb'
      exact ⟨h, .inl rfl, fun hsupported _ => absurd hsupported hgone⟩
    rw [chainArms_cons _ _ _ _ _ _ _ hstop] at hrun
    obtain ⟨c, hpatterns, hrun⟩ := Option.bind_eq_some_iff.mp hrun
    cases c with
    | gaveUp s3 => cases hrun
    | on s3 =>
      obtain ⟨s5, hseal, hrun⟩ := Option.bind_eq_some_iff.mp hrun
      obtain ⟨s6, hbody, hrun⟩ := Option.bind_eq_some_iff.mp hrun
      obtain ⟨s7, hnext, hrun⟩ := Option.bind_eq_some_iff.mp hrun
      obtain ⟨⟨c, starts'⟩, hrest, hrun⟩ := Option.bind_eq_some_iff.mp hrun
      cases hrun
      have hw' := (Leaves.block (· ≠ b) _).waits ((Leaves.block (· ≠ b) s).waits hw)
      obtain ⟨b3, hpasses, -⟩ := chainPatterns_spec arm.patterns h.block.block hw' hpatterns
      have harm := ArmRun.of_steps hw hpasses hseal hbody hnext
      obtain ⟨target, htarget⟩ : ∃ target, target =
        if arm.wildcard then s.blocks.length else (ssaBlock s).1.blocks.length := ⟨_, rfl⟩
      rw [← htarget] at hseal harm
      obtain ⟨next, hn⟩ : ∃ next, next = (ssaBlock s).1.blocks.length := ⟨_, rfl⟩
      obtain ⟨hsucc0, hsucc1, hphis⟩ := harm.next h.lt
      have hplace := harm.passes.new
      rw [ssaBlock_length, ssaBlock_length] at hplace
      have hemitted := (arm_leaves type (harm.jumped.leaves.waits (hpasses.leaves.waits hw')) hseal hbody hnext).2
        ((((Fresh.block s).leaves (.block (fun _ => True) _) trivial).leaves harm.passes.leaves
          (Nat.ne_of_gt h.lt)).leaves harm.jumped.leaves (by have hlt := h.lt; omega))
      rw [harm.jumped.blocks] at hemitted
      rw [← hn] at hrest hsucc0 hsucc1 hphis hnext htarget
      have hnext' : next = s.blocks.length + 1 := hn.trans (ssaBlock_length s)
      obtain ⟨hsize, hsize'⟩ := harm.size
      have hlt := h.lt
      have hsame : Leaves (· ≠ b) s7 (afterArm s7 next) := .same _ rfl rfl rfl rfl fun hu => hu
      have hafter := harm.leaves.trans hsame
      have hcases : (afterArm s7 next).current = some next ∨ (afterArm s7 next).current = none := by
        unfold afterArm
        split
        · exact .inl rfl
        · exact .inr rfl
      have hchained : (afterArm s7 next).current = some next →
          Chained code type subject done (i + 1) arms (afterArm s7 next) s' starts' next := fun hcurrent =>
        ih ⟨hcurrent, (by omega : next < s7.blocks.length), hsucc0, hsucc1⟩ (hafter.waits hw) hrest
      have hrest' : Leaves (· ≠ next) (afterArm s7 next) s' ∧
          (∀ b', s'.current = some b' → OpenAt s' b' ∧ (b' = next ∨ s7.blocks.length ≤ b') ∧
            (s'.unsupported = false → Fresh s' b')) ∧
          starts'.map (·.arm) <+ (range' (i + 1) arms.length).map some ∧
          ∀ u, Leaves (fun c => s'.current ≠ some c ∧ s7.blocks.length ≤ c) s' u →
            ∀ start ∈ starts', Emitted code type done u start := by
        rcases hcases with hgo | hnone
        · have hspec := hchained hgo
          refine ⟨hspec.leaves, fun b' hb' => ?_, hspec.once, hspec.emitted⟩
          obtain ⟨hopen, hplace, hfresh⟩ := hspec.current b' hb'
          refine ⟨hopen, hplace, fun hsupported => ?_⟩
          cases arms with
          | nil =>
            cases hrest
            rw [hgo] at hb'
            cases hb'
            exact ⟨hopen.lt, hsucc0, hsucc1, fun v hv => (hphis v hv).2⟩
          | cons arm' arms => exact hfresh hsupported (cons_ne_nil _ _)
        rw [chainArms_stopped _ _ _ _ _ _ hnone] at hrest
        cases hrest
        refine ⟨.refl _ _, fun b' hb' => ?_, nil_sublist _, fun _ _ => forall_mem_nil _⟩
        rw [hnone] at hb'
        cases hb'
      obtain ⟨hleaves, hcurrent, honce, hstarts⟩ := hrest'
      have hroom : s7.blocks.length ≤ s'.blocks.length := hleaves.blocks
      refine ⟨hafter.comp hleaves fun c hc _ => by omega, fun b' hb' => ?_, honce.cons_cons _, fun u hu => ?_,
        fun closed u x hsupported hu hclosed hsubject => ?_⟩
      · obtain ⟨hopen, hplace, hfresh⟩ := hcurrent b' hb'
        refine ⟨hopen, .inr ?_, fun hsupported _ => hfresh hsupported⟩
        omega
      · refine forall_mem_cons.mpr ⟨hemitted u ?_, hstarts u (hu.mono fun c _ hc => ⟨hc.1, by omega⟩)⟩
        have hsame' : Leaves (· ≠ next) s7 (afterArm s7 next) := .same _ rfl rfl rfl rfl fun hu => hu
        refine ((hsame'.trans hleaves).mono fun c _ hc => by omega).comp hu fun c hc _ => ⟨fun hcur => ?_, by omega⟩
        have hat := (hcurrent c hcur).2.1
        omega
      have hu8 : Leaves (fun c => closed c ∧ c ≠ next) (afterArm s7 next) u :=
        (hleaves.mono fun _ _ hc => hc.2).trans (hu.mono fun _ _ hc => hc.1)
      have hu7 : Leaves (fun c => closed c ∧ c ≠ next) s7 u := by
        have hsame' : Leaves (fun c => closed c ∧ c ≠ next) s7 (afterArm s7 next) :=
          .same _ rfl rfl rfl rfl fun hu => hu
        exact hsame'.trans hu8
      have hended : ∀ c, c = b ∨ s.blocks.length + 2 ≤ c ∧ c < s3.blocks.length → closed c ∧ c ≠ next := by
        intro c hc
        refine ⟨hclosed c (by have hblocks : s7.blocks.length ≤ s'.blocks.length := hleaves.blocks; omega)
          fun hcur => ?_, by omega⟩
        rcases (hcurrent c hcur).2 with heq | hle <;> omega
      rw [takenArm_cons]
      split_ifs with htakes
      · refine ⟨s.blocks.length, mem_cons_self, harm.continues h hw hpatterns hu7 hended hsubject
          (fun _ => .self _ _ _ _) fun hany => ?_⟩
        unfold armTakes at htakes
        rw [hany, Bool.or_false] at htakes
        rw [htarget, if_pos htakes]
        exact .self _ _ _ _
      unfold armTakes at htakes
      rw [Bool.or_eq_true, not_or, Bool.not_eq_true, Bool.not_eq_true] at htakes
      obtain ⟨hwild, hany⟩ := htakes
      have hgo : ∀ goal, Entered subject x u goal next → Continues subject x s u goal b := fun goal hgoal =>
        harm.continues h hw hpatterns hu7 hended hsubject (fun hyes => absurd (hany.symm.trans hyes) (by decide))
          fun _ => by
            rw [htarget, hwild]
            exact hgoal
      have htarget' : target = next := by
        rw [htarget, hwild]
        rfl
      have hpreds : (s7.block next).preds ≠ [] := by
        have hjump := harm.jumped.preds (by omega)
        rw [htarget'] at hjump harm
        obtain ⟨more, hmore⟩ := harm.later.preds next
        rw [← hmore]
        exact append_ne_nil_of_left_ne_nil hjump _
      have hgo' : (afterArm s7 next).current = some next := if_pos hpreds
      have hspec := hchained hgo'
      have hblocks' : (afterArm s7 next).blocks.length ≤ s'.blocks.length := hleaves.blocks
      have hroom : s7.blocks.length = (afterArm s7 next).blocks.length := rfl
      have htaken := hspec.taken closed u x hsupported hu (fun c hc hne => hclosed c (by omega) hne)
        (Nat.lt_of_lt_of_le hsubject hafter.length)
      have henter : ∀ goal, Continues subject x (afterArm s7 next) u goal next → Entered subject x u goal next :=
        fun goal hc => hc.entered (t := (ssaBlock s).1) hsubject harm.leaves.length hu8 hphis
      cases harms : takenArm type arms x with
      | some k =>
        rw [harms] at htaken
        obtain ⟨body, hmem, hbody'⟩ := htaken
        refine ⟨body, mem_cons_of_mem _ ?_, hgo body (henter body hbody')⟩
        have hindex : i + (k + 1) = i + 1 + k := by omega
        rw [hindex]
        exact hmem
      | none =>
        rw [harms] at htaken
        intro _
        cases arms with
        | nil =>
          cases hrest
          exact ⟨next, hgo', hgo next (.self _ _ _ _)⟩
        | cons arm' arms =>
          obtain ⟨b', hb', hfallback⟩ := htaken (cons_ne_nil _ _)
          exact ⟨b', hb', hgo b' (henter b' hfallback)⟩

end

end Dyn.Backend
