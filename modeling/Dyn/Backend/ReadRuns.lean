import Dyn.Backend.ReadSteps

/-!
# backend/ssa: reading a variable

A read keeps the invariant of the construction, and its result stands for what the table then
holds for the variable at the block.
-/

namespace Dyn.Backend

open List
open Lib Lib.Flow

variable {final now : Plan} {t : Build} {opens : List SsaPending}

theorem countP_lt {α : Type} {p q : α → Bool} {xs : List α} (h : ∀ y ∈ xs, q y = true → p y = true) {z : α}
    (hz : z ∈ xs) (hp : p z = true) (hq : q z = false) : xs.countP q < xs.countP p := by
  obtain ⟨before, after, rfl⟩ := append_of_mem hz
  rw [countP_append, countP_append, countP_cons_of_pos hp, countP_cons_of_neg (by simp [hq])]
  have hbefore := countP_mono_left fun y hy => h y (mem_append_left _ hy)
  have hafter := countP_mono_left fun y hy => h y (mem_append_right _ (mem_cons_of_mem _ hy))
  omega

/-- The number of blocks for which the table has no value of the variable. -/
def undefinedBlocks (s : Ssa) (x : Nat) : Nat :=
  (List.range s.blocks.length).countP fun b => ssaDefined s x b = none

variable {s : Ssa} {x : Nat}

variable {s' : Ssa} {b v : Nat} {more : List SsaPending} {read : Ssa → Nat → Option (Ssa × Nat)}
  {e : SsaPending} {items : List Nat}

theorem undefinedBlocks_le (hlength : s'.blocks.length = s.blocks.length)
    (hdefined : ∀ c v, ssaDefined s x c = some v → ∃ w, ssaDefined s' x c = some w) :
    undefinedBlocks s' x ≤ undefinedBlocks s x := by
  unfold undefinedBlocks
  rw [hlength]
  refine countP_mono_left fun c _ hc => ?_
  cases hold : ssaDefined s x c with
  | none => rfl
  | some v =>
    obtain ⟨w, hw⟩ := hdefined c v hold
    rw [hw] at hc
    cases hc

theorem undefinedBlocks_lt (hlength : s'.blocks.length = s.blocks.length)
    (hdefined : ∀ c v, ssaDefined s x c = some v → ∃ w, ssaDefined s' x c = some w)
    (hb : b < s.blocks.length) (hnone : ssaDefined s x b = none)
    (hsome : ssaDefined s' x b = some v) : undefinedBlocks s' x + 1 ≤ undefinedBlocks s x := by
  unfold undefinedBlocks
  rw [hlength]
  refine countP_lt (fun c _ hc => ?_) (mem_range.mpr hb) (decide_eq_true hnone) (by simp [hsome])
  cases hold : ssaDefined s x c with
  | none => rfl
  | some v =>
    obtain ⟨w, hw⟩ := hdefined c v hold
    rw [hw] at hc
    cases hc

/-- What a read of a variable leaves of the function, with the phis that it lets wait. -/
structure Grown (x : Nat) (s s' : Ssa) (more : List SsaPending) : Prop where
  pending : s'.pending = s.pending ++ more
  fresh : ∀ e ∈ more, (s.block e.block).sealed = false
  defined : ∀ y c v, ssaDefined s y c = some v → ssaDefined s' y c = some v
  length : s'.blocks.length = s.blocks.length
  blocks : ∀ c, (s'.block c).sealed = (s.block c).sealed ∧ (s'.block c).preds = (s.block c).preds
  room : more.length + undefinedBlocks s' x ≤ undefinedBlocks s x

theorem Grown.refl (x : Nat) (s : Ssa) : Grown x s s [] :=
  ⟨(append_nil _).symm, forall_mem_nil _, fun _ _ _ hv => hv, rfl, fun _ => ⟨rfl, rfl⟩,
    Nat.le_of_eq (Nat.zero_add _)⟩

theorem Grown.trans {s1 s2 s3 : Ssa} {more' : List SsaPending} (h : Grown x s1 s2 more)
    (h' : Grown x s2 s3 more') : Grown x s1 s3 (more ++ more') := by
  refine ⟨?_, fun e he => ?_, fun y c v hv => h'.defined y c v (h.defined y c v hv), h'.length.trans h.length,
    fun c => ?_, ?_⟩
  · rw [h'.pending, h.pending, append_assoc]
  · rcases mem_append.mp he with he | he
    · exact h.fresh e he
    · rw [← (h.blocks e.block).1]
      exact h'.fresh e he
  · exact ⟨(h'.blocks c).1.trans (h.blocks c).1, (h'.blocks c).2.trans (h.blocks c).2⟩
  have hroom := h.room
  have hroom' := h'.room
  rw [length_append]
  omega

/-- What a read of the variable at the end of a block promises. -/
def Reads (final now : Plan) (t : Build) (x : Nat) (read : Ssa → Nat → Option (Ssa × Nat)) : Prop :=
  ∀ (opens : List SsaPending) (s : Ssa) (p : Nat) (s' : Ssa) (v : Nat),
    Sound final now { t with ssa := s } opens → p < s.blocks.length →
    (final.Reached p → (p, x) ∈ now.written ∨ final.Needed x p) → read s p = some (s', v) →
    ∃ more, Grown x s s' more ∧ Keeps final s opens s' (opens ++ more) ∧
      Sound final now { t with ssa := s' } (opens ++ more) ∧
      (final.Reached p → ∃ w, ssaDefined s' x p = some w ∧ root s' w = root s' v)

/-- What is needed at the entry of a block is written or needed in its predecessors. -/
theorem Sound.pred_needed (h : Sound final now t opens) {x b p : Nat} (hsealed : (t.ssa.block b).sealed = true)
    (hp : p ∈ (t.ssa.block b).preds) (hneeded : final.Reached b → final.Needed x b) :
    p < t.ssa.blocks.length ∧ (final.Reached p → (p, x) ∈ now.written ∨ final.Needed x p) := by
  have hnow : now.Edge p b := by
    unfold Plan.Edge
    rw [← h.shaped.preds]
    exact hp
  have hfinal : final.Edge p b := by
    unfold Plan.Edge
    rw [h.part.complete b ((h.shaped.sealed b).mp hsealed)]
    exact hnow
  refine ⟨?_, fun hreached => ?_⟩
  · rw [h.shaped.length]
    exact h.part.inside p b hnow
  by_cases hwritten : (p, x) ∈ now.written
  · exact .inl hwritten
  refine .inr fun before htrail => ?_
  obtain ⟨c, hc, hw⟩ := hneeded (Flow.Reached.step hreached hfinal) _ (htrail.step hfinal)
  rcases mem_cons.mp hc with rfl | hc
  · exact absurd (h.part.filled c b x hnow hw) hwritten
  · exact ⟨c, hc, hw⟩

theorem readOperands_spec (hread : Reads final now t x read) :
    ∀ (preds : List Nat) (opens : List SsaPending) (s s' : Ssa) (items : List Nat),
    Sound final now { t with ssa := s } opens →
    (∀ p ∈ preds, p < s.blocks.length ∧ (final.Reached p → (p, x) ∈ now.written ∨ final.Needed x p)) →
    readOperands read preds s = some (s', items) →
    ∃ more, Grown x s s' more ∧ Keeps final s opens s' (opens ++ more) ∧
      Sound final now { t with ssa := s' } (opens ++ more) ∧ items.length = preds.length ∧
      ∀ (i p : Nat), preds[i]? = some p → final.Reached p →
        ∃ w, ssaDefined s' x p = some w ∧ root s' w = root s' (items.getD i 0) := by
  intro preds
  induction preds with
  | nil =>
    intro opens s s' items h _ hrun
    cases hrun
    refine ⟨[], Grown.refl x s, ?_, ?_, rfl, fun i p hp => ?_⟩
    · rw [append_nil]
      exact Keeps.refl (fun _ he => he) (fun _ he => he) s
    · rw [append_nil]
      exact h
    · rw [getElem?_nil] at hp
      cases hp
  | cons pred preds ih =>
    intro opens s s' items h hpreds hrun
    unfold readOperands at hrun
    cases hfirst : read s pred with
    | none =>
      rw [hfirst] at hrun
      cases hrun
    | some first =>
      obtain ⟨s1, item⟩ := first
      rw [hfirst] at hrun
      dsimp only [Option.bind_eq_bind, Option.bind_some] at hrun
      cases hrest : readOperands read preds s1 with
      | none =>
        rw [hrest] at hrun
        cases hrun
      | some rest =>
        obtain ⟨s2, others⟩ := rest
        rw [hrest] at hrun
        dsimp only [Option.bind_some] at hrun
        cases hrun
        obtain ⟨hin, hneeded⟩ := hpreds pred mem_cons_self
        obtain ⟨more, hgrown, hlater, hsound, hitem⟩ := hread opens s pred s1 item h hin hneeded hfirst
        obtain ⟨more', hgrown', hlater', hsound', hlength, hitems⟩ := ih (opens ++ more) s1 s' others hsound
          (fun p hp => by
            obtain ⟨hin', hneeded'⟩ := hpreds p (mem_cons_of_mem _ hp)
            exact ⟨hgrown.length ▸ hin', hneeded'⟩) hrest
        rw [append_assoc] at hlater' hsound'
        refine ⟨more ++ more', hgrown.trans hgrown', hlater.trans hlater', hsound', ?_, fun i p hp hreached => ?_⟩
        · rw [length_cons, length_cons, hlength]
        cases i with
        | zero =>
          cases hp
          obtain ⟨w, hw, hroot⟩ := hitem hreached
          exact ⟨w, hgrown'.defined x pred w hw, hlater'.roots _ _ hroot⟩
        | succ i =>
          obtain ⟨w, hw, hroot⟩ := hitems i p hp hreached
          exact ⟨w, hw, hroot⟩

theorem Grown.congr {s1 s2 : Ssa} (h : Grown x s s1 more) (hpending : s2.pending = s1.pending)
    (hdefs : s2.defs = s1.defs) (hblocks : s2.blocks = s1.blocks) : Grown x s s2 more := by
  refine ⟨hpending.trans h.pending, h.fresh, fun y c v hv => ?_, ?_, fun c => ?_, ?_⟩
  · rw [ssaDefined_congr hdefs]
    exact h.defined y c v hv
  · rw [hblocks]
    exact h.length
  · rw [Ssa.block_congr hblocks]
    exact h.blocks c
  refine Nat.le_trans (Nat.add_le_add_left (undefinedBlocks_le (by rw [hblocks]) fun c v hv => ⟨v, ?_⟩) _) h.room
  rw [ssaDefined_congr hdefs]
  exact hv

theorem Sound.listed (h : Sound final now t (e :: opens))
    (hsealed : (t.ssa.block e.block).sealed = true)
    (hlength : items.length = (t.ssa.block e.block).preds.length)
    (hitems : ∀ (i p : Nat), (t.ssa.block e.block).preds[i]? = some p → final.Reached p →
      ∃ w, ssaDefined t.ssa e.var p = some w ∧ root t.ssa w = root t.ssa (items.getD i 0))
    (count : Nat) :
    Listed final (Backend.listOperands t.ssa e.phi items count) opens e.block e.var e.phi ∧
      ∀ i < items.length, (Backend.listOperands t.ssa e.phi items count).lists.getD
        (((Backend.listOperands t.ssa e.phi items count).value e.phi).list + i) 0 = items.getD i 0 := by
  obtain ⟨hphi, -, hblock, -, -, -⟩ := h.opened e mem_cons_self
  obtain ⟨-, hroot, -⟩ := h.listOperands mem_cons_self items count
  have hlist : ((Backend.listOperands t.ssa e.phi items count).value e.phi).list = t.ssa.lists.length := by
    rw [listOperands_value hphi, if_pos rfl]
  have hlists : (Backend.listOperands t.ssa e.phi items count).lists = t.ssa.lists ++ items := rfl
  have hget : ∀ i < items.length, (Backend.listOperands t.ssa e.phi items count).lists.getD
      (((Backend.listOperands t.ssa e.phi items count).value e.phi).list + i) 0 = items.getD i 0 := by
    intro i hi
    rw [hlist, hlists, getD_eq_getElem?_getD, getElem?_append_right (by omega), Nat.add_sub_cancel_left,
      getD_eq_getElem?_getD]
  have hvalues : (Backend.listOperands t.ssa e.phi items count).values.length = t.ssa.values.length :=
    Ssa.updateValue_length ..
  refine ⟨⟨?_, (listOperands_keeps hphi items count _).2.2.trans hblock, hsealed, fun d hd heq => ?_, ?_,
    fun i p hp hreached => ?_⟩, hget⟩
  · rw [hvalues]
    exact hphi
  · have hdistinct := h.distinct
    exact (nodup_cons.mp hdistinct).1 (heq ▸ mem_map_of_mem hd)
  · rw [hlist, hlists, length_append, hlength]
    exact Nat.le_refl _
  obtain ⟨hi, -⟩ := List.getElem?_eq_some_iff.mp hp
  obtain ⟨w, hw, hw'⟩ := hitems i p hp hreached
  refine ⟨w, hw, ?_⟩
  rw [hget i (hlength ▸ hi), hroot, hroot]
  exact hw'

/-- What becomes of a phi whose operands have `common` in common. -/
def endPhi (s : Ssa) (phi : Nat) : Common → Ssa × Nat
  | .different => (s, phi)
  | .same none => ({ s with unsupported := true }, phi)
  | .same (some same) => (mergePhi s phi same, same)

theorem ssaPhiOperands_eq (read : Ssa → Nat → Option (Ssa × Nat)) (s : Ssa) (phi : Nat) :
    ssaPhiOperands read s phi =
      (readOperands read (s.block (s.value phi).block).preds s).bind fun r =>
        (commonOperand (listOperands r.1 phi r.2 (s.block (s.value phi).block).preds.length) phi r.2 none).bind
          fun c => some (endPhi (listOperands r.1 phi r.2 (s.block (s.value phi).block).preds.length) phi c) := by
  unfold ssaPhiOperands
  dsimp only [Option.bind_eq_bind]
  refine congrArg _ (funext fun r => congrArg _ (funext fun c => ?_))
  rcases c with _ | ⟨_ | m⟩ <;> rfl

theorem endPhi_spec (h : Sound final now t (e :: opens)) (hwaiting : e ∉ t.ssa.pending)
    (hlisted : Listed final t.ssa opens e.block e.var e.phi)
    (hlength : items.length = (t.ssa.block e.block).preds.length)
    (hget : ∀ i < items.length, t.ssa.lists.getD ((t.ssa.value e.phi).list + i) 0 = items.getD i 0)
    {c : Common} (hc : commonOperand t.ssa e.phi items none = some c) :
    Keeps final t.ssa (e :: opens) (endPhi t.ssa e.phi c).1 opens ∧
      Sound final now { t with ssa := (endPhi t.ssa e.phi c).1 } opens ∧
      root (endPhi t.ssa e.phi c).1 (endPhi t.ssa e.phi c).2 = root (endPhi t.ssa e.phi c).1 e.phi := by
  obtain ⟨hphi, hop, -, -, -, -⟩ := h.opened e mem_cons_self
  have hmem : ∀ i < items.length, items.getD i 0 ∈ items := by
    intro i hi
    rw [getD_eq_getElem?_getD, getElem?_eq_getElem hi, Option.getD_some]
    exact getElem_mem hi
  obtain ⟨c', hc', hdifferent, hnone, hsame⟩ := commonOperand_spec h.copies e.phi items none
    nofun
  rw [hc] at hc'
  cases hc'
  cases c with
  | different =>
    have hmany := hdifferent rfl
    rw [Option.toList_none, length_nil] at hmany
    have hfinished : Finished final t.ssa opens e.block e.var e.phi :=
      ⟨hlisted, .inl ⟨hop, fun _ => by omega⟩⟩
    obtain ⟨hlater, hsound⟩ := h.close hwaiting hfinished
    exact ⟨hlater, hsound, rfl⟩
  | same common =>
    cases common with
    | none =>
      obtain ⟨-, hall⟩ := hnone rfl
      have hfinished : Finished final t.ssa opens e.block e.var e.phi := by
        refine ⟨hlisted, .inl ⟨hop, fun hreached _ => h.not_self hlisted hreached fun i hi => ?_⟩⟩
        rw [hget i (hlength ▸ hi)]
        exact hall _ (hmem i (hlength ▸ hi))
      obtain ⟨hlater, hsound⟩ := h.close hwaiting hfinished
      obtain ⟨hlater', hsound'⟩ := hsound.same (q := { t.ssa with unsupported := true }) rfl rfl rfl rfl rfl rfl
        (List.Perm.refl opens) fun d hd => hsound.waiting d hd
      exact ⟨hlater.trans hlater', hsound', rfl⟩
    | some m =>
      obtain ⟨hne, hcopy, -, hall⟩ := hsame m rfl
      obtain ⟨hlater, hsound⟩ := h.merge hwaiting hlisted hne hcopy fun i hi => by
        rw [hget i (hlength ▸ hi)]
        exact hall _ (hmem i (hlength ▸ hi))
      refine ⟨hlater, hsound, ?_⟩
      obtain ⟨-, hroot⟩ := mergePhi_root h.copies hphi hop hne hcopy
      change root (mergePhi t.ssa e.phi m) m = root (mergePhi t.ssa e.phi m) e.phi
      have hself : root t.ssa e.phi = e.phi := h.copies.root_self (by
        rw [hop]
        decide)
      rw [hroot, hroot, h.copies.root_self hcopy, if_neg hne, hself, if_pos rfl]

theorem ssaPhiOperands_spec (hread : Reads final now t e.var read) {s : Ssa}
    (h : Sound final now { t with ssa := s } (e :: opens)) (hpending : ∀ d ∈ s.pending, d ∈ opens)
    (hsealed : (s.block e.block).sealed = true) (hrun : ssaPhiOperands read s e.phi = some (s', v)) :
    ∃ more, Grown e.var s s' more ∧ Keeps final s (e :: opens) s' (opens ++ more) ∧
      Sound final now { t with ssa := s' } (opens ++ more) ∧ root s' v = root s' e.phi := by
  obtain ⟨-, -, hblock, -, hneeded, -⟩ := h.opened e mem_cons_self
  rw [ssaPhiOperands_eq, hblock] at hrun
  obtain ⟨⟨s1, items⟩, hoperands, hrun⟩ := Option.bind_eq_some_iff.mp hrun
  obtain ⟨c, hc, hrun⟩ := Option.bind_eq_some_iff.mp hrun
  obtain ⟨more, hgrown, hlater, hsound, hlength, hitems⟩ := readOperands_spec hread _ (e :: opens) s s1 items h
    (fun p hp => h.pred_needed hsealed hp hneeded) hoperands
  rw [cons_append] at hlater hsound
  have hpreds := (hgrown.blocks e.block).2
  obtain ⟨hlisted, hget⟩ := hsound.listed ((hgrown.blocks e.block).1.trans hsealed)
    (hlength.trans (congrArg length hpreds.symm)) (fun i p hp => hitems i p (hpreds ▸ hp))
    (s.block e.block).preds.length
  obtain ⟨hlater2, -, hsound2⟩ := hsound.listOperands mem_cons_self items (s.block e.block).preds.length
  have hwaiting : e ∉ s1.pending := by
    intro he
    rw [hgrown.pending] at he
    have hmem : e ∈ opens ++ more :=
      (mem_append.mp he).elim (fun he => mem_append_left _ (hpending e he)) (mem_append_right _)
    have hdistinct := hsound.distinct
    exact (nodup_cons.mp hdistinct).1 (mem_map_of_mem hmem)
  obtain ⟨hlater3, hsound3, hroot⟩ := endPhi_spec hsound2 hwaiting hlisted
    (hlength.trans (congrArg length hpreds.symm)) hget hc
  have hstate := Option.some.inj hrun
  rw [hstate] at hlater3 hsound3 hroot
  have hgrown' : Grown e.var s s' more := by
    have hend : ∀ c : Common, (endPhi (listOperands s1 e.phi items (s.block e.block).preds.length) e.phi c).1.pending =
        s1.pending ∧ (endPhi (listOperands s1 e.phi items (s.block e.block).preds.length) e.phi c).1.defs = s1.defs ∧
        (endPhi (listOperands s1 e.phi items (s.block e.block).preds.length) e.phi c).1.blocks = s1.blocks := by
      rintro (_ | ⟨_ | m⟩) <;> exact ⟨rfl, rfl, rfl⟩
    obtain ⟨hpending, hdefs, hblocks⟩ := hend c
    rw [hstate] at hpending hdefs hblocks
    exact hgrown.congr hpending hdefs hblocks
  exact ⟨more, hgrown', (hlater.trans hlater2).trans hlater3, hsound3, hroot⟩

theorem Grown.define {x : Nat} {s s1 : Ssa} {more : List SsaPending} (h : Grown x s s1 more) (hdefs : DefsOk s1)
    {b : Nat} (v : Nat) (hnone : ssaDefined s x b = none) : Grown x s (ssaDefine s1 x b v) more := by
  obtain ⟨-, hblocks, -, hpending, -⟩ := ssaDefine_fields s1 x b v
  have hget := (ssaDefine_spec hdefs x b v).2
  refine ⟨hpending.trans h.pending, h.fresh, fun y c w hw => ?_, ?_, fun c => ?_, ?_⟩
  · rw [hget]
    split_ifs with hkey
    · unfold ssaDefined at hnone hw
      rw [hkey, hnone] at hw
      cases hw
    · exact h.defined y c w hw
  · rw [hblocks]
    exact h.length
  · rw [Ssa.block_congr hblocks]
    exact h.blocks c
  refine Nat.le_trans (Nat.add_le_add_left (undefinedBlocks_le (by rw [hblocks]) fun c w hw => ?_) _) h.room
  rw [hget]
  split
  · exact ⟨v, rfl⟩
  · exact ⟨w, hw⟩

theorem ssaDefine_pending (s : Ssa) (pending : List SsaPending) (x b v : Nat) :
    ssaDefine { s with pending := pending } x b v = { ssaDefine s x b v with pending := pending } := by
  unfold ssaDefine growDefs
  split <;> rfl

theorem enterPhi_grown (hdefs : DefsOk s) (cls : SsaClass) (hnone : ssaDefined s x b = none) :
    Grown x s (enterPhi s x b cls) [] := by
  have hgrown : Grown x s (ssaNewPhi s b cls).1 [] := by
    have hlength : (ssaNewPhi s b cls).1.blocks.length = s.blocks.length := Ssa.updateBlock_length ..
    refine ⟨(append_nil _).symm, forall_mem_nil _, fun _ _ _ hv => hv, hlength,
      ssaNewPhi_block s b cls, ?_⟩
    rw [length_nil, Nat.zero_add]
    exact undefinedBlocks_le hlength fun c v hv => ⟨v, hv⟩
  exact hgrown.define (hdefs.congr rfl rfl) _ hnone

theorem enterPhi_room (hdefs : DefsOk s) (cls : SsaClass) (hb : b < s.blocks.length)
    (hnone : ssaDefined s x b = none) :
    undefinedBlocks (enterPhi s x b cls) x + 1 ≤ undefinedBlocks s x := by
  have hgrown := enterPhi_grown hdefs cls hnone
  exact undefinedBlocks_lt hgrown.length (fun c v hv => ⟨v, hgrown.defined x c v hv⟩) hb hnone
    (ssaDefined_self (s := (ssaNewPhi s b cls).1) (hdefs.congr rfl rfl) x b s.values.length)

/-- The entry of a block that is not sealed waits for its predecessors. -/
theorem readUnsealed_spec (h : Sound final now { t with ssa := s } opens) (cls : SsaClass)
    (hb : b < s.blocks.length) (hneeded : final.Reached b → final.Needed x b)
    (hnone : ssaDefined s x b = none) (hunsealed : (s.block b).sealed = false) :
    let s' : Ssa := { enterPhi s x b cls with pending := s.pending ++ [⟨b, x, s.values.length⟩] }
    Grown x s s' [⟨b, x, s.values.length⟩] ∧ Keeps final s opens s' (opens ++ [⟨b, x, s.values.length⟩]) ∧
      Sound final now { t with ssa := s' } (opens ++ [⟨b, x, s.values.length⟩]) ∧
      ssaDefined s' x b = some s.values.length := by
  intro s'
  obtain ⟨hlater, hsound⟩ := h.enterPhi cls hb hneeded hnone
  have hgrown := enterPhi_grown h.defs cls hnone
  have hperm : (⟨b, x, s.values.length⟩ :: opens).Perm (opens ++ [⟨b, x, s.values.length⟩]) :=
    (perm_append_comm : ([_] ++ opens).Perm _)
  obtain ⟨hlater', hsound'⟩ := hsound.same (q := s') rfl rfl rfl rfl rfl rfl hperm fun e he => by
    rcases mem_append.mp he with he | he
    · exact mem_cons_of_mem _ (h.waiting e he)
    · cases mem_singleton.mp he
      exact mem_cons_self
  have hfresh : ∀ e ∈ [(⟨b, x, s.values.length⟩ : SsaPending)], (s.block e.block).sealed = false := by
    intro e he
    cases mem_singleton.mp he
    exact hunsealed
  have hroom := enterPhi_room h.defs cls hb hnone
  refine ⟨⟨rfl, hfresh, hgrown.defined, hgrown.length, hgrown.blocks, ?_⟩, hlater.trans hlater', hsound', ?_⟩
  · rw [length_singleton, Nat.add_comm]
    exact hroom
  · exact ssaDefined_self (s := (ssaNewPhi s b cls).1) (h.defs.congr rfl rfl) x b s.values.length

/-- The value at the end of the one predecessor is the value at the entry. -/
theorem Sound.through (h : Sound final now t opens) {p : Nat} (hb : b < t.ssa.blocks.length)
    (hsealed : (t.ssa.block b).sealed = true) (hpreds : (t.ssa.block b).preds = [p])
    (hneeded : final.Reached b → final.Needed x b) (hunwritten : (b, x) ∉ now.written)
    (hopen : ∀ e ∈ opens, ¬ (e.block = b ∧ e.var = x))
    (hp : final.Reached p → ∃ w, ssaDefined t.ssa x p = some w ∧ root t.ssa w = root t.ssa v) :
    Keeps final t.ssa opens (ssaDefine t.ssa x b v) opens ∧
      Sound final now { t with ssa := ssaDefine t.ssa x b v } opens := by
  have hlast : lastWrite x (blockLog t.log b) = none := by
    by_contra hw
    exact hunwritten ((h.wrote b x).mpr hw)
  have hfinal : final.predsOf b = [p] := by
    rw [h.part.complete b ((h.shaped.sealed b).mp hsealed), ← h.shaped.preds, hpreds]
  have honly : ∀ u, final.Edge u b → u = p := by
    intro u hedge
    unfold Plan.Edge at hedge
    rw [hfinal] at hedge
    exact mem_singleton.mp hedge
  have hentry : final.Reached b → b ≠ 0 := fun hreached => needed_ne_entry (hneeded hreached)
  have hpreached : final.Reached b → final.Reached p := by
    intro hreached
    obtain ⟨u, hu, hedge⟩ := Flow.Reached.pred hreached (hentry hreached)
    exact honly u hedge ▸ hu
  have hsame : final.Reached b → ∀ w, ssaDefined t.ssa x b = some w → root t.ssa w = root t.ssa v := by
    intro hreached w hw
    obtain ⟨u, hu, hroot⟩ := hp (hpreached hreached)
    have hcurrent := (h.table x b w hreached hw).1
    unfold Current at hcurrent
    rw [hlast] at hcurrent
    cases hcurrent.2 with
    | through q u' _ hq _ hu' hroot' =>
      rw [hpreds] at hq
      cases hq
      rw [hu] at hu'
      cases hu'
      exact hroot'.symm.trans hroot
    | phi phi hf hroot' =>
      obtain ⟨u', hu', hoperand⟩ := hf.operands 0 p (by rw [hpreds]; rfl) (hpreached hreached)
      rw [hu] at hu'
      cases hu'
      rcases hf.kept with ⟨-, hmany⟩ | ⟨-, hall⟩
      · exact absurd (congrArg length hpreds) (hmany hreached)
      · have hagree := hall 0 (by rw [hpreds]; exact Nat.one_pos)
        exact ((hroot'.symm.trans hagree.symm).trans hoperand.symm).trans hroot
    | opened phi hmem _ => exact absurd ⟨rfl, rfl⟩ (hopen _ hmem)
  refine ⟨.define h.part h.defs h.copies (h.lt_room hb) (fun hreached _ => hsame hreached), h.define hb (fun hreached => ?_) hsame⟩
  obtain ⟨w, hw, hroot⟩ := hp (hpreached hreached)
  refine ⟨?_, ?_⟩
  · unfold Current
    rw [hlast]
    exact ⟨hneeded hreached, .through p w hsealed hpreds (hpreached hreached) hw hroot⟩
  obtain ⟨hlt, hdom⟩ := (h.table x p w (hpreached hreached) hw).2.congr hroot
  refine ⟨hlt, dominates_of_preds (hentry hreached) fun u _ hedge => .inr ?_⟩
  rw [honly u hedge]
  exact hdom

theorem readLoop_spec : ∀ (fuel : Nat) (x : Nat) (cls : Ssa → SsaClass),
    Reads final now t x fun s p => readLoop fuel s x p (cls s) := by
  intro fuel
  induction fuel with
  | zero =>
    intro x cls opens s b s' v _ _ _ hrun
    cases hrun
  | succ fuel ih =>
    intro x cls opens s b s' v h hb hwanted hrun
    dsimp only at hrun
    unfold readLoop at hrun
    cases hdefined : ssaDefined s x b with
    | some value =>
      rw [hdefined] at hrun
      dsimp only [Option.bind_eq_bind] at hrun
      have hresolve : ssaResolve s value = some (root s value) := h.copies.resolve value
      rw [hresolve] at hrun
      cases hrun
      refine ⟨[], Grown.refl x s, ?_, ?_, fun _ => ⟨value, hdefined, (h.copies.root_root value).symm⟩⟩
      · rw [append_nil]
        exact Keeps.refl (fun _ he => he) (fun _ he => he) s
      · rw [append_nil]
        exact h
    | none =>
      rw [hdefined] at hrun
      dsimp only at hrun
      have hunwritten : (b, x) ∉ now.written := fun hw => h.held b x hw hdefined
      have hneeded : final.Reached b → final.Needed x b := fun hreached =>
        (hwanted hreached).resolve_left hunwritten
      split_ifs at hrun with hsealed
      · obtain ⟨hgrown, hlater, hsound, hdef⟩ := readUnsealed_spec h (cls s) hb hneeded hdefined hsealed
        have hstate := Option.some.inj hrun
        rw [ssaDefine_pending] at hstate
        cases hstate
        exact ⟨_, hgrown, hlater, hsound, fun _ => ⟨_, hdef, rfl⟩⟩
      rw [Bool.not_eq_false] at hsealed
      have hopen : ∀ e ∈ opens, ¬ (e.block = b ∧ e.var = x) := by
        rintro e he ⟨rfl, rfl⟩
        exact (h.opened e he).2.2.2.2.2 hdefined
      cases hpreds : (s.block b).preds with
      | nil =>
        rw [hpreds] at hrun
        cases hrun
        obtain ⟨hlater, hsound⟩ := h.same (q := { s with unsupported := true }) rfl rfl rfl rfl rfl rfl
          (List.Perm.refl opens) fun e he => h.waiting e he
        refine ⟨[], Grown.congr (Grown.refl x s) rfl rfl rfl, ?_, ?_, fun hreached => ?_⟩
        · rw [append_nil]
          exact hlater
        · rw [append_nil]
          exact hsound
        obtain ⟨u, -, hedge⟩ := Flow.Reached.pred hreached (needed_ne_entry (hneeded hreached))
        unfold Plan.Edge at hedge
        rw [h.part.complete b ((h.shaped.sealed b).mp hsealed), ← h.shaped.preds] at hedge
        rw [hpreds] at hedge
        cases hedge
      | cons p rest =>
        have hin := fun q hq => h.pred_needed (x := x) (p := q) hsealed hq hneeded
        rw [hpreds] at hrun
        cases rest with
        | nil =>
          obtain ⟨⟨s1, u⟩, hread, hrun⟩ := Option.bind_eq_some_iff.mp hrun
          cases hrun
          obtain ⟨hp, hpneeded⟩ := hin p (hpreds ▸ mem_singleton_self p)
          obtain ⟨more, hgrown, hlater, hsound, hresult⟩ := ih x (fun _ => cls s) opens s p s1 u h hp hpneeded hread
          obtain ⟨hsealed1, hpreds1⟩ := hgrown.blocks b
          have hopen1 : ∀ e ∈ opens ++ more, ¬ (e.block = b ∧ e.var = x) := by
            intro e he
            rcases mem_append.mp he with he | he
            · exact hopen e he
            rintro ⟨rfl, rfl⟩
            have hwaits := hgrown.fresh e he
            rw [hsealed] at hwaits
            cases hwaits
          obtain ⟨hlater', hsound'⟩ := hsound.through (x := x) (v := u) (hgrown.length ▸ hb)
            (hsealed1.trans hsealed) (hpreds1.trans hpreds) hneeded hunwritten hopen1 hresult
          exact ⟨more, hgrown.define hsound.defs u hdefined, hlater.trans hlater', hsound',
            fun _ => ⟨u, ssaDefined_self hsound.defs x b u, rfl⟩⟩
        | cons q rest =>
          obtain ⟨⟨s1, u⟩, hread, hrun⟩ := Option.bind_eq_some_iff.mp hrun
          cases hrun
          obtain ⟨hlater0, hsound0⟩ := h.enterPhi (cls s) hb hneeded hdefined
          have hgrown0 := enterPhi_grown h.defs (cls s) hdefined
          have hphi : ssaDefined (enterPhi s x b (cls s)) x b = some s.values.length :=
            ssaDefined_self (s := (ssaNewPhi s b (cls s)).1) (h.defs.congr rfl rfl) x b s.values.length
          obtain ⟨more, hgrown, hlater, hsound, hroot⟩ := ssaPhiOperands_spec
            (ih x fun s' => (s'.value s.values.length).cls) hsound0
            (fun d hd => h.waiting d (by rw [hgrown0.pending, append_nil] at hd; exact hd))
            ((hgrown0.blocks b).1.trans hsealed) hread
          have hphi1 := hgrown.defined x b _ hphi
          have hsame : final.Reached b → ∀ w, ssaDefined s1 x b = some w → root s1 w = root s1 u := by
            intro _ w hw
            rw [hphi1] at hw
            cases hw
            exact hroot.symm
          have hin1 : b < s1.blocks.length := by
            rw [hgrown.length, hgrown0.length]
            exact hb
          have hsound' := hsound.define hin1 (v := u) (fun hreached => by
            obtain ⟨hcurrent, havailable⟩ := hsound.table x b _ hreached hphi1
            exact ⟨hcurrent.congr hroot.symm, havailable.congr hroot.symm⟩) hsame
          have hlater' : Keeps final s1 (opens ++ more) (ssaDefine s1 x b u) (opens ++ more) :=
            .define hsound.part hsound.defs hsound.copies (hsound.lt_room hin1) fun hreached _ => hsame hreached
          exact ⟨more, (hgrown0.trans hgrown).define hsound.defs u hdefined,
            (hlater0.trans hlater).trans hlater', hsound',
            fun _ => ⟨u, ssaDefined_self hsound.defs x b u, rfl⟩⟩

end Dyn.Backend
