import Dyn.Backend.ReadRuns
import Dyn.Lib.Worklist

/-!
# backend/ssa: the calls of a construction

Every call of a construction keeps the invariant.  The graph of the calls so far is a part of the
finished one, and a block that is sealed has no phi waiting.
-/

namespace Dyn.Backend

open List
open Lib Lib.Flow

theorem plan_append (before : List BuildCall) (call : BuildCall) :
    plan (before ++ [call]) = (plan before).step call := by
  unfold plan
  rw [foldl_append, foldl_cons, foldl_nil]

variable (p : Plan) (call : BuildCall) {calls : List BuildCall}

theorem Plan.step_predsOf (b : Nat) :
    (p.step call).predsOf b =
      match call with
      | .edge u v => if b = v ∧ b < p.preds.length then p.predsOf b ++ [u] else p.predsOf b
      | _ => p.predsOf b := by
  cases call with
  | block =>
    change (p.preds ++ [[]]).getD b [] = p.preds.getD b []
    rw [getD_eq_getElem?_getD, getD_eq_getElem?_getD]
    rcases lt_or_ge b p.preds.length with hlt | hge
    · rw [getElem?_append_left hlt]
    rw [getElem?_append_right hge, getElem?_eq_none hge]
    rcases Nat.eq_zero_or_pos (b - p.preds.length) with hzero | hpos
    · rw [hzero]
      rfl
    · rw [getElem?_eq_none (by rw [length_singleton]; omega)]
  | write var handle => rfl
  | edge u v =>
    change (p.preds.modify v (· ++ [u])).getD b [] = _
    rw [getD_eq_getElem?_getD, getElem?_modify]
    dsimp only
    unfold Plan.predsOf
    rw [getD_eq_getElem?_getD]
    by_cases hv : v = b
    · subst hv
      rcases lt_or_ge v p.preds.length with hlt | hge
      · rw [getElem?_eq_getElem hlt, if_pos ⟨rfl, hlt⟩]
        simp
      · rw [getElem?_eq_none hge, if_neg fun h => Nat.not_lt_of_le hge h.2]
        rfl
    · rw [if_neg fun h => hv h.1.symm]
      simp [hv]
  | enter block | emit op cls a b c aux aux2 | read var block cls | sealBlock block => rfl

theorem Plan.predsOf_prefix (b : Nat) : p.predsOf b <+: (p.step call).predsOf b := by
  rw [Plan.step_predsOf]
  cases call with
  | edge u v =>
    dsimp only
    split
    · exact prefix_append _ _
    · exact prefix_refl _
  | _ => exact prefix_refl _

theorem Plan.step_length : p.preds.length ≤ (p.step call).preds.length := by
  cases call with
  | block =>
    change _ ≤ (p.preds ++ [[]]).length
    rw [length_append]
    omega
  | edge u v =>
    change _ ≤ (p.preds.modify v (· ++ [u])).length
    rw [length_modify]
  | _ => exact le_rfl

theorem Plan.mem_written (e : Nat × Nat) :
    e ∈ (p.step call).written ↔ e ∈ p.written ∨
      ∃ var handle, call = .write var handle ∧ p.current = some e.1 ∧ var = e.2 := by
  cases call with
  | write var handle =>
    change e ∈ p.written ++ p.current.toList.map (fun b => (b, var)) ↔ _
    rw [mem_append, mem_map]
    refine or_congr_right ⟨?_, ?_⟩
    · rintro ⟨b, hb, rfl⟩
      exact ⟨var, handle, rfl, Option.mem_toList.mp hb, rfl⟩
    rintro ⟨-, handle', hcall, hb, rfl⟩
    cases hcall
    exact ⟨e.1, Option.mem_toList.mpr hb, rfl⟩
  | _ => exact ⟨.inl, fun h => h.elim id fun ⟨_, _, hcall, _⟩ => by cases hcall⟩

structure Plan.Extends (final now : Plan) : Prop where
  length : now.preds.length ≤ final.preds.length
  preds : ∀ b, now.predsOf b <+: final.predsOf b
  written : ∀ e ∈ now.written, e ∈ final.written
  filled : ∀ b v x, now.Edge b v → (b, x) ∈ final.written → (b, x) ∈ now.written

theorem Describes.extends (h : Describes calls) : ∀ (after before : List BuildCall),
    calls = before ++ after → Plan.Extends (plan calls) (plan before) := by
  intro after
  induction after with
  | nil =>
    intro before heq
    rw [append_nil] at heq
    subst heq
    exact ⟨le_rfl, fun b => prefix_refl _, fun e he => he, fun b v x _ hx => hx⟩
  | cons call after ih =>
    intro before heq
    have hnext := ih (before ++ [call]) (by rw [heq, append_assoc, singleton_append])
    rw [plan_append] at hnext
    have hallowed := h.allowed before call after heq
    refine ⟨le_trans (Plan.step_length _ call) hnext.length,
      fun b => (Plan.predsOf_prefix _ call b).trans (hnext.preds b),
      fun e he => hnext.written e ((Plan.mem_written _ call e).mpr (.inl he)), fun b v x hedge hx => ?_⟩
    have hedge' : ((plan before).step call).Edge b v := (Plan.predsOf_prefix _ call v).subset hedge
    rcases (Plan.mem_written _ call _).mp (hnext.filled b v x hedge' hx) with hold | ⟨var, handle, rfl, hb, -⟩
    · exact hold
    · exact absurd hedge ((hallowed b hb).2 v)

/-- **The plan of the first calls is a part of the plan of them all.** -/
theorem Describes.part (h : Describes calls) : ∀ (before after : List BuildCall),
    calls = before ++ after → Part (plan calls) (plan before) := by
  intro before
  induction before using reverseRecOn with
  | nil =>
    intro after heq
    obtain ⟨hlength, hpreds, hwritten, hfilled⟩ := h.extends after [] heq
    refine ⟨hlength, hpreds, fun b hb => absurd hb not_mem_nil, fun u v hedge => ?_, nofun,
      hwritten, hfilled, h.room⟩
    cases hedge
  | append_singleton before call ih =>
    intro after heq
    have heq' : calls = before ++ call :: after := by rw [heq, append_assoc, singleton_append]
    have hpart := ih (call :: after) heq'
    have hallowed := h.allowed before call after heq'
    obtain ⟨hlength, hpreds, hwritten, hfilled⟩ := h.extends after _ heq
    rw [plan_append] at *
    have hgrows := Plan.step_length (plan before) call
    refine ⟨hlength, hpreds, fun b hb => ?_, fun u v hedge => ?_, fun b hb => ?_, hwritten, hfilled, h.room⟩
    · have hold : b ∈ (plan before).sealed → (plan calls).predsOf b = ((plan before).step call).predsOf b := by
        intro hsealed
        refine ((hpreds b).eq_of_length_le ?_).symm
        rw [hpart.complete b hsealed]
        exact (Plan.predsOf_prefix _ call b).length_le
      cases call with
      | sealBlock block =>
        rcases mem_append.mp hb with hb | hb
        · exact hold hb
        · cases mem_singleton.mp hb
          exact hallowed.2
      | _ => exact hold hb
    · unfold Plan.Edge at hedge
      rw [Plan.step_predsOf] at hedge
      refine lt_of_lt_of_le ?_ hgrows
      cases call with
      | edge w v' =>
        dsimp only at hedge
        split at hedge
        · rcases mem_append.mp hedge with hedge | hedge
          · exact hpart.inside u v hedge
          · cases mem_singleton.mp hedge
            exact hallowed.1
        · exact hpart.inside u v hedge
      | _ => exact hpart.inside u v hedge
    · refine lt_of_lt_of_le ?_ hgrows
      cases call with
      | enter block => exact hallowed b hb
      | _ => exact hpart.current b hb

theorem blockLog_append (log : List (Nat × BuildEvent)) (c : Nat) (e : BuildEvent) (b : Nat) :
    blockLog (log ++ [(c, e)]) b = blockLog log b ++ if c = b then [e] else [] := by
  unfold blockLog
  rw [filter_append, map_append]
  split_ifs with hc
  · rw [filter_cons_of_pos (by simp [hc])]
    rfl
  · rw [filter_cons_of_neg (by simp [hc])]
    rfl

theorem lastWrite_append (x : Nat) (events : List BuildEvent) (e : BuildEvent) :
    lastWrite x (events ++ [e]) =
      match e with
      | .write y id => if y = x then some id else lastWrite x events
      | _ => lastWrite x events := by
  unfold lastWrite
  rw [filterMap_append]
  cases e with
  | write y id =>
    by_cases hy : y = x
    · simp [hy]
    · simp [hy]
  | _ => simp

theorem logged_cases {log : List (Nat × BuildEvent)} {c b : Nat} {e e' : BuildEvent} {earlier later : List BuildEvent}
    (h : blockLog (log ++ [(c, e)]) b = earlier ++ e' :: later) :
    (∃ later', blockLog log b = earlier ++ e' :: later') ∨ (c = b ∧ e' = e ∧ earlier = blockLog log b) := by
  rw [blockLog_append] at h
  split_ifs at h with hc
  · rcases eq_nil_or_concat later with rfl | ⟨init, last, rfl⟩
    · obtain ⟨h1, h2⟩ := append_inj' h rfl
      exact .inr ⟨hc, (cons.inj h2).1.symm, h1.symm⟩
    · rw [concat_eq_append, ← cons_append, ← append_assoc] at h
      exact .inl ⟨init, (append_inj' h rfl).1⟩
  · rw [append_nil] at h
    exact .inl ⟨later, h⟩

section

variable {final now : Plan} {t t' : Build}

/-- The invariant between two calls: the phis that wait are those of blocks that are not sealed. -/
structure BuildOk (final now : Plan) (t : Build) : Prop where
  sound : Sound final now t t.ssa.pending
  waiting : ∀ e ∈ t.ssa.pending, (t.ssa.block e.block).sealed = false

variable {s : Ssa}

theorem block_append {blocks : List SsaBlock} {blk : SsaBlock} (hs : s.blocks = blocks ++ [blk])
    (hblk : blk.sealed = false ∧ blk.preds = []) (b : Nat) :
    (s.block b).sealed = (blocks.getD b default).sealed ∧ (s.block b).preds = (blocks.getD b default).preds := by
  unfold Ssa.block
  rw [hs, getD_eq_getElem?_getD, getD_eq_getElem?_getD]
  rcases lt_or_ge b blocks.length with hlt | hge
  · rw [getElem?_append_left hlt]
    exact ⟨rfl, rfl⟩
  rw [getElem?_append_right hge, getElem?_eq_none hge]
  rcases Nat.eq_zero_or_pos (b - blocks.length) with hzero | hpos
  · rw [hzero]
    exact ⟨hblk.1, hblk.2⟩
  · rw [getElem?_eq_none (by rw [length_singleton]; omega)]
    exact ⟨rfl, rfl⟩

theorem BuildOk.block (h : BuildOk final now t) (hpart : Part final (now.step .block)) :
    BuildOk final (now.step .block) { t with ssa := (ssaBlock t.ssa).1 } := by
  have hblock : ∀ b, ((ssaBlock t.ssa).1.block b).sealed = (t.ssa.block b).sealed ∧
      ((ssaBlock t.ssa).1.block b).preds = (t.ssa.block b).preds :=
    fun b => block_append (s := (ssaBlock t.ssa).1) rfl ⟨rfl, rfl⟩ b
  have hlength : (ssaBlock t.ssa).1.blocks.length = t.ssa.blocks.length + 1 := length_append
  refine ⟨(h.sound.reshape (q := (ssaBlock t.ssa).1) rfl rfl rfl rfl (fun b hb => ?_) ?_ hpart ⟨?_, fun b => ?_, fun b => ?_, ?_⟩ rfl rfl
    (List.Perm.refl _) fun e he => he).2, fun e he => ?_⟩
  · rw [(hblock b).1]
    exact ⟨hb, (hblock b).2⟩
  · rw [hlength]
    omega
  · rw [hlength, h.sound.shaped.length]
    change _ = (now.preds ++ [[]]).length
    rw [length_append]
    rfl
  · rw [(hblock b).2, h.sound.shaped.preds, Plan.step_predsOf]
  · rw [(hblock b).1]
    exact h.sound.shaped.sealed b
  · exact h.sound.shaped.current
  · rw [(hblock _).1]
    exact h.waiting e he

theorem BuildOk.enter (h : BuildOk final now t) {b : Option Nat} (hpart : Part final (now.step (.enter b))) :
    BuildOk final (now.step (.enter b)) { t with ssa := { t.ssa with current := b } } := by
  refine ⟨(h.sound.reshape (q := { t.ssa with current := b }) rfl rfl rfl rfl (fun c hc => ⟨hc, rfl⟩) le_rfl hpart
    ⟨h.sound.shaped.length, fun c => ?_, h.sound.shaped.sealed, rfl⟩ rfl rfl (List.Perm.refl _) fun e he => he).2,
    h.waiting⟩
  rw [Plan.step_predsOf]
  exact h.sound.shaped.preds c

theorem ssaEdge_block (s : Ssa) (u v b : Nat) :
    ((ssaEdge s u v).block b).sealed = (s.block b).sealed ∧
      ((ssaEdge s u v).block b).preds = if b = v ∧ b < s.blocks.length then (s.block b).preds ++ [u] else (s.block b).preds := by
  unfold ssaEdge
  generalize hs : s.updateBlock u (fun blk =>
    if blk.succ0 = none then { blk with succ0 := some v } else { blk with succ1 := some v }) = s1
  have hkeeps : (s1.block b).sealed = (s.block b).sealed ∧ (s1.block b).preds = (s.block b).preds := by
    rw [← hs]
    refine updateBlock_keeps s u _ (fun blk => ?_) b
    split <;> exact ⟨rfl, rfl⟩
  have hlength : s1.blocks.length = s.blocks.length := by
    rw [← hs]
    exact Ssa.updateBlock_length ..
  by_cases hv : b = v
  · subst hv
    by_cases hin : b < s1.blocks.length
    · rw [Ssa.updateBlock_self hin, if_pos ⟨rfl, hlength ▸ hin⟩]
      exact ⟨hkeeps.1, by rw [hkeeps.2]⟩
    · rw [Ssa.updateBlock_outside hin, if_neg fun h => hin (hlength ▸ h.2)]
      exact hkeeps
  · rw [Ssa.updateBlock_other hv, if_neg fun h => hv h.1]
    exact hkeeps

theorem BuildOk.edge (h : BuildOk final now t) {u v : Nat} (hv : v < now.preds.length)
    (hpart : Part final (now.step (.edge u v))) :
    BuildOk final (now.step (.edge u v)) { t with ssa := ssaEdge t.ssa u v } := by
  have hblock := ssaEdge_block t.ssa u v
  have hlength : (ssaEdge t.ssa u v).blocks.length = t.ssa.blocks.length := by
    unfold ssaEdge
    simp
  have hopen : v ∉ now.sealed := by
    intro hsealed
    have hcomplete := hpart.complete v hsealed
    rw [h.sound.part.complete v hsealed, Plan.step_predsOf] at hcomplete
    dsimp only at hcomplete
    rw [if_pos ⟨rfl, hv⟩] at hcomplete
    have heq := congrArg length hcomplete
    rw [length_append, length_singleton] at heq
    omega
  refine ⟨(h.sound.reshape (q := ssaEdge t.ssa u v) rfl rfl rfl rfl (fun b hb => ?_) (le_of_eq hlength.symm) hpart
    ⟨?_, fun b => ?_, fun b => ?_, ?_⟩ rfl rfl (List.Perm.refl _) fun e he => he).2, fun e he => ?_⟩
  · rw [(hblock b).1, (hblock b).2, if_neg]
    · exact ⟨hb, rfl⟩
    · rintro ⟨rfl, -⟩
      exact hopen ((h.sound.shaped.sealed b).mp hb)
  · rw [hlength, h.sound.shaped.length]
    change _ = (now.preds.modify v (· ++ [u])).length
    rw [length_modify]
  · rw [(hblock b).2, h.sound.shaped.preds, Plan.step_predsOf, h.sound.shaped.length]
  · rw [(hblock b).1]
    exact h.sound.shaped.sealed b
  · exact h.sound.shaped.current
  · rw [(hblock _).1]
    exact h.waiting e he

theorem getElem?_append_cases {α : Type} {xs : List α} {y z : α} {k : Nat} (h : (xs ++ [y])[k]? = some z) :
    (k < xs.length ∧ xs[k]? = some z) ∨ (k = xs.length ∧ z = y) := by
  rcases lt_or_ge k xs.length with hlt | hge
  · rw [getElem?_append_left hlt] at h
    exact .inl ⟨hlt, h⟩
  rw [getElem?_append_right hge] at h
  obtain ⟨hk, hz⟩ := List.getElem?_eq_some_iff.mp h
  rw [length_singleton] at hk
  exact .inr ⟨by omega, by simpa using hz.symm⟩

theorem handle_append {handles homes : List Nat} (hlength : handles.length = homes.length) {k home id newHome newId : Nat}
    (hhome : (homes ++ [newHome])[k]? = some home) (hid : (handles ++ [newId])[k]? = some id) :
    (homes[k]? = some home ∧ handles[k]? = some id) ∨ (home = newHome ∧ id = newId) := by
  rcases getElem?_append_cases hhome with ⟨hlt, hold⟩ | ⟨hk, rfl⟩
  · rcases getElem?_append_cases hid with ⟨-, hold'⟩ | ⟨hk', -⟩
    · exact .inl ⟨hold, hold'⟩
    · omega
  rcases getElem?_append_cases hid with ⟨hlt, -⟩ | ⟨-, rfl⟩
  · omega
  · exact .inr ⟨rfl, rfl⟩

theorem lastWrite_logged {log : List (Nat × BuildEvent)} {c b x : Nat} {e : BuildEvent}
    (he : ∀ y id, e = .write y id → ¬ (c = b ∧ y = x)) :
    lastWrite x (blockLog (log ++ [(c, e)]) b) = lastWrite x (blockLog log b) := by
  rw [blockLog_append]
  split_ifs with hc
  · rw [lastWrite_append]
    cases e with
    | write y id =>
      dsimp only
      rw [if_neg fun hy => he y id rfl ⟨hc, hy⟩]
    | _ => rfl
  · rw [append_nil]

theorem blockLog_grows (log : List (Nat × BuildEvent)) (c : Nat) (e : BuildEvent) (b : Nat) :
    blockLog log b <+: blockLog (log ++ [(c, e)]) b := by
  rw [blockLog_append]
  exact prefix_append _ _

theorem ssaEmit_block (s : Ssa) (op : SsaOp) (cls : SsaClass) (a b c : Option Nat) (aux aux2 : BitVec 64) (d : Nat) :
    ((ssaEmit s op cls a b c aux aux2).1.block d).sealed = (s.block d).sealed ∧
      ((ssaEmit s op cls a b c aux aux2).1.block d).preds = (s.block d).preds :=
  updateBlock_keeps (ssaValue s (s.current.getD 0) op cls a b c aux aux2).1 (s.current.getD 0)
    (fun blk => { blk with values := blk.values ++ [s.values.length] }) (fun _ => ⟨rfl, rfl⟩) d

theorem Shaped.replan {now' : Plan} (h : Shaped now s) (hpreds : now'.preds = now.preds)
    (hsealed : now'.sealed = now.sealed) (hcurrent : now'.current = now.current) :
    Shaped now' s := by
  refine ⟨?_, fun b => ?_, fun b => ?_, ?_⟩
  · rw [hpreds]
    exact h.length
  · unfold Plan.predsOf
    rw [hpreds]
    exact h.preds b
  · rw [hsealed]
    exact h.sealed b
  · rw [hcurrent]
    exact h.current

theorem BuildOk.emit (h : BuildOk final now t) {op : SsaOp} {cls : SsaClass} {a b c : Option Nat} {aux aux2 : BitVec 64}
    (hphi : op ≠ .phi) (hcopy : op ≠ .copy) (hpart : Part final (now.step (.emit op cls a b c aux aux2)))
    (a' b' c' : Option Nat) :
    BuildOk final (now.step (.emit op cls a b c aux aux2))
      { ssa := (ssaEmit t.ssa op cls a' b' c' aux aux2).1
        handles := t.handles ++ [t.ssa.values.length]
        log := t.log ++ [(t.ssa.current.getD 0, .define t.ssa.values.length)] } := by
  have hcurrent : t.ssa.current = now.current := h.sound.shaped.current
  have hblock := ssaEmit_block t.ssa op cls a' b' c' aux aux2
  have hvalues : (ssaEmit t.ssa op cls a' b' c' aux aux2).1.values = t.ssa.values ++
      [{ op := op, cls := cls, a := a', b := b', c := c', aux := aux, aux2 := aux2, block := t.ssa.current.getD 0
         effect := op.hasEffect }] := rfl
  have hget := value_appended hvalues
  have hlength : (ssaEmit t.ssa op cls a' b' c' aux aux2).1.blocks.length = t.ssa.blocks.length :=
    Ssa.updateBlock_length ..
  obtain ⟨hcopies, -⟩ := h.sound.copies.append hvalues hcopy
  have hold : ∀ e ∈ t.ssa.pending, (ssaEmit t.ssa op cls a' b' c' aux aux2).1.value e.phi = t.ssa.value e.phi := by
    intro e he
    have hlt := (h.sound.opened e he).1
    rw [hget, if_neg (by omega)]
  have hlater : Keeps final t.ssa t.ssa.pending (ssaEmit t.ssa op cls a' b' c' aux aux2).1 t.ssa.pending :=
    .append h.sound.copies hvalues hcopy rfl rfl hblock (fun e he => he) fun e he => .inl he
  have hself : (ssaEmit t.ssa op cls a' b' c' aux aux2).1.value t.ssa.values.length =
      { op := op, cls := cls, a := a', b := b', c := c', aux := aux, aux2 := aux2, block := t.ssa.current.getD 0
        effect := op.hasEffect } := by
    rw [hget, if_pos rfl]
  have hlt : t.ssa.values.length < (ssaEmit t.ssa op cls a' b' c' aux aux2).1.values.length := by
    rw [hvalues, length_append]
    exact Nat.lt_succ_self _
  refine ⟨h.sound.step hlater hpart ((h.sound.shaped.congr hlength hblock rfl).replan rfl rfl rfl)
    (h.sound.defs.congr rfl rfl) hcopies
    (le_of_eq hlength.symm) (fun e he => .inl he) (fun e he _ => ?_) (fun e he => ?_) h.sound.distinct
    h.sound.waiting (fun phi hlt' hge hop => ?_) (fun y d hd => hd) (fun y d v _ hv => .inl ⟨v, hv, rfl, ?_⟩)
    (fun d x => ?_) (fun d x hw => .inl hw) (blockLog_grows t.log _ _) ?_ (fun k home id hhome hid _ => ?_)
    fun d earlier e later hd hlog => ?_, fun e he => ?_⟩
  · rw [hold e he]
    exact h.sound.op_open e he
  · rw [hold e he]
  · rw [hvalues, length_append, length_singleton] at hlt'
    have heq : phi = t.ssa.values.length := by omega
    subst heq
    rw [hself] at hop
    exact absurd hop (not_or.mpr ⟨hphi, hcopy⟩)
  · exact lastWrite_logged nofun
  · rw [lastWrite_logged fun _ _ he => by cases he]
    exact h.sound.wrote d x
  · change (t.handles ++ [_]).length = (now.homes ++ [_]).length
    rw [length_append, length_append, h.sound.homes.1]
    rfl
  · rcases handle_append h.sound.homes.1 hhome hid with hold' | ⟨rfl, rfl⟩
    · exact .inl hold'
    refine .inr ⟨?_, .inl ?_⟩
    · have hid' : root (ssaEmit t.ssa op cls a' b' c' aux aux2).1 t.ssa.values.length = t.ssa.values.length :=
        hcopies.root_self (by rw [hself]; exact hcopy)
      unfold Available
      rw [hid', hself, ← hcurrent]
      exact ⟨hlt, Dominates.refl _⟩
    · rw [blockLog_append, hcurrent, if_pos rfl]
      exact mem_append_right _ (mem_singleton_self _)
  · rcases logged_cases hlog with hold' | ⟨rfl, rfl, rfl⟩
    · exact .inl hold'
    refine .inr ⟨hlt, ?_, ?_, ?_, fun hmem => ?_⟩
    · rw [hself]
      exact hphi
    · rw [hself]
      exact hcopy
    · rw [hself]
    obtain ⟨earlier, later', hsplit⟩ := append_of_mem hmem
    have hevent := h.sound.events _ earlier _ later' hd hsplit
    exact absurd hevent.1 (lt_irrefl _)
  · rw [(hblock _).1]
    exact h.waiting e he

theorem BuildOk.write (h : BuildOk final now t) {x handle b : Nat} (hb : now.current = some b)
    (hallowed : Allowed final now (.write x handle)) (hpart : Part final (now.step (.write x handle))) :
    BuildOk final (now.step (.write x handle))
      { t with
        ssa := ssaDefine t.ssa x b (t.handles.getD handle 0)
        log := t.log ++ [(b, .write x (t.handles.getD handle 0))] } := by
  obtain ⟨⟨home, hhome, hdominates⟩, hunfilled⟩ := hallowed b hb
  have hin : b < t.ssa.blocks.length := by
    rw [h.sound.shaped.length]
    exact h.sound.part.current b hb
  obtain ⟨hk, -⟩ := List.getElem?_eq_some_iff.mp hhome
  have hhandle : t.handles[handle]? = some (t.handles.getD handle 0) := by
    rw [getD_eq_getElem?_getD, getElem?_eq_getElem (by rw [h.sound.homes.1]; exact hk), Option.getD_some]
  generalize t.handles.getD handle 0 = w at hhandle
  obtain ⟨hvalues, hblocks, -, hpending, hcur⟩ := ssaDefine_fields t.ssa x b w
  obtain ⟨hdefs, hget⟩ := ssaDefine_spec h.sound.defs x b w
  have hvalue := ssaDefine_value t.ssa x b w
  obtain ⟨hcopies, -⟩ := ssaDefine_copies h.sound.copies x b w
  have hblock := Ssa.block_congr hblocks
  have hlater : Keeps final t.ssa t.ssa.pending (ssaDefine t.ssa x b w) t.ssa.pending := by
    refine .define h.sound.part h.sound.defs h.sound.copies (h.sound.lt_room hin) fun _ ⟨c, _, hc⟩ => ?_
    rw [h.sound.shaped.preds] at hc
    exact absurd hc (hunfilled c)
  have hlog : ∀ c y, ¬ (c = b ∧ y = x) →
      lastWrite y (blockLog (t.log ++ [(b, .write x w)]) c) = lastWrite y (blockLog t.log c) := by
    intro c y hne
    refine lastWrite_logged fun z id hz => ?_
    cases hz
    exact fun h => hne ⟨h.1.symm, h.2.symm⟩
  have hlast : lastWrite x (blockLog (t.log ++ [(b, .write x w)]) b) = some w := by
    rw [blockLog_append, if_pos rfl, lastWrite_append]
    exact if_pos rfl
  -- What the handle stands for is there in the block.
  have havailable : final.Reached b → Available final t.ssa b w := by
    intro hreached
    obtain ⟨⟨hlt, hdom⟩, -⟩ := h.sound.homes.2 handle home w hhome hhandle (hdominates.reached hreached)
    exact ⟨hlt, hdom.trans hdominates⟩
  have hkept : Keeps final t.ssa t.ssa.pending (ssaDefine t.ssa x b w) (ssaDefine t.ssa x b w).pending := hpending ▸ hlater
  refine ⟨h.sound.step hkept hpart
    ((h.sound.shaped.congr (by rw [hblocks]) (fun c => ?_) hcur).replan rfl rfl rfl) hdefs hcopies
    (le_of_eq (congrArg length hblocks.symm)) (fun e he => ?_) (fun e he _ => ?_) (fun e he => ?_) ?_ (fun e he => he)
    (fun phi hphi hge _ => ?_) (fun y c hne => ?_) (fun y c v hc hv => ?_) (fun c y => ?_) (fun c y hw => ?_)
    (blockLog_grows t.log _ _) h.sound.homes.1 (fun k home' id hhome' hid _ => .inl ⟨hhome', hid⟩)
    fun c earlier e later hc hlogged => ?_, fun e he => ?_⟩
  · rw [hblock]
    exact ⟨rfl, rfl⟩
  · rw [hpending] at he
    exact .inl he
  · rw [hvalue]
    exact h.sound.op_open e he
  · rw [hvalue]
  · rw [hpending]
    exact h.sound.distinct
  · rw [hvalues] at hphi
    omega
  · rw [hget]
    split
    · exact Option.some_ne_none _
    · exact hne
  · rw [hget] at hv
    split_ifs at hv with hkey
    · cases hv
      obtain ⟨rfl, rfl⟩ := defKey_inj (h.sound.part.reached_lt hc) (h.sound.lt_room hin) hkey
      refine .inr ⟨?_, hlater.available c w hc (havailable hc)⟩
      unfold Current
      rw [hlast]
    refine .inl ⟨v, hv, rfl, hlog c y ?_⟩
    rintro ⟨rfl, rfl⟩
    exact hkey rfl
  · rw [Plan.mem_written]
    by_cases hcase : c = b ∧ y = x
    · obtain ⟨rfl, rfl⟩ := hcase
      rw [hlast]
      exact iff_of_true (.inr ⟨y, handle, rfl, hb, rfl⟩) (Option.some_ne_none _)
    rw [hlog c y hcase, ← h.sound.wrote]
    refine or_iff_left ?_
    rintro ⟨var, handle', hcall, hcur', rfl⟩
    cases hcall
    rw [hb] at hcur'
    cases hcur'
    exact hcase ⟨rfl, rfl⟩
  · rcases (Plan.mem_written _ _ _).mp hw with hold | ⟨var, handle', hcall, hcur', rfl⟩
    · exact .inl hold
    cases hcall
    rw [hb] at hcur'
    cases hcur'
    refine .inr ?_
    rw [ssaDefined_self h.sound.defs]
    exact Option.some_ne_none _
  · rcases logged_cases hlogged with hold | ⟨rfl, rfl, rfl⟩
    · exact .inl hold
    refine .inr ?_
    obtain ⟨hhomeAvailable, hwhere⟩ := h.sound.homes.2 handle home w hhome hhandle (hdominates.reached hc)
    by_cases hsame : home = b
    · subst hsame
      exact .inr hwhere
    · exact .inl ⟨home, hsame, hdominates, hlater.available home w (hdominates.reached hc) hhomeAvailable⟩
  · rw [hpending] at he
    rw [hblock]
    exact h.waiting e he

theorem BuildOk.read (h : BuildOk final now t) {x b : Nat} {cls : SsaClass} {s' : Ssa} {v : Nat}
    (hallowed : Allowed final now (.read x b cls)) (hpart : Part final (now.step (.read x b cls)))
    (hread : ssaRead t.ssa x b cls = some (s', v)) :
    BuildOk final (now.step (.read x b cls))
      { ssa := s', handles := t.handles ++ [v], log := t.log ++ [(b, .read x v)] } := by
  have hin : b < t.ssa.blocks.length := by
    rw [h.sound.shaped.length]
    exact hallowed.1
  obtain ⟨more, hgrown, -, hsound, hresult⟩ := readLoop_spec _ x (fun _ => cls) t.ssa.pending t.ssa b s' v h.sound hin
    (fun _ => hallowed.2) hread
  rw [← hgrown.pending] at hsound
  have hcurrent : final.Reached b → Current final s' s'.pending (blockLog t.log b) b x v ∧ Available final s' b v := by
    intro hreached
    obtain ⟨w, hw, hroot⟩ := hresult hreached
    obtain ⟨hcur, havailable⟩ := hsound.table x b w hreached hw
    exact ⟨hcur.congr hroot, havailable.congr hroot⟩
  have hlog : ∀ c y, lastWrite y (blockLog (t.log ++ [(b, .read x v)]) c) = lastWrite y (blockLog t.log c) :=
    fun c y => lastWrite_logged nofun
  refine ⟨hsound.step (Keeps.refl (fun _ he => he) (fun _ he => he) s') hpart (hsound.shaped.replan rfl rfl rfl)
    hsound.defs hsound.copies le_rfl (fun e he => .inl he) (fun e he _ => hsound.op_open e he) (fun _ _ => rfl)
    hsound.distinct hsound.waiting (fun phi hphi hge _ => absurd hphi (Nat.not_lt_of_le hge)) (fun _ _ hd => hd)
    (fun y c u _ hu => .inl ⟨u, hu, rfl, hlog c y⟩) (fun c y => ?_) (fun c y hw => .inl hw)
    (blockLog_grows t.log _ _) ?_ (fun k home id hhome hid hreached => ?_) fun c earlier e later hc hlogged => ?_,
    fun e he => ?_⟩
  · rw [hlog]
    exact hsound.wrote c y
  · change (t.handles ++ [v]).length = (now.homes ++ [b]).length
    rw [length_append, length_append, h.sound.homes.1]
    rfl
  · rcases handle_append h.sound.homes.1 hhome hid with hold | ⟨rfl, rfl⟩
    · exact .inl hold
    refine .inr ⟨(hcurrent hreached).2, .inr ⟨x, ?_⟩⟩
    rw [blockLog_append, if_pos rfl]
    exact mem_append_right _ (mem_singleton_self _)
  · rcases logged_cases hlogged with hold | ⟨rfl, rfl, rfl⟩
    · exact .inl hold
    · exact .inr (hcurrent hc).1
  · rw [hgrown.pending] at he
    rw [(hgrown.blocks _).1]
    rcases mem_append.mp he with he | he
    · exact h.waiting e he
    · exact hgrown.fresh e he

theorem takePending_spec {i : Nat} {p : SsaPending} (hp : s.pending[i]? = some p) :
    ∃ rest, takePending s i = { s with pending := rest } ∧ s.pending.Perm (p :: rest) ∧
      ∀ j < i, rest[j]? = s.pending[j]? := by
  obtain ⟨hi, -⟩ := List.getElem?_eq_some_iff.mp hp
  have hlast : s.pending.getLast? = some (s.pending.getLast (by rintro hnil; rw [hnil] at hi; cases hi)) :=
    getLast?_eq_some_getLast _
  refine ⟨(s.pending.set i (s.pending.getLast (by rintro hnil; rw [hnil] at hi; cases hi))).dropLast, ?_,
    removal_perm hp hlast, fun j hj => ?_⟩
  · unfold takePending
    rw [hlast]
  · rw [getElem?_dropLast, if_pos (by rw [length_set]; omega), getElem?_set_ne (by omega)]

/-- What holds while the phis of a sealed block are given their operands: those at the first `i` places
wait for other blocks. -/
structure Sealing (final now : Plan) (t : Build) (block i : Nat) (s : Ssa) : Prop where
  sound : Sound final now { t with ssa := s } s.pending
  sealed : (s.block block).sealed = true
  waiting : ∀ e ∈ s.pending, e.block = block ∨ (s.block e.block).sealed = false
  passed : ∀ j < i, ∀ e, s.pending[j]? = some e → e.block ≠ block

theorem Sealing.take {block i : Nat} {s' : Ssa} {p : SsaPending} {v : Nat}
    (h : Sealing final now t block i s) (hp : s.pending[i]? = some p) (hblock : p.block = block)
    (hrun : ssaPhiOperands (fun s pred => ssaRead s p.var pred (s.value p.phi).cls) (takePending s i) p.phi =
      some (s', v)) : Sealing final now t block i s' := by
  obtain ⟨rest, htake, hperm, hkept⟩ := takePending_spec hp
  rw [htake] at hrun
  obtain ⟨-, hsound⟩ := h.sound.same (q := { s with pending := rest }) rfl rfl rfl rfl rfl rfl hperm fun e he =>
    hperm.mem_iff.mpr (mem_cons_of_mem _ he)
  have hread : Reads final now t p.var fun s pred => ssaRead s p.var pred (s.value p.phi).cls := by
    intro opens s0 q s1 u hs0 hq hneeded hrun0
    exact readLoop_spec _ p.var (fun s => (s.value p.phi).cls) opens s0 q s1 u hs0 hq hneeded hrun0
  have hsealed : ((({ s with pending := rest } : Ssa)).block p.block).sealed = true := by
    rw [hblock]
    exact h.sealed
  obtain ⟨more, hgrown, -, hsound', -⟩ := ssaPhiOperands_spec hread hsound (fun d hd => hd) hsealed hrun
  have hpending : s'.pending = rest ++ more := hgrown.pending
  rw [← hpending] at hsound'
  have hi : i < s.pending.length := (List.getElem?_eq_some_iff.mp hp).1
  have hlength : i ≤ rest.length := by
    have hlen := hperm.length_eq
    rw [length_cons] at hlen
    omega
  refine ⟨hsound', (hgrown.blocks block).1.trans h.sealed, fun e he => ?_, fun j hj e he => ?_⟩
  · rw [hpending] at he
    rw [(hgrown.blocks e.block).1]
    rcases mem_append.mp he with he | he
    · exact h.waiting e (hperm.mem_iff.mpr (mem_cons_of_mem _ he))
    · exact .inr (hgrown.fresh e he)
  · rw [hpending, getElem?_append_left (by omega), hkept j hj] at he
    exact h.passed j hj e he

theorem sealLoop_spec {block : Nat} : ∀ (fuel i : Nat) {s s' : Ssa}, Sealing final now t block i s →
    sealLoop block fuel i s = some s' →
    Sound final now { t with ssa := s' } s'.pending ∧ ∀ e ∈ s'.pending, (s'.block e.block).sealed = false := by
  intro fuel
  induction fuel with
  | zero =>
    intro i s s' _ hrun
    cases hrun
  | succ fuel ih =>
    intro i s s' h hrun
    unfold sealLoop at hrun
    split at hrun
    · rename_i hp
      cases hrun
      refine ⟨h.sound, fun e he => (h.waiting e he).resolve_left ?_⟩
      obtain ⟨j, hj, hget⟩ := getElem_of_mem he
      have hlength := getElem?_eq_none_iff.mp hp
      exact h.passed j (by omega) e (List.getElem?_eq_some_iff.mpr ⟨hj, hget⟩)
    rename_i p hp
    by_cases hblock : p.block = block
    · rw [if_neg (not_not_intro hblock)] at hrun
      obtain ⟨⟨s1, v⟩, hphi, hrun⟩ := Option.bind_eq_some_iff.mp hrun
      exact ih i (h.take hp hblock hphi) hrun
    rw [if_pos hblock] at hrun
    refine ih (i + 1) ⟨h.sound, h.sealed, h.waiting, fun j hj e he => ?_⟩ hrun
    rcases Nat.lt_succ_iff_lt_or_eq.mp hj with hlt | rfl
    · exact h.passed j hlt e he
    rw [hp] at he
    cases he
    exact hblock

theorem BuildOk.sealing (h : BuildOk final now t) {b : Nat} (hallowed : Allowed final now (.sealBlock b))
    (hpart : Part final (now.step (.sealBlock b))) :
    Sealing final (now.step (.sealBlock b)) t b 0 (t.ssa.updateBlock b ({ · with sealed := true })) := by
  have hin : b < t.ssa.blocks.length := by
    rw [h.sound.shaped.length]
    exact hallowed.1
  have hmem : ∀ c, c ∈ (now.step (.sealBlock b)).sealed ↔ c ∈ now.sealed ∨ c = b := by
    intro c
    change c ∈ now.sealed ++ [b] ↔ _
    rw [mem_append, mem_singleton]
  have hother : ∀ c, ((t.ssa.updateBlock b ({ · with sealed := true })).block c).preds = (t.ssa.block c).preds ∧
      (((t.ssa.updateBlock b ({ · with sealed := true })).block c).sealed = true ↔
        (t.ssa.block c).sealed = true ∨ c = b) := by
    intro c
    by_cases hc : c = b
    · subst hc
      rw [Ssa.updateBlock_self hin]
      exact ⟨rfl, iff_of_true rfl (.inr rfl)⟩
    · rw [Ssa.updateBlock_other hc]
      exact ⟨rfl, (or_iff_left hc).symm⟩
  have hlength : (t.ssa.updateBlock b ({ · with sealed := true })).blocks.length = t.ssa.blocks.length :=
    Ssa.updateBlock_length ..
  have hshaped : Shaped (now.step (.sealBlock b)) (t.ssa.updateBlock b ({ · with sealed := true })) := by
    refine ⟨hlength.trans h.sound.shaped.length, fun c => (hother c).1.trans (h.sound.shaped.preds c), fun c => ?_,
      h.sound.shaped.current⟩
    rw [(hother c).2, hmem, h.sound.shaped.sealed]
  refine ⟨(h.sound.reshape (q := t.ssa.updateBlock b ({ · with sealed := true })) rfl rfl rfl rfl
    (fun c hc => ⟨(hother c).2.mpr (.inl hc), (hother c).1⟩)
    (le_of_eq hlength.symm) hpart hshaped rfl rfl (List.Perm.refl _) fun e he => he).2,
    (hother b).2.mpr (.inr rfl), fun e he => ?_, fun j hj => absurd hj (Nat.not_lt_zero j)⟩
  by_cases hb : e.block = b
  · exact .inl hb
  refine .inr ?_
  rw [← Bool.not_eq_true, (hother e.block).2, not_or, Bool.not_eq_true]
  exact ⟨h.waiting e he, hb⟩

theorem BuildOk.sealBlock (h : BuildOk final now t) {b : Nat} {s' : Ssa} (hallowed : Allowed final now (.sealBlock b))
    (hpart : Part final (now.step (.sealBlock b))) (hseal : ssaSeal t.ssa b = some s') :
    BuildOk final (now.step (.sealBlock b)) { t with ssa := s' } := by
  unfold ssaSeal at hseal
  split_ifs at hseal with hsealed
  · cases hseal
    refine ⟨(h.sound.reshape (q := t.ssa) rfl rfl rfl rfl (fun c hc => ⟨hc, rfl⟩) le_rfl hpart
      ⟨h.sound.shaped.length, h.sound.shaped.preds, fun c => ?_, h.sound.shaped.current⟩ rfl rfl (List.Perm.refl _)
      fun e he => he).2, h.waiting⟩
    change _ ↔ c ∈ now.sealed ++ [b]
    rw [mem_append, mem_singleton, ← h.sound.shaped.sealed]
    refine ⟨.inl, ?_⟩
    rintro (hc | rfl)
    · exact hc
    · exact hsealed
  · obtain ⟨hsound, hwaiting⟩ := sealLoop_spec _ 0 (h.sealing hallowed hpart) hseal
    exact ⟨hsound, hwaiting⟩

theorem BuildOk.step (h : BuildOk final now t) {call : BuildCall} (hallowed : Allowed final now call)
    (hpart : Part final (now.step call)) (hstep : buildStep t call = some t') : BuildOk final (now.step call) t' := by
  cases call with
  | block =>
    cases hstep
    exact h.block hpart
  | enter b =>
    cases hstep
    exact h.enter hpart
  | emit op cls a b c aux aux2 =>
    cases hstep
    exact h.emit hallowed.1 hallowed.2.1 hpart _ _ _
  | write x handle =>
    unfold buildStep at hstep
    have hcurrent : t.ssa.current = now.current := h.sound.shaped.current
    cases hb : now.current with
    | none =>
      rw [hcurrent, hb] at hstep
      cases hstep
      have hsame : now.step (.write x handle) = now := by
        have hwritten : now.written ++ now.current.toList.map (fun b => (b, x)) = now.written := by
          rw [hb, Option.toList_none, map_nil, append_nil]
        change { now with written := now.written ++ now.current.toList.map fun b => (b, x) } = now
        rw [hwritten]
      rw [hsame]
      exact h
    | some b =>
      rw [hcurrent, hb] at hstep
      cases hstep
      unfold ssaWrite
      rw [hcurrent, hb]
      exact h.write hb hallowed hpart
  | read x b cls =>
    obtain ⟨⟨s', v⟩, hread, hstep⟩ := Option.bind_eq_some_iff.mp hstep
    cases hstep
    exact h.read hallowed hpart hread
  | edge u v =>
    cases hstep
    exact h.edge hallowed.2 hpart
  | sealBlock b =>
    obtain ⟨s', hseal, hstep⟩ := Option.bind_eq_some_iff.mp hstep
    cases hstep
    exact h.sealBlock hallowed hpart hseal

end

end Dyn.Backend
