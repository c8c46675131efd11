import Dyn.Backend.ConstructionRuns

/-!
# backend/ssa: reads end

A read goes back along the blocks with one predecessor until it comes to a block where the
variable is known or gets a phi.  It ends where no such way back is a circle, and a circle of
blocks with one predecessor each is never reached.
-/

namespace Dyn.Backend

open List
open Lib Lib.Flow

/-- No circle of unreached blocks with one predecessor each leads to the block. -/
inductive Grounded (p : Plan) : Nat → Prop
  | reached {b : Nat} : p.Reached b → Grounded p b
  | several {b : Nat} : (p.predsOf b).length ≠ 1 → Grounded p b
  | one {b u : Nat} : p.predsOf b = [u] → Grounded p u → Grounded p b

/-- The block at which a read goes on without a phi. -/
def singlePred (s : Ssa) (x b : Nat) : Option Nat :=
  if ssaDefined s x b = none ∧ (s.block b).sealed = true then
    match (s.block b).preds with
    | [p] => some p
    | _ => none
  else none

theorem singlePred_some {s : Ssa} {x b p : Nat} (h : singlePred s x b = some p) :
    ssaDefined s x b = none ∧ (s.block b).sealed = true ∧ (s.block b).preds = [p] := by
  unfold singlePred at h
  split at h
  · rename_i hcase
    split at h
    · rename_i q hq
      cases h
      exact ⟨hcase.1, hcase.2, hq⟩
    · cases h
  · cases h

section

variable {final now : Plan} {t : Build} {opens : List SsaPending}

variable {x b : Nat} {read : Ssa → Nat → Option (Ssa × Nat)} {s : Ssa}

theorem Sound.descent_step (h : Sound final now t opens)
    (hwanted : final.Reached b → (b, x) ∈ now.written ∨ final.Needed x b)
    (hpred : ∀ p, (t.ssa.block b).preds = [p] → (t.ssa.block b).sealed = true → ssaDefined t.ssa x b = none →
      (final.Reached p → (p, x) ∈ now.written ∨ final.Needed x p) → ∃ n r, Descent (singlePred t.ssa x) n p r)
    :
    ∃ n r, Descent (singlePred t.ssa x) n b r := by
  cases hsingle : singlePred t.ssa x b with
  | none => exact ⟨0, b, .stop hsingle⟩
  | some p =>
    obtain ⟨hnone, hsealed, hpreds⟩ := singlePred_some hsingle
    have hneeded : final.Reached b → final.Needed x b := fun hreached =>
      (hwanted hreached).resolve_left fun hw => h.held b x hw hnone
    obtain ⟨-, hwanted'⟩ := h.pred_needed hsealed (hpreds ▸ mem_singleton_self p) hneeded
    obtain ⟨n, r, hdescent⟩ := hpred p hpreds hsealed hnone hwanted'
    exact ⟨n + 1, r, .step hsingle hdescent⟩

theorem Sound.descent_reached (h : Sound final now t opens) : ∀ {trail : List Nat} {b : Nat},
    Trail final.Edge 0 trail b → (final.Reached b → (b, x) ∈ now.written ∨ final.Needed x b) →
    ∃ n r, Descent (singlePred t.ssa x) n b r := by
  intro trail b htrail
  induction htrail with
  | start =>
    intro hwanted
    refine h.descent_step hwanted fun p _ _ hnone _ => ?_
    have hneeded : final.Needed x 0 :=
      (hwanted entry_reached).resolve_left fun hw => h.held 0 x hw hnone
    exact absurd rfl (needed_ne_entry hneeded)
  | @step u v trail hbefore hedge ih =>
    intro hwanted
    refine h.descent_step hwanted fun p hpreds hsealed _ hwanted' => ?_
    unfold Plan.Edge at hedge
    rw [h.part.complete v ((h.shaped.sealed v).mp hsealed), ← h.shaped.preds, hpreds] at hedge
    cases mem_singleton.mp hedge
    exact ih hwanted'

theorem Sound.descent (h : Sound final now t opens) (hb : Grounded final b)
    (hwanted : final.Reached b → (b, x) ∈ now.written ∨ final.Needed x b) :
    ∃ n ≤ t.ssa.blocks.length, ∃ r, Descent (singlePred t.ssa x) n b r := by
  have hdescent : ∃ n r, Descent (singlePred t.ssa x) n b r := by
    induction hb with
    | reached hreached =>
      obtain ⟨trail, htrail⟩ := hreached
      exact h.descent_reached htrail hwanted
    | @several b hseveral =>
      refine h.descent_step hwanted fun p hpreds hsealed _ _ => absurd ?_ hseveral
      rw [h.part.complete b ((h.shaped.sealed b).mp hsealed), ← h.shaped.preds, hpreds, length_singleton]
    | @one b u hone _ ih =>
      refine h.descent_step hwanted fun p hpreds hsealed _ hwanted' => ?_
      rw [h.part.complete b ((h.shaped.sealed b).mp hsealed), ← h.shaped.preds, hpreds] at hone
      cases hone
      exact ih hwanted'
  obtain ⟨n, r, hd⟩ := hdescent
  have hlength := hd.le_length (range t.ssa.blocks.length) fun u hu => ?_
  · rw [length_range] at hlength
    exact ⟨n, hlength, r, hd⟩
  obtain ⟨p, hp⟩ := Option.ne_none_iff_exists'.mp hu
  obtain ⟨-, -, hpreds⟩ := singlePred_some hp
  rw [h.shaped.preds] at hpreds
  rw [mem_range, h.shaped.length]
  exact Plan.edge_lt (u := p) (by
    unfold Plan.Edge
    rw [hpreds]
    exact mem_singleton_self p)

theorem undefinedBlocks_length (s : Ssa) (x : Nat) : undefinedBlocks s x ≤ s.blocks.length := by
  have h := countP_le_length (p := fun b => decide (ssaDefined s x b = none)) (l := range s.blocks.length)
  rw [length_range] at h
  exact h

/-- The operands of a phi are read where every read ends that leaves no more blocks to define. -/
theorem readOperands_total (hread : Reads final now t x read) {size room : Nat}
    (htotal : ∀ (opens : List SsaPending) (s : Ssa) (p : Nat), Sound final now { t with ssa := s } opens →
      s.blocks.length = size → undefinedBlocks s x ≤ room → p < s.blocks.length →
      (final.Reached p → (p, x) ∈ now.written ∨ final.Needed x p) → ∃ r, read s p = some r) :
    ∀ (preds : List Nat) (opens : List SsaPending) (s : Ssa), Sound final now { t with ssa := s } opens →
      s.blocks.length = size → undefinedBlocks s x ≤ room →
      (∀ p ∈ preds, p < s.blocks.length ∧ (final.Reached p → (p, x) ∈ now.written ∨ final.Needed x p)) →
      ∃ r, readOperands read preds s = some r := by
  intro preds
  induction preds with
  | nil => exact fun opens s _ _ _ _ => ⟨_, rfl⟩
  | cons pred preds ih =>
    intro opens s h hsize hroom hpreds
    obtain ⟨hin, hwanted⟩ := hpreds pred mem_cons_self
    obtain ⟨⟨s1, item⟩, hfirst⟩ := htotal opens s pred h hsize hroom hin hwanted
    obtain ⟨more, hgrown, -, hsound, -⟩ := hread opens s pred s1 item h hin hwanted hfirst
    have hroom1 := hgrown.room
    obtain ⟨⟨s2, items⟩, hrest⟩ := ih (opens ++ more) s1 hsound (hgrown.length.trans hsize) (by omega) fun p hp => by
      obtain ⟨hin', hwanted'⟩ := hpreds p (mem_cons_of_mem _ hp)
      exact ⟨hgrown.length ▸ hin', hwanted'⟩
    refine ⟨(s2, item :: items), ?_⟩
    unfold readOperands
    rw [hfirst]
    dsimp only [Option.bind_eq_bind, Option.bind_some]
    rw [hrest]
    rfl

theorem ssaPhiOperands_total {e : SsaPending} (hread : Reads final now t e.var read)
    (h : Sound final now { t with ssa := s } (e :: opens))
    (hsealed : (s.block e.block).sealed = true)
    (htotal : ∀ (opens : List SsaPending) (s' : Ssa) (p : Nat), Sound final now { t with ssa := s' } opens →
      s'.blocks.length = s.blocks.length → undefinedBlocks s' e.var ≤ undefinedBlocks s e.var →
      p < s'.blocks.length → (final.Reached p → (p, e.var) ∈ now.written ∨ final.Needed e.var p) →
      ∃ r, read s' p = some r) : ∃ r, ssaPhiOperands read s e.phi = some r := by
  obtain ⟨-, -, hblock, -, hneeded, -⟩ := h.opened e mem_cons_self
  have hpreds : ∀ p ∈ (s.block e.block).preds, p < s.blocks.length ∧
      (final.Reached p → (p, e.var) ∈ now.written ∨ final.Needed e.var p) := fun p hp =>
    h.pred_needed hsealed hp hneeded
  obtain ⟨⟨s1, items⟩, hoperands⟩ := readOperands_total hread htotal (s.block e.block).preds (e :: opens) s h rfl
    le_rfl hpreds
  obtain ⟨more, -, -, hsound, -⟩ := readOperands_spec hread _ (e :: opens) s s1 items h hpreds hoperands
  rw [cons_append] at hsound
  obtain ⟨-, -, hsound2⟩ := hsound.listOperands mem_cons_self items (s.block e.block).preds.length
  obtain ⟨c, hc, -⟩ := commonOperand_spec hsound2.copies e.phi items none nofun
  rw [ssaPhiOperands_eq, hblock, hoperands]
  dsimp only [Option.bind_some]
  rw [hc]
  exact ⟨_, rfl⟩

/-- **A read ends**, with fuel for every block that it may define and every way back between two of them. -/
theorem readLoop_total (hground : ∀ b < t.ssa.blocks.length, Grounded final b) :
    ∀ (fuel : Nat) (opens : List SsaPending) (s : Ssa) (x b n r : Nat) (cls : SsaClass),
    Sound final now { t with ssa := s } opens → s.blocks.length = t.ssa.blocks.length → b < s.blocks.length →
    (final.Reached b → (b, x) ∈ now.written ∨ final.Needed x b) → Descent (singlePred s x) n b r →
    undefinedBlocks s x * (s.blocks.length + 1) + n < fuel → ∃ result, readLoop fuel s x b cls = some result := by
  intro fuel
  induction fuel with
  | zero => exact fun _ _ _ _ _ _ _ _ _ _ _ _ hfuel => absurd hfuel (Nat.not_lt_zero _)
  | succ fuel ih =>
    intro opens s x b n r cls h hsize hb hwanted hdescent hfuel
    unfold readLoop
    cases hdefined : ssaDefined s x b with
    | some value =>
      dsimp only [Option.bind_eq_bind]
      have hresolve : ssaResolve s value = some (root s value) := h.copies.resolve value
      rw [hresolve]
      exact ⟨_, rfl⟩
    | none =>
      dsimp only
      split_ifs with hsealed
      · exact ⟨_, rfl⟩
      rw [Bool.not_eq_false] at hsealed
      have hneeded : final.Reached b → final.Needed x b := fun hreached =>
        (hwanted hreached).resolve_left fun hw => h.held b x hw hdefined
      cases hpreds : (s.block b).preds with
      | nil => exact ⟨_, rfl⟩
      | cons p rest =>
        cases rest with
        | nil =>
          have hsingle : singlePred s x b = some p := by
            unfold singlePred
            rw [if_pos ⟨hdefined, hsealed⟩, hpreds]
          cases hdescent with
          | stop hstop =>
            rw [hsingle] at hstop
            cases hstop
          | @step _ u _ n hnext hrest =>
            rw [hsingle] at hnext
            cases hnext
            obtain ⟨hin, hwanted'⟩ := h.pred_needed (x := x) hsealed (hpreds ▸ mem_singleton_self p) hneeded
            obtain ⟨⟨s1, v⟩, hread⟩ := ih opens s x p n r cls h hsize hin hwanted' hrest (by omega)
            dsimp only [Option.bind_eq_bind]
            rw [hread]
            exact ⟨_, rfl⟩
        | cons q rest =>
          obtain ⟨-, hsound0⟩ := h.enterPhi cls hb hneeded hdefined
          have hgrown0 := enterPhi_grown h.defs cls hdefined
          have hroom0 : undefinedBlocks (enterPhi s x b cls) x + 1 ≤ undefinedBlocks s x :=
            enterPhi_room h.defs cls hb hdefined
          have hread : Reads final now t x fun s' p => readLoop fuel s' x p (s'.value s.values.length).cls :=
            readLoop_spec fuel x fun s' => (s'.value s.values.length).cls
          obtain ⟨result, hresult⟩ := ssaPhiOperands_total hread hsound0 ((hgrown0.blocks b).1.trans hsealed)
            fun opens' s' u hs' hsize' hroom' hu hwanted' => by
              obtain ⟨m, hm, r', hdescent'⟩ := hs'.descent (x := x) (hground u (by
                rw [← hsize, ← hgrown0.length, ← hsize']
                exact hu)) hwanted'
              refine ih opens' s' x u m r' _ hs' ((hsize'.trans hgrown0.length).trans hsize) hu hwanted' hdescent' ?_
              have hlen : s'.blocks.length = s.blocks.length := hsize'.trans hgrown0.length
              change undefinedBlocks s' x ≤ undefinedBlocks (enterPhi s x b cls) x at hroom'
              rw [hlen] at hm ⊢
              have hmul : (undefinedBlocks s' x + 1) * (s.blocks.length + 1) ≤
                  undefinedBlocks s x * (s.blocks.length + 1) := Nat.mul_le_mul_right _ (by omega)
              rw [add_mul, one_mul] at hmul
              omega
          unfold enterPhi at hresult
          have hphi : (ssaNewPhi s b cls).2 = s.values.length := rfl
          rw [hphi, hresult]
          exact ⟨_, rfl⟩

theorem ssaRead_total (hground : ∀ b < t.ssa.blocks.length, Grounded final b)
    (h : Sound final now { t with ssa := s } opens) (hsize : s.blocks.length = t.ssa.blocks.length)
    (hb : b < s.blocks.length) (hwanted : final.Reached b → (b, x) ∈ now.written ∨ final.Needed x b)
    (cls : SsaClass) : ∃ result, ssaRead s x b cls = some result := by
  obtain ⟨n, hn, r, hdescent⟩ := h.descent (x := x) (hground b (hsize ▸ hb)) hwanted
  refine readLoop_total hground _ opens s x b n r cls h hsize hb hwanted hdescent ?_
  change n ≤ s.blocks.length at hn
  have hroom : undefinedBlocks s x * (s.blocks.length + 1) ≤ s.blocks.length * (s.blocks.length + 1) :=
    Nat.mul_le_mul_right _ (undefinedBlocks_length s x)
  have hbound : (s.blocks.length + 1) * (s.blocks.length + 2) =
      s.blocks.length * (s.blocks.length + 1) + 2 * (s.blocks.length + 1) := by
    ring
  omega

/-- The phis of a block that still wait from the `i`-th place on. -/
def waitingPhis (s : Ssa) (block i : Nat) : Nat := (s.pending.drop i).countP fun e => e.block = block

theorem takePending_waiting {block i : Nat} {p : SsaPending} (hp : s.pending[i]? = some p)
    (hblock : p.block = block) {rest more : List SsaPending} (hperm : s.pending.Perm (p :: rest))
    (hkept : ∀ j < i, rest[j]? = s.pending[j]?) (hmore : ∀ e ∈ more, e.block ≠ block) :
    ((rest ++ more).drop i).countP (fun e => decide (e.block = block)) + 1 = waitingPhis s block i := by
  have hi : i < s.pending.length := (List.getElem?_eq_some_iff.mp hp).1
  have hlength : i ≤ rest.length := by
    have hlen := hperm.length_eq
    rw [length_cons] at hlen
    omega
  have htake : rest.take i = s.pending.take i := by
    refine ext_getElem? fun j => ?_
    rw [getElem?_take, getElem?_take]
    by_cases hj : j < i
    · rw [if_pos hj, if_pos hj]
      exact hkept j hj
    · rw [if_neg hj, if_neg hj]
  have hall : s.pending.countP (fun e => decide (e.block = block)) =
      rest.countP (fun e => decide (e.block = block)) + 1 := by
    rw [hperm.countP_eq, countP_cons_of_pos (by simpa using hblock)]
  have hsplit : ∀ xs : List SsaPending, xs.countP (fun e => decide (e.block = block)) =
      (xs.take i).countP (fun e => decide (e.block = block)) +
        (xs.drop i).countP (fun e => decide (e.block = block)) := by
    intro xs
    rw [← countP_append, take_append_drop]
  have hnone : more.countP (fun e => decide (e.block = block)) = 0 :=
    countP_eq_zero.mpr fun e he => by simpa using hmore e he
  have hpending := hsplit s.pending
  have hrest := hsplit rest
  unfold waitingPhis
  rw [drop_append_of_le_length hlength, countP_append, hnone]
  rw [htake] at hrest
  omega

theorem sealLoop_total (hground : ∀ b < t.ssa.blocks.length, Grounded final b) {block : Nat} :
    ∀ (fuel i : Nat) (s : Ssa), Sealing final now t block i s → s.blocks.length = t.ssa.blocks.length →
    s.pending.length - i + waitingPhis s block i * s.blocks.length < fuel → ∃ s', sealLoop block fuel i s = some s' := by
  intro fuel
  induction fuel with
  | zero => exact fun _ _ _ _ hfuel => absurd hfuel (Nat.not_lt_zero _)
  | succ fuel ih =>
    intro i s h hsize hfuel
    unfold sealLoop
    cases hp : s.pending[i]? with
    | none => exact ⟨_, rfl⟩
    | some p =>
      obtain ⟨hi, hget⟩ := List.getElem?_eq_some_iff.mp hp
      have hdrop : s.pending.drop i = p :: s.pending.drop (i + 1) := by
        rw [← hget]
        exact drop_eq_getElem_cons hi
      dsimp only
      by_cases hblock : p.block = block
      · rw [if_neg (not_not_intro hblock)]
        obtain ⟨rest, htake, hperm, hkept⟩ := takePending_spec hp
        obtain ⟨-, hsound⟩ := h.sound.same (q := { s with pending := rest }) rfl rfl rfl rfl rfl rfl hperm
          fun e he => hperm.mem_iff.mpr (mem_cons_of_mem _ he)
        have hread : Reads final now t p.var fun s pred => ssaRead s p.var pred (s.value p.phi).cls := by
          intro opens s0 q s1 u hs0 hq hneeded hrun0
          exact readLoop_spec _ p.var (fun s => (s.value p.phi).cls) opens s0 q s1 u hs0 hq hneeded hrun0
        have hsealed : (({ s with pending := rest } : Ssa).block p.block).sealed = true := by
          rw [hblock]
          exact h.sealed
        obtain ⟨⟨s1, v⟩, hphi⟩ := ssaPhiOperands_total hread hsound hsealed fun opens s' q hs' hsize' _ hq hwanted =>
          ssaRead_total hground hs' (hsize'.trans hsize) hq hwanted _
        obtain ⟨more, hgrown, -⟩ := ssaPhiOperands_spec hread hsound (fun d hd => hd) hsealed hphi
        rw [htake]
        rw [hphi]
        have hnext : Sealing final now t block i s1 := by
          rw [← htake] at hphi
          exact h.take hp hblock hphi
        refine ih i s1 hnext (hgrown.length.trans hsize) ?_
        have hpending : s1.pending = rest ++ more := hgrown.pending
        have hmore : ∀ e ∈ more, e.block ≠ block := by
          rintro e he rfl
          have hwaits : (s.block e.block).sealed = false := hgrown.fresh e he
          rw [h.sealed] at hwaits
          cases hwaits
        have hcount := takePending_waiting hp hblock hperm hkept hmore
        have hroom : more.length ≤ s.blocks.length := by
          have hgrownRoom := hgrown.room
          have hbound := undefinedBlocks_length { s with pending := rest } p.var
          change _ ≤ s.blocks.length at hbound
          omega
        have hlen := hperm.length_eq
        rw [length_cons] at hlen
        have hwaiting : waitingPhis s1 block i + 1 = waitingPhis s block i := by
          unfold waitingPhis at hcount ⊢
          rw [hpending]
          exact hcount
        have hblocks : s1.blocks.length = s.blocks.length := hgrown.length
        have hmul : waitingPhis s block i * s.blocks.length =
            waitingPhis s1 block i * s.blocks.length + s.blocks.length := by
          rw [← hwaiting, add_mul, one_mul]
        rw [hpending, length_append, hblocks]
        omega
      · rw [if_pos hblock]
        refine ih (i + 1) s ⟨h.sound, h.sealed, h.waiting, fun j hj e he => ?_⟩ hsize ?_
        · rcases Nat.lt_succ_iff_lt_or_eq.mp hj with hlt | rfl
          · exact h.passed j hlt e he
          rw [hp] at he
          cases he
          exact hblock
        have hsame : waitingPhis s block (i + 1) = waitingPhis s block i := by
          unfold waitingPhis
          rw [hdrop, countP_cons_of_neg (by simpa using hblock)]
        rw [hsame]
        omega

theorem BuildOk.seal_total (h : BuildOk final now t)
    (hground : ∀ b < t.ssa.blocks.length, Grounded final b)
    (hallowed : Allowed final now (.sealBlock b)) (hpart : Part final (now.step (.sealBlock b))) :
    ∃ s', ssaSeal t.ssa b = some s' := by
  unfold ssaSeal
  split_ifs
  · exact ⟨_, rfl⟩
  have hsealing := h.sealing hallowed hpart
  have hlength : (t.ssa.updateBlock b ({ · with sealed := true })).blocks.length = t.ssa.blocks.length :=
    Ssa.updateBlock_length ..
  refine sealLoop_total hground _ 0 _ hsealing hlength ?_
  have hwaiting : waitingPhis (t.ssa.updateBlock b ({ · with sealed := true })) b 0 ≤ t.ssa.pending.length := by
    unfold waitingPhis
    rw [drop_zero]
    exact countP_le_length
  have hmul : waitingPhis (t.ssa.updateBlock b ({ · with sealed := true })) b 0 * t.ssa.blocks.length ≤
      t.ssa.pending.length * t.ssa.blocks.length := Nat.mul_le_mul_right _ hwaiting
  have hbound : (t.ssa.pending.length + 1) * (t.ssa.blocks.length + 2) =
      t.ssa.pending.length * t.ssa.blocks.length + 2 * t.ssa.pending.length + t.ssa.blocks.length + 2 := by
    ring
  rw [hlength]
  change t.ssa.pending.length - 0 + _ < (t.ssa.pending.length + 1) * (t.ssa.blocks.length + 2)
  omega

theorem BuildOk.step_total (h : BuildOk final now t) (hground : ∀ b < t.ssa.blocks.length, Grounded final b)
    {call : BuildCall} (hallowed : Allowed final now call) (hpart : Part final (now.step call)) :
    ∃ t', buildStep t call = some t' := by
  cases call with
  | read x b cls =>
    have hin : b < t.ssa.blocks.length := by
      rw [h.sound.shaped.length]
      exact hallowed.1
    obtain ⟨⟨s', v⟩, hread⟩ := ssaRead_total hground h.sound rfl hin (fun _ => hallowed.2) cls
    unfold buildStep
    dsimp only [Option.bind_eq_bind]
    rw [hread]
    exact ⟨_, rfl⟩
  | sealBlock b =>
    obtain ⟨s', hseal⟩ := h.seal_total hground hallowed hpart
    unfold buildStep
    dsimp only [Option.bind_eq_bind]
    rw [hseal]
    exact ⟨_, rfl⟩
  | write x handle =>
    unfold buildStep
    cases t.ssa.current <;> exact ⟨_, rfl⟩
  | _ => exact ⟨_, rfl⟩

end

end Dyn.Backend
