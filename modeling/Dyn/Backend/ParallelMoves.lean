import Dyn.Lib.ParallelMove
import Dyn.Lib.Worklist
import Dyn.Backend.TransferRuns

/-!
# backend/ssa: parallel moves

The order in which a set of moves is done, one transfer after another.  A move is done when no
other one reads its destination; when there is none, the contents of a destination are parked in
a temporary register of their class.  Whatever the moves are, their destinations end up with what
their sources held (`ssaParallel_spec`).
-/

namespace Dyn.Backend

open List

def ssaReads (m : SsaMove) (kind : LocationKind) (location : BitVec 64) : Bool :=
  (m.srcKind = .reg ∨ m.srcKind = .slot ∨ m.srcKind = .out) ∧ m.srcKind = kind ∧ m.src = location

/-- Whether another move than the `i`-th one reads the destination. -/
def blocked (moves : List SsaMove) (m : SsaMove) (i : Nat) : Bool :=
  moves.zipIdx.any fun p => p.2 ≠ i ∧ ssaReads p.1 m.dstKind m.dst

/-- The first move that can be done, and its index. -/
def unblocked (moves : List SsaMove) : Option (SsaMove × Nat) :=
  moves.zipIdx.find? fun p => !blocked moves p.1 p.2

/-- The last move takes the place of the `i`-th one. -/
def swapRemove (moves : List SsaMove) (i : Nat) : List SsaMove :=
  match moves.getLast? with
  | some last => (moves.set i last).dropLast
  | none => []

/-- The register in which a cycle parks a value. -/
def temporary (ctx : BackendContext) (fl : Bool) : Nat :=
  if ctx.a64 then if fl then xXmm0 + 31 else 16
  else if ctx.rv64 then if fl then xXmm0 + 31 else 30
  else if fl then ssaXs1 ctx else xR11

def park (temp : BitVec 64) (m m' : SsaMove) : SsaMove :=
  if ssaReads m' m.dstKind m.dst then { m' with srcKind := .reg, src := temp } else m'

/-- The loop over the moves that are left; it takes fuel. -/
def parallelLoop (ctx : BackendContext) : Nat → List SsaMove → Option (List Insn)
  | _, [] => some []
  | 0, _ :: _ => none
  | fuel + 1, m :: moves =>
      match unblocked (m :: moves) with
      | some (next, i) => do
          let code ← ssaTransfer ctx next.dstKind next.dst next.srcKind next.src next.cls xR10
          let later ← parallelLoop ctx fuel (swapRemove (m :: moves) i)
          return code ++ later
      | none => do
          -- Every remaining move is in a cycle.
          let temp := BitVec.ofNat 64 (temporary ctx (ssaFloatClass m.cls))
          let code ← ssaTransfer ctx .reg temp m.dstKind m.dst m.cls xR10
          let later ← parallelLoop ctx fuel ((m :: moves).map (park temp m))
          return code ++ later

def ssaParallel (ctx : BackendContext) (fuel : Nat) (moves : List SsaMove) : Option (List Insn) :=
  parallelLoop ctx fuel (moves.filter fun m => ¬ (m.dstKind = m.srcKind ∧ m.dst = m.src))

variable {moves : List SsaMove} {m : SsaMove} {i : Nat}

theorem swapRemove_perm (h : moves[i]? = some m) : moves.Perm (m :: swapRemove moves i) := by
  unfold swapRemove
  cases hlast : moves.getLast? with
  | none =>
    rw [getLast?_eq_none_iff.mp hlast] at h
    cases h
  | some last => exact Lib.removal_perm h hlast

theorem unblocked_some (h : unblocked moves = some (m, i)) :
    moves[i]? = some m ∧ ∀ j m', moves[j]? = some m' → j ≠ i → ssaReads m' m.dstKind m.dst = false := by
  have hmem := mem_of_find?_eq_some h
  have hfree := find?_some h
  rw [mem_zipIdx_iff_getElem?] at hmem
  refine ⟨hmem, fun j m' hget hne => ?_⟩
  simp only [Bool.not_eq_eq_eq_not, Bool.not_true, blocked, any_eq_false] at hfree
  have hpair := hfree (m', j) (mem_zipIdx_iff_getElem?.mpr hget)
  simpa [hne] using hpair

theorem unblocked_none (h : unblocked moves = none) (hget : moves[i]? = some m) :
    ∃ j m', moves[j]? = some m' ∧ j ≠ i ∧ ssaReads m' m.dstKind m.dst = true := by
  have hblocked := find?_eq_none.mp h (m, i) (mem_zipIdx_iff_getElem?.mpr hget)
  simp only [Bool.not_eq_true, Bool.not_eq_false', blocked, any_eq_true] at hblocked
  obtain ⟨⟨m', j⟩, hmem, hreads⟩ := hblocked
  rw [decide_eq_true_eq] at hreads
  exact ⟨j, m', mem_zipIdx_iff_getElem?.mp hmem, hreads.1, hreads.2⟩

section Places

variable (ctx : BackendContext)

/-- The scratch registers of the code generator. -/
def scratchRegisters : List Nat := temporary ctx false :: temporary ctx true :: transferScratch ctx

def Scratch : Set Place := { p | ∃ r ∈ scratchRegisters ctx, p = .reg r }

def Names (moves : List SsaMove) (kind : LocationKind) (location : BitVec 64) : Prop :=
  ∃ m ∈ moves, m.dstKind = kind ∧ m.dst = location ∨ m.srcKind = kind ∧ m.src = location

/-- The slots of the frame are apart from the outgoing slots. -/
def Apart (σ : Machine) (moves : List SsaMove) : Prop :=
  ∀ a b, Names moves .slot a → Names moves .out b → place ctx σ .slot a ≠ place ctx σ .out b

def asMove (σ : Machine) (m : SsaMove) : Lib.ParallelMove Place (BitVec 64) where
  dst := place ctx σ m.dstKind m.dst
  src := match m.srcKind with
    | .const => .inr (constantBits ctx m.cls m.src)
    | .frame => .inr (σ.get (.reg (baseRegister ctx .slot)) + m.src)
    | kind => .inl (place ctx σ kind m.src)

variable {ctx}

theorem temporary_facts (ctx : BackendContext) (fl : Bool) : temporary ctx fl < 64 ∧ temporary ctx fl ∉ reserved ctx ∧
    temporary ctx fl ∉ transferScratch ctx ∧ (xXmm0 ≤ temporary ctx fl ↔ fl = true) := by
  cases ha64 : ctx.a64 <;> cases hrv64 : ctx.rv64 <;> cases hwin64 : ctx.win64 <;> cases fl <;>
    simp [temporary, reserved, transferScratch, ssaXs1, ssaXs2, ha64, hrv64, hwin64, xXmm0, a64Fp, a64Sp,
      aS2, aS3, aF2, rvFp, rvSp, rS2, rS4, rT, rF2, xRbp, xRsp, xR10, xR11]

theorem mem_scratchRegisters (fl : Bool) : temporary ctx fl ∈ scratchRegisters ctx := by
  cases fl <;> simp [scratchRegisters]

theorem transferScratch_subset : transferScratch ctx ⊆ scratchRegisters ctx :=
  fun _ hr => mem_cons_of_mem _ (mem_cons_of_mem _ hr)

variable (kind : LocationKind) {σ : Machine}

theorem baseRegister_reserved : baseRegister ctx kind ∈ reserved ctx := by
  unfold baseRegister reserved
  split_ifs <;> simp

theorem baseRegister_notScratch : .reg (baseRegister ctx kind) ∉ Scratch ctx := by
  rintro ⟨r, hr, heq⟩
  rw [← Place.reg.inj heq] at hr
  have htemporary : ∀ fl, baseRegister ctx kind ≠ temporary ctx fl := fun fl heq =>
    (temporary_facts ctx fl).2.1 (heq ▸ baseRegister_reserved kind)
  rcases mem_cons.mp hr with heq | hr
  · exact htemporary false heq
  rcases mem_cons.mp hr with heq | hr
  · exact htemporary true heq
  · exact baseRegister_notMem kind hr

theorem place_injective {moves : List SsaMove} (hapart : Apart ctx σ moves)
    {kind kind' : LocationKind} {a b : BitVec 64} (ha : Names moves kind a)
    (hb : Names moves kind' b) (hkind : kind = .reg ∨ kind = .slot ∨ kind = .out)
    (hkind' : kind' = .reg ∨ kind' = .slot ∨ kind' = .out) (hint : kind ≠ .reg → int32 a = a)
    (hint' : kind' ≠ .reg → int32 b = b) (h : place ctx σ kind a = place ctx σ kind' b) :
    kind = kind' ∧ a = b := by
  have hcells : ∀ {kind}, kind ≠ .reg → int32 a = a → int32 b = b →
      place ctx σ kind a = place ctx σ kind b → a = b := by
    intro kind hne ha hb h
    rw [place_cell hne, place_cell hne, ha, hb] at h
    exact (BitVec.add_right_inj _).mp (Place.cell.inj h)
  rcases hkind with rfl | rfl | rfl <;> rcases hkind' with rfl | rfl | rfl
  · exact ⟨rfl, BitVec.eq_of_toNat_eq (Place.reg.inj h)⟩
  · cases h
  · cases h
  · cases h
  · exact ⟨rfl, hcells (by decide) (hint (by decide)) (hint' (by decide)) h⟩
  · exact absurd h (hapart a b ha hb)
  · cases h
  · exact absurd h.symm (hapart b a hb ha)
  · exact ⟨rfl, hcells (by decide) (hint (by decide)) (hint' (by decide)) h⟩

theorem asMove_reads {m : SsaMove} {p : Place} (h : (asMove ctx σ m).Reads p) :
    (m.srcKind = .reg ∨ m.srcKind = .slot ∨ m.srcKind = .out) ∧ p = place ctx σ m.srcKind m.src := by
  unfold asMove Lib.ParallelMove.Reads at h
  cases hs : m.srcKind with
  | reg | slot | out => rw [hs] at h; exact ⟨by simp, (Sum.inl.inj h).symm⟩
  | const | frame => rw [hs] at h; cases h

theorem asMove_src (ctx : BackendContext) (σ : Machine) {m : SsaMove} (h : m.srcKind = .reg ∨ m.srcKind = .slot ∨ m.srcKind = .out) :
    (asMove ctx σ m).src = .inl (place ctx σ m.srcKind m.src) := by
  unfold asMove
  rcases h with h | h | h <;> rw [h]

theorem place_eq {σ σ' : Machine}
    (h : ∀ kind, σ'.get (.reg (baseRegister ctx kind)) = σ.get (.reg (baseRegister ctx kind)))
    (kind : LocationKind) (location : BitVec 64) : place ctx σ' kind location = place ctx σ kind location := by
  unfold place
  rw [h]

theorem sourceValue_eq {σ' : Machine}
    (h : ∀ kind, σ'.get (.reg (baseRegister ctx kind)) = σ.get (.reg (baseRegister ctx kind)))
    (m : SsaMove) : sourceValue ctx σ' m = Lib.ParallelMove.held σ'.get (asMove ctx σ m).src := by
  unfold sourceValue asMove
  cases hs : m.srcKind <;> simp [Lib.ParallelMove.held, h, place_eq h]

end Places

section Sequence

variable {ctx : BackendContext} {σ0 : Machine}

/-- What the moves that are left satisfy. -/
structure Ready (ctx : BackendContext) (σ0 : Machine) (moves : List SsaMove) : Prop where
  movable : ∀ m ∈ moves, Movable ctx m
  dst : ∀ m ∈ moves, m.dstKind = .reg → m.dst.toNat ∉ scratchRegisters ctx
  src : ∀ m ∈ moves, m.srcKind = .reg → m.src.toNat ∉ transferScratch ctx
  reads : ∀ m ∈ moves, ∀ m' ∈ moves, (asMove ctx σ0 m').Reads (place ctx σ0 m.dstKind m.dst) →
    ssaReads m' m.dstKind m.dst = true

variable {moves : List SsaMove}

theorem Ready.sub {moves' : List SsaMove} (h : Ready ctx σ0 moves) (hsub : moves' ⊆ moves) :
    Ready ctx σ0 moves' :=
  ⟨fun m hm => h.movable m (hsub hm), fun m hm => h.dst m (hsub hm), fun m hm => h.src m (hsub hm),
    fun m hm m' hm' => h.reads m (hsub hm) m' (hsub hm')⟩

theorem reads_of_ssaReads (ctx : BackendContext) (σ0 : Machine) {m' : SsaMove} {kind : LocationKind} {location : BitVec 64}
    (h : ssaReads m' kind location = true) : (asMove ctx σ0 m').Reads (place ctx σ0 kind location) := by
  unfold ssaReads at h
  rw [decide_eq_true_eq] at h
  obtain ⟨hkind, rfl, rfl⟩ := h
  exact asMove_src ctx σ0 hkind

theorem Ready.avoids (h : Ready ctx σ0 moves) :
    ∀ m ∈ moves.map (asMove ctx σ0), m.Avoids { p | ∃ r ∈ transferScratch ctx, p = .reg r } := by
  intro m' hm'
  obtain ⟨m, hm, rfl⟩ := mem_map.mp hm'
  rintro p ⟨r, hr, rfl⟩ hreads
  obtain ⟨-, hplace⟩ := asMove_reads hreads
  unfold place at hplace
  split_ifs at hplace with hs
  exact h.src m hm hs (Place.reg.inj hplace ▸ hr)

variable {m : SsaMove}

theorem asMove_park (h : Ready ctx σ0 moves) {m' : SsaMove} (hm : m ∈ moves) (hm' : m' ∈ moves)
    (temp : BitVec 64) : asMove ctx σ0 (park temp m m') =
      Lib.ParallelMove.redirect (place ctx σ0 m.dstKind m.dst) (.reg temp.toNat) (asMove ctx σ0 m') := by
  unfold park
  split_ifs with hreads
  · have hsrc := reads_of_ssaReads ctx σ0 hreads
    unfold Lib.ParallelMove.redirect
    rw [hsrc, Sum.map_inl, if_pos rfl]
    rfl
  unfold Lib.ParallelMove.redirect
  cases hsrc : (asMove ctx σ0 m').src with
  | inr v => rw [Sum.map_inr, id, ← hsrc]
  | inl p =>
    have hne : p ≠ place ctx σ0 m.dstKind m.dst := by
      rintro rfl
      exact hreads (h.reads m hm m' hm' hsrc)
    rw [Sum.map_inl, if_neg hne, ← hsrc]

theorem park_dst (temp : BitVec 64) (m m' : SsaMove) :
    (park temp m m').dstKind = m'.dstKind ∧ (park temp m m').dst = m'.dst ∧ (park temp m m').cls = m'.cls := by
  unfold park
  split_ifs <;> exact ⟨rfl, rfl, rfl⟩

theorem dst_notScratch (σ0 : Machine) (hdst : m.dstKind = .reg → m.dst.toNat ∉ scratchRegisters ctx) :
    place ctx σ0 m.dstKind m.dst ∉ Scratch ctx := by
  rintro ⟨r, hr, heq⟩
  unfold place at heq
  split_ifs at heq with hkind
  exact hdst hkind (Place.reg.inj heq ▸ hr)

theorem Ready.park (h : Ready ctx σ0 moves) (hm : m ∈ moves) {temp : BitVec 64} {fl : Bool}
    (htemp : temp.toNat = temporary ctx fl) : Ready ctx σ0 (moves.map (Backend.park temp m)) := by
  obtain ⟨-, hheld, hfree, -⟩ := temporary_facts ctx fl
  refine ⟨?_, ?_, ?_, ?_⟩
  · intro m' hmem
    obtain ⟨a, ha, rfl⟩ := mem_map.mp hmem
    have hmov := h.movable a ha
    unfold Backend.park
    split_ifs
    · exact { hmov with
        src := fun _ => htemp ▸ hheld
        bank := fun _ hne => absurd rfl hne
        srcInt := by simp
        frame := by simp
        srcOut := by simp }
    · exact hmov
  · intro m' hmem
    obtain ⟨a, ha, rfl⟩ := mem_map.mp hmem
    obtain ⟨hkind, hdst, -⟩ := park_dst temp m a
    rw [hkind, hdst]
    exact h.dst a ha
  · intro m' hmem
    obtain ⟨a, ha, rfl⟩ := mem_map.mp hmem
    unfold Backend.park
    split_ifs
    · exact fun _ => htemp ▸ hfree
    · exact h.src a ha
  intro m1 hmem1 m2 hmem2 hreads
  obtain ⟨a, ha, rfl⟩ := mem_map.mp hmem1
  obtain ⟨b, hb, rfl⟩ := mem_map.mp hmem2
  obtain ⟨hkind, hdst, -⟩ := park_dst temp m a
  rw [hkind, hdst] at hreads ⊢
  rw [asMove_park h hm hb] at hreads
  rcases Lib.ParallelMove.redirect_reads hreads with ⟨hne, hread⟩ | ⟨heq, -⟩
  · have hab := h.reads a ha b hb hread
    unfold Backend.park
    rw [if_neg]
    · exact hab
    intro hbm
    have hplaces := reads_of_ssaReads ctx σ0 hbm
    exact hne (Sum.inl.inj (hread.symm.trans hplaces))
  · have hscratch := dst_notScratch σ0 (h.dst a ha)
    exact absurd ⟨_, mem_scratchRegisters fl, heq.trans (by rw [htemp])⟩ hscratch

section Steps

variable {w : Place → BitVec 64} {σ : Machine}

variable {moves : List SsaMove}

theorem base_kept (h : Ready ctx σ0 moves)
    (hpending : Lib.ParallelMove.Pending (Scratch ctx) w (moves.map (asMove ctx σ0)) σ.get)
    (hw : ∀ kind, w (.reg (baseRegister ctx kind)) = σ0.get (.reg (baseRegister ctx kind)))
    (kind : LocationKind) :
    σ.get (.reg (baseRegister ctx kind)) = σ0.get (.reg (baseRegister ctx kind)) := by
  refine (hpending.rest _ (baseRegister_notScratch kind) ?_).trans (hw kind)
  rw [map_map]
  intro hmem
  obtain ⟨m, hm, heq⟩ := mem_map.mp hmem
  have hplace : place ctx σ0 m.dstKind m.dst = .reg (baseRegister ctx kind) := heq
  unfold place at hplace
  split_ifs at hplace with hkind
  exact (h.movable m hm).dst hkind (Place.reg.inj hplace ▸ baseRegister_reserved kind)

theorem scratch_apart : { p | ∃ r ∈ transferScratch ctx, p = .reg r } ⊆ Scratch ctx := by
  rintro p ⟨r, hr, rfl⟩
  exact ⟨r, transferScratch_subset hr, rfl⟩

variable {m : SsaMove} {temp : BitVec 64}

theorem transfer_step (h : Ready ctx σ0 (m :: moves))
    (hpending : Lib.ParallelMove.Pending (Scratch ctx) w ((m :: moves).map (asMove ctx σ0)) σ.get)
    (hw : ∀ kind, w (.reg (baseRegister ctx kind)) = σ0.get (.reg (baseRegister ctx kind)))
    (hunread : ∀ m' ∈ moves, ssaReads m' m.dstKind m.dst = false) :
    ∃ code, ssaTransfer ctx m.dstKind m.dst m.srcKind m.src m.cls xR10 = some code ∧
      Lib.ParallelMove.Pending (Scratch ctx) w (moves.map (asMove ctx σ0)) (runCode code σ).get := by
  obtain ⟨code, hcode, hputs⟩ :=
    ssaTransfer_puts (h.movable m mem_cons_self) (h.src m mem_cons_self)
  have hbases := base_kept h hpending hw
  obtain ⟨hget, hrest⟩ := hputs σ
  rw [place_eq hbases] at hget hrest
  rw [sourceValue_eq hbases] at hget
  refine ⟨code, hcode, Lib.ParallelMove.Pending.transfer (m := asMove ctx σ0 m) hpending ?_ ?_ scratch_apart hget ?_⟩
  · intro m'' hm''
    obtain ⟨m', hm', rfl⟩ := mem_map.mp hm''
    intro hreads
    have htrue := h.reads m mem_cons_self m' (mem_cons_of_mem _ hm') hreads
    rw [hunread m' hm'] at htrue
    cases htrue
  · exact fun m' hm' => h.avoids m' (mem_cons_of_mem _ hm')
  · exact fun q hq hne => hrest q hne fun r hr heq => hq ⟨r, hr, heq⟩

theorem park_step (h : Ready ctx σ0 moves) (hm : m ∈ moves)
    (hpending : Lib.ParallelMove.Pending (Scratch ctx) w (moves.map (asMove ctx σ0)) σ.get)
    (hw : ∀ kind, w (.reg (baseRegister ctx kind)) = σ0.get (.reg (baseRegister ctx kind)))
    (hcycles : ∀ m' ∈ moves, ∃ m'' ∈ moves, ssaReads m' m''.dstKind m''.dst = true)
    (htemp : temp.toNat = temporary ctx (ssaFloatClass m.cls)) :
    ∃ code, ssaTransfer ctx .reg temp m.dstKind m.dst m.cls xR10 = some code ∧
      Lib.ParallelMove.Pending (Scratch ctx) w ((moves.map (park temp m)).map (asMove ctx σ0)) (runCode code σ).get := by
  obtain ⟨-, hheld, -, hbank⟩ := temporary_facts ctx (ssaFloatClass m.cls)
  have hmov := h.movable m hm
  have hdst := h.dst m hm
  let parking : SsaMove := { dstKind := .reg, srcKind := m.dstKind, cls := m.cls, dst := temp, src := m.dst }
  have hparking : Movable ctx parking :=
    { kind := .inl rfl
      dst := fun _ => htemp ▸ hheld
      src := hmov.dst
      bank := fun _ _ => htemp ▸ hbank
      dstInt := fun hne => absurd rfl hne
      srcInt := fun hs => hmov.dstInt fun hreg => by rcases hs with hs | hs <;> cases hreg.symm.trans hs
      frame := fun hs => by rcases hmov.kind with hk | hk | hk <;> cases hk.symm.trans hs
      dstOut := by simp [parking]
      srcOut := hmov.dstOut }
  obtain ⟨code, hcode, hputs⟩ :=
    ssaTransfer_puts hparking fun hs hmem => hdst hs (transferScratch_subset hmem)
  have hbases := base_kept h hpending hw
  obtain ⟨hget, hrest⟩ := hputs σ
  have hsource : sourceValue ctx σ parking = σ.get (place ctx σ0 m.dstKind m.dst) := by
    rw [sourceValue_eq hbases, asMove_src ctx _ hmov.kind]
    rfl
  have htempPlace : place ctx σ .reg temp = .reg temp.toNat := if_pos rfl
  rw [hsource, htempPlace] at hget
  rw [htempPlace] at hrest
  have hmap : (moves.map (park temp m)).map (asMove ctx σ0) = (moves.map (asMove ctx σ0)).map
      (Lib.ParallelMove.redirect (place ctx σ0 m.dstKind m.dst) (.reg temp.toNat)) := by
    rw [map_map, map_map]
    exact map_congr_left fun m' hm' => asMove_park h hm hm' temp
  refine ⟨code, hcode, hmap ▸ hpending.park ?_ ?_ h.avoids scratch_apart hget ?_⟩
  · exact ⟨_, mem_scratchRegisters (ssaFloatClass m.cls), by rw [htemp]⟩
  · -- Every source is a destination, which no scratch register is.
    intro m1 hm1 hreads
    obtain ⟨m', hm', rfl⟩ := mem_map.mp hm1
    obtain ⟨m'', hm'', hread⟩ := hcycles m' hm'
    have hplaces := reads_of_ssaReads ctx σ0 hread
    refine dst_notScratch σ0 (h.dst m'' hm'') ⟨_, mem_scratchRegisters (ssaFloatClass m.cls), ?_⟩
    rw [← htemp]
    exact Sum.inl.inj (hplaces.symm.trans hreads)
  · exact fun q hq hne => hrest q hne fun r hr heq => hq ⟨r, hr, heq⟩

theorem cycles_of_stuck (h : Ready ctx σ0 moves)
    (hdistinct : ((moves.map (asMove ctx σ0)).map Lib.ParallelMove.dst).Nodup)
    (hstuck : unblocked moves = none) :
    ∀ m ∈ moves, ∃ m' ∈ moves, ssaReads m m'.dstKind m'.dst = true := by
  have hreaders : ∀ i : Fin (moves.map (asMove ctx σ0)).length, ∃ j : Fin (moves.map (asMove ctx σ0)).length,
      ((moves.map (asMove ctx σ0)).get j).Reads ((moves.map (asMove ctx σ0)).get i).dst := by
    rintro ⟨i, hi⟩
    rw [length_map] at hi
    obtain ⟨j, m', hget, -, hreads⟩ := unblocked_none hstuck (getElem?_eq_getElem hi)
    obtain ⟨hj, rfl⟩ := List.getElem?_eq_some_iff.mp hget
    refine ⟨⟨j, by rwa [length_map]⟩, ?_⟩
    rw [get_eq_getElem, get_eq_getElem, getElem_map, getElem_map]
    exact reads_of_ssaReads ctx _ hreads
  intro m hm
  obtain ⟨m'', hm'', hreads⟩ := Lib.ParallelMove.stuck hdistinct hreaders _ (mem_map_of_mem hm)
  obtain ⟨m', hm', rfl⟩ := mem_map.mp hm''
  exact ⟨m', hm', h.reads m' hm' m hm hreads⟩

theorem unblocked_park (h : Ready ctx σ0 (m :: moves)) {fl : Bool}
    (htemp : temp.toNat = temporary ctx fl) :
    unblocked ((m :: moves).map (park temp m)) ≠ none := by
  intro hnone
  obtain ⟨j, m', hget, -, hreads⟩ := unblocked_none hnone (i := 0) (m := park temp m m) rfl
  obtain ⟨a, -, rfl⟩ := mem_map.mp (mem_of_getElem? hget)
  obtain ⟨hkind, hdst, -⟩ := park_dst temp m m
  rw [hkind, hdst] at hreads
  unfold park at hreads
  split_ifs at hreads with hread
  · unfold ssaReads at hreads
    rw [decide_eq_true_eq] at hreads
    have hreg : m.dstKind = .reg := hreads.2.1.symm
    have heq : temp = m.dst := hreads.2.2
    exact h.dst m mem_cons_self hreg (heq ▸ htemp ▸ mem_scratchRegisters fl)
  · exact hread hreads

theorem parallelLoop_spec (hw : ∀ kind, w (.reg (baseRegister ctx kind)) = σ0.get (.reg (baseRegister ctx kind)))
    (fuel : Nat) : ∀ {moves : List SsaMove} {σ : Machine}, Ready ctx σ0 moves →
      Lib.ParallelMove.Pending (Scratch ctx) w (moves.map (asMove ctx σ0)) σ.get →
      2 * moves.length ≤ fuel ∨ 2 * moves.length ≤ fuel + 1 ∧ unblocked moves ≠ none →
      ∃ code, parallelLoop ctx fuel moves = some code ∧ ∀ p ∉ Scratch ctx, (runCode code σ).get p = w p := by
  induction fuel with
  | zero =>
    intro moves σ h hpending hfuel
    cases moves with
    | nil => exact ⟨[], rfl, fun p hp => hpending.finish hp⟩
    | cons m moves =>
      simp only [length_cons] at hfuel
      omega
  | succ fuel ih =>
    intro moves σ h hpending hfuel
    cases moves with
    | nil => exact ⟨[], rfl, fun p hp => hpending.finish hp⟩
    | cons m moves =>
      cases hnext : unblocked (m :: moves) with
      | some p =>
        obtain ⟨next, i⟩ := p
        obtain ⟨hget, hfree⟩ := unblocked_some hnext
        have hperm := swapRemove_perm hget
        have hready : Ready ctx σ0 (next :: swapRemove (m :: moves) i) := h.sub hperm.symm.subset
        have hlength := hperm.length_eq
        rw [length_cons] at hlength
        -- The destinations are distinct, so no other move is equal to this one.
        have hunread : ∀ m' ∈ swapRemove (m :: moves) i, ssaReads m' next.dstKind next.dst = false := by
          intro m' hm'
          obtain ⟨j, hj⟩ := getElem?_of_mem (hperm.mem_iff.mpr (mem_cons_of_mem _ hm'))
          refine hfree j m' hj fun heq => ?_
          have hsame : next = m' := Option.some.inj (hget.symm.trans (heq ▸ hj))
          have hdistinct := (hpending.perm (hperm.map _)).distinct
          rw [map_cons, map_cons, nodup_cons] at hdistinct
          exact hdistinct.1 (hsame ▸ mem_map_of_mem (mem_map_of_mem hm'))
        obtain ⟨code, hcode, hpending'⟩ :=
          transfer_step hready (hpending.perm (hperm.map _)) hw hunread
        obtain ⟨later, hlater, hrun⟩ := ih (hready.sub (subset_cons_self _ _)) hpending'
          (by simp only [length_cons] at hlength hfuel ⊢; omega)
        refine ⟨code ++ later, ?_, fun p hp => by rw [runCode_append]; exact hrun p hp⟩
        rw [parallelLoop, hnext]
        simp only [hcode, hlater, Option.bind_eq_bind, Option.bind_some, Option.pure_def]
      | none =>
        generalize htemp : BitVec.ofNat 64 (temporary ctx (ssaFloatClass m.cls)) = temp
        have htoNat : temp.toNat = temporary ctx (ssaFloatClass m.cls) := by
          obtain ⟨hlt, -⟩ := temporary_facts ctx (ssaFloatClass m.cls)
          rw [← htemp, BitVec.toNat_ofNat]
          omega
        obtain ⟨code, hcode, hpending'⟩ := park_step h mem_cons_self hpending hw
          (cycles_of_stuck h hpending.distinct hnext) htoNat
        obtain ⟨later, hlater, hrun⟩ := ih (h.park mem_cons_self htoNat) hpending' (.inr ⟨by
            rcases hfuel with hfuel | ⟨-, hsome⟩
            · rw [length_map]
              omega
            · exact absurd hnext hsome, unblocked_park h htoNat⟩)
        refine ⟨code ++ later, ?_, fun p hp => by rw [runCode_append]; exact hrun p hp⟩
        rw [parallelLoop, hnext]
        simp only [htemp, hcode, hlater, Option.bind_eq_bind, Option.bind_some, Option.pure_def]

end Steps

/-- **Parallel moves are done one after the other.**  With distinct destinations and no scratch
registers among the moves, every destination ends up with what its source held before, and
nothing else changes but scratch registers. -/
theorem ssaParallel_spec {moves : List SsaMove} {σ : Machine} {fuel : Nat}
    (hmovable : ∀ m ∈ moves, Movable ctx m) (hdistinct : (moves.map fun m => (m.dstKind, m.dst)).Nodup)
    (hdst : ∀ m ∈ moves, m.dstKind = .reg → m.dst.toNat ∉ scratchRegisters ctx)
    (hsrc : ∀ m ∈ moves, m.srcKind = .reg → m.src.toNat ∉ scratchRegisters ctx)
    (hapart : Apart ctx σ moves) (hfuel : 2 * moves.length ≤ fuel) :
    ∃ code, ssaParallel ctx fuel moves = some code ∧
      (∀ m ∈ moves, (runCode code σ).get (place ctx σ m.dstKind m.dst) = sourceValue ctx σ m) ∧
      ∀ p, (∀ m ∈ moves, p ≠ place ctx σ m.dstKind m.dst) → (∀ r ∈ scratchRegisters ctx, p ≠ .reg r) →
        (runCode code σ).get p = σ.get p := by
  have hnames : ∀ m ∈ moves, Names moves m.dstKind m.dst := fun m hm => ⟨m, hm, .inl ⟨rfl, rfl⟩⟩
  have hplaces : ((moves.map (asMove ctx σ)).map Lib.ParallelMove.dst).Nodup := by
    rw [map_map]
    refine (nodup_map_iff_inj_on (List.Nodup.of_map _ hdistinct)).mpr fun m hm m' hm' heq => ?_
    have hboth := place_injective hapart (hnames m hm) (hnames m' hm') (hmovable m hm).kind
      (hmovable m' hm').kind (hmovable m hm).dstInt (hmovable m' hm').dstInt heq
    exact inj_on_of_nodup_map hdistinct hm hm' (Prod.ext hboth.1 hboth.2)
  have hready : Ready ctx σ moves := by
    refine ⟨hmovable, hdst, fun m hm hs hmem => hsrc m hm hs (transferScratch_subset hmem), ?_⟩
    intro m hm m' hm' hreads
    obtain ⟨hkind, hplace⟩ := asMove_reads hreads
    obtain ⟨hkinds, hlocations⟩ := place_injective hapart (hnames m hm) ⟨m', hm', .inr ⟨rfl, rfl⟩⟩
      (hmovable m hm).kind hkind (hmovable m hm).dstInt
      (fun hne => (hmovable m' hm').srcInt (hkind.resolve_left hne)) hplace
    unfold ssaReads
    rw [decide_eq_true_eq]
    exact ⟨hkind, hkinds.symm, hlocations.symm⟩
  have hpending : Lib.ParallelMove.Pending (Scratch ctx) _ (moves.map (asMove ctx σ)) σ.get :=
    .start hplaces fun m' hm' => by
    obtain ⟨m, hm, rfl⟩ := mem_map.mp hm'
    exact dst_notScratch _ (hdst m hm)
  have hunmoved : ∀ p, (∀ m ∈ moves, p ≠ place ctx σ m.dstKind m.dst) →
      Lib.ParallelMove.after σ.get (moves.map (asMove ctx σ)) p = σ.get p := by
    intro p hp
    refine Lib.ParallelMove.after_of_notMem ?_
    rw [map_map]
    intro hmem
    obtain ⟨m, hm, heq⟩ := mem_map.mp hmem
    exact hp m hm heq.symm
  have hw : ∀ kind, Lib.ParallelMove.after σ.get (moves.map (asMove ctx σ)) (.reg (baseRegister ctx kind)) =
      σ.get (.reg (baseRegister ctx kind)) := by
    intro kind
    refine hunmoved _ fun m hm heq => ?_
    unfold place at heq
    split_ifs at heq with hkind
    exact (hmovable m hm).dst hkind (Place.reg.inj heq ▸ baseRegister_reserved kind)
  -- Moves onto themselves are dropped.
  generalize hp : (fun m : SsaMove => decide (¬ (m.dstKind = m.srcKind ∧ m.dst = m.src))) = p
  have hdropped : Lib.ParallelMove.Pending (Scratch ctx) (Lib.ParallelMove.after σ.get (moves.map (asMove ctx σ)))
      ((moves.filter p).map (asMove ctx σ)) σ.get := by
    refine hpending.sublist (filter_sublist.map _) fun m' hm' hnot => ?_
    obtain ⟨m, hm, rfl⟩ := mem_map.mp hm'
    have hself : m.dstKind = m.srcKind ∧ m.dst = m.src := by
      by_contra hne
      refine hnot (mem_map_of_mem (mem_filter.mpr ⟨hm, ?_⟩))
      rw [← hp, decide_eq_true_eq]
      exact hne
    have hkind := (hmovable m hm).kind
    rw [hself.1] at hkind
    have hsource := asMove_src ctx σ hkind
    rw [← hself.1, ← hself.2] at hsource
    exact hsource
  obtain ⟨code, hcode, hrun⟩ := parallelLoop_spec hw fuel
    (hready.sub filter_sublist.subset) hdropped
    (.inl (Nat.le_trans (Nat.mul_le_mul_left 2 (length_filter_le _ _)) hfuel))
  refine ⟨code, ?_, fun m hm => ?_, fun q hq hscratch => ?_⟩
  · rw [← hcode, ← hp]
    rfl
  · rw [hrun _ (dst_notScratch _ (hdst m hm)), sourceValue_eq fun _ => rfl]
    exact Lib.ParallelMove.after_dst hplaces (mem_map_of_mem hm)
  · rw [hrun q fun ⟨r, hr, heq⟩ => hscratch r hr heq]
    exact hunmoved q hq

/-- Two registers change places, and so do a floating register and a slot. -/
def twoCycles : List SsaMove :=
  [{ dstKind := .reg, dst := 0, srcKind := .reg, src := 1, cls := .int },
    { dstKind := .slot, dst := -8, srcKind := .reg, src := 32, cls := .f64 },
    { dstKind := .reg, dst := 1, srcKind := .reg, src := 0, cls := .int },
    { dstKind := .reg, dst := 32, srcKind := .slot, src := -8, cls := .f64 }]

theorem ssaParallel_spec_twoCycles : ∃ code, ssaParallel {} 8 twoCycles = some code ∧
    (∀ m ∈ twoCycles, (runCode code ⟨BitVec.ofNat 64, id⟩).get (place {} ⟨BitVec.ofNat 64, id⟩ m.dstKind m.dst) =
      sourceValue {} ⟨BitVec.ofNat 64, id⟩ m) ∧
    ∀ p, (∀ m ∈ twoCycles, p ≠ place {} ⟨BitVec.ofNat 64, id⟩ m.dstKind m.dst) →
      (∀ r ∈ scratchRegisters {}, p ≠ .reg r) →
        (runCode code ⟨BitVec.ofNat 64, id⟩).get p = (Machine.mk (BitVec.ofNat 64) id).get p := by
  refine ssaParallel_spec (fun m hm => ?_) (by decide) (by decide) (by decide) ?_ (by decide)
  · simp only [twoCycles, mem_cons, not_mem_nil, or_false] at hm
    rcases hm with rfl | rfl | rfl | rfl <;> constructor <;> decide
  rintro a b - ⟨m, hm, hout⟩
  have hnone : ∀ m ∈ twoCycles, ¬ (m.dstKind = .out ∨ m.srcKind = .out) := by decide
  exact absurd (hout.imp And.left And.left) (hnone m hm)

end Sequence

end Dyn.Backend
