import Dyn.Backend.Intervals

/-!
# What the live intervals cover

The numbering puts the points of a block between its two ends and one block behind another
(`ssaNumber_numbered`).  An interval ends at the last point where its value is live through the
operands that the pass reads (`stop_spec`).  The blocks are in an order in which each but the first
follows one of its predecessors, as in every reverse postorder, and so no value is live before its
definition (`start_le`).
-/

namespace Dyn.Backend

open List

theorem value_modify (s : Ssa) {id : Nat} (hid : id < s.values.length) (f : SsaValue → SsaValue) (j : Nat) :
    (s.modify id f).value j = if j = id then f (s.value j) else s.value j := by
  unfold Ssa.value Ssa.modify
  rw [getD_eq_getElem?_getD, getElem?_modify, getD_eq_getElem?_getD]
  by_cases h : id = j
  · subst h
    rw [if_pos rfl, getElem?_eq_getElem hid]
    simp
  · rw [if_neg fun hc => h hc.symm]
    simp [h]

/-- A value without what the allocation decides. -/
def SsaValue.bare (v : SsaValue) : SsaValue :=
  { v with start := 0, stop := 0, reg := none, slot := none, retainConstant := false }

/-- Two functions that are the same up to what the allocation decides. -/
structure SameForm (s s' : Ssa) : Prop where
  length : s'.values.length = s.values.length
  blocks : s'.blocks = s.blocks
  lists : s'.lists = s.lists
  bare : ∀ id, (s'.value id).bare = (s.value id).bare
  retained : ∀ id, (s'.value id).retainConstant = true → (s.value id).retainConstant = true

namespace SameForm

variable {s s' s'' : Ssa}

theorem refl (s : Ssa) : SameForm s s := ⟨rfl, rfl, rfl, fun _ => rfl, fun _ => id⟩

theorem trans (h : SameForm s s') (h' : SameForm s' s'') : SameForm s s'' :=
  ⟨h'.length.trans h.length, h'.blocks.trans h.blocks, h'.lists.trans h.lists,
    fun id => (h'.bare id).trans (h.bare id), fun id hid => h.retained id (h'.retained id hid)⟩

theorem modify (s : Ssa) {id : Nat} (hid : id < s.values.length) {f : SsaValue → SsaValue}
    (hf : ∀ v, (f v).bare = v.bare ∧ ((f v).retainConstant = true → v.retainConstant = true)) :
    SameForm s (s.modify id f) := by
  refine ⟨by unfold Ssa.modify; exact length_modify .., rfl, rfl, fun j => ?_, fun j hj => ?_⟩
  · rw [value_modify s hid]
    split_ifs
    · exact (hf _).1
    · rfl
  rw [value_modify s hid] at hj
  split_ifs at hj
  · exact (hf _).2 hj
  · exact hj

theorem block (h : SameForm s s') (b : Nat) : s'.block b = s.block b := by
  unfold Ssa.block
  rw [h.blocks]

theorem field {α : Type} (h : SameForm s s') (g : SsaValue → α) (hg : ∀ v, g v = g v.bare) (id : Nat) :
    g (s'.value id) = g (s.value id) := by
  rw [hg, h.bare, ← hg]

theorem op (h : SameForm s s') (id : Nat) : (s'.value id).op = (s.value id).op := h.field _ (fun _ => rfl) id

theorem inBlock (h : SameForm s s') (id : Nat) : (s'.value id).block = (s.value id).block :=
  h.field _ (fun _ => rfl) id

theorem operandList (h : SameForm s s') (id : Nat) : operandList s' id = operandList s id := by
  unfold Backend.operandList
  dsimp only
  rw [h.op, h.field SsaValue.count (fun _ => rfl), h.field SsaValue.list (fun _ => rfl),
    h.field SsaValue.a (fun _ => rfl), h.field SsaValue.b (fun _ => rfl), h.field SsaValue.c (fun _ => rfl),
    h.lists]

theorem clobbers (h : SameForm s s') (ctx : BackendContext) (id : Nat) :
    ssaClobbers ctx s' (s'.value id) = ssaClobbers ctx s (s.value id) := by
  have hconst : ∀ x, ssaIsConst s' x = ssaIsConst s x := by
    intro x
    unfold ssaIsConst
    cases x with
    | none => rfl
    | some x =>
      dsimp only
      rw [h.op, h.field SsaValue.cls (fun _ => rfl), h.field SsaValue.aux (fun _ => rfl)]
  unfold ssaClobbers
  rw [h.op, h.field SsaValue.aux (fun _ => rfl), h.field SsaValue.aux2 (fun _ => rfl),
    h.field SsaValue.b (fun _ => rfl), hconst]

end SameForm

section Numbering

variable {ctx : BackendContext}

/-- The clobber that a value of the block `b` notes, if any. -/
def Notes (ctx : BackendContext) (a : SsaAlloc) (b id : Nat) (c : SsaClobber) : Prop :=
  (a.s.value id).op ≠ .phi ∧ ssaClobbers ctx a.s (a.s.value id) ≠ 0 ∧
    c = ⟨(a.s.value id).start, ssaClobbers ctx a.s (a.s.value id), b⟩

/-- What the numbering of some values of the block `b` does. -/
structure NumberedValues (ctx : BackendContext) (b : Nat) (ids : List Nat) (a a' : SsaAlloc) : Prop where
  same : SameForm a.s a'.s
  order : a'.order = a.order
  starts : a'.blockStart = a.blockStart
  ends : a'.blockEnd = a.blockEnd
  le : a.position ≤ a'.position
  frame : ∀ id, id ∉ ids → a'.s.value id = a.s.value id
  stop : ∀ id ∈ ids, (a'.s.value id).stop = (a'.s.value id).start
  phi : ∀ id ∈ ids, (a'.s.value id).op = .phi → (a'.s.value id).start = a.startOf b
  point : ∀ id ∈ ids, (a'.s.value id).op ≠ .phi →
    a.position ≤ (a'.s.value id).start ∧ (a'.s.value id).start < a'.position
  clobbers : ∃ new, a'.clobbers = a.clobbers ++ new ∧ new.Pairwise (fun c d => c.position < d.position) ∧
    (∀ c ∈ new, a.position ≤ c.position ∧ c.position < a'.position) ∧
    (∀ c ∈ new, ∃ id ∈ ids, Notes ctx a' b id c) ∧
    ∀ id ∈ ids, ∀ c, Notes ctx a' b id c → c ∈ new

theorem NumberedValues.refl (b : Nat) (a : SsaAlloc) : NumberedValues ctx b [] a a :=
  ⟨.refl a.s, rfl, rfl, rfl, le_rfl, fun _ _ => rfl, forall_mem_nil _,
    forall_mem_nil _, forall_mem_nil _,
    [], (append_nil _).symm, .nil, forall_mem_nil _,
    forall_mem_nil _, forall_mem_nil _⟩

theorem NumberedValues.one {a : SsaAlloc} {b id : Nat} (hid : id < a.s.values.length) :
    NumberedValues ctx b [id] a (numberValue ctx b a id) := by
  by_cases hphi : (a.s.value id).op = .phi
  · have heq : numberValue ctx b a id =
        { a with s := a.s.modify id fun v => { v with start := a.startOf b, stop := a.startOf b } } := if_pos hphi
    rw [heq]
    have hsame : SameForm a.s (a.s.modify id fun v => { v with start := a.startOf b, stop := a.startOf b }) :=
      .modify a.s hid fun _ => ⟨rfl, fun h => h⟩
    refine ⟨hsame, rfl, rfl, rfl, le_rfl, fun j hj => ?_, fun j hj => ?_, fun j hj _ => ?_, fun j hj hc => ?_,
      [], (append_nil _).symm, .nil, forall_mem_nil _,
      forall_mem_nil _, fun j hj c hc => ?_⟩
    · rw [value_modify a.s hid, if_neg fun hc => hj (mem_singleton.mpr hc)]
    · rw [value_modify a.s hid, if_pos (mem_singleton.mp hj)]
    · rw [value_modify a.s hid, if_pos (mem_singleton.mp hj)]
    · rw [mem_singleton.mp hj, hsame.op] at hc
      exact absurd hphi hc
    · rw [mem_singleton.mp hj] at hc
      exact absurd ((hsame.op id).trans hphi) hc.1
  have heq : numberValue ctx b a id = { a with
      s := a.s.modify id fun v => { v with start := a.position, stop := a.position }
      clobbers := if ssaClobbers ctx a.s (a.s.value id) = 0 then a.clobbers
        else a.clobbers ++ [⟨a.position, ssaClobbers ctx a.s (a.s.value id), b⟩]
      position := a.position + 2 } := if_neg hphi
  rw [heq]
  have hsame : SameForm a.s (a.s.modify id fun v => { v with start := a.position, stop := a.position }) :=
    .modify a.s hid fun _ => ⟨rfl, fun h => h⟩
  have hmask := hsame.clobbers ctx id
  have hstart : ((a.s.modify id fun v => { v with start := a.position, stop := a.position }).value id).start =
      a.position := by rw [value_modify a.s hid, if_pos rfl]
  refine ⟨hsame, rfl, rfl, rfl, Nat.le_add_right _ _, fun j hj => ?_, fun j hj => ?_, fun j hj hc => ?_,
    fun j hj hc => ?_, ?_⟩
  · rw [value_modify a.s hid, if_neg fun hc => hj (mem_singleton.mpr hc)]
  · rw [value_modify a.s hid, if_pos (mem_singleton.mp hj)]
  · rw [mem_singleton.mp hj, hsame.op] at hc
    exact absurd hc hphi
  · rw [mem_singleton.mp hj, hstart]
    dsimp only
    omega
  by_cases hzero : ssaClobbers ctx a.s (a.s.value id) = 0
  · refine ⟨[], by rw [if_pos hzero, append_nil], .nil, forall_mem_nil _,
      forall_mem_nil _, fun j hj c hc => ?_⟩
    rw [mem_singleton.mp hj] at hc
    exact absurd (hmask.trans hzero) hc.2.1
  refine ⟨_, if_neg hzero, pairwise_singleton _ _, fun c hc => ?_, fun c hc => ?_, fun j hj c hc => ?_⟩
  · rw [mem_singleton.mp hc]
    dsimp only
    omega
  · refine ⟨id, mem_singleton_self id, by rw [hsame.op]; exact hphi, by rw [hmask]; exact hzero, ?_⟩
    rw [mem_singleton.mp hc, hmask, hstart]
  rw [mem_singleton.mp hj] at hc
  obtain ⟨-, -, rfl⟩ := hc
  rw [hmask, hstart]
  exact mem_singleton_self _

variable {a a' : SsaAlloc} {b : Nat}

theorem Notes.congr (h : SameForm a.s a'.s) {id : Nat} {c : SsaClobber}
    (hstart : (a'.s.value id).start = (a.s.value id).start) :
    Notes ctx a' b id c ↔ Notes ctx a b id c := by
  unfold Notes
  rw [h.op, h.clobbers, hstart]

theorem NumberedValues.trans {ids ids' : List Nat} {a'' : SsaAlloc}
    (h : NumberedValues ctx b ids a a') (h' : NumberedValues ctx b ids' a' a'')
    (hdisjoint : ∀ id ∈ ids, id ∉ ids') : NumberedValues ctx b (ids ++ ids') a a'' := by
  have hkeep : ∀ id ∈ ids, a''.s.value id = a'.s.value id := fun id hid => h'.frame id (hdisjoint id hid)
  have hstart : a'.startOf b = a.startOf b := by
    unfold SsaAlloc.startOf
    rw [h.starts]
  refine ⟨h.same.trans h'.same, h'.order.trans h.order, h'.starts.trans h.starts, h'.ends.trans h.ends,
    h.le.trans h'.le, fun id hid => ?_, fun id hid => ?_, fun id hid hop => ?_, fun id hid hop => ?_, ?_⟩
  · rw [mem_append, not_or] at hid
    exact (h'.frame id hid.2).trans (h.frame id hid.1)
  · rcases mem_append.mp hid with hid | hid
    · rw [hkeep id hid]
      exact h.stop id hid
    · exact h'.stop id hid
  · rcases mem_append.mp hid with hid | hid
    · rw [hkeep id hid] at hop ⊢
      exact h.phi id hid hop
    · exact (h'.phi id hid hop).trans hstart
  · rcases mem_append.mp hid with hid | hid
    · rw [hkeep id hid] at hop ⊢
      exact (h.point id hid hop).imp_right fun hlt => hlt.trans_le h'.le
    · exact (h'.point id hid hop).imp_left h.le.trans
  obtain ⟨new, hnew, hsorted, hrange, hsource, hnoted⟩ := h.clobbers
  obtain ⟨new', hnew', hsorted', hrange', hsource', hnoted'⟩ := h'.clobbers
  refine ⟨new ++ new', by rw [hnew', hnew, append_assoc], pairwise_append.mpr ⟨hsorted, hsorted',
    fun c hc d hd => (hrange c hc).2.trans_le (hrange' d hd).1⟩, fun c hc => ?_, fun c hc => ?_,
    fun id hid c hc => ?_⟩
  · rcases mem_append.mp hc with hc | hc
    · exact (hrange c hc).imp_right fun hlt => hlt.trans_le h'.le
    · exact (hrange' c hc).imp_left h.le.trans
  · rcases mem_append.mp hc with hc | hc
    · obtain ⟨id, hid, hnotes⟩ := hsource c hc
      exact ⟨id, mem_append_left _ hid, (Notes.congr h'.same (by rw [hkeep id hid])).mpr hnotes⟩
    · obtain ⟨id, hid, hnotes⟩ := hsource' c hc
      exact ⟨id, mem_append_right _ hid, hnotes⟩
  · rcases mem_append.mp hid with hid | hid
    · exact mem_append_left _ (hnoted id hid c ((Notes.congr h'.same (by rw [hkeep id hid])).mp hc))
    · exact mem_append_right _ (hnoted' id hid c hc)

theorem foldl_numberValue : ∀ (ids : List Nat) {a : SsaAlloc}, ids.Nodup →
    (∀ id ∈ ids, id < a.s.values.length) → NumberedValues ctx b ids a (ids.foldl (numberValue ctx b) a)
  | [], a, _, _ => .refl b a
  | id :: ids, a, hnodup, hlt => by
    have hone : NumberedValues ctx b [id] a (numberValue ctx b a id) := .one (hlt id mem_cons_self)
    have hrest := foldl_numberValue ids (a := numberValue ctx b a id) (nodup_cons.mp hnodup).2
      fun j hj => by rw [hone.same.length]; exact hlt j (mem_cons_of_mem id hj)
    exact hone.trans hrest fun j hj => by rw [mem_singleton.mp hj]; exact (nodup_cons.mp hnodup).1

/-- **The points of some blocks,** one block behind another. -/
structure Numbered (ctx : BackendContext) (bs : List Nat) (a a' : SsaAlloc) : Prop where
  same : SameForm a.s a'.s
  order : a'.order = a.order
  starts : a'.blockStart.length = a.blockStart.length
  ends : a'.blockEnd.length = a.blockEnd.length
  le : a.position ≤ a'.position
  frame : ∀ id, id ∉ valuesOf a.s bs → a'.s.value id = a.s.value id
  frameBlock : ∀ b, b ∉ bs → a'.startOf b = a.startOf b ∧ a'.endOf b = a.endOf b
  block : ∀ b ∈ bs, a.position ≤ a'.startOf b ∧ a'.startOf b < a'.endOf b ∧ a'.endOf b < a'.position
  sorted : bs.Pairwise fun b c => a'.endOf b < a'.startOf c
  stop : ∀ b ∈ bs, ∀ id ∈ (a.s.block b).values, (a'.s.value id).stop = (a'.s.value id).start
  phi : ∀ b ∈ bs, ∀ id ∈ (a.s.block b).values, (a'.s.value id).op = .phi →
    (a'.s.value id).start = a'.startOf b
  point : ∀ b ∈ bs, ∀ id ∈ (a.s.block b).values, (a'.s.value id).op ≠ .phi →
    a'.startOf b < (a'.s.value id).start ∧ (a'.s.value id).start < a'.endOf b
  clobbers : ∃ new, a'.clobbers = a.clobbers ++ new ∧ new.Pairwise (fun c d => c.position < d.position) ∧
    (∀ c ∈ new, a.position ≤ c.position ∧ c.position < a'.position) ∧
    (∀ c ∈ new, ∃ b ∈ bs, ∃ id ∈ (a.s.block b).values, Notes ctx a' b id c) ∧
    ∀ b ∈ bs, ∀ id ∈ (a.s.block b).values, ∀ c, Notes ctx a' b id c → c ∈ new

theorem Numbered.refl (a : SsaAlloc) : Numbered ctx [] a a :=
  ⟨.refl a.s, rfl, rfl, rfl, le_rfl, fun _ _ => rfl, fun _ _ => ⟨rfl, rfl⟩,
    forall_mem_nil _, .nil, forall_mem_nil _,
    forall_mem_nil _, forall_mem_nil _,
    [], (append_nil _).symm, .nil, forall_mem_nil _,
    forall_mem_nil _, forall_mem_nil _⟩

theorem Numbered.one {a : SsaAlloc} {b : Nat} (hstart : b < a.blockStart.length) (hend : b < a.blockEnd.length)
    (hnodup : (a.s.block b).values.Nodup) (hlt : ∀ id ∈ (a.s.block b).values, id < a.s.values.length) :
    Numbered ctx [b] a (numberBlock ctx a b) := by
  generalize hbegin : { a with blockStart := a.blockStart.set b a.position, position := a.position + 2 } = a1
  have hs : a1.s = a.s := by rw [← hbegin]
  have hposition : a1.position = a.position + 2 := by rw [← hbegin]
  have hstart1 : ∀ c, a1.startOf c = if c = b then a.position else a.startOf c := by
    intro c
    rw [← hbegin]
    exact Lib.Worklist.getD_set _ hstart c _
  have hvalues : NumberedValues ctx b (a.s.block b).values a1 ((a.s.block b).values.foldl (numberValue ctx b) a1) :=
    foldl_numberValue _ hnodup (hs ▸ hlt)
  generalize ha2 : (a.s.block b).values.foldl (numberValue ctx b) a1 = a2 at hvalues
  have heq : numberBlock ctx a b =
      { a2 with blockEnd := a2.blockEnd.set b a2.position, position := a2.position + 2 } := by
    rw [← ha2, ← hbegin]
    rfl
  have hstarts : ∀ c, (numberBlock ctx a b).startOf c = if c = b then a.position else a.startOf c := by
    intro c
    rw [heq, ← hstart1]
    unfold SsaAlloc.startOf
    rw [hvalues.starts]
  have hends : ∀ c, (numberBlock ctx a b).endOf c = if c = b then a2.position else a.endOf c := by
    intro c
    rw [heq]
    have hend2 : a2.blockEnd = a.blockEnd := by rw [hvalues.ends, ← hbegin]
    rw [hend2]
    exact Lib.Worklist.getD_set _ hend c _
  have hs2 : (numberBlock ctx a b).s = a2.s := by rw [heq]
  have hpos2 : (numberBlock ctx a b).position = a2.position + 2 := by rw [heq]
  have hle := hvalues.le
  have hstartb : (numberBlock ctx a b).startOf b = a.position := by rw [hstarts, if_pos rfl]
  have hendb : (numberBlock ctx a b).endOf b = a2.position := by rw [hends, if_pos rfl]
  have hnotes : ∀ id c, Notes ctx (numberBlock ctx a b) b id c ↔ Notes ctx a2 b id c := fun id c => by
    unfold Notes
    rw [hs2]
  refine ⟨by rw [hs2, ← hs]; exact hvalues.same, by rw [heq]; exact hvalues.order.trans (by rw [← hbegin]), ?_, ?_,
    by omega, fun id hid => ?_, fun c hc => ?_, fun c hc => ?_, pairwise_singleton _ _, fun c hc id hid => ?_,
    fun c hc id hid hop => ?_, fun c hc id hid hop => ?_, ?_⟩
  · rw [heq]
    exact (congrArg length hvalues.starts).trans (by rw [← hbegin]; exact length_set ..)
  · rw [heq]
    exact (length_set ..).trans (congrArg length (hvalues.ends.trans (by rw [← hbegin])))
  · rw [hs2, ← hs]
    refine hvalues.frame id fun hmem => hid ?_
    exact mem_flatMap.mpr ⟨b, mem_singleton_self b, hmem⟩
  · have hne : c ≠ b := fun h => hc (mem_singleton.mpr h)
    rw [hstarts, hends, if_neg hne, if_neg hne]
    exact ⟨rfl, rfl⟩
  · rw [mem_singleton.mp hc, hstartb, hendb]
    omega
  · rw [mem_singleton.mp hc] at hid
    rw [hs2]
    exact hvalues.stop id hid
  · rw [mem_singleton.mp hc] at hid ⊢
    rw [hs2] at hop ⊢
    rw [hvalues.phi id hid hop, hstartb, hstart1, if_pos rfl]
  · rw [mem_singleton.mp hc] at hid ⊢
    rw [hs2] at hop ⊢
    have hpoint := hvalues.point id hid hop
    rw [hstartb, hendb]
    omega
  · obtain ⟨new, hnew, hsorted, hrange, hsource, hnoted⟩ := hvalues.clobbers
    refine ⟨new, by rw [heq]; exact hnew.trans (by rw [← hbegin]), hsorted, fun c hc => ?_, fun c hc => ?_,
      fun c hc id hid d hd => ?_⟩
    · have hin := hrange c hc
      omega
    · obtain ⟨id, hid, hnote⟩ := hsource c hc
      exact ⟨b, mem_singleton_self b, id, hid, (hnotes id c).mpr hnote⟩
    · rw [mem_singleton.mp hc] at hid hd
      exact hnoted id hid d ((hnotes id d).mp hd)

theorem Numbered.trans {bs bs' : List Nat} {a'' : SsaAlloc} (h : Numbered ctx bs a a')
    (h' : Numbered ctx bs' a' a'') (hdisjoint : ∀ b ∈ bs, b ∉ bs')
    (hvalues : ∀ id ∈ valuesOf a.s bs, id ∉ valuesOf a.s bs') : Numbered ctx (bs ++ bs') a a'' := by
  have hblock := h.same.block
  have hvalues' : valuesOf a'.s bs' = valuesOf a.s bs' := by
    unfold valuesOf
    simp only [hblock]
  have hkeep : ∀ b ∈ bs, ∀ id ∈ (a.s.block b).values, a''.s.value id = a'.s.value id := fun b hb id hid =>
    h'.frame id (by rw [hvalues']; exact hvalues id (mem_flatMap.mpr ⟨b, hb, hid⟩))
  have hkeepBlock : ∀ b ∈ bs, a''.startOf b = a'.startOf b ∧ a''.endOf b = a'.endOf b := fun b hb =>
    h'.frameBlock b (hdisjoint b hb)
  refine ⟨h.same.trans h'.same, h'.order.trans h.order, h'.starts.trans h.starts, h'.ends.trans h.ends,
    h.le.trans h'.le, fun id hid => ?_, fun b hb => ?_, fun b hb => ?_, ?_, fun b hb id hid => ?_,
    fun b hb id hid hop => ?_, fun b hb id hid hop => ?_, ?_⟩
  · unfold valuesOf at hid
    rw [flatMap_append, mem_append, not_or] at hid
    exact (h'.frame id (by rw [hvalues']; exact hid.2)).trans (h.frame id hid.1)
  · rw [mem_append, not_or] at hb
    have h1 := h'.frameBlock b hb.2
    have h2 := h.frameBlock b hb.1
    exact ⟨h1.1.trans h2.1, h1.2.trans h2.2⟩
  · rcases mem_append.mp hb with hb | hb
    · rw [(hkeepBlock b hb).1, (hkeepBlock b hb).2]
      exact ⟨(h.block b hb).1, (h.block b hb).2.1, (h.block b hb).2.2.trans_le h'.le⟩
    · exact ⟨h.le.trans (h'.block b hb).1, (h'.block b hb).2⟩
  · refine pairwise_append.mpr ⟨?_, h'.sorted, fun b hb c hc => ?_⟩
    · refine h.sorted.imp_of_mem fun {b c} hb hc hlt => ?_
      rw [(hkeepBlock b hb).2, (hkeepBlock c hc).1]
      exact hlt
    · rw [(hkeepBlock b hb).2]
      exact (h.block b hb).2.2.trans_le (h'.block c hc).1
  · rcases mem_append.mp hb with hb | hb
    · rw [hkeep b hb id hid]
      exact h.stop b hb id hid
    · exact h'.stop b hb id (by rw [hblock]; exact hid)
  · rcases mem_append.mp hb with hb | hb
    · rw [hkeep b hb id hid] at hop ⊢
      rw [(hkeepBlock b hb).1]
      exact h.phi b hb id hid hop
    · exact h'.phi b hb id (by rw [hblock]; exact hid) hop
  · rcases mem_append.mp hb with hb | hb
    · rw [hkeep b hb id hid] at hop ⊢
      rw [(hkeepBlock b hb).1, (hkeepBlock b hb).2]
      exact h.point b hb id hid hop
    · exact h'.point b hb id (by rw [hblock]; exact hid) hop
  obtain ⟨new, hnew, hsorted, hrange, hsource, hnoted⟩ := h.clobbers
  obtain ⟨new', hnew', hsorted', hrange', hsource', hnoted'⟩ := h'.clobbers
  have hnotes : ∀ b ∈ bs, ∀ id ∈ (a.s.block b).values, ∀ c,
      Notes ctx a'' b id c ↔ Notes ctx a' b id c := fun b hb id hid c =>
    Notes.congr h'.same (by rw [hkeep b hb id hid])
  refine ⟨new ++ new', by rw [hnew', hnew, append_assoc], pairwise_append.mpr ⟨hsorted, hsorted',
    fun c hc d hd => (hrange c hc).2.trans_le (hrange' d hd).1⟩, fun c hc => ?_, fun c hc => ?_,
    fun b hb id hid c hc => ?_⟩
  · rcases mem_append.mp hc with hc | hc
    · exact (hrange c hc).imp_right fun hlt => hlt.trans_le h'.le
    · exact (hrange' c hc).imp_left h.le.trans
  · rcases mem_append.mp hc with hc | hc
    · obtain ⟨b, hb, id, hid, hnote⟩ := hsource c hc
      exact ⟨b, mem_append_left _ hb, id, hid, (hnotes b hb id hid c).mpr hnote⟩
    · obtain ⟨b, hb, id, hid, hnote⟩ := hsource' c hc
      exact ⟨b, mem_append_right _ hb, id, by rw [← hblock]; exact hid, hnote⟩
  · rcases mem_append.mp hb with hb | hb
    · exact mem_append_left _ (hnoted b hb id hid c ((hnotes b hb id hid c).mp hc))
    · exact mem_append_right _ (hnoted' b hb id (by rw [hblock]; exact hid) c hc)

theorem foldl_numberBlock : ∀ (bs : List Nat) {a : SsaAlloc}, bs.Nodup → (valuesOf a.s bs).Nodup →
    (∀ b ∈ bs, b < a.blockStart.length ∧ b < a.blockEnd.length) →
    (∀ id ∈ valuesOf a.s bs, id < a.s.values.length) → Numbered ctx bs a (bs.foldl (numberBlock ctx) a)
  | [], a, _, _, _, _ => .refl a
  | b :: bs, a, hnodup, hvalues, hblocks, hlt => by
    have hsplit : valuesOf a.s (b :: bs) = (a.s.block b).values ++ valuesOf a.s bs := flatMap_cons ..
    rw [hsplit] at hvalues hlt
    obtain ⟨hnodupb, hnodupbs, hdisjoint⟩ := nodup_append.mp hvalues
    have hone : Numbered ctx [b] a (numberBlock ctx a b) :=
      .one (hblocks b mem_cons_self).1 (hblocks b mem_cons_self).2 hnodupb
        fun id hid => hlt id (mem_append_left _ hid)
    have hsame : valuesOf (numberBlock ctx a b).s bs = valuesOf a.s bs := by
      unfold valuesOf
      simp only [hone.same.block]
    have hrest := foldl_numberBlock bs (a := numberBlock ctx a b) (nodup_cons.mp hnodup).2
      (by rw [hsame]; exact hnodupbs)
      (fun c hc => by rw [hone.starts, hone.ends]; exact hblocks c (mem_cons_of_mem b hc))
      fun id hid => by
        rw [hone.same.length]
        rw [hsame] at hid
        exact hlt id (mem_append_right _ hid)
    refine hone.trans hrest (fun c hc => ?_) fun id hid hid' => ?_
    · rw [mem_singleton.mp hc]
      exact (nodup_cons.mp hnodup).1
    · have hid : id ∈ (a.s.block b).values := by simpa [valuesOf] using hid
      exact hdisjoint id hid id hid' rfl

end Numbering

/-- Two allocations that are the same up to the ends of the intervals. -/
structure SameStarts (a a' : SsaAlloc) : Prop where
  same : SameForm a.s a'.s
  start : ∀ id, (a'.s.value id).start = (a.s.value id).start
  order : a'.order = a.order
  starts : a'.blockStart = a.blockStart
  ends : a'.blockEnd = a.blockEnd
  clobbers : a'.clobbers = a.clobbers

namespace SameStarts

variable {a a' a'' : SsaAlloc}

theorem refl (a : SsaAlloc) : SameStarts a a := ⟨.refl a.s, fun _ => rfl, rfl, rfl, rfl, rfl⟩

theorem trans (h : SameStarts a a') (h' : SameStarts a' a'') : SameStarts a a'' :=
  ⟨h.same.trans h'.same, fun id => (h'.start id).trans (h.start id), h'.order.trans h.order,
    h'.starts.trans h.starts, h'.ends.trans h.ends, h'.clobbers.trans h.clobbers⟩

theorem setStop (a : SsaAlloc) (id : Nat) (g : SsaValue → Nat) :
    SameStarts a { a with s := a.s.modify id fun o => { o with stop := g o } } := by
  by_cases hid : id < a.s.values.length
  · refine ⟨.modify a.s hid fun _ => ⟨rfl, fun h => h⟩, fun j => ?_, rfl, rfl, rfl, rfl⟩
    rw [value_modify a.s hid]
    split_ifs <;> rfl
  have hsame : a.s.modify id (fun o => { o with stop := g o }) = a.s := by
    unfold Ssa.modify
    rw [modify_eq_self (Nat.not_lt.mp hid)]
  rw [hsame]
  exact .refl a

theorem endOf (h : SameStarts a a') (b : Nat) : a'.endOf b = a.endOf b := by
  unfold SsaAlloc.endOf
  rw [h.ends]

theorem startOf (h : SameStarts a a') (b : Nat) : a'.startOf b = a.startOf b := by
  unfold SsaAlloc.startOf
  rw [h.starts]

end SameStarts

/-- **Extending the intervals by uses:** each ends at its last use, and the uses in other blocks than
the definition's are noted. -/
theorem foldl_useValue : ∀ (uses : List SsaUse) (a : SsaAlloc) (live : List (Nat × Nat)),
    SameStarts a (uses.foldl useValue (a, live)).1 ∧
    (∀ id < a.s.values.length,
      (a.s.value id).stop ≤ ((uses.foldl useValue (a, live)).1.s.value id).stop ∧
      (∀ use ∈ uses, use.value = id → use.point ≤ ((uses.foldl useValue (a, live)).1.s.value id).stop) ∧
      (((uses.foldl useValue (a, live)).1.s.value id).stop = (a.s.value id).stop ∨
        ∃ use ∈ uses, use.value = id ∧ ((uses.foldl useValue (a, live)).1.s.value id).stop = use.point)) ∧
    ∀ p, p ∈ (uses.foldl useValue (a, live)).2 ↔ p ∈ live ∨
      ∃ use ∈ uses, p = (use.value, use.block) ∧ use.block ≠ (a.s.value use.value).block
  | [], a, live => ⟨.refl a, fun _ _ => ⟨le_refl _, forall_mem_nil _, .inl rfl⟩, fun p => by simp⟩
  | use :: uses, a, live => by
    rw [foldl_cons]
    have hstep := SameStarts.setStop a use.value fun o => max o.stop use.point
    generalize hlive : (if use.block = (a.s.value use.value).block then live
      else live ++ [(use.value, use.block)]) = live'
    have hnext : useValue (a, live) use =
        ({ a with s := a.s.modify use.value fun o => { o with stop := max o.stop use.point } }, live') := by
      rw [← hlive]
      rfl
    generalize ha1 : { a with s := a.s.modify use.value fun o => { o with stop := max o.stop use.point } } = a1
      at hstep hnext
    rw [hnext]
    obtain ⟨hsame, hstops, hmem⟩ := foldl_useValue uses a1 live'
    have hstop1 : ∀ id < a.s.values.length, (a1.s.value id).stop =
        if id = use.value then max (a.s.value id).stop use.point else (a.s.value id).stop := by
      intro id hid
      rw [← ha1]
      by_cases hvalue : id = use.value
      · rw [value_modify a.s (hvalue ▸ hid), if_pos hvalue, if_pos hvalue]
      rw [if_neg hvalue]
      by_cases hrange : use.value < a.s.values.length
      · rw [value_modify a.s hrange, if_neg hvalue]
      · unfold Ssa.modify
        rw [modify_eq_self (Nat.not_lt.mp hrange)]
    refine ⟨hstep.trans hsame, fun id hid => ?_, fun p => ?_⟩
    · obtain ⟨hle, hcover, hattained⟩ := hstops id (by rw [hstep.same.length]; exact hid)
      have hone := hstop1 id hid
      split_ifs at hone with hvalue
      · have h1 : (a.s.value id).stop ≤ (a1.s.value id).stop := hone ▸ le_max_left _ _
        have h2 : use.point ≤ (a1.s.value id).stop := hone ▸ le_max_right _ _
        refine ⟨h1.trans hle, fun u hu hid' => ?_, ?_⟩
        · rcases mem_cons.mp hu with rfl | hu
          · exact h2.trans hle
          · exact hcover u hu hid'
        rcases hattained with heq | ⟨u, hu, hid', heq⟩
        · rcases max_choice (a.s.value id).stop use.point with hmax | hmax
          · exact .inl (heq.trans (hone.trans hmax))
          · exact .inr ⟨use, mem_cons_self, hvalue.symm, heq.trans (hone.trans hmax)⟩
        · exact .inr ⟨u, mem_cons_of_mem use hu, hid', heq⟩
      refine ⟨hone ▸ hle, fun u hu hid' => ?_, ?_⟩
      · rcases mem_cons.mp hu with rfl | hu
        · exact absurd hid'.symm hvalue
        · exact hcover u hu hid'
      rcases hattained with heq | ⟨u, hu, hid', heq⟩
      · exact .inl (heq.trans hone)
      · exact .inr ⟨u, mem_cons_of_mem use hu, hid', heq⟩
    have hblock : ∀ id, (a1.s.value id).block = (a.s.value id).block := hstep.same.inBlock
    rw [hmem, ← hlive]
    simp only [hblock, mem_cons]
    split_ifs with hhome
    · constructor
      · rintro (h | ⟨u, hu, h⟩)
        · exact .inl h
        · exact .inr ⟨u, .inr hu, h⟩
      rintro (h | ⟨u, rfl | hu, h⟩)
      · exact .inl h
      · exact absurd hhome h.2
      · exact .inr ⟨u, hu, h⟩
    rw [mem_append, mem_singleton]
    constructor
    · rintro ((h | h) | ⟨u, hu, h⟩)
      · exact .inl h
      · exact .inr ⟨use, .inl rfl, h, hhome⟩
      · exact .inr ⟨u, .inr hu, h⟩
    rintro (h | ⟨u, rfl | hu, h⟩)
    · exact .inl (.inl h)
    · exact .inl (.inr h.1)
    · exact .inr ⟨u, hu, h⟩

section Walks

open Lib.Worklist

/-- The blocks of the noted uses of a value. -/
def startsOf (live : List (Nat × Nat)) (id : Nat) : List Nat := (live.filter fun use => use.1 = id).map (·.2)

variable {live : List (Nat × Nat)}

theorem mem_startsOf {id b : Nat} : b ∈ startsOf live id ↔ (id, b) ∈ live := by
  unfold startsOf
  rw [mem_map]
  constructor
  · rintro ⟨⟨id', b'⟩, hmem, rfl⟩
    obtain ⟨hmem, hid⟩ := mem_filter.mp hmem
    have hid : id' = id := by simpa using hid
    exact hid ▸ hmem
  · exact fun h => ⟨(id, b), mem_filter.mpr ⟨h, by simp⟩, rfl⟩

/-- A block that a value is live into, and a predecessor of it. -/
def Walked (a : SsaAlloc) (live : List (Nat × Nat)) (id x p : Nat) : Prop :=
  Lib.Worklist.Edge (fun x => (a.s.block x).preds) (fun x => x == (a.s.value id).block) (startsOf live id) x p

/-- **The walks of all values:** each ends at the last of the blocks that it is live out of. -/
theorem foldl_walkValue {a : SsaAlloc} {blocks : Nat}
    (hinside : ∀ id < a.s.values.length, ∀ x, Reach (fun x => (a.s.block x).preds)
      (fun x => x == (a.s.value id).block) (startsOf live id) x → x < blocks) :
    ∀ k, k ≤ a.s.values.length → ∀ {st : SsaAlloc × List Nat},
    (List.range k).foldl (walkValue live) (a, List.replicate blocks 0) = st →
      SameStarts a st.1 ∧ st.2.length = blocks ∧ (∀ x, st.2.getD x 0 ≤ k) ∧
      (∀ id, k ≤ id → st.1.s.value id = a.s.value id) ∧
      ∀ id < k, (a.s.value id).stop ≤ (st.1.s.value id).stop ∧
        (∀ x p, Walked a live id x p → a.endOf p ≤ (st.1.s.value id).stop) ∧
        ((st.1.s.value id).stop = (a.s.value id).stop ∨
          ∃ x p, Walked a live id x p ∧ (st.1.s.value id).stop = a.endOf p) := by
  intro k
  induction k with
  | zero =>
    rintro - st rfl
    refine ⟨.refl a, length_replicate, fun x => ?_, fun _ _ => rfl, fun id hid => absurd hid (Nat.not_lt_zero id)⟩
    rw [range_zero, foldl_nil, getD_eq_getElem?_getD, getElem?_replicate]
    split_ifs <;> exact le_refl 0
  | succ k ih =>
    intro hk st hst
    rw [range_succ, foldl_append, foldl_cons, foldl_nil] at hst
    generalize hbefore : (range k).foldl (walkValue live) (a, replicate blocks 0) = before at hst
    obtain ⟨hsame, hlength, hstamps, hrest, hdone⟩ := ih (Nat.le_of_succ_le hk) hbefore
    obtain ⟨a1, stamps⟩ := before
    dsimp only at hsame hlength hstamps hrest hdone
    have hvalue : a1.s.value k = a.s.value k := hrest k (le_refl k)
    have hblock : ∀ x, a1.s.block x = a.s.block x := hsame.same.block
    have hend : a1.endOf = a.endOf := funext hsame.endOf
    generalize hwalk : (startsOf live k).foldl
      (walk (fun x => (a.s.block x).preds) (fun x => x == (a.s.value k).block) a.endOf (k + 1))
      { stamps := stamps, best := (a.s.value k).stop } = walked
    have hst' : st = ({ a1 with s := a1.s.modify k fun o => { o with stop := walked.best } }, walked.stamps) := by
      rw [← hst]
      unfold walkValue
      dsimp only
      rw [hvalue, hend]
      simp only [hblock]
      rw [← hwalk]
      rfl
    have hlt : k < a1.s.values.length := by
      rw [hsame.same.length]
      exact hk
    have hspec := walks_spec rfl (fun x (hx : Lib.Worklist.State.stamped _ (k + 1) x) => ?_)
      (fun x hx => by dsimp only; rw [hlength]; exact hinside k hk x hx) hwalk
    · obtain ⟨-, hlength', hothers, hle, hcover, hattained⟩ := hspec
      subst hst'
      have hget : ∀ id, ((a1.s.modify k fun o => { o with stop := walked.best }).value id).stop =
          if id = k then walked.best else (a1.s.value id).stop := by
        intro id
        rw [value_modify a1.s hlt]
        split_ifs <;> rfl
      refine ⟨hsame.trans (.setStop a1 k fun _ => walked.best), hlength'.trans hlength, fun x => ?_,
        fun id hid => ?_, fun id hid => ?_⟩
      · rcases hothers x with hx | hx
        · exact (le_of_eq hx).trans ((hstamps x).trans (Nat.le_succ k))
        · exact le_of_eq hx
      · rw [value_modify a1.s hlt, if_neg (by omega)]
        exact hrest id (Nat.le_of_succ_le hid)
      rw [hget]
      by_cases hid' : id = k
      · subst hid'
        rw [if_pos rfl]
        exact ⟨hle, hcover, hattained⟩
      · rw [if_neg hid']
        exact hdone id (by omega)
    · have hbound := hstamps x
      have hx : stamps.getD x 0 = k + 1 := hx
      omega

end Walks

namespace SameStarts

variable {a a' : SsaAlloc} {operands : Nat → List Nat} {id b q : Nat}

theorem usesIn (h : SameStarts a a') : usesIn a' operands b = usesIn a operands b := by
  have hpoint : ∀ id, usePoint a' b (a'.s.value id) = usePoint a b (a.s.value id) := by
    intro id
    unfold usePoint
    rw [h.endOf, h.same.op, h.start, h.same.field SsaValue.fused (fun _ => rfl),
      h.same.field SsaValue.cond (fun _ => rfl)]
  have husesBy : ∀ ops id, usesBy a' ops b id = usesBy a ops b id := by
    intro ops id
    have hend : a'.endOf = a.endOf := funext h.endOf
    unfold usesBy
    dsimp only
    rw [h.same.op, h.same.block, hpoint, hend]
  unfold Backend.usesIn
  rw [h.same.block, h.endOf]
  simp only [husesBy]

theorem liveIn (h : SameStarts a a') : LiveIn a' operands id b ↔ LiveIn a operands id b := by
  constructor
  · intro hlive
    induction hlive with
    | @use use c hc hmem value elsewhere =>
      rw [h.order] at hc
      rw [h.usesIn] at hmem
      rw [h.same.inBlock] at elsewhere
      exact .use hc hmem value elsewhere
    | back _ hp elsewhere ih =>
      rw [h.same.block] at hp
      rw [h.same.inBlock] at elsewhere
      exact .back ih hp elsewhere
  intro hlive
  induction hlive with
  | @use use c hc hmem value elsewhere =>
    rw [← h.order] at hc
    rw [← h.usesIn] at hmem
    rw [← h.same.inBlock] at elsewhere
    exact .use hc hmem value elsewhere
  | back _ hp elsewhere ih =>
    rw [← h.same.block] at hp
    rw [← h.same.inBlock] at elsewhere
    exact .back ih hp elsewhere

theorem liveAt (h : SameStarts a a') : LiveAt a' operands id b q ↔ LiveAt a operands id b q := by
  constructor
  · rintro ⟨hinside, hdefined, hused⟩
    rw [h.startOf, h.endOf] at hinside
    rw [h.same.inBlock, h.start] at hdefined
    simp only [h.order, h.usesIn, h.liveIn, h.same.block] at hused
    exact ⟨hinside, hdefined, hused⟩
  rintro ⟨hinside, hdefined, hused⟩
  rw [← h.startOf, ← h.endOf] at hinside
  rw [← h.same.inBlock, ← h.start] at hdefined
  refine ⟨hinside, hdefined, ?_⟩
  simp only [h.order, h.usesIn, h.liveIn, h.same.block]
  exact hused

end SameStarts

theorem liveIn_same {a a' : SsaAlloc} (h : SameForm a.s a'.s) (horder : a'.order = a.order)
    {operands : Nat → List Nat} {id b : Nat} (hlive : LiveIn a' operands id b) : LiveIn a operands id b := by
  have huses : ∀ c, (usesIn a' operands c).map (fun use => (use.value, use.block)) =
      (usesIn a operands c).map fun use => (use.value, use.block) := by
    intro c
    unfold usesIn
    rw [map_append, map_append, map_flatMap, map_flatMap, h.block]
    congr 1
    · congr 1
      funext id
      unfold usesBy
      dsimp only
      rw [h.op, h.block]
      split_ifs
      · rw [map_map, map_map]
        rfl
      · rw [map_map, map_map]
        rfl
    · rw [map_map, map_map]
      rfl
  induction hlive with
  | @use use c hc hmem value elsewhere =>
    have hpair : (use.value, use.block) ∈ (usesIn a operands c).map fun use => (use.value, use.block) := by
      rw [← huses]
      exact mem_map_of_mem hmem
    obtain ⟨use', hmem', heq⟩ := mem_map.mp hpair
    have hvalue : use'.value = use.value := congrArg Prod.fst heq
    have hblock : use'.block = use.block := congrArg Prod.snd heq
    rw [h.inBlock] at elsewhere
    rw [horder] at hc
    rw [← hblock] at elsewhere ⊢
    exact .use hc hmem' (hvalue.trans value) elsewhere
  | back _ hp elsewhere ih =>
    rw [h.block] at hp
    rw [h.inBlock] at elsewhere
    exact .back ih hp elsewhere

section Intervals

variable {ctx : BackendContext} {s : Ssa} {order : List Nat}

theorem ssaNumber_numbered (ctx : BackendContext) (form : AllocatorForm s order) :
    Numbered ctx order (.unnumbered s order) (ssaNumber ctx s order) := by
  have hlength : ∀ b ∈ order, b < (SsaAlloc.unnumbered s order).blockStart.length ∧
      b < (SsaAlloc.unnumbered s order).blockEnd.length := by
    intro b hb
    unfold SsaAlloc.unnumbered
    rw [length_replicate]
    exact ⟨form.block_lt b hb, form.block_lt b hb⟩
  exact foldl_numberBlock order form.nodup form.values_nodup hlength form.values_lt

variable {id : Nat} {operands : Nat → List Nat}

theorem AllocatorForm.home (form : AllocatorForm s order) (hid : id ∈ valuesOf s order) :
    (s.value id).block ∈ order ∧ id ∈ (s.block (s.value id).block).values := by
  obtain ⟨b, hb, hmem⟩ := mem_flatMap.mp hid
  rw [form.inBlock b hb id hmem]
  exact ⟨hb, hmem⟩

variable {b : Nat}

theorem start_inside (form : AllocatorForm s order) (hb : b ∈ order) (hid : id ∈ (s.block b).values) :
    (ssaNumber ctx s order).startOf b ≤ ((ssaNumber ctx s order).s.value id).start ∧
      ((ssaNumber ctx s order).s.value id).start < (ssaNumber ctx s order).endOf b := by
  have hnumbered := ssaNumber_numbered ctx form
  by_cases hphi : ((ssaNumber ctx s order).s.value id).op = .phi
  · rw [hnumbered.phi b hb id hid hphi]
    exact ⟨le_rfl, (hnumbered.block b hb).2.1⟩
  · exact (hnumbered.point b hb id hid hphi).imp_left le_of_lt

theorem use_inside (form : AllocatorForm s order)
    (hoperands : ∀ id, (operands id).length ≤ (operandList s id).length) (hb : b ∈ order)
    {use : SsaUse} (h : use ∈ usesIn (ssaNumber ctx s order) operands b) : use.block ∈ order ∧
      (ssaNumber ctx s order).startOf use.block ≤ use.point ∧
      use.point ≤ (ssaNumber ctx s order).endOf use.block := by
  have hnumbered := ssaNumber_numbered ctx form
  have hblock : (ssaNumber ctx s order).s.block b = s.block b := hnumbered.same.block b
  unfold usesIn at h
  rw [hblock] at h
  rcases mem_append.mp h with h | h
  · obtain ⟨id, hid, huse⟩ := mem_flatMap.mp h
    have hop : ((ssaNumber ctx s order).s.value id).op = (s.value id).op := hnumbered.same.op id
    unfold usesBy at huse
    dsimp only at huse
    split_ifs at huse with hphi
    · obtain ⟨⟨op, j⟩, hpair, rfl⟩ := mem_map.mp huse
      have hj : j < (operands id).length := by
        have hlt := snd_lt_add_of_mem_zipIdx hpair
        simpa using hlt
      have hcount : (operandList s id).length = (s.block b).preds.length := by
        rw [← form.phis b hb id hid (hop ▸ hphi)]
        unfold operandList
        rw [hop] at hphi
        simp [hphi]
      have hpred : (s.block b).preds.getD j 0 ∈ (s.block b).preds := by
        have hlt : j < (s.block b).preds.length := hcount ▸ hj.trans_le (hoperands id)
        rw [getD_eq_getElem _ _ hlt]
        exact getElem_mem hlt
      rw [hblock]
      have hin := form.preds_mem b hb _ hpred
      exact ⟨hin, (hnumbered.block _ hin).2.1.le, le_rfl⟩
    · obtain ⟨op, -, rfl⟩ := mem_map.mp huse
      have hstart := hnumbered.point b hb id hid hphi
      refine ⟨hb, ?_⟩
      dsimp only
      unfold usePoint
      split_ifs <;> omega
  · obtain ⟨op, -, rfl⟩ := mem_map.mp h
    exact ⟨hb, (hnumbered.block b hb).2.1.le, le_rfl⟩

theorem LiveIn.elsewhere {a : SsaAlloc} (h : LiveIn a operands id b) :
    b ≠ (a.s.value id).block := by
  cases h with
  | use _ _ _ elsewhere | back _ _ elsewhere => exact elsewhere

theorem liveIn_order (form : AllocatorForm s order)
    (hoperands : ∀ id, (operands id).length ≤ (operandList s id).length)
    (h : LiveIn (ssaNumber ctx s order) operands id b) : b ∈ order := by
  have hnumbered := ssaNumber_numbered ctx form
  induction h with
  | use hb hmem =>
    rw [hnumbered.order] at hb
    exact (use_inside form hoperands hb hmem).1
  | back _ hp _ ih =>
    rw [hnumbered.same.block] at hp
    exact form.preds_mem _ ih _ hp

theorem counted_length (s : Ssa) (id : Nat) : (counted s id).length ≤ (operandList s id).length := by
  unfold counted ssaOperands
  rw [length_take]
  exact Nat.min_le_right _ _

/-- **The allocation behind the intervals,** which begin where the numbering put them. -/
theorem ssaIntervals_spec (ctx : BackendContext) (form : AllocatorForm s order) :
    SameStarts (ssaNumber ctx s order) (ssaIntervals ctx s order) ∧
    ∀ id ∈ valuesOf s order,
      ((ssaNumber ctx s order).s.value id).start ≤ ((ssaIntervals ctx s order).s.value id).stop ∧
      (∀ b q, LiveAt (ssaNumber ctx s order) (counted s) id b q →
        q ≤ ((ssaIntervals ctx s order).s.value id).stop) ∧
      (((ssaIntervals ctx s order).s.value id).stop = ((ssaNumber ctx s order).s.value id).start ∨
        ∃ b, LiveAt (ssaNumber ctx s order) (counted s) id b ((ssaIntervals ctx s order).s.value id).stop) := by
  have hnumbered := ssaNumber_numbered ctx form
  generalize ha : ssaNumber ctx s order = a at hnumbered
  have hcounted : (fun id => ssaOperands a.s id ssaMaxOperands) = counted s := by
    funext id
    unfold counted ssaOperands
    rw [hnumbered.same.operandList]
    rfl
  have horder : a.order = order := hnumbered.order
  have hlength : a.s.values.length = s.values.length := hnumbered.same.length
  generalize huses : order.flatMap (usesIn a (counted s)) = uses
  have hmem : ∀ use, use ∈ uses ↔ ∃ b ∈ order, use ∈ usesIn a (counted s) b := fun use => by
    rw [← huses]
    exact mem_flatMap
  have hinside : ∀ {b : Nat}, b ∈ order → ∀ {use : SsaUse}, use ∈ usesIn a (counted s) b → use.block ∈ order ∧
      a.startOf use.block ≤ use.point ∧ use.point ≤ a.endOf use.block := fun hb _ hu => by
    rw [← ha] at hu ⊢
    exact use_inside form (counted_length s) hb hu
  obtain ⟨hused, hstops, hlive⟩ := foldl_useValue uses a []
  generalize hst : uses.foldl useValue (a, []) = st at hused hstops hlive
  obtain ⟨a1, live⟩ := st
  -- The blocks that the walks reach are those that the value is live into, and that of its definition.
  have hreach : ∀ id x, Lib.Worklist.Reach (fun x => (a1.s.block x).preds) (fun x => x == (a1.s.value id).block)
      (startsOf live id) x → x ∈ order ∧ (x = (a.s.value id).block ∨ LiveIn a (counted s) id x) := by
    intro id x hx
    induction hx with
    | start hstart =>
      rw [mem_startsOf, hlive] at hstart
      rcases hstart with hnil | ⟨use, hu, heq, hne⟩
      · exact absurd hnil not_mem_nil
      obtain ⟨b, hb, hu⟩ := (hmem use).mp hu
      cases heq
      exact ⟨(hinside hb hu).1, .inr (.use (horder ▸ hb) hu rfl hne)⟩
    | @step x y _ hopen hy ih =>
      have hne : x ≠ (a.s.value id).block := by
        rw [hused.same.inBlock] at hopen
        simpa using hopen
      rw [hused.same.block, hnumbered.same.block] at hy
      refine ⟨form.preds_mem x ih.1 y hy, ?_⟩
      by_cases hhome : y = (a.s.value id).block
      · exact .inl hhome
      · rw [← hnumbered.same.block] at hy
        exact .inr (.back (ih.2.resolve_left hne) hy hhome)
  have hliveIn : ∀ id x, LiveIn a (counted s) id x →
      Lib.Worklist.Reach (fun x => (a1.s.block x).preds) (fun x => x == (a1.s.value id).block)
        (startsOf live id) x := by
    intro id x hx
    induction hx with
    | @use use b hb hu value elsewhere =>
      refine .start (mem_startsOf.mpr ((hlive _).mpr (.inr ⟨use, ?_, by rw [value], ?_⟩)))
      · exact (hmem use).mpr ⟨b, horder ▸ hb, hu⟩
      · rw [value]
        exact elsewhere
    | @back x p hx hp _ ih =>
      refine .step ih ?_ (by rw [hused.same.block]; exact hp)
      rw [hused.same.inBlock]
      simpa using hx.elsewhere
  have hwalked : ∀ id x p, Walked a1 live id x p ↔ LiveIn a (counted s) id x ∧ p ∈ (a.s.block x).preds := by
    intro id x p
    constructor
    · rintro ⟨hx, hopen, hp⟩
      have hopen : (x == (a1.s.value id).block) = false := hopen
      have hp : p ∈ (a1.s.block x).preds := hp
      rw [hused.same.inBlock] at hopen
      rw [hused.same.block] at hp
      exact ⟨(hreach id x hx).2.resolve_left (by simpa using hopen), hp⟩
    rintro ⟨hx, hp⟩
    refine ⟨hliveIn id x hx, ?_, ?_⟩
    · rw [hused.same.inBlock]
      simpa using hx.elsewhere
    dsimp only
    rw [hused.same.block]
    exact hp
  have hblocks : ∀ id < a1.s.values.length, ∀ x,
      Lib.Worklist.Reach (fun x => (a1.s.block x).preds) (fun x => x == (a1.s.value id).block)
        (startsOf live id) x → x < s.blocks.length :=
    fun id _ x hx => form.block_lt x (hreach id x hx).1
  have hlength1 : a1.s.values.length = s.values.length := hused.same.length.trans hlength
  generalize hwalk : (range s.values.length).foldl (walkValue live)
    (a1, replicate s.blocks.length 0) = walked
  obtain ⟨hsame, -, -, -, hdone⟩ := foldl_walkValue hblocks s.values.length (le_of_eq hlength1.symm) hwalk
  have hresult : ssaIntervals ctx s order = walked.1 := by
    unfold ssaIntervals
    rw [ha]
    dsimp only
    rw [hcounted, huses, hst]
    rw [hwalk]
  rw [hresult]
  refine ⟨hused.trans hsame, fun id hid => ?_⟩
  have hlt : id < s.values.length := form.values_lt id hid
  obtain ⟨hle1, hcover1, hattained1⟩ := hstops id (hlength ▸ hlt)
  obtain ⟨hle2, hcover2, hattained2⟩ := hdone id hlt
  obtain ⟨hhome, hmemhome⟩ := form.home hid
  have hstop0 : (a.s.value id).stop = (a.s.value id).start := hnumbered.stop _ hhome id hmemhome
  refine ⟨hstop0 ▸ hle1.trans hle2, fun b q hq => ?_, ?_⟩
  · rcases hq.used with ⟨c, hc, use, hu, hvalue, -, hpoint⟩ | ⟨x, hx, hb⟩
    · exact hpoint.trans ((hcover1 use ((hmem use).mpr ⟨c, horder ▸ hc, hu⟩) hvalue).trans hle2)
    have hcover := hcover2 x b ((hwalked id x b).mpr ⟨hx, hb⟩)
    rw [hused.endOf] at hcover
    exact hq.inside.2.trans hcover
  rcases hattained2 with heq | ⟨x, p, hwalk, heq⟩
  · rcases hattained1 with heq' | ⟨use, hu, hvalue, heq'⟩
    · exact .inl (heq.trans (heq'.trans hstop0))
    obtain ⟨c, hc, hu⟩ := (hmem use).mp hu
    obtain ⟨-, hin⟩ := hinside hc hu
    refine .inr ⟨use.block, ?_, fun _ => hstop0 ▸ hle1.trans hle2, ?_⟩
    · rw [heq, heq']
      exact hin
    · exact .inl ⟨c, horder.symm ▸ hc, use, hu, hvalue, rfl, le_of_eq (heq.trans heq')⟩
  obtain ⟨hx, hp⟩ := (hwalked id x p).mp hwalk
  rw [hused.endOf] at heq
  have hxin : x ∈ order := by
    rw [← ha] at hx
    exact liveIn_order form (counted_length s) hx
  have hpin : p ∈ order := form.preds_mem x hxin p (by rwa [hnumbered.same.block] at hp)
  refine .inr ⟨p, ⟨?_, le_of_eq heq⟩, fun _ => hstop0 ▸ hle1.trans hle2, .inr ⟨x, hx, hp⟩⟩
  rw [heq]
  exact (hnumbered.block p hpin).2.1.le

/-- A value that is live into a block is defined in a block before it in the order. -/
theorem liveIn_behind (form : AllocatorForm s order) (hid : id ∈ valuesOf s order) :
    ∀ (n : Nat) {before after : List Nat} {b : Nat}, before.length = n → order = before ++ b :: after →
    LiveIn (ssaNumber ctx s order) (operandList s) id b →
    (ssaNumber ctx s order).endOf (s.value id).block < (ssaNumber ctx s order).startOf b := by
  have hnumbered := ssaNumber_numbered ctx form
  intro n
  induction n using Nat.strong_induction_on with
  | _ n ih =>
    intro before after b hlength horder hlive
    have hne : before ≠ [] := by
      rintro rfl
      refine form.strict id hid b (by rw [horder]; rfl) ?_
      exact liveIn_same hnumbered.same hnumbered.order hlive
    obtain ⟨p, hp, hpmem⟩ := form.behind before b after horder hne
    have hedge : (ssaNumber ctx s order).endOf p < (ssaNumber ctx s order).startOf b := by
      have hsorted := hnumbered.sorted
      rw [horder] at hsorted ⊢
      exact (pairwise_append.mp hsorted).2.2 p hpmem b mem_cons_self
    by_cases hhome : p = (s.value id).block
    · rw [← hhome]
      exact hedge
    obtain ⟨before1, before2, rfl⟩ := append_of_mem hpmem
    have hlivep : LiveIn (ssaNumber ctx s order) (operandList s) id p :=
      .back hlive (by rw [hnumbered.same.block]; exact hp) (by rw [hnumbered.same.inBlock]; exact hhome)
    have hpin : p ∈ order := by
      rw [horder]
      exact mem_append_left _ hpmem
    have hrest := ih before1.length (by rw [← hlength, length_append, length_cons]; omega) rfl
      (by rw [horder, append_assoc, cons_append]) hlivep
    exact hrest.trans ((hnumbered.block p hpin).2.1.trans hedge)

theorem start_le (form : AllocatorForm s order) {q : Nat} (hid : id ∈ valuesOf s order)
    (hlive : LiveAt (ssaNumber ctx s order) (operandList s) id b q) :
    ((ssaNumber ctx s order).s.value id).start ≤ q := by
  have hnumbered := ssaNumber_numbered ctx form
  have hblock : ((ssaNumber ctx s order).s.value id).block = (s.value id).block := hnumbered.same.inBlock id
  by_cases hhome : (s.value id).block = b
  · exact hlive.defined (hblock.trans hhome)
  have hin : LiveIn (ssaNumber ctx s order) (operandList s) id b := by
    rcases hlive.used with ⟨c, hc, use, hu, hvalue, rfl, -⟩ | ⟨x, hx, hb⟩
    · exact .use hc hu hvalue fun h => hhome (hblock ▸ h.symm)
    · exact .back hx hb fun h => hhome (hblock ▸ h.symm)
  obtain ⟨before, after, horder⟩ := append_of_mem (liveIn_order form (fun _ => le_rfl) hin)
  have hbehind := liveIn_behind form hid _ rfl horder hin
  obtain ⟨hhomein, hmem⟩ := form.home hid
  exact (((start_inside form hhomein hmem).2.trans hbehind).trans_le hlive.inside.1).le

end Intervals

end Dyn.Backend
