import Dyn.Backend.LoadReuse
import Dyn.Backend.Executions

/-!
# backend/ssa: what the reuse of loads knows

At each point of a block the pass knows loads and stores that are before the point.  Their values
are still those of the memory.
-/

namespace Dyn.Backend

open List
open Lib Lib.Flow

section

variable {r r' : Reuse} {id value : Nat} {stays : Bool}

/-- Where the pass takes the value of a load from: a store of the run, or a load of the epoch. -/
inductive Source (r : Reuse) (v : SsaValue) (value : Nat) : Prop
  | store (id : Nat) : id ∈ r.stores → (r.ssa.value id).c.bind (ssaResolve r.ssa) = some value →
      forwards r.ssa (r.ssa.value id) v value = true → Source r v value
  | load (slot : Nat) : (r.table.getD slot {}).epoch = r.epoch → (r.table.getD slot {}).value = value →
      ssaSame (r.ssa.value value) v = true → Source r v value

theorem findForward_spec {s : Ssa} {v : SsaValue} : ∀ (stores : List Nat), findForward s v stores = some value →
    ∃ id ∈ stores, (s.value id).c.bind (ssaResolve s) = some value ∧ forwards s (s.value id) v value = true := by
  intro stores
  induction stores with
  | nil =>
    intro h
    cases h
  | cons id stores ih =>
    intro h
    have hrest : findForward s v stores = some value → ∃ id' ∈ id :: stores,
        (s.value id').c.bind (ssaResolve s) = some value ∧ forwards s (s.value id') v value = true := fun h => by
      obtain ⟨id', hmem, hspec⟩ := ih h
      exact ⟨id', mem_cons_of_mem id hmem, hspec⟩
    unfold findForward at h
    dsimp only at h
    split at h
    · exact hrest h
    rename_i found hfound
    split at h
    · rename_i hforwards
      cases h
      exact ⟨id, mem_cons_self, hfound, hforwards⟩
    · exact hrest h

theorem probeLoad_found {v : SsaValue} : ∀ (fuel slot : Nat), probeLoad r v fuel slot = some (.found value) →
    ∃ slot, (r.table.getD slot {}).epoch = r.epoch ∧ (r.table.getD slot {}).value = value ∧
      ssaSame (r.ssa.value value) v = true := by
  intro fuel
  induction fuel with
  | zero =>
    intro slot h
    cases h
  | succ fuel ih =>
    intro slot h
    unfold probeLoad at h
    dsimp only at h
    split at h
    · cases h
    rename_i hepoch
    split at h
    · rename_i hsame
      cases h
      exact ⟨slot, not_ne_iff.mp hepoch, rfl, hsame⟩
    · exact ih _ h

inductive Reused (r : Reuse) (id : Nat) : Reuse → Bool → Prop
  | replaced (value : Nat) : (r.ssa.value id).op = .load → Source r (r.ssa.value id) value →
      Reused r id (replaceLoad r id value) false
  | noted (slot : Nat) : (r.ssa.value id).op = .load →
      Reused r id { r with table := r.table.set slot ⟨r.epoch, id⟩ } true
  | barrier (stores : List Nat) : (r.ssa.value id).op ≠ .load →
      ((r.ssa.value id).op ≠ .store ∧ stores = [] ∨
        (r.ssa.value id).op = .store ∧ stores = joinStores r.ssa r.stores id) →
      Reused r id { r with epoch := r.epoch + 1, stores := stores } true
  | passed : (r.ssa.value id).op ≠ .load →
      ((r.ssa.value id).effect = false ∨ (r.ssa.value id).op.keepsMemory = true) → Reused r id r true

theorem reuseValue_spec (h : reuseValue r id = some (r', stays)) : Reused r id r' stays := by
  unfold reuseValue at h
  dsimp only at h
  split at h
  · rename_i hload
    split at h
    · rename_i value hfind
      cases h
      obtain ⟨store, hmem, hresolve, hforwards⟩ := findForward_spec _ hfind
      exact .replaced value hload (.store store (mem_reverse.mp hmem) hresolve hforwards)
    obtain ⟨probe, hprobe, h⟩ := Option.bind_eq_some_iff.mp h
    cases probe with
    | found value =>
      cases h
      obtain ⟨slot, hepoch, hvalue, hsame⟩ := probeLoad_found _ _ hprobe
      exact .replaced value hload (.load slot hepoch hvalue hsame)
    | free slot =>
      cases h
      exact .noted slot hload
  rename_i hload
  split at h
  · cases h
    refine .barrier _ hload ?_
    by_cases hstore : (r.ssa.value id).op = .store
    · exact .inr ⟨hstore, if_neg (not_not_intro hstore)⟩
    · exact .inl ⟨hstore, if_pos hstore⟩
  rename_i heffect
  cases h
  refine .passed hload ?_
  rw [not_and_or, Bool.not_eq_true, Bool.not_eq_false] at heffect
  exact heffect

end

section

variable (s : Ssa) (order : List Nat) (r0 : Reuse)

/-- The pass comes to the point of the block at `i` that has `k` values before it. -/
inductive PassAt : Nat → Nat → Reuse → Prop
  | first {b : Nat} : order[0]? = some b → PassAt 0 0 (beginBlock r0 none b)
  | value {i k b id : Nat} {r r' : Reuse} {stays : Bool} : PassAt i k r → order[i]? = some b →
      (s.items b)[k]? = some id → Reused r id r' stays → PassAt i (k + 1) r'
  | block {i b c : Nat} {r : Reuse} (kept : List Nat) : PassAt i (s.items b).length r → order[i]? = some b →
      order[i + 1]? = some c →
      PassAt (i + 1) 0 (beginBlock { r with ssa := r.ssa.updateBlock b ({ · with values := kept }) } (some b) c)

/-- A load of the function that the pass replaces by a value. -/
def Replaces (id value : Nat) : Prop :=
  ∃ i k b r, PassAt s order r0 i k r ∧ order[i]? = some b ∧ (s.items b)[k]? = some id ∧
    (s.value id).op = .load ∧ Source r (s.value id) value

/-- The value is before the place of the load. -/
def Anchored (id value : Nat) : Prop :=
  ∀ b k, (s.items b)[k]? = some id → s.Reached b → s.Before value b k

/-- What the pass has noted when it comes to a point. -/
structure Noted (i k : Nat) (r : Reuse) : Prop where
  epochs : ∀ slot, (r.table.getD slot {}).epoch ≤ r.epoch
  records : ∀ id, r.ssa.value id = s.value id ∨ ∃ value, (s.value id).op = .load ∧ (r.ssa.value id).op = .copy ∧
    (r.ssa.value id).a = some value ∧ Replaces s order r0 id value ∧ Anchored s id value ∧
    ∃ i' k' b, order[i']? = some b ∧ (s.items b)[k']? = some id ∧ (i' < i ∨ i' = i ∧ k' < k)
  blocks : ∀ j c, order[j]? = some c → i ≤ j → (r.ssa.block c).values = s.items c
  preds : ∀ c, (r.ssa.block c).preds = (s.block c).preds
  loads : ∀ b, order[i]? = some b → s.Reached b → ∀ slot, (r.table.getD slot {}).epoch = r.epoch →
    (s.value (r.table.getD slot {}).value).op = .load ∧
      r.ssa.value (r.table.getD slot {}).value = s.value (r.table.getD slot {}).value ∧
      s.Before (r.table.getD slot {}).value b k
  stores : ∀ b, order[i]? = some b → s.Reached b → ∀ id ∈ r.stores, (s.value id).op = .store ∧ s.Before id b k

/-- An order of blocks that begins with the entry and has each block once, and the state before the pass. -/
structure Begins : Prop where
  nodup : order.Nodup
  entry : ∀ b, order[0]? = some b → b = 0
  ssa : r0.ssa = s
  epoch : r0.epoch = 0
  table : ∀ slot, (r0.table.getD slot {}).epoch = 0

end

section

variable {s : Ssa} {order : List Nat} {r0 r r' : Reuse} {i k b id : Nat} {stays : Bool}

theorem value_lt_of_op {s : Ssa} {id : Nat} (h : (s.value id).op ≠ .const) : id < s.values.length := by
  by_contra hle
  refine h ?_
  unfold Ssa.value
  rw [getD_eq_getElem?_getD, getElem?_eq_none (Nat.le_of_not_lt hle)]
  rfl

theorem replaceLoad_value (value : Nat) (hload : (r.ssa.value id).op = .load) :
    (∀ j, j ≠ id → (replaceLoad r id value).ssa.value j = r.ssa.value j) ∧
      ((replaceLoad r id value).ssa.value id).op = .copy ∧ ((replaceLoad r id value).ssa.value id).a = some value := by
  have hid : id < r.ssa.values.length := value_lt_of_op (by rw [hload]; decide)
  obtain ⟨m, hm⟩ : ∃ m, m = ssaReplace r.ssa id (some value) := ⟨_, rfl⟩
  have hvalues : m.values = r.ssa.values.set id { r.ssa.value id with
      op := .copy, a := some value, b := none, c := none, effect := false, count := 0 } := by
    rw [hm]
    unfold ssaReplace
    dsimp only
    rw [if_neg]
    rintro ⟨-, hconst, -⟩
    rw [hload] at hconst
    cases hconst
  have hvalue : ∀ j, m.value j = if j = id then { r.ssa.value id with
      op := .copy, a := some value, b := none, c := none, effect := false, count := 0 } else r.ssa.value j := by
    intro j
    unfold Ssa.value
    rw [hvalues, getD_eq_getElem?_getD, getElem?_set]
    by_cases hj : id = j
    · rw [if_pos hj, if_pos hid, if_pos hj.symm]
      rfl
    · rw [if_neg hj, if_neg (Ne.symm hj), getD_eq_getElem?_getD]
  have hstate : (replaceLoad r id value).ssa = m.updateValue id ({ · with dead := true }) := by
    rw [hm]
    rfl
  have hidm : id < m.values.length := by
    rw [hvalues, length_set]
    exact hid
  rw [hstate]
  refine ⟨fun j hj => ?_, ?_, ?_⟩
  · rw [Ssa.updateValue_other hj, hvalue, if_neg hj]
  · rw [Ssa.updateValue_self hidm, hvalue, if_pos rfl]
  · rw [Ssa.updateValue_self hidm, hvalue, if_pos rfl]

theorem Noted.record (h : Noted s order r0 i k r) (hform : s.Formed) (hbegins : Begins s order r0)
    (hb : order[i]? = some b) (hid : (s.items b)[k]? = some id) : r.ssa.value id = s.value id := by
  rcases h.records id with hsame | ⟨-, -, -, -, -, -, i', k', c, hc, hid', hearlier⟩
  · exact hsame
  exfalso
  obtain ⟨hk, hget⟩ := List.getElem?_eq_some_iff.mp hid
  obtain ⟨hk', hget'⟩ := List.getElem?_eq_some_iff.mp hid'
  have heq := hform.placed.once b c id (hget ▸ getElem_mem hk) (hget' ▸ getElem_mem hk')
  subst heq
  obtain ⟨hi, hi'⟩ := List.getElem?_eq_some_iff.mp hb
  obtain ⟨hj, hj'⟩ := List.getElem?_eq_some_iff.mp hc
  have hindex : i = i' := (List.Nodup.getElem_inj_iff hbegins.nodup).mp (hi'.trans hj'.symm)
  have hplace : k = k' := (List.Nodup.getElem_inj_iff (hform.placed.nodup b)).mp (hget.trans hget'.symm)
  omega

/-- Looking through copies finds a value that is before the point. -/
theorem Noted.resolve (h : Noted s order r0 i k r) (hform : s.Formed) {c n : Nat} (hc : s.Reached c) :
    ∀ (fuel y value : Nat), resolveLoop r.ssa fuel y = some value → s.Before y c n → s.Before value c n := by
  intro fuel
  induction fuel with
  | zero =>
    intro y value hresolve
    cases hresolve
  | succ fuel ih =>
    intro y value hresolve hy
    unfold resolveLoop at hresolve
    split at hresolve
    · rename_i hcopy
      obtain ⟨d, hd, hdom⟩ := hy.mem
      rcases h.records y with hsame | ⟨u, -, -, ha, -, hanchored, -⟩
      · rw [hsame] at hcopy
        exact absurd hcopy (hform.copies d y hd)
      rw [ha] at hresolve
      obtain ⟨m, hm, hget⟩ := getElem_of_mem hd
      have hplace : (s.items d)[m]? = some y := List.getElem?_eq_some_iff.mpr ⟨hm, hget⟩
      exact ih u value hresolve (.trans hform.placed hc hplace hy (hanchored d m hplace (hdom.reached hc)))
    · cases hresolve
      exact hy

theorem Noted.anchored (h : Noted s order r0 i k r) (hform : s.Formed) (hb : order[i]? = some b)
    (hid : (s.items b)[k]? = some id) {value : Nat} (hsource : Source r (s.value id) value) : Anchored s id value := by
  intro c n hplace hreached
  obtain ⟨hk, hget⟩ := List.getElem?_eq_some_iff.mp hid
  obtain ⟨hn, hget'⟩ := List.getElem?_eq_some_iff.mp hplace
  have heq := hform.placed.once b c id (hget ▸ getElem_mem hk) (hget' ▸ getElem_mem hn)
  subst heq
  have hindex : k = n := (List.Nodup.getElem_inj_iff (hform.placed.nodup b)).mp (hget.trans hget'.symm)
  subst hindex
  cases hsource with
  | load slot hepoch hvalue _ =>
    rw [← hvalue]
    exact (h.loads b hb hreached slot hepoch).2.2
  | store store hmem hresolve _ =>
    obtain ⟨hop, hbefore⟩ := h.stores b hb hreached store hmem
    have hsame : r.ssa.value store = s.value store := by
      rcases h.records store with hsame | ⟨u, hload, -⟩
      · exact hsame
      · rw [hop] at hload
        cases hload
    rw [hsame] at hresolve
    obtain ⟨y, hy, hresolve⟩ := Option.bind_eq_some_iff.mp hresolve
    obtain ⟨d, hd, hdom⟩ := hbefore.mem
    obtain ⟨m, hm, hgetd⟩ := getElem_of_mem hd
    have hplace' : (s.items d)[m]? = some store := List.getElem?_eq_some_iff.mpr ⟨hm, hgetd⟩
    have hoperand := hform.operands d m store y hplace' (hdom.reached hreached) (by rw [hop]; decide)
      (mem_operands rfl (.inr (.inr hop)) (.inr (.inr hy)))
    exact h.resolve hform hreached _ y value hresolve (.trans hform.placed hreached hplace' hbefore hoperand)

theorem Noted.records_later (h : Noted s order r0 i k r) {m n : Nat} (hlater : i < m ∨ i = m ∧ k ≤ n) (j : Nat) :
    r.ssa.value j = s.value j ∨ ∃ value, (s.value j).op = .load ∧ (r.ssa.value j).op = .copy ∧
      (r.ssa.value j).a = some value ∧ Replaces s order r0 j value ∧ Anchored s j value ∧
      ∃ i' k' b, order[i']? = some b ∧ (s.items b)[k']? = some j ∧ (i' < m ∨ i' = m ∧ k' < n) := by
  rcases h.records j with hsame | ⟨value, hload, hcopy, ha, hrep, hanchored, i', k', b, hb, hj, hearlier⟩
  · exact .inl hsame
  · exact .inr ⟨value, hload, hcopy, ha, hrep, hanchored, i', k', b, hb, hj, by omega⟩

theorem table_set_getD (table : List LoadEntry) (slot m : Nat) (item : LoadEntry) :
    (table.set slot item).getD m {} = if slot = m ∧ slot < table.length then item else table.getD m {} := by
  rw [getD_eq_getElem?_getD, getElem?_set, getD_eq_getElem?_getD]
  by_cases hm : slot = m
  · subst hm
    by_cases hlt : slot < table.length
    · rw [if_pos rfl, if_pos hlt, if_pos ⟨rfl, hlt⟩]
      rfl
    · rw [if_pos rfl, if_neg hlt, if_neg fun hc => hlt hc.2, getElem?_eq_none (Nat.le_of_not_lt hlt)]
  · rw [if_neg hm, if_neg fun hc => hm hc.1]

theorem Noted.value (h : Noted s order r0 i k r) (hform : s.Formed) (hbegins : Begins s order r0)
    (hpass : PassAt s order r0 i k r) (hb : order[i]? = some b) (hid : (s.items b)[k]? = some id)
    (hreused : Reused r id r' stays) : Noted s order r0 i (k + 1) r' := by
  have hrecord := h.record hform hbegins hb hid
  have hrecords := h.records_later (m := i) (n := k + 1) (.inr ⟨rfl, Nat.le_succ k⟩)
  have hnext : ∀ {c v : Nat}, order[i]? = some c → s.Before v c k → s.Before v c (k + 1) := fun _ hv =>
    Before.mono hv (Nat.le_succ k)
  have hself : ∀ {c : Nat}, order[i]? = some c → s.Before id c (k + 1) := fun hc => by
    rw [hb] at hc
    cases hc
    exact before_succ hid
  have hne : ∀ {c v : Nat}, order[i]? = some c → s.Before v c k → v ≠ id := fun hc hv heq => by
    rw [hb] at hc
    cases hc
    rw [heq] at hv
    exact hform.placed.not_before hid hv
  cases hreused with
  | replaced value hload hsource =>
    rw [hrecord] at hsource
    obtain ⟨hother, hcopy, ha⟩ := replaceLoad_value value hload
    rw [hrecord] at hload
    refine ⟨h.epochs, fun j => ?_, h.blocks, h.preds, fun c hc hreached slot hepoch => ?_, fun c hc hreached j hj => ?_⟩
    · by_cases hj : j = id
      · subst hj
        exact .inr ⟨value, hload, hcopy, ha, ⟨i, k, b, r, hpass, hb, hid, hload, hsource⟩,
          h.anchored hform hb hid hsource, i, k, b, hb, hid, .inr ⟨rfl, Nat.lt_succ_self k⟩⟩
      · rw [hother j hj]
        exact hrecords j
    · obtain ⟨hop, hsame, hbefore⟩ := h.loads c hc hreached slot hepoch
      exact ⟨hop, (hother _ (hne hc hbefore)).trans hsame, hnext hc hbefore⟩
    · obtain ⟨hop, hbefore⟩ := h.stores c hc hreached j hj
      exact ⟨hop, hnext hc hbefore⟩
  | noted slot hload =>
    refine ⟨fun m => ?_, hrecords, h.blocks, h.preds, fun c hc hreached m hepoch => ?_, fun c hc hreached j hj => ?_⟩
    · rw [table_set_getD]
      split
      · exact le_rfl
      · exact h.epochs m
    · rw [table_set_getD] at hepoch ⊢
      split
      · rw [hrecord] at hload
        exact ⟨hload, hrecord, hself hc⟩
      rename_i hcase
      rw [if_neg hcase] at hepoch
      obtain ⟨hop, hsame, hbefore⟩ := h.loads c hc hreached m hepoch
      exact ⟨hop, hsame, hnext hc hbefore⟩
    · obtain ⟨hop, hbefore⟩ := h.stores c hc hreached j hj
      exact ⟨hop, hnext hc hbefore⟩
  | barrier stores hload hstores =>
    refine ⟨fun m => Nat.le_succ_of_le (h.epochs m), hrecords, h.blocks, h.preds, fun c hc hreached m hepoch => ?_,
      fun c hc hreached j hj => ?_⟩
    · have hle := h.epochs m
      dsimp only at hepoch
      omega
    rcases hstores with ⟨-, hnil⟩ | ⟨hstore, hjoin⟩
    · rw [hnil] at hj
      cases hj
    rw [hjoin] at hj
    rcases mem_append.mp hj with hold | hnew
    · have hmem : j ∈ r.stores := by
        split at hold
        · exact hold
        · cases hold
      obtain ⟨hop, hbefore⟩ := h.stores c hc hreached j hmem
      exact ⟨hop, hnext hc hbefore⟩
    rw [mem_singleton.mp hnew]
    rw [hrecord] at hstore
    exact ⟨hstore, hself hc⟩
  | passed hload _ =>
    refine ⟨h.epochs, hrecords, h.blocks, h.preds, fun c hc hreached m hepoch => ?_, fun c hc hreached j hj => ?_⟩
    · obtain ⟨hop, hsame, hbefore⟩ := h.loads c hc hreached m hepoch
      exact ⟨hop, hsame, hnext hc hbefore⟩
    · obtain ⟨hop, hbefore⟩ := h.stores c hc hreached j hj
      exact ⟨hop, hnext hc hbefore⟩

theorem Begins.next_ne (h : Begins s order r0) {c : Nat} (hc : order[i + 1]? = some c) : c ≠ 0 := by
  intro hzero
  obtain ⟨hi, hi'⟩ := List.getElem?_eq_some_iff.mp hc
  have hfirst := h.entry _ (getElem?_eq_getElem (show 0 < order.length by omega))
  have hindex : i + 1 = 0 := (List.Nodup.getElem_inj_iff h.nodup).mp (hi'.trans (hzero.trans hfirst.symm))
  omega

theorem Ssa.updateBlock_preds {q : Ssa} {c : Nat} {kept : List Nat} :
    ((q.updateBlock b ({ · with values := kept })).block c).preds = (q.block c).preds := by
  by_cases hc : c = b
  · subst hc
    by_cases hlt : c < q.blocks.length
    · rw [Ssa.updateBlock_self hlt]
    · rw [Ssa.updateBlock_outside hlt]
  · rw [Ssa.updateBlock_other hc]

theorem Noted.block (h : Noted s order r0 i (s.items b).length r) (hbegins : Begins s order r0) {c : Nat}
    (kept : List Nat) (hb : order[i]? = some b) (hc : order[i + 1]? = some c) :
    Noted s order r0 (i + 1) 0
      (beginBlock { r with ssa := r.ssa.updateBlock b ({ · with values := kept }) } (some b) c) := by
  obtain ⟨q, hq⟩ : ∃ q, q = r.ssa.updateBlock b ({ · with values := kept }) := ⟨_, rfl⟩
  have hvalue : ∀ j, q.value j = r.ssa.value j := fun j => by
    rw [hq]
    rfl
  have hpreds : ∀ d, (q.block d).preds = (s.block d).preds := fun d => by
    rw [← h.preds d, hq, Ssa.updateBlock_preds]
  have hblocks : ∀ j d, order[j]? = some d → i + 1 ≤ j → (q.block d).values = s.items d := fun j d hd hle => by
    have hne : d ≠ b := by
      rintro rfl
      obtain ⟨hj, hj'⟩ := List.getElem?_eq_some_iff.mp hd
      obtain ⟨hi, hi'⟩ := List.getElem?_eq_some_iff.mp hb
      have hindex : j = i := (List.Nodup.getElem_inj_iff hbegins.nodup).mp (hj'.trans hi'.symm)
      omega
    rw [hq, Ssa.updateBlock_other hne]
    exact h.blocks j d hd (by omega)
  have hrecords := h.records_later (m := i + 1) (n := 0) (.inl (Nat.lt_succ_self i))
  rw [← hq]
  unfold beginBlock
  split
  · rename_i hcontinues
    have hsingle : (s.block c).preds = [b] := by
      rw [← hpreds c]
      have hall := of_decide_eq_true hcontinues
      exact hall.1
    have hentry : c ≠ 0 := hbegins.next_ne hc
    have hedge : ∀ u, s.Edge u c → u = b := fun u hu => by
      unfold Ssa.Edge at hu
      rw [hsingle] at hu
      exact mem_singleton.mp hu
    have hreach : s.Reached c → s.Reached b := fun hreached => by
      obtain ⟨u, hu, he⟩ := Reached.pred hreached hentry
      rw [hedge u he] at hu
      exact hu
    refine ⟨h.epochs, fun j => ?_, hblocks, hpreds, fun d hd hreached m hepoch => ?_, fun d hd hreached j hj => ?_⟩
    · rw [hvalue]
      exact hrecords j
    · rw [hc] at hd
      cases hd
      obtain ⟨hop, hsame, hbefore⟩ := h.loads b hb (hreach hreached) m hepoch
      exact ⟨hop, (hvalue _).trans hsame, hbefore.single hreached hentry hedge⟩
    rw [hc] at hd
    cases hd
    obtain ⟨hop, hbefore⟩ := h.stores b hb (hreach hreached) j hj
    exact ⟨hop, hbefore.single hreached hentry hedge⟩
  · refine ⟨fun m => Nat.le_succ_of_le (h.epochs m), fun j => ?_, hblocks, hpreds, fun d hd _ m hepoch => ?_,
      fun d hd _ j hj => absurd hj not_mem_nil⟩
    · rw [hvalue]
      exact hrecords j
    have hle := h.epochs m
    dsimp only at hepoch
    omega

theorem PassAt.noted (hform : s.Formed) (hbegins : Begins s order r0) (h : PassAt s order r0 i k r) :
    Noted s order r0 i k r := by
  induction h with
  | first hb =>
    have hsame : ∀ j, r0.ssa.value j = s.value j := fun j => by
      rw [hbegins.ssa]
    have hstart : ∀ b, beginBlock r0 none b = { r0 with epoch := r0.epoch + 1, stores := [] } := fun b => rfl
    rw [hstart]
    refine ⟨fun m => ?_, fun j => .inl (hsame j), fun j c _ _ => ?_, fun c => ?_, fun c _ _ m hepoch => ?_,
      fun c _ _ j hj => absurd hj not_mem_nil⟩
    · rw [hbegins.table m]
      exact Nat.zero_le _
    · rw [hbegins.ssa]
      rfl
    · rw [hbegins.ssa]
    have hzero := hbegins.table m
    dsimp only at hepoch
    omega
  | value hpass hb hid hreused ih => exact ih.value hform hbegins hpass hb hid hreused
  | block kept _ hb hc ih => exact ih.block hbegins kept hb hc

theorem reuseValues_pass (hb : order[i]? = some b) : ∀ (ids : List Nat) {k : Nat} {r r' : Reuse} {kept : List Nat},
    (s.items b).drop k = ids → k ≤ (s.items b).length → PassAt s order r0 i k r →
    reuseValues ids r = some (r', kept) → PassAt s order r0 i (s.items b).length r' := by
  intro ids
  induction ids with
  | nil =>
    intro k r r' kept hdrop hk hpass h
    cases h
    have hend : k = (s.items b).length := by
      have hle := drop_eq_nil_iff.mp hdrop
      omega
    rw [← hend]
    exact hpass
  | cons id ids ih =>
    intro k r r' kept hdrop hk hpass h
    obtain ⟨⟨r1, stays⟩, hvalue, h⟩ := Option.bind_eq_some_iff.mp h
    obtain ⟨⟨r2, kept'⟩, hrest, h⟩ := Option.bind_eq_some_iff.mp h
    cases h
    have hlt : k < (s.items b).length := by
      by_contra hle
      rw [drop_eq_nil_of_le (Nat.le_of_not_lt hle)] at hdrop
      cases hdrop
    rw [drop_eq_getElem_cons hlt] at hdrop
    injection hdrop with hid hdrop
    exact ih hdrop hlt (.value hpass hb (List.getElem?_eq_some_iff.mpr ⟨hlt, hid⟩) (reuseValue_spec hvalue)) hrest

theorem reuseBlocks_pass (hform : s.Formed) (hbegins : Begins s order r0) : ∀ (rest : List Nat) {i : Nat} {b : Nat}
    {r r' : Reuse} (kept : List Nat), order[i]? = some b → order.drop (i + 1) = rest →
    PassAt s order r0 i (s.items b).length r →
    reuseBlocks (some b) rest { r with ssa := r.ssa.updateBlock b ({ · with values := kept }) } = some r' →
    ∃ i' k' r1, PassAt s order r0 i' k' r1 ∧ ∀ id, r'.ssa.value id = r1.ssa.value id := by
  intro rest
  induction rest with
  | nil =>
    intro i b r r' kept hb _ hpass h
    cases h
    exact ⟨i, _, r, hpass, fun _ => rfl⟩
  | cons c rest ih =>
    intro i b r r' kept hb hdrop hpass h
    obtain ⟨⟨r1, kept'⟩, hvalues, h⟩ := Option.bind_eq_some_iff.mp h
    have hlt : i + 1 < order.length := by
      by_contra hle
      rw [drop_eq_nil_of_le (Nat.le_of_not_lt hle)] at hdrop
      cases hdrop
    rw [drop_eq_getElem_cons hlt] at hdrop
    injection hdrop with hc hdrop
    have hc' : order[i + 1]? = some c := List.getElem?_eq_some_iff.mpr ⟨hlt, hc⟩
    have hnext := PassAt.block kept hpass hb hc'
    have hitems := (hnext.noted hform hbegins).blocks (i + 1) c hc' le_rfl
    exact ih kept' hc' hdrop (reuseValues_pass hc' _ (by rw [drop_zero]; exact hitems.symm) (Nat.zero_le _) hnext
      hvalues) h

theorem ssaReuseLoads_replaces (hform : s.Formed) (hnodup : order.Nodup) (hentry : ∀ b, order[0]? = some b → b = 0)
    {s' : Ssa} (h : ssaReuseLoads s order = some s') :
    ∃ r0, Begins s order r0 ∧ ∀ id, s'.value id = s.value id ∨ ∃ value, (s.value id).op = .load ∧
      (s'.value id).op = .copy ∧ (s'.value id).a = some value ∧ Replaces s order r0 id value := by
  obtain ⟨r, hblocks, h⟩ := Option.bind_eq_some_iff.mp h
  cases h
  obtain ⟨r0, hr0⟩ : ∃ r0, r0 = (⟨s, replicate (tableCapacity
    (order.foldl (fun largest b => max largest (s.block b).values.length) 0) 31 64) {}, 0, []⟩ : Reuse) := ⟨_, rfl⟩
  have htable : ∀ (n m : Nat), ((replicate n ({} : LoadEntry)).getD m {}).epoch = 0 := fun n m => by
    rw [getD_eq_getElem?_getD, getElem?_replicate]
    split <;> rfl
  have hbegins : Begins s order r0 := by
    rw [hr0]
    exact ⟨hnodup, hentry, rfl, rfl, htable _⟩
  rw [← hr0] at hblocks
  refine ⟨r0, hbegins, ?_⟩
  cases hcase : order with
  | nil =>
    rw [hcase] at hblocks
    cases hblocks
    intro id
    rw [hr0]
    exact .inl rfl
  | cons b rest =>
    rw [hcase] at hblocks
    obtain ⟨⟨r1, kept⟩, hvalues, hrest⟩ := Option.bind_eq_some_iff.mp hblocks
    have hb : order[0]? = some b := by
      rw [hcase]
      rfl
    have hfirst : PassAt s order r0 0 0 (beginBlock r0 none b) := .first hb
    have hitems := (hfirst.noted hform hbegins).blocks 0 b hb (Nat.le_refl 0)
    have hend := reuseValues_pass hb _ (by rw [drop_zero]; exact hitems.symm) (Nat.zero_le _) hfirst hvalues
    obtain ⟨i, k, r2, hpass, hsame⟩ := reuseBlocks_pass hform hbegins rest kept hb
      (by rw [hcase, Nat.zero_add, drop_succ_cons, drop_zero]) hend hrest
    intro id
    rw [hsame id, ← hcase]
    rcases (hpass.noted hform hbegins).records id with heq | ⟨value, hload, hcopy, ha, hrep, -⟩
    · exact .inl heq
    · exact .inr ⟨value, hload, hcopy, ha, hrep⟩

end

end Dyn.Backend
