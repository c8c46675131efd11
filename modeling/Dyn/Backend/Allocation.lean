import Dyn.Backend.Allocate
import Dyn.Backend.IntervalRuns

/-!
# The linear scan is valid

While the values are scanned, the active ones hold their registers and all others that have one are
over (`Scanning`).  So values with a common register have intervals apart, no register is clobbered
inside of an interval of a value that it holds, and values without registers have slots of their own.

An interval covers the points where its value is live if no value has more operands than the passes
have room for (`allocation_valid`).
-/

namespace Dyn.Backend

open List

variable {ctx : BackendContext}

theorem allocatable_lt {reg : Nat} (h : ssaAllocatable ctx reg = true) : reg < 64 := by
  unfold ssaAllocatable at h
  split_ifs at h with hfloat
  · have hmem : reg ∈ ssaFpOrder ctx := by simpa using h
    have hall : ∀ r ∈ ssaFpOrder ctx, r < 64 := by
      unfold ssaFpOrder
      split_ifs <;> decide
    exact hall reg hmem
  · unfold xXmm0 at hfloat
    omega

theorem order_lt (ctx : BackendContext) (floating : Bool) :
    ∀ reg ∈ (if floating then ssaFpOrder ctx else ssaGpOrder ctx), reg < 64 := by
  cases floating with
  | true =>
    rw [if_pos rfl]
    unfold ssaFpOrder
    split_ifs <;> decide
  | false =>
    rw [if_neg Bool.false_ne_true]
    unfold ssaGpOrder
    split_ifs <;> decide

variable {a : SsaAlloc}

variable {id : Nat} (n : Nat) {operands : Nat → List Nat}

theorem not_clobbered (hsorted : a.clobbers.Pairwise fun c d => c.position < d.position)
    {reg start stop : Nat} (h : ssaClobbered a reg start stop id = false) {c : SsaClobber}
    (hc : c ∈ a.clobbers) (hreg : c.mask.getLsbD reg = true) (hstart : start < c.position)
    (hstop : c.position < stop) :
    (a.s.block c.block).kind = .exit ∧ ssaUsedFrom a c.block c.position id = false := by
  have hbelow : a.clobbers.Pairwise fun c d => decide (d.position ≤ start) = true →
      decide (c.position ≤ start) = true := by
    refine hsorted.imp fun {c d} hlt hd => ?_
    rw [decide_eq_true_eq] at hd ⊢
    exact hlt.le.trans hd
  have hlow := Lib.lowerBound_eq_findIdx hbelow
  unfold ssaClobbered at h
  rw [any_eq_false] at h
  have hmem : c ∈ (a.clobbers.drop (Lib.lowerBound (fun c : SsaClobber => decide (c.position ≤ start))
      a.clobbers)).takeWhile fun c => decide (c.position < stop) := by
    rw [hlow, ← dropWhile_eq_drop_findIdx_not]
    exact Lib.mem_window hsorted hc hstart hstop
  have hno := h c hmem
  rw [hreg, Bool.true_and, Bool.not_eq_true', Bool.not_eq_false, Bool.and_eq_true] at hno
  exact ⟨by simpa using hno.1, by simpa using hno.2⟩

section Scan

variable {ctx : BackendContext} {a : SsaAlloc}

/-- An interval is over where another value starts. -/
def Over (a : SsaAlloc) (x y : Nat) : Prop := expired (a.s.value x) (a.s.value y) = true

theorem over_iff {x y : Nat} : Over a x y ↔ (a.s.value x).stop < (a.s.value y).start ∨
    ((a.s.value x).stop = (a.s.value y).start ∧ (a.s.value y).op ≠ .phi) := by
  unfold Over expired
  simp

/-- **The invariant of the scan,** with values that are done and values that come later.  An active value
holds its register; every other one that has a register is over where the later ones start. -/
structure Scanning (a : SsaAlloc) (done rest : List Nat) (st : Scan) : Prop where
  regs : st.regs.length = a.s.values.length
  owner : st.owner.length = 64
  nodup : st.active.Nodup
  active : ∀ id ∈ st.active, id ∈ done ∧ ∃ reg, st.reg id = some reg ∧ st.owner.getD reg none = some id
  idle : ∀ id ∈ done, id ∉ st.active → st.reg id ≠ none → ∀ v ∈ rest, Over a id v
  apart : ∀ x ∈ done, ∀ y ∈ done, x ≠ y → ∀ reg, st.reg x = some reg → st.reg y = some reg →
    Over a x y ∨ Over a y x
  clear : ∀ x ∈ done, ∀ reg, st.reg x = some reg → reg < 64 ∧
    ssaClobbered a reg (a.s.value x).start (a.s.value x).stop x = false
  unset : ∀ id, id ∉ done → st.reg id = none

def Unheld (st : Scan) (reg : Nat) : Prop := ∀ id ∈ st.active, st.reg id ≠ some reg

theorem getD_set {α : Type} (xs : List α) {i : Nat} (hi : i < xs.length) (j : Nat) (x d : α) :
    (xs.set i x).getD j d = if j = i then x else xs.getD j d := by
  rw [getD_eq_getElem?_getD, getElem?_set, getD_eq_getElem?_getD]
  by_cases h : i = j
  · subst h
    rw [if_pos rfl, if_pos hi, if_pos rfl]
    rfl
  · rw [if_neg h, if_neg fun hc => h hc.symm]

variable {done rest : List Nat} {st : Scan}

variable {reg id : Nat} (weight : List Nat)

theorem Scanning.unheld (h : Scanning a done rest st) (hfree : st.free reg = true) :
    Unheld st reg := by
  intro id hid hreg
  obtain ⟨-, reg', hreg', howner⟩ := h.active id hid
  rw [hreg] at hreg'
  cases hreg'
  unfold Scan.free at hfree
  rw [howner] at hfree
  cases hfree

theorem Scanning.take (h : Scanning a done (id :: rest) st) (hid : id < a.s.values.length)
    (hnew : id ∉ done) (hlt : reg < 64) (hunheld : Unheld st reg)
    (hclear : ssaClobbered a reg (a.s.value id).start (a.s.value id).stop id = false) :
    Scanning a (done ++ [id]) rest (st.take id reg) := by
  have hreg : ∀ x, (st.take id reg).reg x = if x = id then some reg else st.reg x := fun x =>
    getD_set st.regs (by rw [h.regs]; exact hid) x (some reg) none
  have howner : ∀ r, (st.take id reg).owner.getD r none = if r = reg then some id else st.owner.getD r none :=
    fun r => getD_set st.owner (by rw [h.owner]; exact hlt) r (some id) none
  have hne : ∀ x ∈ done, x ≠ id := fun x hx hc => hnew (hc ▸ hx)
  have hinactive : id ∉ st.active := fun hc => hnew (h.active id hc).1
  have hmem : ∀ x, x ∈ done ++ [id] → x ∈ done ∨ x = id := fun x hx =>
    (mem_append.mp hx).imp_right mem_singleton.mp
  -- Every value that is done and has the register is over.
  have hover : ∀ x ∈ done, st.reg x = some reg → Over a x id := by
    intro x hx hxreg
    have hout : x ∉ st.active := fun hc => hunheld x hc hxreg
    exact h.idle x hx hout (by rw [hxreg]; exact Option.some_ne_none _) id mem_cons_self
  refine ⟨(length_set ..).trans h.regs, (length_set ..).trans h.owner, ?_, fun x hx => ?_,
    fun x hx hout hsome v hv => ?_, fun x hx y hy hxy r hxr hyr => ?_, fun x hx r hxr => ?_, fun x hx => ?_⟩
  · refine nodup_append.mpr ⟨h.nodup, nodup_singleton id, fun x hx y hy hc => ?_⟩
    rw [mem_singleton.mp hy] at hc
    exact hinactive (hc ▸ hx)
  · rcases mem_append.mp hx with hactive | hx
    · obtain ⟨hdone, r, hr, ho⟩ := h.active x hactive
      have hrne : r ≠ reg := by
        rintro rfl
        exact hunheld x hactive hr
      refine ⟨mem_append_left _ hdone, r, ?_, ?_⟩
      · rw [hreg, if_neg (hne x hdone), hr]
      · rw [howner, if_neg hrne, ho]
    · rw [mem_singleton.mp hx]
      exact ⟨mem_append_right _ (mem_singleton_self id), reg, by rw [hreg, if_pos rfl],
        by rw [howner, if_pos rfl]⟩
  · have hxid : x ≠ id := fun hc => hout (mem_append_right _ (mem_singleton.mpr hc))
    have hx := (hmem x hx).resolve_right hxid
    rw [hreg, if_neg hxid] at hsome
    exact h.idle x hx (fun hc => hout (mem_append_left _ hc)) hsome v (mem_cons_of_mem id hv)
  · rw [hreg] at hxr hyr
    by_cases hxid : x = id
    · subst hxid
      rw [if_pos rfl] at hxr
      cases hxr
      rw [if_neg hxy.symm] at hyr
      exact .inr (hover y ((hmem y hy).resolve_right hxy.symm) hyr)
    rw [if_neg hxid] at hxr
    have hxdone := (hmem x hx).resolve_right hxid
    by_cases hyid : y = id
    · subst hyid
      rw [if_pos rfl] at hyr
      cases hyr
      exact .inl (hover x hxdone hxr)
    · rw [if_neg hyid] at hyr
      exact h.apart x hxdone y ((hmem y hy).resolve_right hyid) hxy r hxr hyr
  · rw [hreg] at hxr
    by_cases hxid : x = id
    · subst hxid
      rw [if_pos rfl] at hxr
      cases hxr
      exact ⟨hlt, hclear⟩
    · rw [if_neg hxid] at hxr
      exact h.clear x ((hmem x hx).resolve_right hxid) r hxr
  · rw [mem_append, mem_singleton, not_or] at hx
    rw [hreg, if_neg hx.2]
    exact h.unset x hx.1

theorem Scanning.skip {done rest : List Nat} {st : Scan} {id : Nat} (h : Scanning a done (id :: rest) st)
    (hnew : id ∉ done) : Scanning a (done ++ [id]) rest st := by
  have hnone := h.unset id hnew
  have hmem : ∀ x reg, x ∈ done ++ [id] → st.reg x = some reg → x ∈ done := by
    intro x reg hx hreg
    rcases mem_append.mp hx with hx | hx
    · exact hx
    · rw [mem_singleton.mp hx, hnone] at hreg
      cases hreg
  refine ⟨h.regs, h.owner, h.nodup, fun x hx => ?_, fun x hx hout hsome v hv => ?_,
    fun x hx y hy hxy r hxr hyr => ?_, fun x hx r hxr => h.clear x (hmem x r hx hxr) r hxr, fun x hx => ?_⟩
  · exact (h.active x hx).imp_left fun hdone => mem_append_left _ hdone
  · obtain ⟨reg, hreg⟩ := Option.ne_none_iff_exists'.mp hsome
    exact h.idle x (hmem x reg hx hreg) hout hsome v (mem_cons_of_mem id hv)
  · exact h.apart x (hmem x r hx hxr) y (hmem y r hy hyr) hxy r hxr hyr
  · exact h.unset x fun hc => hx (mem_append_left _ hc)

theorem dropActive_perm {active : List Nat} {j : Nat} (h : active[j]? = some id) :
    active.Perm (id :: dropActive active j) := by
  unfold dropActive
  cases hlast : active.getLast? with
  | none =>
    rw [getLast?_eq_none_iff.mp hlast] at h
    cases h
  | some last => exact Lib.removal_perm h hlast

theorem Scanning.evict (h : Scanning a done rest st) {j other : Nat}
    (hj : st.active[j]? = some other) (hreg : st.reg other = some reg) :
    Scanning a done rest (st.evict j other) ∧ Unheld (st.evict j other) reg := by
  have hperm := dropActive_perm hj
  have hmem : other ∈ st.active := mem_of_getElem? hj
  obtain ⟨-, reg', hreg', howner⟩ := h.active other hmem
  rw [hreg] at hreg'
  cases hreg'
  have hlt : other < st.regs.length := by
    by_contra hc
    unfold Scan.reg at hreg
    rw [getD_eq_default _ _ (Nat.not_lt.mp hc)] at hreg
    cases hreg
  have hregs : ∀ x, (st.evict j other).reg x = if x = other then none else st.reg x := fun x =>
    getD_set st.regs hlt x none none
  have hnodup := hperm.nodup_iff.mp h.nodup
  have hout : other ∉ dropActive st.active j := (nodup_cons.mp hnodup).1
  have hkeep : ∀ x, x ∈ dropActive st.active j → x ∈ st.active ∧ x ≠ other := fun x hx =>
    ⟨hperm.mem_iff.mpr (mem_cons_of_mem other hx), fun hc => hout (hc ▸ hx)⟩
  have hsome : ∀ {x r}, (st.evict j other).reg x = some r → x ≠ other ∧ st.reg x = some r := by
    intro x r hx
    rw [hregs] at hx
    split_ifs at hx with hc
    exact ⟨hc, hx⟩
  refine ⟨⟨(length_set ..).trans h.regs, h.owner, (nodup_cons.mp hnodup).2, fun x hx => ?_,
    fun x hx hidle hx' v hv => ?_, fun x hx y hy hxy r hxr hyr => ?_, fun x hx r hxr => ?_, fun x hx => ?_⟩,
    fun x hx hc => ?_⟩
  · obtain ⟨hactive, hne⟩ := hkeep x hx
    obtain ⟨hxdone, r, hr, ho⟩ := h.active x hactive
    exact ⟨hxdone, r, by rw [hregs, if_neg hne, hr], ho⟩
  · obtain ⟨r, hr⟩ := Option.ne_none_iff_exists'.mp hx'
    obtain ⟨hne, hr⟩ := hsome hr
    refine h.idle x hx (fun hc => ?_) (by rw [hr]; exact Option.some_ne_none r) v hv
    exact hidle ((mem_cons.mp (hperm.mem_iff.mp hc)).resolve_left hne)
  · exact h.apart x hx y hy hxy r (hsome hxr).2 (hsome hyr).2
  · exact h.clear x hx r (hsome hxr).2
  · rw [hregs]
    split_ifs
    · rfl
    · exact h.unset x hx
  · obtain ⟨hactive, hne⟩ := hkeep x hx
    obtain ⟨-, r, hr, ho⟩ := h.active x hactive
    rw [(hsome hc).2] at hr
    cases hr
    rw [howner] at ho
    exact hne (Option.some.inj ho).symm

theorem foldl_release (st : Scan) : ∀ (ids : List Nat) (owner : List (Option Nat)),
    (ids.foldl (fun owner id =>
      match st.reg id with
      | some reg => owner.set reg none
      | none => owner) owner).length = owner.length ∧
    ∀ reg, (∀ id ∈ ids, st.reg id ≠ some reg) → (ids.foldl (fun owner id =>
      match st.reg id with
      | some reg => owner.set reg none
      | none => owner) owner).getD reg none = owner.getD reg none
  | [], _ => ⟨rfl, fun _ _ => rfl⟩
  | id :: ids, owner => by
    rw [foldl_cons]
    cases hreg : st.reg id with
    | none =>
      obtain ⟨hlength, hget⟩ := foldl_release st ids owner
      exact ⟨hlength, fun reg h => hget reg fun x hx => h x (mem_cons_of_mem id hx)⟩
    | some r =>
      obtain ⟨hlength, hget⟩ := foldl_release st ids (owner.set r none)
      refine ⟨hlength.trans (length_set ..), fun reg h => ?_⟩
      rw [hget reg fun x hx => h x (mem_cons_of_mem id hx)]
      have hne : r ≠ reg := fun hc => h id mem_cons_self (hc ▸ hreg)
      rw [getD_eq_getElem?_getD, getElem?_set_ne hne, getD_eq_getElem?_getD]

/-- The order of the scan: values start one after another, and where two start together both are phis or
neither is. -/
def Ordered (a : SsaAlloc) (ids : List Nat) : Prop :=
  ids.Pairwise fun x y => (a.s.value x).start < (a.s.value y).start ∨
    ((a.s.value x).start = (a.s.value y).start ∧ ((a.s.value x).op = .phi ↔ (a.s.value y).op = .phi))

/-- Intervals that are over at a start are over at the later ones. -/
theorem Over.later {x v w : Nat} (h : Over a x v) (hvw : (a.s.value v).start < (a.s.value w).start ∨
    ((a.s.value v).start = (a.s.value w).start ∧ ((a.s.value v).op = .phi ↔ (a.s.value w).op = .phi))) :
    Over a x w := by
  rw [over_iff] at h ⊢
  rcases h with h | ⟨h, hop⟩
  · exact .inl (by omega)
  rcases hvw with hvw | ⟨hvw, hphi⟩
  · exact .inl (by omega)
  · exact .inr ⟨h.trans hvw, fun hc => hop (hphi.mpr hc)⟩

theorem Scanning.expire (h : Scanning a done (id :: rest) st) (hordered : Ordered a (id :: rest)) :
    Scanning a done (id :: rest) (expire a st (a.s.value id)) := by
  have hlater := (pairwise_cons.mp hordered).1
  obtain ⟨hlength, hget⟩ := foldl_release st (st.active.filter fun x => expired (a.s.value x) (a.s.value id)) st.owner
  have hkept : ∀ x, x ∈ (Backend.expire a st (a.s.value id)).active ↔ x ∈ st.active ∧ ¬ Over a x id := fun x => by
    refine mem_filter.trans (and_congr_right fun _ => ?_)
    unfold Over
    simp
  refine ⟨h.regs, hlength.trans h.owner, h.nodup.filter _, fun x hx => ?_, fun x hx hout hreg v hv => ?_,
    h.apart, h.clear, h.unset⟩
  · obtain ⟨hactive, hnot⟩ := (hkept x).mp hx
    obtain ⟨hdone, reg, hreg, howner⟩ := h.active x hactive
    refine ⟨hdone, reg, hreg, (hget reg fun y hy hc => ?_).trans howner⟩
    -- An active value with the same register would be its owner as well.
    obtain ⟨hyactive, hyover⟩ := mem_filter.mp hy
    obtain ⟨-, reg', hreg', howner'⟩ := h.active y hyactive
    rw [hc] at hreg'
    cases hreg'
    rw [howner] at howner'
    cases howner'
    exact hnot hyover
  by_cases hactive : x ∈ st.active
  · have hover : Over a x id := by
      by_contra hc
      exact hout ((hkept x).mpr ⟨hactive, hc⟩)
    rcases mem_cons.mp hv with rfl | hv
    · exact hover
    · exact hover.later (hlater v hv)
  · exact h.idle x hx hactive hreg v hv

theorem candidate_spec {hint : SsaHint} (h : candidate ctx a hint st id = some reg) :
    reg < 64 ∧ st.free reg = true ∧
      ssaClobbered a reg (a.s.value id).start (a.s.value id).stop id = false := by
  unfold candidate at h
  dsimp only at h
  split at h
  · rename_i want hwant
    cases h
    obtain ⟨-, htest⟩ := Option.filter_eq_some_iff.mp hwant
    simp only [Bool.and_eq_true, Bool.not_eq_true'] at htest
    exact ⟨allocatable_lt htest.1.1, htest.2.1, htest.2.2⟩
  have htest := find?_some h
  simp only [Bool.and_eq_true, Bool.not_eq_true'] at htest
  exact ⟨order_lt ctx _ reg (mem_of_find?_eq_some h), htest.1, htest.2⟩

/-- A victim is an active value whose register is not clobbered inside of the interval. -/
def Yields (a : SsaAlloc) (st : Scan) (id : Nat) (victim : Victim) : Prop :=
  ∀ j other, victim = some (j, other) → st.active[j]? = some other ∧ ∃ reg, st.reg other = some reg ∧
    ssaClobbered a reg (a.s.value id).start (a.s.value id).stop id = false

theorem victims_yield (st : Scan) (id : Nat) :
    Yields a st id (victims a weight st id).1 ∧ Yields a st id (victims a weight st id).2 := by
  unfold victims
  dsimp only
  refine foldlRecOn (motive := fun found : Victim × Victim => Yields a st id found.1 ∧ Yields a st id found.2)
    st.active.zipIdx _ ?_ fun found hfound pair hmem => ?_
  · exact ⟨fun _ _ hc => (by cases hc), fun _ _ hc => (by cases hc)⟩
  obtain ⟨other, j⟩ := pair
  split
  · exact hfound
  rename_i reg hreg
  split_ifs with hskip hweight
  · exact hfound
  · exact hfound
  all_goals
    have hyields : Yields a st id (some (j, other)) := by
      intro j' other' heq
      cases heq
      rw [not_or, Bool.not_eq_true] at hskip
      exact ⟨mem_zipIdx_iff_getElem?.mp hmem, reg, hreg, hskip.2⟩
    first
      | exact ⟨hyields, hyields⟩
      | exact ⟨hyields, hfound.2⟩
      | exact ⟨hfound.1, hyields⟩
      | exact hfound

theorem chooseVictim_yields (st : Scan) (id : Nat) :
    Yields a st id (chooseVictim a weight st id) := by
  obtain ⟨hvictim, hhot⟩ := victims_yield (a := a) weight st id
  unfold chooseVictim
  dsimp only
  intro j other h
  split at h
  · rename_i j' other' hchosen
    split_ifs at h
    cases h
    split_ifs at hchosen
    · exact hhot j other hchosen
    · exact hvictim j other hchosen
  · cases h

theorem Scanning.scan {hints : Nat → SsaHint} {weight : List Nat}
    (h : Scanning a done (id :: rest) st) (hordered : Ordered a (id :: rest))
    (hid : id < a.s.values.length) (hnew : id ∉ done) :
    Scanning a (done ++ [id]) rest (scanValue ctx hints a weight st id) := by
  have hexpired := h.expire hordered
  unfold scanValue
  dsimp only
  split
  · rename_i reg hcandidate
    obtain ⟨hlt, hfree, hclear⟩ := candidate_spec hcandidate
    exact hexpired.take hid hnew hlt (hexpired.unheld hfree) hclear
  split
  · rename_i j other hchosen
    obtain ⟨hj, reg, hreg, hclear⟩ := chooseVictim_yields weight _ id j other hchosen
    rw [hreg]
    obtain ⟨hevicted, hunheld⟩ := hexpired.evict hj hreg
    have hlt := (hexpired.clear other (hexpired.active other (mem_of_getElem? hj)).1 reg hreg).1
    exact hevicted.take hid hnew hlt hunheld hclear
  · exact hexpired.skip hnew

theorem Scanning.scanAll (hints : Nat → SsaHint) (weight : List Nat) : ∀ (rest : List Nat) {done : List Nat}
    {st : Scan}, Scanning a done rest st → Ordered a rest → (∀ id ∈ rest, id < a.s.values.length) →
    (∀ id ∈ rest, id ∉ done) → rest.Nodup →
    Scanning a (done ++ rest) [] (rest.foldl (scanValue ctx hints a weight) st)
  | [], done, st, h, _, _, _, _ => by rwa [append_nil]
  | id :: rest, done, st, h, hordered, hlt, hnew, hnodup => by
    obtain ⟨hid, hnodup⟩ := nodup_cons.mp hnodup
    have hstep : Scanning a (done ++ [id]) rest (scanValue ctx hints a weight st id) :=
      h.scan hordered (hlt id mem_cons_self) (hnew id mem_cons_self)
    have hrun := Scanning.scanAll hints weight rest hstep (pairwise_cons.mp hordered).2
      (fun x hx => hlt x (mem_cons_of_mem id hx))
      (fun x hx hc => (mem_append.mp hc).elim (hnew x (mem_cons_of_mem id hx))
        fun hc => hid (mem_singleton.mp hc ▸ hx)) hnodup
    rwa [append_assoc, singleton_append] at hrun

end Scan

/-- Two allocations with the same intervals. -/
structure SameIntervals (a a' : SsaAlloc) : Prop extends SameStarts a a' where
  stop : ∀ id, (a'.s.value id).stop = (a.s.value id).stop

theorem SameIntervals.refl (a : SsaAlloc) : SameIntervals a a := ⟨.refl a, fun _ => rfl⟩

theorem SameIntervals.trans {a' a'' : SsaAlloc} (h : SameIntervals a a') (h' : SameIntervals a' a'') :
    SameIntervals a a'' :=
  ⟨h.toSameStarts.trans h'.toSameStarts, fun id => (h'.stop id).trans (h.stop id)⟩

theorem SameIntervals.modify {a a' : SsaAlloc} (hid : id < a.s.values.length)
    {f : SsaValue → SsaValue} (hs : a'.s = a.s.modify id f)
    (hf : ∀ v, ((f v).bare = v.bare ∧ ((f v).retainConstant = true → v.retainConstant = true)) ∧
      (f v).start = v.start ∧ (f v).stop = v.stop) (horder : a'.order = a.order)
    (hstart : a'.blockStart = a.blockStart) (hend : a'.blockEnd = a.blockEnd)
    (hclobbers : a'.clobbers = a.clobbers) : SameIntervals a a' := by
  refine ⟨⟨hs ▸ .modify a.s hid fun v => (hf v).1, fun j => ?_, horder, hstart, hend, hclobbers⟩, fun j => ?_⟩
  · rw [hs, value_modify a.s hid]
    split_ifs
    · exact (hf _).2.1
    · rfl
  rw [hs, value_modify a.s hid]
  split_ifs
  · exact (hf _).2.2
  · rfl

theorem foldl_reset : ∀ (ids : List Nat) (a : SsaAlloc), (∀ id ∈ ids, id < a.s.values.length) → ids.Nodup →
    let s := ids.foldl (fun s id => s.modify id fun v => { v with reg := none, slot := none }) a.s
    SameIntervals a { a with s := s } ∧ (∀ id ∉ ids, s.value id = a.s.value id) ∧
      ∀ id ∈ ids, s.value id = { a.s.value id with reg := none, slot := none }
  | [], a, _, _ => ⟨.refl a, fun _ _ => rfl, forall_mem_nil _⟩
  | id :: ids, a, hlt, hnodup => by
    obtain ⟨hid, hnodup⟩ := nodup_cons.mp hnodup
    have hidlt := hlt id mem_cons_self
    generalize ha1 : { a with s := a.s.modify id fun v => { v with reg := none, slot := none } } = a1
    have hone : SameIntervals a a1 := by
      rw [← ha1]
      exact .modify hidlt rfl (fun v => ⟨⟨rfl, fun h => h⟩, rfl, rfl⟩) rfl rfl rfl rfl
    have hs : a1.s = a.s.modify id fun v => { v with reg := none, slot := none } := by rw [← ha1]
    obtain ⟨hsame, hframe, hreset⟩ := foldl_reset ids a1
      (fun x hx => by rw [hone.same.length]; exact hlt x (mem_cons_of_mem id hx)) hnodup
    have hvalue : ∀ x, a1.s.value x =
        if x = id then { a.s.value x with reg := none, slot := none } else a.s.value x := fun x => by
      rw [hs, value_modify a.s hidlt]
    rw [foldl_cons, ← hs]
    refine ⟨?_, fun x hx => ?_, fun x hx => ?_⟩
    · have hnext : { a with s := ids.foldl (fun s id => s.modify id fun v => { v with reg := none, slot := none }) a1.s } =
          { a1 with s := ids.foldl (fun s id => s.modify id fun v => { v with reg := none, slot := none }) a1.s } := by
        rw [← ha1]
      rw [hnext]
      exact hone.trans hsame
    · rw [mem_cons, not_or] at hx
      rw [hframe x hx.2, hvalue, if_neg hx.1]
    · by_cases hxid : x = id
      · rw [hxid, hframe id hid, hvalue, if_pos rfl]
      · rw [hreset x ((mem_cons.mp hx).resolve_left hxid), hvalue, if_neg hxid]

/-- What the registers of the scan make of some values without slots. -/
structure Settled (regs : List (Option Nat)) (ids : List Nat) (a a' : SsaAlloc) : Prop where
  same : SameIntervals a a'
  le : a.spillSlots ≤ a'.spillSlots
  frame : ∀ id, id ∉ ids → a'.s.value id = a.s.value id
  held : ∀ id ∈ ids, ∀ reg, regs.getD id none = some reg → a'.s.value id = { a.s.value id with reg := some reg }
  spilled : ∀ id ∈ ids, regs.getD id none = none →
    (a.s.value id).op = .const ∧ (a.s.value id).retainConstant = true ∧
      a'.s.value id = { a.s.value id with retainConstant := false } ∨
    ∃ k, a'.s.value id = { a.s.value id with slot := some k } ∧ a.spillSlots ≤ k ∧ k < a'.spillSlots
  distinct : (∀ id ∈ ids, (a.s.value id).slot = none) → ∀ x ∈ ids, ∀ y ∈ ids, x ≠ y → ∀ k,
    (a'.s.value x).slot = some k → (a'.s.value y).slot ≠ some k

theorem Settled.one {ctx : BackendContext} {regs : List (Option Nat)} {a : SsaAlloc} {id : Nat}
    (hid : id < a.s.values.length) : Settled regs [id] a (settle ctx regs a id) := by
  have hdistinct : ∀ (a' : SsaAlloc), ∀ x ∈ [id], ∀ y ∈ [id], x ≠ y → ∀ k,
      (a'.s.value x).slot = some k → (a'.s.value y).slot ≠ some k := fun _ x hx y hy hne =>
    absurd ((mem_singleton.mp hx).trans (mem_singleton.mp hy).symm) hne
  unfold settle
  split
  · rename_i reg hreg
    refine ⟨.modify hid rfl (fun v => ⟨⟨rfl, fun h => h⟩, rfl, rfl⟩) rfl rfl rfl rfl, le_rfl, fun x hx => ?_, fun x hx r hr => ?_,
      fun x hx hnone => ?_, fun _ => hdistinct _⟩
    · rw [value_modify a.s hid, if_neg fun hc => hx (mem_singleton.mpr hc)]
    · rw [mem_singleton.mp hx] at hr ⊢
      rw [hreg] at hr
      cases hr
      rw [value_modify a.s hid, if_pos rfl]
    · rw [mem_singleton.mp hx, hreg] at hnone
      cases hnone
  rename_i hreg
  have hheld : ∀ x ∈ [id], ∀ r, regs.getD x none ≠ some r := fun x hx r hr => by
    rw [mem_singleton.mp hx, hreg] at hr
    cases hr
  split_ifs with hretained
  · refine ⟨.modify hid rfl (fun v => ⟨⟨rfl, fun h => (by cases h)⟩, rfl, rfl⟩) rfl rfl rfl rfl, le_rfl, fun x hx => ?_,
      fun x hx r hr => absurd hr (hheld x hx r), fun x hx _ => .inl ?_, fun _ => hdistinct _⟩
    · rw [value_modify a.s hid, if_neg fun hc => hx (mem_singleton.mpr hc)]
    · rw [mem_singleton.mp hx]
      exact ⟨hretained.1, hretained.2, by rw [value_modify a.s hid, if_pos rfl]⟩
  refine ⟨.modify hid rfl (fun v => ⟨⟨rfl, fun h => h⟩, rfl, rfl⟩) rfl rfl rfl rfl, Nat.le_succ _, fun x hx => ?_,
    fun x hx r hr => absurd hr (hheld x hx r),
    fun x hx _ => .inr ⟨a.spillSlots, ?_, le_rfl, Nat.lt_succ_self _⟩, fun _ => hdistinct _⟩
  · rw [value_modify a.s hid, if_neg fun hc => hx (mem_singleton.mpr hc)]
  · rw [mem_singleton.mp hx, value_modify a.s hid, if_pos rfl]

theorem foldl_settle {regs : List (Option Nat)} : ∀ (ids : List Nat) {a : SsaAlloc},
    (∀ id ∈ ids, id < a.s.values.length) → ids.Nodup → Settled regs ids a (ids.foldl (settle ctx regs) a)
  | [], a, _, _ => ⟨.refl a, le_refl _, fun _ _ => rfl, forall_mem_nil _,
      forall_mem_nil _, fun _ _ h => absurd h not_mem_nil⟩
  | id :: ids, a, hlt, hnodup => by
    obtain ⟨hid, hnodup⟩ := nodup_cons.mp hnodup
    have hone : Settled regs [id] a (settle ctx regs a id) := .one (hlt id mem_cons_self)
    have hrest : Settled regs ids (settle ctx regs a id) (ids.foldl (settle ctx regs) (settle ctx regs a id)) :=
      foldl_settle ids (fun x hx => by rw [hone.same.same.length]; exact hlt x (mem_cons_of_mem id hx)) hnodup
    rw [foldl_cons]
    generalize settle ctx regs a id = a1 at hone hrest
    generalize ids.foldl (settle ctx regs) a1 = a2 at hrest
    have hlast : a2.s.value id = a1.s.value id := hrest.frame id hid
    have hfirst : ∀ x ∈ ids, a1.s.value x = a.s.value x := fun x hx =>
      hone.frame x fun hc => hid (mem_singleton.mp hc ▸ hx)
    have hmem : id ∈ [id] := mem_singleton_self id
    refine ⟨hone.same.trans hrest.same, hone.le.trans hrest.le, fun x hx => ?_, fun x hx r hr => ?_,
      fun x hx hnone => ?_, fun hempty x hx y hy hxy k hxk hyk => ?_⟩
    · rw [mem_cons, not_or] at hx
      rw [hrest.frame x hx.2, hone.frame x fun hc => hx.1 (mem_singleton.mp hc)]
    · rcases mem_cons.mp hx with rfl | hx
      · rw [hlast]
        exact hone.held x hmem r hr
      · rw [hrest.held x hx r hr, hfirst x hx]
    · rcases mem_cons.mp hx with rfl | hx
      · rw [hlast]
        exact (hone.spilled x hmem hnone).imp_right fun ⟨k, hk, hlo, hhi⟩ => ⟨k, hk, hlo, hhi.trans_le hrest.le⟩
      · rw [← hfirst x hx]
        exact (hrest.spilled x hx hnone).imp_right fun ⟨k, hk, hlo, hhi⟩ => ⟨k, hk, hone.le.trans hlo, hhi⟩
    -- The slots of the first value and of the others are on two sides of the number between them.
    have hlow : ∀ k, (a2.s.value id).slot = some k → k < a1.spillSlots := by
      intro k hk
      rw [hlast] at hk
      cases hreg : regs.getD id none with
      | some r =>
        rw [hone.held id hmem r hreg] at hk
        have hk : (a.s.value id).slot = some k := hk
        rw [hempty id mem_cons_self] at hk
        cases hk
      | none =>
        rcases hone.spilled id hmem hreg with ⟨-, -, hvalue⟩ | ⟨k', hvalue, -, hhi⟩
        · rw [hvalue] at hk
          have hk : (a.s.value id).slot = some k := hk
          rw [hempty id mem_cons_self] at hk
          cases hk
        rw [hvalue] at hk
        cases hk
        exact hhi
    have hhigh : ∀ z ∈ ids, ∀ k, (a2.s.value z).slot = some k → a1.spillSlots ≤ k := by
      intro z hz k hk
      have hz0 : (a1.s.value z).slot = none := by
        rw [hfirst z hz]
        exact hempty z (mem_cons_of_mem id hz)
      cases hreg : regs.getD z none with
      | some r =>
        rw [hrest.held z hz r hreg] at hk
        have hk : (a1.s.value z).slot = some k := hk
        rw [hz0] at hk
        cases hk
      | none =>
        rcases hrest.spilled z hz hreg with ⟨-, -, hvalue⟩ | ⟨k', hvalue, hlo, -⟩
        · rw [hvalue] at hk
          have hk : (a1.s.value z).slot = some k := hk
          rw [hz0] at hk
          cases hk
        rw [hvalue] at hk
        cases hk
        exact hlo
    rcases mem_cons.mp hx with rfl | hxids
    · have hyids := (mem_cons.mp hy).resolve_left hxy.symm
      exact absurd ((hlow k hxk).trans_le (hhigh y hyids k hyk)) (lt_irrefl k)
    rcases mem_cons.mp hy with rfl | hyids
    · exact absurd ((hlow k hyk).trans_le (hhigh x hxids k hxk)) (lt_irrefl k)
    refine hrest.distinct (fun z hz => ?_) x hxids y hyids hxy k hxk hyk
    rw [hfirst z hz]
    exact hempty z (mem_cons_of_mem id hz)

/-- A value is used in a block at or after a point. -/
def UsedFrom (a : SsaAlloc) (operands : Nat → List Nat) (b position id : Nat) : Prop :=
  id ∈ controls (a.s.block b) ∨ ∃ user ∈ (a.s.block b).values, (a.s.value user).dead = false ∧
    ((a.s.value user).fused = true ∨ position ≤ (a.s.value user).start) ∧ id ∈ operands user

/-- **A valid allocation.**  An interval has all points where its value is live.  Values in a common
register have intervals apart, except that one may end where a value that is no phi starts.  No value is
in a register that is clobbered strictly inside of its interval, unless it is not used any more in the exit
block that clobbers it.  Every value is in a register or in a slot of its own. -/
structure AllocationValid (ctx : BackendContext) (s : Ssa) (order : List Nat) (a : SsaAlloc) : Prop where
  covers : ∀ id ∈ valuesOf s order, ∀ b q, LiveAt a (operandList s) id b q →
    (a.s.value id).start ≤ q ∧ q ≤ (a.s.value id).stop
  apart : ∀ x ∈ valuesOf s order, ∀ y ∈ valuesOf s order, x ≠ y → ssaLocated (a.s.value x) = true →
    ssaLocated (a.s.value y) = true → ∀ reg, (a.s.value x).reg = some reg → (a.s.value y).reg = some reg →
    Over a x y ∨ Over a y x
  unclobbered : ∀ x ∈ valuesOf s order, ssaLocated (a.s.value x) = true → ∀ reg, (a.s.value x).reg = some reg →
    ∀ b ∈ order, ∀ c ∈ (s.block b).values, (ssaClobbers ctx s (s.value c)).getLsbD reg = true →
    (a.s.value x).start < (a.s.value c).start → (a.s.value c).start < (a.s.value x).stop →
    (s.block b).kind = .exit ∧ ¬ UsedFrom a (operandList s) b (a.s.value c).start x
  placed : ∀ x ∈ valuesOf s order, ssaLocated (a.s.value x) = true → (∃ reg, (a.s.value x).reg = some reg) ∨
    ∃ slot, (a.s.value x).slot = some slot ∧ ∀ y ∈ valuesOf s order, y ≠ x → ssaLocated (a.s.value y) = true →
      (a.s.value y).slot ≠ some slot

section Allocate

variable {ctx : BackendContext} {s : Ssa} {order : List Nat}

theorem start_ne (form : AllocatorForm s order) {x y : Nat} (hx : x ∈ valuesOf s order) (hy : y ∈ valuesOf s order)
    (hphi : (s.value x).op = .phi) (hop : (s.value y).op ≠ .phi) :
    ((ssaNumber ctx s order).s.value x).start ≠ ((ssaNumber ctx s order).s.value y).start := by
  have hnumbered := ssaNumber_numbered ctx form
  obtain ⟨b, hb, hxb⟩ := mem_flatMap.mp hx
  obtain ⟨c, hc, hyc⟩ := mem_flatMap.mp hy
  have hstartx := hnumbered.phi b hb x hxb (by rw [hnumbered.same.op]; exact hphi)
  have hstarty := hnumbered.point c hc y hyc (by rw [hnumbered.same.op]; exact hop)
  have hendb := (hnumbered.block b hb).2.1
  intro heq
  by_cases hbc : b = c
  · rw [hbc] at hstartx
    omega
  have hapart : order.Pairwise fun b c => (ssaNumber ctx s order).endOf b < (ssaNumber ctx s order).startOf c ∨
      (ssaNumber ctx s order).endOf c < (ssaNumber ctx s order).startOf b := hnumbered.sorted.imp .inl
  have hsymm : Std.Symm fun b c => (ssaNumber ctx s order).endOf b < (ssaNumber ctx s order).startOf c ∨
      (ssaNumber ctx s order).endOf c < (ssaNumber ctx s order).startOf b := ⟨fun _ _ h => h.symm⟩
  have hsides := hapart.forall hb hc hbc
  omega

variable {a : SsaAlloc}

theorem mem_scanned {id : Nat} :
    id ∈ scanned a ↔ id ∈ valuesOf a.s a.order ∧ ssaLocated (a.s.value id) = true := by
  unfold scanned
  rw [(mergeSort_perm _ _).mem_iff, mem_filter]

theorem scanned_ordered (form : AllocatorForm s order)
    (hsame : SameStarts (ssaNumber ctx s order) a)
    (hvalues : valuesOf a.s a.order = valuesOf s order) :
    Ordered a (scanned a) ∧ (scanned a).Nodup := by
  have hnumbered := ssaNumber_numbered ctx form
  have hop : ∀ id, (a.s.value id).op = (s.value id).op := fun id =>
    (hsame.same.op id).trans (hnumbered.same.op id)
  have hsorted : (scanned a).Pairwise fun x y => startsBefore a x y = true := by
    refine pairwise_mergeSort (fun x y z hxy hyz => ?_) (fun x y => ?_) _
    · unfold startsBefore at hxy hyz ⊢
      simp only [decide_eq_true_eq] at hxy hyz ⊢
      omega
    unfold startsBefore
    simp only [Bool.or_eq_true, decide_eq_true_eq]
    omega
  refine ⟨hsorted.imp_of_mem fun {x y} hx hy hle => ?_, ?_⟩
  · unfold startsBefore at hle
    simp only [decide_eq_true_eq] at hle
    rcases hle with hlt | ⟨heq, -⟩
    · exact .inl hlt
    have hxin := (mem_scanned.mp hx).1
    have hyin := (mem_scanned.mp hy).1
    rw [hvalues] at hxin hyin
    refine .inr ⟨heq, ?_⟩
    rw [hop, hop]
    rw [hsame.start, hsame.start] at heq
    constructor
    · intro hphi
      by_contra hc
      exact start_ne form hxin hyin hphi hc heq
    intro hphi
    by_contra hc
    exact start_ne form hyin hxin hphi hc heq.symm
  · refine (mergeSort_perm _ _).nodup_iff.mpr (List.Nodup.filter _ ?_)
    rw [hvalues]
    exact form.values_nodup

theorem scan_done {hints : Nat → SsaHint} {weight : List Nat} (hordered : Ordered a (scanned a))
    (hnodup : (scanned a).Nodup) (hlt : ∀ id ∈ scanned a, id < a.s.values.length) :
    Scanning a (scanned a) [] ((scanned a).foldl (scanValue ctx hints a weight)
      { regs := replicate a.s.values.length none, owner := replicate 64 none }) := by
  have hnone : ∀ id, ({ regs := replicate a.s.values.length none, owner := replicate 64 none } : Scan).reg id =
      none := fun id => by
    unfold Scan.reg
    rw [getD_eq_getElem?_getD, getElem?_replicate]
    split_ifs <;> rfl
  have hstart : Scanning a [] (scanned a)
      { regs := replicate a.s.values.length none, owner := replicate 64 none } :=
    ⟨length_replicate, length_replicate, .nil, forall_mem_nil _,
      forall_mem_nil _, forall_mem_nil _, forall_mem_nil _,
      fun id _ => hnone id⟩
  exact Scanning.scanAll hints weight (scanned a) hstart hordered hlt (fun _ _ => not_mem_nil) hnodup

theorem not_usedFrom (form : AllocatorForm s order) (hsame : SameStarts (ssaNumber ctx s order) a)
    {b c id : Nat} (hb : b ∈ order) (hc : c ∈ (s.block b).values) (hop : (s.value c).op ≠ .phi)
    (hexit : (s.block b).kind = .exit) (h : ssaUsedFrom a b (a.s.value c).start id = false) :
    ¬ UsedFrom a (operandList s) b (a.s.value c).start id := by
  have hnumbered := ssaNumber_numbered ctx form
  have hform : SameForm s a.s := hnumbered.same.trans hsame.same
  unfold ssaUsedFrom at h
  rw [Bool.or_eq_false_iff, any_eq_false] at h
  obtain ⟨hcontrols, husers⟩ := h
  rintro (hcontrol | ⟨user, huser, hdead, hpoint, hmem⟩)
  · rw [contains_iff_mem.mpr hcontrol] at hcontrols
    cases hcontrols
  have huserb : user ∈ (s.block b).values := by rwa [hform.block] at huser
  have hfused : (a.s.value user).fused = (s.value user).fused := hform.field SsaValue.fused (fun _ => rfl) user
  have hlate : (a.s.value c).start ≤ (a.s.value user).start := by
    refine hpoint.resolve_left fun hc => ?_
    rw [hfused] at hc
    have hkind := form.fused b hb user huserb hc
    rw [hexit] at hkind
    cases hkind
  -- The phis of the block are before the clobber.
  have hphi : (s.value user).op ≠ .phi := by
    intro hphi
    have hstart := hnumbered.phi b hb user huserb (by rw [hnumbered.same.op]; exact hphi)
    have hclobber := hnumbered.point b hb c hc (by rw [hnumbered.same.op]; exact hop)
    rw [hsame.start, hsame.start] at hlate
    omega
  have hall : ssaOperands a.s user ssaMaxOperands = operandList s user := by
    unfold ssaOperands
    rw [hform.operandList]
    exact take_of_length_le (form.operands user (mem_flatMap.mpr ⟨b, hb, huserb⟩) hphi)
  refine husers user huser ?_
  rw [hall, contains_iff_mem.mpr hmem, Bool.and_true]
  simp only [hdead, Bool.false_eq_true, false_or, not_lt, decide_eq_true_eq]
  exact hlate

/-- The condition under which the intervals cover: where a value is live, it is live there or at a later
point through the operands that the passes read. -/
def Covered (ctx : BackendContext) (s : Ssa) (order : List Nat) : Prop :=
  ∀ id ∈ valuesOf s order, ∀ b q, LiveAt (ssaNumber ctx s order) (operandList s) id b q →
    q ≤ ((ssaNumber ctx s order).s.value id).start ∨
      ∃ b' q', q ≤ q' ∧ LiveAt (ssaNumber ctx s order) (counted s) id b' q'

theorem covers_iff (form : AllocatorForm s order) : Covered ctx s order ↔
    ∀ id ∈ valuesOf s order, ∀ b q, LiveAt (ssaNumber ctx s order) (operandList s) id b q →
      ((ssaNumber ctx s order).s.value id).start ≤ q ∧ q ≤ ((ssaIntervals ctx s order).s.value id).stop := by
  obtain ⟨-, hstops⟩ := ssaIntervals_spec ctx form
  constructor
  · intro hcovered id hid b q hlive
    obtain ⟨hle, hcover, -⟩ := hstops id hid
    refine ⟨start_le form hid hlive, ?_⟩
    rcases hcovered id hid b q hlive with hq | ⟨b', q', hq, hlive'⟩
    · exact hq.trans hle
    · exact hq.trans (hcover b' q' hlive')
  intro hcovers id hid b q hlive
  obtain ⟨-, -, hattained⟩ := hstops id hid
  have hq := (hcovers id hid b q hlive).2
  rcases hattained with hstop | ⟨b', hlive'⟩
  · exact .inl (hq.trans (le_of_eq hstop))
  · exact .inr ⟨b', _, hq, hlive'⟩

/-- What the scan leaves behind: the values as they were before it, its last state, and the registers and
slots that come of it. -/
structure Allocated (s : Ssa) (order : List Nat) (a a' before : SsaAlloc) (st : Scan) : Prop where
  same : SameIntervals a before
  empty : ∀ id ∈ valuesOf s order, (before.s.value id).reg = none ∧ (before.s.value id).slot = none
  scanned : ∀ id, id ∈ scanned before ↔ id ∈ valuesOf s order ∧ ssaLocated (before.s.value id) = true
  scan : Scanning before (Backend.scanned before) [] st
  settled : Settled st.regs (Backend.scanned before) before a'

theorem ssaAllocate_allocated (form : AllocatorForm s order) (hints : Nat → SsaHint)
    (hsame : SameStarts (ssaNumber ctx s order) a) :
    ∃ before st, Allocated s order a (ssaAllocate ctx hints a) before st := by
  have hnumbered := ssaNumber_numbered ctx form
  have horder : a.order = order := hsame.order.trans hnumbered.order
  have hform : SameForm s a.s := hnumbered.same.trans hsame.same
  have hvaluesOf : ∀ {s' : Ssa}, SameForm s s' → valuesOf s' order = valuesOf s order := fun hform => by
    unfold valuesOf
    simp only [hform.block]
  have hvalues : valuesOf a.s a.order = valuesOf s order := by rw [horder, hvaluesOf hform]
  obtain ⟨hreset, -, hvalue⟩ := foldl_reset (valuesOf a.s a.order) a
    (fun id hid => by
      rw [hform.length]
      exact form.values_lt id (hvalues ▸ hid))
    (hvalues ▸ form.values_nodup)
  have hreset : SameIntervals a (resetValues a) := hreset
  have hsame' := hsame.trans hreset.toSameStarts
  have hform' : SameForm s (resetValues a).s := hnumbered.same.trans hsame'.same
  have hvalues' : valuesOf (resetValues a).s (resetValues a).order = valuesOf s order := by
    rw [hreset.order, horder, hvaluesOf hform']
  have hscanned : ∀ id, id ∈ scanned (resetValues a) ↔
      id ∈ valuesOf s order ∧ ssaLocated ((resetValues a).s.value id) = true := fun id => by
    rw [mem_scanned, hvalues']
  have hlt : ∀ id ∈ scanned (resetValues a), id < (resetValues a).s.values.length := fun id hid => by
    rw [hform'.length]
    exact form.values_lt id ((hscanned id).mp hid).1
  obtain ⟨hordered, hnodup⟩ := scanned_ordered form hsame' hvalues'
  refine ⟨resetValues a, _, hreset, fun id hid => ?_, hscanned, scan_done hordered hnodup hlt,
    foldl_settle (scanned (resetValues a)) hlt hnodup⟩
  have hid' : (resetValues a).s.value id = { a.s.value id with reg := none, slot := none } :=
    hvalue id (hvalues ▸ hid)
  rw [hid']
  exact ⟨rfl, rfl⟩

namespace Allocated

variable {a a' before : SsaAlloc} {st : Scan}

/-- A located value took part in the scan, and has the register that the scan gave it. -/
theorem located (h : Allocated s order a a' before st) (form : AllocatorForm s order)
    (hform : SameForm s before.s) {id : Nat} (hid : id ∈ valuesOf s order)
    (hlocated : ssaLocated (a'.s.value id) = true) :
    id ∈ Backend.scanned before ∧ (a'.s.value id).reg = st.reg id ∧
      (st.reg id = none → ∃ k, (a'.s.value id).slot = some k) := by
  have hmem : id ∈ Backend.scanned before := by
    by_contra hc
    rw [h.settled.frame id hc] at hlocated
    exact hc ((h.scanned id).mpr ⟨hid, hlocated⟩)
  obtain ⟨hreg, -⟩ := h.empty id hid
  refine ⟨hmem, ?_⟩
  cases hst : st.reg id with
  | some reg =>
    refine ⟨?_, nofun⟩
    rw [h.settled.held id hmem reg hst]
  | none =>
    rcases h.settled.spilled id hmem hst with ⟨hop, hretained, hvalue⟩ | ⟨k, hvalue, -, -⟩
    · -- A constant that is not retained any more is not located.
      have hcls : (before.s.value id).cls = .int := by
        rw [hform.field SsaValue.cls (fun _ => rfl)]
        exact form.retained id hid (by rw [← hform.op]; exact hop) (hform.retained id hretained)
      rw [hvalue] at hlocated
      simp [ssaLocated, hop, hcls] at hlocated
    · rw [hvalue]
      exact ⟨hreg, fun _ => ⟨k, rfl⟩⟩

variable {x : Nat}

theorem apart (h : Allocated s order a a' before st) (form : AllocatorForm s order)
    (hform : SameForm s before.s) {x y : Nat} (hx : x ∈ valuesOf s order) (hy : y ∈ valuesOf s order) (hxy : x ≠ y)
    (hxl : ssaLocated (a'.s.value x) = true) (hyl : ssaLocated (a'.s.value y) = true) {reg : Nat}
    (hxr : (a'.s.value x).reg = some reg) (hyr : (a'.s.value y).reg = some reg) : Over a' x y ∨ Over a' y x := by
  obtain ⟨hxmem, hxreg, -⟩ := h.located form hform hx hxl
  obtain ⟨hymem, hyreg, -⟩ := h.located form hform hy hyl
  have hover : ∀ x y, Over before x y → Over a' x y := fun x y hover => by
    rw [over_iff] at hover ⊢
    rw [h.settled.same.stop, h.settled.same.start, h.settled.same.same.op]
    exact hover
  exact (h.scan.apart x hxmem y hymem hxy reg (hxreg ▸ hxr) (hyreg ▸ hyr)).imp (hover x y) (hover y x)

theorem unclobbered (h : Allocated s order a a' before st) (form : AllocatorForm s order)
    (hsame : SameStarts (ssaNumber ctx s order) before) (hx : x ∈ valuesOf s order)
    (hxl : ssaLocated (a'.s.value x) = true) {reg : Nat} (hxr : (a'.s.value x).reg = some reg)
    {b c : Nat} (hb : b ∈ order) (hc : c ∈ (s.block b).values)
    (hmask : (ssaClobbers ctx s (s.value c)).getLsbD reg = true)
    (hstart : (a'.s.value x).start < (a'.s.value c).start)
    (hstop : (a'.s.value c).start < (a'.s.value x).stop) :
    (s.block b).kind = .exit ∧ ¬ UsedFrom a' (operandList s) b (a'.s.value c).start x := by
  have hnumbered := ssaNumber_numbered ctx form
  have hform : SameForm s before.s := hnumbered.same.trans hsame.same
  have hend := h.settled.same
  obtain ⟨hxmem, hxreg, -⟩ := h.located form hform hx hxl
  obtain ⟨-, hclear⟩ := h.scan.clear x hxmem reg (hxreg ▸ hxr)
  have hzero : ssaClobbers ctx s (s.value c) ≠ 0 := by
    intro hzero
    rw [hzero] at hmask
    simp at hmask
  have hop : (s.value c).op ≠ .phi := by
    intro hphi
    refine hzero ?_
    unfold ssaClobbers
    rw [hphi]
    simp
  -- The clobber that the numbering has noted.
  obtain ⟨new, hnew, hsorted, -, -, hnoted⟩ := hnumbered.clobbers
  have hnew : (ssaNumber ctx s order).clobbers = new := hnew
  have hclobbers : before.clobbers = new := hsame.clobbers.trans hnew
  have hmem := hnoted b hb c hc ⟨((ssaNumber ctx s order).s.value c).start, ssaClobbers ctx s (s.value c), b⟩
    ⟨by rw [hnumbered.same.op]; exact hop, by rw [hnumbered.same.clobbers]; exact hzero,
      by rw [hnumbered.same.clobbers]; rfl⟩
  rw [hend.start, hend.start] at hstart
  rw [hend.start, hend.stop] at hstop
  obtain ⟨hexit, hunused⟩ := not_clobbered (hclobbers ▸ hsorted) hclear (hclobbers ▸ hmem) hmask
    (by rw [← hsame.start]; exact hstart) (by rw [← hsame.start]; exact hstop)
  rw [hform.block] at hexit
  rw [← hsame.start] at hunused
  refine ⟨hexit, fun hused => ?_⟩
  refine not_usedFrom form hsame hb hc hop hexit hunused ?_
  unfold UsedFrom at hused ⊢
  rw [hend.same.block, hend.start] at hused
  simp only [hend.start, hend.same.field SsaValue.dead (fun _ => rfl),
    hend.same.field SsaValue.fused (fun _ => rfl)] at hused
  exact hused

theorem placed (h : Allocated s order a a' before st) (form : AllocatorForm s order)
    (hform : SameForm s before.s) (hx : x ∈ valuesOf s order)
    (hxl : ssaLocated (a'.s.value x) = true) : (∃ reg, (a'.s.value x).reg = some reg) ∨
      ∃ slot, (a'.s.value x).slot = some slot ∧ ∀ y ∈ valuesOf s order, y ≠ x → ssaLocated (a'.s.value y) = true →
        (a'.s.value y).slot ≠ some slot := by
  obtain ⟨hxmem, hxreg, hslot⟩ := h.located form hform hx hxl
  cases hst : st.reg x with
  | some reg => exact .inl ⟨reg, hxreg.trans hst⟩
  | none =>
    obtain ⟨k, hk⟩ := hslot hst
    refine .inr ⟨k, hk, fun y hy hyx hyl => ?_⟩
    obtain ⟨hymem, -⟩ := h.located form hform hy hyl
    exact h.settled.distinct (fun z hz => (h.empty z ((h.scanned z).mp hz).1).2) x hxmem y hymem hyx.symm k hk

end Allocated

/-- The intervals of the final allocation are those that were computed, and so cover what they cover. -/
theorem covers_allocated (form : AllocatorForm s order) (hints : Nat → SsaHint) :
    (∀ id ∈ valuesOf s order, ∀ b q, LiveAt (ssaAllocate ctx hints (ssaIntervals ctx s order))
      (operandList s) id b q →
      ((ssaAllocate ctx hints (ssaIntervals ctx s order)).s.value id).start ≤ q ∧
        q ≤ ((ssaAllocate ctx hints (ssaIntervals ctx s order)).s.value id).stop) ↔ Covered ctx s order := by
  obtain ⟨hintervals, -⟩ := ssaIntervals_spec ctx form
  obtain ⟨before, st, hallocated⟩ := ssaAllocate_allocated form hints hintervals
  have hresult : SameIntervals (ssaIntervals ctx s order) (ssaAllocate ctx hints (ssaIntervals ctx s order)) :=
    hallocated.same.trans hallocated.settled.same
  have hstarts := hintervals.trans hresult.toSameStarts
  rw [covers_iff form]
  simp only [hstarts.liveAt, hstarts.start, hresult.stop]

theorem covered_of_counted (form : AllocatorForm s order)
    (hcounted : ∀ id ∈ valuesOf s order, (operandList s id).length ≤ ssaMaxOperands) : Covered ctx s order := by
  have hnumbered := ssaNumber_numbered ctx form
  have huses : ∀ b ∈ (ssaNumber ctx s order).order, usesIn (ssaNumber ctx s order) (operandList s) b =
      usesIn (ssaNumber ctx s order) (counted s) b := by
    intro b hb
    rw [hnumbered.order] at hb
    unfold usesIn
    rw [hnumbered.same.block]
    congr 1
    refine flatMap_congr fun id hid => ?_
    rw [counted, ssaOperands, take_of_length_le (hcounted id (mem_flatMap.mpr ⟨b, hb, hid⟩))]
  have hin : ∀ id x, LiveIn (ssaNumber ctx s order) (operandList s) id x →
      LiveIn (ssaNumber ctx s order) (counted s) id x := by
    intro id x hx
    induction hx with
    | use hb h value elsewhere => exact .use hb (huses _ hb ▸ h) value elsewhere
    | back _ hp elsewhere ih => exact .back ih hp elsewhere
  intro id _ b q hlive
  refine .inr ⟨b, q, le_rfl, hlive.inside, hlive.defined, ?_⟩
  rcases hlive.used with ⟨c, hc, use, hu, hrest⟩ | ⟨x, hx, hp⟩
  · exact .inl ⟨c, hc, use, huses c hc ▸ hu, hrest⟩
  · exact .inr ⟨x, hin id x hx, hp⟩

/-- Whatever the hints are, registers and slots are given apart and kept from clobbers. -/
theorem allocated_valid (form : AllocatorForm s order) (hints : Nat → SsaHint) :
    AllocationValid ctx s order (ssaAllocate ctx hints (ssaIntervals ctx s order)) ↔ Covered ctx s order := by
  have hnumbered := ssaNumber_numbered ctx form
  obtain ⟨hintervals, -⟩ := ssaIntervals_spec ctx form
  obtain ⟨before, st, hallocated⟩ := ssaAllocate_allocated form hints hintervals
  have hsame := hintervals.trans hallocated.same.toSameStarts
  have hform : SameForm s before.s := hnumbered.same.trans hsame.same
  rw [← covers_allocated form hints]
  exact ⟨fun h => h.covers, fun h => ⟨h,
    fun x hx y hy hxy hxl hyl reg hxr hyr => hallocated.apart form hform hx hy hxy hxl hyl hxr hyr,
    fun x hx hxl reg hxr b hb c hc hmask hlo hhi =>
      hallocated.unclobbered form hsame hx hxl hxr hb hc hmask hlo hhi,
    fun x hx hxl => hallocated.placed form hform hx hxl⟩⟩

/-- **Linear scan is valid where no value has more operands than the passes read**, whatever the hints
are. -/
theorem allocation_valid (form : AllocatorForm s order)
    (hcounted : ∀ id ∈ valuesOf s order, (operandList s id).length ≤ ssaMaxOperands) (hints : Nat → SsaHint) :
    AllocationValid ctx s order (ssaAllocate ctx hints (ssaIntervals ctx s order)) :=
  (allocated_valid form hints).mpr (covered_of_counted form hcounted)

end Allocate

/-- A switch over `n + 1` blocks that all go on to one join.  The first one defines an address and loads from
it, and its address is the last operand of the join's phi. -/
def joined (n : Nat) : Ssa where
  values := [{ op := .param, cls := .int }, { op := .symbol, cls := .int, block := 2 },
    { op := .load, cls := .int, a := some 1, block := 2 }, { op := .phi, cls := .int, block := 1, count := n + 1 },
    { op := .const, cls := .int }]
  blocks := [{ values := [0], kind := .switch, control := some 0, control2 := some 4, table := n + 1 },
    { values := [3], preds := range' 3 n ++ [2], kind := .ret, control := some 3 },
    { values := [1, 2], preds := [0], succ0 := some 1 }] ++ replicate n { preds := [0], succ0 := some 1 }
  lists := replicate n 0 ++ 1 :: [0, n + 1, n + 2] ++ (range' 2 (n + 1)).reverse

def joinedOrder (n : Nat) : List Nat := 0 :: 2 :: (range' 3 n ++ [1])

theorem joined_plain {b : Nat} (hb : b ∈ range' 3 n) : (joined n).block b = { preds := [0], succ0 := some 1 } := by
  obtain ⟨k, hk, rfl⟩ := mem_range'.mp hb
  rw [Nat.one_mul, Nat.add_comm]
  change (replicate n _).getD k default = _
  rw [getD_eq_getElem?_getD, getElem?_replicate, if_pos hk]
  rfl

theorem joined_order {b : Nat} (hb : b ∈ joinedOrder n) : b = 0 ∨ b = 2 ∨ b ∈ range' 3 n ∨ b = 1 := by
  simpa [joinedOrder] using hb

theorem joined_values {b id : Nat} (hb : b ∈ joinedOrder n) (hid : id ∈ ((joined n).block b).values) :
    b = 0 ∧ id = 0 ∨ b = 2 ∧ (id = 1 ∨ id = 2) ∨ b = 1 ∧ id = 3 := by
  rcases joined_order n hb with rfl | rfl | hb | rfl
  · exact .inl ⟨rfl, mem_singleton.mp hid⟩
  · exact .inr (.inl ⟨rfl, by simpa using (show id ∈ [1, 2] from hid)⟩)
  · rw [joined_plain n hb] at hid
    cases hid
  · exact .inr (.inr ⟨rfl, mem_singleton.mp hid⟩)

theorem joined_valuesOf : valuesOf (joined n) (joinedOrder n) = [0, 1, 2, 3] := by
  have hplain : (range' 3 n).flatMap (fun b => ((joined n).block b).values) = [] :=
    flatMap_eq_nil_iff.mpr fun b hb => by rw [joined_plain n hb]
  rw [valuesOf, joinedOrder, flatMap_cons, flatMap_cons, flatMap_append, hplain]
  rfl

theorem joined_operands : operandList (joined n) 3 = (range (n + 1)).map fun i => if i = n then 1 else 0 := by
  change (range (n + 1)).map (fun i => (replicate n 0 ++ 1 :: [0, n + 1, n + 2] ++ (range' 2 (n + 1)).reverse).getD
    (0 + i) 0) = _
  refine map_congr_left fun i hi => ?_
  rw [zero_add, getD_eq_getElem?_getD, append_assoc]
  split_ifs with h
  · rw [h, getElem?_append_right (by simp)]
    simp
  have hi := mem_range.mp hi
  rw [getElem?_append_left (by simp; omega), getElem?_replicate, if_pos (by omega)]
  rfl

theorem joined_pred {j : Nat} (hj : j ≤ n) : ((joined n).block 1).preds.getD j 0 = if j = n then 2 else 3 + j := by
  change (range' 3 n ++ [2]).getD j 0 = _
  rw [getD_eq_getElem?_getD]
  split_ifs with h
  · rw [h, getElem?_append_right (by simp)]
    simp
  · rw [getElem?_append_left (by simp; omega), getElem?_range' (by omega), Nat.one_mul]
    rfl

/-- All values but the parameter are used where they are defined.  The address is used by the load, and by the
phi if the last operand is read. -/
theorem joined_uses {n : Nat} (hblock : ∀ b, a.s.block b = (joined n).block b)
    (hop : ∀ id, (a.s.value id).op = ((joined n).value id).op)
    (hpre : ∀ id, operands id <+: operandList (joined n) id) {b : Nat} (hb : b ∈ joinedOrder n)
    {use : SsaUse} (h : use ∈ usesIn a operands b) :
    (use.block = ((joined n).value use.value).block ∨ use.value = 0 ∧ use.block ≠ 0) ∧
      (use.value = 1 → use.point = usePoint a 2 (a.s.value 2) ∨ n < (operands 3).length) := by
  have hplain : ∀ id c, ((joined n).value id).op ≠ .phi → usesBy a (operands id) c id =
      (operands id).map fun op => ⟨op, c, usePoint a c (a.s.value id)⟩ := fun id c hne => by
    unfold usesBy
    rw [if_neg (by rw [hop]; exact hne)]
  unfold usesIn at h
  rw [hblock] at h
  rcases mem_append.mp h with h | h
  · obtain ⟨id, hid, huse⟩ := mem_flatMap.mp h
    rcases joined_values n hb hid with ⟨rfl, rfl⟩ | ⟨rfl, rfl | rfl⟩ | ⟨rfl, rfl⟩
    · rw [hplain 0 0 (fun hc => (by cases hc)), prefix_nil.mp (hpre 0)] at huse
      exact absurd huse not_mem_nil
    · rw [hplain 1 2 (fun hc => (by cases hc)), prefix_nil.mp (hpre 1)] at huse
      exact absurd huse not_mem_nil
    · rw [hplain 2 2 fun hc => (by cases hc)] at huse
      obtain ⟨op, hmem, rfl⟩ := mem_map.mp huse
      obtain rfl : op = 1 := mem_singleton.mp ((hpre 2).subset hmem)
      exact ⟨.inl rfl, fun _ => .inl rfl⟩
    unfold usesBy at huse
    dsimp only at huse
    rw [hop, hblock, if_pos (show ((joined n).value 3).op = .phi from rfl)] at huse
    obtain ⟨⟨op, j⟩, hpair, rfl⟩ := mem_map.mp huse
    have hget := mem_zipIdx_iff_getElem?.mp hpair
    have hlt := (List.getElem?_eq_some_iff.mp hget).1
    obtain ⟨more, hmore⟩ := hpre 3
    have hall : (operandList (joined n) 3)[j]? = some op := by
      rw [← hmore, getElem?_append_left hlt]
      exact hget
    rw [joined_operands, getElem?_map, Option.map_eq_some_iff] at hall
    obtain ⟨i, hi, rfl⟩ := hall
    obtain ⟨hj, rfl⟩ := List.getElem?_eq_some_iff.mp hi
    rw [length_range] at hj
    simp only [getElem_range, joined_pred n (Nat.le_of_lt_succ hj)]
    split_ifs with hlast
    · exact ⟨.inl rfl, fun _ => .inr (hlast ▸ hlt)⟩
    · exact ⟨.inr ⟨rfl, by omega⟩, fun hc => hc.elim⟩
  · obtain ⟨op, hmem, rfl⟩ := mem_map.mp h
    rcases joined_order n hb with rfl | rfl | hb | rfl
    · have hop : op = 0 ∨ op = 4 := by simpa using (show op ∈ [0, 4] from hmem)
      rcases hop with rfl | rfl
      · exact ⟨.inl rfl, fun hc => absurd hc Nat.zero_ne_one⟩
      · exact ⟨.inl rfl, fun hc => (by cases hc)⟩
    · exact absurd hmem not_mem_nil
    · rw [joined_plain n hb] at hmem
      exact absurd hmem not_mem_nil
    · obtain rfl : op = 3 := mem_singleton.mp hmem
      exact ⟨.inl rfl, fun hc => (by cases hc)⟩

/-- Only the parameter is live into a block, and not into the first one. -/
theorem joined_liveIn {n b : Nat} (hform : SameForm (joined n) a.s)
    (horder : a.order = joinedOrder n) (hpre : ∀ id, operands id <+: operandList (joined n) id)
    (h : LiveIn a operands id b) : id = 0 ∧ b ≠ 0 := by
  induction h with
  | @use use c hc hu value elsewhere =>
    have huse := (joined_uses hform.block hform.op hpre (horder ▸ hc) hu).1
    rw [← value, hform.inBlock] at elsewhere
    rw [← value]
    exact huse.resolve_left elsewhere
  | @back x p _ _ elsewhere ih =>
    refine ⟨ih.1, ?_⟩
    rw [ih.1, hform.inBlock] at elsewhere
    exact elsewhere

theorem joined_form : AllocatorForm (joined n) (joinedOrder n) := by
  have hvalues := joined_valuesOf n
  have hmem : ∀ id ∈ valuesOf (joined n) (joinedOrder n), id = 0 ∨ id = 1 ∨ id = 2 ∨ id = 3 := by simp [hvalues]
  have hlength : (joined n).blocks.length = n + 3 := by simp [joined]
  have hnodup : (joinedOrder n).Nodup := by
    simp [joinedOrder, nodup_append, nodup_range']
    omega
  refine ⟨hnodup, fun b hb => ?_, by rw [hvalues]; decide, ?_, ?_, ?_, ?_, ?_, ?_, ?_, ?_, fun id _ b hb hlive => ?_⟩
  · rw [hlength]
    rcases joined_order n hb with rfl | rfl | hb | rfl
    · omega
    · omega
    · have := mem_range'_1.mp hb
      omega
    · omega
  · intro id hid
    rcases hmem id hid with rfl | rfl | rfl | rfl <;> exact Nat.le_of_ble_eq_true rfl
  · intro b hb id hid
    rcases joined_values n hb hid with ⟨rfl, rfl⟩ | ⟨rfl, rfl | rfl⟩ | ⟨rfl, rfl⟩ <;> rfl
  · intro b hb p hp
    rcases joined_order n hb with rfl | rfl | hb | rfl
    · cases hp
    · exact mem_singleton.mp hp ▸ mem_cons_self
    · rw [joined_plain n hb] at hp
      exact mem_singleton.mp hp ▸ mem_cons_self
    change p ∈ range' 3 n ++ [2] at hp
    simp only [joinedOrder, mem_cons, mem_append] at hp ⊢
    tauto
  · intro b hb id hid hphi
    rcases joined_values n hb hid with ⟨rfl, rfl⟩ | ⟨rfl, rfl | rfl⟩ | ⟨rfl, rfl⟩
    · cases hphi
    · cases hphi
    · cases hphi
    · change n + 1 = (range' 3 n ++ [2]).length
      simp
  · intro id hid hop
    rcases hmem id hid with rfl | rfl | rfl | rfl
    · exact Nat.zero_le _
    · exact Nat.le_of_ble_eq_true rfl
    · exact Nat.le_of_ble_eq_true rfl
    · exact absurd rfl hop
  · intro b hb id hid hfused
    rcases joined_values n hb hid with ⟨rfl, rfl⟩ | ⟨rfl, rfl | rfl⟩ | ⟨rfl, rfl⟩ <;> cases hfused
  · intro id hid _ hretained
    rcases hmem id hid with rfl | rfl | rfl | rfl <;> cases hretained
  · intro before b after horder hne
    obtain ⟨rest, rfl, hrest⟩ : ∃ rest, before = 0 :: rest ∧ 2 :: (range' 3 n ++ [1]) = rest ++ b :: after := by
      cases before with
      | nil => exact absurd rfl hne
      | cons x rest =>
        obtain ⟨rfl, hrest⟩ := cons.inj horder
        exact ⟨rest, rfl, hrest⟩
    have hb : b ∈ joinedOrder n := horder ▸ mem_append_right _ mem_cons_self
    rcases joined_order n hb with rfl | rfl | hb | rfl
    · rw [horder, cons_append, nodup_cons] at hnodup
      exact absurd (mem_append_right _ mem_cons_self) hnodup.1
    · exact ⟨0, mem_singleton_self 0, mem_cons_self⟩
    · rw [joined_plain n hb]
      exact ⟨0, mem_singleton_self 0, mem_cons_self⟩
    cases rest with
    | nil => exact absurd (cons.inj hrest).1 (by decide)
    | cons x rest =>
      obtain ⟨rfl, -⟩ := cons.inj hrest
      exact ⟨2, mem_append_right _ (mem_singleton_self 2), mem_cons_of_mem _ mem_cons_self⟩
  · obtain rfl : 0 = b := Option.some.inj hb
    exact (joined_liveIn (.refl _) rfl (fun _ => prefix_refl _) hlive).2 rfl

/-- The allocation of a join of four blocks. -/
theorem allocation_valid_joined : AllocatorForm (joined 3) (joinedOrder 3) ∧
    AllocationValid {} (joined 3) (joinedOrder 3)
      (ssaAllocate {} (fun _ => .none) (ssaIntervals {} (joined 3) (joinedOrder 3))) :=
  ⟨joined_form 3, allocation_valid (joined_form 3) (by decide) fun _ => .none⟩

theorem joined_last {n : Nat} (hblock : ∀ b, a.s.block b = (joined n).block b)
    (hop : ∀ id, (a.s.value id).op = ((joined n).value id).op) :
    ⟨1, 2, a.endOf 2⟩ ∈ usesIn a (operandList (joined n)) 1 := by
  have hget : (operandList (joined n) 3)[n]? = some 1 := by
    rw [joined_operands, getElem?_map, getElem?_range (Nat.lt_succ_self n), Option.map_some, if_pos rfl]
  have hpred := joined_pred n (le_refl n)
  rw [if_pos rfl] at hpred
  refine mem_append_left _ (mem_flatMap.mpr ⟨3, ?_, ?_⟩)
  · rw [hblock]
    exact mem_singleton_self 3
  unfold usesBy
  dsimp only
  rw [hop, hblock, if_pos (show ((joined n).value 3).op = .phi from rfl)]
  refine mem_map.mpr ⟨(1, n), mem_zipIdx_iff_getElem?.mpr hget, ?_⟩
  rw [hpred]

/-- In a join of more blocks than the passes read the address is live at the end of its block, and the
operands that they read keep it only up to the load. -/
theorem joined_uncovered (hn : ssaMaxOperands ≤ n) : ¬ Covered {} (joined n) (joinedOrder n) := by
  have hnumbered := ssaNumber_numbered {} (joined_form n)
  have hform := hnumbered.same
  have htwo : 2 ∈ joinedOrder n := mem_cons_of_mem _ mem_cons_self
  have hjoin : 1 ∈ joinedOrder n := mem_cons_of_mem _ (mem_cons_of_mem _ (mem_append_right _ mem_cons_self))
  have haddress := hnumbered.point 2 htwo 1 mem_cons_self (by rw [hform.op]; exact fun hc => by cases hc)
  have hload := hnumbered.point 2 htwo 2 (mem_cons_of_mem _ mem_cons_self) (by rw [hform.op]; exact fun hc => by cases hc)
  intro hcovered
  have hlive : LiveAt (ssaNumber {} (joined n) (joinedOrder n)) (operandList (joined n)) 1 2
      ((ssaNumber {} (joined n) (joinedOrder n)).endOf 2) :=
    ⟨⟨(haddress.1.trans haddress.2).le, le_rfl⟩, fun _ => haddress.2.le,
      .inl ⟨1, hnumbered.order ▸ hjoin, _, joined_last hform.block hform.op, rfl, rfl, le_rfl⟩⟩
  rcases hcovered 1 (by rw [joined_valuesOf]; decide) 2 _ hlive with hle | ⟨b, q, hq, hcounted⟩
  · exact absurd hle haddress.2.not_ge
  have hpre : ∀ id, counted (joined n) id <+: operandList (joined n) id := fun id => take_prefix _ _
  rcases hcounted.used with ⟨c, hc, use, hu, hvalue, -, hpoint⟩ | ⟨x, hx, -⟩
  · rw [hnumbered.order] at hc
    rcases (joined_uses hform.block hform.op hpre hc hu).2 hvalue with h | h
    · rw [h, usePoint, hform.field SsaValue.fused (fun _ => rfl), hform.op] at hpoint
      exact absurd (hq.trans hpoint) hload.2.not_ge
    · exact absurd ((length_take_le ssaMaxOperands _).trans hn) h.not_ge
  · exact absurd (joined_liveIn hform hnumbered.order hpre hx).1 Nat.one_ne_zero

/-- In a join of 1601 blocks the last operand of the phi is not read: the interval of the address ends at
the load, before the end of the block where the phi uses it. -/
theorem joined_invalid : AllocatorForm (joined 1600) (joinedOrder 1600) ∧
    ¬ AllocationValid {} (joined 1600) (joinedOrder 1600)
      (ssaAllocate {} (fun _ => .none) (ssaIntervals {} (joined 1600) (joinedOrder 1600))) := by
  refine ⟨joined_form 1600, fun hvalid => ?_⟩
  exact joined_uncovered 1600 (le_refl 1600) ((covers_allocated (joined_form 1600) fun _ => .none).mp hvalid.covers)

end Dyn.Backend
