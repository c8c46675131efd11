import Mathlib.Data.List.Count

/-!
# Open addressing

A table of slots holds keys with their values.  A key is looked for from the slot of its hash on,
slot after slot around the table, up to the first free one.  As long as some slot is free the
table is a map.
-/

namespace Dyn.Lib
namespace Probe

open List

variable {K V : Type} [DecidableEq K]

/-- The slot at which the walk for a key ends: one that holds the key or is free. -/
def probe (slots : List (Option (K × V))) (key : K) : Nat → Nat → Nat
  | 0, j => j
  | fuel + 1, j =>
      match slots.getD j none with
      | none => j
      | some entry => if entry.1 = key then j else probe slots key fuel ((j + 1) % slots.length)

/-- The slot of a key, or the one for it. -/
def slotOf (hash : K → Nat) (slots : List (Option (K × V))) (key : K) : Nat :=
  probe slots key slots.length (hash key % slots.length)

def lookup (hash : K → Nat) (slots : List (Option (K × V))) (key : K) : Option V :=
  match slots.getD (slotOf hash slots key) none with
  | none => none
  | some entry => if entry.1 = key then some entry.2 else none

def insert (hash : K → Nat) (slots : List (Option (K × V))) (key : K) (value : V) : List (Option (K × V)) :=
  slots.set (slotOf hash slots key) (some (key, value))

/-- The slots before the `d`-th of the walk for a key hold other keys. -/
def Passed (hash : K → Nat) (slots : List (Option (K × V))) (key : K) (d : Nat) : Prop :=
  ∀ e < d, ∃ other v, slots.getD ((hash key + e) % slots.length) none = some (other, v) ∧ other ≠ key

structure Valid (hash : K → Nat) (slots : List (Option (K × V))) : Prop where
  met : ∀ i key v, slots.getD i none = some (key, v) →
    ∃ d < slots.length, (hash key + d) % slots.length = i ∧ Passed hash slots key d
  free : ∃ i < slots.length, slots.getD i none = none

variable {hash : K → Nat} {slots : List (Option (K × V))}

omit [DecidableEq K] in
theorem getD_lt {i : Nat} {entry : K × V} (h : slots.getD i none = some entry) : i < slots.length := by
  by_contra hlt
  rw [getD_eq_getElem?_getD, getElem?_eq_none (Nat.le_of_not_lt hlt)] at h
  cases h

omit [DecidableEq K] in
theorem walk_meets {n i : Nat} (start : Nat) (hi : i < n) : ∃ d < n, (start + d) % n = i := by
  refine ⟨(i + (n - start % n)) % n, Nat.mod_lt _ (by omega), ?_⟩
  have hmod : start % n < n := Nat.mod_lt _ (by omega)
  have hsplit : start + (i + (n - start % n)) = i + n * (start / n + 1) := by
    have hdiv := Nat.div_add_mod start n
    rw [Nat.mul_add, Nat.mul_one]
    omega
  rw [Nat.add_mod_mod, hsplit, Nat.add_mul_mod_self_left, Nat.mod_eq_of_lt hi]

/-- The walk ends at the first slot that is free or holds the key. -/
theorem probe_spec (hash : K → Nat) (key : K) (hfree : ∃ i < slots.length, slots.getD i none = none) : ∀ (fuel d : Nat),
    d + fuel = slots.length → Passed hash slots key d →
    ∃ d' < slots.length, probe slots key fuel ((hash key + d) % slots.length) = (hash key + d') % slots.length ∧
      Passed hash slots key d' ∧
      (slots.getD ((hash key + d') % slots.length) none = none ∨
        ∃ v, slots.getD ((hash key + d') % slots.length) none = some (key, v)) := by
  intro fuel
  induction fuel with
  | zero =>
    intro d hd hpassed
    obtain ⟨i, hi, hnone⟩ := hfree
    obtain ⟨e, he, rfl⟩ := walk_meets (hash key) hi
    obtain ⟨other, v, hsome, -⟩ := hpassed e (by omega)
    rw [hnone] at hsome
    cases hsome
  | succ fuel ih =>
    intro d hd hpassed
    unfold probe
    cases hslot : slots.getD ((hash key + d) % slots.length) none with
    | none => exact ⟨d, by omega, rfl, hpassed, .inl hslot⟩
    | some entry =>
      obtain ⟨other, v⟩ := entry
      dsimp only
      by_cases heq : other = key
      · subst heq
        exact ⟨d, by omega, if_pos rfl, hpassed, .inr ⟨v, hslot⟩⟩
      rw [if_neg heq, Nat.mod_add_mod, Nat.add_assoc]
      refine ih (d + 1) (by omega) fun e he => ?_
      rcases Nat.lt_succ_iff_lt_or_eq.mp he with hlt | rfl
      · exact hpassed e hlt
      · exact ⟨other, v, hslot, heq⟩

theorem slotOf_spec (key : K) (h : Valid hash slots) :
    ∃ d < slots.length, slotOf hash slots key = (hash key + d) % slots.length ∧ Passed hash slots key d ∧
      (slots.getD (slotOf hash slots key) none = none ∨
        ∃ v, slots.getD (slotOf hash slots key) none = some (key, v)) := by
  obtain ⟨d, hd, hprobe, hpassed, hend⟩ := probe_spec hash key h.free slots.length 0 (by omega)
    fun e he => absurd he (Nat.not_lt_zero e)
  rw [Nat.add_zero] at hprobe
  unfold slotOf
  rw [hprobe]
  exact ⟨d, hd, rfl, hpassed, hend⟩

theorem slotOf_eq (h : Valid hash slots) {key : K} {v : V} {i : Nat} (hi : slots.getD i none = some (key, v)) :
    slotOf hash slots key = i := by
  obtain ⟨d, -, hslot, hpassed, hend⟩ := slotOf_spec key h
  obtain ⟨d', -, rfl, hpassed'⟩ := h.met i key v hi
  rw [hslot] at hend ⊢
  rcases Nat.lt_trichotomy d d' with hlt | rfl | hlt
  · obtain ⟨other, w, hother, hne⟩ := hpassed' d hlt
    rw [hother] at hend
    rcases hend with hnone | ⟨w', hw'⟩
    · cases hnone
    · cases hw'
      exact absurd rfl hne
  · rfl
  obtain ⟨other, w, hother, hne⟩ := hpassed d' hlt
  rw [hi] at hother
  cases hother
  exact absurd rfl hne

theorem lookup_iff (h : Valid hash slots) {key : K} {v : V} :
    lookup hash slots key = some v ↔ ∃ i, slots.getD i none = some (key, v) := by
  unfold lookup
  constructor
  · intro hlookup
    cases hslot : slots.getD (slotOf hash slots key) none with
    | none =>
      rw [hslot] at hlookup
      cases hlookup
    | some entry =>
      rw [hslot] at hlookup
      dsimp only at hlookup
      split at hlookup
      · rename_i heq
        cases hlookup
        subst heq
        exact ⟨_, hslot⟩
      · cases hlookup
  · rintro ⟨i, hi⟩
    rw [slotOf_eq h hi, hi]
    exact if_pos rfl

omit [DecidableEq K] in
theorem free_of_count (hcount : slots.countP Option.isSome < slots.length) :
    ∃ i < slots.length, slots.getD i none = none := by
  by_contra hfull
  push Not at hfull
  refine absurd hcount (Nat.not_lt_of_le (Nat.le_of_eq ?_))
  refine (countP_eq_length.mpr fun slot hslot => ?_).symm
  obtain ⟨i, hi, rfl⟩ := getElem_of_mem hslot
  have hsome := hfull i hi
  rw [getD_eq_getElem?_getD, getElem?_eq_getElem hi, Option.getD_some] at hsome
  exact Option.isSome_iff_ne_none.mpr hsome

omit [DecidableEq K] in
theorem getD_set_cases {j : Nat} {entry : K × V} (hj : j < slots.length) (i : Nat) :
    (slots.set j (some entry)).getD i none = if i = j then some entry else slots.getD i none := by
  by_cases hij : i = j
  · subst hij
    rw [if_pos rfl, getD_eq_getElem?_getD, getElem?_set_self hj, Option.getD_some]
  · rw [if_neg hij, getD_eq_getElem?_getD, getElem?_set_ne (Ne.symm hij), ← getD_eq_getElem?_getD]

/-- **An insertion updates the map**, where there is room for it. -/
theorem insert_spec (h : Valid hash slots) (key : K) (value : V)
    (hroom : ∃ i < slots.length, (insert hash slots key value).getD i none = none) :
    Valid hash (insert hash slots key value) ∧ ∀ k, lookup hash (insert hash slots key value) k =
        if k = key then some value else lookup hash slots k := by
  obtain ⟨d, hd, hslot, hpassed, hend⟩ := slotOf_spec key h
  have hj : slotOf hash slots key < slots.length := by
    rw [hslot]
    exact Nat.mod_lt _ (by omega)
  have hlength : (insert hash slots key value).length = slots.length := length_set
  have hget : ∀ i, (insert hash slots key value).getD i none =
      if i = slotOf hash slots key then some (key, value) else slots.getD i none := getD_set_cases hj
  -- A walk that passed the slot before met the key there, and still does.
  have hkept : ∀ k e, Passed hash slots k e → Passed hash (insert hash slots key value) k e := by
    intro k e hk e' he'
    obtain ⟨other, v, hother, hne⟩ := hk e' he'
    rw [hlength, hget]
    split_ifs with hhere
    · refine ⟨key, value, rfl, ?_⟩
      rw [← hhere, hother] at hend
      rcases hend with hnone | ⟨w, hw⟩
      · cases hnone
      · cases hw
        exact hne
    · exact ⟨other, v, hother, hne⟩
  have hvalid : Valid hash (insert hash slots key value) := by
    refine ⟨fun i k v hi => ?_, by rw [hlength]; exact hroom⟩
    rw [hget] at hi
    rw [hlength]
    split_ifs at hi with hhere
    · cases hi
      refine ⟨d, hd, hslot.symm.trans hhere.symm, fun e he => ?_⟩
      obtain ⟨other, v, hother, hne⟩ := hpassed e he
      rw [hlength, hget, if_neg ?_]
      · exact ⟨other, v, hother, hne⟩
      intro heq
      rw [← heq, hother] at hend
      rcases hend with hnone | ⟨w, hw⟩
      · cases hnone
      · cases hw
        exact hne rfl
    · obtain ⟨e, he, rfl, hk⟩ := h.met i k v hi
      exact ⟨e, he, rfl, hkept k e hk⟩
  refine ⟨hvalid, fun k => ?_⟩
  by_cases hk : k = key
  · subst hk
    rw [if_pos rfl]
    exact (lookup_iff hvalid).mpr ⟨_, (hget _).trans (if_pos rfl)⟩
  rw [if_neg hk]
  refine Option.ext fun v => ?_
  rw [lookup_iff hvalid, lookup_iff h]
  constructor
  · rintro ⟨i, hi⟩
    rw [hget] at hi
    split_ifs at hi
    · cases hi
      exact absurd rfl hk
    · exact ⟨i, hi⟩
  rintro ⟨i, hi⟩
  refine ⟨i, (hget i).trans ?_⟩
  rw [if_neg ?_, hi]
  rintro rfl
  rw [hi] at hend
  rcases hend with hnone | ⟨w, hw⟩
  · cases hnone
  · cases hw
    exact hk rfl

omit [DecidableEq K] in
theorem countP_set_some {j : Nat} {entry : K × V} (hj : j < slots.length) :
    (slots.set j (some entry)).countP Option.isSome =
      slots.countP Option.isSome + if slots.getD j none = none then 1 else 0 := by
  induction slots generalizing j with
  | nil => exact absurd hj (Nat.not_lt_zero _)
  | cons slot rest ih =>
    cases j with
    | zero => cases slot <;> simp
    | succ j =>
      rw [length_cons] at hj
      have hrest := ih (Nat.lt_of_succ_lt_succ hj)
      rw [set_cons_succ, countP_cons, countP_cons, hrest, getD_cons_succ]
      omega

/-- The first free slot from `j` on. -/
def probeFree (slots : List (Option (K × V))) : Nat → Nat → Nat
  | 0, j => j
  | fuel + 1, j =>
      match slots.getD j none with
      | none => j
      | some _ => probeFree slots fuel ((j + 1) % slots.length)

/-- Puts an entry into the first free slot of its walk. -/
def settle (hash : K → Nat) (slots : List (Option (K × V))) : Option (K × V) → List (Option (K × V))
  | none => slots
  | some entry => slots.set (probeFree slots slots.length (hash entry.1 % slots.length)) (some entry)

theorem probeFree_eq {key : K} (hnew : ∀ i v, slots.getD i none ≠ some (key, v)) : ∀ fuel j,
    probeFree slots fuel j = probe slots key fuel j := by
  intro fuel
  induction fuel with
  | zero => exact fun _ => rfl
  | succ fuel ih =>
    intro j
    unfold probeFree probe
    cases hslot : slots.getD j none with
    | none => rfl
    | some entry =>
      dsimp only
      have hne : entry.1 ≠ key := by
        rintro rfl
        exact hnew j entry.2 hslot
      rw [if_neg hne, ih]

theorem Valid.distinct (h : Valid hash slots) :
    slots.Pairwise fun a b => ∀ key v w, a = some (key, v) → b ≠ some (key, w) := by
  rw [pairwise_iff_getElem]
  intro i j hi hj hij key v w hv hw
  have hv' : slots.getD i none = some (key, v) := by
    rw [getD_eq_getElem?_getD, getElem?_eq_getElem hi, hv, Option.getD_some]
  have hw' : slots.getD j none = some (key, w) := by
    rw [getD_eq_getElem?_getD, getElem?_eq_getElem hj, hw, Option.getD_some]
  have heq := (slotOf_eq h hv').symm.trans (slotOf_eq h hw')
  omega

/-- The entries of `rest` come into a table that has none of their keys. -/
theorem settle_spec : ∀ (rest slots : List (Option (K × V))), Valid hash slots →
    (∀ i key v w, slots.getD i none = some (key, v) → some (key, w) ∉ rest) →
    rest.Pairwise (fun a b => ∀ key v w, a = some (key, v) → b ≠ some (key, w)) →
    slots.countP Option.isSome + rest.countP Option.isSome < slots.length →
    Valid hash (rest.foldl (settle hash) slots) ∧
      (rest.foldl (settle hash) slots).length = slots.length ∧
      (rest.foldl (settle hash) slots).countP Option.isSome =
        slots.countP Option.isSome + rest.countP Option.isSome ∧
      ∀ key v, (∃ i, (rest.foldl (settle hash) slots).getD i none = some (key, v)) ↔
        (∃ i, slots.getD i none = some (key, v)) ∨ some (key, v) ∈ rest := by
  intro rest
  induction rest with
  | nil =>
    intro slots h _ _ _
    exact ⟨h, rfl, rfl, fun key v => by simp⟩
  | cons slot rest ih =>
    intro slots h hnew hpairwise hcount
    rw [pairwise_cons] at hpairwise
    rw [foldl_cons]
    cases slot with
    | none =>
      rw [countP_cons_of_neg (by simp)] at hcount ⊢
      obtain ⟨hvalid, hlength, hcount', hheld⟩ := ih slots h
        (fun i key v w hi hmem => hnew i key v w hi (mem_cons_of_mem _ hmem)) hpairwise.2 hcount
      refine ⟨hvalid, hlength, hcount', fun key v => (hheld key v).trans ?_⟩
      simp
    | some entry =>
      obtain ⟨key, v⟩ := entry
      rw [countP_cons_of_pos (by simp)] at hcount ⊢
      have hfresh : ∀ i w, slots.getD i none ≠ some (key, w) := fun i w hi =>
        hnew i key w v hi mem_cons_self
      have hsettle : settle hash slots (some (key, v)) = insert hash slots key v := by
        unfold settle insert slotOf
        dsimp only
        rw [probeFree_eq hfresh]
      rw [hsettle]
      obtain ⟨d, -, hslot, -, hend⟩ := slotOf_spec key h
      have hj : slotOf hash slots key < slots.length := by
        rw [hslot]
        exact Nat.mod_lt _ (by omega)
      have hnone : slots.getD (slotOf hash slots key) none = none := by
        rcases hend with hnone | ⟨w, hw⟩
        · exact hnone
        · exact absurd hw (hfresh _ w)
      have hlength : (insert hash slots key v).length = slots.length := length_set
      have hmore : (insert hash slots key v).countP Option.isSome = slots.countP Option.isSome + 1 := by
        unfold insert
        rw [countP_set_some hj, if_pos hnone]
      have hvalid := (insert_spec h key v (by
        rw [← hlength]
        exact free_of_count (by omega))).1
      have hheld : ∀ k w, (∃ i, (insert hash slots key v).getD i none = some (k, w)) ↔
          (∃ i, slots.getD i none = some (k, w)) ∨ (k = key ∧ w = v) := by
        intro k w
        constructor
        · rintro ⟨i, hi⟩
          unfold insert at hi
          rw [getD_set_cases hj] at hi
          split_ifs at hi
          · cases hi
            exact .inr ⟨rfl, rfl⟩
          · exact .inl ⟨i, hi⟩
        rintro (⟨i, hi⟩ | ⟨rfl, rfl⟩)
        · refine ⟨i, ?_⟩
          unfold insert
          rw [getD_set_cases hj, if_neg ?_, hi]
          rintro rfl
          rw [hnone] at hi
          cases hi
        refine ⟨slotOf hash slots k, ?_⟩
        unfold insert
        rw [getD_set_cases hj, if_pos rfl]
      obtain ⟨hvalid', hlength', hcount', hheld'⟩ := ih (insert hash slots key v) hvalid
        (fun i k w w' hi hmem => by
          rcases (hheld k w).mp ⟨i, hi⟩ with ⟨i', hi'⟩ | ⟨rfl, rfl⟩
          · exact hnew i' k w w' hi' (mem_cons_of_mem _ hmem)
          · exact hpairwise.1 _ hmem k w w' rfl rfl) hpairwise.2 (by omega)
      refine ⟨hvalid', hlength'.trans hlength, by omega, fun k w => (hheld' k w).trans ?_⟩
      rw [hheld, mem_cons, Option.some.injEq, Prod.mk.injEq, or_assoc]

omit [DecidableEq K] in
theorem getD_replicate_none (capacity i : Nat) :
    (List.replicate capacity (none : Option (K × V))).getD i none = none := by
  rw [getD_eq_getElem?_getD, getElem?_replicate]
  split <;> rfl

omit [DecidableEq K] in
theorem countP_replicate_none (capacity : Nat) :
    (List.replicate capacity (none : Option (K × V))).countP Option.isSome = 0 := by
  simp

omit [DecidableEq K] in
theorem valid_replicate (hash : K → Nat) {capacity : Nat} (h : 0 < capacity) :
    Valid hash (List.replicate capacity (none : Option (K × V))) := by
  refine ⟨fun i key v hi => ?_, 0, by rw [length_replicate]; exact h, getD_replicate_none _ _⟩
  rw [getD_replicate_none] at hi
  cases hi

theorem grow_spec (h : Valid hash slots) {capacity : Nat} (hroom : slots.countP Option.isSome < capacity) :
    Valid hash (slots.foldl (settle hash) (List.replicate capacity none)) ∧
      (slots.foldl (settle hash) (List.replicate capacity none)).length = capacity ∧
      (slots.foldl (settle hash) (List.replicate capacity none)).countP Option.isSome =
        slots.countP Option.isSome ∧
      ∀ key, lookup hash (slots.foldl (settle hash) (List.replicate capacity none)) key =
        lookup hash slots key := by
  have hempty : ∀ i (entry : K × V),
      (replicate capacity (none : Option (K × V))).getD i none ≠ some entry := by
    intro i entry hi
    rw [getD_replicate_none] at hi
    cases hi
  have hzero : (replicate capacity (none : Option (K × V))).countP Option.isSome = 0 :=
    countP_replicate_none capacity
  have hstart : Valid hash (replicate capacity (none : Option (K × V))) := valid_replicate hash (by omega)
  obtain ⟨hvalid, hlength, hcount, hheld⟩ := settle_spec slots (replicate capacity none) hstart
    (fun i key v w hi => absurd hi (hempty i (key, v))) h.distinct (by
      rw [hzero, length_replicate]
      omega)
  refine ⟨hvalid, hlength.trans length_replicate, by omega, fun key => Option.ext fun v => ?_⟩
  rw [lookup_iff hvalid, lookup_iff h, hheld]
  constructor
  · rintro (⟨i, hi⟩ | hmem)
    · exact absurd hi (hempty i (key, v))
    obtain ⟨i, hi, heq⟩ := getElem_of_mem hmem
    refine ⟨i, ?_⟩
    rw [getD_eq_getElem?_getD, getElem?_eq_getElem hi, heq, Option.getD_some]
  rintro ⟨i, hi⟩
  refine .inr ?_
  have hlt := getD_lt hi
  rw [getD_eq_getElem?_getD, getElem?_eq_getElem hlt, Option.getD_some] at hi
  exact hi ▸ getElem_mem hlt

end Probe
end Dyn.Lib
