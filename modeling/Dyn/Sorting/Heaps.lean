import Dyn.Sorting.Insertion

/-!
# std/sort: the heap

A heap is a slice in which no node is below its children.  `sift` repairs it at one node, as long as the
parent of that node bounds the children too; the root is then the largest element of what is left.
-/

namespace Dyn.Sorting

open List
open Lib (Ascending ascending_append)

variable {α : Type} [Inhabited α]

def item (values : List α) (i : Nat) : α := values.getD i default

def swapped (values : List α) (i j : Nat) : List α := (values.set i (item values j)).set j (item values i)

@[simp] theorem swapped_length (values : List α) (i j : Nat) : (swapped values i j).length = values.length := by
  rw [swapped, length_set, length_set]

variable {values : List α}

theorem item_eq {i : Nat} (h : i < values.length) : item values i = values[i] := by
  rw [item, getD_eq_getElem _ _ h]

theorem load_item {values : List α} {i : Nat} (h : i < values.length) : load values i = .ok (item values i) := by
  rw [load, getElem?_eq_getElem h, item_eq h]

theorem swap_eq {values : List α} {i j : Nat} (hi : i < values.length) (hj : j < values.length) :
    swap values i j = .ok (swapped values i j) := by
  simp [swap, load_item hi, load_item hj, store, hi, hj, bind, Except.bind, swapped]

theorem swapped_perm {values : List α} {i j : Nat} (hi : i < values.length) (hj : j < values.length) :
    (swapped values i j).Perm values := by
  rw [swapped, item_eq hi, item_eq hj]
  exact set_set_perm hi hj

theorem item_swapped {values : List α} {i j : Nat} (hi : i < values.length) (hj : j < values.length) (k : Nat) :
    item (swapped values i j) k = if k = j then item values i else if k = i then item values j else item values k := by
  unfold item swapped item
  by_cases hkj : k = j
  · subst hkj
    simp [hj]
  by_cases hki : k = i
  · subst hki
    simp [hkj, Ne.symm hkj, hi]
  · simp [hkj, hki, Ne.symm hkj, Ne.symm hki]

variable {lt : α → α → Bool} [IsStrictWeakOrder α fun a b => lt a b = true]

/-- A node is not below its children, as far as they are in the heap. -/
def HeapAt (lt : α → α → Bool) (values : List α) (length i : Nat) : Prop :=
  ∀ c, (c = 2 * i + 1 ∨ c = 2 * i + 2) → c < length → lt (item values i) (item values c) = false

/-- The children of a node are not above what comes before it. -/
def BoundedAt (lt : α → α → Bool) (values : List α) (length k root : Nat) : Prop :=
  ∀ p, k ≤ p → (root = 2 * p + 1 ∨ root = 2 * p + 2) →
    ∀ c, (c = 2 * root + 1 ∨ c = 2 * root + 2) → c < length → lt (item values p) (item values c) = false

theorem largerChild_spec {values : List α} {root length : Nat}
    (hlength : length ≤ values.length) (hroot : root < length / 2) :
    ∃ child, largerChild lt values root length = .ok child ∧ (child = 2 * root + 1 ∨ child = 2 * root + 2) ∧
      child < length ∧ ∀ c, (c = 2 * root + 1 ∨ c = 2 * root + 2) → c < length →
        lt (item values child) (item values c) = false := by
  have hleft := @load_item α _ values (root * 2 + 1) (by omega)
  by_cases hright : root * 2 + 1 + 1 < length
  · have hload := @load_item α _ values (root * 2 + 1 + 1) (by omega)
    cases hlt : lt (item values (root * 2 + 1)) (item values (root * 2 + 1 + 1)) with
    | true =>
      refine ⟨root * 2 + 1 + 1, by simp [largerChild, hright, hleft, hload, hlt, bind, Except.bind, pure, Except.pure],
        by omega, hright, fun c hc _ => ?_⟩
      rcases hc with rfl | rfl
      · rw [show 2 * root + 1 = root * 2 + 1 by omega]
        exact Lib.lt_asymm' hlt
      · rw [show 2 * root + 2 = root * 2 + 1 + 1 by omega]
        exact Lib.lt_irrefl' _
    | false =>
      refine ⟨root * 2 + 1, by simp [largerChild, hright, hleft, hload, hlt, bind, Except.bind, pure, Except.pure],
        by omega, by omega, fun c hc _ => ?_⟩
      rcases hc with rfl | rfl
      · rw [show 2 * root + 1 = root * 2 + 1 by omega]
        exact Lib.lt_irrefl' _
      · rw [show 2 * root + 2 = root * 2 + 1 + 1 by omega]
        exact hlt
  · refine ⟨root * 2 + 1, by simp [largerChild, hright, pure, Except.pure], by omega, by omega, fun c hc hlt => ?_⟩
    rcases hc with rfl | rfl
    · rw [show 2 * root + 1 = root * 2 + 1 by omega]
      exact Lib.lt_irrefl' _
    · omega

theorem sift_step {k root length child : Nat} (hlength : length ≤ values.length) (hk : k ≤ root)
    (hroot : root < length) (hchild : child = 2 * root + 1 ∨ child = 2 * root + 2)
    (hlt : child < length)
    (hlarger : ∀ c, (c = 2 * root + 1 ∨ c = 2 * root + 2) → c < length → lt (item values child) (item values c) = false)
    (hbelow : lt (item values root) (item values child) = true)
    (hheap : ∀ i, k ≤ i → i ≠ root → HeapAt lt values length i)
    (hbound : BoundedAt lt values length k root) :
    (∀ i, k ≤ i → i ≠ child → HeapAt lt (swapped values root child) length i) ∧
      BoundedAt lt (swapped values root child) length k child := by
  have hitem := @item_swapped α _ values root child (by omega) (by omega)
  constructor
  · intro i hi hne c hc hcl
    rw [hitem, hitem, if_neg hne]
    by_cases hir : i = root
    · subst hir
      rw [if_pos rfl]
      split
      · exact Lib.lt_asymm' hbelow
      · rw [if_neg (by omega)]
        exact hlarger c hc hcl
    rw [if_neg hir, if_neg (by omega)]
    split_ifs with hcr
    · subst hcr
      exact hbound i hi hc child hchild hlt
    · exact hheap i hi hir c hc hcl
  · intro p hp hpc c hc hcl
    obtain rfl : p = root := by omega
    rw [hitem, hitem, if_neg (by omega), if_pos rfl, if_neg (by omega), if_neg (by omega)]
    exact hheap child (by omega) (by omega) c hc hcl

theorem sift_spec (values : List α) (k root length turns : Nat) (hturns : length < turns + root)
    (hle : root ≤ length) (hlength : length ≤ values.length) (hk : k ≤ root)
    (hheap : ∀ i, k ≤ i → i ≠ root → HeapAt lt values length i) (hbound : BoundedAt lt values length k root) :
    ∃ result, sift lt turns values root length = .ok result ∧ result.Perm values ∧
      (∀ i, length ≤ i → item result i = item values i) ∧ ∀ i, k ≤ i → HeapAt lt result length i := by
  induction turns generalizing values root with
  | zero => omega
  | succ turns ih =>
    rw [sift]
    split_ifs with hroot
    · obtain ⟨child, hlargerChild, hchild, hlt, hlarger⟩ := @largerChild_spec α _ lt _ _ _ _ hlength hroot
      have hload := @load_item α _ values root (by omega)
      have hload' := @load_item α _ values child (by omega)
      cases hbelow : lt (item values root) (item values child) with
      | false =>
        refine ⟨values, by simp [hlargerChild, hload, hload', hbelow, bind, Except.bind, pure, Except.pure],
          List.Perm.refl _, fun _ _ => rfl, fun i hi => ?_⟩
        by_cases hir : i = root
        · subst hir
          intro c hc hcl
          exact Lib.not_lt_trans (hlarger c hc hcl) hbelow
        · exact hheap i hi hir
      | true =>
        have hswap := @swap_eq α _ values root child (by omega) (by omega)
        obtain ⟨hheap', hbound'⟩ := sift_step hlength hk (by omega) hchild hlt hlarger hbelow hheap hbound
        obtain ⟨result, hsift, hperm, hframe, hresult⟩ := ih (swapped values root child) child (by omega) (by omega)
          (by rw [swapped_length]; exact hlength) (by omega) hheap' hbound'
        refine ⟨result, by simp [hlargerChild, hload, hload', hbelow, hswap, hsift, bind, Except.bind],
          hperm.trans (swapped_perm (by omega) (by omega)), fun i hi => ?_, hresult⟩
        rw [hframe i hi, item_swapped (by omega) (by omega), if_neg (by omega), if_neg (by omega)]
    · refine ⟨values, rfl, List.Perm.refl _, fun _ _ => rfl, fun i hi => ?_⟩
      by_cases hir : i = root
      · subst hir
        intro c hc hcl
        omega
      · exact hheap i hi hir

theorem heapLoop_spec {values : List α} {length parent : Nat} (hlength : length ≤ values.length) (hle : parent ≤ length)
    (hheap : ∀ i, parent ≤ i → HeapAt lt values length i) :
    ∃ result, heapLoop lt length parent values = .ok result ∧ result.Perm values ∧ ∀ i, HeapAt lt result length i := by
  induction parent generalizing values with
  | zero => exact ⟨values, rfl, List.Perm.refl _, fun i => hheap i (Nat.zero_le _)⟩
  | succ parent ih =>
    obtain ⟨result, hsift, hperm, -, hresult⟩ := @sift_spec α _ lt _ values parent parent length (length + 1) (by omega) (by omega) hlength
      (le_refl parent) (fun i hi hne => hheap i (by omega)) (fun p hp hpr => by omega)
    obtain ⟨result', hloop, hperm', hresult'⟩ := ih (by rw [hperm.length_eq]; exact hlength) (by omega) hresult
    exact ⟨result', by simp [heapLoop, hsift, hloop, bind, Except.bind], hperm'.trans hperm, hresult'⟩

theorem not_lt_root {length : Nat} (h : ∀ i, HeapAt lt values length i) (i : Nat) (hi : i < length) :
    lt (item values 0) (item values i) = false := by
  induction i using Nat.strong_induction_on with
  | _ i ih =>
    by_cases hzero : i = 0
    · rw [hzero]
      exact Lib.lt_irrefl' _
    · have hparent := ih ((i - 1) / 2) (by omega) (by omega)
      exact Lib.not_lt_trans (h ((i - 1) / 2) i (by omega) hi) hparent

/-- What is in front of an unchanged back has been in front of it. -/
theorem front_item {values' : List α} {n : Nat} (hperm : values'.Perm values)
    (hn : n ≤ values.length) (hframe : ∀ i, n ≤ i → item values' i = item values i) {i : Nat}
    (hi : i < n) : ∃ j, j < n ∧ item values' i = item values j := by
  have hlength := hperm.length_eq
  have hdrop : values'.drop n = values.drop n := by
    refine ext_getElem (by simp [hlength]) fun k hk hk' => ?_
    rw [length_drop] at hk hk'
    have h := hframe (n + k) (by omega)
    rw [item_eq (by omega), item_eq (by omega)] at h
    rw [getElem_drop, getElem_drop]
    exact h
  have htake : (values'.take n).Perm (values.take n) := by
    rw [← take_append_drop n values', ← take_append_drop n values, hdrop] at hperm
    exact (perm_append_right_iff _).1 hperm
  have hmem : item values' i ∈ values'.take n := by
    rw [item_eq (by omega)]
    exact mem_take_iff_getElem.2 ⟨i, by omega, rfl⟩
  obtain ⟨j, hj, hitem⟩ := mem_take_iff_getElem.1 (htake.mem_iff.1 hmem)
  exact ⟨j, by omega, by rw [item_eq (by omega : j < values.length), hitem]⟩

/-- The heap in front, and what has been taken from it in order behind. -/
structure Drained (lt : α → α → Bool) (values : List α) (stop : Nat) : Prop where
  le : stop ≤ values.length
  heap : ∀ i, HeapAt lt values stop i
  back : ∀ i j, stop ≤ i → i < j → j < values.length → lt (item values j) (item values i) = false
  cross : ∀ i j, i < stop → stop ≤ j → j < values.length → lt (item values j) (item values i) = false

theorem Drained.step {values : List α} {stop : Nat} (h : Drained lt values (stop + 1)) (hpos : 0 < stop) :
    ∃ result, (do sift lt (stop + 1) (← swap values 0 stop) 0 stop) = .ok result ∧ result.Perm values ∧
      Drained lt result stop := by
  have hle := h.le
  have hswap := @swap_eq α _ values 0 stop (by omega) (by omega)
  have hitem := @item_swapped α _ values 0 stop (by omega) (by omega)
  have hswapped := @swapped_perm α _ values 0 stop (by omega) (by omega)
  have hroot := not_lt_root h.heap
  obtain ⟨result, hsift, hperm, hframe, hheap⟩ := @sift_spec α _ lt _ (swapped values 0 stop) 0 0 stop (stop + 1)
    (by omega) (by omega) (by rw [swapped_length]; omega)
    (le_refl 0) (fun i _ hne c hc hcl => by
      rw [hitem, hitem]
      by_cases his : i = stop
      · omega
      · rw [if_neg his, if_neg hne, if_neg (by omega), if_neg (by omega)]
        exact h.heap i c hc (by omega)) (fun p hp hpr => by omega)
  have hlast : item result stop = item values 0 := by rw [hframe stop le_rfl, hitem, if_pos rfl]
  have hback : ∀ j, stop < j → item result j = item values j := fun j hj => by
    rw [hframe j (by omega), hitem, if_neg (by omega), if_neg (by omega)]
  have hfront : ∀ i, i < stop → ∃ i', i' < stop + 1 ∧ item result i = item values i' := by
    intro i hi
    obtain ⟨j, hj, hij⟩ := front_item hperm (by rw [swapped_length]; omega) hframe hi
    rw [hitem, if_neg (by omega)] at hij
    by_cases hzero : j = 0
    · exact ⟨stop, by omega, by rw [hij, if_pos hzero]⟩
    · exact ⟨j, by omega, by rw [hij, if_neg hzero]⟩
  have hlength : result.length = values.length := by rw [hperm.length_eq, swapped_length]
  refine ⟨result, by simp [hswap, hsift, bind, Except.bind], hperm.trans hswapped, by omega, fun i => hheap i (Nat.zero_le _),
    fun i j hi hij hj => ?_, fun i j hi hj hjl => ?_⟩
  · rw [hback j (by omega)]
    by_cases his : i = stop
    · rw [his, hlast]
      exact h.cross 0 j (by omega) (by omega) (by omega)
    · rw [hback i (by omega)]
      exact h.back i j (by omega) hij (by omega)
  obtain ⟨i', hi', hii'⟩ := hfront i hi
  rw [hii']
  by_cases hjs : j = stop
  · rw [hjs, hlast]
    exact hroot i' hi'
  · rw [hback j (by omega)]
    exact h.cross i' j hi' (by omega) (by omega)

omit [IsStrictWeakOrder α fun a b => lt a b = true] in
theorem Drained.ascending {values : List α} {stop : Nat} (h : Drained lt values stop) (hstop : stop ≤ 1) :
    Ascending lt values := by
  refine pairwise_iff_getElem.2 fun i j hi hj hij => ?_
  rw [← item_eq hi, ← item_eq hj]
  by_cases his : stop ≤ i
  · exact h.back i j his hij hj
  · exact h.cross i j (by omega) (by omega) hj

theorem drainLoop_spec {stop : Nat} (h : Drained lt values stop) :
    ∃ result, drainLoop lt stop values = .ok result ∧ result.Perm values ∧ Ascending lt result := by
  induction stop generalizing values with
  | zero => exact ⟨values, rfl, List.Perm.refl _, h.ascending (by omega)⟩
  | succ stop ih =>
    by_cases hstop : stop + 1 > 1
    · obtain ⟨result, hstep, hperm, hdrained⟩ := h.step (by omega)
      obtain ⟨result', hloop, hperm', hascending⟩ := ih hdrained
      refine ⟨result', ?_, hperm'.trans hperm, hascending⟩
      obtain ⟨swappedValues, hswap, hsift⟩ : ∃ v, swap values 0 stop = .ok v ∧ sift lt (stop + 1) v 0 stop = .ok result := by
        cases hs : swap values 0 stop with
        | error e =>
          rw [hs] at hstep
          cases hstep
        | ok v => exact ⟨v, rfl, by rw [hs] at hstep; exact hstep⟩
      rw [drainLoop, if_pos hstop]
      simp only [bind, Except.bind, hswap, hsift, hloop]
    · rw [drainLoop, if_neg hstop]
      exact ⟨values, rfl, List.Perm.refl _, h.ascending (by omega)⟩

theorem heap_spec (values : List α) :
    ∃ result, heap lt values = .ok result ∧ result.Perm values ∧ Ascending lt result := by
  obtain ⟨heaped, hloop, hperm, hheap⟩ := @heapLoop_spec α _ lt _ values values.length (values.length / 2)
    le_rfl (by omega) (fun i hi c hc hcl => by omega)
  have hdrained : Drained lt heaped values.length :=
    ⟨by rw [hperm.length_eq], hheap, fun i j hi hij hj => by rw [hperm.length_eq] at hj; omega,
      fun i j hi hj hjl => by rw [hperm.length_eq] at hjl; omega⟩
  obtain ⟨result, hdrain, hperm', hascending⟩ := drainLoop_spec hdrained
  exact ⟨result, by simp [heap, hloop, hdrain, bind, Except.bind], hperm'.trans hperm, hascending⟩

end Dyn.Sorting
