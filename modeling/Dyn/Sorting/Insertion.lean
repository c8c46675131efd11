import Dyn.Sorting.Introsort
import Dyn.Lib.WeakOrder
import Mathlib.Tactic

/-!
# std/sort: indices, insertion and the partition

Reads and writes in range, and the two loops that work on lists cut at their indices: the insertion of an
element into the sorted front, and the partition with its four parts.
-/

namespace Dyn.Sorting

open List
open Lib (Ascending ascending_append)

variable {α : Type}

variable (front back : List α)

theorem load_append (x : α) : load (front ++ x :: back) front.length = .ok x := by
  rw [load, getElem?_append_right le_rfl, Nat.sub_self]
  rfl

theorem store_append (x y : α) :
    store (front ++ x :: back) front.length y = .ok (front ++ y :: back) := by
  rw [store, if_pos (by simp), set_append_right _ _ le_rfl, Nat.sub_self]
  rfl

theorem swap_same (x : α) :
    swap (front ++ x :: back) front.length front.length = .ok (front ++ x :: back) := by
  simp [swap, load_append, store_append, bind, Except.bind]

theorem swap_append (middle back : List α) (x y : α) :
    swap (front ++ x :: (middle ++ y :: back)) front.length (front.length + 1 + middle.length) =
        .ok (front ++ y :: (middle ++ x :: back)) ∧
      swap (front ++ x :: (middle ++ y :: back)) (front.length + 1 + middle.length) front.length =
        .ok (front ++ y :: (middle ++ x :: back)) := by
  have hload := load_append (front ++ x :: middle) back y
  have hstore := store_append (front ++ y :: middle) back y x
  have hstore' := store_append (front ++ x :: middle) back y x
  have hlength : front.length + (middle.length + 1) = front.length + 1 + middle.length := by omega
  simp only [append_assoc, cons_append, length_append, length_cons, hlength] at hload hstore hstore'
  simp [swap, load_append, store_append, hload, hstore, hstore', bind, Except.bind]

variable {lt : α → α → Bool} [IsStrictWeakOrder α fun a b => lt a b = true]

omit [IsStrictWeakOrder α fun a b => lt a b = true] in
theorem shift_spec (front back : List α) (hole value : α) :
    ∃ front1 front2 hole', front = front1 ++ front2 ∧
      shift lt front.length (front ++ hole :: back) value = .ok (front1 ++ hole' :: (front2 ++ back), front1.length) ∧
      (∀ a ∈ front2, lt value a = true) ∧ (∀ a, front1.getLast? = some a → lt value a = false) := by
  induction front using reverseRecOn generalizing hole back with
  | nil => exact ⟨[], [], hole, rfl, rfl, by simp, by simp⟩
  | append_singleton front before ih =>
    have hload : load (front ++ [before] ++ hole :: back) front.length = .ok before := by
      rw [append_assoc]
      exact load_append front (hole :: back) before
    rw [length_append, length_singleton, shift, hload]
    cases hlt : lt value before with
    | true =>
      have hstore : store (front ++ [before] ++ hole :: back) (front.length + 1) before =
          .ok (front ++ before :: before :: back) := by
        have h := store_append (front ++ [before]) back hole before
        rw [length_append, length_singleton] at h
        rw [h]
        simp
      obtain ⟨front1, front2, hole', rfl, hshift, hlarger, hlast⟩ := ih (before :: back) before
      refine ⟨front1, front2 ++ [before], hole', by simp, ?_, ?_, hlast⟩
      · simp only [bind, Except.bind, hlt, if_true, hstore, hshift]
        simp
      intro a ha
      rcases mem_append.1 ha with ha | ha
      · exact hlarger a ha
      · rw [mem_singleton.1 ha]
        exact hlt
    | false =>
      refine ⟨front ++ [before], [], hole, by simp, ?_, by simp, ?_⟩
      · simp [bind, Except.bind, hlt, pure, Except.pure]
      intro a ha
      simp at ha
      rw [← ha]
      exact hlt

theorem not_lt_of_last {front : List α} {value : α} (h : Ascending lt front)
    (hlast : ∀ a, front.getLast? = some a → lt value a = false) {a : α} (ha : a ∈ front) : lt value a = false := by
  induction front using reverseRecOn with
  | nil => cases ha
  | append_singleton front last ih =>
    have hvalue : lt value last = false := hlast last (by simp)
    rcases mem_append.1 ha with ha | ha
    · exact Lib.not_lt_trans ((ascending_append.1 h).2.2 a ha last mem_cons_self) hvalue
    · rw [mem_singleton.1 ha]
      exact hvalue

theorem ascending_insert {front1 front2 : List α} {value : α} (h : Ascending lt (front1 ++ front2))
    (hlarger : ∀ a ∈ front2, lt value a = true) (hlast : ∀ a, front1.getLast? = some a → lt value a = false) :
    Ascending lt (front1 ++ value :: front2) := by
  obtain ⟨hfront1, hfront2, hcross⟩ := ascending_append.1 h
  refine ascending_append.2 ⟨hfront1, pairwise_cons.2 ⟨fun b hb => Lib.lt_asymm' (hlarger b hb), hfront2⟩, ?_⟩
  intro a ha b hb
  rcases mem_cons.1 hb with rfl | hb
  · exact not_lt_of_last hfront1 hlast ha
  · exact hcross a ha b hb

theorem insertionLoop_spec {front : List α} (h : Ascending lt front) :
    ∃ result, insertionLoop lt back.length (front ++ back) front.length = .ok result ∧
      result.Perm (front ++ back) ∧ Ascending lt result := by
  induction back generalizing front with
  | nil => exact ⟨front ++ [], rfl, List.Perm.refl _, by rw [append_nil]; exact h⟩
  | cons value back ih =>
    obtain ⟨front1, front2, hole, rfl, hshift, hlarger, hlast⟩ := @shift_spec α lt front back value value
    obtain ⟨result, hloop, hperm, hresult⟩ := ih (ascending_insert h hlarger hlast)
    refine ⟨result, ?_, hperm.trans ?_, hresult⟩
    · rw [length_cons, insertionLoop, load_append]
      have hlength : (front1 ++ value :: front2).length = (front1 ++ front2).length + 1 := by
        simp only [length_append, length_cons]
        omega
      rw [hlength, append_assoc, cons_append] at hloop
      simp only [bind, Except.bind, hshift, store_append, hloop]
    have hmiddle : (front1 ++ value :: front2).Perm (front1 ++ front2 ++ [value]) := by
      rw [append_assoc]
      exact List.Perm.append_left _ (perm_append_singleton value front2).symm
    have hback := List.Perm.append_right back hmiddle
    rw [append_assoc (front1 ++ front2)] at hback
    exact hback

theorem insertion_spec (values : List α) :
    ∃ result, insertion lt values = .ok result ∧ result.Perm values ∧ Ascending lt result := by
  cases values with
  | nil => exact ⟨[], rfl, List.Perm.refl _, Lib.ascending_nil⟩
  | cons first rest => exact insertionLoop_spec rest (Lib.ascending_singleton first)

/-- What a partition leaves: elements below the pivot, equivalent ones, and those above it. -/
structure Parted (lt : α → α → Bool) (pivot : α) (values : List α) (p : Partition α) : Prop where
  perm : p.values.Perm values
  parts : ∃ below equal above, p.values = below ++ (equal ++ above) ∧ p.lower = below.length ∧
    p.upper = below.length + equal.length ∧ (∀ a ∈ below, lt a pivot = true) ∧
    (∀ a ∈ equal, lt a pivot = false ∧ lt pivot a = false) ∧ ∀ a ∈ above, lt pivot a = true

omit [IsStrictWeakOrder α fun a b => lt a b = true] in
theorem Parted.of_perm {pivot : α} {values values' : List α} {p : Partition α} (h : Parted lt pivot values p)
    (hperm : values.Perm values') : Parted lt pivot values' p := ⟨h.perm.trans hperm, h.parts⟩

theorem exchange_perm (middle back : List α) (x y : α) :
    (front ++ y :: (middle ++ x :: back)).Perm (front ++ x :: (middle ++ y :: back)) := by
  refine List.Perm.append_left _ ?_
  have hx : (y :: (middle ++ x :: back)).Perm (y :: x :: (middle ++ back)) := List.Perm.cons _ perm_middle
  have hy : (x :: y :: (middle ++ back)).Perm (x :: (middle ++ y :: back)) := List.Perm.cons _ perm_middle.symm
  exact hx.trans ((List.Perm.swap x y _).trans hy)

omit [IsStrictWeakOrder α fun a b => lt a b = true] in
theorem partitionLoop_spec {pivot : α} {turns lower cursor upper : Nat} {values below equal unseen above : List α}
    (hturns : unseen.length < turns) (hvalues : values = below ++ (equal ++ (unseen ++ above)))
    (hlower : lower = below.length) (hcursor : cursor = below.length + equal.length)
    (hupper : upper = below.length + equal.length + unseen.length) (hbelow : ∀ a ∈ below, lt a pivot = true)
    (hequal : ∀ a ∈ equal, lt a pivot = false ∧ lt pivot a = false) (habove : ∀ a ∈ above, lt pivot a = true) :
    ∃ p, partitionLoop lt pivot turns values lower cursor upper = .ok p ∧ Parted lt pivot values p := by
  induction turns generalizing values lower cursor upper below equal unseen above with
  | zero => omega
  | succ turns ih =>
    cases unseen with
    | nil =>
      rw [length_nil] at hupper
      rw [partitionLoop, if_neg (by omega)]
      exact ⟨_, rfl, List.Perm.refl _, below, equal, above, hvalues, hlower, hupper, hbelow, hequal, habove⟩
    | cons value unseen =>
      rw [length_cons] at hturns hupper
      have hload : load values cursor = .ok value := by
        have h := load_append (below ++ equal) (unseen ++ above) value
        rw [length_append, append_assoc] at h
        rw [hvalues, hcursor]
        exact h
      rw [partitionLoop, if_pos (by omega), hload]
      cases hlow : lt value pivot with
      | true =>
        have hbelow' : ∀ a ∈ below ++ [value], lt a pivot = true := by
          intro a ha
          rcases mem_append.1 ha with ha | ha
          · exact hbelow a ha
          · rw [mem_singleton.1 ha]
            exact hlow
        cases equal with
        | nil =>
          rw [length_nil] at hcursor hupper
          have hswap : swap values lower cursor = .ok values := by
            rw [hvalues, hlower, hcursor]
            exact swap_same below (unseen ++ above) value
          simp only [bind, Except.bind, hlow, if_true, hswap]
          exact @ih (lower + 1) (cursor + 1) upper values (below ++ [value]) [] unseen above (by omega)
            (by simp [hvalues]) (by simp [hlower]) (by simp [hcursor]) (by simp [hupper]; omega) hbelow' hequal
            habove
        | cons e es =>
          rw [length_cons] at hcursor hupper
          have hswap : swap values lower cursor = .ok (below ++ value :: (es ++ e :: (unseen ++ above))) := by
            have h := (swap_append below es (unseen ++ above) e value).1
            rw [hvalues, hlower, hcursor, show below.length + (es.length + 1) = below.length + 1 + es.length by omega]
            exact h
          have hequal' : ∀ a ∈ es ++ [e], lt a pivot = false ∧ lt pivot a = false := fun a ha =>
            hequal a ((perm_append_singleton e es).mem_iff.1 ha)
          have hperm : (below ++ value :: (es ++ e :: (unseen ++ above))).Perm values := by
            rw [hvalues]
            exact exchange_perm below es (unseen ++ above) e value
          simp only [bind, Except.bind, hlow, if_true, hswap]
          obtain ⟨p, hloop, hparted⟩ := @ih (lower + 1) (cursor + 1) upper
            (below ++ value :: (es ++ e :: (unseen ++ above))) (below ++ [value]) (es ++ [e]) unseen above
            (by omega) (by simp) (by simp [hlower]) (by simp [hcursor]; omega) (by simp [hupper]; omega) hbelow'
            hequal' habove
          exact ⟨p, hloop, hparted.of_perm hperm⟩
      | false =>
        cases hhigh : lt pivot value with
        | true =>
          have habove' : ∀ a ∈ value :: above, lt pivot a = true := by
            intro a ha
            rcases mem_cons.1 ha with rfl | ha
            · exact hhigh
            · exact habove a ha
          simp only [bind, Except.bind, hlow, hhigh, if_true, Bool.false_eq_true, if_false]
          rcases eq_nil_or_concat unseen with rfl | ⟨unseen, y, rfl⟩
          · have hswap : swap values (upper - 1) cursor = .ok values := by
              have h := swap_same (below ++ equal) above value
              rw [length_append, append_assoc] at h
              rw [hvalues, hupper, hcursor]
              exact h
            rw [hswap]
            exact @ih lower cursor (upper - 1) values below equal [] (value :: above) (by simp; omega) hvalues
              hlower hcursor (by simp [hupper]) hbelow hequal habove'
          rw [concat_eq_append] at hvalues hturns hupper
          rw [length_append, length_singleton] at hturns hupper
          have hswap : swap values (upper - 1) cursor =
              .ok (below ++ (equal ++ y :: (unseen ++ value :: above))) := by
            have h := (swap_append (below ++ equal) unseen above value y).2
            rw [length_append] at h
            rw [hvalues, hupper, hcursor, show below.length + equal.length + (unseen.length + 1 + 1) - 1 =
              below.length + equal.length + 1 + unseen.length by omega]
            simpa using h
          have hperm : (below ++ (equal ++ y :: (unseen ++ value :: above))).Perm values := by
            have h := exchange_perm (below ++ equal) unseen above value y
            rw [hvalues]
            simpa using h
          rw [hswap]
          obtain ⟨p, hloop, hparted⟩ := @ih lower cursor (upper - 1)
            (below ++ (equal ++ y :: (unseen ++ value :: above))) below equal (y :: unseen) (value :: above)
            (by rw [length_cons]; omega) (by simp) hlower hcursor (by rw [length_cons]; omega) hbelow
            hequal habove'
          exact ⟨p, hloop, hparted.of_perm hperm⟩
        | false =>
          have hequal' : ∀ a ∈ equal ++ [value], lt a pivot = false ∧ lt pivot a = false := by
            intro a ha
            rcases mem_append.1 ha with ha | ha
            · exact hequal a ha
            · rw [mem_singleton.1 ha]
              exact ⟨hlow, hhigh⟩
          simp only [bind, Except.bind, hlow, hhigh, Bool.false_eq_true, if_false]
          exact @ih lower (cursor + 1) upper values below (equal ++ [value]) unseen above (by omega)
            (by simp [hvalues]) hlower (by simp [hcursor, add_assoc]) (by simp [hupper]; omega) hbelow hequal'
            habove

end Dyn.Sorting
