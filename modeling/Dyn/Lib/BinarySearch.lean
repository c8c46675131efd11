import Mathlib.Tactic

/-!
# Binary search

The loop that halves an interval finds the first element that is not below, when the elements
below come first; a scan from the left finds the same.
-/

namespace Dyn.Lib

open List

/-- The loop, with at most as many turns as its first argument says. -/
def searchLoop (below : Nat → Bool) : Nat → Nat → Nat → Nat
  | 0, first, _ => first
  | fuel + 1, first, last =>
      if first < last then
        if below (first + (last - first) / 2) then
          searchLoop below fuel (first + (last - first) / 2 + 1) last
        else
          searchLoop below fuel first (first + (last - first) / 2)
      else first

theorem searchLoop_eq {below : Nat → Bool} {k : Nat} (fuel first last : Nat)
    (hfuel : last - first ≤ fuel) (hfirst : first ≤ k) (hlast : k ≤ last)
    (hbelow : ∀ i, i < k → below i = true) (habove : ∀ i, k ≤ i → i < last → below i = false) :
    searchLoop below fuel first last = k := by
  induction fuel generalizing first last with
  | zero =>
    rw [searchLoop]
    omega
  | succ fuel ih =>
    rw [searchLoop]
    split
    · rename_i hlt
      have hmiddle : first + (last - first) / 2 < last := by omega
      by_cases hk : first + (last - first) / 2 < k
      · rw [if_pos (hbelow _ hk)]
        exact ih _ _ (by omega) hk hlast habove
      have hnot : below (first + (last - first) / 2) = false := habove _ (by omega) hmiddle
      rw [hnot, if_neg Bool.false_ne_true]
      exact ih _ _ (by omega) hfirst (by omega) fun i hi hlt => habove i hi (by omega)
    · omega

section Lists

variable {α : Type} (below : α → Bool)

def lowerBound (xs : List α) : Nat :=
  searchLoop (fun i => (xs[i]?).any below) xs.length 0 xs.length

variable {below}

variable {xs : List α}

/-- **A search finds what a scan finds**, when the elements below come first. -/
theorem lowerBound_eq_findIdx (h : xs.Pairwise fun a b => below b = true → below a = true) :
    lowerBound below xs = xs.findIdx fun a => !below a := by
  refine searchLoop_eq _ _ _ (Nat.sub_zero _).le (Nat.zero_le _) findIdx_le_length ?_ ?_
  · intro i hi
    have hlt : i < xs.length := Nat.lt_of_lt_of_le hi findIdx_le_length
    have hnot := not_of_lt_findIdx hi
    rw [getElem?_eq_getElem hlt]
    simpa using hnot
  intro i hi hlt
  have hk : xs.findIdx (fun a => !below a) < xs.length := lt_of_le_of_lt hi hlt
  have hfirst : (!below xs[xs.findIdx fun a => !below a]) = true := findIdx_getElem (w := hk)
  rw [getElem?_eq_getElem hlt, Option.any_some]
  rcases Nat.lt_or_eq_of_le hi with hlt' | heq
  · have hpair := pairwise_iff_getElem.mp h _ _ hk hlt hlt'
    cases hb : below xs[i] with
    | false => rfl
    | true =>
      rw [hpair hb] at hfirst
      cases hfirst
  · subst heq
    simpa using hfirst

theorem getElem?_lowerBound (h : xs.Pairwise fun a b => below b = true → below a = true) :
    xs[lowerBound below xs]? = xs.find? fun a => !below a := by
  rw [lowerBound_eq_findIdx h, find?_eq_getElem?_findIdx]

/-- A member of a sorted list is found in the window that its key lies in. -/
theorem mem_window {key : α → Nat} {start stop : Nat} : ∀ {xs : List α},
    xs.Pairwise (fun a b => key a < key b) → ∀ {a : α}, a ∈ xs → start < key a → key a < stop →
    a ∈ (xs.dropWhile fun a => decide (key a ≤ start)).takeWhile fun a => decide (key a < stop)
  | [], _, a, ha, _, _ => absurd ha not_mem_nil
  | x :: xs, hsorted, a, ha, hstart, hstop => by
    obtain ⟨-, hrest⟩ := pairwise_cons.mp hsorted
    by_cases hbelow : key x ≤ start
    · rw [dropWhile_cons_of_pos (by simpa using hbelow)]
      refine mem_window hrest ((mem_cons.mp ha).resolve_left ?_) hstart hstop
      rintro rfl
      omega
    rw [dropWhile_cons_of_neg (by simpa using hbelow)]
    have hall : ∀ ys : List α, ys.Pairwise (fun a b => key a < key b) → a ∈ ys →
        a ∈ ys.takeWhile fun a => decide (key a < stop) := by
      intro ys
      induction ys with
      | nil => exact fun _ h => h
      | cons y ys ih =>
        intro hys hmem
        obtain ⟨hy, hys⟩ := pairwise_cons.mp hys
        rcases mem_cons.mp hmem with rfl | hmem
        · rw [takeWhile_cons_of_pos (by simpa using hstop)]
          exact mem_cons_self
        · rw [takeWhile_cons_of_pos (by simpa using (hy a hmem).trans hstop)]
          exact mem_cons_of_mem y (ih hys hmem)
    exact hall _ hsorted ha

/-- Among intervals that begin in order, the first that does not end before a position contains it,
or none does. -/
theorem find?_contains (start stop : α → Nat) (h : xs.Pairwise fun a b => start a ≤ start b)
    (position : Nat) :
    xs.find? (fun a => decide (start a ≤ position ∧ position ≤ stop a)) =
      (xs.find? fun a => !decide (stop a < position)).filter fun a => decide (start a ≤ position) := by
  induction xs with
  | nil => rfl
  | cons a xs ih =>
    obtain ⟨hstart, hrest⟩ := pairwise_cons.mp h
    by_cases hstop : stop a < position
    · rw [find?_cons_of_neg (by simpa using fun _ => hstop),
        find?_cons_of_neg (by simpa using hstop)]
      exact ih hrest
    rw [find?_cons_of_pos (a := a) (p := fun a => !decide (stop a < position)) (by simpa using hstop)]
    by_cases hin : start a ≤ position
    · rw [find?_cons_of_pos (by simpa using ⟨hin, Nat.not_lt.mp hstop⟩), Option.filter_some,
        if_pos (decide_eq_true hin)]
    have hnone : (a :: xs).find? (fun a => decide (start a ≤ position ∧ position ≤ stop a)) = none := by
      refine find?_eq_none.mpr fun b hb => ?_
      have hle : start a ≤ start b := by
        rcases mem_cons.mp hb with rfl | hb
        · exact le_rfl
        · exact hstart b hb
      simpa using fun hc : start b ≤ position => absurd (hle.trans hc) hin
    rw [hnone, Option.filter_some, if_neg (by simpa using hin)]

end Lists

end Dyn.Lib
