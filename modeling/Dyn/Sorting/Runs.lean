import Dyn.Sorting.Heaps
import Dyn.Lib.BinarySearch

/-!
# std/sort: what sorting and searching give

Introsort by its depth, the fast paths of `sort`, and the search in what has been sorted.
-/

namespace Dyn.Sorting

open List
open Lib (Ascending ascending_append ascending_cons_cons)

variable {α : Type} {lt : α → α → Bool} [IsStrictWeakOrder α fun a b => lt a b = true]

omit [IsStrictWeakOrder α fun a b => lt a b = true] in
theorem swapIfLess_spec [Inhabited α] {values : List α} {i j : Nat} (hi : i < values.length) (hj : j < values.length) :
    ∃ result, swapIfLess lt values i j = .ok result ∧ result.Perm values := by
  cases hlt : lt (item values j) (item values i) with
  | true =>
    exact ⟨_, by simp [swapIfLess, load_item hi, load_item hj, hlt, swap_eq hi hj, bind, Except.bind], swapped_perm hi hj⟩
  | false =>
    exact ⟨values, by simp [swapIfLess, load_item hi, load_item hj, hlt, bind, Except.bind, pure, Except.pure],
      List.Perm.refl _⟩

omit [IsStrictWeakOrder α fun a b => lt a b = true] in
/-- The pivot is the middle one of three elements, but any would do. -/
theorem partition_spec [Inhabited α] {values : List α} (hpos : 0 < values.length) :
    ∃ pivot p, partition lt values = .ok p ∧ Parted lt pivot values p := by
  obtain ⟨first, hfirst, hperm1⟩ := @swapIfLess_spec α lt _ values 0 (values.length / 2) hpos (by omega)
  have hlength1 := hperm1.length_eq
  obtain ⟨second, hsecond, hperm2⟩ := @swapIfLess_spec α lt _ first (values.length / 2) (values.length - 1) (by omega)
    (by omega)
  have hlength2 := hperm2.length_eq
  obtain ⟨third, hthird, hperm3⟩ := @swapIfLess_spec α lt _ second 0 (values.length / 2) (by omega) (by omega)
  have hlength3 := hperm3.length_eq
  have hload := @load_item α _ third (values.length / 2) (by omega)
  obtain ⟨p, hloop, hparted⟩ := @partitionLoop_spec α lt (item third (values.length / 2)) (third.length + 1) 0 0 third.length
    third [] [] third [] (by omega) (by simp) rfl rfl (by simp) (by simp) (by simp) (by simp)
  refine ⟨_, p, ?_, hparted.of_perm (hperm3.trans (hperm2.trans hperm1))⟩
  simp [partition, hfirst, hsecond, hthird, hload, hloop, bind, Except.bind]

/-- Sorted sides around the elements that are equivalent to the pivot. -/
theorem ascending_sides {pivot : α} {below equal above below' above' : List α} (hbelow : ∀ a ∈ below, lt a pivot = true)
    (hequal : ∀ a ∈ equal, lt a pivot = false ∧ lt pivot a = false) (habove : ∀ a ∈ above, lt pivot a = true)
    (hperm : below'.Perm below) (hperm' : above'.Perm above) (hsorted : Ascending lt below') (hsorted' : Ascending lt above') :
    Ascending lt (below' ++ equal ++ above') := by
  have hlow : ∀ a ∈ below', lt pivot a = false := fun a ha => Lib.lt_asymm' (hbelow a (hperm.mem_iff.1 ha))
  have hhigh : ∀ a ∈ above', lt a pivot = false := fun a ha => Lib.lt_asymm' (habove a (hperm'.mem_iff.1 ha))
  have hmiddle : Ascending lt equal := by
    refine List.Pairwise.imp_of_mem (fun {a b} ha hb _ => ?_) (pairwise_of_forall fun _ _ => trivial)
    exact Lib.not_lt_trans (hequal a ha).2 (hequal b hb).1
  refine ascending_append.2 ⟨ascending_append.2 ⟨hsorted, hmiddle, fun a ha b hb => ?_⟩, hsorted', fun a ha b hb => ?_⟩
  · exact Lib.not_lt_trans (hlow a ha) (hequal b hb).1
  rcases mem_append.1 ha with ha | ha
  · exact Lib.not_lt_trans (hlow a ha) (hhigh b hb)
  · exact Lib.not_lt_trans (hequal a ha).2 (hhigh b hb)

theorem log2_mono {m n : Nat} (h : m ≤ n) : m.log2 ≤ n.log2 := by
  rcases Nat.eq_zero_or_pos m with rfl | hm
  · rw [Nat.log2_zero]
    exact Nat.zero_le _
  · exact (Nat.le_log2 (by omega)).2 ((Nat.log2_self_le (by omega)).trans h)

theorem log2_half {m n : Nat} (h : 2 * m ≤ n) (hn : 2 ≤ n) : m.log2 + 1 ≤ n.log2 := by
  rw [Nat.le_log2 (by omega), pow_succ]
  rcases Nat.eq_zero_or_pos m with rfl | hm
  · rw [Nat.log2_zero]
    omega
  · have := Nat.log2_self_le (by omega : m ≠ 0)
    omega

/-- What `introsort` gives at any depth. -/
structure Sorts (lt : α → α → Bool) (values : List α) (s : Sorted α) : Prop where
  perm : s.values.Perm values
  ascending : Ascending lt s.values
  frames : s.frames ≤ values.length.log2 + 1

variable {values : List α}

theorem introsort_insertion (depth : Nat) (h : ¬ values.length ≥ 16) :
    ∃ s, introsort lt depth values = .ok s ∧ Sorts lt values s := by
  obtain ⟨result, hinsertion, hperm, hascending⟩ := @insertion_spec α lt _ values
  refine ⟨⟨result, 1⟩, ?_, hperm, hascending, by simp⟩
  cases depth <;> simp [introsort, h, hinsertion, bind, Except.bind, pure, Except.pure]

theorem introsort_spec (depth : Nat) (values : List α) :
    ∃ s, introsort lt depth values = .ok s ∧ Sorts lt values s := by
  induction depth generalizing values with
  | zero =>
    by_cases hlong : values.length ≥ 16
    · obtain ⟨first, hfirst⟩ := exists_mem_of_length_pos (by omega : 0 < values.length)
      have : Inhabited α := ⟨first⟩
      obtain ⟨result, hheap, hperm, hascending⟩ := @heap_spec α _ lt _ values
      exact ⟨⟨result, 1⟩, by simp [introsort, hlong, hheap, bind, Except.bind, pure, Except.pure], hperm, hascending,
        by simp⟩
    · exact introsort_insertion 0 hlong
  | succ depth ih =>
    by_cases hlong : values.length ≥ 16
    · obtain ⟨first, hfirst⟩ := exists_mem_of_length_pos (by omega : 0 < values.length)
      have : Inhabited α := ⟨first⟩
      obtain ⟨pivot, ⟨values', lower, upper⟩, hpartition, hperm, below, equal, above, hvalues, hlower, hupper, hbelow,
        hequal, habove⟩ := @partition_spec α lt _ values (by omega)
      dsimp only at hperm hvalues hlower hupper
      have htake : values'.take lower = below := by rw [hvalues, hlower, take_left]
      have hmiddle : (values'.take upper).drop lower = equal := by
        rw [hvalues, hupper, hlower, ← append_assoc, ← length_append, take_left, drop_left]
      have hdrop : values'.drop upper = above := by
        rw [hvalues, hupper, ← append_assoc, ← length_append, drop_left]
      have hlength : values.length = below.length + equal.length + above.length := by
        rw [← hperm.length_eq, hvalues, length_append, length_append, add_assoc]
      have hlength' : values'.length = values.length := hperm.length_eq
      obtain ⟨low, hlow, hlowPerm, hlowAscending, hlowFrames⟩ := ih below
      obtain ⟨high, hhigh, hhighPerm, hhighAscending, hhighFrames⟩ := ih above
      have hpermAll : (low.values ++ equal ++ high.values).Perm values := by
        rw [hvalues, ← append_assoc] at hperm
        exact ((hlowPerm.append_right equal).append hhighPerm).trans hperm
      have hsorted := ascending_sides hbelow hequal habove hlowPerm hhighPerm hlowAscending hhighAscending
      by_cases hside : lower < values'.length - upper
      · refine ⟨⟨low.values ++ equal ++ high.values, max (low.frames + 1) high.frames⟩, ?_, hpermAll, hsorted, ?_⟩
        · simp [introsort, hlong, hpartition, htake, hmiddle, hdrop, hside, hlow, hhigh, bind, Except.bind, pure,
            Except.pure]
        have hhalf := @log2_half below.length values.length (by omega) (by omega)
        have hmono := @log2_mono above.length values.length (by omega)
        dsimp only
        omega
      refine ⟨⟨low.values ++ equal ++ high.values, max (high.frames + 1) low.frames⟩, ?_, hpermAll, hsorted, ?_⟩
      · simp [introsort, hlong, hpartition, htake, hmiddle, hdrop, hside, hlow, hhigh, bind, Except.bind, pure,
          Except.pure]
      have hhalf := @log2_half above.length values.length (by omega) (by omega)
      have hmono := @log2_mono below.length values.length (by omega)
      dsimp only
      omega
    · exact introsort_insertion (depth + 1) hlong

theorem descending_cons_cons {a b : α} :
    ((a :: b :: values).Pairwise fun a b => lt a b = false) ↔
      lt a b = false ∧ (b :: values).Pairwise fun a b => lt a b = false := by
  rw [pairwise_cons]
  refine and_congr_left fun hrest => ⟨fun h => h b mem_cons_self, fun hab c hc => ?_⟩
  rcases mem_cons.1 hc with rfl | hc
  · exact hab
  · exact Lib.not_lt_trans ((pairwise_cons.1 hrest).1 c hc) hab

theorem monotone_spec (values : List α) (ascending descending : Bool) :
    ((monotone lt values ascending descending).1 = true → ascending = true ∧ Ascending lt values) ∧
      ((monotone lt values ascending descending).2 = true →
        descending = true ∧ values.Pairwise fun a b => lt a b = false) := by
  match values with
  | [] => exact ⟨fun h => ⟨h, List.Pairwise.nil⟩, fun h => ⟨h, List.Pairwise.nil⟩⟩
  | [a] => exact ⟨fun h => ⟨h, pairwise_singleton _ a⟩, fun h => ⟨h, pairwise_singleton _ a⟩⟩
  | before :: value :: rest =>
    obtain ⟨hup, hdown⟩ := monotone_spec (value :: rest) (ascending && !lt value before) (descending && !lt before value)
    rw [monotone]
    split_ifs with hstop
    · simp only [Bool.and_eq_true, Bool.not_eq_true'] at hstop
      constructor
      · intro h
        rw [hstop.1] at h
        cases h
      intro h
      rw [hstop.2] at h
      cases h
    constructor
    · intro h
      obtain ⟨hflag, hrest⟩ := hup h
      rw [Bool.and_eq_true, Bool.not_eq_true'] at hflag
      exact ⟨hflag.1, ascending_cons_cons.2 ⟨hflag.2, hrest⟩⟩
    intro h
    obtain ⟨hflag, hrest⟩ := hdown h
    rw [Bool.and_eq_true, Bool.not_eq_true'] at hflag
    exact ⟨hflag.1, descending_cons_cons.2 ⟨hflag.2, hrest⟩⟩

omit [IsStrictWeakOrder α fun a b => lt a b = true] in
theorem reverseLoop_spec {turns left right : Nat} {values front middle back : List α} (hturns : middle.length < turns)
    (hvalues : values = front ++ (middle ++ back)) (hleft : left = front.length)
    (hright : right = front.length + middle.length) :
    reverseLoop turns values left right = .ok (front ++ (middle.reverse ++ back)) := by
  induction turns generalizing left right values front middle back with
  | zero => omega
  | succ turns ih =>
    rw [reverseLoop]
    cases middle with
    | nil =>
      rw [length_nil] at hright
      rw [if_neg (by omega), hvalues]
      rfl
    | cons x middle =>
      rw [length_cons] at hright hturns
      rw [if_pos (by omega)]
      rcases eq_nil_or_concat middle with rfl | ⟨middle, y, rfl⟩
      · rw [length_nil] at hright
        rw [if_pos (by omega), hvalues]
        rfl
      rw [concat_eq_append] at hvalues hright hturns ⊢
      rw [length_append, length_singleton] at hright hturns
      have hswap : swap values left (right - 1) = .ok (front ++ y :: (middle ++ x :: back)) := by
        have h := (swap_append front middle back x y).1
        rw [hvalues, hleft, hright,
          show front.length + (middle.length + 1 + 1) - 1 = front.length + 1 + middle.length by omega]
        simpa using h
      have hloop := @ih (left + 1) (right - 1) (front ++ y :: (middle ++ x :: back)) (front ++ [y]) middle (x :: back)
        (by omega) (by simp) (by simp [hleft]) (by simp; omega)
      rw [if_neg (by omega)]
      simp only [bind, Except.bind, hswap, hloop]
      simp

omit [IsStrictWeakOrder α fun a b => lt a b = true] in
theorem searchLoop_eq {values : List α} {target : α} {turns low high : Nat} (hhigh : high ≤ values.length)
    (hturns : high - low ≤ turns) :
    searchLoop lt values target (turns + 1) low high =
      .ok (Lib.searchLoop (fun i => (values[i]?).any fun a => lt a target) turns low high) := by
  induction turns generalizing low high with
  | zero => rw [searchLoop, if_neg (by omega), Lib.searchLoop]
  | succ turns ih =>
    rw [searchLoop, Lib.searchLoop]
    by_cases hlt : low < high
    · have hget : values[low + (high - low) / 2]? = some values[low + (high - low) / 2] :=
        getElem?_eq_getElem (by omega)
      have hload : load values (low + (high - low) / 2) = .ok values[low + (high - low) / 2] := by rw [load, hget]
      rw [if_pos hlt, if_pos hlt, hget, Option.any_some]
      dsimp only
      rw [hload]
      cases hbelow : lt values[low + (high - low) / 2] target with
      | true =>
        simp only [bind, Except.bind, hbelow, if_true]
        exact ih hhigh (by omega)
      | false =>
        simp only [bind, Except.bind, hbelow, Bool.false_eq_true, if_false]
        exact ih (by omega) (by omega)
    · rw [if_neg hlt, if_neg hlt]

/-- What a search has to find: an equal element, exactly when there is one. -/
structure Finds (eq : α → α → Bool) (values : List α) (target : α) (r : SearchResult) : Prop where
  found : r.found = true ↔ ∃ a ∈ values, eq a target = true
  index : r.found = true → ∃ a, values[r.index]? = some a ∧ eq a target = true
  missing : r.found = false → r.index = values.length

theorem search_spec {eq : α → α → Bool}
    (heq : ∀ a b, eq a b = true ↔ lt a b = false ∧ lt b a = false) (h : Ascending lt values)
    (target : α) : ∃ r, search lt eq values target = .ok r ∧ Finds eq values target r := by
  have hbound : Lib.lowerBound (fun a => lt a target) values = values.findIdx fun a => !lt a target := by
    refine Lib.lowerBound_eq_findIdx (List.Pairwise.imp (fun {a b} hba hb => ?_) h)
    cases ha : lt a target with
    | true => rfl
    | false =>
      rw [Lib.not_lt_trans ha hba] at hb
      cases hb
  have hloop := @searchLoop_eq α lt values target values.length 0 values.length le_rfl (by omega)
  rw [Lib.lowerBound] at hbound
  rw [hbound] at hloop
  -- An equal element lies at or behind the bound, and then the element at the bound is equal too.
  have hequal : ∀ a ∈ values, eq a target = true →
      ∃ hlt : (values.findIdx fun a => !lt a target) < values.length,
        eq (values[values.findIdx fun a => !lt a target]) target = true := by
    intro a ha heqa
    obtain ⟨hat, hta⟩ := (heq a target).1 heqa
    have hlt : (values.findIdx fun a => !lt a target) < values.length :=
      findIdx_lt_length_of_exists ⟨a, ha, by rw [hat]; exact rfl⟩
    have hnot : lt (values[values.findIdx fun a => !lt a target]) target = false := by
      have hspec := @findIdx_getElem α (fun a => !lt a target) values hlt
      simpa using hspec
    obtain ⟨i, hi, rfl⟩ := getElem_of_mem ha
    have hle : (values.findIdx fun a => !lt a target) ≤ i := by
      by_contra hbefore
      have hfalse := @not_of_lt_findIdx α (fun a => !lt a target) values i (by omega)
      simp [hat] at hfalse
    have hav : lt values[i] (values[values.findIdx fun a => !lt a target]) = false := by
      rcases lt_or_ge (values.findIdx fun a => !lt a target) i with hstrict | hge
      · exact h.getElem hstrict hi
      have hsame : (values.findIdx fun a => !lt a target) = i := by omega
      simp only [hsame]
      exact Lib.lt_irrefl' _
    exact ⟨hlt, (heq _ _).2 ⟨hnot, Lib.not_lt_trans hav hta⟩⟩
  generalize (values.findIdx fun a => !lt a target) = low at hloop hequal
  by_cases hlow : low < values.length
  · have hload : load values low = .ok values[low] := by rw [load, getElem?_eq_getElem hlow]
    cases hfound : eq values[low] target with
    | true =>
      refine ⟨⟨low, true⟩, by simp [search, hloop, hlow, hload, hfound, bind, Except.bind, pure, Except.pure],
        iff_of_true rfl ⟨_, getElem_mem hlow, hfound⟩, fun _ => ⟨_, getElem?_eq_getElem hlow, hfound⟩,
        fun h => (by cases h)⟩
    | false =>
      refine ⟨⟨values.length, false⟩, by simp [search, hloop, hlow, hload, hfound, bind, Except.bind, pure, Except.pure],
        iff_of_false Bool.false_ne_true ?_, fun h => (by cases h), fun _ => rfl⟩
      rintro ⟨a, ha, heqa⟩
      obtain ⟨_, h⟩ := hequal a ha heqa
      rw [hfound] at h
      cases h
  · refine ⟨⟨values.length, false⟩, by simp [search, hloop, hlow, bind, Except.bind, pure, Except.pure],
      iff_of_false Bool.false_ne_true ?_, fun h => (by cases h), fun _ => rfl⟩
    rintro ⟨a, ha, heqa⟩
    obtain ⟨hlt, -⟩ := hequal a ha heqa
    exact hlow hlt

/-- **Every path of `sort` gives the elements in ascending order.** -/
theorem sort_spec (values : List α) : ∃ s, sort lt values = .ok s ∧ Sorts lt values s := by
  obtain ⟨hup, hdown⟩ := @monotone_spec α lt _ values true true
  rw [sort]
  cases hscan : monotone lt values true true with
  | mk ascending descending =>
    rw [hscan] at hup hdown
    cases ascending with
    | true => exact ⟨⟨values, 0⟩, rfl, List.Perm.refl _, (hup rfl).2, Nat.zero_le _⟩
    | false =>
      cases descending with
      | true =>
        have hloop := @reverseLoop_spec α (values.length + 1) 0 values.length values [] values [] (by omega) (by simp)
          rfl (by simp)
        rw [nil_append, append_nil] at hloop
        refine ⟨⟨values.reverse, 0⟩, by simp [hloop, bind, Except.bind, pure, Except.pure],
          reverse_perm values, pairwise_reverse.2 (hdown rfl).2, Nat.zero_le _⟩
      | false => exact introsort_spec _ values

/-- **Sorting is correct**: no index is out of range, no loop runs on, the elements are a permutation in which
none is below its predecessor, calls nest at most logarithmically, and the search in the result finds an equal
element exactly where there is one.  The operators of numbers, the only elements with `<`, agree in that `==`
says that neither is below the other. -/
theorem sort_correct (lt : α → α → Bool) [IsStrictWeakOrder α fun a b => lt a b = true] (values : List α) :
    (∃ s, sort lt values = .ok s ∧ s.values.Perm values ∧
      (∀ i (h : i + 1 < s.values.length), lt s.values[i + 1] s.values[i] = false) ∧
      s.frames ≤ values.length.log2 + 1 ∧
      ∀ eq : α → α → Bool, (∀ a b, eq a b = true ↔ lt a b = false ∧ lt b a = false) →
        ∀ target, ∃ r, search lt eq s.values target = .ok r ∧ Finds eq s.values target r) ∧
    ∀ depth, ∃ s, introsort lt depth values = .ok s ∧ Sorts lt values s := by
  obtain ⟨s, hsort, hperm, hascending, hframes⟩ := @sort_spec α lt _ values
  exact ⟨⟨s, hsort, hperm, fun i h => hascending.getElem (Nat.lt_succ_self i) h, hframes,
    fun eq heq target => search_spec heq hascending target⟩, fun depth => introsort_spec depth values⟩

/-- Twenty elements that are ordered by their first number only. -/
def pairs : List (Nat × Nat) := (List.range 20).map fun i => (i * 7 % 5, i)

theorem sort_correct_pairs :
    ∃ s, sort (fun a b => decide (a.1 < b.1)) pairs = .ok s ∧ s.values.Perm pairs ∧
      (∀ i (h : i + 1 < s.values.length), s.values[i].1 ≤ s.values[i + 1].1) ∧ s.frames ≤ 5 ∧
      ∀ target, ∃ r, search (fun a b => decide (a.1 < b.1)) (fun a b => decide (a.1 = b.1)) s.values target = .ok r ∧
        Finds (fun a b => decide (a.1 = b.1)) s.values target r := by
  have : IsStrictWeakOrder (Nat × Nat) fun a b => decide (a.1 < b.1) = true :=
    { irrefl := fun a => by simp
      trans := fun a b c hab hbc => by
        simp only [decide_eq_true_eq] at hab hbc ⊢
        omega
      incomp_trans := fun a b c hab hbc => by
        simp only [decide_eq_true_eq] at hab hbc ⊢
        omega }
  obtain ⟨⟨s, hsort, hperm, hascending, hframes, hsearch⟩, -⟩ :=
    sort_correct (fun a b : Nat × Nat => decide (a.1 < b.1)) pairs
  refine ⟨s, hsort, hperm, fun i h => ?_, hframes, hsearch _ fun a b => ?_⟩
  · exact Nat.le_of_not_lt (of_decide_eq_false (hascending i h))
  · simp only [decide_eq_true_eq, decide_eq_false_iff_not]
    omega

end Dyn.Sorting
