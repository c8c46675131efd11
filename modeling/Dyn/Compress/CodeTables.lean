import Dyn.Compress.Huffman

/-!
# std/compress/deflate: which lengths make a table, and what it decodes

`build` refuses lengths by the loop over `left`, the number of unused codes at each
length.  `kraftLoop_eq` reads that loop as the Kraft sum, so `build_none_iff` tells in one
sum which vectors of lengths are refused.  `tables_decode` adds what an accepted table is
good for: its codes are prefix-free, and `decode` returns the symbol of each code.
-/

namespace Dyn.Compress

open Lib

variable {lengths : List Nat} {allowEmpty requireComplete : Bool} {table : Huffman}

/-- More codes than there are words of 15 bits for them. -/
def OverSubscribed (lengths : List Nat) : Prop := 2 ^ 15 < kraftSum lengths 15

/-- Some words of 15 bits begin with no code. -/
def Incomplete (lengths : List Nat) : Prop := kraftSum lengths 15 < 2 ^ 15

instance (lengths : List Nat) : Decidable (OverSubscribed lengths) :=
  inferInstanceAs (Decidable (_ < _))

theorem kraftSum_eq_zero {width : Nat} (h : ∀ l ∈ lengths, share width l = 0) :
    kraftSum lengths width = 0 := by
  refine List.sum_eq_zero_iff_forall_eq_nat.mpr fun x hx => ?_
  obtain ⟨l, hl, rfl⟩ := List.mem_map.mp hx
  exact h l hl

/-- The loop keeps `left` and the Kraft sum of the lengths seen at `2 ^ i` together. -/
theorem kraftLoop_eq {counts : List Nat} (hc : ∀ l, counts.getD l 0 = lengthCount lengths l) :
    ∀ n i left, left + kraftSum lengths i = 2 ^ i → kraftLoop counts n (i + 1) left =
        if kraftSum lengths (i + n) ≤ 2 ^ (i + n) then
          some (2 ^ (i + n) - kraftSum lengths (i + n))
        else none
  | 0, i, left, h => by
    rw [kraftLoop, add_zero, if_pos (by omega), ← h, Nat.add_sub_cancel]
  | n + 1, i, left, h => by
    have hcount : counts.getD (i + 1) 0 = lengths.count (i + 1) := by
      rw [hc, lengthCount, if_neg (Nat.succ_ne_zero i)]
    have hsum := kraftSum_succ lengths i
    rw [kraftLoop, hcount]
    split_ifs with hover hle hle
    · -- the sum only grows from here on, as the number of words does
      have hgrow : ∀ k, 2 ^ (i + 1 + k) < kraftSum lengths (i + 1 + k) := by
        intro k
        induction k with
        | zero =>
          rw [add_zero]
          omega
        | succ k ih =>
          rw [← add_assoc, kraftSum_succ, pow_succ]
          omega
      have hlt := hgrow n
      rw [add_assoc, add_comm 1 n] at hlt
      omega
    · rfl
    · rw [kraftLoop_eq hc n (i + 1) _ (by omega), add_assoc, add_comm 1 n, if_pos hle]
    · rw [kraftLoop_eq hc n (i + 1) _ (by omega), add_assoc, add_comm 1 n, if_neg hle]

theorem build_none_iff (hle : ∀ l ∈ lengths, l ≤ 15) :
    build lengths allowEmpty requireComplete = none ↔
      OverSubscribed lengths ∨ (∀ l ∈ lengths, l = 0) ∧ allowEmpty = false ∨
      (∃ l ∈ lengths, l ≠ 0) ∧ requireComplete = true ∧ Incomplete lengths ∧
        lengths.count 1 ≠ 1 := by
  have hany : ¬ lengths.any (fun l => l > 15) = true := by
    simpa using hle
  have hc := countLengths_getD hle
  have hone : (countLengths lengths).getD 1 0 = lengths.count 1 := hc 1
  have hloop := kraftLoop_eq hc 15 0 1 (by rw [kraftSum_eq_zero fun l _ => if_pos (by omega), Nat.pow_zero])
  unfold build OverSubscribed Incomplete
  rw [if_neg hany]
  split
  · rename_i hall
    have hzero : ∀ l ∈ lengths, l = 0 := by simpa using hall
    have hsum : kraftSum lengths 15 = 0 := kraftSum_eq_zero fun l hl => if_pos (.inl (hzero l hl))
    have hnone : ¬ ∃ l ∈ lengths, l ≠ 0 := fun ⟨l, hl, hne⟩ => hne (hzero l hl)
    rw [hsum]
    cases allowEmpty
    · simp only [Bool.false_eq_true, if_false, true_iff]
      exact .inr (.inl ⟨hzero, trivial⟩)
    · simp [hnone]
  rename_i hall
  have hsome : ∃ l ∈ lengths, l ≠ 0 := by simpa using hall
  have hnot : ¬ ∀ l ∈ lengths, l = 0 := fun h =>
    hsome.elim fun l hl => hl.2 (h l hl.1)
  simp only [hloop]
  split_ifs with hfits
  · have hleft : 2 ^ 15 - kraftSum lengths 15 ≠ 0 ↔ kraftSum lengths 15 < 2 ^ 15 := by omega
    simp only [hone, hleft, hnot, hsome, Nat.not_lt_of_le hfits, false_and, false_or, true_and]
    split_ifs with h
    · exact ⟨fun _ => h, fun _ => rfl⟩
    · exact ⟨False.elim, fun h' => absurd h' h⟩
  · exact ⟨fun _ => .inl (Nat.lt_of_not_le hfits), fun _ => rfl⟩

/-- Completeness is a demand of its own. -/
theorem build_refuses_incomplete :
    ¬ ∀ (lengths : List Nat) (allowEmpty requireComplete : Bool), (∀ l ∈ lengths, l ≤ 15) →
      (build lengths allowEmpty requireComplete = none ↔
        OverSubscribed lengths ∨ (∀ l ∈ lengths, l = 0) ∧ allowEmpty = false) := by
  intro h
  have hiff := h [2] false true (by decide)
  have hnone : build [2] false true = none := by decide
  exact absurd (hiff.mp hnone) (by decide)

/-- The code of a symbol, in the order its bits are read. -/
def codeBits (table : Huffman) (s : Nat) : List Bool :=
  bitsOf (table.lengths.getD s 0) (table.codes.getD s 0)

theorem not_all_zero {s : Nat} (hs : s < lengths.length) (hnz : lengths.getD s 0 ≠ 0) :
    ¬ lengths.all (fun l => l = 0) = true := by
  intro hall
  have hzero : ∀ l ∈ lengths, l = 0 := by simpa using hall
  rw [List.getD_eq_getElem _ _ hs] at hnz
  exact hnz (hzero _ (List.getElem_mem hs))

theorem codeBits_eq (hbuild : build lengths allowEmpty requireComplete = some table) {s : Nat}
    (hs : s < lengths.length) (hnz : lengths.getD s 0 ≠ 0) :
    codeBits table s = codeWord lengths s := by
  have hne := not_all_zero hs hnz
  have hword : (codeWord lengths s).length = lengths.getD s 0 := by
    rw [codeWord, wordOf_length]
  rw [codeBits, table_code hbuild hne hs hnz, (build_spec hbuild hne).1, ← hword, bitsOf_valueOf]

/-- **Code tables.**  Lengths are refused when they need too many codes, when there is no
code and none is not allowed, and, where a complete code is required, when words are left
over and not exactly one code has one bit.  The codes of a table are prefix-free, and from
a reader that goes on with the code of a symbol `decode` returns the symbol and takes the
bits of the code, whatever follows. -/
theorem tables_decode (lengths : List Nat) (allowEmpty requireComplete : Bool)
    (hle : ∀ l ∈ lengths, l ≤ 15) :
    (build lengths allowEmpty requireComplete = none ↔
      OverSubscribed lengths ∨ (∀ l ∈ lengths, l = 0) ∧ allowEmpty = false ∨
      (∃ l ∈ lengths, l ≠ 0) ∧ requireComplete = true ∧ Incomplete lengths ∧ lengths.count 1 ≠ 1) ∧
    ∀ table, build lengths allowEmpty requireComplete = some table →
      (∀ s t, s < lengths.length → t < lengths.length →
        lengths.getD s 0 ≠ 0 → lengths.getD t 0 ≠ 0 →
        codeBits table s <+: codeBits table t → s = t) ∧
      ∀ s, s < lengths.length → lengths.getD s 0 ≠ 0 →
        (codeBits table s).length = lengths.getD s 0 ∧
        ∀ reader rest, ReaderOk reader → remaining reader = codeBits table s ++ rest →
          ∃ after, (decode table : Read Nat) reader = (some s, after) ∧
            remaining after = rest ∧ ReaderOk after ∧ after.input = reader.input := by
  refine ⟨build_none_iff hle, fun table hbuild => ⟨?_, ?_⟩⟩
  · intro s t hs ht hsz htz hprefix
    rw [codeBits_eq hbuild hs hsz, codeBits_eq hbuild ht htz] at hprefix
    exact codeWord_prefix_free hbuild (not_all_zero hs hsz) hs ht hsz htz hprefix
  intro s hs hnz
  have hne := not_all_zero hs hnz
  have hword := codeBits_eq hbuild hs hnz
  constructor
  · rw [hword, codeWord, wordOf_length]
  intro reader rest hreader hremaining
  have hparse := decode_word hbuild hne hs hnz rest
  have hread := refines_decode table reader hreader
  rw [hremaining, hword, hparse] at hread
  obtain ⟨hsome, hrest, hok, hinput⟩ := hread
  exact ⟨_, Prod.ext hsome rfl, hrest, hok, hinput⟩

/-- A complete table of four symbols, and the third of them read from a byte. -/
theorem tables_decode_sample :
    build [2, 1, 3, 3] false true = some ⟨[1, 0, 3, 7], [2, 1, 3, 3]⟩ ∧
    ∃ after, (decode ⟨[1, 0, 3, 7], [2, 1, 3, 3]⟩ : Read Nat) { input := [3] } = (some 2, after) ∧
      remaining after = [false, false, false, false, false] := by
  have hbuild : build [2, 1, 3, 3] false true = some ⟨[1, 0, 3, 7], [2, 1, 3, 3]⟩ := by decide
  have htable := (tables_decode [2, 1, 3, 3] false true (by decide)).2 _ hbuild
  have hreader : ReaderOk { input := [3] } := ⟨by decide, by decide, by decide, rfl⟩
  obtain ⟨after, hread, hrest, -, -⟩ :=
    (htable.2 2 (by decide) (by decide)).2 _ [false, false, false, false, false] hreader (by decide)
  exact ⟨hbuild, after, hread, hrest⟩

end Dyn.Compress
