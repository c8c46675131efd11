import Dyn.Compress.Engine
import Dyn.Lib.PrefixCode

/-!
# std/compress/deflate: tables and decoding

`build` computes the canonical code of a list of code lengths, as `build_spec` states in
the terms of `Dyn.Lib.PrefixCode`.  `decode_word` is the consequence for the decoder: on
the word of a symbol it returns that symbol and leaves what follows the word.
-/

namespace Dyn.Compress

open Lib List

theorem reverseLoop_eq : ∀ n v r : Nat,
    reverseLoop n v r = valueOf (wordOf n v) + 2 ^ n * r
  | 0, v, r => by simp [reverseLoop, wordOf, bitsOf, valueOf]
  | n + 1, v, r => by
    have hw : wordOf (n + 1) v = wordOf n (v / 2) ++ [decide (v % 2 = 1)] := by
      simp [wordOf, bitsOf]
    have hbit : valueOf [decide (v % 2 = 1)] = v % 2 := by
      by_cases h : v % 2 = 1
      · simp [valueOf, h]
      · have h0 : v % 2 = 0 := by omega
        simp [valueOf, h0]
    rw [reverseLoop, reverseLoop_eq n, hw, valueOf_append, hbit, wordOf_length, pow_succ]
    ring

variable (n v : Nat)

/-- The bits written for a reversed code are the word of the code. -/
theorem valueOf_wordOf : valueOf (wordOf n v) = reverseCode v n := by
  rw [reverseCode, reverseLoop_eq, mul_zero, add_zero]

theorem bitsOf_reverseCode : bitsOf n (reverseCode v n) = wordOf n v := by
  have h := bitsOf_valueOf (wordOf n v)
  rwa [wordOf_length, valueOf_wordOf] at h

theorem reverseCode_lt : reverseCode v n < 2 ^ n := by
  have h := valueOf_lt (wordOf n v)
  rwa [wordOf_length, valueOf_wordOf] at h

/-- The number of symbols of each nonzero length. -/
def lengthCount (lengths : List Nat) (l : Nat) : Nat :=
  if l = 0 then 0 else lengths.count l

theorem countFold_getD (lengths : List Nat) (hle : ∀ l ∈ lengths, l ≤ 15) :
    ∀ (counts : List Nat), counts.length = 16 → ∀ l,
      (lengths.foldl (fun counts l => counts.set l (counts.getD l 0 + 1)) counts).getD l 0 =
        counts.getD l 0 + lengths.count l := by
  induction lengths with
  | nil => simp
  | cons a rest ih =>
    intro counts hlen l
    have ha := hle a (by simp)
    rw [foldl_cons, ih (fun b hb => hle b (mem_cons_of_mem _ hb)) _ (by simpa using hlen)]
    by_cases h : a = l
    · subst h
      have hlt : a < counts.length := by omega
      simp [getD_eq_getElem?_getD, hlt]
      ring
    · simp [getD_eq_getElem?_getD, getElem?_set_ne h, count_cons_of_ne h]

variable {lengths : List Nat}

theorem countLengths_getD (hle : ∀ l ∈ lengths, l ≤ 15) (l : Nat) :
    (countLengths lengths).getD l 0 = lengthCount lengths l := by
  have hzero : ∀ k, (replicate 16 0).getD k 0 = 0 := by
    intro k
    rw [getD_eq_getElem?_getD, getElem?_replicate]
    split_ifs <;> rfl
  unfold countLengths lengthCount
  by_cases h : l = 0
  · subst h
    rw [if_pos rfl, getD_eq_getElem?_getD, getElem?_set, if_pos rfl]
    split_ifs
    · rfl
    · rfl
  have h' : (0 : Nat) ≠ l := fun he => h he.symm
  rw [if_neg h, getD_eq_getElem?_getD, getElem?_set_ne h',
    ← getD_eq_getElem?_getD, countFold_getD lengths hle _ (by simp), hzero, zero_add]

theorem firstCodes_getD (counts : List Nat) (count : Nat → Nat)
    (hc : ∀ l, counts.getD l 0 = count l) :
    ∀ (n i code : Nat) (next : List Nat), 1 ≤ i → i + n ≤ next.length →
      code = firstCode count (i - 1) → ∀ l, 1 ≤ l → l < i + n →
      (∀ k, 1 ≤ k → k < i → next.getD k 0 = firstCode count k) →
      (firstCodes counts n i code next).getD l 0 = firstCode count l
  | 0, i, code, next, _, _, _, l, hl, hli, hnext => by
    exact hnext l hl (by omega)
  | n + 1, i, code, next, hi, hlen, hcode, l, hl, hli, hnext => by
    have hfirst : (code + counts.getD (i - 1) 0) * 2 = firstCode count i := by
      obtain ⟨j, rfl⟩ : ∃ j, i = j + 1 := ⟨i - 1, by omega⟩
      rw [hcode, hc]
      rfl
    unfold firstCodes
    rw [hfirst]
    refine firstCodes_getD counts count hc n (i + 1) _ _ (by omega) ?_ rfl l hl (by omega) ?_
    · rw [length_set]
      omega
    intro k hk hki
    rw [getD_eq_getElem?_getD]
    by_cases he : i = k
    · subst he
      have hlt : i < next.length := by omega
      simp [hlt]
    · rw [getElem?_set_ne he, ← getD_eq_getElem?_getD]
      exact hnext k hk (by omega)

theorem kraftLoop_some (counts : List Nat) (count : Nat → Nat)
    (hc : ∀ l, counts.getD l 0 = count l) :
    ∀ (n i left final : Nat), 1 ≤ i →
      left + (firstCode count (i - 1) + count (i - 1)) = 2 ^ (i - 1) →
      kraftLoop counts n i left = some final →
      ∀ l, i ≤ l → l < i + n → firstCode count l + count l ≤ 2 ^ l
  | 0, i, left, final, _, _, _, l, h1, h2 => by omega
  | n + 1, i, left, final, hi, hleft, h, l, h1, h2 => by
    unfold kraftLoop at h
    split_ifs at h with hover
    obtain ⟨j, rfl⟩ : ∃ j, i = j + 1 := ⟨i - 1, by omega⟩
    simp only [Nat.add_sub_cancel] at hleft
    rw [hc] at hover h
    have hfirst : firstCode count (j + 1) = (firstCode count j + count j) * 2 := rfl
    have hsum : left * 2 - count (j + 1) +
        (firstCode count (j + 1) + count (j + 1)) = 2 ^ (j + 1) := by
      omega
    by_cases hl : l = j + 1
    · subst hl
      omega
    · exact kraftLoop_some counts count hc n (j + 1 + 1) _ final (by omega) hsum h l
        (by omega) (by omega)

/-- The code number `assignCodes` gives symbol `s`. -/
def codeNumber (lengths : List Nat) (next : List Nat) (s : Nat) : Nat :=
  next.getD (lengths.getD s 0) 0 + (lengths.take s).count (lengths.getD s 0)

theorem assignCodes_length : ∀ lengths next : List Nat,
    (assignCodes lengths next).length = lengths.length
  | [], _ => rfl
  | l :: rest, next => by
    unfold assignCodes
    split_ifs <;> simp [assignCodes_length rest]

theorem assignCodes_getD : ∀ (lengths next : List Nat) (s : Nat),
    (∀ l ∈ lengths, l < next.length) → s < lengths.length → lengths.getD s 0 ≠ 0 →
    (assignCodes lengths next).getD s 0 = reverseCode (codeNumber lengths next s) (lengths.getD s 0)
  | [], _, _, _, hs, _ => by cases hs
  | l :: rest, next, 0, _, _, hne => by
    simp only [getD_cons_zero] at hne ⊢
    simp [assignCodes, hne, codeNumber]
  | l :: rest, next, s + 1, hle, hs, hne => by
    have hl := hle l (by simp)
    have hrest : ∀ k ∈ rest, k < next.length := fun k hk => hle k (mem_cons_of_mem _ hk)
    have hs' : s < rest.length := by simpa using hs
    unfold assignCodes
    by_cases h0 : l = 0
    · subst h0
      simp only [ne_eq, not_true_eq_false, if_false, getD_cons_succ]
      rw [assignCodes_getD rest next s hrest hs' hne]
      have hne' : (0 : Nat) ≠ rest.getD s 0 := fun he => hne he.symm
      simp only [codeNumber, getD_cons_succ, take_succ_cons, count_cons_of_ne hne']
    simp only [ne_eq, h0, not_false_eq_true, if_true, getD_cons_succ]
    rw [assignCodes_getD rest _ s (by simpa using hrest) hs' hne]
    congr 1
    simp only [codeNumber, getD_cons_succ, take_succ_cons]
    by_cases he : l = rest.getD s 0
    · rw [← he, count_cons_self]
      simp [getD_eq_getElem?_getD, hl]
      ring
    · rw [count_cons_of_ne he, getD_eq_getElem?_getD, getElem?_set_ne he, ← getD_eq_getElem?_getD]

/-- The code number of symbol `s` in the canonical code of `lengths`. -/
def canonicalCode (lengths : List Nat) (s : Nat) : Nat :=
  firstCode (lengthCount lengths) (lengths.getD s 0) +
    (lengths.take s).count (lengths.getD s 0)

/-- What `build` computes: the canonical code, within its Kraft bound. -/
theorem build_spec {allowEmpty requireComplete : Bool} {table : Huffman}
    (h : build lengths allowEmpty requireComplete = some table)
    (hne : ¬ lengths.all (fun l => l = 0) = true) :
    table.lengths = lengths ∧ table.codes.length = lengths.length ∧
    (∀ s, lengths.getD s 0 ≤ 15) ∧
    (∀ s, s < lengths.length → lengths.getD s 0 ≠ 0 →
      table.codes.getD s 0 = reverseCode (canonicalCode lengths s) (lengths.getD s 0)) ∧
    (∀ l, 1 ≤ l → l ≤ 15 → firstCode (lengthCount lengths) l + lengthCount lengths l ≤ 2 ^ l) := by
  unfold build at h
  split_ifs at h with hany
  have hle : ∀ l ∈ lengths, l ≤ 15 := by
    intro l hl
    by_contra hcon
    exact hany (any_eq_true.mpr ⟨l, hl, by simpa using hcon⟩)
  have hget : ∀ s, lengths.getD s 0 ≤ 15 := by
    intro s
    rw [getD_eq_getElem?_getD]
    cases hs : lengths[s]? with
    | none => exact Nat.zero_le _
    | some l => exact hle l (mem_of_getElem? hs)
  have hc := countLengths_getD hle
  cases hk : kraftLoop (countLengths lengths) 15 1 1 with
  | none => simp [hk] at h
  | some left =>
    simp only [hk] at h
    split_ifs at h
    obtain rfl := Option.some.inj h
    refine ⟨rfl, assignCodes_length _ _, hget, ?_, ?_⟩
    · intro s hs hnz
      rw [assignCodes_getD _ _ s ?_ hs hnz]
      · congr 1
        simp only [codeNumber, canonicalCode]
        rw [firstCodes_getD (countLengths lengths) _ hc 15 1 0 _ (le_refl 1) ?_ rfl _
          (Nat.one_le_iff_ne_zero.mpr hnz) (by have := hget s; omega)
          (fun k h1 h2 => by omega)]
        simp
      intro l hl
      have := hle l hl
      have hlen : ∀ (n i code : Nat) (next : List Nat),
          (firstCodes (countLengths lengths) n i code next).length = next.length := by
        intro n
        induction n with
        | zero => intros; rfl
        | succ n ih => intro i code next; rw [firstCodes, ih, length_set]
      rw [hlen, length_replicate]
      omega
    · intro l h1 h2
      exact kraftLoop_some _ _ hc 15 1 1 left (le_refl 1) rfl hk l h1 (by omega)

theorem findSymbol_some {length code : Nat} :
    ∀ {lengths codes : List Nat} {k j : Nat}, findSymbol length code lengths codes k = some j →
      k ≤ j ∧ j - k < lengths.length ∧ lengths.getD (j - k) 0 = length ∧ codes.getD (j - k) 0 = code
  | [], codes, k, j, h => by cases codes <;> cases h
  | l :: lengths, [], k, j, h => by cases h
  | l :: lengths, c :: codes, k, j, h => by
    unfold findSymbol at h
    split_ifs at h with hc
    · obtain rfl := Option.some.inj h
      simp [hc.1, hc.2]
    obtain ⟨h1, h2, h3, h4⟩ := findSymbol_some h
    have e : j - k = (j - (k + 1)) + 1 := by omega
    rw [e]
    exact ⟨by omega, by rw [length_cons]; omega, h3, h4⟩

theorem findSymbol_exists {length code : Nat} :
    ∀ {lengths codes : List Nat} {k s : Nat}, s < lengths.length → s < codes.length →
      lengths.getD s 0 = length → codes.getD s 0 = code →
      ∃ j, findSymbol length code lengths codes k = some j
  | [], codes, k, s, h, _, _, _ => by cases h
  | l :: lengths, [], k, s, _, h, _, _ => by cases h
  | l :: lengths, c :: codes, k, 0, _, _, h1, h2 => by
    refine ⟨k, ?_⟩
    unfold findSymbol
    rw [if_pos ⟨h1, h2⟩]
  | l :: lengths, c :: codes, k, s + 1, hl, hc, h1, h2 => by
    unfold findSymbol
    split_ifs
    · exact ⟨k, rfl⟩
    · exact findSymbol_exists (s := s) (by simpa using hl) (by simpa using hc) h1 h2

/-- The code word of a symbol with a code. -/
def codeWord (lengths : List Nat) (s : Nat) : List Bool :=
  wordOf (lengths.getD s 0) (canonicalCode lengths s)

/-- Rank of a symbol among those of its length, below their number. -/
theorem count_take_lt {s : Nat} (hs : s < lengths.length) :
    (lengths.take s).count (lengths.getD s 0) < lengths.count (lengths.getD s 0) := by
  have hsplit := take_append_drop s lengths
  have hdrop : lengths.drop s = lengths.getD s 0 :: lengths.drop (s + 1) := by
    rw [drop_eq_getElem_cons hs, getD_eq_getElem _ _ hs]
  have hcount : lengths.count (lengths.getD s 0) =
      (lengths.take s ++ lengths.drop s).count (lengths.getD s 0) := by rw [hsplit]
  rw [hcount, count_append, hdrop, count_cons_self]
  omega

theorem count_take_ne {s t : Nat} (hst : s < t) (ht : t ≤ lengths.length)
    (he : lengths.getD s 0 = lengths.getD t 0) :
    (lengths.take s).count (lengths.getD s 0) ≠ (lengths.take t).count (lengths.getD t 0) := by
  have hs : s < (lengths.take t).length := by
    rw [length_take]
    omega
  have hget : (lengths.take t).getD s 0 = lengths.getD s 0 := by
    rw [getD_eq_getElem?_getD, getElem?_take_of_lt hst, ← getD_eq_getElem?_getD]
  have hlt := count_take_lt hs
  rw [hget, take_take, Nat.min_eq_left (le_of_lt hst)] at hlt
  rw [← he]
  omega

section Table

variable {lengths : List Nat} {table : Huffman} {allowEmpty requireComplete : Bool}
  (hbuild : build lengths allowEmpty requireComplete = some table)
  (hne : ¬ lengths.all (fun l => l = 0) = true)
include hbuild hne

variable {s : Nat}

theorem canonicalCode_bounds (hs : s < lengths.length) (hnz : lengths.getD s 0 ≠ 0) :
    firstCode (lengthCount lengths) (lengths.getD s 0) ≤ canonicalCode lengths s ∧
    canonicalCode lengths s < firstCode (lengthCount lengths) (lengths.getD s 0) +
        lengthCount lengths (lengths.getD s 0) ∧
    canonicalCode lengths s < 2 ^ lengths.getD s 0 := by
  obtain ⟨_, _, hle, _, hkraft⟩ := build_spec hbuild hne
  have h1 := hkraft _ (Nat.one_le_iff_ne_zero.mpr hnz) (hle s)
  have h2 := count_take_lt hs
  have h3 : lengthCount lengths (lengths.getD s 0) = lengths.count (lengths.getD s 0) := by
    rw [lengthCount, if_neg hnz]
  unfold canonicalCode
  omega

theorem codeWord_prefix_free {t : Nat} (hs : s < lengths.length) (ht : t < lengths.length)
    (hsz : lengths.getD s 0 ≠ 0) (htz : lengths.getD t 0 ≠ 0)
    (h : codeWord lengths s <+: codeWord lengths t) : s = t := by
  obtain ⟨_, hs2, hs3⟩ := canonicalCode_bounds hbuild hne hs hsz
  obtain ⟨ht1, _, ht3⟩ := canonicalCode_bounds hbuild hne ht htz
  obtain ⟨hle, heq⟩ := wordOf_prefix hs3 ht3 h
  rcases Nat.lt_or_eq_of_le hle with hlt | hlen
  · exact absurd heq (canonical_cut_ne hlt hs2 ht1)
  rw [hlen, Nat.sub_self, pow_zero, Nat.div_one] at heq
  have hrank : (lengths.take s).count (lengths.getD s 0) =
      (lengths.take t).count (lengths.getD t 0) := by
    unfold canonicalCode at heq
    rw [hlen] at heq ⊢
    omega
  rcases Nat.lt_trichotomy s t with hst | hst | hst
  · exact absurd hrank (count_take_ne hst (le_of_lt ht) hlen)
  · exact hst
  · exact absurd hrank.symm (count_take_ne hst (le_of_lt hs) hlen.symm)

/-- The table's entry for a symbol is its word, read lowest bit first. -/
theorem table_code (hs : s < lengths.length) (hnz : lengths.getD s 0 ≠ 0) :
    table.codes.getD s 0 = valueOf (codeWord lengths s) := by
  obtain ⟨_, _, _, hcodes, _⟩ := build_spec hbuild hne
  rw [hcodes s hs hnz, codeWord, valueOf_wordOf]

theorem findSymbol_word {w : List Bool} (hw : w ≠ []) (j : Nat) :
    findSymbol w.length (valueOf w) table.lengths table.codes 0 = some j ↔
      j < lengths.length ∧ lengths.getD j 0 ≠ 0 ∧ w = codeWord lengths j := by
  obtain ⟨hlengths, hcodes, _, _, _⟩ := build_spec hbuild hne
  have hpos : w.length ≠ 0 := fun h => hw (length_eq_zero_iff.mp h)
  have hmp : ∀ i, findSymbol w.length (valueOf w) table.lengths table.codes 0 = some i →
      i < lengths.length ∧ lengths.getD i 0 ≠ 0 ∧ w = codeWord lengths i := by
    intro i h
    obtain ⟨_, h2, h3, h4⟩ := findSymbol_some h
    rw [hlengths, Nat.sub_zero] at h2 h3
    rw [Nat.sub_zero] at h4
    have hnz : lengths.getD i 0 ≠ 0 := by
      rw [h3]
      exact hpos
    rw [table_code hbuild hne h2 hnz] at h4
    refine ⟨h2, hnz, eq_of_valueOf_eq ?_ h4.symm⟩
    rw [codeWord, wordOf_length, h3]
  constructor
  · exact hmp j
  rintro ⟨hj, hnz, rfl⟩
  have hlen : lengths.getD j 0 = (codeWord lengths j).length := by
    rw [codeWord, wordOf_length]
  obtain ⟨i, hi⟩ : ∃ i, findSymbol (codeWord lengths j).length
      (valueOf (codeWord lengths j)) table.lengths table.codes 0 = some i := by
    rw [hlengths]
    exact findSymbol_exists hj (hcodes ▸ hj) hlen (table_code hbuild hne hj hnz)
  obtain ⟨h1, h2, h3⟩ := hmp i hi
  have : j = i := codeWord_prefix_free hbuild hne hj h1 hnz h2 (h3 ▸ prefix_refl _)
  rw [hi, this]

theorem decodeLoop_word (hs : s < lengths.length) (hnz : lengths.getD s 0 ≠ 0) (rest : List Bool) :
    ∀ (post pre : List Bool) (n : Nat), codeWord lengths s = pre ++ post → post ≠ [] →
      post.length ≤ n →
      (decodeLoop table n (pre.length + 1) (valueOf pre) (2 ^ pre.length) : BitParser Nat)
        (post ++ rest) = .ok s rest
  | [], _, _, _, h, _ => absurd rfl h
  | _ :: _, _, 0, _, _, h => by cases h
  | b :: post, pre, n + 1, hw, _, hn => by
    have hread : BitParser.take 1 (b :: post ++ rest) = .ok b.toNat (post ++ rest) := by
      simp [BitParser.take, valueOf]
    have hcode : valueOf pre + b.toNat * 2 ^ pre.length = valueOf (pre ++ [b]) := by
      rw [valueOf_append]
      simp only [valueOf]
      ring
    have hlen : pre.length + 1 = (pre ++ [b]).length := by simp
    unfold decodeLoop
    change BitParser.bind (BitParser.take 1) _ (b :: post ++ rest) = _
    unfold BitParser.bind
    rw [hread]
    simp only
    rw [hcode, hlen]
    have hiff := findSymbol_word hbuild hne (w := pre ++ [b]) (by simp)
    cases post with
    | nil =>
      have hfind := (hiff s).mpr ⟨hs, hnz, hw.symm⟩
      rw [hfind]
      rfl
    | cons b' post =>
      -- a shorter word would begin the word of `s`
      have hnone : findSymbol (pre ++ [b]).length (valueOf (pre ++ [b])) table.lengths
          table.codes 0 = none := by
        cases hf : findSymbol (pre ++ [b]).length (valueOf (pre ++ [b])) table.lengths
            table.codes 0 with
        | none => rfl
        | some j =>
          obtain ⟨hj, hjz, hjw⟩ := (hiff j).mp hf
          have hpre : codeWord lengths j <+: codeWord lengths s := by
            rw [← hjw, hw]
            exact ⟨b' :: post, by simp⟩
          have := codeWord_prefix_free hbuild hne hj hs hjz hnz hpre
          subst this
          rw [← hjw] at hw
          have := congrArg length hw
          simp at this
      rw [hnone]
      have hpow : 2 ^ pre.length * 2 = 2 ^ (pre ++ [b]).length := by
        rw [← hlen, pow_succ]
      rw [hpow]
      exact decodeLoop_word hs hnz rest (b' :: post) (pre ++ [b]) n (by simp [hw])
        (by simp) (by simpa using hn)

theorem decode_word (hs : s < lengths.length) (hnz : lengths.getD s 0 ≠ 0) (rest : List Bool) :
    (decode table : BitParser Nat) (codeWord lengths s ++ rest) = .ok s rest := by
  obtain ⟨_, _, hle, _, _⟩ := build_spec hbuild hne
  have hlen : (codeWord lengths s).length = lengths.getD s 0 := by
    rw [codeWord, wordOf_length]
  refine decodeLoop_word hbuild hne hs hnz rest (codeWord lengths s) [] 15 rfl ?_ ?_
  · intro hnil
    rw [hnil] at hlen
    exact hnz hlen.symm
  · rw [hlen]
    exact hle s

end Table

end Dyn.Compress
