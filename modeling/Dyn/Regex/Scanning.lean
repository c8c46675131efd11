import Dyn.Regex.Compile
import Dyn.Regex.Syntax

/-!
# What the scans of a pattern find

The parts of a pattern that the scans return are spelled as the syntax says: the text of an
atom that is not a group, that of a quantifier, and the branches of an expression.
-/

namespace Dyn.Regex

open List

/-- The bytes of a pattern from index to index. -/
def slice (pattern : List UInt8) (lo hi : Nat) : List UInt8 := (pattern.drop lo).take (hi - lo)

section Slices

variable {pattern : List UInt8} {lo mid hi i : Nat}

theorem slice_length (h : hi ≤ pattern.length) : (slice pattern lo hi).length = hi - lo := by
  rw [slice, length_take, length_drop]
  omega

theorem slice_append (h : lo ≤ mid) (h' : mid ≤ hi) :
    slice pattern lo mid ++ slice pattern mid hi = slice pattern lo hi := by
  obtain ⟨a, rfl⟩ := Nat.exists_eq_add_of_le h
  obtain ⟨b, rfl⟩ := Nat.exists_eq_add_of_le h'
  unfold slice
  rw [show lo + a + b - lo = a + b by omega, take_add, drop_drop]
  congr 2 <;> omega

theorem slice_of_drop {text rest : List UInt8} (h : pattern.drop i = text ++ rest) :
    slice pattern i (i + text.length) = text := by
  rw [slice, h, Nat.add_sub_cancel_left, take_left]

theorem drop_of_getElem {byte : UInt8} (h : pattern[i]? = some byte) :
    pattern.drop i = byte :: pattern.drop (i + 1) := by
  obtain ⟨hlt, hget⟩ := List.getElem?_eq_some_iff.mp h
  rw [drop_eq_getElem_cons hlt, hget]

theorem slice_one {byte : UInt8} (h : pattern[i]? = some byte) : slice pattern i (i + 1) = [byte] :=
  @slice_of_drop pattern i [byte] _ (drop_of_getElem h)

theorem slice_all : slice pattern 0 pattern.length = pattern := by
  rw [slice, drop_zero, Nat.sub_zero, take_length]

theorem slice_getElem {text rest : List UInt8} (h : pattern.drop i = text ++ rest) {k : Nat}
    (hk : k < text.length) : pattern[i + k]? = text[k]? := by
  rw [← getElem?_drop, h, getElem?_append_left hk]

end Slices

theorem widthLoop_spec (w : Nat) (bytes : List UInt8) : widthLoop w bytes = 1 ∨
    ∃ members rest, bytes = members ++ 93 :: rest ∧ Members members ∧
      widthLoop w bytes = w + members.length + 1 := by
  induction w, bytes using widthLoop.induct with
  | case1 w => exact .inl rfl
  | case2 w byte rest ih =>
    rcases ih with h | ⟨members, after, rfl, hmembers, h⟩
    · exact .inl h
    refine .inr ⟨92 :: byte :: members, after, rfl, .escape hmembers, ?_⟩
    change widthLoop (w + 2) _ = _
    rw [h, length_cons, length_cons]
    omega
  | case3 w rest hescape =>
    exact .inr ⟨[], rest, rfl, .nil, rfl⟩
  | case4 w byte rest hescape hclose ih =>
    have hloop : widthLoop w (byte :: rest) = widthLoop (w + 1) rest := by
      rw [widthLoop, if_neg hclose]
      exact hescape
    rw [hloop]
    rcases ih with h | ⟨members, after, rfl, hmembers, h⟩
    · exact .inl h
    refine .inr ⟨byte :: members, after, rfl, .byte (fun hc => ?_) hclose hmembers, ?_⟩
    · cases members with
      | nil | cons b bs => exact hescape _ _ hc rfl
    · rw [h, length_cons]
      omega

/-- The scan for the end of a group ends at a parenthesis, or behind the pattern. -/
theorem closingLoop_spec : ∀ (bytes : List UInt8) (nesting : Nesting) (i : Nat),
    i ≤ closingLoop nesting i bytes ∧ (closingLoop nesting i bytes < i + bytes.length →
      bytes[closingLoop nesting i bytes - i]? = some 41)
  | [], nesting, i => ⟨le_refl i, fun h => absurd h (Nat.lt_irrefl _)⟩
  | byte :: rest, nesting, i => by
    rw [closingLoop]
    split_ifs with hplain
    · refine ⟨le_refl i, fun _ => ?_⟩
      have hbyte : byte = 41 := by
        unfold Nesting.plain at hplain
        simp only [Bool.and_eq_true, beq_iff_eq] at hplain
        exact hplain.2
      rw [Nat.sub_self, hbyte]
      rfl
    obtain ⟨hle, hget⟩ := closingLoop_spec rest (nesting.step byte) (i + 1)
    refine ⟨by omega, fun h => ?_⟩
    rw [length_cons] at h
    rw [← hget (by omega)]
    generalize closingLoop (nesting.step byte) (i + 1) rest = close at *
    obtain ⟨k, rfl⟩ := Nat.exists_eq_add_of_le hle
    rw [show i + 1 + k - i = k + 1 by omega, show i + 1 + k - (i + 1) = k by omega]
    rfl

theorem closing_spec {pattern : List UInt8} {i : Nat} (h : closing pattern i < pattern.length) :
    i ≤ closing pattern i ∧ pattern[closing pattern i]? = some 41 := by
  unfold closing at *
  obtain ⟨hle, hget⟩ := closingLoop_spec (pattern.drop i) {} i
  refine ⟨hle, ?_⟩
  rw [length_drop] at hget
  rw [← hget (by omega), getElem?_drop]
  congr 1
  omega

theorem plainOp_spec {byte : UInt8} {op : Op} (h : plainOp byte = some op) :
    op = .any ∧ byte = 46 ∨ op = .beginText ∧ byte = 94 ∨ op = .endText ∧ byte = 36 ∨
      op = .char ∧ byte ∉ [41, 124, 42, 43, 63, 123, 46, 94, 36] := by
  unfold plainOp at h
  split_ifs at h with h1 h2 h3 h4
  · cases h
    exact .inl ⟨rfl, h2⟩
  · cases h
    exact .inr (.inl ⟨rfl, h3⟩)
  · cases h
    exact .inr (.inr (.inl ⟨rfl, h4⟩))
  cases h
  refine .inr (.inr (.inr ⟨rfl, ?_⟩))
  simp [h1, h2, h3, h4]

/-- What begins at an index, before the end of the part that is parsed. -/
inductive Begins (pattern : List UInt8) (i hi : Nat) : Atom → Prop
  | group {close : Nat} (opens : pattern[i]? = some 40) (le : i + 1 ≤ close) (lt : close < hi)
      (closes : pattern[close]? = some 41) : Begins pattern i hi (.group close)
  | charClass {members : List UInt8} (h : Members members)
      (text : slice pattern i (i + (members.length + 2)) = 91 :: (members ++ [93]))
      (le : i + (members.length + 2) ≤ hi) : Begins pattern i hi (.charClass (members.length + 2))
  | escape {byte : UInt8} (text : slice pattern i (i + 2) = [92, byte]) (le : i + 2 ≤ hi) :
      Begins pattern i hi (.escape byte)
  | plain {op : Op} {byte : UInt8} {tree : Tree} (spells : Spells i .atom tree [byte])
      (core : ∀ g, tree.core g = .leaf { op := op, byte := byte }) (groups : tree.groups = 0)
      (text : slice pattern i (i + 1) = [byte]) (le : i + 1 ≤ hi) : Begins pattern i hi (.plain op byte)

variable {pattern : List UInt8}

variable {i hi : Nat} {q : Quantifier} {text : List UInt8}

theorem scanAtom_spec {result : Atom} (hi_lt : i < hi) (hi_le : hi ≤ pattern.length)
    (h : scanAtom pattern i hi = some result) : Begins pattern i hi result := by
  unfold scanAtom at h
  cases hbyte : pattern[i]? with
  | none =>
    rw [hbyte] at h
    cases h
  | some byte =>
    rw [hbyte] at h
    dsimp only at h
    have hdrop := drop_of_getElem hbyte
    split_ifs at h with hgroup hclose hclass hwidth hescape hend
    · cases h
      obtain ⟨hle, hget⟩ := @closing_spec pattern (i + 1) (by omega)
      exact .group (hgroup ▸ hbyte) hle (by omega) hget
    · cases h
      rw [not_or, not_not] at hwidth
      obtain ⟨hle, hget⟩ := hwidth
      have hwidth1 : width pattern i ≠ 1 := by
        intro hc
        rw [hc, Nat.add_sub_cancel, hbyte, hclass] at hget
        cases hget
      rcases widthLoop_spec 1 (pattern.drop (i + 1)) with h1 | ⟨members, rest, hrest, hmembers, hw⟩
      · exact absurd h1 hwidth1
      have hsame : width pattern i = members.length + 2 := by
        rw [width, hw]
        omega
      rw [hsame] at hle ⊢
      refine .charClass hmembers ?_ (Nat.not_lt.mp hle)
      have htext := @slice_of_drop pattern i (91 :: (members ++ [93])) rest (by
        rw [hdrop, hclass, hrest, cons_append, append_assoc]
        rfl)
      rwa [length_cons, length_append, length_singleton] at htext
    · rw [Option.map_eq_some_iff] at h
      obtain ⟨escaped, hget, rfl⟩ := h
      refine .escape ?_ (by omega)
      rw [← @slice_append pattern i (i + 1) (i + 2) (by omega) (by omega), slice_one hbyte,
        show i + 2 = i + 1 + 1 from rfl, slice_one hget, hescape]
      rfl
    · rw [Option.map_eq_some_iff] at h
      obtain ⟨op, hop, rfl⟩ := h
      have htext := slice_one hbyte
      rcases plainOp_spec hop with ⟨rfl, rfl⟩ | ⟨rfl, rfl⟩ | ⟨rfl, rfl⟩ | ⟨rfl, hnot⟩
      · exact .plain .any (fun _ => rfl) rfl htext hi_lt
      · exact .plain .beginText (fun _ => rfl) rfl htext hi_lt
      · exact .plain .endText (fun _ => rfl) rfl htext hi_lt
      refine .plain (.char ?_) (fun _ => rfl) rfl htext hi_lt
      simp only [Ordinary, mem_cons, not_mem_nil, or_false, not_or] at hnot ⊢
      exact ⟨hgroup, hnot.1, hnot.2.2.1, hnot.2.2.2.1, hnot.2.2.2.2.2.2.1, hnot.2.2.2.2.1, hclass,
        hescape, hnot.2.2.2.2.2.2.2.1, hnot.2.2.2.2.2.2.2.2, hnot.2.2.2.2.2.1, hnot.2.1⟩

/-- The most times that a quantifier allows. -/
def Quantifier.most (q : Quantifier) : Option Nat := if q.unbounded then none else some q.maximum

theorem countLoop_spec : ∀ (bytes : List UInt8) {value i n i' : Nat} {rest : List UInt8},
    countLoop value i bytes = some (n, i', rest) → ∃ digits, bytes = digits ++ rest ∧
      Decimal value digits n ∧ i' = i + digits.length ∧ (startsWithDigit bytes = true → digits ≠ [])
  | [], value, i, n, i', rest, h => by
    cases h
    exact ⟨[], rfl, .nil, rfl, fun hc => by cases hc⟩
  | byte :: bytes, value, i, n, i', rest, h => by
    rw [countLoop] at h
    split_ifs at h with hdigit
    · dsimp only at h
      split_ifs at h with hbig
      obtain ⟨digits, rfl, hdecimal, rfl, _⟩ := countLoop_spec bytes h
      have hten : (byte - 48).toNat ≤ noPatch := by
        have hbyte : (byte - 48).toNat < 256 := (byte - 48).toNat_lt
        have hpatch : 256 ≤ noPatch := by decide
        omega
      refine ⟨byte :: digits, rfl, .digit hdigit.1 hdigit.2 ?_ hdecimal, ?_,
        fun _ => cons_ne_nil _ _⟩
      · omega
      · rw [length_cons]
        omega
    · cases h
      refine ⟨[], rfl, .nil, rfl, fun hc => ?_⟩
      simp only [startsWithDigit, Bool.and_eq_true, decide_eq_true_eq] at hc
      exact absurd hc hdigit

theorem countEnd_spec {minimum maximum : Nat} {unbounded : Bool} {rest : List UInt8}
    (h : countEnd minimum maximum unbounded i rest = some q) : ∃ after, rest = 125 :: after ∧
      (unbounded = false → minimum ≤ maximum) ∧
      q = { minimum := minimum, maximum := maximum, unbounded := unbounded, after := i + 1 } := by
  unfold countEnd at h
  split_ifs at h with hbad
  cases h
  rw [not_or, not_not, not_and, Nat.not_lt] at hbad
  obtain ⟨hhead, hle⟩ := hbad
  obtain ⟨after, rfl⟩ := head?_eq_some_iff.mp hhead
  exact ⟨after, rfl, fun hu => hle (by rw [hu]; exact Bool.false_ne_true), rfl⟩

theorem counted_spec (h : counted pattern i = some q) :
    ∃ text rest, pattern.drop i = text ++ rest ∧
      Quantifies text q.minimum q.most ∧ q.after = i + text.length := by
  unfold counted at h
  split at h
  case h_2 => cases h
  case h_1 bytes hbytes =>
    split at h
    case h_1 => cases h
    case h_2 minimum i1 rest hcount =>
      obtain ⟨digits, rfl, hdecimal, rfl, _⟩ := countLoop_spec bytes hcount
      split_ifs at h with hempty
      have hdigits : digits ≠ [] := fun hc => hempty (by rw [hc]; rfl)
      split at h
      case h_1 rest =>
        split_ifs at h with hmore
        · split at h
          case h_1 => cases h
          case h_2 maximum i2 rest hcount' =>
            obtain ⟨digits', rfl, hdecimal', rfl, hsome⟩ := countLoop_spec _ hcount'
            obtain ⟨after, rfl, hle, rfl⟩ := countEnd_spec h
            refine ⟨123 :: (digits ++ 44 :: (digits' ++ [125])), after, ?_,
              .between hdecimal hdigits hdecimal' (hsome hmore) (hle rfl), ?_⟩
            · simp [hbytes]
            · simp only [length_cons, length_append, length_nil]
              omega
        obtain ⟨after, rfl, _, rfl⟩ := countEnd_spec h
        refine ⟨123 :: (digits ++ [44, 125]), after, ?_, .atLeast hdecimal hdigits, ?_⟩
        · simp [hbytes]
        · simp only [length_cons, length_append, length_nil]
          omega
      case h_2 =>
        obtain ⟨after, rfl, _, rfl⟩ := countEnd_spec h
        refine ⟨123 :: (digits ++ [125]), after, ?_, .exactly hdecimal hdigits, ?_⟩
        · simp [hbytes]
        · simp only [length_cons, length_append, length_nil]
          omega

theorem Decimal.inner {before n : Nat} (h : Decimal before text n) :
    ∀ byte ∈ text, byte ≠ 41 ∧ byte ≠ 124 := by
  induction h with
  | nil => exact nofun
  | digit low high fits h ih =>
    intro b hb
    rcases mem_cons.mp hb with rfl | hb
    · constructor
      · rintro rfl
        exact absurd low (by decide)
      · rintro rfl
        exact absurd high (by decide)
    · exact ih b hb

theorem Quantifies.inner {minimum : Nat} {most : Option Nat} (h : Quantifies text minimum most) :
    text ≠ [] ∧ ∀ byte ∈ text, byte ≠ 41 ∧ byte ≠ 124 := by
  cases h with
  | star | plus | optional => simp
  | exactly h _ | atLeast h _ =>
    refine ⟨cons_ne_nil _ _, forall_mem_cons.mpr ⟨by decide, ?_⟩⟩
    exact forall_mem_append.mpr ⟨h.inner, by simp⟩
  | between h _ h' _ _ =>
    refine ⟨cons_ne_nil _ _, forall_mem_cons.mpr ⟨by decide, ?_⟩⟩
    refine forall_mem_append.mpr ⟨h.inner, forall_mem_cons.mpr ⟨by decide, ?_⟩⟩
    exact forall_mem_append.mpr ⟨h'.inner, by simp⟩

/-- The parts that are parsed end with the pattern, or at a byte that ends a branch or a group. -/
structure Ends (pattern : List UInt8) (hi : Nat) : Prop where
  inside : hi ≤ pattern.length
  stop : ∀ byte, pattern[hi]? = some byte → byte = 41 ∨ byte = 124

theorem scanQuantifier_spec (hi_le : i ≤ hi) (ends : Ends pattern hi)
    (h : scanQuantifier pattern i hi = some q) :
    ∃ text, slice pattern i q.after = text ∧ Quantifies text q.minimum q.most ∧
      i < q.after ∧ q.after ≤ hi := by
  unfold scanQuantifier at h
  split_ifs at h with hstar hplus hquestion
  · cases h
    exact ⟨_, slice_one hstar.2, .star, Nat.lt_succ_self _, hstar.1⟩
  · cases h
    exact ⟨_, slice_one hplus.2, .plus, Nat.lt_succ_self _, hplus.1⟩
  · cases h
    exact ⟨_, slice_one hquestion.2, .optional, Nat.lt_succ_self _, hquestion.1⟩
  obtain ⟨text, rest, hdrop, hquantifies, hafter⟩ := counted_spec h
  obtain ⟨hne, hinner⟩ := hquantifies.inner
  have hpos := length_pos_of_ne_nil hne
  refine ⟨text, by rw [hafter, slice_of_drop hdrop], hquantifies, by omega, ?_⟩
  by_contra hbeyond
  have hk : hi - i < text.length := by omega
  have hget := slice_getElem hdrop hk
  rw [Nat.add_sub_cancel' hi_le, getElem?_eq_getElem hk] at hget
  have hbyte := hinner _ (getElem_mem hk)
  rcases ends.stop _ hget with hc | hc
  · exact hbyte.1 hc
  · exact hbyte.2 hc

def Branches (pattern : List UInt8) (hi : Nat) : Nat → List Nat → Prop
  | _, [] => False
  | branch, split :: ends => branch ≤ split ∧ (ends = [] ∧ split = hi ∨
      split < hi ∧ pattern[split]? = some 124 ∧ Branches pattern hi (split + 1) ends)

theorem splitLoop_spec : ∀ (bytes : List UInt8) (nesting : Nesting)
    {branch i : Nat}, branch ≤ i → i + bytes.length = hi →
    (∀ k, k < bytes.length → pattern[i + k]? = bytes[k]?) →
    Branches pattern hi branch (splitLoop nesting i bytes)
  | [], nesting, branch, i, hle, hlen, _ => ⟨hle, .inl ⟨rfl, hlen⟩⟩
  | byte :: bytes, nesting, branch, i, hle, hlen, hget => by
    rw [length_cons] at hlen
    have hrest : ∀ k, k < bytes.length → pattern[i + 1 + k]? = bytes[k]? := fun k hk => by
      have h := hget (k + 1) (by rw [length_cons]; omega)
      rw [show i + (k + 1) = i + 1 + k by omega] at h
      exact h
    rw [splitLoop]
    split_ifs with hplain
    · refine ⟨hle, .inr ⟨by omega, ?_, ?_⟩⟩
      · have hbyte : byte = 124 := by
          unfold Nesting.plain at hplain
          simp only [Bool.and_eq_true, beq_iff_eq] at hplain
          exact hplain.2
        have h := hget 0 (Nat.succ_pos _)
        rwa [hbyte] at h
      · exact splitLoop_spec bytes nesting le_rfl (by omega) hrest
    · exact splitLoop_spec bytes _ (by omega) (by omega) hrest

/-- **The branches of an expression** end at bars, and the last one at its end. -/
theorem splits_spec {lo : Nat} (h : lo ≤ hi) (hi_le : hi ≤ pattern.length) :
    Branches pattern hi lo (splits pattern lo hi) := by
  refine splitLoop_spec _ _ (le_refl lo) ?_ fun k hk => ?_
  · rw [length_take, length_drop]
    omega
  · rw [length_take] at hk
    rw [getElem?_take, if_pos (by omega), getElem?_drop]

end Dyn.Regex
