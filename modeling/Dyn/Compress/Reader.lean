import Dyn.Compress.Deflate

/-!
# std/compress/deflate: the bit reader as a bit parser

The reader keeps a partial byte in `value` and `count` and loads whole bytes from its
input.  Its meaning is the bit list `remaining`; `Refines` says that code run on the
reader does what the same code run on the bit list does.  The relation is closed under
sequencing, so it holds for every function of the engine that only reads.
-/

namespace Dyn.Compress

open Lib List

/-- The bits the reader has yet to deliver. -/
def remaining (r : Bits) : List Bool :=
  bitsOf r.count r.value ++ streamBits (r.input.drop r.at_)

/-- A reader between two reads: less than a byte is held back. -/
structure ReaderOk (r : Bits) : Prop where
  value_lt : r.value < 2 ^ r.count
  count_lt : r.count < 8
  at_le : r.at_ ≤ r.input.length
  not_short : r.shortInput = false

theorem remaining_length (r : Bits) :
    (remaining r).length = r.count + 8 * (r.input.length - r.at_) := by
  simp [remaining]

variable {r : Bits} {α : Type} {p : BitParser α}

theorem ReaderOk.remaining_mod (h : ReaderOk r) : (remaining r).length % 8 = r.count := by
  have := h.count_lt
  rw [remaining_length]
  omega

theorem ReaderOk.at_eq (h : ReaderOk r) : r.at_ = r.input.length - (remaining r).length / 8 := by
  have h1 := h.count_lt
  have h2 := h.at_le
  rw [remaining_length]
  omega

theorem remaining_load {byte : UInt8} (hv : r.value < 2 ^ r.count)
    (hb : r.input[r.at_]? = some byte) :
    remaining { r with
      value := r.value + byte.toNat * 2 ^ r.count
      at_ := r.at_ + 1
      count := r.count + 8 } = remaining r ∧
    r.value + byte.toNat * 2 ^ r.count < 2 ^ (r.count + 8) := by
  obtain ⟨hlt, hget⟩ := List.getElem?_eq_some_iff.mp hb
  constructor
  · simp only [remaining]
    rw [bitsOf_pack 8 byte.toNat hv, drop_eq_getElem_cons hlt, hget, streamBits_cons, append_assoc]
  have hbyte : byte.toNat < 2 ^ 8 := byte.toNat_lt
  calc r.value + byte.toNat * 2 ^ r.count
      < 2 ^ r.count + byte.toNat * 2 ^ r.count := by omega
    _ = (byte.toNat + 1) * 2 ^ r.count := by ring
    _ ≤ 2 ^ 8 * 2 ^ r.count := Nat.mul_le_mul_right _ hbyte
    _ = 2 ^ (r.count + 8) := by rw [pow_add, mul_comm]

/-- The loading loop ends with enough bits, or at the end of the input. -/
theorem loadBytes_spec (count : Nat) :
    ∀ (fuel : Nat) (r : Bits), r.value < 2 ^ r.count → r.at_ ≤ r.input.length →
      count ≤ r.count + 8 * fuel → r.count < count + 8 →
      (count ≤ (remaining r).length →
        ∃ r', loadBytes count fuel r = (true, r') ∧ remaining r' = remaining r ∧
          r'.value < 2 ^ r'.count ∧ count ≤ r'.count ∧ r'.count < count + 8 ∧
          r'.at_ ≤ r'.input.length ∧ r'.input = r.input ∧ r'.shortInput = r.shortInput) ∧
      ((remaining r).length < count →
        ∃ r', loadBytes count fuel r = (false, r') ∧ r'.shortInput = true)
  | 0, r, hv, ha, hf, hc => by
    constructor
    · intro _
      exact ⟨r, by simp [loadBytes]; omega, rfl, hv, by omega, hc, ha, rfl, rfl⟩
    intro hlt
    rw [remaining_length] at hlt
    omega
  | fuel + 1, r, hv, ha, hf, hc => by
    unfold loadBytes
    split_ifs with hmore
    · cases hb : r.input[r.at_]? with
      | none =>
        have hend : r.input.length ≤ r.at_ := getElem?_eq_none_iff.mp hb
        constructor
        · intro hle
          rw [remaining_length] at hle
          omega
        · intro _
          exact ⟨_, rfl, rfl⟩
      | some byte =>
        obtain ⟨hrem, hval⟩ := remaining_load hv hb
        obtain ⟨hlt, _⟩ := List.getElem?_eq_some_iff.mp hb
        obtain ⟨h1, h2⟩ := loadBytes_spec count fuel
          { r with
            value := r.value + byte.toNat * 2 ^ r.count
            at_ := r.at_ + 1
            count := r.count + 8 }
          hval hlt (by simp only; omega) (by simp only; omega)
        rw [hrem] at h1 h2
        exact ⟨h1, h2⟩
    · constructor
      · intro _
        exact ⟨r, rfl, rfl, hv, by omega, hc, ha, rfl, rfl⟩
      intro hlt
      rw [remaining_length] at hlt
      omega

/-- How a read of the reader `r` ended, compared with a parse of its bits. -/
def Outcome {α : Type} (r : Bits) (result : Option α × Bits) : Parse α → Prop
  | .ok a rest =>
      result.1 = some a ∧ remaining result.2 = rest ∧ ReaderOk result.2 ∧
        result.2.input = r.input
  | .short => result.1 = none ∧ result.2.shortInput = true
  | .bad => result.1 = none ∧ result.2.shortInput = false

/-- The reader code `f` computes what the parser `p` says. -/
def Refines {α : Type} (f : Read α) (p : BitParser α) : Prop :=
  ∀ r, ReaderOk r → Outcome r (f r) (p (remaining r))

theorem refines_bits (n : Nat) :
    Refines (BitSource.bits n) (BitSource.bits n : BitParser Nat) := by
  intro r hr
  show Outcome r (readBits n r) (BitParser.take n (remaining r))
  obtain ⟨h1, h2⟩ := loadBytes_spec n n r hr.value_lt hr.at_le (by omega)
    (by have := hr.count_lt; omega)
  unfold readBits BitParser.take
  split_ifs with hn
  · obtain ⟨r', hload, hrem, hv, hc1, hc2, hat, hin, hshort⟩ := h1 hn
    rw [hload]
    have hsplit : remaining r' = bitsOf n r'.value ++ (bitsOf (r'.count - n) (r'.value / 2 ^ n) ++
          streamBits (r'.input.drop r'.at_)) := by
      rw [← append_assoc, ← bitsOf_add, Nat.add_sub_cancel' hc1]
      rfl
    refine ⟨?_, ?_, ⟨?_, ?_, hat, ?_⟩, hin⟩
    · show some (r'.value &&& (2 ^ n - 1)) = _
      rw [Nat.and_two_pow_sub_one_eq_mod, ← hrem, hsplit,
        take_left' (bitsOf_length n _), valueOf_bitsOf]
    · rw [← hrem, hsplit, drop_left' (bitsOf_length n _)]
      rfl
    · rw [Nat.div_lt_iff_lt_mul (Nat.two_pow_pos n), ← pow_add, Nat.sub_add_cancel hc1]
      exact hv
    · show r'.count - n < 8
      omega
    · rw [hshort, hr.not_short]
  · obtain ⟨r', hload, hshort⟩ := h2 (by omega)
    rw [hload]
    exact ⟨rfl, hshort⟩

theorem refines_dropPartial :
    Refines (BitSource.dropPartial) (BitSource.dropPartial : BitParser Unit) := by
  intro r hr
  refine ⟨rfl, ?_, ⟨?_, ?_, hr.at_le, hr.not_short⟩, rfl⟩
  · have hdrop : (remaining r).drop r.count = streamBits (r.input.drop r.at_) :=
      drop_left' (bitsOf_length _ _)
    rw [hr.remaining_mod, hdrop]
    rfl
  · exact Nat.one_pos
  · exact Nat.succ_pos _

theorem refines_failRead :
    Refines (BitSource.failRead : Read α) (BitSource.failRead : BitParser α) := by
  intro r hr
  exact ⟨rfl, hr.not_short⟩

theorem refines_pure (a : α) : Refines (Pure.pure a : Read α) (Pure.pure a : BitParser α) := by
  intro r hr
  exact ⟨rfl, rfl, hr, rfl⟩

theorem refines_bind {β : Type} {f : Read α} {g : α → Read β} {q : α → BitParser β}
    (hf : Refines f p) (hg : ∀ a, Refines (g a) (q a)) : Refines (f >>= g) (p >>= q) := by
  intro r hr
  have h := hf r hr
  change Outcome r ((f >>= g) r) (BitParser.bind p q (remaining r))
  unfold BitParser.bind
  simp only [bind]
  cases hres : f r with
  | mk a reader =>
    rw [hres] at h
    cases hp : p (remaining r) with
    | ok b rest =>
      rw [hp] at h
      obtain ⟨h1, h2, h3, h4⟩ := h
      subst h1 h2
      have hnext := hg b reader h3
      show Outcome r (g b reader) (q b (remaining reader))
      revert hnext
      cases q b (remaining reader) with
      | ok c rest =>
        rintro ⟨h5, h6, h7, h8⟩
        exact ⟨h5, h6, h7, h8.trans h4⟩
      | short | bad => exact id
    | short | bad =>
      rw [hp] at h
      obtain ⟨h1, h2⟩ := h
      subst h1
      exact ⟨rfl, h2⟩

theorem refines_ite {c : Prop} [Decidable c] {f g : Read α} {q : BitParser α} (hf : Refines f p)
    (hg : Refines g q) : Refines (if c then f else g) (if c then p else q) := by
  split_ifs
  · exact hf
  · exact hg

theorem refines_decodeLoop (table : Huffman) :
    ∀ n length code factor : Nat,
      Refines (decodeLoop table n length code factor) (decodeLoop table n length code factor)
  | 0, _, _, _ => refines_failRead
  | n + 1, length, code, factor => by
    refine refines_bind (refines_bits 1) (fun bit => ?_)
    simp only
    cases findSymbol length (code + bit * factor) table.lengths table.codes 0 with
    | some symbol => exact refines_pure symbol
    | none => exact refines_decodeLoop table n _ _ _

theorem refines_decode (table : Huffman) : Refines (decode table) (decode table) :=
  refines_decodeLoop table 15 1 0 1

theorem refines_readCodeLengths :
    ∀ order lengths : List Nat,
      Refines (readCodeLengths order lengths) (readCodeLengths order lengths)
  | [], lengths => refines_pure lengths
  | symbol :: order, lengths => by
    exact refines_bind (refines_bits 3)
      (fun value => refines_readCodeLengths order (lengths.set symbol value))

theorem refines_readLengths (table : Huffman) (total : Nat) :
    ∀ (fuel : Nat) (lengths : List Nat),
      Refines (readLengths table total fuel lengths) (readLengths table total fuel lengths)
  | 0, lengths => refines_pure lengths
  | fuel + 1, lengths => by
    have ih := refines_readLengths table total fuel
    refine refines_ite ?_ (refines_pure lengths)
    refine refines_bind (refines_decode table) (fun symbol => ?_)
    refine refines_ite (ih _) (refines_ite (refines_ite refines_failRead ?_)
      (refines_ite ?_ (refines_ite ?_ refines_failRead)))
    · exact refines_bind (refines_bits 2)
        (fun value => refines_ite refines_failRead (ih _))
    · exact refines_bind (refines_bits 3)
        (fun value => refines_ite refines_failRead (ih _))
    · exact refines_bind (refines_bits 7)
        (fun value => refines_ite refines_failRead (ih _))

theorem refines_buildTables (literal distance : List Nat) :
    Refines (buildTables literal distance) (buildTables literal distance) := by
  unfold buildTables
  cases build literal false false with
  | none => exact refines_failRead
  | some literalTable =>
    split_ifs
    · exact refines_failRead
    cases build distance true false with
    | none => exact refines_failRead
    | some distanceTable => exact refines_pure _

theorem refines_tables (kind : Nat) : Refines (tables kind) (tables kind) := by
  refine refines_ite (refines_buildTables _ _) ?_
  refine refines_bind (refines_bits 5) (fun value => ?_)
  refine refines_ite refines_failRead ?_
  refine refines_bind (refines_bits 5) (fun _ => ?_)
  refine refines_bind (refines_bits 4) (fun _ => ?_)
  refine refines_bind (refines_readCodeLengths _ _) (fun codeLengths => ?_)
  cases build codeLengths false false with
  | none => exact refines_failRead
  | some codeTable =>
    exact refines_bind (refines_readLengths _ _ _ _)
      (fun lengths => refines_buildTables _ _)

theorem refines_headerBody (final kind : Nat) :
    Refines (headerBody final kind) (headerBody final kind) := by
  refine refines_ite (refines_pure _) (refines_ite ?_ ?_)
  · refine refines_bind refines_dropPartial (fun _ => ?_)
    refine refines_bind (refines_bits 16) (fun _ => ?_)
    exact refines_bind (refines_bits 16) (fun _ => refines_pure _)
  · exact refines_bind (refines_tables kind) (fun _ => refines_pure _)

theorem refines_blockHeader : Refines blockHeader blockHeader :=
  refines_bind (refines_bits 1) (fun final =>
    refines_bind (refines_bits 2) (fun kind => refines_headerBody final kind))

theorem refines_symbolItem (distance : Huffman) (symbol : Nat) :
    Refines (symbolItem distance symbol) (symbolItem distance symbol) := by
  refine refines_ite (refines_pure _) (refines_ite (refines_pure _)
    (refines_ite (refines_pure _) ?_))
  generalize symbol - 257 = index
  refine refines_bind (refines_bits _) (fun _ => ?_)
  refine refines_bind (refines_decode distance) (fun _ => ?_)
  refine refines_ite (refines_pure _) ?_
  exact refines_bind (refines_bits _) (fun _ => refines_pure _)

theorem refines_blockItem (literal distance : Huffman) :
    Refines (blockItem literal distance) (blockItem literal distance) :=
  refines_bind (refines_decode literal) (fun symbol => refines_symbolItem distance symbol)

end Dyn.Compress
