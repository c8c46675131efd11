import Dyn.Compress.Reader

/-!
# std/compress/deflate: the inflate engine on bit lists

The abstract engine: a configuration holds the bits left and all output so far, and
`absRound` is one round of the decoding loop with no buffers in sight.  `Runs` is its
reflexive transitive closure.

`resumeLoop_spec` connects the two levels.  The loop of the source stops, after some
number of abstract rounds, for one of four reasons: the stream is complete, the input
ran out inside a round (which is then undone), the stream is invalid, or the output
buffer cannot hold what the next round would write (also undone).
-/

namespace Dyn.Compress

open Lib List Function
open BitParser (within_bind Within within_pure Steady within_take bind_ok within_reject take_ok within_mono)

/-- A decoder with the whole output at hand. -/
structure Config where
  bits : List Bool
  literal : Huffman := {}
  distance : Huffman := {}
  stage : Nat := 0
  final : Nat := 0
  stored : Nat := 0
  out : List UInt8 := []

/-- Append `n` bytes, each a copy of the one `back` places before it. -/
def copyOut (back : Nat) : Nat → List UInt8 → List UInt8
  | 0, out => out
  | n + 1, out => copyOut back n (out ++ [out.getD (out.length - back) 0])

@[simp] theorem copyOut_length (back : Nat) :
    ∀ (n : Nat) (out : List UInt8), (copyOut back n out).length = out.length + n
  | 0, out => rfl
  | n + 1, out => by
    rw [copyOut, copyOut_length back n, length_append, length_singleton]
    omega

inductive Next where
  | more (c : Config)
  | short
  | bad

namespace Config

def endBlock (c : Config) : Config := { c with stage := if c.final ≠ 0 then 3 else 0 }

/-- The end of a round that read a block header. -/
def afterHeader (c : Config) : Parse BlockHeader → Next
  | .short => .short
  | .bad => .bad
  | .ok .reserved _ => .bad
  | .ok (.stored final length inverse) rest =>
      if length ^^^ 65535 ≠ inverse then .bad
      else .more { c with bits := rest, stored := length, stage := 1, final := final }
  | .ok (.coded final literal distance) rest =>
      .more { c with
        bits := rest, literal := literal, distance := distance, stage := 2, final := final }

/-- The end of a round that read a byte of a stored block. -/
def afterByte (c : Config) : Parse Nat → Next
  | .short => .short
  | .bad => .bad
  | .ok byte rest =>
      .more { c with bits := rest, stored := c.stored - 1, out := c.out ++ [UInt8.ofNat byte] }

def afterItem (c : Config) : Parse BlockItem → Next
  | .short => .short
  | .bad => .bad
  | .ok .invalid _ => .bad
  | .ok .stop rest => .more { c with bits := rest }.endBlock
  | .ok (.literal byte) rest =>
      .more { c with bits := rest, out := c.out ++ [UInt8.ofNat byte] }
  | .ok (.copy length back) rest =>
      if back = 0 ∨ back > c.out.length then .bad
      else .more { c with bits := rest, out := copyOut back length c.out }

end Config

def absRound (c : Config) : Next :=
  if c.stage = 0 then c.afterHeader ((blockHeader : BitParser BlockHeader) c.bits)
  else if c.stage = 1 then
    if c.stored = 0 then .more c.endBlock else c.afterByte (BitParser.take 8 c.bits)
  else c.afterItem ((blockItem c.literal c.distance : BitParser BlockItem) c.bits)

inductive Runs : Config → Config → Prop
  | refl (c : Config) : Runs c c
  | step {c c' d : Config} : c.stage ≠ 3 → absRound c = .more c' → Runs c' d → Runs c d

variable {c d : Config} {bs rest : List Bool} {capacity : Nat} {circular : Bool}
  {destination : Nat → UInt8}

theorem Runs.trans {e : Config} (h1 : Runs c d) (h2 : Runs d e) : Runs c e := by
  induction h1 with
  | refl => exact h2
  | step hs hr _ ih => exact Runs.step hs hr (ih h2)

theorem Runs.single (hs : c.stage ≠ 3) (hr : absRound c = .more d) : Runs c d :=
  Runs.step hs hr (Runs.refl d)

/-- The engine is deterministic: of two runs one continues the other. -/
theorem Runs.linear {e : Config} (h1 : Runs c d) (h2 : Runs c e) : Runs d e ∨ Runs e d := by
  induction h1 with
  | refl => exact .inl h2
  | step hs hr hrest ih =>
    cases h2 with
    | refl => exact .inr (Runs.step hs hr hrest)
    | step hs' hr' hrest' =>
      rw [hr] at hr'
      injection hr' with he
      subst he
      exact ih hrest'

theorem Runs.eq_of_done (h : Runs c d) (hc : c.stage = 3) : d = c := by
  cases h with
  | refl => rfl
  | step hs _ _ => exact absurd hc hs

theorem Runs.eq_of_stuck (h : Runs c d) (hc : ∀ e, absRound c ≠ .more e) : d = c := by
  cases h with
  | refl => rfl
  | step _ hr _ => exact absurd hr (hc _)

/-- The parser never lengthens its input. -/
def Shrinks {α : Type} (p : BitParser α) : Prop :=
  ∀ bs a rest, p bs = .ok a rest → rest.length ≤ bs.length

variable {α : Type} {p q : BitParser α} {literal : Huffman} {c' : Config} {s : InflateState}

theorem shrinks_of_within {k : Nat} (h : Within k p) : Shrinks p := by
  intro bs a rest hok
  obtain ⟨-, rfl, _⟩ := (h bs).1 a rest hok
  rw [length_append]
  omega

theorem within_ite {c : Prop} [Decidable c] {k : Nat} (hp : Within k p)
    (hq : Within k q) : Within k (if c then p else q) := by
  split_ifs
  · exact hp
  · exact hq

theorem steady_ite {c : Prop} [Decidable c] (hp : Steady p) (hq : Steady q) :
    Steady (if c then p else q) := by
  split_ifs
  · exact hp
  · exact hq

theorem within_decodeLoop (table : Huffman) :
    ∀ n length code factor : Nat,
      Within n (decodeLoop table n length code factor : BitParser Nat)
  | 0, _, _, _ => within_reject 0
  | n + 1, length, code, factor => by
    unfold decodeLoop
    rw [add_comm]
    refine within_bind (within_take (le_refl 1)) (fun bit => ?_)
    simp only
    cases findSymbol length (code + bit * factor) table.lengths table.codes 0 with
    | some symbol => exact within_pure _ _
    | none => exact within_decodeLoop table n _ _ _

theorem within_decode (table : Huffman) :
    Within 15 (decode table : BitParser Nat) :=
  within_decodeLoop table 15 1 0 1

theorem within_readCodeLengths :
    ∀ order lengths : List Nat,
      Within (3 * order.length) (readCodeLengths order lengths : BitParser _)
  | [], lengths => within_pure _ _
  | symbol :: order, lengths => by
    have e : 3 * (symbol :: order).length = 3 + 3 * order.length := by
      rw [length_cons]
      ring
    rw [e]
    exact within_bind (within_take (le_refl 3))
      (fun value => within_readCodeLengths order _)

theorem within_readLengths (table : Huffman) (total : Nat) :
    ∀ (fuel : Nat) (lengths : List Nat),
      Within (22 * fuel) (readLengths table total fuel lengths : BitParser _)
  | 0, lengths => within_pure _ _
  | fuel + 1, lengths => by
    have ih := within_readLengths table total fuel
    have htail : ∀ (n : Nat) (q : Nat → BitParser (List Nat)), n ≤ 7 →
        (∀ v, Within (22 * fuel) (q v)) →
        Within (7 + 22 * fuel) (BitParser.bind (BitParser.take n) q) := by
      intro n q hn hq
      exact within_bind (within_take hn) hq
    have hfail : Within (22 * fuel) (BitParser.reject : BitParser (List Nat)) :=
      within_reject _
    have e : 22 * (fuel + 1) = 15 + (7 + 22 * fuel) := by ring
    rw [e]
    refine within_ite ?_ (within_pure _ _)
    refine within_bind (within_decode table) (fun symbol => ?_)
    refine within_ite (within_mono (Nat.le_add_left _ _) (ih _)) ?_
    refine within_ite (within_ite (within_reject _) ?_) ?_
    · exact htail 2 _ (by omega) (fun v => within_ite hfail (ih _))
    refine within_ite ?_ (within_ite ?_ (within_reject _))
    · exact htail 3 _ (by omega) (fun v => within_ite hfail (ih _))
    · exact htail 7 _ (by omega) (fun v => within_ite hfail (ih _))

theorem within_buildTables (literal distance : List Nat) (k : Nat) :
    Within k (buildTables literal distance : BitParser _) := by
  unfold buildTables
  cases build literal false false with
  | none => exact within_reject _
  | some literalTable =>
    refine within_ite (within_reject _) ?_
    cases build distance true false with
    | none => exact within_reject _
    | some distanceTable => exact within_pure _ _

/-- A dynamic header takes at most 5 + 5 + 4 + 57 + 22 · 318 bits. -/
theorem within_tables (kind : Nat) :
    Within 7067 (tables kind : BitParser _) := by
  refine within_ite (within_buildTables _ _ _) ?_
  have e : 7067 = 5 + (5 + (4 + (57 + 6996))) := rfl
  rw [e]
  refine BitParser.within_take_bind (fun literalCount _ => ?_)
  by_cases hlit : literalCount + 257 > 286
  · rw [if_pos hlit]
    exact within_reject _
  rw [if_neg hlit]
  refine BitParser.within_take_bind (fun distanceCount hdist => ?_)
  refine within_bind (within_take (le_refl 4)) (fun codeCount => ?_)
  refine within_bind (within_mono ?_ (within_readCodeLengths _ _))
    (fun codeLengths => ?_)
  · rw [length_take]
    exact Nat.mul_le_mul_left 3 (Nat.min_le_right _ _)
  cases build codeLengths false false with
  | none => exact within_reject _
  | some codeTable =>
    have hfuel : 22 * (literalCount + 257 + (distanceCount + 1)) + 0 ≤ 6996 := by
      omega
    exact within_mono hfuel (within_bind (within_readLengths _ _ _ _)
        (fun lengths => within_buildTables _ _ _))

theorem within_headerBody (final kind : Nat) :
    Within 7067 (headerBody final kind : BitParser _) := by
  refine within_ite (within_pure _ _) (within_ite ?_ ?_)
  · have hk : 7 + (16 + (16 + 0)) ≤ 7067 := by omega
    refine within_mono hk ?_
    refine within_bind (BitParser.within_align (le_refl 7)) (fun _ => ?_)
    refine within_bind (within_take (le_refl 16)) (fun _ => ?_)
    exact within_bind (within_take (le_refl 16))
      (fun _ => within_pure _ _)
  · exact within_bind (k := 0) (within_tables kind)
      (fun _ => within_pure _ _)

theorem within_blockHeader : Within 7070 (blockHeader : BitParser _) :=
  within_bind (j := 1) (k := 7069) (within_take (le_refl 1)) (fun final =>
    within_bind (j := 2) (k := 7067) (within_take (le_refl 2))
      (fun kind => within_headerBody final kind))

theorem extra_le (extras : List Nat) (h : ∀ e ∈ extras, e ≤ 13) (i : Nat) :
    extras.getD i 0 ≤ 13 := by
  rw [getD_eq_getElem?_getD]
  cases hi : extras[i]? with
  | none => exact Nat.zero_le _
  | some e => exact h e (mem_of_getElem? hi)

theorem lengthExtra_le (i : Nat) : LengthExtra.getD i 0 ≤ 13 :=
  extra_le _ (by decide) i

theorem distanceExtra_le (i : Nat) : DistanceExtra.getD i 0 ≤ 13 :=
  extra_le _ (by decide) i

theorem within_symbolItem (distance : Huffman) (symbol : Nat) :
    Within 41 (symbolItem distance symbol : BitParser _) := by
  have e : 41 = 13 + (15 + (13 + 0)) := rfl
  rw [e]
  refine within_ite (within_pure _ _) (within_ite (within_pure _ _)
    (within_ite (within_pure _ _) ?_))
  generalize symbol - 257 = index
  refine within_bind (within_take (lengthExtra_le index)) (fun _ => ?_)
  refine within_bind (within_decode distance) (fun symbol => ?_)
  refine within_ite (within_pure _ _) ?_
  exact within_bind (within_take (distanceExtra_le symbol))
    (fun _ => within_pure _ _)

theorem within_blockItem (literal distance : Huffman) :
    Within 56 (blockItem literal distance : BitParser _) :=
  within_bind (j := 15) (k := 41) (within_decode literal)
    (fun symbol => within_symbolItem distance symbol)

theorem shrinks_bind_take {f : Nat → BitParser α} {n : Nat} (hn : 0 < n) (hf : ∀ a, Shrinks (f a))
    {a : α} (h : BitParser.bind (BitParser.take n) f bs = .ok a rest) :
    rest.length < bs.length := by
  unfold BitParser.bind BitParser.take at h
  by_cases hle : n ≤ bs.length
  · simp only [if_pos hle] at h
    have := hf _ _ _ _ h
    rw [length_drop] at this
    omega
  · simp only [if_neg hle] at h
    cases h

theorem blockHeader_consumes {a : BlockHeader} (h : (blockHeader : BitParser _) bs = .ok a rest) :
    rest.length < bs.length := by
  refine shrinks_bind_take (n := 1) Nat.one_pos (fun final => ?_) h
  exact shrinks_of_within (within_bind (within_take (le_refl 2))
    (fun kind => within_headerBody final kind))

theorem decode_consumes {table : Huffman} {a : Nat}
    (h : (decode table : BitParser _) bs = .ok a rest) : rest.length < bs.length := by
  refine shrinks_bind_take (n := 1) Nat.one_pos (fun bit => ?_) h
  simp only
  cases findSymbol 1 (0 + bit * 1) table.lengths table.codes 0 with
  | some symbol => exact shrinks_of_within (within_pure _ 0)
  | none => exact shrinks_of_within (within_decodeLoop table 14 _ _ _)

theorem blockItem_consumes {distance : Huffman} {a : BlockItem}
    (h : (blockItem literal distance : BitParser _) bs = .ok a rest) : rest.length < bs.length := by
  obtain ⟨symbol, mid, h1, h2⟩ := bind_ok h
  have hlt := decode_consumes h1
  have hle := shrinks_of_within (within_symbolItem distance symbol) mid a rest h2
  omega

/-- Rounds left: every round reads a bit, except the one that ends a stored block. -/
def Config.fuel (c : Config) : Nat := 2 * c.bits.length + if c.stage = 1 then 1 else 0

theorem Config.endBlock_stage_ne (c : Config) : c.endBlock.stage ≠ 1 := by
  unfold Config.endBlock
  simp only
  split_ifs <;> omega

theorem absRound_more (h : absRound c = .more c') :
    (c.stage = 0 ∧ ∃ final length inverse rest,
      (blockHeader : BitParser _) c.bits = .ok (.stored final length inverse) rest ∧
      length ^^^ 65535 = inverse ∧
      c' = { c with bits := rest, stored := length, stage := 1, final := final }) ∨
    (c.stage = 0 ∧ ∃ final literal distance rest,
      (blockHeader : BitParser _) c.bits = .ok (.coded final literal distance) rest ∧
      c' = { c with
        bits := rest, literal := literal, distance := distance, stage := 2, final := final }) ∨
    (c.stage = 1 ∧ c.stored = 0 ∧ c' = c.endBlock) ∨
    (c.stage = 1 ∧ c.stored ≠ 0 ∧ ∃ byte rest, BitParser.take 8 c.bits = .ok byte rest ∧
      c' = { c with
        bits := rest, stored := c.stored - 1, out := c.out ++ [UInt8.ofNat byte] }) ∨
    (c.stage ≠ 0 ∧ c.stage ≠ 1 ∧ ∃ rest,
      (blockItem c.literal c.distance : BitParser _) c.bits = .ok .stop rest ∧
      c' = { c with bits := rest }.endBlock) ∨
    (c.stage ≠ 0 ∧ c.stage ≠ 1 ∧ ∃ byte rest,
      (blockItem c.literal c.distance : BitParser _) c.bits = .ok (.literal byte) rest ∧
      c' = { c with bits := rest, out := c.out ++ [UInt8.ofNat byte] }) ∨
    (c.stage ≠ 0 ∧ c.stage ≠ 1 ∧ ∃ length back rest,
      (blockItem c.literal c.distance : BitParser _) c.bits = .ok (.copy length back) rest ∧
      back ≠ 0 ∧ back ≤ c.out.length ∧
      c' = { c with bits := rest, out := copyOut back length c.out }) := by
  unfold absRound at h
  split_ifs at h with h0 h1 h2
  · unfold Config.afterHeader at h
    split at h
    · cases h
    · cases h
    · cases h
    · rename_i final length inverse rest hp
      split_ifs at h with hx
      cases h
      exact .inl ⟨h0, final, length, inverse, rest, hp, not_not.mp hx, rfl⟩
    · rename_i final literal distance rest hp
      cases h
      exact .inr (.inl ⟨h0, final, literal, distance, rest, hp, rfl⟩)
  · cases h
    exact .inr (.inr (.inl ⟨h1, h2, rfl⟩))
  · unfold Config.afterByte at h
    split at h
    · cases h
    · cases h
    rename_i byte rest hp
    cases h
    exact .inr (.inr (.inr (.inl ⟨h1, h2, byte, rest, hp, rfl⟩)))
  unfold Config.afterItem at h
  split at h
  · cases h
  · cases h
  · cases h
  · rename_i rest hp
    cases h
    exact .inr (.inr (.inr (.inr (.inl ⟨h0, h1, rest, hp, rfl⟩))))
  · rename_i byte rest hp
    cases h
    exact .inr (.inr (.inr (.inr (.inr (.inl ⟨h0, h1, byte, rest, hp, rfl⟩)))))
  rename_i length back rest hp
  split_ifs at h with hb
  cases h
  exact .inr (.inr (.inr (.inr (.inr (.inr
    ⟨h0, h1, length, back, rest, hp, by omega, by omega, rfl⟩)))))

theorem absRound_fuel (h : absRound c = .more c') : c'.fuel < c.fuel := by
  rcases absRound_more h with
    ⟨h0, final, length, inverse, rest, hp, _, rfl⟩ | ⟨h0, final, l, d, rest, hp, rfl⟩ |
    ⟨h1, _, rfl⟩ | ⟨h1, _, byte, rest, hp, rfl⟩ | ⟨_, _, rest, hp, rfl⟩ |
    ⟨h0, h1, byte, rest, hp, rfl⟩ | ⟨h0, h1, length, back, rest, hp, _, _, rfl⟩
  · have := blockHeader_consumes hp
    simp only [Config.fuel, if_true]
    omega
  · have := blockHeader_consumes hp
    have h2 : ¬ (2 = 1) := by omega
    simp only [Config.fuel, if_neg h2]
    omega
  · have := c.endBlock_stage_ne
    simp only [Config.fuel, if_neg this, if_pos h1]
    exact Nat.lt_succ_self _
  · have := (take_ok hp).2
    simp only [Config.fuel, if_pos h1]
    omega
  · have := blockItem_consumes hp
    have hs := ({ c with bits := rest } : Config).endBlock_stage_ne
    simp only [Config.fuel, if_neg hs]
    show 2 * rest.length + 0 < _
    omega
  · have := blockItem_consumes hp
    simp only [Config.fuel, if_neg h1]
    omega
  · have := blockItem_consumes hp
    simp only [Config.fuel, if_neg h1]
    omega

theorem copyOut_extends (back : Nat) :
    ∀ (n : Nat) (out : List UInt8), out <+: copyOut back n out
  | 0, out => prefix_refl out
  | n + 1, out =>
    (prefix_append out _).trans (copyOut_extends back n _)

theorem absRound_out (h : absRound c = .more c') : c.out <+: c'.out := by
  rcases absRound_more h with
    ⟨_, _, _, _, _, _, _, rfl⟩ | ⟨_, _, _, _, _, _, rfl⟩ | ⟨_, _, rfl⟩ |
    ⟨_, _, _, _, _, rfl⟩ | ⟨_, _, _, _, rfl⟩ | ⟨_, _, _, _, _, rfl⟩ |
    ⟨_, _, _, _, _, _, _, _, rfl⟩
  · exact prefix_refl _
  · exact prefix_refl _
  · exact prefix_refl _
  · exact prefix_append _ _
  · exact prefix_refl _
  · exact prefix_append _ _
  · exact copyOut_extends _ _ _

theorem Runs.out_prefix (h : Runs c d) : c.out <+: d.out := by
  induction h with
  | refl => exact prefix_refl _
  | step _ hr _ ih => exact (absRound_out hr).trans ih

/-- Inside a stored block the reader is at a byte boundary. -/
def Config.Aligned (c : Config) : Prop := c.stage = 1 → 8 ∣ c.bits.length

theorem storedHeader_aligned {final length inverse : Nat}
    (h : (blockHeader : BitParser _) bs = .ok (.stored final length inverse) rest) :
    8 ∣ rest.length := by
  obtain ⟨f, bs1, _, h⟩ := bind_ok h
  obtain ⟨kind, bs2, _, h⟩ := bind_ok h
  unfold headerBody at h
  split_ifs at h
  · cases h
  · obtain ⟨_, bs3, h1, h⟩ := bind_ok h
    obtain ⟨_, bs4, h2, h⟩ := bind_ok h
    obtain ⟨_, bs5, h3, h⟩ := bind_ok h
    injection h1 with _ h1
    cases h
    have h4 := (take_ok h2).2
    have h5 := (take_ok h3).2
    rw [← h1, length_drop] at h4
    omega
  · obtain ⟨_, _, _, h⟩ := bind_ok h
    cases h

/-- The buffer holds the output, or as much of its end as a circular buffer can. -/
def Buffers (capacity : Nat) (circular : Bool) (destination : Nat → UInt8)
    (out : List UInt8) : Prop :=
  ∀ i, i < out.length → (circular = true → out.length ≤ i + capacity) →
    destination (outputIndex i capacity circular) = out.getD i 0

/-- Distinct positions that a buffer holds at once have distinct indices. -/
theorem outputIndex_ne {i j : Nat} (hij : i < j) (hcap : circular = true → j < i + capacity) :
    outputIndex i capacity circular ≠ outputIndex j capacity circular := by
  unfold outputIndex
  cases circular with
  | false =>
    simp only [Bool.false_eq_true, if_false]
    omega
  | true =>
    intro he
    have hlt := hcap rfl
    have hdvd : capacity ∣ j - i :=
      Nat.dvd_of_mod_eq_zero (Nat.sub_mod_eq_zero_of_mod_eq he.symm)
    have := Nat.le_of_dvd (by omega) hdvd
    omega

theorem Buffers.push {capacity : Nat} {circular : Bool} {destination : Nat → UInt8}
    {out : List UInt8} (h : Buffers capacity circular destination out) (byte : UInt8) :
    Buffers capacity circular (update destination (outputIndex out.length capacity circular) byte)
      (out ++ [byte]) := by
  intro i hi hcap
  rw [length_append, length_singleton] at hi hcap
  rw [getD_eq_getElem?_getD]
  by_cases he : i = out.length
  · subst he
    rw [update_self, getElem?_append_right le_rfl]
    simp
  have hlt : i < out.length := by omega
  have hne : outputIndex i capacity circular ≠ outputIndex out.length capacity circular :=
    outputIndex_ne hlt (fun hc => by have := hcap hc; omega)
  rw [update_of_ne hne, getElem?_append_left hlt, ← getD_eq_getElem?_getD]
  exact h i hlt (fun hc => by have := hcap hc; omega)

theorem Buffers.copy {back : Nat} (hpos : back ≠ 0) (hcap : circular = true → back ≤ capacity) :
    ∀ (n : Nat) (destination : Nat → UInt8) (out : List UInt8), back ≤ out.length →
      Buffers capacity circular destination out →
      Buffers capacity circular
        (copyLoop capacity circular back n out.length destination) (copyOut back n out)
  | 0, _, _, _, h => h
  | n + 1, destination, out, hback, h => by
    have hread : destination (outputIndex (out.length - back) capacity circular) =
        out.getD (out.length - back) 0 :=
      h _ (by omega) (fun hc => by have := hcap hc; omega)
    have hnext := h.push (out.getD (out.length - back) 0)
    have ih := Buffers.copy hpos hcap n _ _ (by simp; omega) hnext
    rw [copyLoop, copyOut, hread]
    rw [length_append, length_singleton] at ih
    exact ih

/-- The engine state `s` with its buffer is the configuration `c`. -/
structure Matches (capacity : Nat) (circular : Bool) (s : InflateState)
    (destination : Nat → UInt8) (c : Config) : Prop where
  reader : ReaderOk { s.reader with shortInput := false }
  bits : remaining s.reader = c.bits
  literal : s.literal = c.literal
  distance : s.distance = c.distance
  stage : s.stage = c.stage
  final : s.final = c.final
  stored : s.stored = c.stored
  written : s.written = c.out.length
  buffers : Buffers capacity circular destination c.out
  aligned : c.Aligned


/-- A match reaches back at most 32768 bytes and is at most 258 long. -/
theorem blockItem_copy {distance : Huffman} {length back : Nat}
    (h : (blockItem literal distance : BitParser _) bs = .ok (.copy length back) rest) :
    back ≤ 32768 ∧ length ≤ 258 := by
  obtain ⟨symbol, bs1, _, h⟩ := bind_ok h
  unfold symbolItem at h
  split_ifs at h with h1 h2 h3
  · cases h
  · cases h
  · cases h
  obtain ⟨extra, bs2, he, h⟩ := bind_ok h
  obtain ⟨symbol', bs3, _, h⟩ := bind_ok h
  split_ifs at h with h4
  · cases h
  obtain ⟨extra', bs4, he', h⟩ := bind_ok h
  cases h
  have hl : ∀ i, i < 29 → LengthBase.getD i 0 + 2 ^ LengthExtra.getD i 0 ≤ 259 := by
    decide
  have hd : ∀ i, i < 30 → DistanceBase.getD i 0 + 2 ^ DistanceExtra.getD i 0 ≤ 32769 := by
    decide
  have h5 := hl (symbol - 257) (by omega)
  have h6 := hd symbol' (by omega)
  have h7 := (take_ok he).1
  have h8 := (take_ok he').1
  omega

/-- How a round of the source relates to a round of the abstract engine. -/
def RoundSpec (capacity : Nat) (circular : Bool) (outputBegin : Nat) (s : InflateState)
    (destination : Nat → UInt8) (c : Config)
    (result : Bool × InflateState × (Nat → UInt8)) : Next → Prop
  | .more c' =>
      (c'.out.length - outputBegin ≤ capacity ∧ result.1 = true ∧
        Matches capacity circular result.2.1 result.2.2 c' ∧ result.2.1.error = 0 ∧
        result.2.1.outputFull = s.outputFull ∧
        result.2.1.reader.input = s.reader.input) ∨
      (capacity < c'.out.length - outputBegin ∧ result.1 = false ∧
        Matches capacity circular result.2.1 result.2.2 c ∧
        result.2.1.error = (if circular then 0 else -28) ∧
        result.2.1.outputFull = true ∧ result.2.1.reader.input = s.reader.input)
  | .short =>
      result.1 = false ∧ Matches capacity circular result.2.1 result.2.2 c ∧
        result.2.1.error = 0 ∧ result.2.1.outputFull = s.outputFull ∧
        result.2.1.reader.input = s.reader.input
  | .bad =>
      result.1 = false ∧ result.2.1.error = -74 ∧ result.2.1.outputFull = s.outputFull

theorem resumeRound_spec {outputBegin : Nat} (h : Matches capacity circular s destination c)
    (herr : s.error = 0) (hbegin : outputBegin ≤ s.written)
    (hroom : s.written - outputBegin ≤ capacity) (hcap : circular = true → 32768 ≤ capacity) :
    RoundSpec capacity circular outputBegin s destination c
      (resumeRound capacity circular outputBegin s destination) (absRound c) := by
  have hbits : remaining { s.reader with shortInput := false } = c.bits := h.bits
  have hw := h.written
  have hshort {reader : Bits} (hr : reader.shortInput = true) :
      RoundSpec capacity circular outputBegin s destination c
        (false, needInput s reader s.reader, destination) .short :=
    ⟨rfl, { h with }, by simp [needInput, hr, herr], rfl, rfl⟩
  have hbad {reader : Bits} (hr : reader.shortInput = false) :
      RoundSpec capacity circular outputBegin s destination c
        (false, needInput s reader s.reader, destination) .bad :=
    ⟨rfl, by simp [needInput, hr], rfl⟩
  have hfull {c' : Config} (reader : Bits) (hout : capacity < c'.out.length - outputBegin) :
      RoundSpec capacity circular outputBegin s destination c
        (false, outputIsFull circular { s with reader := reader } s.reader, destination) (.more c') :=
    .inr ⟨hout, rfl, { h with }, by simp only [outputIsFull, herr], rfl, rfl⟩
  unfold resumeRound absRound
  by_cases h0 : c.stage = 0
  · rw [if_pos (h.stage.trans h0), if_pos h0]
    have hread := refines_blockHeader _ h.reader
    rw [hbits] at hread
    generalize hq : (blockHeader : BitParser BlockHeader) c.bits = q at hread
    generalize (blockHeader : Read BlockHeader) { s.reader with shortInput := false } =
      result at hread
    obtain ⟨value, reader⟩ := result
    cases q with
    | short =>
      obtain ⟨rfl, hr⟩ := hread
      exact hshort hr
    | bad =>
      obtain ⟨rfl, hr⟩ := hread
      exact hbad hr
    | ok header rest =>
      obtain ⟨rfl, hrest, hok, hin⟩ := hread
      cases header with
      | reserved => exact ⟨rfl, rfl, rfl⟩
      | stored final length inverse =>
        simp only [Config.afterHeader]
        split_ifs with hx
        · exact ⟨rfl, rfl, rfl⟩
        exact .inl ⟨hw ▸ hroom, rfl, { h with
          reader := ⟨hok.value_lt, hok.count_lt, hok.at_le, rfl⟩, bits := hrest, stage := rfl,
          final := rfl, stored := rfl, aligned := fun _ => storedHeader_aligned hq }, herr, rfl, hin⟩
      | coded final literal distance =>
        exact .inl ⟨hw ▸ hroom, rfl, { h with
          reader := ⟨hok.value_lt, hok.count_lt, hok.at_le, rfl⟩, bits := hrest, literal := rfl,
          distance := rfl, stage := rfl, final := rfl, aligned := nofun }, herr, rfl, hin⟩
  rw [if_neg (fun hs => h0 (h.stage.symm.trans hs)), if_neg h0]
  by_cases h1 : c.stage = 1
  · rw [if_pos (h.stage.trans h1), if_pos h1]
    by_cases h2 : c.stored = 0
    · rw [if_pos (h.stored.trans h2), if_pos h2]
      exact .inl ⟨hw ▸ hroom, rfl, { h with
        stage := by simp only [endBlock, Config.endBlock, h.final],
        aligned := fun hs => absurd hs c.endBlock_stage_ne }, herr, rfl, rfl⟩
    rw [if_neg (fun hs => h2 (h.stored.symm.trans hs)), if_neg h2]
    -- in a stored block no partial byte is held, so the next eight bits are a byte
    have hcount : s.reader.count = 0 := by
      have hm := h.reader.remaining_mod
      rw [hbits] at hm
      have := h.aligned h1
      simp only at hm
      omega
    have hstream : c.bits = streamBits (s.reader.input.drop s.reader.at_) := by
      rw [← h.bits, remaining, hcount]
      rfl
    cases hb : s.reader.input[s.reader.at_]? with
    | none =>
      have hend : s.reader.input.length ≤ s.reader.at_ := getElem?_eq_none_iff.mp hb
      have hnil : c.bits = [] := by
        rw [hstream, drop_eq_nil_of_le hend]
        rfl
      rw [hnil]
      exact ⟨rfl, { h with }, herr, rfl, rfl⟩
    | some byte =>
      obtain ⟨hlt, hget⟩ := List.getElem?_eq_some_iff.mp hb
      have hsplit : c.bits = bitsOf 8 byte.toNat ++
          streamBits (s.reader.input.drop (s.reader.at_ + 1)) := by
        rw [hstream, drop_eq_getElem_cons hlt, hget, streamBits_cons]
      rw [hsplit, BitParser.take_append byte.toNat_lt]
      have hlen : (c.out ++ [UInt8.ofNat byte.toNat]).length = c.out.length + 1 := by
        simp
      simp only
      by_cases hend : s.written - outputBegin = capacity
      · rw [if_pos hend]
        exact hfull _ (by rw [hlen]; omega)
      rw [if_neg hend]
      refine .inl ⟨?_, rfl, ?_, herr, rfl, rfl⟩
      · show (c.out ++ [UInt8.ofNat byte.toNat]).length - outputBegin ≤ capacity
        omega
      exact { h with
        reader := ⟨h.reader.value_lt, h.reader.count_lt, hlt, rfl⟩
        bits := by
          rw [hcount]
          rfl
        stored := by simp only [h.stored]
        written := by simp only [hw, hlen]
        buffers := by
          simp only [hw, UInt8.ofNat_toNat]
          exact h.buffers.push byte
        aligned := fun _ => by simp }
  rw [if_neg (fun hs => h1 (h.stage.symm.trans hs)), if_neg h1]
  have hread := refines_blockItem s.literal s.distance _ h.reader
  rw [hbits] at hread
  rw [← h.literal, ← h.distance]
  generalize hq : (blockItem s.literal s.distance : BitParser BlockItem) c.bits = q at hread
  generalize (blockItem s.literal s.distance : Read BlockItem)
    { s.reader with shortInput := false } = result at hread
  obtain ⟨value, reader⟩ := result
  cases q with
  | short =>
    obtain ⟨rfl, hr⟩ := hread
    exact hshort hr
  | bad =>
    obtain ⟨rfl, hr⟩ := hread
    exact hbad hr
  | ok item rest =>
    obtain ⟨rfl, hrest, hok, hin⟩ := hread
    have hreader : ReaderOk { reader with shortInput := false } :=
      ⟨hok.value_lt, hok.count_lt, hok.at_le, rfl⟩
    cases item with
    | invalid => exact ⟨rfl, rfl, rfl⟩
    | stop =>
      exact .inl ⟨hw ▸ hroom, rfl, { h with
        reader := hreader, bits := hrest, stage := by simp only [endBlock, Config.endBlock, h.final],
        aligned := fun hs => absurd hs (Config.endBlock_stage_ne _) }, herr, rfl, hin⟩
    | literal byte =>
      have hlen : (c.out ++ [UInt8.ofNat byte]).length = c.out.length + 1 := by simp
      simp only [Config.afterItem]
      by_cases hend : s.written - outputBegin = capacity
      · rw [if_pos hend]
        exact hfull _ (by rw [hlen]; omega)
      rw [if_neg hend]
      refine .inl ⟨?_, rfl, ?_, herr, rfl, hin⟩
      · show (c.out ++ [UInt8.ofNat byte]).length - outputBegin ≤ capacity
        omega
      exact { h with
        reader := hreader, bits := hrest, written := by simp only [hw, hlen]
        buffers := by
          simp only [hw]
          exact h.buffers.push _
        aligned := fun hs => absurd hs h1 }
    | copy length back =>
      obtain ⟨hfar, _⟩ := blockItem_copy hq
      simp only [Config.afterItem]
      by_cases hinvalid : back = 0 ∨ back > s.written
      · rw [if_pos hinvalid, if_pos (hw ▸ hinvalid)]
        exact ⟨rfl, rfl, rfl⟩
      have hcircular : ¬ (circular = true ∧ back > capacity) := by
        rintro ⟨hc, hb⟩
        have := hcap hc
        omega
      have hvalid : ¬ (back = 0 ∨ back > c.out.length) := hw ▸ hinvalid
      rw [if_neg hinvalid, if_neg hcircular, if_neg hvalid]
      have hlen := copyOut_length back length c.out
      by_cases hend : length > capacity - (s.written - outputBegin)
      · rw [if_pos hend]
        exact hfull _ (by rw [hlen]; omega)
      rw [if_neg hend]
      refine .inl ⟨?_, rfl, ?_, herr, rfl, hin⟩
      · show (copyOut back length c.out).length - outputBegin ≤ capacity
        omega
      exact { h with
        reader := hreader, bits := hrest, written := by simp only [hlen, hw]
        buffers := by
          simp only [hw]
          exact Buffers.copy (by omega) (fun hc => by have := hcap hc; omega) length
            destination c.out (by omega) h.buffers
        aligned := fun hs => absurd hs h1 }

/-- Why the loop of the source stopped at the configuration `c`. -/
inductive Stop where
  | done
  | short
  | invalid
  | full
deriving DecidableEq, Repr

/-- The state in which the loop stops; `start` is the state in which it began. -/
def StopSpec (capacity : Nat) (circular : Bool) (outputBegin : Nat) (start s : InflateState)
    (destination : Nat → UInt8) (c : Config) : Stop → Prop
  | .done =>
      c.stage = 3 ∧ s.error = 0 ∧ s.outputFull = start.outputFull ∧
        s.reader.input = start.reader.input ∧ Matches capacity circular s destination c
  | .short =>
      c.stage ≠ 3 ∧ absRound c = .short ∧ s.error = 0 ∧ s.outputFull = start.outputFull ∧
        s.reader.input = start.reader.input ∧ Matches capacity circular s destination c
  | .invalid =>
      c.stage ≠ 3 ∧ absRound c = .bad ∧ s.error = -74 ∧ s.outputFull = start.outputFull
  | .full =>
      c.stage ≠ 3 ∧ (∃ c', absRound c = .more c' ∧ capacity < c'.out.length - outputBegin) ∧
        s.error = (if circular then 0 else -28) ∧ s.outputFull = true ∧
        s.reader.input = start.reader.input ∧ Matches capacity circular s destination c

/-- The loop follows the abstract engine until one of the four reasons to stop. -/
theorem resumeLoop_spec (capacity : Nat) (circular : Bool) (outputBegin : Nat)
    (hcap : circular = true → 32768 ≤ capacity) :
    ∀ (fuel : Nat) (s : InflateState) (destination : Nat → UInt8) (c : Config),
      Matches capacity circular s destination c → s.error = 0 → outputBegin ≤ s.written →
      s.written - outputBegin ≤ capacity → c.fuel < fuel →
      ∃ c' stop, Runs c c' ∧ c'.out.length - outputBegin ≤ capacity ∧
        StopSpec capacity circular outputBegin s
          (resumeLoop capacity circular outputBegin fuel s destination).1
          (resumeLoop capacity circular outputBegin fuel s destination).2 c' stop
  | 0, _, _, _, _, _, _, _, hfuel => absurd hfuel (Nat.not_lt_zero _)
  | fuel + 1, s, destination, c, h, herr, hbegin, hroom, hfuel => by
    unfold resumeLoop
    by_cases hst : c.stage = 3
    · have hcond : ¬ (s.stage ≠ 3 ∧ s.error = 0) := fun hc => hc.1 (h.stage.trans hst)
      rw [if_neg hcond]
      exact ⟨c, .done, Runs.refl c, by rw [← h.written]; exact hroom, hst, herr, rfl, rfl, h⟩
    have hcond : s.stage ≠ 3 ∧ s.error = 0 :=
      ⟨fun hs => hst (h.stage.symm.trans hs), herr⟩
    rw [if_pos hcond]
    have hround := resumeRound_spec h herr hbegin hroom hcap
    generalize resumeRound capacity circular outputBegin s destination = result at hround ⊢
    obtain ⟨go, s1, destination1⟩ := result
    cases hn : absRound c with
    | more c1 =>
      rw [hn] at hround
      rcases hround with ⟨hfit, hgo, hm, he, hf, hin⟩ | ⟨hover, hgo, hm, he, hf, hin⟩
      · obtain rfl : go = true := hgo
        have hlen : c.out.length ≤ c1.out.length := (absRound_out hn).length_le
        have hw := h.written
        have hw1 : s1.written = c1.out.length := hm.written
        obtain ⟨c', stop, hruns, hle, hstop⟩ :=
          resumeLoop_spec capacity circular outputBegin hcap fuel s1 destination1 c1 hm he
            (by omega) (by omega) (by have := absRound_fuel hn; omega)
        refine ⟨c', stop, Runs.step hst hn hruns, hle, ?_⟩
        cases stop with
        | done =>
          obtain ⟨h1, h2, h3, h4, h5⟩ := hstop
          exact ⟨h1, h2, h3.trans hf, h4.trans hin, h5⟩
        | short =>
          obtain ⟨h1, h2, h3, h4, h5, h6⟩ := hstop
          exact ⟨h1, h2, h3, h4.trans hf, h5.trans hin, h6⟩
        | invalid =>
          obtain ⟨h1, h2, h3, h4⟩ := hstop
          exact ⟨h1, h2, h3, h4.trans hf⟩
        | full =>
          obtain ⟨h1, h2, h3, h4, h5, h6⟩ := hstop
          exact ⟨h1, h2, h3, h4, h5.trans hin, h6⟩
      · obtain rfl : go = false := hgo
        exact ⟨c, .full, Runs.refl c, by rw [← h.written]; exact hroom, hst,
          ⟨c1, hn, hover⟩, he, hf, hin, hm⟩
    | short =>
      rw [hn] at hround
      obtain ⟨hgo, hm, he, hf, hin⟩ := hround
      obtain rfl : go = false := hgo
      exact ⟨c, .short, Runs.refl c, by rw [← h.written]; exact hroom, hst, hn, he, hf, hin, hm⟩
    | bad =>
      rw [hn] at hround
      obtain ⟨hgo, he, hf⟩ := hround
      obtain rfl : go = false := hgo
      exact ⟨c, .invalid, Runs.refl c, by rw [← h.written]; exact hroom, hst, hn, he, hf⟩

/-- The state in which `resume_impl` enters its loop. -/
def entered (s : InflateState) (input : List UInt8) : InflateState :=
  { s with outputFull := false, reader := { s.reader with input := input } }

theorem resumeImpl_eq {input : List UInt8} (hat : s.reader.at_ ≤ input.length)
    (hcap : circular = false → s.written ≤ capacity) :
    resumeImpl s capacity destination input circular =
      let (t, destination) := resumeLoop capacity circular (if circular then s.written else 0)
        (resumeFuel input) (entered s input) destination
      (⟨t.written, t.reader.at_, decide (t.stage = 3 ∧ t.error = 0)⟩, t, destination) := by
  have hcond : ¬ (s.reader.at_ > input.length ∨ ((!circular) = true ∧ s.written > capacity)) := by
    rintro (h | ⟨h1, h2⟩)
    · omega
    · have := hcap (by simpa using h1)
      omega
  unfold resumeImpl
  simp only [if_neg hcond]
  rfl

/-- The configuration at the start of a stream. -/
def Config.start (input : List UInt8) : Config := { bits := streamBits input }

/-- What `resume` reports about a whole stream when its loop stopped at `c`. -/
def Reports (capacity : Nat) (input : List UInt8) (c : Config)
    (result : Result × InflateState × (Nat → UInt8)) : Stop → Prop
  | .done =>
      c.stage = 3 ∧ result.1 = ⟨c.out.length, input.length - c.bits.length / 8, true⟩ ∧
        result.2.1.error = 0 ∧ (List.range c.out.length).map result.2.2 = c.out
  | .short =>
      c.stage ≠ 3 ∧ absRound c = .short ∧ result.1.ok = false ∧ result.2.1.error = 0
  | .invalid =>
      c.stage ≠ 3 ∧ absRound c = .bad ∧ result.1.ok = false ∧ result.2.1.error = -74
  | .full =>
      c.stage ≠ 3 ∧ (∃ d, absRound c = .more d ∧ capacity < d.out.length) ∧
        result.1.ok = false ∧ result.2.1.error = -28

theorem Buffers.map_range {out : List UInt8} (h : Buffers capacity false destination out) :
    (List.range out.length).map destination = out := by
  apply ext_getElem
  · simp
  intro i h1 h2
  have hb := h i h2 nofun
  simp only [outputIndex, Bool.false_eq_true, if_false] at hb
  rw [getElem_map, getElem_range, hb, getD_eq_getElem _ _ h2]

theorem resume_spec (input : List UInt8) (capacity : Nat) (destination : Nat → UInt8) :
    ∃ c stop, Runs (.start input) c ∧ c.out.length ≤ capacity ∧
      Reports capacity input c (resume {} capacity destination input) stop := by
  have hm : Matches capacity false { reader := { input := input } } destination (.start input) := by
    refine ⟨⟨Nat.one_pos, Nat.succ_pos _, Nat.zero_le _, rfl⟩, ?_, rfl, rfl, rfl, rfl, rfl, rfl,
      fun i hi => absurd hi (Nat.not_lt_zero _), fun hc => (by cases hc)⟩
    simp [remaining, Config.start, bitsOf]
  have hfuel : (Config.start input).fuel < resumeFuel input := by
    have hstage : ¬ (Config.start input).stage = 1 := Nat.zero_ne_one
    rw [Config.fuel, if_neg hstage, Config.start, streamBits_length, resumeFuel]
    omega
  obtain ⟨c, stop, hruns, hle, hstop⟩ := resumeLoop_spec capacity false 0
    (fun hc => (by cases hc)) (resumeFuel input) _ _ _ hm rfl (Nat.zero_le _) (Nat.zero_le _) hfuel
  have heq : resume {} capacity destination input = _ :=
    resumeImpl_eq (s := {}) (Nat.zero_le input.length) (fun _ => Nat.zero_le capacity)
  generalize hl : resumeLoop capacity false 0 (resumeFuel input)
    { reader := { input := input } } destination = result at heq hstop
  obtain ⟨t, final⟩ := result
  have heq' : resume {} capacity destination input =
      (⟨t.written, t.reader.at_, decide (t.stage = 3 ∧ t.error = 0)⟩, t, final) := by
    rw [heq]
    simp only [entered, Bool.false_eq_true, if_false, hl]
  have hno : ¬ (t.stage = 3 ∧ t.error = 0) →
      decide (t.stage = 3 ∧ t.error = 0) = false := decide_eq_false
  refine ⟨c, stop, hruns, by omega, ?_⟩
  rw [heq']
  cases stop with
  | done =>
    obtain ⟨hs, herr, _, hin, hmat⟩ := hstop
    have hat : t.reader.at_ = t.reader.input.length - (remaining t.reader).length / 8 :=
      hmat.reader.at_eq
    have hbits : remaining t.reader = c.bits := hmat.bits
    have hin' : t.reader.input = input := hin
    have hcond : t.stage = 3 ∧ t.error = 0 := ⟨hmat.stage.trans hs, herr⟩
    have hwritten : t.written = c.out.length := hmat.written
    rw [hbits, hin'] at hat
    refine ⟨hs, ?_, herr, hmat.buffers.map_range⟩
    simp only [hat, hwritten, decide_eq_true hcond]
  | short =>
    obtain ⟨hs, hn, herr, _, _, hmat⟩ := hstop
    exact ⟨hs, hn, hno (fun hcon => hs (hmat.stage.symm.trans hcon.1)), herr⟩
  | invalid =>
    obtain ⟨hs, hn, herr, _⟩ := hstop
    refine ⟨hs, hn, hno (fun hcon => ?_), herr⟩
    rw [show t.error = -74 from herr] at hcon
    exact absurd hcon.2 (by decide)
  | full =>
    obtain ⟨hs, ⟨d, hd, hover⟩, herr, _⟩ := hstop
    refine ⟨hs, ⟨d, hd, by omega⟩, hno (fun hcon => ?_), herr⟩
    rw [show t.error = -28 from herr] at hcon
    exact absurd hcon.2 (by decide)

section Complete

variable {input : List UInt8} {c : Config} (hruns : Runs (.start input) c)
  (hdone : c.stage = 3)
include hruns hdone

/-- A run that has not reached the end of a decodable stream goes on towards it. -/
theorem Runs.complete_step {d : Config} (hd : Runs (.start input) d) (hs : d.stage ≠ 3) :
    ∃ e, absRound d = .more e ∧ Runs e c := by
  rcases hd.linear hruns with hr | hr
  · cases hr with
    | refl => exact absurd hdone hs
    | step _ he hrest => exact ⟨_, he, hrest⟩
  have := hr.eq_of_done hdone
  subst this
  exact absurd hdone hs

theorem Runs.complete_eq {d : Config} (hd : Runs (.start input) d) (hs : d.stage = 3) :
    d = c := by
  rcases hd.linear hruns with hr | hr
  · exact (hr.eq_of_done hs).symm
  · exact hr.eq_of_done hdone

/-- A stream that the abstract engine decodes is decoded by `resume` into every buffer
that holds the output; a smaller buffer is reported as full. -/
theorem resume_complete (capacity : Nat) (destination : Nat → UInt8) :
    Reports capacity input c (resume {} capacity destination input) .done ∧
        c.out.length ≤ capacity ∨
      capacity < c.out.length ∧ (resume {} capacity destination input).1.ok = false ∧
        (resume {} capacity destination input).2.1.error = -28 := by
  obtain ⟨d, stop, hd, hle, hrep⟩ := resume_spec input capacity destination
  cases stop with
  | done =>
    have := hruns.complete_eq hdone hd hrep.1
    subst this
    exact .inl ⟨hrep, hle⟩
  | short | invalid =>
    obtain ⟨e, he, _⟩ := hruns.complete_step hdone hd hrep.1
    rw [hrep.2.1] at he
    cases he
  | full =>
    obtain ⟨hs, ⟨f, hf, hover⟩, hok, herr⟩ := hrep
    obtain ⟨e, he, hrest⟩ := hruns.complete_step hdone hd hs
    rw [hf] at he
    cases he
    have := hrest.out_prefix.length_le
    exact .inr ⟨by omega, hok, herr⟩

/-- The same for a buffer that is known to suffice: nothing but the bytes of the stream is
read. -/
theorem resume_of_runs {capacity : Nat} (hcap : c.out.length ≤ capacity)
    (destination : Nat → UInt8) :
    (resume {} capacity destination input).1 =
        ⟨c.out.length, input.length - c.bits.length / 8, true⟩ ∧
      (List.range c.out.length).map (resume {} capacity destination input).2.2 = c.out := by
  rcases resume_complete hruns hdone capacity destination with ⟨hrep, _⟩ | ⟨hover, _⟩
  · exact ⟨hrep.2.1, hrep.2.2.2⟩
  · omega

end Complete

end Dyn.Compress
