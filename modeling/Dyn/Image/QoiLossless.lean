import Dyn.Image.Qoi
import Mathlib.Tactic

/-!
# QOI images are encoded without loss

`Gives` says what pixels the decoder makes of some bytes, whatever follows them.  The encoder
has at each pixel written bytes that give all pixels but those of the current run.

The tables of the two directions are not equal: the decoder also stores the pixel of a run, and
the encoder does not store the pixel that is implied at the start.  They agree where the encoder
has stored anything (`Agree`), which is where it looks.
-/

namespace Dyn.Qoi

open List Function
open Mem (Panic maximum)

theorem ofInt_eq {n : Int} {y : UInt8} (k : Int) (h : n = (y.toNat : Int) + 256 * k) :
    UInt8.ofInt n = y := by
  have hy : y.toNat < 256 := y.toNat_lt
  apply UInt8.toNat_inj.mp
  unfold UInt8.ofInt
  rw [UInt8.toNat_ofNat']
  omega

theorem add_delta {x y : UInt8} {amount k : Int} (h : amount = (y.toNat : Int) - x.toNat + 256 * k)
    (low : -256 ≤ (x.toNat : Int) + amount) (high : (x.toNat : Int) + amount < 512) :
    add x amount = y := by
  unfold add
  dsimp only
  split_ifs with h1 h2 h2
  · omega
  · exact ofInt_eq (k + 1) (by omega)
  · exact ofInt_eq (k - 1) (by omega)
  · exact ofInt_eq k (by omega)

theorem delta_spec (x y : UInt8) : ∃ k : Int, delta y x = (y.toNat : Int) - x.toNat + 256 * k ∧
    -128 ≤ delta y x ∧ delta y x ≤ 127 := by
  have hx : x.toNat < 256 := x.toNat_lt
  have hy : y.toNat < 256 := y.toNat_lt
  unfold delta
  dsimp only
  split_ifs with h1 h2 h2
  · omega
  · exact ⟨-1, by ring, by omega, by omega⟩
  · exact ⟨1, by ring, by omega, by omega⟩
  · exact ⟨0, by ring, by omega, by omega⟩

theorem unpacked_packed (p : Pixel) : unpacked (packed p) = p := by
  obtain ⟨r, g, b, a⟩ := p
  have hr : r.toNat < 256 := r.toNat_lt
  have hg : g.toNat < 256 := g.toNat_lt
  have hb : b.toNat < 256 := b.toNat_lt
  have ha : a.toNat < 256 := a.toNat_lt
  unfold unpacked packed
  simp only [Nat.shiftRight_eq_div_pow, Pixel.mk.injEq]
  refine ⟨?_, ?_, ?_, ?_⟩
  all_goals
    apply UInt8.toNat_inj.mp
    rw [UInt8.toNat_ofNat']
    omega

variable {p : Pixel}

theorem hash_of_packed (h : packed p = 0) : hash p = 0 := by
  obtain ⟨r, g, b, a⟩ := p
  unfold packed at h
  dsimp only at h
  apply Fin.ext
  unfold hash
  dsimp only
  rw [show r.toNat = 0 by omega, show g.toNat = 0 by omega, show b.toNat = 0 by omega,
    show a.toNat = 0 by omega]
  rfl

theorem diff_bits : ∀ r g b : Fin 4,
    let tag : UInt8 := 64 ||| UInt8.ofInt ((r.val : Int) * 2 ^ 4) ||| UInt8.ofInt ((g.val : Int) * 2 ^ 2) |||
      UInt8.ofInt b.val
    tag ≠ 254 ∧ tag ≠ 255 ∧ tag &&& 192 = 64 ∧ (tag >>> 4 &&& 3).toNat = r.val ∧
      (tag >>> 2 &&& 3).toNat = g.val ∧ (tag &&& 3).toNat = b.val := by
  decide

theorem luma_bits : ∀ g : Fin 64,
    let tag : UInt8 := 128 ||| UInt8.ofInt g.val
    tag ≠ 254 ∧ tag ≠ 255 ∧ tag &&& 192 = 128 ∧ (tag &&& 63).toNat = g.val := by
  decide

theorem luma_second : ∀ r b : Fin 16,
    let second : UInt8 := UInt8.ofInt ((r.val : Int) * 2 ^ 4) ||| UInt8.ofInt b.val
    (second >>> 4).toNat = r.val ∧ (second &&& 15).toNat = b.val := by
  decide

theorem index_bits : ∀ i : Fin 64,
    let tag := UInt8.ofNat i.val
    tag ≠ 254 ∧ tag ≠ 255 ∧ tag &&& 192 = 0 ∧ tagIndex tag = i := by
  decide

theorem run_bits : ∀ n : Fin 62,
    let tag := runTag (n.val + 1)
    tag ≠ 254 ∧ tag ≠ 255 ∧ tag &&& 192 ≠ 0 ∧ tag &&& 192 ≠ 64 ∧ tag &&& 192 ≠ 128 ∧
      (tag &&& 63).toNat = n.val := by
  decide

/-- The part of the decoder's state that outlives a run. -/
structure Cache where
  pixel : Pixel
  table : Table

def Cache.reader (cache : Cache) (input : Nat) : Reader :=
  { pixel := cache.pixel, table := cache.table, input := input, run := 0 }

/-- **What the decoder makes of some bytes,** wherever they are, as long as pixels are wanted. -/
def Gives (cache : Cache) (bytes : List UInt8) (cache' : Cache) (pixels : List Pixel) : Prop :=
  ∀ (source rest : List UInt8) (stop room input left : Nat) (out : List UInt8),
    source.drop input = bytes ++ rest → input + bytes.length ≤ stop →
    out.length + 4 * (pixels.length + left) ≤ room →
    readLoop source stop room (pixels.length + left) (cache.reader input) out =
      readLoop source stop room left (cache'.reader (input + bytes.length))
        (out ++ pixels.flatMap Pixel.bytes)

theorem Gives.nil (cache : Cache) : Gives cache [] cache [] := by
  intro source rest stop room input left out _ _ _
  simp

variable {cache : Cache} {bytes source : List UInt8} {stop room : Nat} {out : List UInt8}
  {encoder decoder : Table}

theorem Gives.trans {cache' cache'' : Cache} {bytes' : List UInt8} {pixels pixels' : List Pixel}
    (h : Gives cache bytes cache' pixels) (h' : Gives cache' bytes' cache'' pixels') :
    Gives cache (bytes ++ bytes') cache'' (pixels ++ pixels') := by
  intro source rest stop room input left out hdrop hstop hroom
  rw [length_append] at hstop hroom ⊢
  rw [append_assoc] at hdrop
  rw [length_append]
  have hdrop' : source.drop (input + bytes.length) = bytes' ++ rest := by
    rw [← drop_drop, hdrop, drop_left]
  have hlen : (pixels.flatMap Pixel.bytes).length = 4 * pixels.length := by
    rw [length_flatMap]
    simp [Pixel.bytes, mul_comm]
  rw [add_assoc, h source _ stop room input _ out hdrop (by omega) (by omega),
    h' source rest stop room _ left _ hdrop' (by omega) (by
      rw [length_append, hlen]
      omega),
    flatMap_append, append_assoc, add_assoc]

theorem index_of_drop {source bytes : List UInt8} {input : Nat} {byte : UInt8} {k : Nat}
    {rest : List UInt8} (h : source.drop input = bytes ++ rest) (hk : bytes[k]? = some byte) :
    index source (input + k) = .ok byte := by
  obtain ⟨hlt, _⟩ := List.getElem?_eq_some_iff.mp hk
  rw [index, ← getElem?_drop, h, getElem?_append_left hlt, hk]

theorem readLoop_succ {left : Nat} {reader reader' : Reader}
    (h : readPixel source stop (left + 1) reader = .ok (.ok reader'))
    (hroom : out.length + 4 ≤ room) :
    readLoop source stop room (left + 1) reader out =
      readLoop source stop room left reader' (out ++ reader'.pixel.bytes) := by
  rw [readLoop, h]
  simp only [bind, Except.bind, if_pos hroom]

theorem readPixel_tag {left input : Nat} {reader : Reader} {tag : UInt8} (hinput : input < stop)
    (htag : index source input = .ok tag)
    (h : readTag source stop left (cache.reader input) (input + 1) tag = .ok (.ok reader)) :
    readPixel source stop left (cache.reader input) =
      .ok (.ok { reader with table := reader.table.store reader.pixel }) := by
  have hnot : ¬ (cache.reader input).input ≥ stop := Nat.not_le.mpr hinput
  have htag' : index source (cache.reader input).input = .ok tag := htag
  have h' : readTag source stop left (cache.reader input) ((cache.reader input).input + 1) tag =
    .ok (.ok reader) := h
  rw [readPixel, if_neg (show ¬ (cache.reader input).run > 0 from lt_irrefl 0), if_neg hnot, htag']
  simp only [bind, Except.bind, h', pure, Except.pure]

theorem gives_one {tag : UInt8} {operands : List UInt8}
    (h : ∀ (source rest : List UInt8) (stop left input : Nat),
      source.drop input = (tag :: operands) ++ rest → input + 1 + operands.length ≤ stop →
      readTag source stop (left + 1) (cache.reader input) (input + 1) tag =
        .ok (.ok { cache.reader input with pixel := p, input := input + 1 + operands.length })) :
    Gives cache (tag :: operands) ⟨p, cache.table.store p⟩ [p] := by
  intro source rest stop room input left out hdrop hstop hroom
  rw [length_cons] at hstop
  have htag : index source input = .ok tag := @index_of_drop source _ input tag 0 rest hdrop rfl
  have hread := h source rest stop left input hdrop (by omega)
  rw [length_singleton] at hroom ⊢
  rw [length_cons, add_comm 1 left, readLoop_succ (readPixel_tag (by omega) htag hread) (by omega),
    add_comm operands.length 1, ← add_assoc]
  rfl

theorem gives_index (h : cache.table (hash p) = packed p) :
    Gives cache [UInt8.ofNat (hash p).val] ⟨p, cache.table.store p⟩ [p] := by
  refine gives_one fun source rest stop left input _ _ => ?_
  obtain ⟨h1, h2, h3, h4⟩ := index_bits (hash p)
  rw [readTag, if_neg h1, if_neg h2, if_pos h3, h4]
  simp only [Cache.reader, h, unpacked_packed, length_nil, add_zero]

theorem gives_literal (p : Pixel) (cache : Cache) :
    Gives cache (literal p cache.pixel) ⟨p, cache.table.store p⟩ [p] := by
  obtain ⟨kr, hr, -, -⟩ := delta_spec cache.pixel.red p.red
  obtain ⟨kg, hg, -, -⟩ := delta_spec cache.pixel.green p.green
  obtain ⟨kb, hb, -, -⟩ := delta_spec cache.pixel.blue p.blue
  have br : cache.pixel.red.toNat < 256 := cache.pixel.red.toNat_lt
  have bg : cache.pixel.green.toNat < 256 := cache.pixel.green.toNat_lt
  have bb : cache.pixel.blue.toNat < 256 := cache.pixel.blue.toNat_lt
  unfold literal
  dsimp only
  generalize delta p.red cache.pixel.red = dr at *
  generalize delta p.green cache.pixel.green = dg at *
  generalize delta p.blue cache.pixel.blue = db at *
  split_ifs with h1 h2 h3
  · obtain ⟨halpha, h1⟩ := h1
    obtain ⟨r, hr'⟩ : ∃ r : Fin 4, dr + 2 = r.val := ⟨⟨(dr + 2).toNat, by omega⟩, by simp only; omega⟩
    obtain ⟨g, hg'⟩ : ∃ g : Fin 4, dg + 2 = g.val := ⟨⟨(dg + 2).toNat, by omega⟩, by simp only; omega⟩
    obtain ⟨b, hb'⟩ : ∃ b : Fin 4, db + 2 = b.val := ⟨⟨(db + 2).toNat, by omega⟩, by simp only; omega⟩
    obtain ⟨t1, t2, t3, t4, t5, t6⟩ := diff_bits r g b
    rw [hr', hg', hb']
    refine gives_one fun source rest stop left input _ _ => ?_
    rw [readTag, if_neg t1, if_neg t2, if_neg (by rw [t3]; decide), if_pos t3, t4, t5, t6]
    simp only [Cache.reader, length_nil, add_zero]
    rw [add_delta (y := p.red) (k := kr) (by omega) (by omega) (by omega),
      add_delta (y := p.green) (k := kg) (by omega) (by omega) (by omega),
      add_delta (y := p.blue) (k := kb) (by omega) (by omega) (by omega), ← halpha]
  · obtain ⟨halpha, h2⟩ := h2
    obtain ⟨g, hg'⟩ : ∃ g : Fin 64, dg + 32 = g.val :=
      ⟨⟨(dg + 32).toNat, by omega⟩, by simp only; omega⟩
    obtain ⟨r, hr'⟩ : ∃ r : Fin 16, dr - dg + 8 = r.val :=
      ⟨⟨(dr - dg + 8).toNat, by omega⟩, by simp only; omega⟩
    obtain ⟨b, hb'⟩ : ∃ b : Fin 16, db - dg + 8 = b.val :=
      ⟨⟨(db - dg + 8).toNat, by omega⟩, by simp only; omega⟩
    obtain ⟨t1, t2, t3, t4⟩ := luma_bits g
    obtain ⟨s1, s2⟩ := luma_second r b
    rw [hg', hr', hb']
    refine gives_one fun source rest stop left input hdrop hstop => ?_
    rw [length_singleton] at hstop
    rw [readTag, if_neg t1, if_neg t2, if_neg (by rw [t3]; decide), if_neg (by rw [t3]; decide),
      if_pos t3, if_neg (by omega), index_of_drop (k := 1) hdrop rfl]
    simp only [bind, Except.bind, pure, Except.pure, t4, s1, s2, Cache.reader, length_singleton]
    rw [add_delta (y := p.red) (k := kr) (by omega) (by omega) (by omega),
      add_delta (y := p.green) (k := kg) (by omega) (by omega) (by omega),
      add_delta (y := p.blue) (k := kb) (by omega) (by omega) (by omega), ← halpha]
  · refine gives_one fun source rest stop left input hdrop hstop => ?_
    have e1 := index_of_drop (k := 1) hdrop rfl
    have e2 := index_of_drop (k := 2) hdrop rfl
    have e3 := index_of_drop (k := 3) hdrop rfl
    simp only [length_cons, length_nil] at hstop
    rw [readTag, if_pos rfl, if_neg (by omega), e1]
    simp only [bind, Except.bind, pure, Except.pure, add_assoc, Nat.reduceAdd, e2, e3, Cache.reader,
      length_cons, length_nil]
    rw [← h3]
  · refine gives_one fun source rest stop left input hdrop hstop => ?_
    have e1 := index_of_drop (k := 1) hdrop rfl
    have e2 := index_of_drop (k := 2) hdrop rfl
    have e3 := index_of_drop (k := 3) hdrop rfl
    have e4 := index_of_drop (k := 4) hdrop rfl
    simp only [length_cons, length_nil] at hstop
    rw [readTag, if_neg (by decide), if_pos rfl, if_neg (by omega), e1]
    simp only [bind, Except.bind, pure, Except.pure, add_assoc, Nat.reduceAdd, e2, e3, e4, Cache.reader,
      length_cons, length_nil]

theorem readLoop_run {p : Pixel} {table : Table} {input : Nat} :
    ∀ {n left : Nat} {out : List UInt8}, out.length + 4 * (n + left) ≤ room →
    readLoop source stop room (n + left) { pixel := p, table := table, input := input, run := n } out =
      readLoop source stop room left { pixel := p, table := table, input := input, run := 0 }
        (out ++ (replicate n p).flatMap Pixel.bytes)
  | 0, left, out, _ => by simp
  | n + 1, left, out, hroom => by
    have hpixel : readPixel source stop (n + left + 1)
        { pixel := p, table := table, input := input, run := n + 1 } =
        .ok (.ok { pixel := p, table := table, input := input, run := n }) := by
      rw [readPixel, if_pos (Nat.succ_pos n)]
      rfl
    have hlen : (out ++ p.bytes).length = out.length + 4 := by
      rw [length_append]
      rfl
    rw [add_right_comm, readLoop_succ hpixel (by omega),
      readLoop_run (by rw [hlen]; omega), replicate_succ, flatMap_cons, append_assoc]

theorem gives_run {table : Table} {n : Nat} (hpos : 0 < n) (hn : n ≤ 62) :
    Gives ⟨p, table⟩ [runTag n] ⟨p, table.store p⟩ (List.replicate n p) := by
  obtain ⟨m, rfl⟩ : ∃ m, n = m + 1 := ⟨n - 1, by omega⟩
  obtain ⟨t1, t2, t3, t4, t5, t6⟩ := run_bits ⟨m, by omega⟩
  intro source rest stop room input left out hdrop hstop hroom
  have htag : index source input = .ok (runTag (m + 1)) := @index_of_drop source _ input _ 0 rest hdrop rfl
  rw [length_replicate] at hroom ⊢
  rw [length_singleton] at hstop ⊢
  have hread : readTag source stop (m + left + 1) ((⟨p, table⟩ : Cache).reader input) (input + 1)
      (runTag (m + 1)) = .ok (.ok { pixel := p, table := table, input := input + 1, run := m }) := by
    rw [readTag, if_neg t1, if_neg t2, if_neg t3, if_neg t4, if_neg t5]
    dsimp only at t6 ⊢
    rw [t6, if_neg (by omega)]
    rfl
  have hlen : (out ++ p.bytes).length = out.length + 4 := by
    rw [length_append]
    rfl
  rw [add_right_comm, readLoop_succ (readPixel_tag (by omega) htag hread) (by omega)]
  rw [readLoop_run (by rw [hlen]; omega), replicate_succ, flatMap_cons, append_assoc]
  rfl

/-- **The tables agree where the encoder has stored anything.** An entry that is zero stands for the
pixel that is zero, whose index is zero. -/
def Agree (encoder decoder : Table) : Prop :=
  ∀ i, encoder i = decoder i ∨ encoder i = 0 ∧ i ≠ 0

theorem Agree.lookup (h : Agree encoder decoder) (hp : encoder (hash p) = packed p) :
    decoder (hash p) = packed p := by
  rcases h (hash p) with heq | ⟨hzero, hne⟩
  · rw [← heq, hp]
  · rw [hp] at hzero
    exact absurd (hash_of_packed hzero) hne

theorem Agree.store (h : Agree encoder decoder) (p : Pixel) :
    Agree (encoder.store p) (decoder.store p) := by
  intro i
  unfold Table.store
  by_cases hi : i = hash p
  · subst hi
    left
    rw [update_self, update_self]
  · rw [update_of_ne hi, update_of_ne hi]
    exact h i

/-- The decoder stores a pixel that the encoder has stored already, or the implied one. -/
theorem Agree.store_right (h : Agree encoder decoder)
    (hp : encoder (hash p) = packed p ∨ encoder (hash p) = 0 ∧ hash p ≠ 0) :
    Agree encoder (decoder.store p) := by
  intro i
  unfold Table.store
  by_cases hi : i = hash p
  · subst hi
    rw [update_self]
    exact hp
  · rw [update_of_ne hi]
    exact h i

/-- **What the encoder has written** after some pixels, behind the header. -/
structure Written (channels : Nat) (head : List UInt8) (pixels : List Pixel) (writer : Writer) : Prop where
  gives : ∃ body table done, writer.out = head ++ body ∧
    Gives ⟨.initial, fun _ => 0⟩ body ⟨writer.previous, table⟩ done ∧
    pixels = done ++ List.replicate writer.run writer.previous ∧ Agree writer.table table
  stored : writer.table (hash writer.previous) = packed writer.previous ∨
    writer.table (hash writer.previous) = 0 ∧ hash writer.previous ≠ 0
  run_lt : writer.run < 62
  size : writer.out.length + (if writer.run > 0 then 1 else 0) ≤
    head.length + (channels + 1) * pixels.length
  solid : channels = 3 → writer.previous.alpha = 255

theorem literal_length (p previous : Pixel) : (literal p previous).length ≤ 5 ∧
    (p.alpha = previous.alpha → (literal p previous).length ≤ 4) := by
  unfold literal
  dsimp only
  split_ifs with h1 h2 h3
  · exact ⟨by simp, fun _ => by simp⟩
  · exact ⟨by simp, fun _ => by simp⟩
  · exact ⟨by simp, fun _ => by simp⟩
  · exact ⟨by simp, fun hc => absurd hc h3⟩

theorem emit_some (h : out.length + bytes.length ≤ room) :
    emit room out bytes = some (out ++ bytes) := by
  rw [emit, if_neg (Nat.not_lt.mpr h)]

section Encoder

variable {channels room : Nat} {head : List UInt8} {pixels : List Pixel} {writer : Writer}

theorem Written.flush (h : Written channels head pixels writer)
    (hroom : head.length + (channels + 1) * pixels.length ≤ room) : ∃ out body table,
    (if writer.run > 0 then emit room writer.out [runTag writer.run] else some writer.out) = some out ∧
      out = head ++ body ∧ Gives ⟨.initial, fun _ => 0⟩ body ⟨writer.previous, table⟩ pixels ∧
      Agree writer.table table ∧ out.length ≤ head.length + (channels + 1) * pixels.length := by
  obtain ⟨body, table, done, hout, hgives, hpixels, hagree⟩ := h.gives
  have hsize := h.size
  have hlt := h.run_lt
  split_ifs at hsize ⊢ with hrun
  · refine ⟨_, body ++ [runTag writer.run], table.store writer.previous, emit_some ?_, ?_, ?_,
      hagree.store_right h.stored, ?_⟩
    · rw [length_singleton]
      omega
    · rw [hout, append_assoc]
    · rw [hpixels]
      exact hgives.trans (gives_run hrun (by omega))
    · rw [length_append, length_singleton]
      exact hsize
  · refine ⟨_, body, table, rfl, hout, ?_, hagree, hsize⟩
    rw [show writer.run = 0 by omega, replicate_zero, append_nil] at hpixels
    rw [hpixels]
    exact hgives

theorem writePixel_ne {p : Pixel} (h : p ≠ writer.previous) (last : Bool) :
    writePixel room last p writer =
      (if writer.run > 0 then emit room writer.out [runTag writer.run] else some writer.out).bind fun out =>
        if writer.table (hash p) = packed p then
          (emit room out [UInt8.ofNat (hash p).val]).bind fun out =>
            some { writer with previous := p, run := 0, out := out }
        else
          (emit room out (literal p writer.previous)).bind fun out =>
            some { previous := p, table := writer.table.store p, run := 0, out := out } := by
  rw [writePixel, if_neg h]
  by_cases hrun : writer.run > 0
  · rw [if_pos hrun, if_pos hrun]
    rfl
  · rw [if_neg hrun, if_neg hrun]
    rfl

/-- **One pixel.** The encoder has room for it, and the last one ends a run. -/
theorem Written.step (hchannels : channels = 3 ∨ channels = 4) (h : Written channels head pixels writer)
    {p : Pixel} (hp : channels = 3 → p.alpha = 255)
    (hroom : head.length + (channels + 1) * (pixels.length + 1) ≤ room) (last : Bool) :
    ∃ writer', writePixel room last p writer = some writer' ∧
      Written channels head (pixels ++ [p]) writer' ∧ (last = true → writer'.run = 0) := by
  have hmul : (channels + 1) * (pixels.length + 1) = (channels + 1) * pixels.length + (channels + 1) :=
    Nat.mul_succ _ _
  have hlength : (pixels ++ [p]).length = pixels.length + 1 := by
    rw [length_append, length_singleton]
  by_cases hsame : p = writer.previous
  · unfold writePixel
    obtain ⟨body, table, done, hout, hgives, hpixels, hagree⟩ := h.gives
    have hsize := h.size
    have hlt := h.run_lt
    have hpixels' : pixels ++ [p] = done ++ replicate (writer.run + 1) writer.previous := by
      rw [hpixels, hsame, append_assoc, replicate_succ']
    rw [if_pos hsame]
    by_cases hend : writer.run + 1 = 62 ∨ last = true
    · rw [if_pos hend, emit_some (by rw [length_singleton]; omega)]
      refine ⟨_, rfl, ⟨⟨body ++ [runTag (writer.run + 1)], table.store writer.previous,
        pixels ++ [p], ?_, ?_, ?_, hagree.store_right h.stored⟩, h.stored, Nat.succ_pos 61, ?_, h.solid⟩,
        fun _ => rfl⟩
      · rw [hout, append_assoc]
      · rw [hpixels']
        exact hgives.trans (gives_run (Nat.succ_pos _) (by omega))
      · rw [replicate_zero, append_nil]
      · rw [if_neg (lt_irrefl 0), hlength, length_append, length_singleton]
        omega
    rw [if_neg hend]
    rw [not_or] at hend
    refine ⟨_, rfl, ⟨⟨body, table, done, hout, hgives, hpixels', hagree⟩, h.stored, by
      simp only; omega, ?_, h.solid⟩, fun hc => absurd hc hend.2⟩
    rw [if_pos (Nat.succ_pos _), hlength]
    simp only
    omega
  obtain ⟨out, body, table, hflush, hout, hgives, hagree, hsize⟩ :=
    @Written.flush channels room head pixels writer h (by omega)
  rw [writePixel_ne hsame, hflush, Option.bind_some]
  split_ifs with hstored
  · rw [emit_some (by rw [length_singleton]; omega), Option.bind_some]
    refine ⟨_, rfl, ⟨⟨body ++ [UInt8.ofNat (hash p).val], table.store p, pixels ++ [p], ?_, ?_, ?_,
      hagree.store_right (.inl hstored)⟩, .inl hstored, Nat.succ_pos 61, ?_, hp⟩, fun _ => rfl⟩
    · rw [hout, append_assoc]
    · exact hgives.trans (gives_index (hagree.lookup hstored))
    · rw [replicate_zero, append_nil]
    · rw [if_neg (lt_irrefl 0), hlength, length_append, length_singleton]
      omega
  obtain ⟨hfive, hliteral⟩ := literal_length p writer.previous
  have hwidth : (literal p writer.previous).length ≤ channels + 1 := by
    rcases hchannels with rfl | rfl
    · exact hliteral ((hp rfl).trans (h.solid rfl).symm)
    · exact hfive
  rw [emit_some (by omega), Option.bind_some]
  refine ⟨_, rfl, ⟨⟨body ++ literal p writer.previous, table.store p, pixels ++ [p], ?_, ?_, ?_,
    hagree.store p⟩, .inl ?_, Nat.succ_pos 61, ?_, hp⟩, fun _ => rfl⟩
  · rw [hout, append_assoc]
  · exact hgives.trans (gives_literal p ⟨writer.previous, table⟩)
  · rw [replicate_zero, append_nil]
  · exact update_self ..
  · rw [if_neg (lt_irrefl 0), hlength, length_append]
    omega

def rgbPixels : List UInt8 → List Pixel
  | red :: green :: blue :: rest => ⟨red, green, blue, 255⟩ :: rgbPixels rest
  | _ => []

def rgbaPixels : List UInt8 → List Pixel
  | red :: green :: blue :: alpha :: rest => ⟨red, green, blue, alpha⟩ :: rgbaPixels rest
  | _ => []

/-- The pixels of a buffer; those of three channels are opaque. -/
def pixelList (channels : Nat) (buffer : List UInt8) : List Pixel :=
  if channels = 4 then rgbaPixels buffer else rgbPixels buffer

theorem loadPixel_spec (hchannels : channels = 3 ∨ channels = 4) {buffer rest : List UInt8} {i left : Nat}
    {alpha : UInt8} (halpha : channels = 3 → alpha = 255) (hdrop : buffer.drop (i * channels) = rest)
    (hlength : rest.length = (left + 1) * channels) : ∃ p, loadPixel buffer channels i alpha = .ok p ∧
      (channels = 3 → p.alpha = 255) ∧
      pixelList channels rest = p :: pixelList channels (buffer.drop ((i + 1) * channels)) ∧
      (buffer.drop ((i + 1) * channels)).length = left * channels := by
  have hnext : buffer.drop ((i + 1) * channels) = rest.drop channels := by
    rw [← hdrop, drop_drop]
    congr 1
    ring
  have hrest : (rest.drop channels).length = left * channels := by
    rw [length_drop, hlength, Nat.succ_mul]
    omega
  have hget : ∀ k byte, rest[k]? = some byte → index buffer (i * channels + k) = .ok byte := by
    intro k byte hk
    rw [index, ← getElem?_drop, hdrop, hk]
  rw [hnext]
  rcases hchannels with rfl | rfl
  · match rest, hlength with
    | red :: green :: blue :: rest, _ =>
      refine ⟨⟨red, green, blue, alpha⟩, ?_, halpha, ?_, hrest⟩
      · have h0 := hget 0 red rfl
        have h1 := hget 1 green rfl
        have h2 := hget 2 blue rfl
        rw [add_zero] at h0
        simp only [loadPixel, bind, Except.bind, h0, h1, h2]
        rfl
      · rw [halpha rfl]
        rfl
    | [], h => (simp at h)
    | [_], h => (simp at h; omega)
    | [_, _], h => (simp at h; omega)
  match rest, hlength with
  | red :: green :: blue :: alpha' :: rest, _ =>
    refine ⟨⟨red, green, blue, alpha'⟩, ?_, nofun, rfl, hrest⟩
    have h0 := hget 0 red rfl
    have h1 := hget 1 green rfl
    have h2 := hget 2 blue rfl
    have h3 := hget 3 alpha' rfl
    rw [add_zero] at h0
    simp only [loadPixel, bind, Except.bind, h0, h1, h2, h3]
    rfl
  | [], h => (simp at h)
  | [_], h => (simp at h; omega)
  | [_, _], h => (simp at h; omega)
  | [_, _, _], h => (simp at h; omega)

theorem writeLoop_spec (hchannels : channels = 3 ∨ channels = 4) {buffer : List UInt8} {count : Nat}
    (hroom : head.length + (channels + 1) * count ≤ room) : ∀ {left : Nat} {writer : Writer}
    {pixels : List Pixel}, left + pixels.length = count → Written channels head pixels writer →
    (left = 0 → writer.run = 0) → (buffer.drop ((count - left) * channels)).length = left * channels →
    ∃ writer', writeLoop buffer channels count room left writer = .ok (some writer') ∧
      Written channels head (pixels ++ pixelList channels (buffer.drop ((count - left) * channels))) writer' ∧
      writer'.run = 0
  | 0, writer, pixels, hleft, h, hrun, hlength => by
    refine ⟨writer, rfl, ?_, hrun rfl⟩
    rw [zero_mul] at hlength
    have hnil : pixelList channels [] = [] := by
      unfold pixelList
      split_ifs <;> rfl
    rw [length_eq_zero_iff.mp hlength, hnil, append_nil]
    exact h
  | left + 1, writer, pixels, hleft, h, _, hlength => by
    obtain ⟨p, hload, halpha, hlist, hrest⟩ := loadPixel_spec hchannels h.solid rfl hlength
    have hnext : count - (left + 1) + 1 = count - left := by omega
    rw [hnext] at hlist hrest
    have hgrow : (channels + 1) * (pixels.length + 1) ≤ (channels + 1) * count :=
      Nat.mul_le_mul_left _ (by omega)
    obtain ⟨writer', hwrite, hwritten, hlast⟩ := h.step hchannels halpha
      (le_trans (Nat.add_le_add_left hgrow _) hroom) (count - (left + 1) + 1 = count)
    have hlength' : left + (pixels ++ [p]).length = count := by
      rw [length_append, length_singleton]
      omega
    obtain ⟨writer'', hloop, hdone, hrun⟩ := writeLoop_spec hchannels hroom hlength' hwritten
      (fun hzero => hlast (decide_eq_true (by omega))) hrest
    refine ⟨writer'', ?_, ?_, hrun⟩
    · rw [writeLoop]
      simp only [bind, Except.bind, hload, hwrite]
      exact hloop
    · rw [hlist]
      rwa [append_assoc] at hdone

end Encoder

end Dyn.Qoi
