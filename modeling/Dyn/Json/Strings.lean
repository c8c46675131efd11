import Dyn.Json.Tokens

/-!
# std/encoding/json: what strings decode to

`unescape` is the decoding loop without buffers; `decodeLoop_spec` says that the loop computes
it, also in place, because it never writes more than it has read.  `contents_iff` says that
the contents which pass all checks are the texts of pieces with scalar escapes, and that they
decode to the meaning of the pieces.
-/

namespace Dyn.Json

open Unicode List

variable {b : UInt8} {d rest bytes after text : List UInt8}

theorem hexValue_of_hex (h : hex b = true) : hexValue b < 16 := by
  simp only [hex, digit, Bool.or_eq_true, decide_eq_true_eq] at h
  unfold hexValue
  split_ifs <;> omega

theorem hex_of_hexValue (h : hexValue b ≠ 16) : hex b = true := by
  simp only [hex, digit, Bool.or_eq_true, decide_eq_true_eq]
  unfold hexValue at h
  split_ifs at h <;> omega

theorem hexCode_sound : ∀ {n code result : Nat} {rest after : List UInt8},
    hexCode n code rest = some (result, after) →
    ∃ d, d.length = n ∧ (∀ b ∈ d, hex b = true) ∧ rest = d ++ after ∧
      result = d.foldl (fun code b => code * 16 + hexValue b) code
  | 0, code, result, rest, after, h => by
    injection h with h
    injection h with h1 h2
    exact ⟨[], rfl, (fun _ hb => absurd hb (by simp)), h2, h1.symm⟩
  | n + 1, code, result, [], after, h => by cases h
  | n + 1, code, result, b :: rest, after, h => by
    unfold hexCode at h
    split_ifs at h with hb
    obtain ⟨d, hlen, hd, hrest, hr⟩ := hexCode_sound h
    refine ⟨b :: d, by rw [length_cons, hlen], ?_, by rw [hrest, cons_append],
      by rw [hr, foldl_cons]⟩
    intro c hc
    rcases mem_cons.mp hc with rfl | hc
    · exact hex_of_hexValue hb
    · exact hd c hc

theorem hexCode_complete : ∀ {d : List UInt8} (code : Nat) (rest : List UInt8),
    (∀ b ∈ d, hex b = true) →
    hexCode d.length code (d ++ rest) =
      some (d.foldl (fun code b => code * 16 + hexValue b) code, rest)
  | [], _, _, _ => rfl
  | b :: d, code, rest, h => by
    have hb := hexValue_of_hex (h b (by simp))
    rw [length_cons, cons_append, hexCode, if_neg (by omega), foldl_cons]
    exact hexCode_complete _ rest (fun c hc => h c (by simp [hc]))

theorem hexCode_four (hlen : d.length = 4) (hd : ∀ b ∈ d, hex b = true) (rest : List UInt8) :
    hexCode 4 0 (d ++ rest) = some (codeOf d, rest) := by
  have := hexCode_complete 0 rest hd
  rwa [hlen] at this

theorem codeOf_lt (hlen : d.length = 4) (hd : ∀ b ∈ d, hex b = true) : codeOf d < 65536 := by
  match d, hlen with
  | [a, b, c, e], _ =>
    have ha := hexValue_of_hex (hd a (by simp))
    have hb := hexValue_of_hex (hd b (by simp))
    have hc := hexValue_of_hex (hd c (by simp))
    have he := hexValue_of_hex (hd e (by simp))
    simp only [codeOf, foldl_cons, foldl_nil]
    omega

theorem codeBytes_length (code : Nat) :
    0 < (codeBytes code).length ∧ (codeBytes code).length ≤ 4 := by
  unfold codeBytes
  split_ifs <;> simp

theorem readUnicode_cases (h : readUnicode rest = some (bytes, after)) :
    (∃ d, Piece.Ok (.code d) ∧ rest = d ++ after ∧ Scalar (codeOf d) ∧
        bytes = codeBytes (codeOf d)) ∨
      (∃ d l, Piece.Ok (.code d) ∧ Piece.Ok (.code l) ∧ rest = d ++ 92 :: 117 :: (l ++ after) ∧
        (55296 ≤ codeOf d ∧ codeOf d ≤ 56319) ∧ ¬ (codeOf l < 56320 ∨ codeOf l > 57343) ∧
        bytes = codeBytes (pairCode (codeOf d) (codeOf l))) := by
  unfold readUnicode at h
  split at h
  · cases h
  rename_i code mid hc
  obtain ⟨d, hlen, hd, hrest, hcode⟩ := hexCode_sound hc
  have hlt := codeOf_lt hlen hd
  have hcode' : code = codeOf d := hcode
  subst hcode'
  split_ifs at h with hhigh hlow
  · split at h
    · rename_i tail
      split at h
      · cases h
      rename_i low behind hl
      obtain ⟨l, hlen', hl', hrest', hcode'⟩ := hexCode_sound hl
      have hlow : low = codeOf l := hcode'
      subst hlow
      split_ifs at h with hbad
      injection h with h
      injection h with h1 h2
      subst h1 h2
      exact .inr ⟨d, l, ⟨hlen, hd⟩, ⟨hlen', hl'⟩, by rw [hrest, hrest'], hhigh, hbad, rfl⟩
    · cases h
  · cases h
    refine .inl ⟨d, ⟨hlen, hd⟩, hrest, ?_, rfl⟩
    unfold Scalar
    omega

theorem readUnicode_code (h : Piece.Ok (.code d)) (hhigh : ¬ (55296 ≤ codeOf d ∧ codeOf d ≤ 56319))
    (hlow : ¬ (56320 ≤ codeOf d ∧ codeOf d ≤ 57343)) (rest : List UInt8) :
    readUnicode (d ++ rest) = some (codeBytes (codeOf d), rest) := by
  unfold readUnicode
  rw [hexCode_four h.1 h.2]
  dsimp only
  rw [if_neg hhigh, if_neg hlow]

theorem readUnicode_pair {l : List UInt8} (hd : Piece.Ok (.code d)) (hl : Piece.Ok (.code l))
    (hhigh : 55296 ≤ codeOf d ∧ codeOf d ≤ 56319) (hlow : ¬ (codeOf l < 56320 ∨ codeOf l > 57343))
    (rest : List UInt8) :
    readUnicode (d ++ 92 :: 117 :: (l ++ rest)) =
      some (codeBytes (pairCode (codeOf d) (codeOf l)), rest) := by
  unfold readUnicode
  rw [hexCode_four hd.1 hd.2]
  dsimp only
  rw [if_pos hhigh]
  simp only [hexCode_four hl.1 hl.2 rest, if_neg hlow]
  rfl

theorem readPiece_cases (h : readPiece rest = some (bytes, after)) :
    (∃ b, b ≠ 92 ∧ rest = b :: after ∧ bytes = [b]) ∨
      (∃ e, shortEscape e = true ∧ rest = 92 :: e :: after ∧ bytes = [shortValue e]) ∨
      (∃ tail, rest = 92 :: 117 :: tail ∧ readUnicode tail = some (bytes, after)) := by
  cases rest with
  | nil => cases h
  | cons b rest =>
    rw [readPiece.eq_def] at h
    dsimp only at h
    split_ifs at h with h92
    · cases rest with
      | nil => cases h
      | cons e rest =>
        dsimp only at h
        subst h92
        by_cases h117 : e = 117
        · subst h117
          exact .inr (.inr ⟨rest, rfl, h⟩)
        refine .inr (.inl ⟨e, ?_⟩)
        split_ifs at h with h1 h2 h3 h4 h5 h6
        · cases h
          rcases h1 with rfl | rfl | rfl <;> exact ⟨rfl, rfl, rfl⟩
        all_goals
          cases h
        · subst h2
          exact ⟨rfl, rfl, rfl⟩
        · subst h3
          exact ⟨rfl, rfl, rfl⟩
        · subst h4
          exact ⟨rfl, rfl, rfl⟩
        · subst h5
          exact ⟨rfl, rfl, rfl⟩
        · subst h6
          exact ⟨rfl, rfl, rfl⟩
    · cases h
      exact .inl ⟨b, h92, rfl, rfl⟩

theorem readPiece_byte (h : b ≠ 92) (rest : List UInt8) :
    readPiece (b :: rest) = some ([b], rest) := by
  rw [readPiece.eq_def]
  exact if_neg h

theorem readPiece_short {e : UInt8} (h : shortEscape e = true) (rest : List UInt8) :
    readPiece (92 :: e :: rest) = some ([shortValue e], rest) := by
  have hcases : e = 34 ∨ e = 92 ∨ e = 47 ∨ e = 98 ∨ e = 102 ∨ e = 110 ∨ e = 114 ∨ e = 116 := by
    simpa [shortEscape, or_assoc] using h
  rcases hcases with rfl | rfl | rfl | rfl | rfl | rfl | rfl | rfl <;> rfl

theorem readPiece_code (rest : List UInt8) :
    readPiece (92 :: 117 :: rest) = readUnicode rest := by
  rw [readPiece.eq_def]
  simp only
  rw [if_pos trivial, if_neg (by decide), if_neg (by decide), if_neg (by decide), if_neg (by decide),
    if_neg (by decide), if_neg (by decide), if_pos trivial]

theorem readPiece_length (h : readPiece rest = some (bytes, after)) :
    ∃ used, rest = used ++ after ∧ bytes.length ≤ used.length ∧ 0 < used.length := by
  rcases readPiece_cases h with ⟨b, _, rfl, rfl⟩ | ⟨e, _, rfl, rfl⟩ | ⟨tail, rfl, hu⟩
  · exact ⟨[b], rfl, le_refl 1, Nat.one_pos⟩
  · exact ⟨[92, e], rfl, Nat.le_succ 1, Nat.succ_pos 1⟩
  rcases readUnicode_cases hu with ⟨d, hd, rfl, _, rfl⟩ | ⟨d, l, _, _, rfl, hpair⟩
  · have hlen := hd.1
    have := (codeBytes_length (codeOf d)).2
    exact ⟨92 :: 117 :: d, rfl, by simp only [length_cons]; omega, Nat.succ_pos _⟩
  have := (codeBytes_length (pairCode (codeOf d) (codeOf l))).2
  rw [hpair.2.2]
  refine ⟨92 :: 117 :: (d ++ 92 :: 117 :: l), by simp, ?_, Nat.succ_pos _⟩
  simp only [length_cons, length_append]
  omega

def unescapeLoop : Nat → List UInt8 → Option (List UInt8)
  | _, [] => some []
  | 0, _ :: _ => none
  | fuel + 1, b :: rest =>
      match readPiece (b :: rest) with
      | none => none
      | some (bytes, rest) => (unescapeLoop fuel rest).map (bytes ++ ·)

def unescape (text : List UInt8) : Option (List UInt8) := unescapeLoop text.length text

theorem unescapeLoop_fuel : ∀ (fuel fuel' : Nat) (text : List UInt8), text.length ≤ fuel →
    text.length ≤ fuel' → unescapeLoop fuel text = unescapeLoop fuel' text
  | fuel, fuel', [], _, _ => by cases fuel <;> cases fuel' <;> rfl
  | 0, _, _ :: _, h, _ => absurd h (by simp)
  | _ + 1, 0, _ :: _, _, h => absurd h (by simp)
  | fuel + 1, fuel' + 1, b :: rest, h, h' => by
    rw [unescapeLoop, unescapeLoop]
    cases hp : readPiece (b :: rest) with
    | none => rfl
    | some found =>
      obtain ⟨bytes, after⟩ := found
      obtain ⟨used, hsplit, _, hpos⟩ := readPiece_length hp
      have hlen := congrArg length hsplit
      rw [length_append, length_cons] at hlen
      rw [length_cons] at h h'
      dsimp only
      rw [unescapeLoop_fuel fuel fuel' after (by omega) (by omega)]

theorem unescape_nil : unescape [] = some [] := rfl

theorem unescape_of_piece (h : readPiece rest = some (bytes, after)) :
    unescape rest = (unescape after).map (bytes ++ ·) := by
  obtain ⟨used, hsplit, _, hpos⟩ := readPiece_length h
  cases rest with
  | nil => cases h
  | cons b rest =>
    have hlen := congrArg length hsplit
    rw [length_append, length_cons] at hlen
    rw [unescape, length_cons, unescapeLoop, h]
    dsimp only
    rw [unescapeLoop_fuel rest.length after.length after (by omega) le_rfl]
    rfl

theorem unescape_of_none (hne : rest ≠ []) (h : readPiece rest = none) : unescape rest = none := by
  obtain ⟨b, tail, rfl⟩ := exists_cons_of_ne_nil hne
  rw [unescape, length_cons, unescapeLoop, h]

theorem writeAt_length : ∀ (bytes output : List UInt8) (at_ : Nat),
    (writeAt output at_ bytes).length = output.length
  | [], _, _ => rfl
  | b :: bytes, output, at_ => by rw [writeAt, writeAt_length bytes, length_set]

theorem writeAt_take : ∀ (bytes output : List UInt8) (at_ : Nat),
    at_ + bytes.length ≤ output.length →
    (writeAt output at_ bytes).take (at_ + bytes.length) = output.take at_ ++ bytes
  | [], output, at_, _ => by rw [writeAt, length_nil, add_zero, append_nil]
  | b :: bytes, output, at_, h => by
    rw [length_cons] at h
    have hlen : (output.set at_ b).length = output.length := length_set
    have ih := writeAt_take bytes (output.set at_ b) (at_ + 1) (by rw [hlen]; omega)
    have htake : (output.set at_ b).take (at_ + 1) = output.take at_ ++ [b] := by
      rw [take_add_one, take_set_of_le (le_refl at_), getElem?_set_self (by omega)]
      rfl
    rw [writeAt, length_cons, add_comm bytes.length 1, ← add_assoc, ih, htake, append_assoc]
    rfl

theorem writeAt_drop : ∀ (bytes output : List UInt8) (at_ k : Nat), at_ + bytes.length ≤ k →
    (writeAt output at_ bytes).drop k = output.drop k
  | [], _, _, _, _ => rfl
  | b :: bytes, output, at_, k, h => by
    rw [length_cons] at h
    rw [writeAt, writeAt_drop bytes _ _ k (by omega), drop_set_of_lt (by omega)]

/-- **The decoding loop computes `unescape`,** whether or not it writes over its source. -/
theorem decodeLoop_spec (inPlace : Bool) (text : List UInt8) :
    ∀ (fuel : Nat) (source output : List UInt8) (sourceAt outputAt : Nat),
      source.length = text.length → output.length = text.length →
      source.drop sourceAt = text.drop sourceAt → outputAt ≤ sourceAt →
      sourceAt ≤ text.length → (inPlace = true → source = output) →
      text.length ≤ sourceAt + fuel →
      match unescape (text.drop sourceAt) with
      | none => decodeLoop inPlace fuel source output sourceAt outputAt = none
      | some bytes => ∃ out, decodeLoop inPlace fuel source output sourceAt outputAt =
          some (out, outputAt + bytes.length) ∧
          out.take (outputAt + bytes.length) = output.take outputAt ++ bytes
  | fuel, source, output, sourceAt, outputAt, hs, ho, hdrop, hle, hend, hsame, hfuel => by
    by_cases hmore : sourceAt < text.length
    · obtain ⟨fuel, rfl⟩ : ∃ k, fuel = k + 1 := ⟨fuel - 1, by omega⟩
      have hne : text.drop sourceAt ≠ [] := by
        intro hcon
        have := drop_eq_nil_iff.mp hcon
        omega
      have hcond : sourceAt < source.length := by omega
      rw [decodeLoop, if_pos hcond, hdrop]
      cases hp : readPiece (text.drop sourceAt) with
      | none =>
        rw [unescape_of_none hne hp]
      | some found =>
        obtain ⟨bytes, after⟩ := found
        obtain ⟨used, hsplit, hbytes, hpos⟩ := readPiece_length hp
        have hlen := congrArg length hsplit
        rw [length_append, length_drop] at hlen
        have hnext : source.length - after.length = sourceAt + used.length := by omega
        have hafter : text.drop (sourceAt + used.length) = after := by
          rw [← drop_drop, hsplit, drop_left]
        have hwritten := writeAt_length bytes output outputAt
        have hsource : (if inPlace = true then writeAt output outputAt bytes else source).drop
            (sourceAt + used.length) = text.drop (sourceAt + used.length) := by
          have hold : source.drop (sourceAt + used.length) =
              text.drop (sourceAt + used.length) := by
            rw [← drop_drop, hdrop, drop_drop]
          split_ifs with hin
          · rw [writeAt_drop _ _ _ _ (by omega), ← hsame hin, hold]
          · exact hold
        have ih := decodeLoop_spec inPlace text fuel
          (if inPlace = true then writeAt output outputAt bytes else source)
          (writeAt output outputAt bytes) (sourceAt + used.length) (outputAt + bytes.length)
          (by split_ifs <;> omega) (by omega) hsource (by omega) (by omega)
          (fun hin => if_pos hin) (by omega)
        rw [unescape_of_piece hp]
        dsimp only
        rw [hnext]
        rw [hafter] at ih
        cases hu : unescape after with
        | none =>
          rw [hu] at ih
          exact ih
        | some tail =>
          rw [hu] at ih
          obtain ⟨out, hrun, htake⟩ := ih
          simp only [Option.map_some, length_append]
          rw [← add_assoc]
          refine ⟨out, hrun, ?_⟩
          rw [htake, writeAt_take _ _ _ (by omega), append_assoc]
    · have hnil : text.drop sourceAt = [] := drop_eq_nil_iff.mpr (by omega)
      rw [hnil, unescape_nil]
      refine ⟨output, ?_, ?_⟩
      · cases fuel with
        | zero => rfl
        | succ fuel => exact if_neg (by omega)
      · rw [length_nil, add_zero, append_nil]

/-- The first character of a text, if its first byte needs no escape. -/
theorem char_ok {c : Char} (h : b :: text = encoding c ++ rest) (h34 : b ≠ 34) (h92 : b ≠ 92)
    (h32 : ¬ b.toNat < 32) : Piece.Ok (.char c) := by
  by_cases hb : b.toNat ≥ 128
  · exact high_piece h hb
  have h34' : b.toNat ≠ 34 := fun hcon => h34 (UInt8.toNat_inj.mp hcon)
  have h92' : b.toNat ≠ 92 := fun hcon => h92 (UInt8.toNat_inj.mp hcon)
  change 32 ≤ _ ∧ _
  rcases encoding_cases c with ⟨hlt, he⟩ | ⟨hl, hu, he⟩ | ⟨hl, hu, he⟩ | ⟨hl, he⟩
  · rw [he] at h
    cases h
    have hval := toNat_ofNat_lt (show c.val.toNat < 256 by omega)
    omega
  all_goals omega

theorem char_bytes {c : Char} (h : Piece.Ok (.char c)) :
    ∀ b ∈ encoding c, b ≠ 34 ∧ b ≠ 92 ∧ ¬ b.toNat < 32 := by
  have hok : 32 ≤ c.val.toNat ∧ c.val.toNat ≠ 34 ∧ c.val.toNat ≠ 92 := h
  have hs := scalar_char c
  unfold Scalar at hs
  have hbyte : ∀ v, v < 256 → 32 ≤ v → v ≠ 34 → v ≠ 92 →
      UInt8.ofNat v ≠ 34 ∧ UInt8.ofNat v ≠ 92 ∧ ¬ (UInt8.ofNat v).toNat < 32 := by
    intro v hv h32 h34 h92
    have hval := toNat_ofNat_lt hv
    refine ⟨?_, ?_, by omega⟩
    · intro hcon
      rw [hcon] at hval
      exact h34 hval.symm
    intro hcon
    rw [hcon] at hval
    exact h92 hval.symm
  intro b hb
  rcases encoding_cases c with ⟨hlt, he⟩ | ⟨hl, hu, he⟩ | ⟨hl, hu, he⟩ | ⟨hl, he⟩
  all_goals
    rw [he] at hb
    simp only [mem_cons, not_mem_nil, or_false] at hb
  · rw [hb]
    exact hbyte _ (by omega) hok.1 hok.2.1 hok.2.2
  · rcases hb with rfl | rfl <;> exact hbyte _ (by omega) (by omega) (by omega) (by omega)
  · rcases hb with rfl | rfl | rfl <;> exact hbyte _ (by omega) (by omega) (by omega) (by omega)
  · rcases hb with rfl | rfl | rfl | rfl <;>
      exact hbyte _ (by omega) (by omega) (by omega) (by omega)

theorem hex_bytes (h : hex b = true) : b ≠ 34 ∧ b ≠ 92 ∧ ¬ b.toNat < 32 ∧ b.toNat < 128 := by
  have hcases : (48 ≤ b.toNat ∧ b.toNat ≤ 57) ∨ (97 ≤ b.toNat ∧ b.toNat ≤ 102) ∨
      (65 ≤ b.toNat ∧ b.toNat ≤ 70) := by
    simp only [hex, digit, Bool.or_eq_true, decide_eq_true_eq] at h
    omega
  refine ⟨?_, ?_, by omega, by omega⟩
  · rintro rfl
    exact absurd hcases (by decide)
  · rintro rfl
    exact absurd hcases (by decide)

theorem short_bytes {e : UInt8} (h : shortEscape e = true) : ¬ e.toNat < 32 ∧ e.toNat < 128 := by
  have hcases : e = 34 ∨ e = 92 ∨ e = 47 ∨ e = 98 ∨ e = 102 ∨ e = 110 ∨ e = 114 ∨ e = 116 := by
    simpa [shortEscape, or_assoc] using h
  rcases hcases with rfl | rfl | rfl | rfl | rfl | rfl | rfl | rfl <;> decide

theorem spans_append : ∀ {bytes rest : List UInt8},
    (∀ b ∈ bytes, b ≠ 34 ∧ b ≠ 92 ∧ ¬ b.toNat < 32) → (Spans (bytes ++ rest) ↔ Spans rest)
  | [], rest, _ => Iff.rfl
  | b :: bytes, rest, h => by
    obtain ⟨h34, h92, h32⟩ := h b (by simp)
    have ih := @spans_append bytes rest (fun c hc => h c (mem_cons_of_mem b hc))
    rw [cons_append, ← ih]
    generalize bytes ++ rest = text
    constructor
    · intro hs
      cases hs with
      | byte _ _ _ hs => exact hs
      | escape _ hs => exact absurd rfl h92
    · exact fun hs => Spans.byte h34 h92 h32 hs

theorem unescape_append : ∀ {bytes rest : List UInt8}, (∀ b ∈ bytes, b ≠ 92) →
    unescape (bytes ++ rest) = (unescape rest).map (bytes ++ ·)
  | [], rest, _ => by
    rw [nil_append]
    cases unescape rest <;> rfl
  | b :: bytes, rest, h => by
    rw [cons_append, unescape_of_piece (readPiece_byte (h b (by simp)) _),
      unescape_append (fun c hc => h c (by simp [hc])), Option.map_map]
    rfl

theorem utf8_ascii (h : b.toNat < 128) : Utf8 (b :: rest) ↔ Utf8 rest := by
  obtain ⟨c, he, _⟩ := ascii_encoding h
  constructor
  · intro hu
    exact utf8_split hu (c := c) (by rw [he]; rfl)
  intro hu
  have := hu.cons c
  rwa [he] at this

theorem utf8_append : ∀ {bytes rest : List UInt8}, (∀ b ∈ bytes, b.toNat < 128) →
    (Utf8 (bytes ++ rest) ↔ Utf8 rest)
  | [], rest, _ => Iff.rfl
  | b :: bytes, rest, h => by
    rw [cons_append, utf8_ascii (h b (by simp)), utf8_append (fun c hc => h c (by simp [hc]))]

theorem utf8_first (h : Utf8 (b :: rest)) :
    ∃ c tail, b :: rest = encoding c ++ tail ∧ Utf8 tail := by
  obtain ⟨cs, hcs⟩ := h
  cases cs with
  | nil => cases hcs
  | cons c cs => exact ⟨c, cs.flatMap encoding, hcs, cs, rfl⟩

theorem raw_append {p : Piece} (h : p.Ok) (rest : List UInt8) :
    (Spans (p.raw ++ rest) ↔ Spans rest) ∧ (Utf8 (p.raw ++ rest) ↔ Utf8 rest) := by
  cases p with
  | char c =>
    refine ⟨spans_append (char_bytes h), ?_⟩
    exact ⟨fun hu => utf8_split hu rfl, fun hu => hu.cons c⟩
  | short e =>
    obtain ⟨h32, h128⟩ := short_bytes h
    refine ⟨⟨?_, fun hs => Spans.escape h32 hs⟩, ?_⟩
    · intro hs
      cases hs with
      | byte _ h92 _ _ => exact absurd rfl h92
      | escape _ hs => exact hs
    · change Utf8 (92 :: e :: rest) ↔ _
      rw [utf8_ascii (by decide), utf8_ascii h128]
  | code d =>
    obtain ⟨_, hd⟩ := h
    have hspans : Spans (d ++ rest) ↔ Spans rest :=
      spans_append (fun b hb => ⟨(hex_bytes (hd b hb)).1, (hex_bytes (hd b hb)).2.1,
        (hex_bytes (hd b hb)).2.2.1⟩)
    refine ⟨⟨?_, fun hs => Spans.escape (by decide) (hspans.mpr hs)⟩, ?_⟩
    · intro hs
      cases hs with
      | byte _ h92 _ _ => exact absurd rfl h92
      | escape _ hs => exact hspans.mp hs
    change Utf8 (92 :: 117 :: (d ++ rest)) ↔ _
    rw [utf8_ascii (by decide), utf8_ascii (by decide),
      utf8_append (fun b hb => (hex_bytes (hd b hb)).2.2.2)]

theorem rawText_spans : ∀ {pieces : List Piece}, (∀ p ∈ pieces, Piece.Ok p) →
    Spans (rawText pieces) ∧ Utf8 (rawText pieces)
  | [], _ => ⟨Spans.nil, utf8_nil⟩
  | p :: pieces, h => by
    obtain ⟨hs, hu⟩ := rawText_spans (fun q hq => h q (mem_cons_of_mem p hq))
    obtain ⟨hspans, hutf⟩ := raw_append (h p (by simp)) (rawText pieces)
    exact ⟨hspans.mpr hs, hutf.mpr hu⟩

theorem unescape_rawText : ∀ {pieces : List Piece} {text : List UInt8},
    (∀ p ∈ pieces, Piece.Ok p) → meaning pieces = some text →
    unescape (rawText pieces) = some text
  | [], text, _, hm => hm
  | .char c :: pieces, text, h, hm => by
    rw [meaning] at hm
    obtain ⟨tail, htail, rfl⟩ := Option.map_eq_some_iff.mp hm
    have ih := unescape_rawText (fun q hq => h q (mem_cons_of_mem _ hq)) htail
    have hbytes := char_bytes (h (.char c) (by simp))
    rw [rawText_cons]
    change unescape (encoding c ++ _) = _
    rw [unescape_append (fun b hb => (hbytes b hb).2.1), ih]
    rfl
  | .short e :: pieces, text, h, hm => by
    rw [meaning] at hm
    obtain ⟨tail, htail, rfl⟩ := Option.map_eq_some_iff.mp hm
    have ih := unescape_rawText (fun q hq => h q (mem_cons_of_mem _ hq)) htail
    rw [rawText_cons]
    change unescape (92 :: e :: rawText pieces) = _
    rw [unescape_of_piece (readPiece_short (h (.short e) (by simp)) _), ih]
    rfl
  | .code d :: pieces, text, h, hm => by
    have hd := h (.code d) (by simp)
    have hrest := fun q hq => h q (mem_cons_of_mem _ hq)
    rw [meaning.eq_def] at hm
    dsimp only at hm
    rw [rawText_cons]
    change unescape (92 :: 117 :: (d ++ rawText pieces)) = _
    split_ifs at hm with hhigh hlow
    · split at hm
      · rename_i l rest
        split_ifs at hm with hbad
        obtain ⟨tail, htail, rfl⟩ := Option.map_eq_some_iff.mp hm
        have ih := unescape_rawText (fun q hq => hrest q (mem_cons_of_mem _ hq)) htail
        have hp := readUnicode_pair hd (hrest (.code l) (by simp)) hhigh hbad (rawText rest)
        rw [← readPiece_code] at hp
        rw [rawText_cons]
        change unescape (92 :: 117 :: (d ++ 92 :: 117 :: (l ++ rawText rest))) = _
        rw [unescape_of_piece hp, ih]
        rfl
      · cases hm
    obtain ⟨tail, htail, rfl⟩ := Option.map_eq_some_iff.mp hm
    have ih := unescape_rawText hrest htail
    have hp := readUnicode_code hd hhigh hlow (rawText pieces)
    rw [← readPiece_code] at hp
    rw [unescape_of_piece hp, ih]
    rfl

theorem unescape_pieces : ∀ (n : Nat) {body text : List UInt8}, body.length ≤ n → Spans body →
    Utf8 body → unescape body = some text →
    ∃ pieces, (∀ p ∈ pieces, Piece.Ok p) ∧ rawText pieces = body ∧ meaning pieces = some text
  | n, [], text, _, _, _, hun => ⟨[], (fun _ hp => absurd hp (by simp)), rfl, hun⟩
  | 0, _ :: _, _, hlen, _, _, _ => absurd hlen (by simp)
  | n + 1, b :: rest, text, hlen, hs, hu, hun => by
    rw [length_cons] at hlen
    cases hp : readPiece (b :: rest) with
    | none =>
      rw [unescape_of_none (by simp) hp] at hun
      cases hun
    | some found =>
      obtain ⟨bytes, after⟩ := found
      rcases readPiece_cases hp with ⟨b', h92, he, _⟩ | ⟨e, hshort, he, rfl⟩ | ⟨tail, he, hcode⟩
      · -- a character, whose other bytes the loop takes one by one
        cases he
        obtain ⟨c, tail, hsplit, htail⟩ := utf8_first hu
        have hok : Piece.Ok (.char c) := by
          cases hs with
          | byte h34 h92 h32 _ => exact char_ok hsplit h34 h92 h32
          | escape _ _ => exact absurd rfl h92
        have hpos := encoding_pos c
        have htaillen := congrArg length hsplit
        rw [length_cons, length_append] at htaillen
        rw [hsplit, unescape_append (fun b hb => (char_bytes hok b hb).2.1)] at hun
        obtain ⟨text', hun', rfl⟩ := Option.map_eq_some_iff.mp hun
        rw [hsplit] at hs
        obtain ⟨pieces, hpieces, hraw, hm⟩ := unescape_pieces n (by omega)
          ((raw_append hok tail).1.mp hs) htail hun'
        refine ⟨.char c :: pieces, mem_cons_ok hok hpieces, ?_, ?_⟩
        · rw [rawText_cons, hraw, hsplit]
          rfl
        · rw [meaning, hm]
          rfl
      · have hok : Piece.Ok (.short e) := hshort
        rw [unescape_of_piece hp] at hun
        obtain ⟨text', hun', rfl⟩ := Option.map_eq_some_iff.mp hun
        rw [he] at hs hu
        have hafter := congrArg length he
        simp only [length_cons] at hafter
        obtain ⟨pieces, hpieces, hraw, hm⟩ := unescape_pieces n (by omega)
          ((raw_append hok after).1.mp hs) ((raw_append hok after).2.mp hu) hun'
        refine ⟨.short e :: pieces, mem_cons_ok hok hpieces, ?_, ?_⟩
        · rw [rawText_cons, hraw, he]
          rfl
        · rw [meaning, hm]
          rfl
      rw [unescape_of_piece hp] at hun
      obtain ⟨text', hun', rfl⟩ := Option.map_eq_some_iff.mp hun
      rw [he] at hs hu
      have hafter := congrArg length he
      simp only [length_cons] at hafter
      rcases readUnicode_cases hcode with ⟨d, hd, rfl, hscalar, hbytes⟩ |
        ⟨d, l, hd, hl, rfl, hhigh, hlow, hbytes⟩
      · rw [length_append] at hafter
        obtain ⟨pieces, hpieces, hraw, hm⟩ := unescape_pieces n (by omega)
          ((raw_append hd after).1.mp hs) ((raw_append hd after).2.mp hu) hun'
        refine ⟨.code d :: pieces, mem_cons_ok hd hpieces, ?_, ?_⟩
        · rw [rawText_cons, hraw, he]
          rfl
        unfold Scalar at hscalar
        rw [meaning.eq_def]
        dsimp only
        rw [if_neg (by omega), if_neg (by omega), hm, hbytes]
        rfl
      simp only [length_append, length_cons] at hafter
      have hs' := (raw_append hd _).1.mp hs
      have hu' := (raw_append hd _).2.mp hu
      obtain ⟨pieces, hpieces, hraw, hm⟩ := unescape_pieces n (by omega)
        ((raw_append hl after).1.mp hs') ((raw_append hl after).2.mp hu') hun'
      refine ⟨.code d :: .code l :: pieces, mem_cons_ok hd (mem_cons_ok hl hpieces), ?_, ?_⟩
      · rw [rawText_cons, rawText_cons, hraw, he]
        rfl
      rw [meaning.eq_def]
      dsimp only
      rw [if_pos hhigh, if_neg hlow, hm, hbytes]
      rfl

variable {body : List UInt8}

/-- **The contents that pass all checks are the texts of pieces with a meaning,** and they
decode to it. -/
theorem contents_iff :
    (Spans body ∧ Utf8 body ∧ unescape body = some text) ↔
      ∃ pieces, (∀ p ∈ pieces, Piece.Ok p) ∧ rawText pieces = body ∧
        meaning pieces = some text := by
  constructor
  · rintro ⟨hs, hu, hun⟩
    exact unescape_pieces body.length le_rfl hs hu hun
  rintro ⟨pieces, hok, rfl, hm⟩
  obtain ⟨hs, hu⟩ := rawText_spans hok
  exact ⟨hs, hu, unescape_rawText hok hm⟩

/-- The text of the string at the front, and what is behind it: the two passes, without
buffers. -/
def stringText : List UInt8 → Option (List UInt8 × List UInt8)
  | 34 :: rest =>
      match findEnd {} rest with
      | none => none
      | some found =>
          match contents found rest with
          | none => none
          | some text => (unescape text).map (fun bytes => (bytes, rest.drop (found.length + 1)))
  | _ => none

theorem stringText_none (h : ∀ tail, rest ≠ 34 :: tail) : stringText rest = none := by
  unfold stringText
  split
  · exact absurd rfl (h _)
  · rfl

theorem utf8_allAscii (h : allAscii text = true) : Utf8 text := by
  have hall : ∀ b ∈ text, b.toNat < 128 := by
    intro b hb
    simpa using all_eq_true.mp h b hb
  have := (@utf8_append text [] hall).mpr utf8_nil
  rwa [append_nil] at this

theorem contents_eq :
    contents (Extent.add {} body) (body ++ after) = if Unicode.valid body then some body else none := by
  have hlen : (Extent.add {} body).length = body.length := zero_add _
  have hascii : (Extent.add {} body).ascii = allAscii body := Bool.true_and _
  unfold contents
  rw [hlen, hascii, take_left]
  cases ha : allAscii body with
  | true =>
    have hv : Unicode.valid body = true := (valid_iff body).mpr (utf8_allAscii ha)
    rw [if_pos hv]
    rfl
  | false =>
    cases Unicode.valid body <;> rfl

theorem stringText_eq {body after : List UInt8} (h : Spans body) :
    stringText (34 :: (body ++ 34 :: after)) =
      if Unicode.valid body then (unescape body).map (fun bytes => (bytes, after)) else none := by
  have hdrop : (body ++ 34 :: after).drop ((Extent.add {} body).length + 1) = after := by
    have hlen : (Extent.add {} body).length = body.length := zero_add _
    rw [hlen, ← drop_drop, drop_left]
    rfl
  rw [stringText, findEnd_complete h]
  dsimp only
  rw [contents_eq, hdrop]
  cases Unicode.valid body <;> rfl

theorem unescape_plain (h : text.contains 92 = false) : unescape text = some text := by
  have hne : ∀ b ∈ text, b ≠ 92 := by
    rintro b hb rfl
    rw [contains_iff_mem.mpr hb] at h
    cases h
  have := @unescape_append text [] hne
  rwa [append_nil, unescape_nil, Option.map_some, append_nil] at this

theorem decodeLoop_length {inPlace : Bool} : ∀ {fuel : Nat} {source output out : List UInt8}
    {sourceAt outputAt n : Nat},
    decodeLoop inPlace fuel source output sourceAt outputAt = some (out, n) →
    out.length = output.length
  | 0, _, output, out, _, _, n, h => by
    injection h with h
    injection h with h _
    rw [h]
  | fuel + 1, source, output, out, sourceAt, outputAt, n, h => by
    unfold decodeLoop at h
    split at h
    · split at h
      · cases h
      exact (decodeLoop_length h).trans (writeAt_length _ _ _)
    injection h with h
    injection h with h _
    rw [h]

theorem decodeLoop_eq {inPlace : Bool} {text output : List UInt8}
    (hlen : output.length = text.length) (hsame : inPlace = true → text = output) :
    match unescape text with
    | none => decodeLoop inPlace text.length text output 0 0 = none
    | some bytes => ∃ out, decodeLoop inPlace text.length text output 0 0 =
        some (out, bytes.length) ∧ out.take bytes.length = bytes := by
  have h := decodeLoop_spec inPlace text text.length text output 0 0 rfl hlen rfl
    (Nat.le_refl 0) (Nat.zero_le _) hsame (by omega)
  rw [drop_zero] at h
  split at h
  · exact h
  simpa only [zero_add, take_zero, nil_append] using h

/-- **`stringText` takes a string token with scalar escapes** off the front of a text. -/
theorem stringText_iff :
    stringText rest = some (text, after) ↔
      ∃ pieces, (∀ p ∈ pieces, Piece.Ok p) ∧ meaning pieces = some text ∧
        rest = 34 :: (rawText pieces ++ 34 :: after) := by
  constructor
  · intro h
    unfold stringText at h
    split at h
    · rename_i rest
      cases hf : findEnd {} rest with
      | none =>
        rw [hf] at h
        cases h
      | some found =>
        obtain ⟨body, behind, hs, rfl, rfl⟩ := findEnd_sound hf
        have heq := @stringText_eq body behind hs
        rw [stringText] at heq
        rw [heq] at h
        split_ifs at h with hv
        obtain ⟨bytes, hun, he⟩ := Option.map_eq_some_iff.mp h
        cases he
        obtain ⟨pieces, hok, rfl, hm⟩ := contents_iff.mp ⟨hs, (valid_iff body).mp hv, hun⟩
        exact ⟨pieces, hok, hm, rfl⟩
    · cases h
  · rintro ⟨pieces, hok, hm, rfl⟩
    obtain ⟨hs, hu, hun⟩ := contents_iff.mpr ⟨pieces, hok, rfl, hm⟩
    rw [stringText_eq hs, if_pos ((valid_iff _).mpr hu), hun]
    rfl

/-- The validator: strings are skipped over. -/
def lax : Scanner where
  str rest := (passed (string rest)).map (fun after => ([], after))
  num rest := passed (number rest)

def strict : Scanner where
  str := stringText
  num rest := passed (number rest)

theorem strict_str : strict.str = stringText := rfl

theorem lax_reads : lax.Reads IsString IsNumber where
  str_sound h := by
    obtain ⟨_, hs, he⟩ := Option.map_eq_some_iff.mp h
    cases he
    exact string_iff.mp hs
  str_complete hraw := ⟨[], fun rest => by
    have : passed (string (_ ++ rest)) = some rest := string_iff.mpr ⟨_, hraw, rfl⟩
    exact Option.map_eq_some_iff.mpr ⟨rest, this, rfl⟩⟩
  str_head := by
    rintro _ ⟨-, _, rfl⟩
    exact ⟨_, rfl⟩
  num_sound := number_sound
  num_complete := number_complete
  num_head := number_head

theorem strict_reads : strict.Reads IsScalarString IsNumber where
  str_sound h := by
    obtain ⟨pieces, hok, hm, rfl⟩ := stringText_iff.mp h
    refine ⟨_, ⟨pieces, hok, Option.isSome_iff_exists.mpr ⟨_, hm⟩, rfl⟩, ?_⟩
    rw [cons_append, append_assoc]
    rfl
  str_complete := by
    rintro _ ⟨pieces, hok, hm, rfl⟩
    obtain ⟨text, hm⟩ := Option.isSome_iff_exists.mp hm
    refine ⟨text, fun rest => ?_⟩
    rw [strict_str]
    refine stringText_iff.mpr ⟨pieces, hok, hm, ?_⟩
    rw [cons_append, append_assoc]
    rfl
  str_head := by
    rintro _ ⟨pieces, _, _, rfl⟩
    exact ⟨_, rfl⟩
  num_sound := number_sound
  num_complete := number_complete
  num_head := number_head

end Dyn.Json
