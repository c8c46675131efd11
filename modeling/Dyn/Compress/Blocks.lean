import Dyn.Compress.Encoder

/-!
# std/compress/deflate: the engine on what the encoders write

Both trees the encoders use are the canonical codes of the lengths the decoder sees, so
the hand-assigned code numbers decode (`fixed_decodes`, `dynamic_decodes`).  From this, one
block of tokens takes the abstract engine from the block's first bit to the bit behind its
end-of-block symbol, and appends the bytes the tokens stand for (`block_runs`).
-/

namespace Dyn.Compress

open Lib List

/-- The table of the first `n` symbols of a code, in an array of `size` entries. -/
def encoderTable (size n : Nat) (code : Nat → Nat × Nat) : Huffman :=
  ⟨padTo size ((List.range n).map (fun s => reverseCode (code s).1 (code s).2)),
    padTo size ((List.range n).map (fun s => (code s).2))⟩

variable {size n : Nat}

theorem padTo_getD {f : Nat → Nat} {s : Nat} (hs : s < n) :
    (padTo size ((List.range n).map f)).getD s 0 = f s := by
  have hlen : s < ((range n).map f).length := by simpa using hs
  rw [padTo, getD_append _ _ _ _ hlen]
  simp [getD_eq_getElem?_getD, hs]

/-- If `build` numbers the symbols as the encoder does, the encoder's words decode. -/
theorem encoderTable_decode {code : Nat → Nat × Nat} {allowEmpty requireComplete : Bool}
    (hbuild : build (encoderTable size n code).lengths allowEmpty requireComplete =
      some (encoderTable size n code)) {s : Nat} (hs : s < n) (hz : (code s).2 ≠ 0)
    (rest : List Bool) :
    (decode (encoderTable size n code) : BitParser Nat)
      (wordOf (code s).2 (code s).1 ++ rest) = .ok s rest := by
  have hlen : s < (encoderTable size n code).lengths.length := by
    simp only [encoderTable, padTo, length_append, length_map, length_range]
    omega
  have hget : (encoderTable size n code).lengths.getD s 0 = (code s).2 := padTo_getD hs
  have hnz : (encoderTable size n code).lengths.getD s 0 ≠ 0 := hget ▸ hz
  have hne : ¬ (encoderTable size n code).lengths.all (fun l => l = 0) = true := by
    intro hall
    have := all_eq_true.mp hall _ (getElem_mem hlen)
    rw [getD_eq_getElem _ _ hlen] at hnz
    exact hnz (by simpa using this)
  have hword : codeWord (encoderTable size n code).lengths s = wordOf (code s).2 (code s).1 := by
    have hcode := table_code hbuild hne hlen hnz
    have hentry : (encoderTable size n code).codes.getD s 0 =
        reverseCode (code s).1 (code s).2 := padTo_getD hs
    apply eq_of_valueOf_eq
    · rw [codeWord, wordOf_length, wordOf_length, hget]
    · rw [← hcode, hentry, valueOf_wordOf]
  rw [← hword]
  exact decode_word hbuild hne hlen hnz rest

/-- The code of the code lengths in a dynamic header. -/
def codeLengthCode (symbol : Nat) : Nat × Nat :=
  if symbol ≤ 12 then (symbol, 4) else (symbol + 13, 5)

set_option maxRecDepth 100000 in
/-- The lengths of a fixed block are those of its codes, and build their trees. -/
theorem fixed_built :
    (build fixedLiteralLengths false false = some (encoderTable 288 288 fixedCode) ∧
      fixedLiteralLengths = (encoderTable 288 288 fixedCode).lengths ∧ fixedLiteralLengths.getD 256 0 ≠ 0) ∧
    build fixedDistanceLengths true false = some (encoderTable 32 32 (distanceCode false)) ∧
      fixedDistanceLengths = (encoderTable 32 32 (distanceCode false)).lengths := by
  refine ⟨⟨?_, ?_, ?_⟩, ?_, ?_⟩ <;> decide +kernel

set_option maxRecDepth 100000 in
/-- The lengths of the codes of a dynamic block build their trees. -/
theorem dynamic_built :
    (build (encoderTable 288 286 dynamicCode).lengths false false = some (encoderTable 288 286 dynamicCode) ∧
      (encoderTable 288 286 dynamicCode).lengths.getD 256 0 ≠ 0) ∧
    build (encoderTable 32 30 (distanceCode true)).lengths true false =
      some (encoderTable 32 30 (distanceCode true)) ∧
    build (encoderTable 19 19 codeLengthCode).lengths false false = some (encoderTable 19 19 codeLengthCode) := by
  refine ⟨⟨?_, ?_⟩, ?_, ?_⟩ <;> decide +kernel

/-- The tables decode every symbol word of the encoder. -/
structure Decodes (dynamic : Bool) (literal distance : Huffman) : Prop where
  symbol : ∀ s < 286, ∀ rest,
    (decode literal : BitParser Nat) (symbolWord dynamic s ++ rest) = .ok s rest
  distance : ∀ i < 30, ∀ rest,
    (decode distance : BitParser Nat) (distanceWord dynamic i ++ rest) = .ok i rest

theorem symbolCode_length_ne (dynamic : Bool) (s : Nat) : (symbolCode dynamic s).2 ≠ 0 := by
  unfold symbolCode fixedCode dynamicCode
  split_ifs <;> simp

theorem distanceCode_length_ne (dynamic : Bool) (i : Nat) : (distanceCode dynamic i).2 ≠ 0 := by
  unfold distanceCode
  split_ifs <;> simp

theorem fixed_decodes :
    Decodes false (encoderTable 288 288 fixedCode) (encoderTable 32 32 (distanceCode false)) where
  symbol s hs rest :=
    encoderTable_decode (fixed_built.1.2.1 ▸ fixed_built.1.1) (by omega)
      (symbolCode_length_ne false s) rest
  distance i hi rest :=
    encoderTable_decode (fixed_built.2.2 ▸ fixed_built.2.1) (by omega)
      (distanceCode_length_ne false i) rest

theorem dynamic_decodes :
    Decodes true (encoderTable 288 286 dynamicCode) (encoderTable 32 30 (distanceCode true)) where
  symbol s hs rest :=
    encoderTable_decode dynamic_built.1.1 hs (symbolCode_length_ne true s) rest
  distance i hi rest :=
    encoderTable_decode dynamic_built.2.1 hi (distanceCode_length_ne true i) rest

theorem bits_bind {β : Type} {v : Nat} (hv : v < 2 ^ n) (f : Nat → BitParser β) (rest : List Bool) :
    (BitSource.bits n >>= f : BitParser β) (bitsOf n v ++ rest) = f v rest := by
  change BitParser.bind (BitParser.take n) f _ = _
  rw [BitParser.bind, BitParser.take_append hv]

variable {rest : List Bool} {input : List UInt8}

theorem bind_of_ok {α β : Type} {p : BitParser α} {bs : List Bool} {a : α} (h : p bs = .ok a rest)
    (f : α → BitParser β) : (p >>= f : BitParser β) bs = f a rest := by
  change BitParser.bind p f bs = _
  rw [BitParser.bind, h]

theorem readCodeLengths_word (value : Nat → Nat) (hv : ∀ s, value s < 2 ^ 3) :
    ∀ (order lengths : List Nat) (rest : List Bool),
      (readCodeLengths order lengths : BitParser (List Nat))
          (order.flatMap (fun s => bitsOf 3 (value s)) ++ rest) =
        .ok (order.foldl (fun lengths s => lengths.set s (value s)) lengths) rest
  | [], lengths, rest => rfl
  | s :: order, lengths, rest => by
    rw [flatMap_cons, append_assoc]
    unfold readCodeLengths
    rw [bits_bind (hv s), readCodeLengths_word value hv order]
    rfl

theorem readLengths_word (total : Nat) :
    ∀ (values : List Nat) (fuel : Nat) (lengths : List Nat) (rest : List Bool),
      (∀ v ∈ values, v ≤ 12) → values.length ≤ fuel → lengths.length + values.length = total →
      (readLengths (encoderTable 19 19 codeLengthCode) total fuel lengths :
          BitParser (List Nat)) (values.flatMap (wordOf 4) ++ rest) =
        .ok (lengths ++ values) rest
  | [], fuel, lengths, rest, _, _, htotal => by
    have hend : ¬ lengths.length < total := by
      simp only [length_nil] at htotal
      omega
    cases fuel with
    | zero => simp [readLengths]; rfl
    | succ fuel =>
      unfold readLengths
      rw [if_neg hend, append_nil]
      rfl
  | v :: values, 0, lengths, rest, _, hfuel, _ => by cases hfuel
  | v :: values, fuel + 1, lengths, rest, hle, hfuel, htotal => by
    have hv := hle v (by simp)
    have hcode : codeLengthCode v = (v, 4) := if_pos hv
    have hdec := encoderTable_decode dynamic_built.2.2 (show v < 19 by omega)
      (by rw [hcode]; exact Nat.succ_ne_zero _) (values.flatMap (wordOf 4) ++ rest)
    rw [hcode] at hdec
    rw [flatMap_cons, append_assoc]
    rw [length_cons] at hfuel htotal
    unfold readLengths
    rw [if_pos (by omega), bind_of_ok hdec, if_pos (by omega),
      readLengths_word total values fuel _ rest
        (fun u hu => hle u (mem_cons_of_mem _ hu)) (by omega)
        (by rw [length_append, length_singleton]; omega)]
    simp

/-- The code lengths a dynamic block sends. -/
def sentLengths : List Nat :=
  (List.range 286).map dynamicLength ++ (List.range 30).map (fun s => if s < 2 then 4 else 5)

theorem sentLengths_le : ∀ v ∈ sentLengths, v ≤ 12 := by
  intro v hv
  simp only [sentLengths, mem_append, mem_map] at hv
  rcases hv with ⟨s, _, rfl⟩ | ⟨s, _, rfl⟩
  · unfold dynamicLength
    split_ifs <;> decide
  · split_ifs <;> decide

theorem sentCodeLengths_eq :
    codeLengthOrder.foldl (fun lengths s => lengths.set s (if s ≤ 12 then 4 else 5))
      (List.replicate 19 0) = (encoderTable 19 19 codeLengthCode).lengths := by
  decide

set_option maxRecDepth 100000 in
theorem sentTables_eq :
    padTo 288 (sentLengths.take 286) = (encoderTable 288 286 dynamicCode).lengths ∧
      padTo 32 (sentLengths.drop 286) = (encoderTable 32 30 (distanceCode true)).lengths := by
  constructor <;> decide +kernel

theorem buildTables_eq {literal distance : List Nat} {a b : Huffman}
    (ha : build literal false false = some a) (hend : literal.getD 256 0 ≠ 0)
    (hb : build distance true false = some b) (bs : List Bool) :
    (buildTables literal distance : BitParser (Huffman × Huffman)) bs = .ok (a, b) bs := by
  unfold buildTables
  rw [ha, hb]
  simp only [if_neg hend]
  rfl

theorem tables_fixed (rest : List Bool) :
    (tables 1 : BitParser (Huffman × Huffman)) rest =
      .ok (encoderTable 288 288 fixedCode, encoderTable 32 32 (distanceCode false)) rest := by
  unfold tables
  rw [if_pos rfl]
  exact buildTables_eq fixed_built.1.1 fixed_built.1.2.2 fixed_built.2.1 rest

theorem tables_dynamic (rest : List Bool) :
    (tables 2 : BitParser (Huffman × Huffman)) (treeBits ++ rest) =
      .ok (encoderTable 288 286 dynamicCode, encoderTable 32 30 (distanceCode true)) rest := by
  have hcode := readCodeLengths_word (fun s => if s ≤ 12 then 4 else 5)
    (fun s => by split_ifs <;> decide) codeLengthOrder (replicate 19 0)
    (sentLengths.flatMap (wordOf 4) ++ rest)
  rw [sentCodeLengths_eq] at hcode
  have hlengths := readLengths_word 316 sentLengths 316 [] rest sentLengths_le
    (by simp [sentLengths]) (by simp [sentLengths])
  have hsent : sentLengths.flatMap (wordOf 4) =
      (range 286).flatMap (fun symbol => wordOf 4 (dynamicLength symbol)) ++
        (range 30).flatMap (fun symbol => wordOf 4 (if symbol < 2 then 4 else 5)) := by
    rw [sentLengths, flatMap_append, flatMap_map, flatMap_map]
  unfold tables treeBits
  simp only [append_assoc] at hsent ⊢
  rw [if_neg (by decide), bits_bind (by decide), if_neg (by decide), bits_bind (by decide),
    bits_bind (by decide), ← append_assoc ((range 286).flatMap _), ← hsent]
  simp only [show codeLengthOrder.take (15 + 4) = codeLengthOrder from rfl]
  rw [bind_of_ok hcode]
  simp only [dynamic_built.2.2]
  rw [bind_of_ok hlengths, nil_append]
  rw [sentTables_eq.1, sentTables_eq.2]
  exact buildTables_eq dynamic_built.1.1 dynamic_built.1.2 dynamic_built.2.1 rest

theorem blockHeader_word (final dynamic : Bool) :
    ∃ literal distance, Decodes dynamic literal distance ∧ ∀ rest,
      (blockHeader : BitParser BlockHeader)
        (bitsOf 1 (if final then 1 else 0) ++
          (if dynamic then bitsOf 2 2 ++ treeBits else bitsOf 2 1) ++ rest) =
        .ok (.coded (if final then 1 else 0) literal distance) rest := by
  have hfinal : (if final then 1 else 0) < 2 ^ 1 := by split_ifs <;> decide
  cases dynamic with
  | true =>
    refine ⟨_, _, dynamic_decodes, fun rest => ?_⟩
    simp only [if_true, append_assoc]
    unfold blockHeader headerBody
    rw [bits_bind hfinal, bits_bind (by decide), if_neg (by decide), if_neg (by decide),
      bind_of_ok (tables_dynamic rest)]
    rfl
  | false =>
    refine ⟨_, _, fixed_decodes, fun rest => ?_⟩
    simp only [Bool.false_eq_true, if_false, append_assoc]
    unfold blockHeader headerBody
    rw [bits_bind hfinal, bits_bind (by decide), if_neg (by decide), if_neg (by decide),
      bind_of_ok (tables_fixed rest)]
    rfl

/-- The tokens stand for the input from position `at_` on. -/
def TokensCover (input : List UInt8) : Nat → List Token → Prop
  | at_, [] => at_ = input.length
  | at_, .literal byte :: tokens =>
      at_ < input.length ∧ byte = input.getD at_ 0 ∧ TokensCover input (at_ + 1) tokens
  | at_, .copy length distance :: tokens =>
      MatchAt input at_ length distance ∧ TokensCover input (at_ + length) tokens

variable {c : Config}

theorem huffmanTokens_cover :
    ∀ (fuel at_ : Nat) (scratch : Nat → Nat), Past scratch at_ → at_ ≤ input.length →
      input.length ≤ fuel + at_ →
      TokensCover input at_ (huffmanTokens input size fuel at_ scratch)
  | 0, at_, scratch, _, hat, hfuel => by
    change at_ = input.length
    omega
  | fuel + 1, at_, scratch, hpast, hat, hfuel => by
    obtain ⟨hmatch, hpast'⟩ := matchRound_spec size hpast hat
    unfold huffmanTokens
    split_ifs with hlt
    · rcases hround : matchRound input size at_ scratch with ⟨⟨length, distance⟩, scratch'⟩
      rw [hround] at hmatch hpast'
      simp only at hmatch hpast' ⊢
      split_ifs with hz
      · subst hz
        exact ⟨hlt, rfl, huffmanTokens_cover fuel (at_ + 1) scratch' (by simpa using hpast')
          hlt (by omega)⟩
      have hm := hmatch hz
      have hfit := hm.fits
      refine ⟨hm, huffmanTokens_cover fuel (at_ + length) scratch' ?_ hfit (by omega)⟩
      exact fun k => le_trans (hpast' k) (by omega)
    · change at_ = input.length
      omega

theorem inputTokens_cover (input : List UInt8) (size : Nat) :
    TokensCover input 0 (inputTokens input size) :=
  huffmanTokens_cover input.length 0 _ (fun _ => le_refl 0) (Nat.zero_le _) le_rfl

theorem copyOut_match {base : List UInt8} {distance : Nat} (h1 : 1 ≤ distance) :
    ∀ (n at_ : Nat), distance ≤ at_ → at_ + n ≤ input.length →
      (∀ i < n, input.getD (at_ - distance + i) 0 = input.getD (at_ + i) 0) →
      copyOut distance n (base ++ input.take at_) = base ++ input.take (at_ + n)
  | 0, at_, _, _, _ => rfl
  | n + 1, at_, hd, hfit, hsame => by
    have hlen : (base ++ input.take at_).length = base.length + at_ := by
      rw [length_append, length_take]
      omega
    have hback : base.length + at_ - distance = base.length + (at_ - distance) := by omega
    have hbyte : (base ++ input.take at_).getD (base.length + (at_ - distance)) 0 =
        input.getD at_ 0 := by
      rw [getD_append_right _ _ _ _ (Nat.le_add_right _ _), Nat.add_sub_cancel_left,
        getD_eq_getElem?_getD, getElem?_take_of_lt (by omega),
        ← getD_eq_getElem?_getD]
      have := hsame 0 (Nat.succ_pos n)
      simpa using this
    rw [copyOut, hlen, hback, hbyte, append_assoc, ← take_succ_getD (by omega),
      copyOut_match h1 n (at_ + 1) (by omega) (by omega)]
    · congr 2
      omega
    intro i hi
    have := hsame (i + 1) (by omega)
    have e1 : at_ + 1 - distance + i = at_ - distance + (i + 1) := by omega
    have e2 : at_ + 1 + i = at_ + (i + 1) := by omega
    rw [e1, e2]
    exact this

section Items

variable {dynamic : Bool} {literal distance : Huffman} (hd : Decodes dynamic literal distance)
include hd

theorem blockItem_literal (byte : UInt8) (rest : List Bool) :
    (blockItem literal distance : BitParser BlockItem)
      ((Token.literal byte).bits dynamic ++ rest) = .ok (.literal byte.toNat) rest := by
  have hlt : byte.toNat < 256 := byte.toNat_lt
  unfold blockItem symbolItem Token.bits
  rw [bind_of_ok (hd.symbol _ (by omega) rest), if_pos hlt]
  rfl

theorem blockItem_stop (rest : List Bool) :
    (blockItem literal distance : BitParser BlockItem) (symbolWord dynamic 256 ++ rest) =
      .ok .stop rest := by
  unfold blockItem symbolItem
  rw [bind_of_ok (hd.symbol 256 (by decide) rest), if_neg (by decide), if_pos rfl]
  rfl

theorem blockItem_match {length back : Nat} (h3 : 3 ≤ length) (h258 : length ≤ 258)
    (h1 : 1 ≤ back) (hmax : back ≤ 32768) (rest : List Bool) :
    (blockItem literal distance : BitParser BlockItem)
      ((Token.copy length back).bits dynamic ++ rest) = .ok (.copy length back) rest := by
  obtain ⟨hi, hbase, hextra⟩ := length_bucket h3 h258
  obtain ⟨hj, hbase', hextra'⟩ := distance_bucket h1 hmax
  unfold blockItem symbolItem Token.bits lengthBits distanceBits
  simp only [append_assoc]
  rw [bind_of_ok (hd.symbol _ (by omega) _), if_neg (by omega), if_neg (by omega),
    if_neg (by omega)]
  simp only [Nat.add_sub_cancel_left]
  rw [bits_bind hextra, bind_of_ok (hd.distance _ hj _), if_neg (by omega), bits_bind hextra',
    Nat.add_sub_of_le hbase, Nat.add_sub_of_le hbase']
  rfl

theorem tokens_runs {base input : List UInt8} {rest : List Bool} :
    ∀ (tokens : List Token) (at_ : Nat) (c : Config), TokensCover input at_ tokens →
      at_ ≤ input.length → c.stage = 2 → c.literal = literal → c.distance = distance →
      c.bits = tokens.flatMap (Token.bits dynamic) ++ rest → c.out = base ++ input.take at_ →
      Runs c { c with bits := rest, out := base ++ input }
  | [], at_, c, hcov, _, _, _, _, hbits, hout => by
    have he : { c with bits := rest, out := base ++ input } = c := by
      have hall : input.take at_ = input := by
        rw [show at_ = input.length from hcov, take_length]
      rw [flatMap_nil, nil_append] at hbits
      rw [hall] at hout
      rw [← hbits, ← hout]
    rw [he]
    exact Runs.refl c
  | .literal byte :: tokens, at_, c, ⟨hlt, hbyte, hcov⟩, hat, hstage, hlit, hdist, hbits, hout => by
    rw [flatMap_cons, append_assoc] at hbits
    have hd' : Decodes dynamic c.literal c.distance := by rwa [hlit, hdist]
    have hround : absRound c = .more { c with
        bits := tokens.flatMap (Token.bits dynamic) ++ rest
        out := c.out ++ [byte] } := by
      unfold absRound
      rw [if_neg (by omega), if_neg (by omega), hbits, blockItem_literal hd']
      simp [Config.afterItem]
    refine Runs.step (by omega) hround ?_
    refine tokens_runs tokens (at_ + 1) _ hcov hlt hstage hlit hdist rfl ?_
    rw [hout, append_assoc, hbyte, ← take_succ_getD hlt]
  | .copy length back :: tokens, at_, c, ⟨hm, hcov⟩, hat, hstage, hlit, hdist, hbits, hout => by
    rw [flatMap_cons, append_assoc] at hbits
    have hinside := hm.inside
    have hpos := hm.distance_pos
    have hlen : c.out.length = base.length + at_ := by
      rw [hout, length_append, length_take]
      omega
    have hd' : Decodes dynamic c.literal c.distance := by rwa [hlit, hdist]
    have hround : absRound c = .more { c with
        bits := tokens.flatMap (Token.bits dynamic) ++ rest
        out := copyOut back length c.out } := by
      unfold absRound
      rw [if_neg (by omega), if_neg (by omega), hbits,
        blockItem_match hd' hm.length_ge hm.length_le hpos hm.distance_le]
      simp only [Config.afterItem]
      rw [if_neg (by omega)]
    refine Runs.step (by omega) hround ?_
    refine tokens_runs tokens (at_ + length) _ hcov hm.fits hstage hlit hdist rfl ?_
    rw [hout]
    exact copyOut_match hpos length at_ hinside hm.fits hm.same

end Items

theorem stop_runs {dynamic : Bool} (hd : Decodes dynamic c.literal c.distance)
    (hstage : c.stage = 2) (hbits : c.bits = symbolWord dynamic 256 ++ rest) :
    Runs c { c with bits := rest }.endBlock := by
  refine Runs.single (by omega) ?_
  unfold absRound
  rw [if_neg (by omega), if_neg (by omega), hbits, blockItem_stop hd]
  rfl

/-- **One block.**  From its first bit to the bit behind it, appending its input. -/
theorem block_runs {final dynamic : Bool} {tokens : List Token} (hcov : TokensCover input 0 tokens)
    (hstage : c.stage = 0) (hbits : c.bits = blockBits final dynamic tokens ++ rest) :
    ∃ d, Runs c d ∧ d.bits = rest ∧ d.out = c.out ++ input ∧
      d.stage = if final then 3 else 0 := by
  obtain ⟨literal, distance, hd, hheader⟩ := blockHeader_word final dynamic
  have hround : absRound c = .more { c with
      bits := tokens.flatMap (Token.bits dynamic) ++ (symbolWord dynamic 256 ++ rest)
      literal := literal, distance := distance, stage := 2
      final := if final then 1 else 0 } := by
    unfold absRound
    rw [if_pos hstage, hbits, blockBits]
    simp only [append_assoc] at hheader ⊢
    rw [hheader]
    rfl
  have hrun := tokens_runs hd tokens 0
    { c with
      bits := tokens.flatMap (Token.bits dynamic) ++ (symbolWord dynamic 256 ++ rest)
      literal := literal, distance := distance, stage := 2
      final := if final then 1 else 0 } hcov (Nat.zero_le _) rfl rfl rfl rfl
    (show c.out = c.out ++ input.take 0 by simp)
  exact ⟨_, Runs.step (by omega) hround (hrun.trans (stop_runs hd rfl rfl)), rfl, rfl,
    by cases final <;> rfl⟩

theorem xor_complement (h : n ≤ 65535) : n ^^^ 65535 = 65535 - n := by
  apply Nat.eq_of_testBit_eq
  intro i
  have hsub : 65535 - n = 2 ^ 16 - (n + 1) := by omega
  have hones : (65535 : Nat) = 2 ^ 16 - 1 := rfl
  rw [hsub, Nat.testBit_two_pow_sub_succ (by omega), Nat.testBit_xor, hones,
    Nat.testBit_two_pow_sub_one]
  by_cases hi : i < 16
  · simp [hi]
  have hpow : 2 ^ 16 ≤ 2 ^ i := Nat.pow_le_pow_right (by decide) (by omega)
  have hbit : n.testBit i = false := Nat.testBit_lt_two_pow (by omega)
  simp [hi, hbit]

theorem bitsOf_sixteen (h : n ≤ 65535) :
    bitsOf 8 (UInt8.ofNat (n % 256)).toNat ++ bitsOf 8 (UInt8.ofNat (n / 256)).toNat =
      bitsOf 16 n := by
  have hlow : (UInt8.ofNat (n % 256)).toNat = n % 256 := by
    rw [UInt8.toNat_ofNat']
    omega
  have hhigh : (UInt8.ofNat (n / 256)).toNat = n / 256 := by
    rw [UInt8.toNat_ofNat']
    omega
  have hpack := bitsOf_pack (n := 8) 8 (n / 256) (show n % 256 < 2 ^ 8 by omega)
  have hn : n % 256 + n / 256 * 2 ^ 8 = n := by omega
  rw [hn] at hpack
  rw [hlow, hhigh, ← hpack]

theorem blockHeader_stored {last : Bool} {amount : Nat} (hamount : amount ≤ 65535)
    (hrest : 8 ∣ rest.length) :
    (blockHeader : BitParser BlockHeader) (streamBits (storedHeader last amount) ++ rest) =
      .ok (.stored (if last then 1 else 0) amount (65535 - amount)) rest := by
  have hbits : streamBits (storedHeader last amount) ++ rest =
      bitsOf 1 (if last then 1 else 0) ++ (bitsOf 2 0 ++ (replicate 5 false ++
        (bitsOf 16 amount ++ (bitsOf 16 (65535 - amount) ++ rest)))) := by
    rw [← bitsOf_sixteen hamount, ← bitsOf_sixteen (Nat.sub_le 65535 amount)]
    cases last <;> simp [storedHeader, streamBits_cons, bitsOf]
  have hdrop : ∀ more : List Bool, 8 ∣ more.length →
      (BitSource.dropPartial : BitParser Unit) (replicate 5 false ++ more) = .ok () more := by
    intro more hmore
    change BitParser.align _ = _
    have hmod : (replicate 5 false ++ more).length % 8 = 5 := by
      rw [length_append, length_replicate]
      omega
    rw [BitParser.align, hmod]
    rfl
  rw [hbits]
  unfold blockHeader headerBody
  rw [bits_bind (by split_ifs <;> decide), bits_bind (by decide), if_neg (by decide),
    if_pos rfl, bind_of_ok (hdrop _ (by simp; omega)), bits_bind (by omega),
    bits_bind (by omega)]
  rfl

theorem stored_bytes_runs :
    ∀ (bytes : List UInt8) (c : Config), c.stage = 1 → c.stored = bytes.length →
      c.bits = streamBits bytes ++ rest →
      Runs c { c with bits := rest, stored := 0, out := c.out ++ bytes }
  | [], c, _, hstored, hbits => by
    have he : { c with bits := rest, stored := 0, out := c.out ++ [] } = c := by
      rw [streamBits_nil, nil_append] at hbits
      rw [append_nil, ← hbits, ← show c.stored = 0 from hstored]
    rw [he]
    exact Runs.refl c
  | byte :: bytes, c, hstage, hstored, hbits => by
    rw [streamBits_cons, append_assoc] at hbits
    rw [length_cons] at hstored
    have hround : absRound c = .more { c with
        bits := streamBits bytes ++ rest, stored := bytes.length, out := c.out ++ [byte] } := by
      unfold absRound
      rw [if_neg (by omega), if_pos hstage, if_neg (by omega), hbits,
        BitParser.take_append byte.toNat_lt]
      simp [Config.afterByte, hstored]
    have hrun := stored_bytes_runs bytes { c with
      bits := streamBits bytes ++ rest, stored := bytes.length, out := c.out ++ [byte] }
      hstage rfl rfl
    simp only [append_assoc, singleton_append] at hrun
    exact Runs.step (by omega) hround hrun

theorem stored_runs (last : Bool) {bytes : List UInt8} (hlen : bytes.length ≤ 65535)
    (hrest : 8 ∣ rest.length) (hstage : c.stage = 0)
    (hbits : c.bits = streamBits (storedHeader last bytes.length ++ bytes) ++ rest) :
    ∃ d, Runs c d ∧ d.bits = rest ∧ d.out = c.out ++ bytes ∧
      d.stage = if last then 3 else 0 := by
  have hround : absRound c = .more { c with
      bits := streamBits bytes ++ rest, stored := bytes.length, stage := 1
      final := if last then 1 else 0 } := by
    unfold absRound
    rw [if_pos hstage, hbits, streamBits_append, append_assoc,
      blockHeader_stored hlen (by simp; omega)]
    simp only [Config.afterHeader]
    rw [if_neg (by rw [xor_complement hlen]; exact fun h => h rfl)]
  have hrun := stored_bytes_runs bytes { c with
    bits := streamBits bytes ++ rest, stored := bytes.length, stage := 1
    final := if last then 1 else 0 } rfl rfl rfl
  refine ⟨_, Runs.step (by omega) hround (hrun.trans (Runs.single (fun h : 1 = 3 => by cases h) rfl)), rfl,
    rfl, ?_⟩
  cases last <;> rfl

/-- The bytes `deflateStoredChunk` writes for an input. -/
def storedSize (n : Nat) : Nat := n + 5 * max 1 ((n + 65534) / 65535)

theorem storedSize_step (h : 65535 < n) : storedSize n = 65540 + storedSize (n - 65535) := by
  obtain ⟨m, rfl⟩ : ∃ m, n = m + 65535 := ⟨n - 65535, by omega⟩
  have hpos : 1 ≤ (m + 65534) / 65535 := (Nat.one_le_div_iff (by decide)).mpr (by omega)
  have hdiv : (m + 65535 + 65534) / 65535 = (m + 65534) / 65535 + 1 := by
    rw [add_right_comm, Nat.add_div_right _ (by decide)]
  unfold storedSize
  rw [hdiv, Nat.add_sub_cancel, Nat.max_eq_right hpos, Nat.max_eq_right (Nat.le_add_left 1 _)]
  omega

theorem storedLoop_done {capacity : Nat} {out : List UInt8} {final : Bool} (hout : out.length ≠ 0) :
    ∀ fuel : Nat,
    storedLoop capacity input final fuel input.length out = (⟨out.length, input.length, true⟩, out)
  | 0 => rfl
  | fuel + 1 => by
    unfold storedLoop
    rw [if_neg (by omega)]

theorem storedLoop_spec (capacity : Nat) (input : List UInt8) (final : Bool) :
    ∀ (fuel read : Nat) (out : List UInt8), read ≤ input.length →
      input.length - read < fuel → out.length ≤ capacity →
      (read < input.length ∨ (input.length = 0 ∧ out.length = 0)) →
      ∀ chunk, chunk = storedLoop capacity input final fuel read out →
      if out.length + storedSize (input.length - read) ≤ capacity then
        ∃ bytes, chunk = (⟨out.length + bytes.length, input.length, true⟩, out ++ bytes) ∧
          bytes.length = storedSize (input.length - read) ∧
          ∀ (c : Config) (rest : List Bool), c.stage = 0 → 8 ∣ rest.length →
            c.bits = streamBits bytes ++ rest →
            ∃ d, Runs c d ∧ d.bits = rest ∧ d.out = c.out ++ input.drop read ∧
              d.stage = if final then 3 else 0
      else chunk.1.ok = false
  | 0, read, out, _, hfuel, _, _ => by omega
  | fuel + 1, read, out, hread, hfuel, hroom, hmore => by
    intro chunk hchunk
    unfold storedLoop at hchunk
    rw [if_pos hmore] at hchunk
    by_cases hfull : capacity - out.length < min (input.length - read) 65535 + 5
    · rw [if_pos hfull] at hchunk
      have hover : ¬ out.length + storedSize (input.length - read) ≤ capacity := by
        unfold storedSize
        omega
      rw [if_neg hover, hchunk]
    rw [if_neg hfull] at hchunk
    by_cases hlast : input.length - read ≤ 65535
    · -- the last block takes all that is left
      have hamount : min (input.length - read) 65535 = input.length - read := by omega
      have hall : (input.drop read).take (input.length - read) = input.drop read := by
        rw [← length_drop, take_length]
      have hflag : (final && decide (read + (input.length - read) = input.length)) = final := by
        rw [decide_eq_true (by omega), Bool.and_true]
      rw [hamount, hall, hflag] at hchunk
      rw [if_pos (by unfold storedSize; omega)]
      refine ⟨storedHeader final (input.length - read) ++ input.drop read, ?_, ?_, ?_⟩
      · by_cases hempty : input.length = 0
        · rw [if_pos hempty] at hchunk
          rw [hchunk, hempty, length_append]
        rw [if_neg hempty, Nat.add_sub_of_le hread,
          storedLoop_done (by simp [storedHeader])] at hchunk
        rw [hchunk, length_append]
      · rw [length_append, length_drop]
        unfold storedSize
        simp only [storedHeader, length_cons, length_nil]
        omega
      · intro c rest hstage hrest hbits
        rw [← length_drop] at hbits
        exact stored_runs final (by rw [length_drop]; omega) hrest hstage hbits
    have hamount : min (input.length - read) 65535 = 65535 := by omega
    have hflag : (final && decide (read + 65535 = input.length)) = false := by
      rw [decide_eq_false (by omega), Bool.and_false]
    have htake : ((input.drop read).take 65535).length = 65535 := by
      rw [length_take, length_drop]
      omega
    have hheader : (storedHeader false 65535).length = 5 := rfl
    rw [hamount, hflag, if_neg (by omega)] at hchunk
    have ih := storedLoop_spec capacity input final fuel (read + 65535)
      (out ++ (storedHeader false 65535 ++ (input.drop read).take 65535)) (by omega)
      (by omega) (by simp only [length_append, htake, hheader]; omega)
      (.inl (by omega)) chunk hchunk
    have hsize : out.length + storedSize (input.length - read) =
        (out ++ (storedHeader false 65535 ++ (input.drop read).take 65535)).length +
          storedSize (input.length - (read + 65535)) := by
      have hstep := storedSize_step (show 65535 < input.length - read by omega)
      rw [Nat.sub_sub] at hstep
      simp only [length_append, htake, hheader, hstep]
      omega
    rw [hsize]
    by_cases hfit : (out ++ (storedHeader false 65535 ++ (input.drop read).take 65535)).length +
          storedSize (input.length - (read + 65535)) ≤ capacity
    · rw [if_pos hfit] at ih ⊢
      obtain ⟨bytes, hres, hlen, hruns⟩ := ih
      refine ⟨storedHeader false 65535 ++ (input.drop read).take 65535 ++ bytes, ?_, ?_, ?_⟩
      · rw [hres]
        simp only [length_append, append_assoc, add_assoc]
      · have := hsize
        simp only [length_append, hlen] at this ⊢
        omega
      intro c rest hstage hrest hbits
      rw [streamBits_append, append_assoc] at hbits
      have hfirst := stored_runs false (le_of_eq htake)
        (show 8 ∣ (streamBits bytes ++ rest).length by simp; omega) hstage
        (by rw [htake]; exact hbits)
      obtain ⟨d, hd1, hd2, hd3, hd4⟩ := hfirst
      obtain ⟨e, he1, he2, he3, he4⟩ := hruns d rest hd4 hrest hd2
      refine ⟨e, hd1.trans he1, he2, ?_, he4⟩
      rw [he3, hd3, append_assoc, ← drop_drop, take_append_drop]
    · rw [if_neg hfit] at ih ⊢
      exact ih

end Dyn.Compress
