import Dyn.Json.Encode

/-!
# std/encoding/json: reading a written text

The text of a tree is read back as the tree, if containers nest within the limit of the
parser.  `tree_text` is the statement for the recursive descent; it also says that a text
with deeper nesting is rejected.
-/

namespace Dyn.Json

open Unicode List

/-- The piece that the writer makes of a character. -/
def pieceOf (c : Char) : Piece :=
  if 32 ≤ c.val.toNat ∧ c.val.toNat ≠ 34 ∧ c.val.toNat ≠ 92 then .char c
  else if escapeOf (UInt8.ofNat c.val.toNat) ≠ 0 then .short (escapeOf (UInt8.ofNat c.val.toNat))
  else .code [48, 48, hexDigits.getD (c.val.toNat >>> 4) 0, hexDigits.getD (c.val.toNat &&& 15) 0]

theorem escape_cases : ∀ v < 93, ¬ (32 ≤ v ∧ v ≠ 34 ∧ v ≠ 92) →
    (escapeOf (UInt8.ofNat v) ≠ 0 ∧ shortEscape (escapeOf (UInt8.ofNat v)) = true ∧
      shortValue (escapeOf (UInt8.ofNat v)) = UInt8.ofNat v) ∨
    (escapeOf (UInt8.ofNat v) = 0 ∧ (UInt8.ofNat v).toNat < 32 ∧
      hex (hexDigits.getD (v >>> 4) 0) = true ∧ hex (hexDigits.getD (v &&& 15) 0) = true ∧
      codeOf [48, 48, hexDigits.getD (v >>> 4) 0, hexDigits.getD (v &&& 15) 0] = v) := by
  decide +kernel

theorem escapeByte_plain {b : UInt8} (h : b ≠ 34 ∧ b ≠ 92 ∧ ¬ b.toNat < 32) :
    escapeByte b = [b] := by
  obtain ⟨h34, h92, h32⟩ := h
  have hne : ∀ c : UInt8, c.toNat < 32 → b ≠ c := by
    rintro c hc rfl
    exact h32 hc
  have hesc : escapeOf b = 0 := by
    unfold escapeOf
    rw [if_neg h34, if_neg h92, if_neg (hne 10 (by decide)), if_neg (hne 13 (by decide)),
      if_neg (hne 9 (by decide)), if_neg (hne 8 (by decide)), if_neg (hne 12 (by decide))]
  unfold escapeByte
  rw [if_neg (not_not_intro hesc), if_neg h32]

/-- What the writer makes of a character is a piece that means it. -/
theorem pieceOf_spec (c : Char) : (pieceOf c).Ok ∧
    (pieceOf c).raw = (encoding c).flatMap escapeByte ∧
    ∀ rest, meaning (pieceOf c :: rest) = (meaning rest).map (encoding c ++ ·) := by
  by_cases hplain : 32 ≤ c.val.toNat ∧ c.val.toNat ≠ 34 ∧ c.val.toNat ≠ 92
  · have hp : pieceOf c = .char c := if_pos hplain
    rw [hp]
    refine ⟨hplain, ?_, fun rest => by rw [meaning]⟩
    have hb := char_bytes (c := c) hplain
    change encoding c = _
    generalize encoding c = bytes at hb ⊢
    induction bytes with
    | nil => rfl
    | cons b bytes ih =>
      rw [flatMap_cons, escapeByte_plain (hb b (by simp)),
        ← ih (fun d hd => hb d (by simp [hd]))]
      rfl
  have hlt : c.val.toNat < 93 := by omega
  have henc : encoding c = [UInt8.ofNat c.val.toNat] := by
    rcases encoding_cases c with ⟨_, he⟩ | ⟨hl, _⟩ | ⟨hl, _⟩ | ⟨hl, _⟩
    · exact he
    all_goals omega
  have hp : pieceOf c = if escapeOf (UInt8.ofNat c.val.toNat) ≠ 0 then
      .short (escapeOf (UInt8.ofNat c.val.toNat))
      else .code [48, 48, hexDigits.getD (c.val.toNat >>> 4) 0,
        hexDigits.getD (c.val.toNat &&& 15) 0] := if_neg hplain
  have hval : (UInt8.ofNat c.val.toNat).toNat = c.val.toNat := toNat_ofNat_lt (by omega)
  rw [hp, henc, flatMap_cons, flatMap_nil, append_nil]
  rcases escape_cases _ hlt hplain with ⟨hne, hshort, hvalue⟩ | ⟨hzero, h32, hh, hl, hcode⟩
  · rw [if_pos hne]
    refine ⟨hshort, (if_pos hne).symm, fun rest => ?_⟩
    rw [meaning, hvalue]
    rfl
  rw [if_neg (not_not_intro hzero)]
  refine ⟨⟨rfl, ?_⟩, ?_, fun rest => ?_⟩
  · intro b hb
    simp only [mem_cons, not_mem_nil, or_false] at hb
    rcases hb with rfl | rfl | rfl | rfl
    · decide
    · decide
    · exact hh
    · exact hl
  · unfold escapeByte
    rw [if_neg (not_not_intro hzero), if_pos h32, hval]
    rfl
  · rw [meaning.eq_def]
    dsimp only
    rw [hcode, if_neg (by omega), if_neg (by omega), codeBytes, if_pos (by omega)]

theorem stringText_quote {source : List UInt8} (h : Utf8 source) (rest : List UInt8) :
    stringText (quote source ++ rest) = some (source, rest) := by
  obtain ⟨cs, rfl⟩ := h
  have hpieces : (∀ p ∈ cs.map pieceOf, Piece.Ok p) ∧
      rawText (cs.map pieceOf) = (cs.flatMap encoding).flatMap escapeByte ∧
      meaning (cs.map pieceOf) = some (cs.flatMap encoding) := by
    induction cs with
    | nil => exact ⟨fun _ hp => absurd hp (by simp), rfl, rfl⟩
    | cons c cs ih =>
      obtain ⟨hok, hraw, hmean⟩ := ih
      obtain ⟨hok', hraw', hmean'⟩ := pieceOf_spec c
      rw [map_cons]
      refine ⟨mem_cons_ok hok' hok, ?_, ?_⟩
      · rw [rawText_cons, hraw, hraw', flatMap_cons, flatMap_append]
      · rw [hmean', hmean]
        rfl
  obtain ⟨hok, hraw, hmean⟩ := hpieces
  refine stringText_iff.mpr ⟨cs.map pieceOf, hok, hmean, ?_⟩
  rw [hraw, quote, cons_append, append_assoc]
  rfl

/-- A datum has nothing but what its kind needs, and a number is one. -/
def Datum.Normal (datum : Datum) : Prop :=
  match datum.kind with
  | .Missing => False
  | .Null => datum.boolean = false ∧ datum.text = []
  | .Bool => datum.text = []
  | .Number => datum.boolean = false ∧ IsNumber datum.text
  | .String => datum.boolean = false
  | .Array => datum.boolean = false ∧ datum.text = []
  | .Object => datum.boolean = false ∧ datum.text = []

def Datum.isContainer (datum : Datum) : Bool :=
  decide (datum.kind = .Array ∨ datum.kind = .Object)

/-- Only containers have children, and only members have keys. -/
def Forest.Normal : Bool → Forest → Prop
  | _, .nil => True
  | object, .node datum key first next =>
      datum.Normal ∧ (object = false → key = []) ∧ (datum.isContainer = false → first = .nil) ∧
        first.Normal datum.isObject ∧ next.Normal object

def Forest.nest : Forest → Nat
  | .nil => 0
  | .node datum _ first next => max (if datum.isContainer then first.nest + 1 else 0) next.nest

def Tree.nest (tree : Tree) : Nat := if tree.datum.isContainer then tree.first.nest + 1 else 0

structure Layout.Blank (L : Layout) : Prop where
  line : ∀ depth, Ws (L.line depth)
  colon : Ws L.colon

theorem ws_nil : Ws [] := fun _ h => absurd h (by simp)

theorem layout_blank (indent : Nat) : (layout indent).Blank := by
  unfold layout
  split_ifs
  · exact ⟨fun _ => ws_nil, ws_nil⟩
  refine ⟨fun depth b hb => ?_, fun b hb => ?_⟩
  · rcases mem_cons.mp hb with rfl | hb
    · decide
    · rw [eq_of_mem_replicate hb]
      decide
  · rw [mem_singleton.mp hb]
    decide

variable {datum : Datum}

theorem value_leaf {fuel depth : Nat} {byte : UInt8} {tail rest : List UInt8}
    (hws : whitespace byte = false) (hleaf : ¬ (byte = 91 ∨ byte = 123))
    (h : strict.leaf byte (byte :: tail) = some (datum, rest)) :
    strict.value (fuel + 1) depth (byte :: tail) = some (⟨datum, .nil⟩, rest) := by
  rw [Scanner.value, skip_of_solid (solid_cons hws tail)]
  dsimp only
  rw [if_neg hleaf, h]

variable {L : Layout} {key : List UInt8}

theorem leaf_value (hn : datum.Normal) (hc : datum.isContainer = false)
    (htext : datum.kind = .String → Utf8 datum.text) {fuel depth depth' : Nat} {empty : Bool}
    {items rest : List UInt8} (hrest : Follow rest) :
    strict.value (fuel + 1) depth (L.value depth' datum empty items ++ rest) =
      some (⟨datum, .nil⟩, rest) := by
  obtain ⟨kind, boolean, text⟩ := datum
  cases kind with
  | Missing => exact absurd hn id
  | Null =>
    obtain ⟨rfl, rfl⟩ := hn
    refine value_leaf (by decide) (by decide) ?_
    unfold Scanner.leaf
    rw [if_neg (by decide), if_pos rfl]
    exact Option.map_eq_some_iff.mpr ⟨rest, literal_complete nullText rest, rfl⟩
  | Bool =>
    obtain rfl : text = [] := hn
    cases boolean with
    | true =>
      refine value_leaf (by decide) (by decide) ?_
      unfold Scanner.leaf
      rw [if_neg (by decide), if_neg (by decide), if_pos rfl]
      exact Option.map_eq_some_iff.mpr ⟨rest, literal_complete trueText rest, rfl⟩
    | false =>
      refine value_leaf (by decide) (by decide) ?_
      unfold Scanner.leaf
      rw [if_neg (by decide), if_neg (by decide), if_neg (by decide), if_pos rfl]
      exact Option.map_eq_some_iff.mpr ⟨rest, literal_complete falseText rest, rfl⟩
  | Number =>
    obtain ⟨rfl, hnum⟩ := hn
    obtain ⟨b, tail, htail, hb⟩ := number_head hnum
    obtain ⟨hws, h91, h123, h34, h110, h116, h102, _, _⟩ := number_byte hb
    have hscan := number_complete hnum hrest
    dsimp only at htail
    rw [htail] at hscan ⊢
    refine value_leaf hws (not_or_intro h91 h123) ?_
    unfold Scanner.leaf
    rw [if_neg h34, if_neg h110, if_neg h116, if_neg h102]
    refine Option.map_eq_some_iff.mpr ⟨rest, hscan, ?_⟩
    have htake : (b :: (tail ++ rest)).take ((b :: (tail ++ rest)).length - rest.length) =
        b :: tail := by
      rw [← cons_append, length_append, Nat.add_sub_cancel, take_left]
    exact congrArg (fun text => (({ kind := .Number, text := text } : Datum), rest)) htake
  | String =>
    obtain rfl : boolean = false := hn
    have hscan := stringText_quote (htext rfl) rest
    refine value_leaf (by decide) (by decide) ?_
    unfold Scanner.leaf
    rw [if_pos rfl, strict_str]
    exact Option.map_eq_some_iff.mpr ⟨_, hscan, rfl⟩
  | Array | Object => cases hc

theorem container_value (hn : datum.Normal) (hc : datum.isContainer = true) (L : Layout)
    (fuel depth depth' : Nat) (empty : Bool) (items rest : List UInt8) :
    strict.value (fuel + 1) depth (L.value depth' datum empty items ++ rest) =
      if depth ≥ MaximumDepth then none
      else if (skip ((if empty then [] else items ++ L.line depth') ++
          closing datum.isObject :: rest)).head? = some (closing datum.isObject) then
        some (⟨datum, .nil⟩, (skip ((if empty then [] else items ++ L.line depth') ++
          closing datum.isObject :: rest)).tail)
      else
        match strict.items datum.isObject fuel depth (skip ((if empty then [] else
            items ++ L.line depth') ++ closing datum.isObject :: rest)) with
        | none => none
        | some (first, rest) => some (⟨datum, first⟩, rest) := by
  have hkind : datum.kind = .Array ∨ datum.kind = .Object := of_decide_eq_true hc
  have hws : ∀ object, whitespace (opening object) = false := by decide
  have hopen : ∀ object, opening object = 91 ∨ opening object = 123 := by decide
  have hobj : ∀ object, (opening object == 123) = object := by decide
  have hdatum : ({ kind := containerKind datum.isObject } : Datum) = datum := by
    obtain ⟨kind, boolean, text⟩ := datum
    rcases hkind with hk | hk
    · subst hk
      obtain ⟨rfl, rfl⟩ := hn
      rfl
    subst hk
    obtain ⟨rfl, rfl⟩ := hn
    rfl
  rw [value_container hkind, cons_append, append_assoc, singleton_append,
    Scanner.value, skip_of_solid (solid_cons (hws _) _)]
  dsimp only
  rewrite [if_pos (hopen _), hobj, hdatum]
  rfl

theorem follow_more (L : Layout) (object : Bool) (depth : Nat) (next : Forest) {rest : List UInt8}
    (h : Follow rest) : Follow (L.more object depth next ++ rest) := by
  unfold Layout.more
  split_ifs
  · exact h
  · exact follow_cons (.inr (.inl rfl)) _

theorem tree_head {L : Layout} {datum : Datum} (hn : datum.Normal) (depth : Nat) (first : Forest) :
    ∃ b tail, L.tree depth datum first = b :: tail ∧ whitespace b = false ∧ b ≠ 93 ∧ b ≠ 125 := by
  unfold Layout.tree Layout.value
  unfold Datum.Normal at hn
  cases hk : datum.kind with
  | Missing => rw [hk] at hn; exact absurd hn id
  | Null => exact ⟨_, _, rfl, by decide, by decide, by decide⟩
  | Bool =>
    cases datum.boolean
    · exact ⟨_, _, rfl, by decide, by decide, by decide⟩
    · exact ⟨_, _, rfl, by decide, by decide, by decide⟩
  | Number =>
    rw [hk] at hn
    obtain ⟨b, tail, htail, hb⟩ := number_head hn.2
    obtain ⟨hws, _, _, _, _, _, _, h93, h125⟩ := number_byte hb
    exact ⟨b, tail, htail, hws, h93, h125⟩
  | String => exact ⟨_, _, rfl, by decide, by decide, by decide⟩
  | Array | Object => exact ⟨_, _, rfl, by cases datum.isObject <;> decide,
      by cases datum.isObject <;> decide, by cases datum.isObject <;> decide⟩

theorem items_first (hL : L.Blank) {object : Bool} {depth : Nat} {first next : Forest}
    (hn : datum.Normal) (rest : List UInt8) :
    (skip (L.items object depth (.node datum key first next) ++ rest)).head? ≠
      some (closing object) := by
  rw [Layout.items_node, append_assoc, skip_append (hL.line depth), append_assoc]
  cases object with
  | true =>
    have hq : ∀ text, skip (L.key true key ++ text) = 34 :: (L.key true key ++ text).tail := by
      intro text
      exact skip_of_solid (solid_cons (by decide) _)
    rw [hq, head?_cons]
    decide
  | false =>
    obtain ⟨b, tail, ht, hws, h93, _⟩ := @tree_head L datum hn depth first
    change (skip (L.tree depth datum first ++ _ ++ rest)).head? ≠ _
    rw [ht, append_assoc, cons_append, skip_of_solid (solid_cons hws _), head?_cons]
    intro he
    injection he with he
    exact h93 he

theorem key_value (hL : L.Blank) {object : Bool} (hkey : object = false → key = []) (hu : Utf8 key)
    {a : List UInt8} (ha : Ws a) (text : List UInt8) :
    ∃ b, Ws b ∧ strict.key object (a ++ (L.key object key ++ text)) = some (key, b ++ text) := by
  cases object with
  | false =>
    obtain rfl := hkey rfl
    exact ⟨a, ha, rfl⟩
  | true =>
    refine ⟨L.colon, hL.colon, ?_⟩
    have hs := stringText_quote hu (58 :: (L.colon ++ text))
    have hskip : skip (a ++ (L.key true key ++ text)) = quote key ++ 58 :: (L.colon ++ text) := by
      rw [skip_append ha]
      have : L.key true key ++ text = quote key ++ 58 :: (L.colon ++ text) := by
        unfold Layout.key
        rw [if_pos rfl, append_assoc, cons_append]
      rw [this]
      exact skip_of_solid (solid_cons (by decide) _)
    unfold Scanner.key
    rw [if_pos rfl, hskip, strict_str, hs]
    dsimp only
    rw [skip_of_solid (solid_cons (by decide) _)]
    exact if_neg (not_not_intro rfl)

/-- The text of items is read as the items, if their containers nest within the limit. -/
def ReadsBack (L : Layout) (object : Bool) (forest : Forest) : Prop :=
  ∀ (fuel depth depth' : Nat) (a rest : List UInt8),
    forest.Normal object → forest.Writable depth' → Ws a → forest ≠ .nil →
    depth < MaximumDepth → 2 * (L.items object depth' forest).length + 1 ≤ fuel →
    strict.items object fuel depth (L.items object depth' forest ++ (a ++ closing object :: rest)) =
      if depth + 1 + forest.nest ≤ MaximumDepth then some (forest, rest) else none

theorem tree_of_items {L : Layout} (hL : L.Blank) {datum : Datum} {key : List UInt8}
    {first : Forest} (hitems : ReadsBack L datum.isObject first) {fuel depth depth' : Nat}
    {rest : List UInt8} (hn : datum.Normal) (hleaf : datum.isContainer = false → first = .nil)
    (hnf : first.Normal datum.isObject) (hw : (Forest.node datum key first .nil).Writable depth')
    (hrest : Follow rest) (hdepth : depth ≤ MaximumDepth)
    (hfuel : 2 * (L.tree depth' datum first).length ≤ fuel) :
    strict.value fuel depth (L.tree depth' datum first ++ rest) =
      if depth + (Tree.mk datum first).nest ≤ MaximumDepth then some (⟨datum, first⟩, rest)
      else none := by
  obtain ⟨b, tail, htree, _⟩ := @tree_head L datum hn depth' first
  have hpos : 0 < fuel := by
    rw [htree, length_cons] at hfuel
    omega
  obtain ⟨fuel, rfl⟩ : ∃ k, fuel = k + 1 := ⟨fuel - 1, by omega⟩
  obtain ⟨⟨_, _, htext, _⟩, hwf, _⟩ := hw
  cases hc : datum.isContainer with
  | false =>
    obtain rfl := hleaf hc
    have hnest : (Tree.mk datum .nil).nest = 0 := by
      unfold Tree.nest
      rw [hc]
      rfl
    rw [hnest, if_pos (show depth + 0 ≤ MaximumDepth from hdepth)]
    exact leaf_value hn hc htext hrest
  | true =>
    have hnest : (Tree.mk datum first).nest = first.nest + 1 := by
      unfold Tree.nest
      rw [hc]
      rfl
    have hkind : datum.kind = .Array ∨ datum.kind = .Object := of_decide_eq_true hc
    rw [hnest]
    unfold Layout.tree at hfuel ⊢
    rw [container_value hn hc]
    split
    · rw [if_neg (by omega)]
    have hclose : ∀ tail, skip (closing datum.isObject :: tail) =
        closing datum.isObject :: tail := by
      intro tail
      exact skip_of_solid (solid_cons (by cases datum.isObject <;> decide) _)
    cases first with
    | nil =>
      rw [show Forest.nil.isNil = true from rfl, if_pos rfl, nil_append, hclose,
        head?_cons, if_pos rfl, if_pos (by rw [Forest.nest]; omega), tail_cons]
    | node d k f n =>
      rw [show (Forest.node d k f n).isNil = false from rfl] at hfuel ⊢
      rw [if_neg Bool.false_ne_true, append_assoc]
      rw [if_neg (items_first hL hnf.1 _), items_skip]
      rw [value_container hkind] at hfuel
      simp only [Bool.false_eq_true, if_false, length_cons, length_append, length_nil] at hfuel
      have ih := hitems fuel depth (depth' + 1) (L.line depth') rest hnf hwf (hL.line depth')
        (by simp) (by omega) (by omega)
      rw [ih]
      by_cases hle : depth + 1 + (Forest.node d k f n).nest ≤ MaximumDepth
      · rw [if_pos hle, if_pos (by omega)]
      · rw [if_neg hle, if_neg (by omega)]

theorem items_value (hL : L.Blank) : ∀ (object : Bool) (forest : Forest),
    ReadsBack L object forest
  | _, .nil => fun _ _ _ _ _ _ _ _ hne => absurd rfl hne
  | object, .node datum key first next => by
    rintro fuel depth depth' a rest ⟨hn, hkey, hleaf, hnf, hnn⟩ ⟨hthis, hwf, hwn⟩ ha _ hdepth hfuel
    obtain ⟨fuel, rfl⟩ : ∃ k, fuel = k + 1 := ⟨fuel - 1, by omega⟩
    rw [Layout.items_node] at hfuel ⊢
    simp only [length_append] at hfuel
    obtain ⟨b, hb, hk⟩ := key_value hL hkey hthis.2.2.2 (hL.line depth')
      (L.tree depth' datum first ++ (L.more object depth' next ++ (a ++ closing object :: rest)))
    have hfollow : Follow (L.more object depth' next ++ (a ++ closing object :: rest)) :=
      follow_more L object depth' next (follow_ws ha (closing_follow object rest))
    have htree := @tree_of_items _ hL datum key first (items_value hL datum.isObject first) fuel _ _ _ hn hleaf hnf
      (show (Forest.node datum key first .nil).Writable depth' from ⟨hthis, hwf, trivial⟩) hfollow
      (show depth + 1 ≤ MaximumDepth by omega) (by omega)
    have hnest : (Forest.node datum key first next).nest =
        max (Tree.mk datum first).nest next.nest := rfl
    rw [Scanner.items]
    simp only [append_assoc]
    rw [hk]
    dsimp only
    rw [value_ws hb, htree, hnest]
    by_cases hfit : depth + 1 + (Tree.mk datum first).nest ≤ MaximumDepth
    · rw [if_pos hfit]
      dsimp only
      have hclose : skip (a ++ closing object :: rest) = closing object :: rest := by
        rw [skip_append ha]
        exact skip_of_solid (solid_cons (by cases object <;> decide) _)
      cases next with
      | nil =>
        rw [show L.more object depth' .nil = [] from rfl, nil_append, hclose]
        dsimp only
        rw [if_pos rfl, Forest.nest, Nat.max_zero, if_pos hfit]
      | node d k f n =>
        have hmore : L.more object depth' (.node d k f n) =
            44 :: L.items object depth' (.node d k f n) := rfl
        rw [hmore, length_cons] at hfuel
        have hne44 : ¬ (44 : UInt8) = closing object := by cases object <;> decide
        have ih := items_value hL object (.node d k f n) fuel depth depth' a rest hnn hwn ha
          (by simp) hdepth (by omega)
        rw [hmore, cons_append, skip_of_solid (solid_cons (by decide) _)]
        dsimp only
        rw [if_neg hne44, if_neg (not_not_intro rfl), ih]
        by_cases hrest : depth + 1 + (Forest.node d k f n).nest ≤ MaximumDepth
        · rw [if_pos hrest, if_pos (by omega)]
        · rw [if_neg hrest, if_neg (by omega)]
    · rw [if_neg hfit, if_neg (by omega)]

/-- **The text of a tree is read as the tree,** if its containers nest within the limit of the
parser, and rejected if not. -/
theorem tree_text {indent : Nat} {first : Forest} (hn : datum.Normal)
    (hleaf : datum.isContainer = false → first = .nil) (hnf : first.Normal datum.isObject)
    (hw : (Forest.node datum key first .nil).Writable 0) :
    strict.text ((layout indent).tree 0 datum first) =
      if (Tree.mk datum first).nest ≤ MaximumDepth then some ⟨datum, first⟩ else none := by
  have hL := layout_blank indent
  have h := @tree_of_items _ hL datum key first (items_value hL datum.isObject first)
    (scanFuel ((layout indent).tree 0 datum first)) _ _ _ hn hleaf hnf hw follow_nil (Nat.zero_le MaximumDepth)
    (by unfold scanFuel; omega)
  rw [append_nil, Nat.zero_add] at h
  unfold Scanner.text
  rw [h]
  by_cases hfit : (Tree.mk datum first).nest ≤ MaximumDepth
  · rw [if_pos hfit, if_pos hfit]
    exact if_pos rfl
  · rw [if_neg hfit, if_neg hfit]

end Dyn.Json
