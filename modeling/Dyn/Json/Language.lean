import Dyn.Json.Read

/-!
# std/encoding/json: the language of the three readers

`valid`, `parse` and `Read.parse` are compared with the grammar.  `valid` looks at the digits
of a `\u` escape only, so it accepts all string tokens; the parsers reject those whose escapes
form no scalar values.  `readers_agree` says for which texts this makes a difference.
-/

namespace Dyn.Json

variable (rest : List UInt8)

theorem lax_str : lax.str rest = (passed (string rest)).map (fun after => ([], after)) := rfl

theorem lax_num : lax.num rest = passed (number rest) := rfl

mutual

theorem validateValue_spec : ∀ (fuel depth : Nat) (rest : List UInt8),
    passed (validateValue fuel depth rest) = (lax.value fuel depth rest).map Prod.snd
  | 0, _, _ => rfl
  | fuel + 1, depth, rest => by
    rw [Scanner.value, validateValue.eq_def]
    dsimp only
    cases hskip : skip rest with
    | nil => rfl
    | cons byte tail =>
      dsimp only
      by_cases h91 : byte = 91
      · subst h91
        rw [if_neg (by decide), if_neg (by decide), if_neg (by decide), if_neg (by decide),
          if_pos rfl, if_pos (Or.inl rfl)]
        split
        · rfl
        rw [show ((91 : UInt8) == 123) = false by decide, show closing false = 93 from rfl]
        split_ifs
        · rfl
        · rw [validateArray_spec fuel depth (skip tail)]
          cases lax.items false fuel depth (skip tail) <;> rfl
      by_cases h123 : byte = 123
      · subst h123
        rw [if_neg (by decide), if_neg (by decide), if_neg (by decide), if_neg (by decide),
          if_neg (by decide), if_pos rfl, if_pos (Or.inr rfl)]
        split
        · rfl
        rw [show ((123 : UInt8) == 123) = true by decide, show closing true = 125 from rfl]
        split_ifs
        · rfl
        · rw [validateObject_spec fuel depth (skip tail)]
          cases lax.items true fuel depth (skip tail) <;> rfl
      rw [if_neg (not_or_intro h91 h123), if_neg h91, if_neg h123]
      unfold Scanner.leaf
      split_ifs
      · rw [lax_str]
        cases passed (string (byte :: tail)) <;> rfl
      · cases passed (literal nullText (byte :: tail)) <;> rfl
      · cases passed (literal trueText (byte :: tail)) <;> rfl
      · cases passed (literal falseText (byte :: tail)) <;> rfl
      · rw [lax_num]
        cases passed (number (byte :: tail)) <;> rfl

theorem validateArray_spec : ∀ (fuel depth : Nat) (rest : List UInt8),
    passed (validateArray fuel depth rest) = (lax.items false fuel depth rest).map Prod.snd
  | 0, _, _ => rfl
  | fuel + 1, depth, rest => by
    have hvalue := validateValue_spec fuel (depth + 1) rest
    rw [Scanner.items, validateArray.eq_def]
    rw [show lax.key false rest = some ([], rest) from rfl]
    dsimp only
    cases hv : lax.value fuel (depth + 1) rest with
    | none =>
      rw [hv] at hvalue
      cases hr : validateValue fuel (depth + 1) rest with
      | mk ok after =>
        rw [hr] at hvalue
        cases ok with
        | false => rfl
        | true => cases hvalue
    | some found =>
      obtain ⟨tree, after⟩ := found
      rw [hv] at hvalue
      rw [passed_eq_some hvalue]
      dsimp only
      cases hb : skip after with
      | nil => rfl
      | cons byte tail =>
        dsimp only
        rw [show closing false = 93 from rfl]
        split_ifs
        · rfl
        · rfl
        · rw [validateArray_spec fuel depth tail]
          cases lax.items false fuel depth tail <;> rfl

theorem validateObject_spec : ∀ (fuel depth : Nat) (rest : List UInt8),
    passed (validateObject fuel depth rest) = (lax.items true fuel depth rest).map Prod.snd
  | 0, _, _ => rfl
  | fuel + 1, depth, rest => by
    rw [Scanner.items, validateObject.eq_def]
    dsimp only
    unfold Scanner.key
    rw [if_pos rfl, lax_str]
    cases hs : string (skip rest) with
    | mk ok mid =>
      cases ok with
      | false => rfl
      | true =>
        rw [passed_true, Option.map_some]
        dsimp only
        cases hm : skip mid with
        | nil => rfl
        | cons colon tail =>
          dsimp only
          split_ifs
          · rfl
          dsimp only
          have hvalue := validateValue_spec fuel (depth + 1) tail
          cases hv : lax.value fuel (depth + 1) tail with
          | none =>
            rw [hv] at hvalue
            cases hr : validateValue fuel (depth + 1) tail with
            | mk ok after =>
              rw [hr] at hvalue
              cases ok with
              | false => rfl
              | true => cases hvalue
          | some found =>
            obtain ⟨tree, after⟩ := found
            rw [hv] at hvalue
            rw [passed_eq_some hvalue]
            dsimp only
            cases hb : skip after with
            | nil => rfl
            | cons byte behind =>
              dsimp only
              rw [show closing true = 125 from rfl]
              split_ifs
              · rfl
              · rfl
              · rw [validateObject_spec fuel depth behind]
                cases lax.items true fuel depth behind <;> rfl

end

theorem valid_spec (source : List UInt8) : valid source = true ↔ IsText IsString IsNumber source := by
  rw [← text_iff lax_reads]
  have h := validateValue_spec (scanFuel source) 0 source
  unfold valid Scanner.text
  cases hv : lax.value (scanFuel source) 0 source with
  | none =>
    rw [hv] at h
    cases hr : validateValue (scanFuel source) 0 source with
    | mk ok after =>
      rw [hr] at h
      cases ok with
      | false => simp
      | true => cases h
  | some found =>
    obtain ⟨tree, after⟩ := found
    rw [hv] at h
    rw [passed_eq_some h]
    by_cases hend : skip after = [] <;> simp [hend]

/-- **`parse` accepts the texts over string tokens with scalar escapes.** -/
theorem parse_ok (nodes : Nodes) (source : List UInt8) :
    (parse nodes source).ok = true ↔ IsText IsScalarString IsNumber source := by
  rw [← text_iff strict_reads]
  have h := parse_spec nodes source
  cases ht : strict.text source with
  | none =>
    rw [ht] at h
    simp [show (parse nodes source).ok = false from h]
  | some tree =>
    rw [ht] at h
    obtain ⟨_, hok, _⟩ := h
    simp [hok]

/-- No number in the tree of a parse overflows. -/
def NumbersFit (C : Read.Conversion) (result : ParseResult) : Prop :=
  ∃ shape, shape.head = result.root ∧ Holds result.nodes.value none shape ∧
    Read.NoOverflow C shape.forest.numbers

theorem numbersFit_iff {C : Read.Conversion} {nodes : Nodes} {source : List UInt8} {tree : Tree}
    (h : strict.text source = some tree) :
    NumbersFit C (parse nodes source) ↔ Read.NoOverflow C tree.numbers := by
  have hp := parse_spec nodes source
  rw [h] at hp
  obtain ⟨first, _, hroot, hfirst, hgrown⟩ := hp
  have hnumbers : (Shape.node nodes.used tree.datum [] first .nil).forest.numbers =
      tree.numbers := by
    rw [Shape.forest, Forest.numbers, Tree.numbers, hfirst]
    exact List.append_nil _
  constructor
  · rintro ⟨shape, hhead, hholds, hno⟩
    have := holds_forest hholds hgrown.holds (by rw [hhead, hroot]; rfl)
    rwa [this, hnumbers] at hno
  · intro hno
    exact ⟨.node nodes.used tree.datum [] first .nil, hroot.symm, hgrown.holds, by rwa [hnumbers]⟩

/-- The validator and the two parsers accept the same texts: those of the grammar with scalar
escapes, and for the compact reader those of them whose numbers fit. -/
def ReadersAgree (C : Read.Conversion) (w address : Nat) (nodes : Nodes) (source : List UInt8) :
    Prop :=
  (valid source = true ↔ (parse nodes source).ok = true) ∧
  (∃ result, Read.parse C w false address source = some result ∧
    (result.ok = true ↔ (parse nodes source).ok = true ∧ NumbersFit C (parse nodes source))) ∧
  (valid source = true ↔ IsText IsScalarString IsNumber source) ∧
  ((parse nodes source).ok = true ↔ IsText IsScalarString IsNumber source)

/-- **The three readers agree on a text exactly if its escapes form scalar values** or it is no
text at all. -/
theorem readers_agree {C : Read.Conversion} (hC : C.Lawful) {w : Nat} {source : List UInt8}
    (hfits : Read.Fits w source) (address : Nat) (nodes : Nodes) :
    ReadersAgree C w address nodes source ↔
      (IsText IsString IsNumber source → IsText IsScalarString IsNumber source) := by
  have hvalid := valid_spec source
  have hparse := parse_ok nodes source
  constructor
  · rintro ⟨_, _, h, _⟩ htext
    exact h.mp (hvalid.mpr htext)
  intro h
  have hback : IsText IsScalarString IsNumber source → IsText IsString IsNumber source :=
    IsText.mono (fun text hs => hs.isString)
  refine ⟨?_, ?_, ?_, hparse⟩
  · rw [hvalid, hparse]
    exact ⟨h, hback⟩
  · obtain ⟨result, hrun, hok⟩ := Read.parse_spec hC hfits address
    refine ⟨result, hrun, ?_⟩
    rw [hok, hparse, ← text_iff strict_reads]
    constructor
    · rintro ⟨tree, ht, hno⟩
      exact ⟨by rw [ht]; rfl, (numbersFit_iff ht).mpr hno⟩
    rintro ⟨hsome, hfit⟩
    obtain ⟨tree, ht⟩ := Option.isSome_iff_exists.mp hsome
    exact ⟨tree, ht, (numbersFit_iff ht).mp hfit⟩
  · rw [hvalid]
    exact ⟨h, hback⟩

/-- A conversion for texts in which nothing overflows. -/
def noOverflows : Read.Conversion := ⟨fun _ => 0, fun _ => false⟩

/-- They agree on `["\ud834\udd1e"]`, with the escapes of a surrogate pair. -/
theorem readers_agree_pair :
    noOverflows.Lawful ∧ Read.Fits 64 [91, 34, 92, 117, 100, 56, 51, 52, 92, 117, 100, 100, 49,
      101, 34, 93] ∧
    ReadersAgree noOverflows 64 4096 {} [91, 34, 92, 117, 100, 56, 51, 52, 92, 117, 100, 100, 49,
      101, 34, 93] := by
  have hC : noOverflows.Lawful := fun _ _ _ _ => rfl
  have hfits : Read.Fits 64 [91, 34, 92, 117, 100, 56, 51, 52, 92, 117, 100, 100, 49, 101, 34,
      93] := by
    unfold Read.Fits Mem.maximum
    decide
  refine ⟨hC, hfits, (readers_agree hC hfits 4096 {}).mpr (fun _ => ?_)⟩
  rw [← text_iff strict_reads]
  decide +kernel

/-- They disagree on `"\ud800"`, an escape that is half of a surrogate pair. -/
theorem readers_disagree :
    ¬ ReadersAgree noOverflows 64 4096 {} [34, 92, 117, 100, 56, 48, 48, 34] := by
  rintro ⟨h, _⟩
  have hvalid : valid [34, 92, 117, 100, 56, 48, 48, 34] = true := by decide +kernel
  have hparse : (parse {} [34, 92, 117, 100, 56, 48, 48, 34]).ok = false := by decide +kernel
  rw [h.mp hvalid] at hparse
  cases hparse

end Dyn.Json
