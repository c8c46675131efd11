import Dyn.Json.Parse
import Dyn.Mem.Trial

/-!
# std/encoding/json: the writer

The writer fills a block of the arena from its front, so a partly filled block is the list of
the bytes written, together with the size of the block.  `none` is a block that is too small
(or a tree that cannot be written).

`render` is the text of a tree, compact or indented.  `encodeValue_emits` and
`encodePrettyValue_emits` say that the writer writes the text of the tree that the nodes hold,
if it fits.
-/

namespace Dyn.Json

open Unicode List

/-- The letter of a short escape, 0 for a byte that has none. -/
def escapeOf (byte : UInt8) : UInt8 :=
  if byte = 34 then 34
  else if byte = 92 then 92
  else if byte = 10 then 110
  else if byte = 13 then 114
  else if byte = 9 then 116
  else if byte = 8 then 98
  else if byte = 12 then 102
  else 0

def hexDigits : List UInt8 :=
  [48, 49, 50, 51, 52, 53, 54, 55, 56, 57, 97, 98, 99, 100, 101, 102]

/-- The loop of `write_string_into` in a block of `size` bytes. -/
def writeStringLoop (size : Nat) : List UInt8 → List UInt8 → Option (List UInt8)
  | [], out => some out
  | byte :: rest, out =>
      if escapeOf byte ≠ 0 then
        if out.length + 2 ≥ size then none
        else writeStringLoop size rest (out ++ [92, escapeOf byte])
      else if byte.toNat < 32 then
        if size - out.length ≤ 6 then none
        else
          writeStringLoop size rest (out ++ [92, 117, 48, 48,
            hexDigits.getD (byte.toNat >>> 4) 0, hexDigits.getD (byte.toNat &&& 15) 0])
      else if out.length + 1 ≥ size then none
      else writeStringLoop size rest (out ++ [byte])

/-- `write_string_into`; an empty result is a failure. -/
def writeStringInto (size : Nat) (source : List UInt8) : List UInt8 :=
  if size < 2 ∨ !Unicode.valid source then []
  else
    match writeStringLoop size source [34] with
    | none => []
    | some out => out ++ [34]

def copy (size : Nat) (out bytes : List UInt8) : Option (List UInt8) :=
  if out.length > size ∨ bytes.length > size - out.length then none else some (out ++ bytes)

def copyString (size : Nat) (out source : List UInt8) : Option (List UInt8) :=
  let encoded := writeStringInto (size - out.length) source
  if encoded.length = 0 then none else some (out ++ encoded)

def copyComma (size : Nat) (first : Bool) (out comma : List UInt8) : Option (List UInt8) :=
  if !first then copy size out comma else some out

/-- The key of a member and the colon behind it; an element has neither. -/
def copyKey (size : Nat) (object : Bool) (out key colon : List UInt8) : Option (List UInt8) :=
  if object then do
    let out ← copyString size out key
    copy size out colon
  else some out

section Writer

variable (nodes : Nodes) (size : Nat)

mutual

/-- `encode_value`; twice the number of nodes is fuel enough. -/
def encodeValue : Nat → List UInt8 → Option Nat → Nat → Option (List UInt8)
  | 0, _, _, _ => none
  | _ + 1, _, none, _ => none
  | fuel + 1, out, some p, depth =>
      if depth > MaximumDepth then none
      else if (nodes.value p).kind = .Null then copy size out nullText
      else if (nodes.value p).kind = .Bool then
        copy size out (if (nodes.value p).boolean then trueText else falseText)
      else if (nodes.value p).kind = .Number then copy size out (nodes.value p).text
      else if (nodes.value p).kind = .String then copyString size out (nodes.value p).text
      else
        let object := decide ((nodes.value p).kind = .Object)
        if out.length ≥ size then none
        else do
          let out ← encodeChildren object fuel (out ++ [opening object]) (nodes.value p).first true
            depth
          if out.length ≥ size then none else some (out ++ [closing object])

/-- The loop of `encode_value` over the children. -/
def encodeChildren (object : Bool) :
    Nat → List UInt8 → Option Nat → Bool → Nat → Option (List UInt8)
  | 0, _, _, _, _ => none
  | _ + 1, out, none, _, _ => some out
  | fuel + 1, out, some child, first, depth => do
      let out ← copyComma size first out [44]
      let out ← copyKey size object out (nodes.value child).key [58]
      let out ← encodeValue fuel out (some child) (depth + 1)
      encodeChildren object fuel out (nodes.value child).next false depth

end

def encodeInto (fuel : Nat) (value : Option Nat) : List UInt8 :=
  (encodeValue nodes size fuel [] value 0).getD []

/-- `pretty_indent`, with `count` spaces to go. -/
def prettyIndent : Nat → List UInt8 → Option (List UInt8)
  | 0, out => some out
  | count + 1, out => do
      let out ← copy size out [32]
      prettyIndent count out

variable (width : Nat)

mutual

def encodePrettyValue : Nat → List UInt8 → Option Nat → Nat → Option (List UInt8)
  | 0, _, _, _ => none
  | _ + 1, _, none, _ => none
  | fuel + 1, out, some p, depth =>
      if depth > MaximumDepth then none
      else if (nodes.value p).kind ≠ .Array ∧ (nodes.value p).kind ≠ .Object then
        encodeValue nodes size (fuel + 1) out (some p) depth
      else
        let object := decide ((nodes.value p).kind = .Object)
        do
          let out ← copy size out [opening object]
          match (nodes.value p).first with
          | none => copy size out [closing object]
          | some first => do
              let out ← copy size out [10]
              let out ← encodePrettyChildren object fuel out (some first) true depth
              let out ← copy size out [10]
              let out ← prettyIndent size (depth * width) out
              copy size out [closing object]

/-- The loop of `encode_pretty_value` over the children. -/
def encodePrettyChildren (object : Bool) :
    Nat → List UInt8 → Option Nat → Bool → Nat → Option (List UInt8)
  | 0, _, _, _, _ => none
  | _ + 1, out, none, _, _ => some out
  | fuel + 1, out, some child, first, depth => do
      let out ← copyComma size first out [44, 10]
      let out ← prettyIndent size ((depth + 1) * width) out
      let out ← copyKey size object out (nodes.value child).key [58, 32]
      let out ← encodePrettyValue fuel out (some child) (depth + 1)
      encodePrettyChildren object fuel out (nodes.value child).next false depth

end

def encodePrettyInto (fuel : Nat) (value : Option Nat) : List UInt8 :=
  if width = 0 then encodeInto nodes size fuel value
  else (encodePrettyValue nodes size width fuel [] value 0).getD []

end Writer

mutual

def encodable (nodes : Nodes) : Nat → Option Nat → Nat → Bool
  | 0, _, _ => false
  | _ + 1, none, _ => false
  | fuel + 1, some p, depth =>
      if (nodes.value p).kind = .Missing ∨ depth > MaximumDepth then false
      else if ((nodes.value p).kind = .String ∧ !Unicode.valid (nodes.value p).text) ∨
          !Unicode.valid (nodes.value p).key then false
      else encodableChildren nodes fuel (nodes.value p).first depth

/-- The loop of `encodable` over the children. -/
def encodableChildren (nodes : Nodes) : Nat → Option Nat → Nat → Bool
  | 0, _, _ => false
  | _ + 1, none, _ => true
  | fuel + 1, some child, depth =>
      if !encodable nodes fuel (some child) (depth + 1) then false
      else encodableChildren nodes fuel (nodes.value child).next depth

end

/-- Rounds that suffice for every tree of the nodes. -/
def treeFuel (nodes : Nodes) : Nat := 2 * nodes.used + 2

open Mem in
/-- `encode_arena` of a tree. -/
def encodeArena (w : Nat) (room : Room) (nodes : Nodes) (value : Option Nat) (indent : Nat) :
    Except Panic (List UInt8) :=
  if !encodable nodes (treeFuel nodes) value 0 then .ok []
  else
    trialLoop w room
      (fun capacity _ =>
        let output := encodePrettyInto nodes capacity indent (treeFuel nodes) value
        if output.length > 0 then some output else none)
      (w + 2) (trialSize room 256)

open Mem in
def encode (w : Nat) (room : Room) (nodes : Nodes) (value : Option Nat) :
    Except Panic (List UInt8) :=
  encodeArena w room nodes value 0

open Mem in
def encodePretty (w : Nat) (room : Room) (nodes : Nodes) (value : Option Nat) (indent : Nat) :
    Except Panic (List UInt8) :=
  encodeArena w room nodes value indent

def escapeByte (byte : UInt8) : List UInt8 :=
  if escapeOf byte ≠ 0 then [92, escapeOf byte]
  else if byte.toNat < 32 then
    [92, 117, 48, 48, hexDigits.getD (byte.toNat >>> 4) 0, hexDigits.getD (byte.toNat &&& 15) 0]
  else [byte]

def quote (source : List UInt8) : List UInt8 := 34 :: (source.flatMap escapeByte ++ [34])

/-- The whitespace of a text: before what begins a line at some depth, and behind colons. -/
structure Layout where
  line : Nat → List UInt8
  colon : List UInt8

def compact : Layout := ⟨fun _ => [], []⟩

def indented (width : Nat) : Layout := ⟨fun depth => 10 :: List.replicate (depth * width) 32, [32]⟩

def Forest.isNil : Forest → Bool
  | .nil => true
  | .node .. => false

def Datum.isObject (datum : Datum) : Bool := decide (datum.kind = .Object)

namespace Layout

variable (L : Layout)

def key (object : Bool) (key : List UInt8) : List UInt8 :=
  if object then quote key ++ 58 :: L.colon else []

/-- A value at some depth, given the text of its items. -/
def value (depth : Nat) (datum : Datum) (empty : Bool) (items : List UInt8) : List UInt8 :=
  match datum.kind with
  | .Null => nullText
  | .Bool => if datum.boolean then trueText else falseText
  | .Number => datum.text
  | .String => quote datum.text
  | _ =>
      opening datum.isObject ::
        ((if empty then [] else items ++ L.line depth) ++ [closing datum.isObject])

def items : Bool → Nat → Forest → List UInt8
  | _, _, .nil => []
  | object, depth, .node datum key first next =>
      L.line depth ++ (L.key object key ++
        (L.value depth datum first.isNil (items datum.isObject (depth + 1) first) ++
          (if next.isNil then [] else 44 :: items object depth next)))

def more (object : Bool) (depth : Nat) (next : Forest) : List UInt8 :=
  if next.isNil then [] else 44 :: L.items object depth next

def tree (depth : Nat) (datum : Datum) (first : Forest) : List UInt8 :=
  L.value depth datum first.isNil (L.items datum.isObject (depth + 1) first)

theorem items_node (object : Bool) (depth : Nat) (datum : Datum) (key : List UInt8)
    (first next : Forest) :
    L.items object depth (.node datum key first next) =
      L.line depth ++ (L.key object key ++ (L.tree depth datum first ++ L.more object depth next)) :=
  rfl

end Layout

/-- A step of the writer behind `out` writes `text`, or there is no room for it. -/
def Emits (size : Nat) (out : List UInt8) (result : Option (List UInt8)) (text : List UInt8) :
    Prop :=
  (result = none ∧ size < out.length + text.length) ∨ result = some (out ++ text)

variable {text text' : List UInt8} {result : Option (List UInt8)}

theorem Emits.andThen {size : Nat} {out : List UInt8} {f : List UInt8 → Option (List UInt8)}
    (h : Emits size out result text) (h' : ∀ out, Emits size out (f out) text') :
    Emits size out (result >>= f) (text ++ text') := by
  rcases h with ⟨rfl, hlt⟩ | rfl
  · refine .inl ⟨rfl, ?_⟩
    rw [length_append]
    omega
  rcases h' (out ++ text) with ⟨hnone, hlt⟩ | hsome
  · refine .inl ⟨hnone, ?_⟩
    rw [length_append] at hlt ⊢
    omega
  · exact .inr (by rw [← append_assoc]; exact hsome)

theorem Emits.shift {size : Nat} {out text text' : List UInt8} {result : Option (List UInt8)}
    (h : Emits size (out ++ text) result text') : Emits size out result (text ++ text') := by
  unfold Emits at h ⊢
  rwa [length_append, Nat.add_assoc, ← length_append, append_assoc] at h

variable (size : Nat) (out : List UInt8)

theorem emits_nil : Emits size out (some out) [] :=
  .inr (by rw [append_nil])

theorem copy_emits (bytes : List UInt8) : Emits size out (copy size out bytes) bytes := by
  unfold copy
  split_ifs with hfull
  · exact .inl ⟨rfl, by omega⟩
  · exact .inr rfl

/-- The loop writes the escaped bytes, and leaves room for the closing quote. -/
theorem writeStringLoop_spec (size : Nat) : ∀ (source out : List UInt8), out.length < size →
    (writeStringLoop size source out = none ∧
        size ≤ out.length + (source.flatMap escapeByte).length) ∨
      (writeStringLoop size source out = some (out ++ source.flatMap escapeByte) ∧
        out.length + (source.flatMap escapeByte).length < size)
  | [], out, h => by
    refine Or.inr ⟨?_, h⟩
    rw [writeStringLoop, flatMap_nil, append_nil]
  | byte :: rest, out, h => by
    have hstep : ∀ bytes : List UInt8, escapeByte byte = bytes → out.length + bytes.length < size →
        (writeStringLoop size rest (out ++ bytes) = none ∧
            size ≤ out.length + ((byte :: rest).flatMap escapeByte).length) ∨
          (writeStringLoop size rest (out ++ bytes) =
              some (out ++ (byte :: rest).flatMap escapeByte) ∧
            out.length + ((byte :: rest).flatMap escapeByte).length < size) := by
      intro bytes hbytes hlt
      rw [flatMap_cons, hbytes, length_append]
      rcases writeStringLoop_spec size rest (out ++ bytes)
          (by rw [length_append]; exact hlt) with ⟨hn, hle⟩ | ⟨hs, hle⟩
      · rw [length_append] at hle
        exact .inl ⟨hn, by omega⟩
      rw [length_append] at hle
      refine .inr ⟨?_, by omega⟩
      rw [hs, append_assoc]
    have hfull : ∀ bytes : List UInt8, escapeByte byte = bytes → size ≤ out.length + bytes.length →
        size ≤ out.length + ((byte :: rest).flatMap escapeByte).length := by
      intro bytes hbytes hle
      rw [flatMap_cons, hbytes, length_append]
      omega
    unfold writeStringLoop
    by_cases he : escapeOf byte ≠ 0
    · have hb : escapeByte byte = [92, escapeOf byte] := if_pos he
      rw [if_pos he]
      split_ifs with hroom
      · exact .inl ⟨rfl, hfull _ hb hroom⟩
      · exact hstep _ hb (by simpa using hroom)
    rw [if_neg he]
    by_cases hc : byte.toNat < 32
    · have hb : escapeByte byte = [92, 117, 48, 48, hexDigits.getD (byte.toNat >>> 4) 0,
          hexDigits.getD (byte.toNat &&& 15) 0] := by
        unfold escapeByte
        rw [if_neg he, if_pos hc]
      rw [if_pos hc]
      split_ifs with hroom
      · exact .inl ⟨rfl, hfull _ hb (by simp only [length_cons, length_nil]; omega)⟩
      · exact hstep _ hb (by simp only [length_cons, length_nil]; omega)
    have hb : escapeByte byte = [byte] := by
      unfold escapeByte
      rw [if_neg he, if_neg hc]
    rw [if_neg hc]
    split_ifs with hroom
    · exact .inl ⟨rfl, hfull _ hb hroom⟩
    · exact hstep _ hb (by simpa using hroom)

theorem copyString_emits {source : List UInt8} (h : Utf8 source) :
    Emits size out (copyString size out source) (quote source) := by
  have hquote : (quote source).length = (source.flatMap escapeByte).length + 2 := by
    simp [quote]
  have hv : Unicode.valid source = true := (valid_iff source).mpr h
  unfold copyString writeStringInto
  by_cases hsmall : size - out.length < 2
  · rw [if_pos (Or.inl hsmall)]
    exact .inl ⟨rfl, by omega⟩
  have hcond : ¬ (size - out.length < 2 ∨ (!Unicode.valid source) = true) := by
    rw [hv]
    rintro (hlt | hfalse)
    · exact hsmall hlt
    · cases hfalse
  rw [if_neg hcond]
  rcases writeStringLoop_spec (size - out.length) source [34]
      (by simp only [length_singleton]; omega) with ⟨hn, hle⟩ | ⟨hs, _⟩
  · rw [hn]
    simp only [length_singleton] at hle
    exact .inl ⟨rfl, by omega⟩
  rw [hs]
  rw [if_neg (by simp)]
  exact .inr rfl

/-- What `encodable` asks for: nesting within the limit, and UTF-8 in strings and keys. -/
def Forest.Writable : Nat → Forest → Prop
  | _, .nil => True
  | depth, .node datum key first next =>
      (depth ≤ MaximumDepth ∧ datum.kind ≠ .Missing ∧ (datum.kind = .String → Utf8 datum.text) ∧
        Utf8 key) ∧ first.Writable (depth + 1) ∧ next.Writable depth

theorem value_container {datum : Datum} (h : datum.kind = .Array ∨ datum.kind = .Object)
    (L : Layout) (depth : Nat) (empty : Bool) (items : List UInt8) :
    L.value depth datum empty items = opening datum.isObject ::
      ((if empty then [] else items ++ L.line depth) ++ [closing datum.isObject]) := by
  unfold Layout.value
  rcases h with h | h <;> rw [h]

theorem Emits.of_eq {size : Nat} {out : List UInt8} (h : Emits size out result text)
    (he : text = text') : Emits size out result text' :=
  he ▸ h

theorem close_emits (byte : UInt8) :
    Emits size out (if out.length ≥ size then none else some (out ++ [byte])) [byte] := by
  split_ifs with h
  · exact .inl ⟨rfl, by simp only [length_singleton]; omega⟩
  · exact .inr rfl

theorem compact_line (depth : Nat) : compact.line depth = [] := rfl

theorem comma_emits (first : Bool) (comma : List UInt8) :
    Emits size out (copyComma size first out comma) (if first then [] else comma) := by
  cases first with
  | true => exact emits_nil size out
  | false => exact copy_emits size out comma

theorem key_emits (object : Bool) {key : List UInt8} (h : Utf8 key) (L : Layout) :
    Emits size out (copyKey size object out key (58 :: L.colon)) (L.key object key) := by
  cases object with
  | true =>
    exact (copyString_emits size out h).andThen (fun out => copy_emits size out (58 :: L.colon))
  | false => exact emits_nil size out

section Compact

variable {nodes : Nodes} {size : Nat}

mutual

/-- **`encode_value` writes the text of the tree** that the nodes hold. -/
theorem encodeValue_emits : ∀ (fuel : Nat) (out : List UInt8) (p depth : Nat) (datum : Datum)
    (key : List UInt8) (first next : Shape) (parent : Option Nat),
    nodes.value p = nodeValue datum key first next parent → Holds nodes.value (some p) first →
    (Forest.node datum key first.forest .nil).Writable depth → 2 * first.ids.length + 2 ≤ fuel →
    Emits size out (encodeValue nodes size fuel out (some p) depth)
      (compact.tree depth datum first.forest)
  | 0, _, _, _, _, _, _, _, _, _, _, _, hfuel => by omega
  | fuel + 1, out, p, depth, datum, key, first, next, parent, hp, hfirst, hw, hfuel => by
    obtain ⟨⟨hdepth, hmissing, htext, _⟩, hchildren, _⟩ := hw
    rw [encodeValue, if_neg (by omega), hp]
    unfold Layout.tree nodeValue
    by_cases hcont : datum.kind = .Array ∨ datum.kind = .Object
    · obtain ⟨hnull, hb, hn, hs⟩ : datum.kind ≠ .Null ∧ datum.kind ≠ .Bool ∧ datum.kind ≠ .Number ∧
          datum.kind ≠ .String := by rcases hcont with h | h <;> simp [h]
      rw [if_neg hnull, if_neg hb, if_neg hn, if_neg hs, value_container hcont]
      split
      · exact Or.inl ⟨rfl, by rw [length_cons]; omega⟩
      have hitems := encodeChildren_emits datum.isObject fuel (out ++ [opening datum.isObject])
        first true depth (some p) hfirst hchildren (by omega)
      have hboth := hitems.andThen (fun out => close_emits size out (closing datum.isObject))
      refine hboth.shift.of_eq ?_
      cases first with
      | nil => rfl
      | node =>
        rw [Shape.forest, if_pos rfl, compact_line, append_nil]
        rfl
    cases hk : datum.kind with
    | Missing => exact absurd hk hmissing
    | Null =>
      rw [if_pos rfl]
      exact (copy_emits size out _).of_eq (by simp [Layout.value, hk])
    | Bool =>
      rw [if_neg (by simp), if_pos rfl]
      exact (copy_emits size out _).of_eq (by simp [Layout.value, hk])
    | Number =>
      rw [if_neg (by simp), if_neg (by simp), if_pos rfl]
      exact (copy_emits size out _).of_eq (by simp [Layout.value, hk])
    | String =>
      rw [if_neg (by simp), if_neg (by simp), if_neg (by simp), if_pos rfl]
      exact (copyString_emits size out (htext hk)).of_eq (by simp [Layout.value, hk])
    | Array => exact absurd (Or.inl hk) hcont
    | Object => exact absurd (Or.inr hk) hcont

theorem encodeChildren_emits (object : Bool) : ∀ (fuel : Nat) (out : List UInt8) (shape : Shape)
    (first : Bool) (depth : Nat) (parent : Option Nat),
    Holds nodes.value parent shape → shape.forest.Writable (depth + 1) →
    2 * shape.ids.length + 1 ≤ fuel →
    Emits size out (encodeChildren nodes size object fuel out shape.head first depth)
      (if first then compact.items object (depth + 1) shape.forest
        else compact.more object (depth + 1) shape.forest)
  | 0, _, _, _, _, _, _, _, hfuel => by omega
  | fuel + 1, out, .nil, first, depth, _, _, _, _ => by
    cases first <;> exact emits_nil size out
  | fuel + 1, out, .node p datum key children next, first, depth, parent, ⟨hp, hc, hn⟩, hw,
      hfuel => by
      obtain ⟨hthis, hwc, hwn⟩ := hw
      simp only [Shape.ids, length_cons, length_append] at hfuel
      rw [Shape.head, encodeChildren, hp]
      -- the comma, the key, the value and the items behind it
      have hcomma := comma_emits size out first [44]
      have hkeys := fun out => key_emits size out object hthis.2.2.2 compact
      have hvalue := fun out => encodeValue_emits fuel out p (depth + 1) datum key children next
        parent hp hc ⟨hthis, hwc, trivial⟩ (by omega)
      have hrest := fun out => encodeChildren_emits object fuel out next false depth parent hn hwn
        (by omega)
      have hall := hcomma.andThen (fun out => (hkeys out).andThen (fun out =>
        (hvalue out).andThen hrest))
      refine hall.of_eq ?_
      rw [Shape.forest, Layout.more, Layout.items_node]
      cases first <;> rfl

end

end Compact

theorem prettyIndent_emits (size : Nat) : ∀ (count : Nat) (out : List UInt8),
    Emits size out (prettyIndent size count out) (replicate count 32)
  | 0, out => emits_nil size out
  | count + 1, out =>
    (copy_emits size out [32]).andThen (fun out => prettyIndent_emits size count out)

section Indented

variable {nodes : Nodes} {size width : Nat}

theorem line_eq (depth : Nat) :
    (indented width).line depth = [10] ++ List.replicate (depth * width) 32 := rfl

mutual

/-- **`encode_pretty_value` writes the indented text of the tree** that the nodes hold. -/
theorem encodePrettyValue_emits : ∀ (fuel : Nat) (out : List UInt8) (p depth : Nat)
    (datum : Datum) (key : List UInt8) (first next : Shape) (parent : Option Nat),
    nodes.value p = nodeValue datum key first next parent → Holds nodes.value (some p) first →
    (Forest.node datum key first.forest .nil).Writable depth → 2 * first.ids.length + 2 ≤ fuel →
    Emits size out (encodePrettyValue nodes size width fuel out (some p) depth)
      ((indented width).tree depth datum first.forest)
  | 0, _, _, _, _, _, _, _, _, _, _, _, hfuel => by omega
  | fuel + 1, out, p, depth, datum, key, first, next, parent, hp, hfirst, hw, hfuel => by
    by_cases hcont : datum.kind = .Array ∨ datum.kind = .Object
    · obtain ⟨⟨hdepth, _⟩, hchildren, _⟩ := hw
      have hboth : ¬ (datum.kind ≠ .Array ∧ datum.kind ≠ .Object) := by
        rintro ⟨ha, ho⟩
        exact hcont.elim ha ho
      rw [encodePrettyValue, if_neg (by omega), hp, nodeValue, if_neg hboth]
      rw [Layout.tree, value_container hcont]
      cases first with
      | nil =>
        exact (copy_emits size out [opening datum.isObject]).andThen
          (fun out => copy_emits size out [closing datum.isObject])
      | node q d k f n =>
        have hitems := fun out => encodePrettyChildren_emits datum.isObject fuel out
          (.node q d k f n) true depth (some p) hfirst hchildren (by omega)
        have hall := (copy_emits size out [opening datum.isObject]).andThen (fun out =>
          (copy_emits size out [10]).andThen (fun out => (hitems out).andThen (fun out =>
            (copy_emits size out [10]).andThen (fun out =>
              (prettyIndent_emits size (depth * width) out).andThen (fun out =>
                copy_emits size out [closing datum.isObject])))))
        refine hall.of_eq ?_
        rw [Shape.forest, Layout.items_node, line_eq, line_eq, if_pos rfl]
        simp only [Forest.isNil, Bool.false_eq_true, if_false, List.append_assoc,
          cons_append, nil_append, drop_succ_cons, drop_zero]
    have hnot : datum.kind ≠ .Array ∧ datum.kind ≠ .Object := not_or.mp hcont
    have hleaf := @encodeValue_emits nodes size (fuel + 1) out p depth datum key first next
      parent hp hfirst hw hfuel
    obtain ⟨⟨hdepth, hmissing, _, _⟩, _, _⟩ := hw
    rw [encodePrettyValue, if_neg (by omega), hp, nodeValue, if_pos hnot]
    refine hleaf.of_eq ?_
    unfold Layout.tree Layout.value
    cases hk : datum.kind with
    | Missing => exact absurd hk hmissing
    | Array => exact absurd hk hnot.1
    | Object => exact absurd hk hnot.2
    | _ => rfl

theorem encodePrettyChildren_emits (object : Bool) : ∀ (fuel : Nat) (out : List UInt8)
    (shape : Shape) (first : Bool) (depth : Nat) (parent : Option Nat),
    Holds nodes.value parent shape → shape.forest.Writable (depth + 1) →
    2 * shape.ids.length + 1 ≤ fuel →
    Emits size out (encodePrettyChildren nodes size width object fuel out shape.head first depth)
      (if first then ((indented width).items object (depth + 1) shape.forest).drop 1
        else (indented width).more object (depth + 1) shape.forest)
  | 0, _, _, _, _, _, _, _, hfuel => by omega
  | fuel + 1, out, .nil, first, depth, _, _, _, _ => by
    cases first <;> exact emits_nil size out
  | fuel + 1, out, .node p datum key children next, first, depth, parent, ⟨hp, hc, hn⟩, hw,
      hfuel => by
      obtain ⟨hthis, hwc, hwn⟩ := hw
      simp only [Shape.ids, length_cons, length_append] at hfuel
      rw [Shape.head, encodePrettyChildren, hp]
      -- the line break stands before the loop for the first item, and behind the comma else
      have hcomma := comma_emits size out first [44, 10]
      have hindent := prettyIndent_emits size ((depth + 1) * width)
      have hkeys := fun out => key_emits size out object hthis.2.2.2 (indented width)
      have hvalue := fun out => encodePrettyValue_emits fuel out p (depth + 1) datum key children
        next parent hp hc ⟨hthis, hwc, trivial⟩ (by omega)
      have hrest := fun out => encodePrettyChildren_emits object fuel out next false depth parent
        hn hwn (by omega)
      have hall := hcomma.andThen (fun out => (hindent out).andThen (fun out =>
        (hkeys out).andThen (fun out => (hvalue out).andThen hrest)))
      refine hall.of_eq ?_
      rw [Shape.forest, Layout.more, Layout.items_node, line_eq]
      cases first <;> rfl

end

end Indented

section Encodable

variable {nodes : Nodes}

mutual

theorem encodable_iff : ∀ (fuel p depth : Nat) (datum : Datum) (key : List UInt8)
    (first next : Shape) (parent : Option Nat),
    nodes.value p = nodeValue datum key first next parent → Holds nodes.value (some p) first →
    2 * first.ids.length + 2 ≤ fuel →
    (encodable nodes fuel (some p) depth = true ↔
      (Forest.node datum key first.forest .nil).Writable depth)
  | 0, _, _, _, _, _, _, _, _, _, hfuel => by omega
  | fuel + 1, p, depth, datum, key, first, next, parent, hp, hfirst, hfuel => by
    have hutf : ∀ text, (!Unicode.valid text) = true ↔ ¬ Utf8 text := by
      intro text
      rw [← valid_iff, Bool.not_eq_true', Bool.not_eq_true]
    have ih := encodableChildren_iff fuel first depth (some p) hfirst (by omega)
    rw [encodable, hp, nodeValue, Forest.Writable, Forest.Writable, ← ih]
    constructor
    · intro h
      split_ifs at h with h1 h2
      obtain ⟨hmissing, hdepth⟩ := not_or.mp h1
      obtain ⟨hstring, hkeys⟩ := not_or.mp h2
      rw [hutf, not_not] at hkeys
      refine ⟨⟨by omega, hmissing, ?_, hkeys⟩, h, trivial⟩
      intro hs
      exact not_not.mp (fun hn => hstring ⟨hs, (hutf _).mpr hn⟩)
    rintro ⟨⟨hdepth, hmissing, hstring, hkeys⟩, h, _⟩
    rw [if_neg, if_neg]
    · exact h
    · rintro (⟨hs, hn⟩ | hn)
      · exact (hutf _).mp hn (hstring hs)
      · exact (hutf _).mp hn hkeys
    rintro (hm | hd)
    · exact hmissing hm
    · omega

theorem encodableChildren_iff : ∀ (fuel : Nat) (shape : Shape) (depth : Nat)
    (parent : Option Nat), Holds nodes.value parent shape → 2 * shape.ids.length + 1 ≤ fuel →
    (encodableChildren nodes fuel shape.head depth = true ↔ shape.forest.Writable (depth + 1))
  | 0, _, _, _, _, hfuel => by omega
  | fuel + 1, .nil, depth, _, _, _ => by simp [Shape.head, encodableChildren, Shape.forest,
      Forest.Writable]
  | fuel + 1, .node p datum key children next, depth, parent, ⟨hp, hc, hn⟩, hfuel => by
    simp only [Shape.ids, length_cons, length_append] at hfuel
    have hthis := encodable_iff fuel p (depth + 1) datum key children next parent hp hc (by omega)
    have hrest := encodableChildren_iff fuel next depth parent hn (by omega)
    rw [Shape.head, encodableChildren, hp, nodeValue, Shape.forest, Forest.Writable]
    rw [Forest.Writable, Forest.Writable] at hthis
    cases he : encodable nodes fuel (some p) (depth + 1) with
    | false =>
      rw [he] at hthis
      simp only [Bool.not_false, if_true, Bool.false_eq_true, false_iff]
      rintro ⟨hw, hwc, _⟩
      exact Bool.false_ne_true (hthis.mpr ⟨hw, hwc, trivial⟩)
    | true =>
      obtain ⟨hw, hwc, _⟩ := hthis.mp he
      simp only [Bool.not_true, Bool.false_eq_true, if_false]
      rw [hrest]
      exact ⟨fun h => ⟨hw, hwc, h⟩, fun h => h.2.2⟩

end

end Encodable

/-- The layout of a text: compact for no indentation. -/
def layout (indent : Nat) : Layout := if indent = 0 then compact else indented indent

open Mem in
/-- **`encode_arena` gives the text of the tree,** or nothing if it cannot be written. -/
theorem encodeArena_spec {nodes : Nodes} {p : Nat} {datum : Datum} {key : List UInt8}
    {first next : Shape} {parent : Option Nat}
    (hp : nodes.value p = nodeValue datum key first next parent)
    (hfirst : Holds nodes.value (some p) first) (hsize : first.ids.length ≤ nodes.used)
    {w indent : Nat} {room : Room}
    (hroom : room.Holds w 256 ((layout indent).tree 0 datum first.forest).length)
    (hpos : (layout indent).tree 0 datum first.forest ≠ []) :
    ((Forest.node datum key first.forest .nil).Writable 0 →
      encodeArena w room nodes (some p) indent = .ok ((layout indent).tree 0 datum first.forest)) ∧
    (¬ (Forest.node datum key first.forest .nil).Writable 0 →
      encodeArena w room nodes (some p) indent = .ok []) := by
  have hfuel : 2 * first.ids.length + 2 ≤ treeFuel nodes := by
    unfold treeFuel
    omega
  have hiff := encodable_iff (treeFuel nodes) p 0 datum key first next parent hp hfirst hfuel
  unfold encodeArena
  constructor
  · intro hwr
    rw [hiff.mpr hwr, Bool.not_true, if_neg Bool.false_ne_true]
    refine trialLoop_size ?_ hroom (by decide)
    have hemit : ∀ size, Emits size [] (if indent = 0 then
        encodeValue nodes size (treeFuel nodes) [] (some p) 0
        else encodePrettyValue nodes size indent (treeFuel nodes) [] (some p) 0)
        ((layout indent).tree 0 datum first.forest) := by
      intro size
      unfold layout
      split_ifs
      · exact encodeValue_emits _ [] p 0 datum key first next parent hp hfirst hwr hfuel
      · exact encodePrettyValue_emits _ [] p 0 datum key first next parent hp hfirst hwr hfuel
    have hinto : ∀ size, encodePrettyInto nodes size indent (treeFuel nodes) (some p) =
        (if indent = 0 then encodeValue nodes size (treeFuel nodes) [] (some p) 0
          else encodePrettyValue nodes size indent (treeFuel nodes) [] (some p) 0).getD [] := by
      intro size
      unfold encodePrettyInto encodeInto
      split_ifs <;> rfl
    refine ⟨?_, ?_⟩
    · intro size space result hrun
      dsimp only at hrun
      rw [hinto] at hrun
      rcases hemit size with ⟨hnone, _⟩ | hsome
      · rw [hnone] at hrun
        cases hrun
      rw [hsome, Option.getD_some, nil_append] at hrun
      split_ifs at hrun
      cases hrun
      rfl
    intro size space hle
    rw [hinto]
    rcases hemit size with ⟨_, hlt⟩ | hsome
    · rw [length_nil] at hlt
      omega
    · rw [hsome, Option.getD_some, nil_append, if_pos (length_pos_of_ne_nil hpos)]
  · intro hwr
    have hfalse : encodable nodes (treeFuel nodes) (some p) 0 = false := by
      rw [← Bool.not_eq_true, hiff]
      exact hwr
    rw [hfalse]
    rfl

end Dyn.Json
