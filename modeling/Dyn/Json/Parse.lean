import Dyn.Json.Nodes
import Dyn.Json.Strings

/-!
# std/encoding/json: the tree parser

`parse` reads a text into nodes.  `parseNode_spec` compares it with the recursive descent of
`Scanner`: it fails where the descent with decoded strings fails, and otherwise the new nodes
hold the tree of the descent.
-/

namespace Dyn.Json

open Function

inductive ErrorKind where
  | None
  | Syntax
  | TrailingData
deriving DecidableEq, Repr

/-- The categories of `std/errors` that parsing uses. -/
inductive Category where
  | None
  | InvalidInput
  | Overflow
deriving DecidableEq, Repr

structure Parser where
  nodes : Nodes
  rest : List UInt8
  error : ErrorKind := .None

def failedString (s : Parser) : List UInt8 × Parser :=
  ([], if s.error = .None then { s with error := .Syntax } else s)

/-- Where the search for the end of a string begins: behind its plain bytes if it is worth it. -/
def searchStart (rest : List UInt8) : Extent :=
  if rest.length ≥ 16 ∧ (rest.head?.map plain).getD false = true then
    { length := asciiStringPrefix rest }
  else {}

/-- `decoded_string`: the text goes to a block of the arena, which is cut to its length. -/
def decodedString (s : Parser) : List UInt8 × Parser :=
  match s.rest with
  | 34 :: rest =>
      let s := { s with rest := rest }
      let start := searchStart rest
      match findEnd start (rest.drop start.length) with
      | none => failedString s
      | some found =>
          match contents found rest with
          | none => failedString s
          | some text =>
              let after := { s with rest := rest.drop (found.length + 1) }
              if found.length = 0 then ([], after)
              else if !found.hasEscape then (text, after)
              else
                match decodeLoop false text.length text (List.replicate text.length 0) 0 0 with
                | none => failedString s
                | some (output, length) => (output.take length, after)
  | _ => failedString s

/-- The key of a member and its colon; an element has neither. -/
def parseKey (object : Bool) (s : Parser) : Option (List UInt8) × Parser :=
  if object then
    match decodedString s with
    | (key, s) =>
        if s.error ≠ .None then (none, s)
        else
          let s := { s with rest := skip s.rest }
          match s.rest with
          | [] => (none, s)
          | byte :: tail => if byte ≠ 58 then (none, s) else (some key, { s with rest := tail })
  else (some [], s)

mutual

/-- `parse_node`; a fuel of twice the bytes left is enough. -/
def parseNode : Nat → Nat → Parser → Option Nat × Parser
  | 0, _, s => (none, s)
  | fuel + 1, depth, s =>
      let s := { s with rest := skip s.rest }
      match s.rest with
      | [] => (none, s)
      | byte :: tail =>
          if byte = 110 then
            match literal nullText s.rest with
            | (false, _) => (none, s)
            | (true, rest) =>
                let (result, nodes) := node s.nodes .Null
                (some result, { s with nodes := nodes, rest := rest })
          else if byte = 116 ∨ byte = 102 then
            match literal (if byte == 116 then trueText else falseText) s.rest with
            | (false, _) => (none, s)
            | (true, rest) =>
                let (result, nodes) := node s.nodes .Bool
                let nodes := nodes.set result { nodes.value result with boolean := byte == 116 }
                (some result, { s with nodes := nodes, rest := rest })
          else if byte = 34 then
            match decodedString s with
            | (text, s) =>
                if s.error ≠ .None then (none, s)
                else
                  let (result, nodes) := node s.nodes .String
                  let nodes := nodes.set result { nodes.value result with text := text }
                  (some result, { s with nodes := nodes })
          else if byte = 91 ∨ byte = 123 then
            if depth ≥ MaximumDepth then (none, s)
            else
              let (container, nodes) := node s.nodes .Array
              let nodes :=
                if byte == 123 then
                  nodes.set container { nodes.value container with kind := .Object }
                else nodes
              let s := { s with nodes := nodes, rest := skip tail }
              if s.rest.head? = some (closing (byte == 123)) then
                (some container, { s with rest := s.rest.tail })
              else parseItems (byte == 123) container fuel depth s
          else
            match number s.rest with
            | (false, rest) => (none, { s with rest := rest })
            | (true, rest) =>
                let (result, nodes) := node s.nodes .Number
                let text := s.rest.take (s.rest.length - rest.length)
                let nodes := nodes.set result { nodes.value result with text := text }
                (some result, { s with nodes := nodes, rest := rest })

/-- The loop over the elements or members of a container. -/
def parseItems (object : Bool) (container : Nat) : Nat → Nat → Parser → Option Nat × Parser
  | 0, _, s => (none, s)
  | fuel + 1, depth, s =>
      match parseKey object s with
      | (none, s) => (none, s)
      | (some key, s) =>
          match parseNode fuel (depth + 1) s with
          | (none, s) => (none, s)
          | (some child, s) =>
              let nodes := s.nodes.set child { s.nodes.value child with key := key }
              let s := { s with nodes := append nodes container child, rest := skip s.rest }
              match s.rest with
              | [] => (none, s)
              | byte :: tail =>
                  if byte = closing object then (some container, { s with rest := tail })
                  else if byte ≠ 44 then (none, s)
                  else parseItems object container fuel depth { s with rest := skip tail }

end

structure ParseResult where
  root : Option Nat := none
  nodes : Nodes
  offset : Nat := 0
  kind : Category := .None
  detail : ErrorKind := .None
  ok : Bool

/-- `parse`; a failure gives the nodes back to the arena. -/
def parse (nodes : Nodes) (source : List UInt8) : ParseResult :=
  match parseNode (scanFuel source) 0 { nodes := nodes, rest := source } with
  | (none, s) =>
      { nodes := nodes, offset := source.length - (skip s.rest).length, kind := .InvalidInput
        detail := if s.error = .None then .Syntax else s.error, ok := false }
  | (some root, s) =>
      if skip s.rest ≠ [] then
        { nodes := nodes, offset := source.length - (skip s.rest).length, kind := .InvalidInput
          detail := .TrailingData, ok := false }
      else { root := some root, nodes := s.nodes, ok := true }

theorem findEnd_searchStart (rest : List UInt8) :
    findEnd (searchStart rest) (rest.drop (searchStart rest).length) = findEnd {} rest := by
  unfold searchStart
  split_ifs
  · have := findEnd_skip rest {}
    rwa [Nat.zero_add] at this
  · rfl

theorem failedString_error {s : Parser} (h : s.error = .None) :
    (failedString s).2.error ≠ .None := by
  unfold failedString
  rw [if_pos h]
  simp

/-- **`decoded_string` gives the text of the string** at the cursor, or sets the error. -/
theorem decodedString_spec {s : Parser} (herr : s.error = .None) :
    match stringText s.rest with
    | none => (decodedString s).2.error ≠ .None
    | some (text, after) => decodedString s = (text, { s with rest := after }) := by
  by_cases hquote : ∃ rest, s.rest = 34 :: rest
  · obtain ⟨rest, hrest⟩ := hquote
    unfold decodedString stringText
    rw [hrest]
    simp only [findEnd_searchStart]
    cases hf : findEnd {} rest with
    | none => exact failedString_error herr
    | some found =>
      dsimp only
      cases hc : contents found rest with
      | none => exact failedString_error herr
      | some text =>
        dsimp only
        obtain ⟨body, after, _, rfl, rfl⟩ := findEnd_sound hf
        have htext : text = body := by
          rw [contents_eq] at hc
          split_ifs at hc
          cases hc
          rfl
        subst htext
        have hlen : (Extent.add {} text).length = text.length := Nat.zero_add _
        have hesc : (Extent.add {} text).hasEscape = text.contains 92 := Bool.false_or _
        rw [hlen, hesc]
        by_cases h0 : text.length = 0
        · obtain rfl := List.length_eq_zero_iff.mp h0
          rfl
        rw [if_neg h0]
        cases hplain : text.contains 92 with
        | false =>
          rw [unescape_plain hplain]
          rfl
        | true =>
          have hloop := @decodeLoop_eq false text (List.replicate text.length 0)
            List.length_replicate fun hc => (by cases hc)
          cases hu : unescape text with
          | none =>
            rw [hu] at hloop
            rw [hloop]
            exact failedString_error herr
          | some bytes =>
            rw [hu] at hloop
            obtain ⟨out, hrun, htake⟩ := hloop
            rw [hrun]
            simp only [Bool.not_true, Bool.false_eq_true, if_false, Option.map_some]
            rw [htake]
  · rw [stringText_none (fun rest hrest => hquote ⟨rest, hrest⟩)]
    unfold decodedString
    dsimp only
    split
    · rename_i rest hrest
      exact absurd ⟨rest, hrest⟩ hquote
    · exact failedString_error herr

theorem parseKey_spec {object : Bool} {s : Parser} (herr : s.error = .None)
    (hskip : skip s.rest = s.rest) :
    match strict.key object s.rest with
    | none => (parseKey object s).1 = none
    | some (key, after) => parseKey object s = (some key, { s with rest := after }) := by
  unfold parseKey Scanner.key
  cases object with
  | false => rfl
  | true =>
    have hd := decodedString_spec herr
    rw [if_pos rfl, if_pos rfl, hskip, strict_str]
    cases hs : stringText s.rest with
    | none =>
      rw [hs] at hd
      dsimp only at hd ⊢
      rw [if_pos hd]
    | some found =>
      obtain ⟨key, after⟩ := found
      rw [hs] at hd
      rw [hd]
      dsimp only
      rw [if_neg (by rw [herr]; simp)]
      cases skip after with
      | nil => rfl
      | cons byte tail =>
        dsimp only
        by_cases hb : byte ≠ 58
        · rw [if_pos hb, if_pos hb]
        · rw [if_neg hb, if_neg hb]

/-- What a scanned value is in the arena: the first new node, with its children. -/
def Built (s : Parser) (result : Option Nat × Parser) : Option (Tree × List UInt8) → Prop
  | none => result.1 = none
  | some (tree, after) => ∃ nodes first,
      result = (some s.nodes.used, { s with nodes := nodes, rest := after }) ∧
      first.forest = tree.first ∧
      Grown s.nodes nodes (.node s.nodes.used tree.datum [] first .nil)

theorem built_leaf {s : Parser} {datum : Datum} {after : List UInt8} {v : Value}
    (h : v = nodeValue datum [] .nil .nil none) :
    Built s (some s.nodes.used, { s with
        nodes := { value := update s.nodes.value s.nodes.used v, used := s.nodes.used + 1 }
        rest := after }) (some (⟨datum, .nil⟩, after)) :=
  ⟨_, .nil, rfl, rfl, grown_node s.nodes h⟩

theorem literal_cases (text rest : List UInt8) :
    (∃ after, literal text rest = (true, after)) ∨ literal text rest = (false, rest) := by
  unfold literal
  split_ifs
  · exact .inl ⟨_, rfl⟩
  · exact .inr rfl

theorem parseNode_leaf {fuel depth : Nat} {s : Parser} (herr : s.error = .None) {byte : UInt8}
    {tail : List UInt8} (hskip : skip s.rest = byte :: tail) (hleaf : ¬ (byte = 91 ∨ byte = 123)) :
    Built s (parseNode (fuel + 1) depth s)
      ((strict.leaf byte (byte :: tail)).map (fun found => (⟨found.1, .nil⟩, found.2))) := by
  obtain ⟨nodes, rest, error⟩ := s
  subst herr
  rw [parseNode.eq_def]
  dsimp only
  rw [hskip]
  dsimp only
  unfold Scanner.leaf
  by_cases h110 : byte = 110
  · rw [if_pos h110, if_neg (by rw [h110]; decide), if_pos h110]
    rcases literal_cases nullText (byte :: tail) with ⟨after, hl⟩ | hl
    · rw [hl]
      exact built_leaf rfl
    · rw [hl]
      rfl
  rw [if_neg h110]
  by_cases hbool : byte = 116 ∨ byte = 102
  · rw [if_pos hbool]
    rcases hbool with rfl | rfl
    · rw [if_neg (show (116 : UInt8) ≠ 34 by decide), if_neg (show (116 : UInt8) ≠ 110 by decide),
        if_pos (rfl : (116 : UInt8) = 116)]
      rcases literal_cases trueText (116 :: tail) with ⟨after, hl⟩ | hl
      · simp only [beq_self_eq_true, if_true, hl]
        rw [node_pointer, node_value, node_set]
        exact built_leaf rfl
      · simp only [beq_self_eq_true, if_true, hl]
        rfl
    have hfalse : ((102 : UInt8) == 116) = false := by decide
    rw [if_neg (show (102 : UInt8) ≠ 34 by decide), if_neg (show (102 : UInt8) ≠ 110 by decide),
      if_neg (show (102 : UInt8) ≠ 116 by decide), if_pos (rfl : (102 : UInt8) = 102)]
    rcases literal_cases falseText (102 :: tail) with ⟨after, hl⟩ | hl
    · simp only [hfalse, Bool.false_eq_true, if_false, hl]
      rw [node_pointer, node_value, node_set]
      exact built_leaf rfl
    · simp only [hfalse, Bool.false_eq_true, if_false, hl]
      rfl
  rw [if_neg hbool]
  by_cases h34 : byte = 34
  · rw [if_pos h34, if_pos h34, strict_str]
    have hd := @decodedString_spec { nodes := nodes, rest := byte :: tail } rfl
    cases hs : stringText (byte :: tail) with
    | none =>
      rw [hs] at hd
      rw [if_pos hd]
      rfl
    | some found =>
      obtain ⟨text, after⟩ := found
      rw [hs] at hd
      rw [hd]
      rw [if_neg (by simp), node_pointer, node_value, node_set]
      exact built_leaf rfl
  rw [if_neg h34, if_neg hleaf, if_neg h34, if_neg h110,
    if_neg (fun h => hbool (.inl h)), if_neg (fun h => hbool (.inr h))]
  change Built _ _ (Option.map _ (Option.map _ (passed (number (byte :: tail)))))
  cases hn : number (byte :: tail) with
  | mk ok after =>
    cases ok with
    | false => rfl
    | true =>
      dsimp only
      rw [node_pointer, node_value, node_set]
      exact built_leaf rfl

theorem container_nodes (nodes : Nodes) (object : Bool) :
    (if object then (node nodes .Array).2.set nodes.used
        { (node nodes .Array).2.value nodes.used with kind := .Object }
      else (node nodes .Array).2) =
    { value := update nodes.value nodes.used { kind := containerKind object }
      used := nodes.used + 1 } := by
  cases object with
  | true =>
    rw [if_pos rfl, node_value, node_set]
    rfl
  | false => rfl

mutual

/-- **`parse_node` builds what the descent with decoded strings reads.** -/
theorem parseNode_spec : ∀ (fuel depth : Nat) (s : Parser), s.error = .None →
    Built s (parseNode fuel depth s) (strict.value fuel depth s.rest)
  | 0, _, _, _ => rfl
  | fuel + 1, depth, s, herr => by
    rw [Scanner.value]
    cases hskip : skip s.rest with
    | nil =>
      rw [parseNode.eq_def]
      dsimp only
      rw [hskip]
      rfl
    | cons byte tail =>
      dsimp only
      split
      · rename_i hleaf
        rw [parseNode.eq_def]
        dsimp only
        rw [hskip]
        dsimp only
        have h110 : byte ≠ 110 := by rcases hleaf with rfl | rfl <;> decide
        have hbool : ¬ (byte = 116 ∨ byte = 102) := by rcases hleaf with rfl | rfl <;> decide
        have h34 : byte ≠ 34 := by rcases hleaf with rfl | rfl <;> decide
        rw [if_neg h110, if_neg hbool, if_neg h34, if_pos hleaf]
        split
        · rfl
        rw [node_pointer, container_nodes]
        have hgrown := @grown_node s.nodes { kind := containerKind (byte == 123) } _ rfl
        split_ifs
        · exact ⟨_, .nil, rfl, rfl, hgrown⟩
        have ih := parseItems_spec (byte == 123) s.nodes.used fuel depth
          { s with
            nodes := { value := update s.nodes.value s.nodes.used
                        { kind := containerKind (byte == 123) }
                       used := s.nodes.used + 1 }
            rest := skip tail } s.nodes _ .nil herr (skip_skip tail) hgrown
        cases hi : strict.items (byte == 123) fuel depth (skip tail) with
        | none =>
          rw [hi] at ih
          exact ih
        | some found =>
          rw [hi] at ih
          obtain ⟨nodes, first, hrun, hforest, hgrown⟩ := ih
          exact ⟨nodes, first, hrun, hforest, hgrown⟩
      · rename_i hleaf
        have h := @parseNode_leaf fuel depth s herr byte tail hskip hleaf
        cases hl : strict.leaf byte (byte :: tail) with
        | none | some found =>
          rw [hl] at h
          exact h

theorem parseItems_spec (object : Bool) (c : Nat) :
    ∀ (fuel depth : Nat) (s : Parser) (base : Nodes) (datum : Datum) (first : Shape),
      s.error = .None → skip s.rest = s.rest →
      Grown base s.nodes (.node c datum [] first .nil) →
      match strict.items object fuel depth s.rest with
      | none => (parseItems object c fuel depth s).1 = none
      | some (forest, after) => ∃ nodes first',
          parseItems object c fuel depth s = (some c, { s with nodes := nodes, rest := after }) ∧
          first'.forest = first.forest.append forest ∧
          Grown base nodes (.node c datum [] first' .nil)
  | 0, _, _, _, _, _, _, _, _ => rfl
  | fuel + 1, depth, s, base, datum, first, herr, hskip, hgrown => by
    have hkey := @parseKey_spec object s herr hskip
    rw [Scanner.items, parseItems.eq_def]
    cases hk : strict.key object s.rest with
    | none =>
      rw [hk] at hkey
      dsimp only at hkey ⊢
      split
      · rfl
      rename_i hp
      rw [hp] at hkey
      cases hkey
    | some found =>
      obtain ⟨key, mid⟩ := found
      rw [hk] at hkey
      dsimp only at hkey ⊢
      rw [hkey]
      dsimp only
      have hnode := parseNode_spec fuel (depth + 1) { s with rest := mid } herr
      cases hv : strict.value fuel (depth + 1) mid with
      | none =>
        rw [hv] at hnode
        dsimp only
        split
        · rfl
        rename_i hp
        have : (parseNode fuel (depth + 1) { s with rest := mid }).1 = none := hnode
        rw [hp] at this
        cases this
      | some found =>
        obtain ⟨tree, behind⟩ := found
        rw [hv] at hnode
        obtain ⟨nodes, child, hrun, hchild, hgrown'⟩ := hnode
        dsimp only at hrun hgrown'
        rw [hrun]
        dsimp only
        have hitem := @Grown.item base s.nodes nodes c datum tree.datum key first child hgrown
          hgrown'
        have hforest : (first.snoc (.node s.nodes.used tree.datum key child .nil)).forest =
            first.forest.append (.node tree.datum key tree.first .nil) := by
          rw [snoc_forest, Shape.forest, hchild]
          rfl
        cases hb : skip behind with
        | nil => rfl
        | cons byte tail =>
          dsimp only
          by_cases hclose : byte = closing object
          · rw [if_pos hclose, if_pos hclose]
            exact ⟨_, _, rfl, hforest, hitem⟩
          rw [if_neg hclose, if_neg hclose]
          by_cases hcomma : byte ≠ 44
          · rw [if_pos hcomma, if_pos hcomma]
          rw [if_neg hcomma, if_neg hcomma]
          have ih := parseItems_spec object c fuel depth
            { s with
              nodes := append (nodes.set s.nodes.used
                { nodes.value s.nodes.used with key := key }) c s.nodes.used
              rest := skip tail } base datum _ herr (skip_skip tail) hitem
          dsimp only at ih
          rw [items_skip] at ih
          cases hi : strict.items object fuel depth tail with
          | none =>
            rw [hi] at ih
            exact ih
          | some found =>
            obtain ⟨forest, after⟩ := found
            rw [hi] at ih
            obtain ⟨nodes', first', hrun', hforest', hgrown''⟩ := ih
            refine ⟨nodes', first', hrun', ?_, hgrown''⟩
            rw [hforest', hforest, Forest.append_assoc]
            rfl

end

/-- **`parse` accepts the texts that the descent with decoded strings accepts,** and the new
nodes hold its tree. -/
theorem parse_spec (nodes : Nodes) (source : List UInt8) :
    match strict.text source with
    | none => (parse nodes source).ok = false
    | some tree => ∃ first,
        (parse nodes source).ok = true ∧ (parse nodes source).root = some nodes.used ∧
        first.forest = tree.first ∧
        Grown nodes (parse nodes source).nodes (.node nodes.used tree.datum [] first .nil) := by
  have h := parseNode_spec (scanFuel source) 0 { nodes := nodes, rest := source } rfl
  unfold Scanner.text parse
  cases hv : strict.value (scanFuel source) 0 source with
  | none =>
    rw [hv] at h
    dsimp only
    split
    · rfl
    rename_i hp
    have : (parseNode (scanFuel source) 0 { nodes := nodes, rest := source }).1 = none := h
    rw [hp] at this
    cases this
  | some found =>
    obtain ⟨tree, after⟩ := found
    rw [hv] at h
    obtain ⟨nodes', first, hrun, hfirst, hgrown⟩ := h
    rw [hrun]
    dsimp only
    by_cases hend : skip after = []
    · rw [if_pos hend, if_neg (not_not_intro hend)]
      exact ⟨first, rfl, rfl, hfirst, hgrown⟩
    · rw [if_neg hend, if_pos hend]

end Dyn.Json
