import Dyn.Json.Builder
import Dyn.Io.Streams

/-!
# std/encoding/json: the streaming writer

`write` gives a tree to a writer piece by piece: runs of a string that need no escape, escapes, and what stands
between values.  To a writer that accepts every byte it gives the text that `encode` gives.
-/

namespace Dyn.Json

open List
open Io (Result)
open Unicode (Utf8)

section Code

variable {σ : Type}

/-- A write behind others and what follows it: `total += result.transferred`, and an error is returned with the
total. -/
def andThen (total : Nat) (step : Result × σ) (next : Nat → σ → Result × σ) : Result × σ :=
  match step with
  | (result, data) =>
      let total := total + result.transferred
      if result.status = .Error then ({ transferred := total, error := result.error, status := .Error }, data)
      else next total data

/-- The first write of a value, whose error is returned as it is. -/
def orReturn (step : Result × σ) (next : Nat → σ → Result × σ) : Result × σ :=
  match step with
  | (result, data) => if result.status = .Error then (result, data) else next result.transferred data

def hexDigit (value : UInt8) : UInt8 := if value < 10 then value + 48 else value - 10 + 97

/-- The short escape of a byte, empty for a byte that has none. -/
def streamEscape (byte : UInt8) : List UInt8 :=
  if byte = 34 then [92, 34]
  else if byte = 92 then [92, 92]
  else if byte = 8 then [92, 98]
  else if byte = 12 then [92, 102]
  else if byte = 10 then [92, 110]
  else if byte = 13 then [92, 114]
  else if byte = 9 then [92, 116]
  else []

variable (destination : Io.Writer σ)

def streamBytes (data : σ) (source : List UInt8) : Result × σ := Io.writeAll destination data source

def streamIf (condition : Bool) (data : σ) (source : List UInt8) : Result × σ :=
  if condition then streamBytes destination data source else ({}, data)

/-- The loop of `stream_string` and what stands behind it, where `run` is `source[start..i]`. -/
def streamRuns (data : σ) (total : Nat) (run : List UInt8) : List UInt8 → Result × σ
  | [] =>
      andThen total (streamIf destination (!run.isEmpty) data run) fun total data =>
        andThen total (streamBytes destination data [34]) fun total data => ({ transferred := total }, data)
  | byte :: rest =>
      if 0 < (streamEscape byte).length ∨ byte < 32 then
        andThen total (streamIf destination (!run.isEmpty) data run) fun total data =>
          andThen total
            (if byte < 32 ∧ (streamEscape byte).length = 0 then
              streamBytes destination data [92, 117, 48, 48, hexDigit (byte / 16), hexDigit (byte % 16)]
            else streamBytes destination data (streamEscape byte))
            fun total data => streamRuns data total [] rest
      else streamRuns data total (run ++ [byte]) rest

def streamString (data : σ) (source : List UInt8) : Result × σ :=
  if !Unicode.valid source then ({ error := -22, status := .Error }, data)
  else orReturn (streamBytes destination data [34]) fun total data => streamRuns destination data total [] source

variable (nodes : Nodes)

mutual

/-- `stream_value`; twice the number of nodes is fuel enough. -/
def streamValue : Nat → σ → Option Nat → Nat → Result × σ
  | 0, data, _, _ => ({ error := -22, status := .Error }, data)
  | _ + 1, data, none, _ => ({ error := -22, status := .Error }, data)
  | fuel + 1, data, some p, depth =>
      if depth > MaximumDepth then ({ error := -22, status := .Error }, data)
      else if (nodes.value p).kind = .Null then streamBytes destination data nullText
      else if (nodes.value p).kind = .Bool then
        streamBytes destination data (if (nodes.value p).boolean then trueText else falseText)
      else if (nodes.value p).kind = .Number then streamBytes destination data (nodes.value p).text
      else if (nodes.value p).kind = .String then streamString destination data (nodes.value p).text
      else
        let object := decide ((nodes.value p).kind = .Object)
        orReturn (streamBytes destination data [opening object]) fun total data =>
          streamChildren object fuel data total (nodes.value p).first true depth

/-- The loop of `stream_value` over the children, and the bracket behind it. -/
def streamChildren (object : Bool) : Nat → σ → Nat → Option Nat → Bool → Nat → Result × σ
  | 0, data, total, _, _, _ => ({ transferred := total, error := -22, status := .Error }, data)
  | _ + 1, data, total, none, _, _ =>
      andThen total (streamBytes destination data [closing object]) fun total data => ({ transferred := total }, data)
  | fuel + 1, data, total, some child, first, depth =>
      andThen total (streamIf destination (!first) data [44]) fun total data =>
        andThen total (if object then streamString destination data (nodes.value child).key else ({}, data)) fun total data =>
          andThen total (streamIf destination object data [58]) fun total data =>
            andThen total (streamValue fuel data (some child) (depth + 1)) fun total data =>
              streamChildren object fuel data total (nodes.value child).next false depth

end

/-- `write` of the value at a node. -/
def write (data : σ) (value : Option Nat) : Result × σ := streamValue destination nodes (treeFuel nodes) data value 0

end Code

section Writing

variable {σ : Type} {Taken : σ → List UInt8 → Prop}

/-- A step that completes, behind what was written before, and adds a text to it. -/
def Streams (Taken : σ → List UInt8 → Prop) (written : List UInt8) (total : Nat) (text : List UInt8) (result : Result × σ) :
    Prop :=
  ∃ data, result = ({ transferred := total + text.length }, data) ∧ Taken data (written ++ text)

variable {written : List UInt8}

variable {text text' : List UInt8} {step : Result × σ} {next : Nat → σ → Result × σ}

theorem Streams.andThen {total : Nat} (h : Streams Taken written 0 text step)
    (h' : ∀ data, Taken data (written ++ text) → Streams Taken (written ++ text) (total + text.length) text'
      (next (total + text.length) data)) :
    Streams Taken written total (text ++ text') (Json.andThen total step next) := by
  obtain ⟨data, rfl, htaken⟩ := h
  obtain ⟨data', hnext, htaken'⟩ := h' data htaken
  refine ⟨data', ?_, by rw [← append_assoc]; exact htaken'⟩
  rw [Json.andThen]
  dsimp only
  rw [if_neg (by decide), zero_add, hnext, length_append, add_assoc]

theorem Streams.orReturn (h : Streams Taken written 0 text step)
    (h' : ∀ data, Taken data (written ++ text) → Streams Taken (written ++ text) text.length text' (next text.length data))
    :
    Streams Taken written 0 (text ++ text') (Json.orReturn step next) := by
  obtain ⟨data, rfl, htaken⟩ := h
  obtain ⟨data', hnext, htaken'⟩ := h' data htaken
  refine ⟨data', ?_, by rw [← append_assoc]; exact htaken'⟩
  rw [Json.orReturn]
  dsimp only
  rw [if_neg (by decide), zero_add, hnext, zero_add, length_append]

variable {data : σ}

theorem Streams.done {total : Nat} (h : Taken data written) :
    Streams Taken written total [] ({ transferred := total }, data) :=
  ⟨data, rfl, by rw [append_nil]; exact h⟩

variable {destination : Io.Writer σ} (hsink : Io.Accepts destination Taken)
include hsink

theorem streamBytes_streams (h : Taken data written) (text : List UInt8) :
    Streams Taken written 0 text (streamBytes destination data text) := by
  obtain ⟨data', hwrite, htaken⟩ := hsink.writeAll h text
  exact ⟨data', by rw [streamBytes, hwrite, zero_add], htaken⟩

theorem streamIf_streams (h : Taken data written) (condition : Bool) (text : List UInt8) :
    Streams Taken written 0 (if condition then text else []) (streamIf destination condition data text) := by
  rw [streamIf]
  cases condition with
  | true => exact streamBytes_streams hsink h text
  | false => exact Streams.done h

theorem streamRun_streams (h : Taken data written) (run : List UInt8) :
    Streams Taken written 0 run (streamIf destination (!run.isEmpty) data run) := by
  have hrun := streamIf_streams hsink h (!run.isEmpty) run
  cases run with
  | nil | cons byte run => exact hrun

end Writing

theorem streamEscape_eq (byte : UInt8) : streamEscape byte = if escapeOf byte ≠ 0 then [92, escapeOf byte] else [] := by
  unfold streamEscape escapeOf
  split_ifs <;> simp_all

theorem hexDigit_eq {byte : UInt8} (h : byte < 32) :
    [hexDigit (byte / 16), hexDigit (byte % 16)] =
      [hexDigits.getD (byte.toNat >>> 4) 0, hexDigits.getD (byte.toNat &&& 15) 0] := by
  have hall : ∀ n : Fin 32, [hexDigit (UInt8.ofNat n / 16), hexDigit (UInt8.ofNat n % 16)] =
      [hexDigits.getD (n.val >>> 4) 0, hexDigits.getD (n.val &&& 15) 0] := by decide
  have hbyte := hall ⟨byte.toNat, UInt8.lt_iff_toNat_lt.1 h⟩
  rw [UInt8.ofNat_toNat] at hbyte
  exact hbyte

theorem escapeByte_stream (byte : UInt8) :
    escapeByte byte =
      if 0 < (streamEscape byte).length ∨ byte < 32 then
        if byte < 32 ∧ (streamEscape byte).length = 0 then
          [92, 117, 48, 48, hexDigit (byte / 16), hexDigit (byte % 16)]
        else streamEscape byte
      else [byte] := by
  have hcontrol : byte < 32 ↔ byte.toNat < 32 := UInt8.lt_iff_toNat_lt
  rw [escapeByte, streamEscape_eq]
  split
  · rw [if_pos (.inl (by simp)), if_neg (by simp)]
  by_cases hlow : byte < 32
  · have hdigits := hexDigit_eq hlow
    rw [cons.injEq, cons.injEq] at hdigits
    rw [if_pos (hcontrol.1 hlow), if_pos (.inr hlow), if_pos ⟨hlow, rfl⟩, hdigits.1, hdigits.2.1]
  · rw [if_neg fun h => hlow (hcontrol.2 h), if_neg (by simpa using hlow)]

section Streaming

variable {σ : Type} {Taken : σ → List UInt8 → Prop} {destination : Io.Writer σ} (hsink : Io.Accepts destination Taken)
include hsink

variable {written : List UInt8} {data : σ}

theorem streamRuns_streams (h : Taken data written) (total : Nat) (run source : List UInt8) :
    Streams Taken written total (run ++ (source.flatMap escapeByte ++ [34])) (streamRuns destination data total run source) := by
  induction source generalizing written data total run with
  | nil =>
    rw [streamRuns]
    refine (streamRun_streams hsink h run).andThen fun data h => ?_
    rw [flatMap_nil, nil_append, ← append_nil [(34 : UInt8)]]
    exact (streamBytes_streams hsink h [34]).andThen fun data h => Streams.done h
  | cons byte rest ih =>
    rw [streamRuns, flatMap_cons, escapeByte_stream]
    split
    · refine (streamRun_streams hsink h run).andThen fun data h => ?_
      rw [append_assoc]
      refine Streams.andThen ?_ fun data h => ih h _ []
      split_ifs
      · exact streamBytes_streams hsink h _
      · exact streamBytes_streams hsink h _
    · have hlonger := ih h total (run ++ [byte])
      simpa using hlonger

theorem streamString_streams (h : Taken data written) {source : List UInt8} (hutf : Utf8 source) :
    Streams Taken written 0 (quote source) (streamString destination data source) := by
  rw [streamString, (Unicode.valid_iff source).2 hutf, Bool.not_true, if_neg Bool.false_ne_true]
  exact (streamBytes_streams hsink h [34]).orReturn fun data h => streamRuns_streams hsink h _ [] source

theorem streamKey_streams (h : Taken data written) (object : Bool) {key : List UInt8}
    (hutf : Utf8 key) :
    Streams Taken written 0 (if object then quote key else [])
      (if object then streamString destination data key else ({}, data)) := by
  cases object with
  | true => exact streamString_streams hsink h hutf
  | false => exact Streams.done h

variable {nodes : Nodes}

mutual

/-- **`stream_value` writes the text of the tree** that the nodes hold. -/
theorem streamValue_streams : ∀ (fuel : Nat) (written : List UInt8) (data : σ) (p depth : Nat) (datum : Datum)
    (key : List UInt8) (first next : Shape) (parent : Option Nat), Taken data written →
    nodes.value p = nodeValue datum key first next parent → Holds nodes.value (some p) first →
    (Forest.node datum key first.forest .nil).Writable depth → 2 * first.ids.length + 2 ≤ fuel →
    Streams Taken written 0 (compact.tree depth datum first.forest)
      (streamValue destination nodes fuel data (some p) depth)
  | 0, _, _, _, _, _, _, _, _, _, _, _, _, _, hfuel => by omega
  | fuel + 1, written, data, p, depth, datum, key, first, next, parent, h, hp, hfirst, hw, hfuel => by
    obtain ⟨⟨hdepth, hmissing, htext, _⟩, hchildren, _⟩ := hw
    rw [streamValue, if_neg (by omega), hp]
    unfold Layout.tree nodeValue
    by_cases hcont : datum.kind = .Array ∨ datum.kind = .Object
    · obtain ⟨hnull, hb, hn, hs⟩ : datum.kind ≠ .Null ∧ datum.kind ≠ .Bool ∧ datum.kind ≠ .Number ∧
          datum.kind ≠ .String := by rcases hcont with h | h <;> simp [h]
      rw [if_neg hnull, if_neg hb, if_neg hn, if_neg hs, value_container hcont, compact_line, append_nil,
        ← singleton_append]
      refine (streamBytes_streams hsink h [opening datum.isObject]).orReturn fun data h => ?_
      have hitems := streamChildren_streams datum.isObject fuel _ data 1 first true depth (some p) h hfirst hchildren (by omega)
      cases first with
      | nil | node => exact hitems
    cases hk : datum.kind with
    | Missing => exact absurd hk hmissing
    | Null =>
      rw [if_pos rfl]
      have hwrite := streamBytes_streams hsink h nullText
      simpa [Layout.value, hk] using hwrite
    | Bool =>
      rw [if_neg (by simp), if_pos rfl]
      have hwrite := streamBytes_streams hsink h (if datum.boolean then trueText else falseText)
      simpa [Layout.value, hk] using hwrite
    | Number =>
      rw [if_neg (by simp), if_neg (by simp), if_pos rfl]
      have hwrite := streamBytes_streams hsink h datum.text
      simpa [Layout.value, hk] using hwrite
    | String =>
      rw [if_neg (by simp), if_neg (by simp), if_neg (by simp), if_pos rfl]
      have hwrite := streamString_streams hsink h (htext hk)
      simpa [Layout.value, hk] using hwrite
    | Array => exact absurd (Or.inl hk) hcont
    | Object => exact absurd (Or.inr hk) hcont

theorem streamChildren_streams (object : Bool) : ∀ (fuel : Nat) (written : List UInt8) (data : σ) (total : Nat) (shape : Shape)
    (first : Bool) (depth : Nat) (parent : Option Nat), Taken data written →
    Holds nodes.value parent shape → shape.forest.Writable (depth + 1) → 2 * shape.ids.length + 1 ≤ fuel →
    Streams Taken written total
      ((if first then compact.items object (depth + 1) shape.forest else compact.more object (depth + 1) shape.forest) ++
        [closing object])
      (streamChildren destination nodes object fuel data total shape.head first depth)
  | 0, _, _, _, _, _, _, _, _, _, _, hfuel => by omega
  | fuel + 1, written, data, total, .nil, first, depth, _, h, _, _, _ => by
    have hclose : Streams Taken written total [closing object]
        (streamChildren destination nodes object (fuel + 1) data total none first depth) := by
      rw [streamChildren, ← append_nil [closing object]]
      exact (streamBytes_streams hsink h [closing object]).andThen fun data h => Streams.done h
    cases first with
    | true | false => exact hclose
  | fuel + 1, written, data, total, .node p datum key children next, first, depth, parent, h, ⟨hp, hc, hn⟩, hw, hfuel => by
    obtain ⟨hthis, hwc, hwn⟩ := hw
    simp only [Shape.ids, length_cons, length_append] at hfuel
    rw [Shape.head, streamChildren, hp]
    have htext : (if first then compact.items object (depth + 1) (Shape.node p datum key children next).forest
          else compact.more object (depth + 1) (Shape.node p datum key children next).forest) ++ [closing object] =
        (if !first then [44] else []) ++ ((if object then quote key else []) ++ ((if object then [58] else []) ++
          (compact.tree (depth + 1) datum children.forest ++
            (compact.more object (depth + 1) next.forest ++ [closing object])))) := by
      rw [Shape.forest, Layout.more, Layout.items_node, compact_line]
      cases first <;> cases object <;> simp [Layout.key, Layout.more, Forest.isNil, compact]
    rw [htext]
    -- the comma, the key, the colon, the value and the items behind it
    refine (streamIf_streams hsink h (!first) [44]).andThen fun data h => ?_
    refine (streamKey_streams hsink h object hthis.2.2.2).andThen fun data h => ?_
    refine (streamIf_streams hsink h object [58]).andThen fun data h => ?_
    refine (streamValue_streams fuel _ data p (depth + 1) datum key children next parent h hp hc ⟨hthis, hwc, trivial⟩
      (by omega)).andThen fun data h => ?_
    exact streamChildren_streams object fuel _ data _ next false depth parent h hn hwn (by omega)

end

end Streaming

/-- The nodes hold a tree at a node, which is not larger than they are. -/
def Nodes.HoldTree (nodes : Nodes) (p : Nat) (key : List UInt8) (tree : Tree) : Prop :=
  ∃ first next parent, nodes.value p = nodeValue tree.datum key first next parent ∧ Holds nodes.value (some p) first ∧
    first.forest = tree.first ∧ first.ids.length ≤ nodes.used

/-- Every node of an arena that the building functions have made has a tree. -/
theorem Reachable.holdTree {nodes : Nodes} (hr : Reachable nodes) {p : Nat} (hp : p < nodes.used) :
    ∃ key tree, nodes.HoldTree p key tree := by
  obtain ⟨datum, key, first, next, parent, hv, hfirst, -, -, -, hsize⟩ := hr.tree hp
  exact ⟨key, ⟨datum, first.forest⟩, first, next, parent, hv, hfirst, rfl, hsize⟩

theorem encode_text {nodes : Nodes} {p : Nat} {key : List UInt8} {tree : Tree} (htree : nodes.HoldTree p key tree)
    (hencodable : encodable nodes (treeFuel nodes) (some p) 0 = true) {w : Nat} {room : Mem.Room} {bytes : List UInt8}
    (hencode : encode w room nodes (some p) = .ok bytes) : bytes = compact.tree 0 tree.datum tree.first := by
  obtain ⟨first, next, parent, hp, hfirst, htree, hsize⟩ := htree
  have hfuel : 2 * first.ids.length + 2 ≤ treeFuel nodes := by
    unfold treeFuel
    omega
  have hwritable := (encodable_iff (treeFuel nodes) p 0 tree.datum key first next parent hp hfirst hfuel).1 hencodable
  rw [encode, encodeArena, hencodable, Bool.not_true, if_neg Bool.false_ne_true] at hencode
  obtain ⟨capacity, -, hattempt⟩ := Mem.trialLoop_attempt hencode
  have hemits := @encodeValue_emits nodes capacity _ [] p 0 tree.datum key first next parent hp hfirst hwritable hfuel
  dsimp only at hattempt
  rw [encodePrettyInto, if_pos rfl, encodeInto] at hattempt
  split_ifs at hattempt with hpos
  cases hattempt
  rw [← htree]
  rcases hemits with ⟨hnone, -⟩ | hsome
  · rw [hnone] at hpos
    exact absurd hpos (by decide)
  · rw [hsome]
    rfl

/-- **The streaming writer agrees with the other one.**  Of every encodable tree, `write` to a writer that accepts
every byte completes, with as many bytes as it has written, and these are the bytes that `encode` returns, in
every arena; it returns them where the arena has room. -/
theorem write_agrees_with_encode {nodes : Nodes} {p : Nat} {key : List UInt8} {tree : Tree} (htree : nodes.HoldTree p key tree)
    (hencodable : encodable nodes (treeFuel nodes) (some p) 0 = true) {σ : Type} {Taken : σ → List UInt8 → Prop}
    {destination : Io.Writer σ} (hsink : Io.Accepts destination Taken) {data : σ} {start : List UInt8} (hdata : Taken data start) :
    ∃ text data', write destination nodes data (some p) = ({ transferred := text.length, status := .Complete }, data') ∧
      Taken data' (start ++ text) ∧
      ∀ w room, (∀ bytes, encode w room nodes (some p) = .ok bytes → bytes = text) ∧
        (room.Holds w 256 text.length → text ≠ [] → encode w room nodes (some p) = .ok text) := by
  have hfixed := @encode_text nodes p key tree htree hencodable
  obtain ⟨first, next, parent, hp, hfirst, hforest, hsize⟩ := htree
  have hfuel : 2 * first.ids.length + 2 ≤ treeFuel nodes := by
    unfold treeFuel
    omega
  have hwritable := (encodable_iff (treeFuel nodes) p 0 tree.datum key first next parent hp hfirst hfuel).1 hencodable
  obtain ⟨data', hwrite, htaken⟩ :=
    streamValue_streams hsink (treeFuel nodes) start data p 0 tree.datum key first next parent hdata hp hfirst hwritable hfuel
  rw [zero_add] at hwrite
  refine ⟨compact.tree 0 tree.datum first.forest, data', hwrite, htaken, fun w room => ⟨fun bytes hencode => ?_, ?_⟩⟩
  · rw [hforest]
    exact hfixed hencode
  · intro hroom hpos
    exact (@encodeArena_spec nodes p tree.datum key first next parent hp hfirst hsize w 0 room hroom hpos).1 hwritable

/-- A writer that takes at most two bytes of each write. -/
def pairSink : Io.Writer (List UInt8) :=
  ⟨some fun bytes source => ({ transferred := min 2 source.length }, bytes ++ source.take (min 2 source.length))⟩

theorem pairSink_accepts : Io.Accepts pairSink fun bytes text => bytes = text := by
  refine ⟨_, rfl, fun bytes text source hbytes hsome => ⟨_, _, rfl, rfl, ?_, Nat.min_le_right _ _, by rw [hbytes]⟩⟩
  have hpos := length_pos_of_ne_nil hsome
  dsimp only
  omega

/-- An array with a string that has an escape. -/
def sampleTree : Nodes := (Call.add (some 0) (some 1)).run ((Call.makeString [97, 10]).run (Call.makeArray.run {}))

theorem write_agrees_with_encode_sample :
    ∃ text data', write pairSink sampleTree [] (some 0) = ({ transferred := text.length, status := .Complete }, data') ∧
      data' = [] ++ text ∧ ∀ w room bytes, encode w room sampleTree (some 0) = .ok bytes → bytes = text := by
  have hreachable : Reachable sampleTree := by
    refine .call _ (.call _ (.call _ (.start rfl) trivial) trivial) ⟨fun p hp => ?_, fun c hc => ?_⟩
    · cases hp
      decide
    · cases hc
      decide
  have hused : 0 < sampleTree.used := by decide
  obtain ⟨key, tree, htree⟩ := hreachable.holdTree hused
  obtain ⟨text, data', hwrite, htaken, hencode⟩ :=
    write_agrees_with_encode htree (by decide) pairSink_accepts (show ([] : List UInt8) = [] from rfl)
  exact ⟨text, data', hwrite, htaken, fun w room => (hencode w room).1⟩

end Dyn.Json
