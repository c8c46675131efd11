import Dyn.Lib.BinarySearch

/-!
# src/module_rewrite.c, src/source.c

Edits of a source and its spans, sources merged into one text, and the way back from a position
of the merged text to a file.

Texts are lists of bytes.  What decides whether a source is enabled for the target, whether it
uses reflection, and whether edited and merged texts parse within the work budget, is the
`Frontend`: it makes no difference to spans.  A text of more than `UINT32_MAX` bytes is refused
by both ways to get a tree for it.
-/

namespace Dyn.Source

open Lib

def uint32Max : Nat := 2 ^ 32 - 1
def dynMaxModuleBytes : Nat := 256 * 1024 * 1024

structure DynSourceSpan where
  generatedStart : Nat
  generatedEnd : Nat
  originalStart : Nat
  originalEnd : Nat
deriving DecidableEq, Repr

structure DynSourceMap where
  path : String
  start : Nat
  stop : Nat
  originalText : List UInt8
  spans : List DynSourceSpan
deriving DecidableEq, Repr

structure DynSource where
  path : String
  text : List UInt8
  originalText : Option (List UInt8) := none
  spans : List DynSourceSpan := []
  maps : List DynSourceMap := []
deriving DecidableEq, Repr

structure Edit where
  start : Nat
  stop : Nat
  text : List UInt8
deriving DecidableEq, Repr

/-- What the rest of the front end answers. -/
structure Frontend where
  targetEnabled : DynSource → Int
  reflection : DynSource → Bool
  prepareEdited : DynSource → List Edit → List UInt8 → Bool
  prepareMerged : List DynSource → Bool

/-- The original offset of a position in a span.  `size_t` has 64 bits. -/
def DynSourceSpan.offset (p : DynSourceSpan) (position : Nat) : Nat :=
  p.originalStart +
    if p.generatedEnd - p.generatedStart ≠ 0 then
      (position - p.generatedStart) * (p.originalEnd - p.originalStart) % 2 ^ 64 /
        (p.generatedEnd - p.generatedStart)
    else 0

/-- The first span that ends at or behind the position. -/
def firstSpan (spans : List DynSourceSpan) (position : Nat) : Nat :=
  lowerBound (fun p => decide (p.generatedEnd < position)) spans

def originalOffset (s : DynSource) (offset : Nat) : Nat :=
  match s.spans[firstSpan s.spans offset]? with
  | some p => if p.generatedStart ≤ offset ∧ offset ≤ p.generatedEnd then p.offset offset else offset
  | none => offset

def editCompare (x y : Edit) : Int :=
  if x.start ≠ y.start then (if x.start < y.start then -1 else 1)
  else if x.stop < y.stop then -1
  else if x.stop > y.stop then 1
  else 0

def sortEdits (edits : List Edit) : List Edit :=
  edits.insertionSort fun x y => editCompare x y ≤ 0

def uniqueLoop : Option Edit → List Edit → Option (List Edit)
  | _, [] => some []
  | none, e :: rest => (uniqueLoop (some e) rest).map (e :: ·)
  | some last, e :: rest =>
      if last.start = e.start ∧ last.stop = e.stop then
        if last.text = e.text then uniqueLoop (some last) rest else none
      else (uniqueLoop (some e) rest).map (e :: ·)

def disjoint : Nat → List Edit → Bool
  | _, [] => true
  | previous, e :: rest => decide (previous ≤ e.start) && disjoint e.stop rest

def addSpan (out : List DynSourceSpan) (gs ge os oe : Nat) : List DynSourceSpan :=
  if ge = gs ∧ oe = os then out else out ++ [⟨gs, ge, os, oe⟩]

/-- The cursor passes the spans that end before the text to copy. -/
def cursorLoop (lo : Nat) : List DynSourceSpan → Nat → Nat
  | [], cursor => cursor
  | p :: rest, cursor => if p.generatedEnd ≤ lo then cursorLoop lo rest (cursor + 1) else cursor

def copyLoop (s : DynSource) (lo hi pos : Nat) : List DynSourceSpan → List DynSourceSpan →
    List DynSourceSpan
  | [], out => out
  | p :: rest, out =>
      if p.generatedStart ≥ hi then out
      else
        let a := if lo > p.generatedStart then lo else p.generatedStart
        let b := if hi < p.generatedEnd then hi else p.generatedEnd
        if a ≥ b then copyLoop s lo hi pos rest out
        else copyLoop s lo hi pos rest
          (addSpan out (pos + (a - lo)) (pos + (b - lo)) (originalOffset s a) (originalOffset s b))

/-- The spans of the text from `lo` to `hi`, which is copied to `pos`, and the cursor. -/
def copySpans (s : DynSource) (out : List DynSourceSpan) (cursor lo hi pos : Nat) :
    List DynSourceSpan × Nat :=
  let cursor := cursorLoop lo (s.spans.drop cursor) cursor
  (copyLoop s lo hi pos (s.spans.drop cursor) out, cursor)

/-- What has been written when the input has been read up to `input`. -/
structure Output where
  text : List UInt8 := []
  spans : List DynSourceSpan := []
  cursor : Nat := 0
  input : Nat := 0
  pos : Nat := 0

def copyText (s : DynSource) (out : Output) (hi : Nat) : Output :=
  let copied := copySpans s out.spans out.cursor out.input hi out.pos
  { text := out.text ++ (s.text.drop out.input).take (hi - out.input)
    spans := copied.1
    cursor := copied.2
    input := hi
    pos := out.pos + (hi - out.input) }

def applyEdit (s : DynSource) (out : Output) (e : Edit) : Output :=
  let out := copyText s out e.start
  { out with
    text := out.text ++ e.text
    spans := addSpan out.spans out.pos (out.pos + e.text.length)
      (originalOffset s e.start) (originalOffset s e.stop)
    input := e.stop
    pos := out.pos + e.text.length }

/-- The first edit keeps the original text. -/
def keepOriginal (s : DynSource) : DynSource :=
  match s.originalText with
  | some _ => s
  | none => { s with originalText := some s.text, spans := [⟨0, s.text.length, 0, s.text.length⟩] }

def applyEdits (front : Frontend) (s : DynSource) (edits : List Edit) : Option DynSource :=
  if edits = [] then some s
  else do
    let edits ← uniqueLoop none (sortEdits edits)
    if disjoint 0 edits then
      let s := keepOriginal s
      let out := copyText s (edits.foldl (applyEdit s) {}) s.text.length
      if out.text.length ≤ uint32Max ∧ front.prepareEdited s edits out.text then
        some { s with text := out.text, spans := out.spans }
      else none
    else none

def reflectionPrelude : List UInt8 :=
  ("enum TypeKind \x7b Invalid, Void, Bool, Integer, Float, Pointer, Array, " ++
    "Slice, Struct, Enum, Function \x7d\n" ++
    "struct TypeMember \x7b name: []const u8, type_id: u64 \x7d\n" ++
    "struct TypeInfo \x7b id: u64, kind: " ++
    "TypeKind, name: []const u8, size: usize, alignment: usize, " ++
    "element_id: u64, length: usize, member_count: usize, " ++
    "parameter_count: usize, result_id: u64, fields: []const TypeMember, " ++
    "variants: []const TypeMember, arguments: []const TypeMember \x7d\n").toUTF8.toList

/-- The loop over the sources that adds up their lengths. -/
def totalLoop (front : Frontend) : List DynSource → Nat → Bool → Except Int (Nat × Bool)
  | [], total, reflection => .ok (total, reflection)
  | s :: rest, total, reflection =>
      if front.targetEnabled s < 0 then .error 1
      else if front.targetEnabled s = 0 then totalLoop front rest total reflection
      else if 2 ^ 64 - 1 - total < s.text.length + 1 then .error 2
      else if total + (s.text.length + 1) > dynMaxModuleBytes then .error 1
      else totalLoop front rest (total + (s.text.length + 1)) (reflection || front.reflection s)

/-- An enabled source behind the text merged so far. -/
def mergeSource (out : DynSource) (s : DynSource) : DynSource :=
  { out with
    text := out.text ++ s.text ++ [10]
    maps := out.maps ++ [⟨s.path, out.text.length, out.text.length + s.text.length,
      s.originalText.getD s.text, s.spans⟩] }

def sourcesMerge (front : Frontend) (sources : List DynSource) (moduleName : Option String) :
    Except Int DynSource := do
  let (total, reflection) ← totalLoop front sources 0 false
  let prelude := if reflection then reflectionPrelude else []
  if 2 ^ 64 - 1 - total < prelude.length then .error 2
  else
    let enabled := sources.filter fun s => front.targetEnabled s ≠ 0
    let out : DynSource := { path := moduleName.getD "<module>", text := prelude }
    if front.prepareMerged enabled then .ok (enabled.foldl mergeSource out) else .error 2

/-- Original offset of `pos` inside the first span that contains it, if any. -/
def sourceSpanOffset (spans : List DynSourceSpan) (pos : Nat) : Option Nat :=
  match spans[firstSpan spans pos]? with
  | some p => if pos < p.generatedStart then none else some (p.offset pos)
  | none => none

structure Position where
  path : String
  original : List UInt8
  originalOffset : Nat
deriving DecidableEq, Repr

/-- The first map that ends at or behind the byte. -/
def firstMap (maps : List DynSourceMap) (byte : Nat) : Nat :=
  lowerBound (fun m => decide (m.stop < byte)) maps

def sourcePosition (s : DynSource) (byte : Nat) : Position :=
  let text := s.originalText.getD s.text
  match s.maps[firstMap s.maps byte]? with
  | some m =>
      if m.start ≤ byte then
        ⟨m.path, m.originalText, (sourceSpanOffset m.spans (byte - m.start)).getD (byte - m.start)⟩
      else ⟨s.path, text, byte⟩
  | none =>
      if s.maps = [] ∧ s.spans ≠ [] then ⟨s.path, text, (sourceSpanOffset s.spans byte).getD byte⟩
      else ⟨s.path, text, byte⟩

end Dyn.Source
