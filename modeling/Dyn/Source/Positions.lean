import Dyn.Source.Rewriting

/-!
# Positions of merged sources

A source keeps its spans along its trace in every sequence of edits (`Edited.mapped`), and a merged
source finds the map of each byte, so that a position leads back to the byte that was copied, or
into the range that was replaced.

Edits that replace text by nothing are excluded: the span of a deletion has no generated text, a
later edit drops it, and the span behind it takes its original range over.
-/

namespace Dyn.Source

open Lib List

def DynSource.original (s : DynSource) : List UInt8 := s.originalText.getD s.text

structure Mapped (s : DynSource) (t : Trace) : Prop where
  text : s.text = t.map Prod.fst
  ordered : t.Ordered
  text_le : s.text.length ≤ uint32Max
  original_le : s.original.length ≤ uint32Max
  copied : ∀ x ∈ t, ∀ o, x.2 = .copied o → s.original[o]? = some x.1
  spans : s.originalText = none ∧ s.spans = [] ∧ t = loadedTrace s.text ∨
    s.originalText.isSome ∧ s.spans ≠ [] ∧
      ∃ L, Traced 0 0 0 s.spans t s.text.length s.original.length L

variable {i : Nat}

theorem loadedTrace_getElem? {text : List UInt8} :
    (loadedTrace text)[i]? = text[i]?.map fun byte => (byte, .copied i) :=
  getElem?_mapIdx

variable (text : List UInt8) {s : DynSource} {sources : List DynSource}

theorem loadedTrace_length : (loadedTrace text).length = text.length :=
  length_mapIdx

theorem loadedTrace_text : (loadedTrace text).map Prod.fst = text := by
  refine ext_getElem? fun i => ?_
  rw [getElem?_map, loadedTrace_getElem?, Option.map_map]
  exact Option.map_id'

theorem loadedTrace_ordered : (loadedTrace text).Ordered := by
  refine pairwise_iff_getElem.mpr fun i j hi hj hij => ?_
  simp only [loadedTrace, getElem_mapIdx]
  exact Nat.succ_le_succ hij.le

theorem loadedTrace_traced :
    ∃ L, Traced 0 0 0 [⟨0, text.length, 0, text.length⟩] (loadedTrace text) text.length text.length L := by
  have hpiece : PieceOf 0 0 text.length (loadedTrace text) := by
    refine .inl ⟨(loadedTrace_length text).symm, fun i x hx => ?_⟩
    rw [loadedTrace_getElem?] at hx
    obtain ⟨byte, -, rfl⟩ := Option.map_eq_some_iff.mp hx
    rw [zero_add]
  have htraced := Traced.piece (g := 0) hpiece (.nil _ _ _)
  rw [append_nil, zero_add, zero_add, loadedTrace_length] at htraced
  exact ⟨_, htraced⟩

theorem mapped_loaded (horiginal : s.originalText = none) (hspans : s.spans = [])
    (hlength : s.text.length ≤ uint32Max) : Mapped s (loadedTrace s.text) := by
  have heq : s.original = s.text := by rw [DynSource.original, horiginal, Option.getD_none]
  refine ⟨(loadedTrace_text _).symm, loadedTrace_ordered _, hlength, by rwa [heq], ?_, .inl ⟨horiginal, hspans, rfl⟩⟩
  intro x hx o ho
  obtain ⟨i, hi⟩ := mem_iff_getElem?.mp hx
  rw [loadedTrace_getElem?] at hi
  obtain ⟨byte, hbyte, rfl⟩ := Option.map_eq_some_iff.mp hi
  cases ho
  rw [heq, hbyte]

variable {t : Trace} {front : Frontend}

theorem Mapped.keepOriginal (h : Mapped s t) :
    (keepOriginal s).text = s.text ∧ (keepOriginal s).originalText = some s.original ∧
    (keepOriginal s).spans ≠ [] ∧
      ∃ L, Traced 0 0 0 (keepOriginal s).spans t s.text.length s.original.length L := by
  obtain ⟨hnone, hspans, rfl⟩ | ⟨hsome, hspans, htraced⟩ := h.spans
  · rw [Source.keepOriginal, hnone, DynSource.original, hnone]
    exact ⟨rfl, rfl, cons_ne_nil _ _, loadedTrace_traced _⟩
  obtain ⟨original, horiginal⟩ := Option.isSome_iff_exists.mp hsome
  have heq : s.original = original := by rw [DynSource.original, horiginal, Option.getD_some]
  rw [Source.keepOriginal, horiginal, heq]
  exact ⟨rfl, horiginal, hspans, heq ▸ htraced⟩

section Sorted

variable {G : Nat} {edits : List Edit}

theorem sortEdits_eq (h : SortedDisjoint edits) (hvalid : Valid G edits) : sortEdits edits = edits := by
  refine List.Pairwise.insertionSort_eq (List.Pairwise.imp_of_mem (fun {x y} hx _ hxy => ?_) h)
  have hle := (hvalid x hx).1
  rw [editCompare]
  split_ifs <;> omega

theorem uniqueLoop_eq (h : SortedDisjoint edits) (hvalid : Valid G edits) (last : Option Edit)
    (hlast : ∀ l ∈ last, ∀ e ∈ edits, ¬ (l.start = e.start ∧ l.stop = e.stop)) :
    uniqueLoop last edits = some edits := by
  induction edits generalizing last with
  | nil => cases last <;> rfl
  | cons e rest ih =>
    obtain ⟨hhead, hrest⟩ := pairwise_cons.mp h
    obtain ⟨-, hvalid⟩ := forall_mem_cons.mp hvalid
    have hrec := ih hrest hvalid (some e) fun l hl e' he' hc => by
      cases hl
      have hne := (hhead e' he').2
      omega
    cases last with
    | none => rw [uniqueLoop, hrec, Option.map_some]
    | some l => rw [uniqueLoop, if_neg (hlast l rfl e mem_cons_self), hrec, Option.map_some]

variable {t : Trace} {O : Nat}

theorem splice_origin (input : Nat) {x : UInt8 × Origin} (hx : x ∈ splice t O edits input) :
    x ∈ t ∨ ∃ lo hi, x.2 = .replaced lo hi := by
  induction edits generalizing input with
  | nil => exact .inl (mem_of_mem_drop hx)
  | cons e rest ih =>
    rw [splice] at hx
    rcases mem_append.mp hx with hx | hx
    · rcases mem_append.mp hx with hx | hx
      · exact .inl (mem_of_mem_drop (mem_of_mem_take hx))
      · obtain ⟨byte, -, rfl⟩ := mem_map.mp hx
        exact .inr ⟨_, _, rfl⟩
    · exact ih _ hx

theorem splice_ne_nil (hedits : edits ≠ []) (hvalid : Valid G edits) (input : Nat) :
    splice t O edits input ≠ [] := by
  cases edits with
  | nil => exact absurd rfl hedits
  | cons e rest =>
    have hne := (hvalid e mem_cons_self).2.2
    rw [splice]
    exact append_ne_nil_of_left_ne_nil
      (append_ne_nil_of_right_ne_nil _ (fun hc => hne (map_eq_nil_iff.mp hc))) _

theorem Traced.trace_nil {g o l G' L : Nat} (h : Traced g o l [] t G' O L) : t = [] := by
  cases h
  rfl

end Sorted

theorem Mapped.applyEdits {s s' : DynSource} {edits : List Edit} (h : Mapped s t)
    (hsorted : SortedDisjoint edits) (hvalid : Valid s.text.length edits)
    (happly : applyEdits front s edits = some s') :
    Mapped s' (splice t s.original.length edits 0) := by
  rw [Source.applyEdits] at happly
  split_ifs at happly with hnil
  · cases happly
    rw [hnil]
    exact h
  rw [sortEdits_eq hsorted hvalid, uniqueLoop_eq hsorted hvalid none nofun] at happly
  simp only [Option.bind_eq_bind, Option.bind_some] at happly
  split_ifs at happly with hdisjoint hprepared
  obtain ⟨hktext, hkoriginal, hkspans, L, hall⟩ := h.keepOriginal
  generalize Source.keepOriginal s = k at *
  cases happly
  have htext : k.text = t.map Prod.fst := by rw [hktext, h.text]
  rw [← hktext] at hall
  have hstart : Written k t {} [] := by
    refine ⟨rfl, ?_, fun p hp => ?_⟩
    · rw [hall.value_start hkspans]
      exact .nil _ _ _
    · rw [take_zero] at hp
      cases hp
  have hfirst : ∀ e ∈ edits, 0 ≤ e.start := fun e _ => Nat.zero_le _
  have hwritten := edits_written hall (by rw [hktext]; exact h.text_le) h.original_le hkspans htext h.ordered
    hsorted (by rw [hktext]; exact hvalid) hstart (Nat.zero_le _) hfirst
  rw [nil_append] at hwritten
  have hlength : s.text.length = t.length := by rw [h.text, length_map]
  have hsplice := splice_ordered h.ordered s.original.length hsorted (by rw [← hlength]; exact hvalid) hfirst
  have htraced := hwritten.traced
  have hinput : (copyText k (edits.foldl (applyEdit k) {}) k.text.length).input = k.text.length := rfl
  rw [hinput, hall.value_end hkspans] at htraced
  have hbounds := htraced.bounds.1
  rw [zero_add] at hbounds
  generalize copyText k (edits.foldl (applyEdit k) {}) k.text.length = out at *
  have hpos : out.pos = out.text.length := by rw [hbounds, hwritten.text, length_map]
  have hsame : ∀ (text : List UInt8) (spans : List DynSourceSpan),
      DynSource.original { k with text := text, spans := spans } = s.original := by
    intro text spans
    rw [DynSource.original]
    rw [hkoriginal, Option.getD_some]
  constructor
  case text => exact hwritten.text
  case ordered => exact hsplice.1
  case text_le => exact hprepared.1
  case original_le =>
    rw [hsame]
    exact h.original_le
  case copied =>
    intro x hx o ho
    rw [hsame]
    obtain hx | ⟨lo, hi, hrepl⟩ := splice_origin 0 hx
    · exact h.copied x hx o ho
    · rw [hrepl] at ho
      cases ho
  case spans =>
    rw [hsame]
    refine .inr ⟨by rw [hkoriginal]; rfl, ?_, _, hpos ▸ htraced⟩
    intro hempty
    dsimp only at hempty
    rw [hempty] at htraced
    exact splice_ne_nil hnil hvalid 0 htraced.trace_nil

/-- What edits of the rewriter do: they put a name in the place of what they replace. -/
def Edit.Replaces (e : Edit) : Prop := e.text ≠ []

theorem Edited.mapped {front : Frontend} {s : DynSource} {t : Trace} (h : Edited front Edit.Replaces s t) :
    Mapped s t := by
  induction h with
  | loaded horiginal hspans hlength => exact mapped_loaded horiginal hspans hlength
  | edit h hsorted hvalid happly ih => exact ih.applyEdits hsorted hvalid happly

theorem Mapped.chain (h : Mapped s t) (hspans : s.spans ≠ []) :
    Chain 0 0 s.spans s.text.length s.original.length := by
  obtain ⟨-, hnil, -⟩ | ⟨-, -, L, htraced⟩ := h.spans
  · exact absurd hnil hspans
  · exact htraced.chain

/-- The offset that a source gives a position of its text. -/
def DynSource.offset (s : DynSource) (pos : Nat) : Nat := (sourceSpanOffset s.spans pos).getD pos

theorem sourceSpanOffset_nil (pos : Nat) : sourceSpanOffset [] pos = none := rfl

theorem Mapped.offset_le (h : Mapped s t) {pos : Nat} (hpos : pos ≤ s.text.length) :
    s.offset pos ≤ s.original.length := by
  rw [DynSource.offset]
  obtain ⟨hnone, hnil, -⟩ | ⟨-, hne, L, htraced⟩ := h.spans
  · rw [hnil, sourceSpanOffset_nil, Option.getD_none, DynSource.original, hnone, Option.getD_none]
    exact hpos
  · rw [htraced.sourceSpanOffset h.text_le h.original_le hne hpos, Option.getD_some]
    exact (htraced.le_value (Nat.zero_le pos) hpos hne).2

theorem Mapped.locates (h : Mapped s t) {x : UInt8 × Origin} (hx : t[i]? = some x) :
    ∃ next, s.offset i ≤ next ∧ x.2.Locates (s.offset i) next := by
  have hi : i < s.text.length := by
    rw [h.text, length_map]
    exact (List.getElem?_eq_some_iff.mp hx).1
  rw [DynSource.offset]
  obtain ⟨hnone, hnil, rfl⟩ | ⟨-, hne, L, htraced⟩ := h.spans
  · rw [loadedTrace_getElem?] at hx
    obtain ⟨byte, -, rfl⟩ := Option.map_eq_some_iff.mp hx
    rw [hnil, sourceSpanOffset_nil]
    exact ⟨i + 1, Nat.le_succ i, rfl, rfl⟩
  rw [htraced.sourceSpanOffset h.text_le h.original_le hne hi.le, Option.getD_some]
  have hlocates := htraced.locates hx
  rw [Nat.zero_add] at hlocates
  exact ⟨_, htraced.value_mono (Nat.zero_le i) (Nat.le_succ i) hi, hlocates⟩

/-- The position lies in the span, ends included. -/
def DynSourceSpan.contains (p : DynSourceSpan) (pos : Nat) : Bool :=
  decide (p.generatedStart ≤ pos ∧ pos ≤ p.generatedEnd)

def DynSourceMap.contains (m : DynSourceMap) (byte : Nat) : Bool := decide (m.start ≤ byte ∧ byte ≤ m.stop)

/-- **The search among spans** is a scan for the first one that contains the position. -/
theorem sourceSpanOffset_eq_find {g o G O : Nat} {spans : List DynSourceSpan} (h : Chain g o spans G O)
    (pos : Nat) : sourceSpanOffset spans pos = (spans.find? (·.contains pos)).map (·.offset pos) := by
  have hstarts : spans.Pairwise fun p q => p.generatedStart ≤ q.generatedStart :=
    List.Pairwise.imp_of_mem (fun {p q} hp hq hpq => (h.le_end p hp).2.trans hpq.1) h.ascending
  have hfind := find?_contains DynSourceSpan.generatedStart DynSourceSpan.generatedEnd hstarts pos
  change spans.find? (·.contains pos) = _ at hfind
  rw [sourceSpanOffset, h.firstSpan, hfind]
  cases spans.find? fun p => !decide (p.generatedEnd < pos) with
  | none => rfl
  | some p =>
    dsimp only
    rw [Option.filter_some]
    split_ifs with hlt hle hle
    · exact absurd (of_decide_eq_true hle) (Nat.not_le.mpr hlt)
    · rfl
    · rfl
    · exact absurd (decide_eq_true (Nat.not_lt.mp hlt)) hle

theorem originalOffset_eq_find {g o G O : Nat} (h : Chain g o s.spans G O) (pos : Nat) :
    originalOffset s pos = ((s.spans.find? (·.contains pos)).map (·.offset pos)).getD pos := by
  rw [← sourceSpanOffset_eq_find h, originalOffset, sourceSpanOffset, h.firstSpan]
  cases hfind : s.spans.find? fun p => !decide (p.generatedEnd < pos) with
  | none => rfl
  | some p =>
    have hend : pos ≤ p.generatedEnd := by simpa using find?_some hfind
    dsimp only
    by_cases hstart : p.generatedStart ≤ pos
    · rw [if_pos ⟨hstart, hend⟩, if_neg (Nat.not_lt.mpr hstart), Option.getD_some]
    · rw [if_neg fun hc => hstart hc.1, if_pos (Nat.not_le.mp hstart), Option.getD_none]

/-- The text of sources that follow each other. -/
def joined (sources : List DynSource) : List UInt8 := (sources.map fun s => s.text ++ [10]).flatten

/-- The maps of sources that follow each other. -/
def mapsFrom : Nat → List DynSource → List DynSourceMap
  | _, [] => []
  | start, s :: rest =>
      ⟨s.path, start, start + s.text.length, s.original, s.spans⟩ :: mapsFrom (start + s.text.length + 1) rest

theorem foldl_mergeSource (sources : List DynSource) (out : DynSource) :
    sources.foldl mergeSource out =
      { out with text := out.text ++ joined sources, maps := out.maps ++ mapsFrom out.text.length sources } := by
  induction sources generalizing out with
  | nil => simp only [foldl_nil, joined, map_nil, flatten_nil, mapsFrom, append_nil]
  | cons s rest ih =>
    rw [foldl_cons, ih, mergeSource, mapsFrom, joined, joined, map_cons, flatten_cons]
    rw [length_append, length_append, length_singleton]
    simp only [append_assoc, singleton_append]
    rfl

theorem sourcesMerge_eq {moduleName : Option String} {merged : DynSource}
    (h : sourcesMerge front sources moduleName = .ok merged) :
    ∃ lead, (lead = [] ∨ lead = reflectionPrelude) ∧
      merged = { path := moduleName.getD "<module>",
                 text := lead ++ joined (sources.filter fun s => front.targetEnabled s ≠ 0),
                 maps := mapsFrom lead.length (sources.filter fun s => front.targetEnabled s ≠ 0) } := by
  rw [sourcesMerge] at h
  cases htotal : totalLoop front sources 0 false with
  | error code =>
    rw [htotal] at h
    cases h
  | ok value =>
    rw [htotal] at h
    simp only [bind, Except.bind] at h
    split_ifs at h with hreflection hlead hprepare hlead hprepare
    · refine ⟨_, .inr rfl, ?_⟩
      rw [foldl_mergeSource] at h
      exact (Except.ok.inj h).symm
    refine ⟨_, .inl rfl, ?_⟩
    rw [foldl_mergeSource] at h
    exact (Except.ok.inj h).symm

theorem mapsFrom_ascending (start : Nat) (sources : List DynSource) :
    (mapsFrom start sources).Pairwise (fun m m' => m.start ≤ m'.start ∧ m.stop ≤ m'.stop) ∧
      ∀ m ∈ mapsFrom start sources, start ≤ m.start ∧ m.start ≤ m.stop := by
  induction sources generalizing start with
  | nil => exact ⟨.nil, nofun⟩
  | cons s rest ih =>
    obtain ⟨hpairwise, hstart⟩ := ih (start + s.text.length + 1)
    constructor
    · refine .cons (fun m hm => ?_) hpairwise
      have hle := hstart m hm
      dsimp only
      omega
    intro m hm
    rcases mem_cons.mp hm with rfl | hm
    · exact ⟨le_rfl, Nat.le_add_right _ _⟩
    · have hle := hstart m hm
      omega

/-- **The search among maps** is a scan for the first one that contains the byte. -/
theorem sourcePosition_eq_find (horiginal : s.originalText = none) (hspans : s.spans = [])
    {start : Nat} (hmaps : s.maps = mapsFrom start sources) (byte : Nat) :
    sourcePosition s byte =
      match s.maps.find? (·.contains byte) with
      | some m => ⟨m.path, m.originalText, (sourceSpanOffset m.spans (byte - m.start)).getD (byte - m.start)⟩
      | none => ⟨s.path, s.text, byte⟩ := by
  obtain ⟨hpairwise, -⟩ := mapsFrom_ascending start sources
  rw [← hmaps] at hpairwise
  have hsearch : s.maps[firstMap s.maps byte]? = s.maps.find? fun m => !decide (m.stop < byte) :=
    getElem?_lowerBound (hpairwise.imp fun hm hlt => decide_eq_true (hm.2.trans_lt (of_decide_eq_true hlt)))
  have hfind := find?_contains DynSourceMap.start DynSourceMap.stop (hpairwise.imp And.left) byte
  change s.maps.find? (·.contains byte) = _ at hfind
  rw [sourcePosition, hsearch, hfind, horiginal, hspans, Option.getD_none]
  cases s.maps.find? fun m => !decide (m.stop < byte) with
  | none =>
    rw [if_neg fun hc => hc.2 rfl, Option.filter_none]
  | some m =>
    dsimp only
    rw [Option.filter_some]
    by_cases hle : m.start ≤ byte
    · rw [if_pos hle, if_pos (decide_eq_true hle)]
    · rw [if_neg hle, if_neg (by simpa using hle)]

theorem find_mapsFrom (start : Nat) (before : List DynSource) (s : DynSource)
    (after : List DynSource) (hi : i ≤ s.text.length) :
    (mapsFrom start (before ++ s :: after)).find? (·.contains (start + (joined before).length + i)) =
      some ⟨s.path, start + (joined before).length, start + (joined before).length + s.text.length,
        s.original, s.spans⟩ := by
  induction before generalizing start with
  | nil =>
    rw [nil_append, mapsFrom, joined, map_nil, flatten_nil, length_nil, add_zero]
    refine find?_cons_of_pos ?_
    exact decide_eq_true ⟨Nat.le_add_right _ _, Nat.add_le_add_left hi _⟩
  | cons b before ih =>
    have hlength : start + (joined (b :: before)).length =
        start + b.text.length + 1 + (joined before).length := by
      rw [joined, joined, map_cons, flatten_cons, length_append, length_append, length_singleton]
      omega
    rw [hlength, cons_append, mapsFrom, find?_cons_of_neg, ih]
    simp only [DynSourceMap.contains, decide_eq_true_eq]
    omega

theorem mem_mapsFrom {start : Nat} {m : DynSourceMap} (hm : m ∈ mapsFrom start sources) :
    ∃ s ∈ sources, m.stop = m.start + s.text.length ∧ m.originalText = s.original ∧ m.spans = s.spans := by
  induction sources generalizing start with
  | nil => cases hm
  | cons s rest ih =>
    rcases mem_cons.mp hm with rfl | hm
    · exact ⟨s, mem_cons_self, rfl, rfl, rfl⟩
    · obtain ⟨s', hs', heq⟩ := ih hm
      exact ⟨s', mem_cons_of_mem _ hs', heq⟩

/-- A position of the text of a source, among texts that follow each other. -/
theorem joined_getElem? {lead : List UInt8} {before : List DynSource} {after : List DynSource}
    (hi : i < s.text.length) :
    (lead ++ joined (before ++ s :: after))[lead.length + (joined before).length + i]? = s.text[i]? := by
  have hjoined : joined (before ++ s :: after) = joined before ++ (s.text ++ ([10] ++ joined after)) := by
    rw [joined, joined, joined, map_append, flatten_append, map_cons, flatten_cons, append_assoc]
  rw [hjoined, add_assoc, getElem?_append_right (Nat.le_add_right _ _), Nat.add_sub_cancel_left,
    getElem?_append_right (Nat.le_add_right _ _), Nat.add_sub_cancel_left, getElem?_append_left hi]

/-- **Diagnostics map back to the original text**: the spans of every source are one chain through its
text and its original text, a copied byte of the merged text leads back to the byte it was copied
from, a byte of a replacement leads into the range replaced, and the searches find what scans
find. -/
theorem diagnostics_map_back {front : Frontend} {sources : List DynSource} {moduleName : Option String}
    {merged : DynSource} (hsources : ∀ s ∈ sources, ∃ t, Edited front Edit.Replaces s t)
    (hmerge : sourcesMerge front sources moduleName = .ok merged) :
    (∀ s ∈ sources, s.spans ≠ [] → Chain 0 0 s.spans s.text.length s.original.length) ∧
    (∃ lead, (lead = [] ∨ lead = reflectionPrelude) ∧
      merged.text = lead ++ joined (sources.filter fun s => front.targetEnabled s ≠ 0) ∧
      ∀ before s after, (sources.filter fun s => front.targetEnabled s ≠ 0) = before ++ s :: after →
        ∀ t, Edited front Edit.Replaces s t → ∀ (i : Nat) (x : UInt8 × Origin), t[i]? = some x →
          ∃ offset, merged.text[lead.length + (joined before).length + i]? = some x.1 ∧
            sourcePosition merged (lead.length + (joined before).length + i) = ⟨s.path, s.original, offset⟩ ∧
            (∀ o, x.2 = .copied o → offset = o ∧ s.original[o]? = some x.1) ∧
            ∀ lo hi, x.2 = .replaced lo hi → lo ≤ offset ∧ offset ≤ hi ∧ (lo < hi → offset < hi)) ∧
    (∀ byte, byte ≤ merged.text.length →
      (sourcePosition merged byte).originalOffset ≤ (sourcePosition merged byte).original.length) ∧
    (∀ s ∈ sources, ∀ pos,
      sourceSpanOffset s.spans pos = (s.spans.find? (·.contains pos)).map (·.offset pos) ∧
      originalOffset s pos = ((s.spans.find? (·.contains pos)).map (·.offset pos)).getD pos) ∧
    ∀ byte, sourcePosition merged byte =
      match merged.maps.find? (·.contains byte) with
      | some m => ⟨m.path, m.originalText, (sourceSpanOffset m.spans (byte - m.start)).getD (byte - m.start)⟩
      | none => ⟨merged.path, merged.text, byte⟩ := by
  obtain ⟨lead, hlead, rfl⟩ := sourcesMerge_eq hmerge
  have hchain : ∀ s ∈ sources, s.spans ≠ [] → Chain 0 0 s.spans s.text.length s.original.length :=
    fun s hs => (hsources s hs).choose_spec.mapped.chain
  have hscan := sourcePosition_eq_find (s := ⟨moduleName.getD "<module>",
    lead ++ joined (sources.filter fun s => front.targetEnabled s ≠ 0), none, [],
    mapsFrom lead.length (sources.filter fun s => front.targetEnabled s ≠ 0)⟩) rfl rfl rfl
  refine ⟨hchain, ⟨lead, hlead, rfl, ?_⟩, ?_, ?_, hscan⟩
  · intro before s after hsplit t ht i x hx
    have hmapped := ht.mapped
    have hi : i < s.text.length := by
      rw [hmapped.text, length_map]
      exact (List.getElem?_eq_some_iff.mp hx).1
    obtain ⟨next, hnext, hlocates⟩ := hmapped.locates hx
    refine ⟨s.offset i, ?_, ?_, fun o ho => ?_, fun lo hi hor => ?_⟩
    · dsimp only
      rw [hsplit, joined_getElem? hi, hmapped.text, getElem?_map, hx, Option.map_some]
    · rw [hscan]
      dsimp only
      rw [hsplit, find_mapsFrom lead.length before s after hi.le]
      dsimp only
      rw [Nat.add_sub_cancel_left]
      rfl
    · rw [ho] at hlocates
      exact ⟨hlocates.1, hmapped.copied x (mem_of_getElem? hx) o ho⟩
    · rw [hor] at hlocates
      exact ⟨hlocates.1, hnext.trans hlocates.2.1, hlocates.2.2⟩
  · intro byte hbyte
    rw [hscan]
    cases hfind : (mapsFrom lead.length (sources.filter fun s => front.targetEnabled s ≠ 0)).find?
        (·.contains byte) with
    | none => exact hbyte
    | some m =>
      obtain ⟨s, hs, hstop, horiginal, hspans⟩ := mem_mapsFrom (mem_of_find?_eq_some hfind)
      have hcontains : m.contains byte = true := find?_some (p := fun x => DynSourceMap.contains x byte) hfind
      have hin := of_decide_eq_true hcontains
      dsimp only
      rw [horiginal, hspans]
      obtain ⟨t, ht⟩ := hsources s (mem_of_mem_filter hs)
      exact ht.mapped.offset_le (by omega)
  · intro s hs pos
    by_cases hspans : s.spans = []
    · rw [originalOffset, hspans]
      exact ⟨rfl, rfl⟩
    · exact ⟨sourceSpanOffset_eq_find (hchain s hs hspans) pos, originalOffset_eq_find (hchain s hs hspans) pos⟩

def permissive : Frontend := ⟨fun _ => 1, fun _ => false, fun _ _ _ => true, fun _ => true⟩

/-- The text `a+b`, in which the name `a` is made `dyn`. -/
def renamed : DynSource :=
  { path := "m", text := [100, 121, 110, 43, 98], originalText := some [97, 43, 98],
    spans := [⟨0, 3, 0, 1⟩, ⟨3, 5, 1, 3⟩] }

/-- After that `b` is made `xy`. -/
def renamedTwice : DynSource :=
  { path := "m", text := [100, 121, 110, 43, 120, 121], originalText := some [97, 43, 98],
    spans := [⟨0, 3, 0, 1⟩, ⟨3, 4, 1, 2⟩, ⟨4, 6, 2, 3⟩] }

/-- Merged with the text `b`: the byte `+`, the last one of the second name, and the other text. -/
theorem diagnostics_map_back_renamed : ∃ merged,
    sourcesMerge permissive [renamedTwice, { path := "n", text := [98] }] none = .ok merged ∧
      sourcePosition merged 3 = ⟨"m", [97, 43, 98], 1⟩ ∧ sourcePosition merged 5 = ⟨"m", [97, 43, 98], 2⟩ ∧
      sourcePosition merged 7 = ⟨"n", [98], 0⟩ := by
  have hloaded : ∀ path text, text.length ≤ 3 →
      Edited permissive Edit.Replaces { path := path, text := text } (loadedTrace text) :=
    fun _ _ hle => .loaded rfl rfl (hle.trans (by decide))
  have honce : Edited permissive Edit.Replaces renamed _ :=
    (hloaded "m" [97, 43, 98] le_rfl).edit (pairwise_singleton _ (⟨0, 1, [100, 121, 110]⟩ : Edit)) (fun e he => by
      obtain rfl := mem_singleton.mp he
      exact ⟨by decide, by decide, cons_ne_nil _ _⟩) (by decide +kernel)
  have htwice : Edited permissive Edit.Replaces renamedTwice _ :=
    honce.edit (pairwise_singleton _ (⟨4, 5, [120, 121]⟩ : Edit)) (fun e he => by
      obtain rfl := mem_singleton.mp he
      exact ⟨by decide, by decide, cons_ne_nil _ _⟩) (by decide +kernel)
  have hother := hloaded "n" [98] (by decide)
  obtain ⟨-, ⟨lead, -, htext, hbytes⟩, -⟩ := @diagnostics_map_back permissive
    [renamedTwice, { path := "n", text := [98] }] none _ (fun s hs => by
      rcases mem_cons.mp hs with rfl | hs
      · exact ⟨_, htwice⟩
      · obtain rfl := mem_singleton.mp hs
        exact ⟨_, hother⟩) rfl
  obtain rfl : lead = [] := by
    have hlength := congrArg length htext
    rw [length_append] at hlength
    change 9 = lead.length + 9 at hlength
    exact eq_nil_of_length_eq_zero (by omega)
  obtain ⟨o1, -, hplus, hcopied, -⟩ := hbytes [] renamedTwice _ rfl _ htwice 3 (43, .copied 1) rfl
  obtain ⟨o2, -, hname, -, hreplaced⟩ := hbytes [] renamedTwice _ rfl _ htwice 5 (121, .replaced 2 3) rfl
  obtain ⟨o3, -, htext', hcopied', -⟩ := hbytes [renamedTwice] _ [] rfl _ hother 0 (98, .copied 0) rfl
  obtain ⟨rfl, -⟩ := hcopied 1 rfl
  obtain ⟨hlow, -, hhigh⟩ := hreplaced 2 3 rfl
  obtain rfl : o2 = 2 := by omega
  obtain ⟨rfl, -⟩ := hcopied' 0 rfl
  exact ⟨_, rfl, hplus, hname, htext'⟩

/-- The text `abcdefghij` without `cde`, then with `J` for `j`: the byte `g` stands between bytes that
were copied with it, but it does not lead back to the seventh byte of the text. -/
theorem deletion_moves_copies : ∃ (s : DynSource) (t : Trace) (merged : DynSource),
    Edited permissive (fun _ => True) s t ∧ sourcesMerge permissive [s] none = .ok merged ∧
    t[2]? = some (102, .copied 5) ∧ t[3]? = some (103, .copied 6) ∧ t[4]? = some (104, .copied 7) ∧
    merged.text[3]? = some 103 ∧ (sourcePosition merged 3).originalOffset = 3 := by
  have hloaded : Edited permissive (fun _ => True)
      { path := "m", text := [97, 98, 99, 100, 101, 102, 103, 104, 105, 106] }
      (loadedTrace [97, 98, 99, 100, 101, 102, 103, 104, 105, 106]) := .loaded rfl rfl (by decide)
  have hdeleted : Edited permissive (fun _ => True)
      ⟨"m", [97, 98, 102, 103, 104, 105, 106], some [97, 98, 99, 100, 101, 102, 103, 104, 105, 106],
        [⟨0, 2, 0, 2⟩, ⟨2, 2, 2, 5⟩, ⟨2, 7, 5, 10⟩], []⟩ _ :=
    hloaded.edit (pairwise_singleton _ (⟨2, 5, []⟩ : Edit)) (fun e he => by
      obtain rfl := mem_singleton.mp he
      exact ⟨by decide, by decide, trivial⟩) (by decide +kernel)
  have hrenamed : Edited permissive (fun _ => True)
      ⟨"m", [97, 98, 102, 103, 104, 105, 74], some [97, 98, 99, 100, 101, 102, 103, 104, 105, 106],
        [⟨0, 2, 0, 2⟩, ⟨2, 6, 2, 9⟩, ⟨6, 7, 9, 10⟩], []⟩ _ :=
    hdeleted.edit (pairwise_singleton _ (⟨6, 7, [74]⟩ : Edit)) (fun e he => by
      obtain rfl := mem_singleton.mp he
      exact ⟨by decide, by decide, trivial⟩) (by decide +kernel)
  exact ⟨_, _, _, hrenamed, rfl, rfl, rfl, rfl, rfl, rfl⟩

end Dyn.Source
