import Dyn.Source.Traces

/-!
# Spans of edited sources

Edits keep the spans of a source along its trace.  The lemmas follow the loops: what
`copySpans` appends are the pieces of the text copied, and an edit appends one piece more.
The offsets at which pieces are cut are values of the spans there were before (`valueAt`).
-/

namespace Dyn.Source

open Lib List

theorem DynSourceSpan.offset_eq {p : DynSourceSpan} {x : Nat}
    (h : (x - p.generatedStart) * (p.originalEnd - p.originalStart) < 2 ^ 64) :
    p.offset x = p.originalStart +
      scaled (p.generatedEnd - p.generatedStart) (p.originalEnd - p.originalStart) (x - p.generatedStart) := by
  rw [DynSourceSpan.offset, scaled, Nat.mod_eq_of_lt h, ite_not]

section Offsets

variable {g o l G O L : Nat} {spans : List DynSourceSpan} {t : Trace}

theorem Traced.le_total (h : Traced g o l spans t G O L) {p : DynSourceSpan} (hp : p ∈ spans) :
    p.generatedEnd ≤ G ∧ p.originalEnd ≤ O := by
  induction h with
  | nil g o l => cases hp
  | piece hpiece h ih =>
    have hbounds := h.bounds
    rcases mem_cons.mp hp with rfl | hp
    · exact ⟨by dsimp only; omega, hbounds.2⟩
    · exact ih hp

theorem Traced.find (h : Traced g o l spans t G O L) {x : Nat} (hg : g ≤ x) (hG : x ≤ G) (hspans : spans ≠ []) :
    ∃ p ∈ spans, (spans.find? fun p => !decide (p.generatedEnd < x)) = some p ∧
      p.generatedStart ≤ x ∧ x ≤ p.generatedEnd := by
  induction h with
  | nil g o l => exact absurd rfl hspans
  | @piece g o l m G O L bytes t spans hpiece h ih =>
    rcases lt_or_ge (g + bytes.length) x with hx | hx
    · have hne : spans ≠ [] := by
        rintro rfl
        cases h
        omega
      obtain ⟨p, hp, hfind, hin⟩ := ih hx.le hG hne
      refine ⟨p, mem_cons_of_mem _ hp, ?_, hin⟩
      rw [find?_cons_of_neg (by simpa using hx)]
      exact hfind
    · refine ⟨_, mem_cons_self, ?_, hg, hx⟩
      rw [find?_cons_of_pos (by simpa using hx)]

end Offsets

section Total

variable {s : DynSource} {spans : List DynSourceSpan} {t : Trace} {G O L : Nat}

variable {x hi l : Nat} {rest : List DynSourceSpan} {i j : Nat} {written : Trace}

theorem Traced.offset_eq (h : Traced 0 0 0 spans t G O L) (hG : G ≤ uint32Max) (hO : O ≤ uint32Max)
    {p : DynSourceSpan} (hp : p ∈ spans) (hstart : p.generatedStart ≤ x) (hend : x ≤ p.generatedEnd) :
    p.offset x = valueAt spans x := by
  have hle := h.le_total hp
  rw [h.value_of_mem hp hstart hend]
  refine DynSourceSpan.offset_eq ?_
  unfold uint32Max at hG hO
  calc (x - p.generatedStart) * (p.originalEnd - p.originalStart)
      ≤ (2 ^ 32 - 1) * (2 ^ 32 - 1) := Nat.mul_le_mul (by omega) (by omega)
    _ < 2 ^ 64 := by norm_num

theorem Traced.originalOffset (h : Traced 0 0 0 s.spans t G O L) (hG : G ≤ uint32Max)
    (hO : O ≤ uint32Max) (hspans : s.spans ≠ []) (hx : x ≤ G) :
    originalOffset s x = valueAt s.spans x := by
  obtain ⟨p, hp, hfind, hstart, hend⟩ := h.find (Nat.zero_le x) hx hspans
  rw [Source.originalOffset, h.chain.firstSpan, hfind]
  dsimp only
  rw [if_pos ⟨hstart, hend⟩]
  exact h.offset_eq hG hO hp hstart hend

theorem Traced.sourceSpanOffset (h : Traced 0 0 0 spans t G O L) (hG : G ≤ uint32Max)
    (hO : O ≤ uint32Max) (hspans : spans ≠ []) (hx : x ≤ G) :
    sourceSpanOffset spans x = some (valueAt spans x) := by
  obtain ⟨p, hp, hfind, hstart, hend⟩ := h.find (Nat.zero_le x) hx hspans
  rw [Source.sourceSpanOffset, h.chain.firstSpan, hfind]
  dsimp only
  rw [if_neg (Nat.not_lt.mpr hstart), h.offset_eq hG hO hp hstart hend]

theorem addSpan_eq {out : List DynSourceSpan} {gs ge os oe : Nat} (h : gs < ge) :
    addSpan out gs ge os oe = out ++ [⟨gs, ge, os, oe⟩] := by
  rw [addSpan, if_neg fun hc => (Nat.ne_of_gt h) hc.1]

theorem copyLoop_behind {lo pos g o G' O' L' : Nat} {t' : Trace} (h : Traced g o l rest t' G' O' L')
    (hg : hi ≤ g) (out : List DynSourceSpan) : copyLoop s lo hi pos rest out = out := by
  cases h with
  | nil => rfl
  | piece hpiece h => rw [copyLoop, if_pos hg]

theorem slice_append {bytes t' : Trace} {i k : Nat} (hi : i ≤ bytes.length) (hik : i ≤ k) :
    ((bytes ++ t').drop i).take (k - i) =
      (bytes.drop i).take (min k bytes.length - i) ++ t'.take (k - bytes.length) := by
  rw [drop_append_of_le_length hi, take_append, length_drop,
    show k - i - (bytes.length - i) = k - bytes.length by omega]
  congr 1
  rcases Nat.le_total k bytes.length with hle | hle
  · rw [Nat.min_eq_left hle]
  · rw [Nat.min_eq_right hle, take_of_length_le (by rw [length_drop]; omega),
      take_of_length_le (by rw [length_drop])]

theorem lastFrom_slice {bytes : Trace} (hij : i ≤ j) (hj : j ≤ bytes.length) :
    Trace.lastFrom (bytes.lastFrom l i) ((bytes.drop i).take (j - i)) (j - i) = bytes.lastFrom l j := by
  obtain ⟨k, rfl⟩ : ∃ k, j = i + k := ⟨j - i, by omega⟩
  rw [Nat.add_sub_cancel_left]
  cases k with
  | zero => rfl
  | succ k =>
    have hlt : i + k < bytes.length := by omega
    rw [← add_assoc, Trace.lastFrom, Trace.lastFrom, getElem?_take_of_lt (Nat.lt_succ_self k),
      getElem?_drop, getElem?_eq_getElem hlt]

/-- **Copied spans** are pieces of the slice of the trace that is copied. -/
theorem copyLoop_traced (hall : Traced 0 0 0 s.spans t G O L) (hG : G ≤ uint32Max)
    (hO : O ≤ uint32Max) {lo : Nat} (pos : Nat) (hlo : lo ≤ hi) (hhi : hi ≤ G) {g o G' O' L' : Nat}
    {t' : Trace} (h : Traced g o l rest t' G' O' L') (hg : g ≤ hi) (hG' : hi ≤ G')
    (hmem : ∀ p ∈ rest, p ∈ s.spans) (out : List DynSourceSpan) :
    ∃ pieces, copyLoop s lo hi pos rest out = out ++ pieces ∧
      Traced (pos + (max lo g - lo)) (valueAt s.spans (max lo g)) (t'.lastFrom l (max lo g - g)) pieces
        ((t'.drop (max lo g - g)).take (hi - max lo g)) (pos + (hi - lo)) (valueAt s.spans hi)
        (t'.lastFrom l (hi - g)) := by
  have hdone : ∀ {g' l' : Nat} {t'' : Trace}, max lo g' = hi →
      Traced (pos + (max lo g' - lo)) (valueAt s.spans (max lo g')) (t''.lastFrom l' (max lo g' - g')) []
        ((t''.drop (max lo g' - g')).take (hi - max lo g')) (pos + (hi - lo)) (valueAt s.spans hi)
        (t''.lastFrom l' (hi - g')) := by
    intro g' l' t'' hmax
    rw [hmax, Nat.sub_self, take_zero]
    exact .nil _ _ _
  induction h generalizing out with
  | nil g o l => exact ⟨[], (append_nil out).symm, hdone (by omega)⟩
  | @piece g o l m G' O' L' bytes t' rest hpiece h ih =>
    obtain ⟨hp, hrest⟩ := forall_mem_cons.mp hmem
    rw [copyLoop]
    by_cases hbreak : g ≥ hi
    · rw [if_pos hbreak]
      exact ⟨[], (append_nil out).symm, hdone (by omega)⟩
    rw [if_neg hbreak]
    have ha : (if lo > g then lo else g) = max lo g := by
      split_ifs <;> omega
    have hb : (if hi < g + bytes.length then hi else g + bytes.length) = min hi (g + bytes.length) := by
      split_ifs <;> omega
    rw [ha, hb]
    by_cases hempty : max lo g ≥ min hi (g + bytes.length)
    · -- nothing of this span is copied
      rw [if_pos hempty]
      by_cases hend : g + bytes.length ≤ hi
      · obtain ⟨pieces, heq, htraced⟩ := ih hend hG' hrest out
        refine ⟨pieces, heq, ?_⟩
        have hmax : max lo (g + bytes.length) = max lo g := by omega
        have hlo : max lo g - g = bytes.length + (max lo g - (g + bytes.length)) := by omega
        have hhi : hi - g = bytes.length + (hi - (g + bytes.length)) := by omega
        have hlength := h.bounds.1
        rw [hmax] at htraced
        rw [hlo, hhi, lastFrom_append_right (by omega), lastFrom_append_right (by omega), drop_append,
          drop_eq_nil_of_le (Nat.le_add_right _ _), nil_append, Nat.add_sub_cancel_left]
        exact htraced
      · rw [copyLoop_behind h (by omega)]
        exact ⟨[], (append_nil out).symm, hdone (by omega)⟩
    rw [if_neg hempty]
    have hga : g ≤ max lo g := Nat.le_max_right _ _
    generalize hA : max lo g = a at *
    have hvalue : ∀ x, g ≤ x → x ≤ g + bytes.length →
        valueAt s.spans x = o + scaled bytes.length m (x - g) := by
      intro x hgx hxg
      rw [hall.value_of_mem hp hgx hxg, Nat.add_sub_cancel_left, Nat.add_sub_cancel_left]
    have hva := hvalue a hga (by omega)
    have hvb := hvalue (min hi (g + bytes.length)) (by omega) (by omega)
    have hmin : min hi (g + bytes.length) - g = min (hi - g) bytes.length := by omega
    have hcut := hpiece.cut (i := a - g) (j := min (hi - g) bytes.length) (by omega) (by omega)
    have hlength : ((bytes.drop (a - g)).take (min (hi - g) bytes.length - (a - g))).length =
        min hi (g + bytes.length) - a := by
      rw [length_take, length_drop]
      omega
    have hmono := scaled_mono bytes.length m (show a - g ≤ min (hi - g) bytes.length by omega)
    rw [hmin] at hvb
    rw [addSpan_eq (by omega), hall.originalOffset hG hO (ne_nil_of_mem hp) (by omega),
      hall.originalOffset hG hO (ne_nil_of_mem hp) (by omega),
      show hi - a = hi - g - (a - g) by omega, slice_append (by omega) (by omega),
      lastFrom_append_left (by omega)]
    rw [← hva] at hcut
    have hfirst := Traced.piece (g := pos + (a - lo)) hcut (.nil _ _ _)
    rw [hlength, show pos + (a - lo) + (min hi (g + bytes.length) - a) =
        pos + (min hi (g + bytes.length) - lo) by omega,
      show valueAt s.spans a + (scaled bytes.length m (min (hi - g) bytes.length) -
          scaled bytes.length m (a - g)) = valueAt s.spans (min hi (g + bytes.length)) by omega,
      show min hi (g + bytes.length) - a = min (hi - g) bytes.length - (a - g) by omega,
      lastFrom_slice (by omega) (by omega), append_nil] at hfirst
    by_cases hend : g + bytes.length ≤ hi
    · obtain ⟨pieces, heq, htraced⟩ := ih hend hG' hrest
        (out ++ [⟨pos + (a - lo), pos + (min hi (g + bytes.length) - lo), valueAt s.spans a,
          valueAt s.spans (min hi (g + bytes.length))⟩])
      refine ⟨_, by rw [heq, append_assoc], hfirst.append ?_⟩
      have hlength := h.bounds.1
      rw [show max lo (g + bytes.length) = g + bytes.length by omega, Nat.sub_self, drop_zero] at htraced
      rw [show min hi (g + bytes.length) = g + bytes.length by omega,
        show min (hi - g) bytes.length = bytes.length by omega, Nat.sub_sub,
        show hi - g = bytes.length + (hi - (g + bytes.length)) by omega, lastFrom_append_right (by omega)]
      exact htraced
    rw [copyLoop_behind h (by omega)]
    refine ⟨_, rfl, ?_⟩
    rw [show min hi (g + bytes.length) = hi by omega, show min (hi - g) bytes.length = hi - g by omega]
      at hfirst ⊢
    rw [show hi - g - bytes.length = 0 by omega, take_zero, append_nil,
      lastFrom_append_left (by omega)]
    exact hfirst

theorem cursorLoop_eq (lo : Nat) (rest : List DynSourceSpan) (cursor : Nat) :
    ∃ k, cursorLoop lo rest cursor = cursor + k ∧ ∀ p ∈ rest.take k, p.generatedEnd ≤ lo := by
  induction rest generalizing cursor with
  | nil => exact ⟨0, rfl, nofun⟩
  | cons p rest ih =>
    rw [cursorLoop]
    split_ifs with hp
    · obtain ⟨k, hk, hpassed⟩ := ih (cursor + 1)
      refine ⟨k + 1, by rw [hk]; omega, ?_⟩
      rw [take_succ_cons]
      exact forall_mem_cons.mpr ⟨hp, hpassed⟩
    · exact ⟨0, rfl, nofun⟩

/-- What has been written is a text with its trace and its spans. -/
structure Written (s : DynSource) (t : Trace) (out : Output) (written : Trace) : Prop where
  text : out.text = written.map Prod.fst
  traced : Traced 0 0 0 out.spans written out.pos (valueAt s.spans out.input) (t.lastFrom 0 out.input)
  passed : ∀ p ∈ s.spans.take out.cursor, p.generatedEnd ≤ out.input

theorem copyText_written (hall : Traced 0 0 0 s.spans t G O L) (hG : G ≤ uint32Max)
    (hO : O ≤ uint32Max) (htext : s.text = t.map Prod.fst) {out : Output}
    (h : Written s t out written) (hlo : out.input ≤ hi) (hhi : hi ≤ G) :
    Written s t (copyText s out hi) (written ++ (t.drop out.input).take (hi - out.input)) := by
  obtain ⟨k, hcursor, hpassed⟩ := cursorLoop_eq out.input (s.spans.drop out.cursor) out.cursor
  have hpassed' : ∀ p ∈ s.spans.take (out.cursor + k), p.generatedEnd ≤ out.input := by
    intro p hp
    rw [take_add, mem_append] at hp
    exact hp.elim (h.passed p) (hpassed p)
  have hsplit := hall
  rw [← take_append_drop (out.cursor + k) s.spans] at hsplit
  obtain ⟨g, o, l, t1, t2, rfl, h1, h2⟩ := hsplit.split
  have hg : g ≤ out.input := h1.end_le (Nat.zero_le _) hpassed'
  have hlength : g = t1.length := by
    have hbounds := h1.bounds
    omega
  obtain ⟨pieces, heq, htraced⟩ := copyLoop_traced hall hG hO out.pos hlo hhi h2 (hg.trans hlo) hhi
    (fun p hp => mem_of_mem_drop hp) out.spans
  have hl := h1.last_eq
  have hbounds := h2.bounds
  have hslice : ((t1 ++ t2).drop out.input).take (hi - out.input) =
      (t2.drop (out.input - g)).take (hi - out.input) := by
    rw [drop_append, drop_eq_nil_of_le (by omega), nil_append, hlength]
  have hlast : ∀ i, g ≤ i → i ≤ G → Trace.lastFrom 0 (t1 ++ t2) i = Trace.lastFrom l t2 (i - g) := by
    intro i hgi hiG
    rw [show i = t1.length + (i - g) by omega, lastFrom_append_right (by omega), ← hl,
      show t1.length + (i - g) - g = i - g by omega]
  have hmax : max out.input g = out.input := Nat.max_eq_left hg
  rw [hmax, Nat.sub_self, add_zero, ← hslice, ← hlast _ hg (hlo.trans hhi), ← hlast _ (hg.trans hlo) hhi]
    at htraced
  constructor
  case text =>
    have hmap : (((t1 ++ t2).drop out.input).take (hi - out.input)).map Prod.fst =
        (s.text.drop out.input).take (hi - out.input) := by rw [htext, map_take, map_drop]
    rw [copyText, map_append, hmap, h.text]
  case traced =>
    simp only [copyText, copySpans, hcursor, heq]
    exact h.traced.append htraced
  case passed =>
    simp only [copyText, copySpans, hcursor]
    exact fun p hp => (hpassed' p hp).trans hlo

def Trace.Ordered (t : Trace) : Prop := t.Pairwise fun x y => x.2.last ≤ y.2.last

theorem Traced.firstAt_le (hall : Traced 0 0 0 spans t G O L) (hspans : spans ≠ []) (hi : i ≤ G) :
    t.firstAt O i ≤ valueAt spans i := by
  have hbounds := hall.bounds
  rw [Trace.firstAt]
  cases hx : t[i]? with
  | none =>
    have hle : t.length ≤ i := getElem?_eq_none_iff.mp hx
    rw [show i = G by omega, hall.value_end hspans]
  | some x =>
    have hlocates := hall.locates hx
    rw [zero_add] at hlocates
    change x.2.first ≤ _
    cases hor : x.2 with
    | copied o =>
      rw [hor] at hlocates
      exact hlocates.1.ge
    | replaced lo hi =>
      rw [hor] at hlocates
      exact hlocates.1

theorem Traced.le_lastFrom (hall : Traced 0 0 0 spans t G O L) (hspans : spans ≠ []) (hi : i ≤ G) :
    valueAt spans i ≤ t.lastFrom 0 i := by
  have hbounds := hall.bounds
  cases i with
  | zero => exact (hall.value_start hspans).le
  | succ i =>
    have hlt : i < t.length := by omega
    have hlocates := hall.locates (getElem?_eq_getElem hlt)
    rw [zero_add] at hlocates
    rw [Trace.lastFrom, getElem?_eq_getElem hlt]
    dsimp only
    cases hor : t[i].2 with
    | copied o =>
      rw [hor] at hlocates
      exact hlocates.2.le
    | replaced lo hi =>
      rw [hor] at hlocates
      exact hlocates.2.1

theorem Trace.Ordered.last_le (ht : t.Ordered) {x : UInt8 × Origin} (hx : t[i]? = some x)
    (hij : i < j) (hj : j ≤ t.length) : x.2.last ≤ t.lastFrom 0 j := by
  cases j with
  | zero => exact absurd hij (Nat.not_lt_zero i)
  | succ j =>
    obtain ⟨hi, rfl⟩ := List.getElem?_eq_some_iff.mp hx
    rw [Trace.lastFrom, getElem?_eq_getElem hj]
    rcases Nat.lt_or_eq_of_le (Nat.le_of_lt_succ hij) with hlt | rfl
    · exact pairwise_iff_getElem.mp ht i j hi hj hlt
    · exact le_rfl

/-- Behind the start of an edit that replaces a range which is not empty, the range goes on. -/
theorem Traced.value_lt_last (hall : Traced 0 0 0 spans t G O L) (hspans : spans ≠ [])
    (ht : t.Ordered) (hij : i ≤ j) (hj : j ≤ G) (h : t.firstAt O i < t.lastFrom 0 j) :
    valueAt spans i < t.lastFrom 0 j := by
  have hbounds := hall.bounds
  rcases Nat.lt_or_eq_of_le hij with hlt | rfl
  · have hi : i < t.length := by omega
    have hx := getElem?_eq_getElem hi
    have hlocates := hall.locates hx
    rw [zero_add] at hlocates
    have hlast := ht.last_le hx hlt (by omega)
    have hmono := hall.value_mono (Nat.zero_le i) (Nat.le_succ i) (by omega)
    rw [Trace.firstAt, hx] at h
    dsimp only at h
    cases hor : t[i].2 with
    | copied o =>
      rw [hor] at hlocates h
      exact hlocates.1.trans_lt h
    | replaced lo hi =>
      rw [hor] at hlocates hlast h
      obtain ⟨-, hnext, hin⟩ := hlocates
      by_cases hlohi : lo < hi
      · exact (hin hlohi).trans_le hlast
      · exact (hmono.trans (hnext.trans (Nat.not_lt.mp hlohi))).trans_lt h
  · have hseam := hall.seam hspans (i := i) (by omega)
    rw [zero_add] at hseam
    exact hseam h

theorem applyEdit_written (hall : Traced 0 0 0 s.spans t G O L) (hG : G ≤ uint32Max)
    (hO : O ≤ uint32Max) (hspans : s.spans ≠ []) (htext : s.text = t.map Prod.fst) (ht : t.Ordered)
    {out : Output} (h : Written s t out written) {e : Edit} (hlo : out.input ≤ e.start)
    (hle : e.start ≤ e.stop) (hhi : e.stop ≤ G) (hne : e.text ≠ []) :
    Written s t (applyEdit s out e) (written ++ (t.drop out.input).take (e.start - out.input) ++
      e.text.map fun byte => (byte, .replaced (t.firstAt O e.start) (t.lastFrom 0 e.stop))) := by
  have hcopied := copyText_written hall hG hO htext h hlo (hle.trans hhi)
  have hpos : 0 < e.text.length := length_pos_iff.mpr hne
  have hinput : (copyText s out e.start).input = e.start := rfl
  rw [applyEdit]
  generalize copyText s out e.start = out' at hcopied hinput ⊢
  generalize written ++ (t.drop out.input).take (e.start - out.input) = written' at hcopied ⊢
  have htraced := hcopied.traced
  rw [hinput] at htraced
  have hfirst := hall.firstAt_le hspans (hle.trans hhi)
  have hlast := hall.le_lastFrom hspans hhi
  have hmono := hall.value_mono (Nat.zero_le _) hle hhi
  have hlt := hall.value_lt_last hspans ht hle hhi
  have hseam := hall.value_lt_last hspans ht (Nat.le_refl e.start) (hle.trans hhi)
  generalize hbytes : (e.text.map fun byte =>
    (byte, Origin.replaced (t.firstAt O e.start) (t.lastFrom 0 e.stop))) = bytes
  have hlength : bytes.length = e.text.length := by rw [← hbytes, length_map]
  have horigin : ∀ x ∈ bytes, x.2 = .replaced (t.firstAt O e.start) (t.lastFrom 0 e.stop) := by
    intro x hx
    rw [← hbytes] at hx
    obtain ⟨byte, -, rfl⟩ := mem_map.mp hx
    rfl
  have hpiece : PieceOf (t.lastFrom 0 e.start) (valueAt s.spans e.start)
      (valueAt s.spans e.stop - valueAt s.spans e.start) bytes := by
    refine .inr ⟨fun hc => ?_, _, _, horigin, hfirst, by omega, hlt, hseam⟩
    rw [hc, length_nil] at hlength
    omega
  have hedit := Traced.piece (g := out'.pos) hpiece (.nil _ _ _)
  rw [lastFrom_of_replaced horigin (by omega) le_rfl, hlength, append_nil,
    show valueAt s.spans e.start + (valueAt s.spans e.stop - valueAt s.spans e.start) =
      valueAt s.spans e.stop by omega] at hedit
  constructor
  case text =>
    dsimp only
    rw [hcopied.text, map_append, ← hbytes, map_map]
    congr 1
    exact (map_id _).symm
  case traced =>
    rw [addSpan_eq (by omega), hall.originalOffset hG hO hspans (hle.trans hhi),
      hall.originalOffset hG hO hspans hhi]
    exact htraced.append hedit
  case passed =>
    intro p hp
    have hp := hcopied.passed p hp
    rw [hinput] at hp
    exact hp.trans hle

/-- What is asked of edits of a text of length `G`. -/
def Valid (G : Nat) (edits : List Edit) : Prop :=
  ∀ e ∈ edits, e.start ≤ e.stop ∧ e.stop ≤ G ∧ e.text ≠ []

theorem edits_written (hall : Traced 0 0 0 s.spans t G O L) (hG : G ≤ uint32Max)
    (hO : O ≤ uint32Max) (hspans : s.spans ≠ []) (htext : s.text = t.map Prod.fst) (ht : t.Ordered)
    {edits : List Edit} (hsorted : SortedDisjoint edits) (hvalid : Valid G edits) {out : Output}
    (h : Written s t out written) (hinput : out.input ≤ G)
    (hstart : ∀ e ∈ edits, out.input ≤ e.start) :
    Written s t (copyText s (edits.foldl (applyEdit s) out) G) (written ++ splice t O edits out.input) := by
  induction edits generalizing out written with
  | nil =>
    have hbounds := hall.bounds
    have hcopied := copyText_written hall hG hO htext h hinput (le_refl G)
    rwa [take_of_length_le (by rw [length_drop]; omega)] at hcopied
  | cons e rest ih =>
    obtain ⟨hhead, hrest⟩ := pairwise_cons.mp hsorted
    obtain ⟨⟨hle, hhi, hne⟩, hvalid⟩ := forall_mem_cons.mp hvalid
    have hedit := applyEdit_written hall hG hO hspans htext ht h (hstart e mem_cons_self) hle hhi hne
    have hrec := ih hrest hvalid hedit hhi fun e' he' => (hhead e' he').1
    rw [foldl_cons, splice, append_assoc, ← append_assoc written, ← append_assoc]
    exact hrec

end Total

section Ordered

variable {t : Trace}

theorem Trace.Ordered.lastFrom_le (ht : t.Ordered) {i j : Nat} {x : UInt8 × Origin} (hx : t[j]? = some x)
    (hij : i ≤ j) : t.lastFrom 0 i ≤ x.2.last := by
  cases i with
  | zero => exact Nat.zero_le _
  | succ i =>
    obtain ⟨hj, rfl⟩ := List.getElem?_eq_some_iff.mp hx
    rw [Trace.lastFrom, getElem?_eq_getElem (by omega)]
    exact pairwise_iff_getElem.mp ht i j (by omega) hj hij

theorem Trace.Ordered.lastFrom_mono (ht : t.Ordered) {i j : Nat} (hij : i ≤ j) (hj : j ≤ t.length) :
    t.lastFrom 0 i ≤ t.lastFrom 0 j := by
  cases i with
  | zero => exact Nat.zero_le _
  | succ i =>
    rw [Trace.lastFrom, getElem?_eq_getElem (by omega)]
    exact ht.last_le (getElem?_eq_getElem (by omega)) hij hj

theorem splice_ordered (ht : t.Ordered) (O : Nat) {edits : List Edit} (hsorted : SortedDisjoint edits)
    (hvalid : Valid t.length edits) {input : Nat} (hstart : ∀ e ∈ edits, input ≤ e.start) :
    (splice t O edits input).Ordered ∧ ∀ x ∈ splice t O edits input, t.lastFrom 0 input ≤ x.2.last := by
  induction edits generalizing input with
  | nil =>
    rw [splice]
    refine ⟨ht.sublist (drop_sublist input t), fun x hx => ?_⟩
    obtain ⟨i, hi⟩ := mem_iff_getElem?.mp hx
    rw [getElem?_drop] at hi
    exact ht.lastFrom_le hi (Nat.le_add_right input i)
  | cons e rest ih =>
    obtain ⟨hhead, hrest⟩ := pairwise_cons.mp hsorted
    obtain ⟨⟨hle, hhi, -⟩, hvalid⟩ := forall_mem_cons.mp hvalid
    obtain ⟨hordered, hlast⟩ := ih hrest hvalid fun e' he' => (hhead e' he').1
    have hinput := hstart e mem_cons_self
    have hslice : ∀ x ∈ (t.drop input).take (e.start - input),
        t.lastFrom 0 input ≤ x.2.last ∧ x.2.last ≤ t.lastFrom 0 e.stop := by
      intro x hx
      obtain ⟨i, hi⟩ := mem_iff_getElem?.mp hx
      rw [getElem?_take] at hi
      split_ifs at hi with hlt
      · rw [getElem?_drop] at hi
        exact ⟨ht.lastFrom_le hi (Nat.le_add_right input i), ht.last_le hi (by omega) hhi⟩
    have hedit : ∀ x ∈ e.text.map fun byte =>
        (byte, Origin.replaced (t.firstAt O e.start) (t.lastFrom 0 e.stop)), x.2.last = t.lastFrom 0 e.stop := by
      intro x hx
      obtain ⟨byte, -, rfl⟩ := mem_map.mp hx
      rfl
    rw [splice]
    constructor
    · refine pairwise_append.mpr ⟨pairwise_append.mpr ⟨?_, ?_, ?_⟩, hordered, ?_⟩
      · exact ht.sublist ((take_sublist _ _).trans (drop_sublist input t))
      · exact pairwise_of_forall_mem_list fun x hx y hy => (hedit x hx).le.trans (hedit y hy).ge
      · exact fun x hx y hy => (hslice x hx).2.trans (hedit y hy).ge
      intro x hx y hy
      have hle := hlast y hy
      rcases mem_append.mp hx with hx | hx
      · exact (hslice x hx).2.trans hle
      · exact (hedit x hx).le.trans hle
    intro x hx
    have hmono := ht.lastFrom_mono (hinput.trans hle) hhi
    rcases mem_append.mp hx with hx | hx
    · rcases mem_append.mp hx with hx | hx
      · exact (hslice x hx).1
      · exact hmono.trans (hedit x hx).ge
    · exact hmono.trans (hlast x hx)

end Ordered

end Dyn.Source
