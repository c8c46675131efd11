import Dyn.Source.Spans

/-!
# Where the bytes of a text come from

A trace is a text whose bytes have an origin: a byte of the original text, or a replacement of a
range of it.  Edits of a trace are edits of a text that keep track of the origins.  A list of
spans is `Traced` along a trace when every span is a piece of it: bytes copied from where the
span says, or bytes of a replacement whose range contains what the span says.

`valueAt` is the original offset that a list of spans gives a position.  It increases, and the
bytes of a trace are where it says.
-/

namespace Dyn.Source

open Lib List

inductive Origin
  | copied (offset : Nat)
  | replaced (lo hi : Nat)
deriving DecidableEq, Repr

def Origin.first : Origin → Nat
  | .copied offset => offset
  | .replaced lo _ => lo

def Origin.last : Origin → Nat
  | .copied offset => offset + 1
  | .replaced _ hi => hi

/-- The byte starts at one original offset, and the next byte at another. -/
def Origin.Locates : Origin → Nat → Nat → Prop
  | .copied o, offset, next => offset = o ∧ next = o + 1
  | .replaced lo hi, offset, next => lo ≤ offset ∧ next ≤ hi ∧ (lo < hi → offset < hi)

abbrev Trace := List (UInt8 × Origin)

def loadedTrace (text : List UInt8) : Trace := text.mapIdx fun i byte => (byte, .copied i)

/-- The original offset at which the bytes from `i` on begin. -/
def Trace.firstAt (t : Trace) (length i : Nat) : Nat :=
  match t[i]? with
  | some x => x.2.first
  | none => length

/-- The original offset at which the bytes before `i` end; it is `l` at the beginning. -/
def Trace.lastFrom (l : Nat) (t : Trace) : Nat → Nat
  | 0 => l
  | i + 1 =>
      match t[i]? with
      | some x => x.2.last
      | none => l

/-- Edits of a text of which `input` bytes have been read: a replacement stands for the original
range from the first byte replaced to the last. -/
def splice (t : Trace) (length : Nat) : List Edit → Nat → Trace
  | [], input => t.drop input
  | e :: rest, input =>
      (t.drop input).take (e.start - input) ++
        (e.text.map fun byte => (byte, .replaced (t.firstAt length e.start) (t.lastFrom 0 e.stop))) ++
        splice t length rest e.stop

def SortedDisjoint (edits : List Edit) : Prop :=
  edits.Pairwise fun x y => x.stop ≤ y.start ∧ (x.start < y.start ∨ x.stop < y.stop)

/-- A source that has been edited again and again, each time relative to its current text, and
its trace. -/
inductive Edited (front : Frontend) (allowed : Edit → Prop) : DynSource → Trace → Prop
  | loaded {s : DynSource} (original : s.originalText = none) (spans : s.spans = [])
      (length : s.text.length ≤ uint32Max) : Edited front allowed s (loadedTrace s.text)
  | edit {s s' : DynSource} {t : Trace} {edits : List Edit} (h : Edited front allowed s t)
      (sorted : SortedDisjoint edits)
      (valid : ∀ e ∈ edits, e.start ≤ e.stop ∧ e.stop ≤ s.text.length ∧ allowed e)
      (apply : applyEdits front s edits = some s') :
      Edited front allowed s' (splice t (s.originalText.getD s.text).length edits 0)

section LastFrom

variable {l i : Nat} {t t' : Trace}

theorem lastFrom_append_left (h : i ≤ t.length) : Trace.lastFrom l (t ++ t') i = Trace.lastFrom l t i := by
  cases i with
  | zero => rfl
  | succ i => rw [Trace.lastFrom, Trace.lastFrom, getElem?_append_left h]

theorem lastFrom_append_right (h : i ≤ t'.length) : Trace.lastFrom l (t ++ t') (t.length + i) =
    Trace.lastFrom (Trace.lastFrom l t t.length) t' i := by
  cases i with
  | zero => exact lastFrom_append_left le_rfl
  | succ i =>
    rw [← add_assoc, Trace.lastFrom, Trace.lastFrom, getElem?_append_right (Nat.le_add_right _ _),
      Nat.add_sub_cancel_left, getElem?_eq_getElem h]

end LastFrom

/-- What a span can be behind a byte that ends at `l`: `bytes` are `m` original bytes from `o` on, or
a replacement of a range that contains these.  A range that is not empty goes on behind `o`. -/
def PieceOf (l o m : Nat) (bytes : Trace) : Prop :=
  m = bytes.length ∧ (∀ (i : Nat) (x : UInt8 × Origin), bytes[i]? = some x → x.2 = .copied (o + i)) ∨
  bytes ≠ [] ∧ ∃ lo hi, (∀ x ∈ bytes, x.2 = .replaced lo hi) ∧ lo ≤ o ∧ o + m ≤ hi ∧ (lo < hi → o < hi) ∧
    (lo < l → o < l)

/-- A list of spans along a trace, from generated position `g` and original offset `o` on, behind a
byte that ends at `l`. -/
inductive Traced : Nat → Nat → Nat → List DynSourceSpan → Trace → Nat → Nat → Nat → Prop
  | nil (g o l : Nat) : Traced g o l [] [] g o l
  | piece {g o l m G O L : Nat} {bytes t : Trace} {spans : List DynSourceSpan} (hpiece : PieceOf l o m bytes)
      (h : Traced (g + bytes.length) (o + m) (bytes.lastFrom l bytes.length) spans t G O L) :
      Traced g o l (⟨g, g + bytes.length, o, o + m⟩ :: spans) (bytes ++ t) G O L

/-- How far into its original range a span puts a position. -/
def scaled (n m i : Nat) : Nat := if n = 0 then 0 else i * m / n

theorem scaled_zero (n m : Nat) : scaled n m 0 = 0 := by
  rw [scaled, zero_mul, Nat.zero_div, ite_self]

variable {m i l o : Nat} {bytes : Trace} {g G O : Nat} {spans : List DynSourceSpan}

variable {n : Nat} {x : UInt8 × Origin} {L : Nat} {t : Trace}

theorem scaled_self (h : n ≠ 0) : scaled n m n = m := by
  rw [scaled, if_neg h, Nat.mul_div_cancel_left m (Nat.pos_of_ne_zero h)]

theorem scaled_mono (n m : Nat) {j : Nat} (h : i ≤ j) : scaled n m i ≤ scaled n m j := by
  rw [scaled, scaled]
  split_ifs
  · exact le_refl 0
  · exact Nat.div_le_div_right (Nat.mul_le_mul_right m h)

theorem scaled_le (h : i ≤ n) : scaled n m i ≤ m := by
  by_cases hn : n = 0
  · rw [scaled, if_pos hn]
    exact Nat.zero_le m
  · exact (scaled_mono n m h).trans (scaled_self hn).le

theorem scaled_lt (h : i < n) (hm : 0 < m) : scaled n m i < m := by
  rw [scaled, if_neg (by omega)]
  exact Nat.div_lt_of_lt_mul (Nat.mul_lt_mul_of_pos_right h hm)

theorem scaled_exact (h : i ≤ n) : scaled n n i = i := by
  by_cases hn : n = 0
  · rw [scaled, if_pos hn]
    omega
  · rw [scaled, if_neg hn, Nat.mul_div_cancel i (Nat.pos_of_ne_zero hn)]

theorem PieceOf.empty {l o m : Nat} (h : PieceOf l o m []) : m = 0 := by
  obtain ⟨hm, -⟩ | ⟨hne, -⟩ := h
  · exact hm
  · exact absurd rfl hne

theorem PieceOf.scaled_length (h : PieceOf l o m bytes) :
    scaled bytes.length m bytes.length = m := by
  by_cases hn : bytes.length = 0
  · rw [eq_nil_of_length_eq_zero hn] at h
    rw [scaled, if_pos hn, h.empty]
  · exact scaled_self hn

/-- A position of a replacement of a range that is not empty lies before the end of the range. -/
theorem PieceOf.value_lt {l o m lo hi i : Nat} {bytes : Trace} (hi' : i < bytes.length) (hlo : lo < hi)
    (hin : lo < hi → o < hi) (hhi : o + m ≤ hi) (h : PieceOf l o m bytes) :
    o + scaled bytes.length m i < hi := by
  rcases Nat.eq_zero_or_pos m with rfl | hm
  · rw [scaled, mul_zero, Nat.zero_div, ite_self]
    exact hin hlo
  · have hstrict := scaled_lt hi' hm
    omega

theorem lastFrom_of_replaced {lo hi : Nat} (h : ∀ x ∈ bytes, x.2 = .replaced lo hi) (hpos : 0 < i)
    (hi' : i ≤ bytes.length) : bytes.lastFrom l i = hi := by
  cases i with
  | zero => exact absurd hpos (lt_irrefl 0)
  | succ i =>
    rw [Trace.lastFrom, getElem?_eq_getElem hi']
    dsimp only
    rw [h _ (getElem_mem hi')]
    rfl

theorem PieceOf.cut {j : Nat} (h : PieceOf l o m bytes) (hij : i < j) (hj : j ≤ bytes.length) :
    PieceOf (bytes.lastFrom l i) (o + scaled bytes.length m i)
      (scaled bytes.length m j - scaled bytes.length m i) ((bytes.drop i).take (j - i)) := by
  have hlength : ((bytes.drop i).take (j - i)).length = j - i := by
    rw [length_take, length_drop]
    omega
  have hmono := scaled_mono bytes.length m hij.le
  have hle := scaled_le (m := m) hj
  have hpiece := h
  obtain ⟨rfl, hbytes⟩ | ⟨-, lo, hi, hbytes, hlo, hhi, hin, hseam⟩ := h
  · left
    rw [scaled_exact hj, scaled_exact (hij.le.trans hj), hlength]
    refine ⟨rfl, fun k x hk => ?_⟩
    rw [getElem?_take] at hk
    split_ifs at hk with hlt
    · rw [getElem?_drop] at hk
      rw [hbytes _ _ hk, add_assoc]
  right
  refine ⟨fun hc => ?_, lo, hi, fun x hx => ?_, by omega, by omega, fun hlt => ?_, fun hlt => ?_⟩
  · rw [hc, length_nil] at hlength
    omega
  · exact hbytes x (mem_of_mem_drop (mem_of_mem_take hx))
  · exact hpiece.value_lt (hij.trans_le hj) hlt hin hhi
  rcases Nat.eq_zero_or_pos i with rfl | hpos
  · rw [scaled_zero, add_zero]
    exact hseam hlt
  · rw [lastFrom_of_replaced hbytes hpos (hij.le.trans hj)] at hlt ⊢
    exact hpiece.value_lt (hij.trans_le hj) hlt hin hhi

theorem PieceOf.locates (h : PieceOf l o m bytes) (hx : bytes[i]? = some x) :
    x.2.Locates (o + scaled bytes.length m i) (o + scaled bytes.length m (i + 1)) := by
  have hlt : i < bytes.length := (List.getElem?_eq_some_iff.mp hx).1
  have hpiece := h
  obtain ⟨rfl, hbytes⟩ | ⟨-, lo, hi, hbytes, hlo, hhi, hin, -⟩ := h
  · rw [hbytes i x hx, scaled_exact hlt.le, scaled_exact hlt]
    exact ⟨rfl, rfl⟩
  rw [hbytes x (mem_of_getElem? hx)]
  have hnext : i + 1 ≤ bytes.length := hlt
  have hle := scaled_le (m := m) hnext
  exact ⟨by omega, by omega, fun hlohi => hpiece.value_lt hlt hlohi hin hhi⟩

/-- **The seams of a piece**: where a byte begins before the byte before it ends, the value lies
before that end. -/
theorem PieceOf.seam (h : PieceOf l o m bytes) (hx : bytes[i]? = some x)
    (hseam : x.2.first < bytes.lastFrom l i) :
    o + scaled bytes.length m i < bytes.lastFrom l i := by
  have hlt : i < bytes.length := (List.getElem?_eq_some_iff.mp hx).1
  have hpiece := h
  obtain ⟨rfl, hbytes⟩ | ⟨-, lo, hi, hbytes, -, hhi, hin, hl⟩ := h
  · rw [hbytes i x hx] at hseam
    rwa [scaled_exact hlt.le]
  rw [hbytes x (mem_of_getElem? hx)] at hseam
  rcases Nat.eq_zero_or_pos i with rfl | hpos
  · rw [scaled_zero, add_zero]
    exact hl hseam
  · rw [lastFrom_of_replaced hbytes hpos hlt.le] at hseam ⊢
    exact hpiece.value_lt hlt hseam hin hhi

theorem Traced.bounds (h : Traced g o l spans t G O L) : G = g + t.length ∧ o ≤ O := by
  induction h with
  | nil g o l => exact ⟨rfl, le_refl o⟩
  | piece hpiece h ih =>
    rw [length_append]
    omega

theorem Traced.append {g o l g' o' l' G O L : Nat} {spans spans' : List DynSourceSpan} {t t' : Trace}
    (h : Traced g o l spans t g' o' l') (h' : Traced g' o' l' spans' t' G O L) :
    Traced g o l (spans ++ spans') (t ++ t') G O L := by
  induction h with
  | nil g o l => exact h'
  | piece hpiece h ih =>
    rw [cons_append, append_assoc]
    exact .piece hpiece (ih h')

theorem Traced.split {spans' : List DynSourceSpan} (h : Traced g o l (spans ++ spans') t G O L) :
    ∃ g' o' l' t1 t2, t = t1 ++ t2 ∧ Traced g o l spans t1 g' o' l' ∧ Traced g' o' l' spans' t2 G O L := by
  induction spans generalizing g o l t with
  | nil => exact ⟨g, o, l, [], t, rfl, .nil g o l, h⟩
  | cons p spans ih =>
    rw [cons_append] at h
    cases h with
    | piece hpiece h =>
      obtain ⟨g', o', l', t1, t2, rfl, h1, h2⟩ := ih h
      exact ⟨g', o', l', _ ++ t1, t2, (append_assoc _ _ _).symm, .piece hpiece h1, h2⟩

theorem Traced.end_le {lo : Nat} (h : Traced g o l spans t G O L) (hg : g ≤ lo)
    (hspans : ∀ p ∈ spans, p.generatedEnd ≤ lo) : G ≤ lo := by
  induction h with
  | nil g o l => exact hg
  | piece hpiece h ih =>
    obtain ⟨hp, hrest⟩ := forall_mem_cons.mp hspans
    exact ih hp hrest

def Chain : Nat → Nat → List DynSourceSpan → Nat → Nat → Prop
  | g, o, [], G, O => g = G ∧ o = O
  | g, o, p :: spans, G, O => p.generatedStart = g ∧ p.originalStart = o ∧ p.generatedStart ≤ p.generatedEnd ∧
      p.originalStart ≤ p.originalEnd ∧ Chain p.generatedEnd p.originalEnd spans G O

theorem Traced.chain (h : Traced g o l spans t G O L) : Chain g o spans G O := by
  induction h with
  | nil g o l => exact ⟨rfl, rfl⟩
  | piece hpiece h ih => exact ⟨rfl, rfl, Nat.le_add_right _ _, Nat.le_add_right _ _, ih⟩

theorem Chain.le_end (h : Chain g o spans G O) :
    ∀ p ∈ spans, g ≤ p.generatedStart ∧ p.generatedStart ≤ p.generatedEnd := by
  induction spans generalizing g o with
  | nil => exact nofun
  | cons q spans ih =>
    obtain ⟨hg, -, hgen, -, hrest⟩ := h
    intro p hp
    rcases mem_cons.mp hp with rfl | hp
    · exact ⟨hg.ge, hgen⟩
    · have hrec := ih hrest p hp
      omega

theorem Chain.ascending (h : Chain g o spans G O) :
    spans.Pairwise fun p q => p.generatedEnd ≤ q.generatedStart ∧ p.generatedEnd ≤ q.generatedEnd := by
  induction spans generalizing g o with
  | nil => exact .nil
  | cons p spans ih =>
    obtain ⟨-, -, -, -, hrest⟩ := h
    refine .cons (fun q hq => ?_) (ih hrest)
    have hq := hrest.le_end q hq
    exact ⟨hq.1, hq.1.trans hq.2⟩

theorem Chain.firstSpan (h : Chain g o spans G O) (position : Nat) :
    spans[firstSpan spans position]? = spans.find? fun p => !decide (p.generatedEnd < position) := by
  refine getElem?_lowerBound (h.ascending.imp fun hpq hq => ?_)
  exact decide_eq_true (hpq.2.trans_lt (of_decide_eq_true hq))

/-- The original offset of a position: the first span that contains it decides. -/
def valueAt : List DynSourceSpan → Nat → Nat
  | [], _ => 0
  | p :: spans, x =>
      if p.generatedEnd < x then valueAt spans x
      else p.originalStart +
        scaled (p.generatedEnd - p.generatedStart) (p.originalEnd - p.originalStart) (x - p.generatedStart)

theorem valueAt_head {x : Nat} (spans : List DynSourceSpan) (hx : x ≤ g + n) :
    valueAt (⟨g, g + n, o, o + m⟩ :: spans) x = o + scaled n m (x - g) := by
  rw [valueAt, if_neg (Nat.not_lt.mpr hx), Nat.add_sub_cancel_left, Nat.add_sub_cancel_left]

theorem valueAt_tail {x : Nat} (spans : List DynSourceSpan) (hx : g + n < x) :
    valueAt (⟨g, g + n, o, o + m⟩ :: spans) x = valueAt spans x := by
  rw [valueAt, if_pos hx]

section Values

variable {g o l G O L : Nat} {spans : List DynSourceSpan} {t : Trace}

variable {x : Nat}

theorem Traced.le_value (h : Traced g o l spans t G O L) (hg : g ≤ x) (hG : x ≤ G)
    (hspans : spans ≠ []) : o ≤ valueAt spans x ∧ valueAt spans x ≤ O := by
  induction h with
  | nil g o l => exact absurd rfl hspans
  | @piece g o l m G O L bytes t spans hpiece h ih =>
    have hbounds := h.bounds
    rcases lt_or_ge (g + bytes.length) x with hx | hx
    · rw [valueAt_tail spans hx]
      have hne : spans ≠ [] := by
        rintro rfl
        cases h
        omega
      have hrec := ih hx.le hG hne
      omega
    · rw [valueAt_head spans hx]
      have hle : scaled bytes.length m (x - g) ≤ m := scaled_le (by omega)
      omega

theorem Traced.value_mono (h : Traced g o l spans t G O L) {y : Nat} (hg : g ≤ x) (hxy : x ≤ y)
    (hG : y ≤ G) : valueAt spans x ≤ valueAt spans y := by
  induction h with
  | nil g o l => exact le_refl 0
  | @piece g o l m G O L bytes t spans hpiece h ih =>
    rcases lt_or_ge (g + bytes.length) x with hx | hx
    · rw [valueAt_tail spans hx, valueAt_tail spans (hx.trans_le hxy)]
      exact ih hx.le hG
    rw [valueAt_head spans hx]
    rcases lt_or_ge (g + bytes.length) y with hy | hy
    · rw [valueAt_tail spans hy]
      have hne : spans ≠ [] := by
        rintro rfl
        cases h
        omega
      have hrest := (h.le_value hy.le hG hne).1
      have hle : scaled bytes.length m (x - g) ≤ m := scaled_le (by omega)
      omega
    · rw [valueAt_head spans hy]
      exact Nat.add_le_add_left (scaled_mono _ _ (by omega)) o

theorem Traced.value_start (h : Traced g o l spans t G O L) (hspans : spans ≠ []) : valueAt spans g = o := by
  cases h with
  | nil => exact absurd rfl hspans
  | piece hpiece h => rw [valueAt_head _ (Nat.le_add_right _ _), Nat.sub_self, scaled_zero, add_zero]

/-- The value where spans end: spans that follow without a byte keep it. -/
theorem Traced.value_end (h : Traced g o l spans t G O L) (hspans : spans ≠ []) : valueAt spans G = O := by
  induction h with
  | nil g o l => exact absurd rfl hspans
  | @piece g o l m G O L bytes t spans hpiece h ih =>
    have hbounds := h.bounds
    rcases lt_or_ge (g + bytes.length) G with hG | hG
    · rw [valueAt_tail spans hG]
      refine ih ?_
      rintro rfl
      cases h
      omega
    rw [valueAt_head spans hG, show G - g = bytes.length by omega, hpiece.scaled_length]
    refine le_antisymm hbounds.2 ?_
    by_cases hne : spans = []
    · subst hne
      cases h
      exact le_rfl
    have hrec := ih hne
    have hstart := h.value_start hne
    rw [show g + bytes.length = G by omega] at hstart
    omega

theorem Traced.value_of_mem (h : Traced g o l spans t G O L) {p : DynSourceSpan} (hp : p ∈ spans)
    (hstart : p.generatedStart ≤ x) (hend : x ≤ p.generatedEnd) :
    valueAt spans x = p.originalStart +
      scaled (p.generatedEnd - p.generatedStart) (p.originalEnd - p.originalStart) (x - p.generatedStart) := by
  induction h with
  | nil g o l => cases hp
  | @piece g o l m G O L bytes t spans hpiece h ih =>
    rcases mem_cons.mp hp with rfl | hp
    · rw [valueAt_head spans hend, Nat.add_sub_cancel_left, Nat.add_sub_cancel_left]
    have hne : spans ≠ [] := ne_nil_of_mem hp
    have hrec := ih hp
    have hge := (h.chain.le_end p hp).1
    rcases lt_or_ge (g + bytes.length) x with hx | hx
    · rw [valueAt_tail spans hx]
      exact hrec
    -- the seam belongs to this span and to the next
    have hseam : x = g + bytes.length := by omega
    rw [valueAt_head spans hx, ← hrec, hseam, h.value_start hne, Nat.add_sub_cancel_left,
      hpiece.scaled_length]

theorem Traced.locates (h : Traced g o l spans t G O L) {i : Nat} {x : UInt8 × Origin} (hx : t[i]? = some x) :
    x.2.Locates (valueAt spans (g + i)) (valueAt spans (g + i + 1)) := by
  induction h generalizing i with
  | nil g o l => cases hx
  | @piece g o l m G O L bytes t spans hpiece h ih =>
    rcases lt_or_ge i bytes.length with hi | hi
    · rw [getElem?_append_left hi] at hx
      rw [valueAt_head spans (by omega), valueAt_head spans (by omega), Nat.add_sub_cancel_left,
        add_assoc g i 1, Nat.add_sub_cancel_left]
      exact hpiece.locates hx
    rw [getElem?_append_right hi] at hx
    have hrec := ih hx
    rw [show g + bytes.length + (i - bytes.length) = g + i by omega] at hrec
    have hlt : i - bytes.length < t.length := (List.getElem?_eq_some_iff.mp hx).1
    have hne : spans ≠ [] := by
      rintro rfl
      cases h
      exact absurd hlt (Nat.not_lt_zero _)
    rw [valueAt_tail spans (show g + bytes.length < g + i + 1 by omega)]
    rcases Nat.lt_or_eq_of_le hi with hlt' | heq
    · rwa [valueAt_tail spans (show g + bytes.length < g + i by omega)]
    rw [← heq] at hrec ⊢
    rwa [valueAt_head spans le_rfl, Nat.add_sub_cancel_left, hpiece.scaled_length,
      ← h.value_start hne]

theorem Traced.last_eq (h : Traced g o l spans t G O L) : L = t.lastFrom l t.length := by
  induction h with
  | nil g o l => rfl
  | piece hpiece h ih => rw [ih, length_append, lastFrom_append_right le_rfl]

/-- **Where a byte begins before the byte before it ends**, the value lies before that end. -/
theorem Traced.seam (h : Traced g o l spans t G O L) (hspans : spans ≠ []) {i : Nat} (hi : i ≤ t.length)
    (hseam : t.firstAt O i < t.lastFrom l i) : valueAt spans (g + i) < t.lastFrom l i := by
  induction h generalizing i with
  | nil g o l => exact absurd rfl hspans
  | @piece g o l m G O L bytes t spans hpiece h ih =>
    have hvalue := (Traced.piece hpiece h).value_end (cons_ne_nil _ _)
    rcases lt_or_ge i bytes.length with hlt | hge
    · rw [lastFrom_append_left hlt.le] at hseam ⊢
      rw [Trace.firstAt, getElem?_append_left hlt, getElem?_eq_getElem hlt] at hseam
      rw [valueAt_head spans (by omega), Nat.add_sub_cancel_left]
      exact hpiece.seam (getElem?_eq_getElem hlt) hseam
    obtain ⟨k, rfl⟩ : ∃ k, i = bytes.length + k := ⟨i - bytes.length, by omega⟩
    rw [length_append] at hi
    have hk : k ≤ t.length := by omega
    rw [lastFrom_append_right hk] at hseam ⊢
    rw [Trace.firstAt, getElem?_append_right (Nat.le_add_right _ _), Nat.add_sub_cancel_left] at hseam
    by_cases hne : spans = []
    · subst hne
      cases h
      obtain rfl : k = 0 := by simpa using hk
      rwa [add_zero, hvalue]
    have hrec := ih hne hk hseam
    rcases Nat.eq_zero_or_pos k with rfl | hpos
    · rw [add_zero] at hrec ⊢
      rwa [valueAt_head spans le_rfl, Nat.add_sub_cancel_left, hpiece.scaled_length,
        ← h.value_start hne]
    · rwa [valueAt_tail spans (by omega), ← add_assoc]

end Values

end Dyn.Source
